import AelfApp.Libsol.Reading
import AelfApp.Libsol.TransactionSummary

/-!
The two message bodies (`instruction.c`) and the function that reads one and
fills the summary store with it (`message.c`).
-/

namespace AelfApp.Libsol

open Memory Wire

variable {β : Type}

/-- `toKey` is the source's `to`. Its `from` is never set and is left out. -/
structure SystemTransferInfo (β : Type) where
  toKey : Option (Ptr β)
  amount : UInt64

/-- `fromKey` and `toKey` are the source's `from` and `to`. -/
structure SystemGetTxResultInfo (β : Type) where
  fromKey : Option (Ptr β)
  chain : Option (Ptr β)
  refBlockNumber : UInt64
  toKey : Option (Ptr β)
  amount : UInt64
  methodName : SizedString β

/-- The infos as `explicit_bzero` leaves them. -/
def SystemTransferInfo.zero : SystemTransferInfo β := ⟨none, 0⟩

def SystemGetTxResultInfo.zero : SystemGetTxResultInfo β := ⟨none, none, 0, none, 0, ⟨0, none⟩⟩

def parseSystemTransferInstruction (mem : Mem β) (parser : Parser β)
    (instruction : Instruction β) (info : SystemTransferInfo β) :
    Checked (Nat × Parser β × Instruction β × SystemTransferInfo β) :=
  bailIf (storing (parsePubkey parser info.toKey)
    fun toKey => (instruction, { info with toKey })) fun parser (instruction, info) =>
  bailIf (storing (parseData mem parser instruction)
    fun instruction => (instruction, info)) fun parser (instruction, info) =>
  storing (parseU64 mem parser info.amount)
    fun amount => (instruction, { info with amount })

def parseSystemGetTxResultInstruction (size : SizeT) (mem : Mem β) (parser : Parser β)
    (instruction : Instruction β) (info : SystemGetTxResultInfo β) :
    Checked (Nat × Parser β × Instruction β × SystemGetTxResultInfo β) :=
  bailIf (storing (parsePubkey parser info.fromKey)
    fun fromKey => (instruction, { info with fromKey })) fun parser (instruction, info) =>
  bailIf (storing (parsePubkey parser info.chain)
    fun chain => (instruction, { info with chain })) fun parser (instruction, info) =>
  bailIf (storing (parseU64 mem parser info.refBlockNumber)
    fun refBlockNumber => (instruction, { info with refBlockNumber }))
      fun parser (instruction, info) =>
  bailIf (storing (parseSizedString mem size parser info.methodName)
    fun methodName => (instruction, { info with methodName })) fun parser (instruction, info) =>
  bailIf (storing (parsePubkey parser info.toKey)
    fun toKey => (instruction, { info with toKey })) fun parser (instruction, info) =>
  bailIf (storing (parseData mem parser instruction)
    fun instruction => (instruction, info)) fun parser (instruction, info) =>
  storing (parseU64 mem parser info.amount)
    fun amount => (instruction, { info with amount })

def printSystemTransferInfo (info : SystemTransferInfo β) (summary : TransactionSummary β) :
    Checked (Nat × TransactionSummary β) := do
  let item := transactionSummaryPrimaryItem summary
  let summary ← summaryItemSetAmount item (.lit "Transfer") info.amount summary
  let item := transactionSummaryGeneralItem summary
  let summary ← summaryItemSetPubkey item (.lit "Recipient") info.toKey summary
  return (0, summary)

def printSystemGetTxResultInfo (info : SystemGetTxResultInfo β) (summary : TransactionSummary β) :
    Checked (Nat × TransactionSummary β) := do
  let item := transactionSummaryPrimaryItem summary
  let summary ← summaryItemSetString item (.lit "Type") (.lit "Get Transaction result") summary
  let item := transactionSummaryGeneralItem summary
  let summary ← summaryItemSetPubkey item (.lit "From") info.fromKey summary
  let item := transactionSummaryGeneralItem summary
  let summary ← summaryItemSetPubkey item (.lit "Contract") info.chain summary
  let item := transactionSummaryGeneralItem summary
  let summary ← summaryItemSetI64 item (.lit "Ref block number") info.refBlockNumber summary
  let item := transactionSummaryGeneralItem summary
  let summary ← summaryItemSetSizedString item (.lit "Method name") info.methodName summary
  let item := transactionSummaryGeneralItem summary
  let summary ← summaryItemSetPubkey item (.lit "Recipient") info.toKey summary
  let item := transactionSummaryGeneralItem summary
  let summary ← summaryItemSetAmount item (.lit "Amount") info.amount summary
  return (0, summary)

/-- The return codes of the parsers are ignored: all that is asked of a body
is that nothing of it is left over. -/
def processMessageBody (size : SizeT) (mem : Mem β) (messageBody : Ptr β)
    (messageBodyLength : Nat) (insCode : Nat) (summary : TransactionSummary β) :
    Checked (Nat × TransactionSummary β) := do
  let parser : Parser β := ⟨messageBody, messageBodyLength⟩
  -- not initialised in the source, and never read
  let instruction : Instruction β := ⟨0, none⟩
  if insCode = 3 then
    let (_, parser, _, info) ← parseSystemTransferInstruction mem parser instruction .zero
    if !parserIsEmpty parser then
      return (1, summary)
    printSystemTransferInfo info summary
  else if insCode = 4 then
    let (_, parser, _, info) ← parseSystemGetTxResultInstruction size mem parser instruction .zero
    if !parserIsEmpty parser then
      return (1, summary)
    printSystemGetTxResultInfo info summary
  else
    return (1, summary)

/-- Recipient, ticker, amount. -/
def transferFormat : Format :=
  (Format.fixed pubkeySize (Nat.zero_lt_succ _)).followedBy
    ((Format.counted (continuation 3)).followedBy (.fixed 8 (Nat.zero_lt_succ _)))

/-- From, contract, reference block number, method name, recipient, ticker,
amount. -/
def getTxResultFormat : Format :=
  (Format.fixed pubkeySize (Nat.zero_lt_succ _)).followedBy
    ((Format.fixed pubkeySize (Nat.zero_lt_succ _)).followedBy
      ((Format.fixed 8 (Nat.zero_lt_succ _)).followedBy
        ((Format.counted sizedStringLength).followedBy transferFormat)))

theorem parseSystemTransferInstruction_reads {mem : Mem β} {parser : Parser β}
    {bytes : List UInt8} (h : parser.rest mem = bytes) (instruction : Instruction β)
    (info : SystemTransferInfo β) :
    Reads transferFormat bytes parser
      (parseSystemTransferInstruction mem parser instruction info) := by
  apply ((parsePubkey_reads h _).storing _).bailIf
  rintro _ after ⟨instruction, info⟩ hto
  have hrest := Parser.rest_skip (h.trans hto)
  apply ((parseData_reads hrest _).storing _).bailIf
  rintro _ last ⟨instruction, info⟩ hticker
  exact (parseU64_reads (Parser.rest_skip (hrest.trans hticker)) _).storing _

theorem parseSystemGetTxResultInstruction_reads {size : SizeT} {mem : Mem β} {parser : Parser β}
    {bytes : List UInt8} (h : parser.rest mem = bytes) (hsize : parser.bufferLength ≤ size.max)
    (instruction : Instruction β) (info : SystemGetTxResultInfo β) :
    Reads getTxResultFormat bytes parser
      (parseSystemGetTxResultInstruction size mem parser instruction info) := by
  apply ((parsePubkey_reads h _).storing _).bailIf
  rintro first after ⟨instruction, info⟩ hfrom
  have hrest := Parser.rest_skip (h.trans hfrom)
  apply ((parsePubkey_reads hrest _).storing _).bailIf
  rintro second after ⟨instruction, info⟩ hchain
  have hrest := Parser.rest_skip (hrest.trans hchain)
  apply ((parseU64_reads hrest _).storing _).bailIf
  rintro third after ⟨instruction, info⟩ hblock
  have hrest := Parser.rest_skip (hrest.trans hblock)
  have hfits : (((parser.skip first.length).skip second.length).skip third.length).bufferLength ≤
      size.max := by
    simp only [Parser.skip_bufferLength]
    omega
  apply ((parseSizedString_reads hrest hfits _).storing _).bailIf
  rintro _ after ⟨instruction, info⟩ hname
  have hrest := Parser.rest_skip (hrest.trans hname)
  apply ((parsePubkey_reads hrest _).storing _).bailIf
  rintro _ after ⟨instruction, info⟩ hto
  have hrest := Parser.rest_skip (hrest.trans hto)
  apply ((parseData_reads hrest _).storing _).bailIf
  rintro _ last ⟨instruction, info⟩ hticker
  exact (parseU64_reads (Parser.rest_skip (hrest.trans hticker)) _).storing _

end AelfApp.Libsol
