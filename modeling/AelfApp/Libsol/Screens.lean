import AelfApp.Libsol.Message

/-!
From the bytes of a whole body to the screens of its review: which texts a
transfer and a get-tx-result show, and how much of a transfer they determine.
-/

namespace AelfApp.Libsol

open Memory Wire Numeral

variable {β : Type} {mem : Mem β}

section Fields

/-- The fields of a whole transfer body. -/
structure CarriesTransfer (body toKey ticker : List UInt8) (amount : UInt64) : Prop where
  toKey_length : toKey.length = pubkeySize
  body_eq : ∃ tickerLength, (continuation 3).Announces tickerLength ticker.length ∧
    body = toKey ++ (tickerLength ++ (ticker ++ leBytes 8 amount.toNat))

/-- The fields of a whole get-tx-result body. -/
structure CarriesGetTxResult (body fromKey chain : List UInt8) (refBlockNumber : UInt64)
    (methodName toKey ticker : List UInt8) (amount : UInt64) : Prop where
  fromKey_length : fromKey.length = pubkeySize
  chain_length : chain.length = pubkeySize
  methodName_length : methodName.length < 2 ^ 64
  body_eq : ∃ tail, CarriesTransfer tail toKey ticker amount ∧
    body = fromKey ++ (chain ++ (leBytes 8 refBlockNumber.toNat ++
      (leBytes 8 methodName.length ++ (methodName ++ tail))))

@[simp] theorem bailIf_zero {σ : Type} (parser : Parser β) (s : σ)
    (next : Parser β → σ → Checked (Nat × Parser β × σ)) :
    bailIf (.ok (0, parser, s)) next = next parser s := rfl

@[simp] theorem storing_ok {σ τ : Type} (ret : Nat) (parser : Parser β) (value : τ)
    (store : τ → σ) :
    storing (.ok (ret, parser, value)) store = .ok (ret, parser, store value) := rfl

theorem parserIsEmpty_of_rest {parser : Parser β} (h : parser.rest mem = []) :
    parserIsEmpty parser = true := by
  have hlength := congrArg List.length h
  rw [Parser.rest_length, List.length_nil] at hlength
  exact decide_eq_true hlength

/-- A key at the front of what is left. -/
theorem parsePubkey_append {parser : Parser β} {key after : List UInt8}
    (hkey : key.length = pubkeySize) (h : parser.rest mem = key ++ after)
    (pubkey : Option (Ptr β)) :
    parsePubkey parser pubkey = .ok (0, parser.skip pubkeySize, some parser.buffer) ∧
      mem.bytes parser.buffer pubkeySize = key ∧ (parser.skip pubkeySize).rest mem = after := by
  have hlength := Parser.bufferLength_of_rest h
  have hbytes := Parser.bytes_of_rest h
  have hafter := Parser.rest_skip h
  rw [hkey] at hlength hbytes hafter
  exact ⟨parsePubkey_ok (Nat.le.intro hlength.symm) pubkey, hbytes, hafter⟩

/-- A number of eight bytes at the front of what is left. -/
theorem parseU64_leBytes {parser : Parser β} {number : UInt64} {after : List UInt8}
    (h : parser.rest mem = leBytes 8 number.toNat ++ after) (value : UInt64) :
    parseU64 mem parser value = .ok (0, parser.skip 8, number) ∧
      (parser.skip 8).rest mem = after := by
  have hafter := Parser.rest_skip h
  rw [leBytes_length] at hafter
  refine ⟨?_, hafter⟩
  rw [parseU64_append (leBytes_length 8 number.toNat) h, leNat_leBytes number.toNat_lt,
    UInt64.ofNat_toNat]

/-- The ticker at the front of what is left. -/
theorem parseData_append {parser : Parser β} {tickerLength ticker after : List UInt8}
    (hticker : (continuation 3).Announces tickerLength ticker.length)
    (h : parser.rest mem = tickerLength ++ (ticker ++ after)) (instruction : Instruction β) :
    ∃ parser' instruction', parseData mem parser instruction = .ok (0, parser', instruction') ∧
      parser'.rest mem = after := by
  have hcall := parseData_announces hticker h instruction
  have hsplit : parser.rest mem = (tickerLength ++ ticker) ++ after :=
    h.trans (List.append_assoc _ _ _).symm
  have hafter := Parser.rest_skip hsplit
  rw [if_pos (by simp)] at hcall
  rw [List.length_append] at hafter
  exact ⟨_, _, hcall, hafter⟩

/-- A method name at the front of what is left. -/
theorem parseSizedString_append (size : SizeT) {parser : Parser β} {name after : List UInt8}
    (hname : name.length < 2 ^ 64) (hsize : parser.bufferLength ≤ size.max)
    (h : parser.rest mem = leBytes 8 name.length ++ (name ++ after)) (string : SizedString β) :
    ∃ string' : SizedString β, parseSizedString mem size parser string =
        .ok (0, parser.skip (8 + name.length), string') ∧
      string'.length.toNat = name.length ∧ mem.loadBytes string'.string name.length = .ok name ∧
      (parser.skip (8 + name.length)).rest mem = after := by
  have hlength : sizedStringLength.Announces (leBytes 8 name.length) name.length :=
    ⟨leBytes_length 8 _, leNat_leBytes hname⟩
  have hcall := parseSizedString_announces hlength h hsize string
  have hmiddle := Parser.rest_skip h
  have hbytes := Parser.bytes_of_rest hmiddle
  have hafter := Parser.rest_skip hmiddle
  rw [if_pos (by simp), leBytes_length] at hcall
  rw [Parser.skip_skip, leBytes_length] at hafter
  rw [Parser.skip_buffer, leBytes_length] at hbytes
  refine ⟨_, hcall, ?_, congrArg Except.ok hbytes, hafter⟩
  rw [UInt64.toNat_ofNat']
  exact Nat.mod_eq_of_lt hname

/-- The recipient is a pointer to its bytes, and the amount is the number. -/
theorem parseSystemTransferInstruction_carries {body toKey ticker : List UInt8} {amount : UInt64}
    (h : CarriesTransfer body toKey ticker amount) (parser : Parser β)
    (hrest : parser.rest mem = body) (instruction : Instruction β) (info : SystemTransferInfo β) :
    ∃ parser' instruction' key, parseSystemTransferInstruction mem parser instruction info =
        .ok (0, parser', instruction', { toKey := some key, amount }) ∧
      mem.bytes key pubkeySize = toKey ∧ parserIsEmpty parser' = true := by
  obtain ⟨tickerLength, hticker, rfl⟩ := h.body_eq
  obtain ⟨hkey, hbytes, hrest⟩ := parsePubkey_append h.toKey_length hrest info.toKey
  obtain ⟨parser₁, instruction₁, hdata, hrest⟩ := parseData_append hticker hrest instruction
  obtain ⟨hamount, hempty⟩ := parseU64_leBytes (hrest.trans (List.append_nil _).symm) info.amount
  refine ⟨parser₁.skip 8, instruction₁, parser.buffer, ?_, hbytes, parserIsEmpty_of_rest hempty⟩
  simp only [parseSystemTransferInstruction, hkey, storing_ok, bailIf_zero, hdata, hamount]

/-- The keys are pointers to their bytes, the numbers are the numbers, and the
method name is the bytes of that length. -/
theorem parseSystemGetTxResultInstruction_carries {body fromKey chain : List UInt8}
    {refBlockNumber : UInt64} {methodName toKey ticker : List UInt8} {amount : UInt64}
    (h : CarriesGetTxResult body fromKey chain refBlockNumber methodName toKey ticker amount)
    {size : SizeT} (parser : Parser β) (hrest : parser.rest mem = body)
    (hsize : parser.bufferLength ≤ size.max) (instruction : Instruction β)
    (info : SystemGetTxResultInfo β) :
    ∃ parser' instruction' fromPtr chainPtr name key,
      parseSystemGetTxResultInstruction size mem parser instruction info =
        .ok (0, parser', instruction', {
          fromKey := some fromPtr, chain := some chainPtr, refBlockNumber, methodName := name,
          toKey := some key, amount }) ∧
      mem.bytes fromPtr pubkeySize = fromKey ∧ mem.bytes chainPtr pubkeySize = chain ∧
      name.length.toNat = methodName.length ∧
      mem.loadBytes name.string methodName.length = .ok methodName ∧
      mem.bytes key pubkeySize = toKey ∧ parserIsEmpty parser' = true := by
  obtain ⟨tail, htail, rfl⟩ := h.body_eq
  obtain ⟨tickerLength, hticker, rfl⟩ := htail.body_eq
  obtain ⟨hfrom, hfromBytes, hrest⟩ := parsePubkey_append h.fromKey_length hrest info.fromKey
  obtain ⟨hchain, hchainBytes, hrest⟩ := parsePubkey_append h.chain_length hrest info.chain
  obtain ⟨hblock, hrest⟩ := parseU64_leBytes hrest info.refBlockNumber
  obtain ⟨name, hname, hnameLength, hnameBytes, hrest⟩ := parseSizedString_append size
    h.methodName_length (by simp only [Parser.skip_bufferLength]; omega) hrest info.methodName
  obtain ⟨hkey, hbytes, hrest⟩ := parsePubkey_append htail.toKey_length hrest info.toKey
  obtain ⟨parser₁, instruction₁, hdata, hrest⟩ := parseData_append hticker hrest instruction
  obtain ⟨hamount, hempty⟩ := parseU64_leBytes (hrest.trans (List.append_nil _).symm) info.amount
  refine ⟨parser₁.skip 8, instruction₁, _, _, name, _, ?_, hfromBytes, hchainBytes, hnameLength,
    hnameBytes, hbytes, parserIsEmpty_of_rest hempty⟩
  simp only [parseSystemGetTxResultInstruction, hfrom, hchain, hblock, hname, hkey, storing_ok,
    bailIf_zero, hdata, hamount]

end Fields

section Accepted

variable (size : SizeT) {messageBody : Ptr β} {messageBodyLength : Nat}

theorem processMessageBody_transfer {toKey ticker : List UInt8} {amount : UInt64}
    (h : CarriesTransfer (mem.bytes messageBody messageBodyLength) toKey ticker amount)
    (prior : SummaryGlobals β) :
    ∃ key summary, processMessageBody size mem messageBody messageBodyLength 3
        (transactionSummaryReset prior).summary = .ok (0, summary) ∧
      Holds summary (keptItems (transferReview { toKey := some key, amount })) ∧
      mem.bytes key pubkeySize = toKey := by
  obtain ⟨parser, instruction, key, hcall, hkey, hempty⟩ :=
    parseSystemTransferInstruction_carries h ⟨messageBody, messageBodyLength⟩ rfl ⟨0, none⟩ .zero
  obtain ⟨summary, hprint, hholds⟩ := printSystemTransferInfo_holds
    { toKey := some key, amount } prior
  refine ⟨key, summary, ?_, hholds, hkey⟩
  simp only [processMessageBody, ↓reduceIte, hcall, ok_bind, hempty, Bool.not_true,
    Bool.false_eq_true, hprint]

theorem processMessageBody_getTxResult {fromKey chain : List UInt8} {refBlockNumber : UInt64}
    {methodName toKey ticker : List UInt8} {amount : UInt64}
    (h : CarriesGetTxResult (mem.bytes messageBody messageBodyLength) fromKey chain refBlockNumber
      methodName toKey ticker amount)
    (hlength : messageBodyLength ≤ intMax) (prior : SummaryGlobals β) :
    ∃ fromPtr chainPtr name key summary,
      processMessageBody size mem messageBody messageBodyLength 4
        (transactionSummaryReset prior).summary = .ok (0, summary) ∧
      Holds summary (keptItems (getTxResultReview {
        fromKey := some fromPtr, chain := some chainPtr, refBlockNumber, methodName := name,
        toKey := some key, amount })) ∧
      mem.bytes fromPtr pubkeySize = fromKey ∧ mem.bytes chainPtr pubkeySize = chain ∧
      name.length.toNat = methodName.length ∧
      mem.loadBytes name.string methodName.length = .ok methodName ∧
      mem.bytes key pubkeySize = toKey := by
  obtain ⟨parser, instruction, fromPtr, chainPtr, name, key, hcall, hfrom, hchain, hname, hbytes,
      hkey, hempty⟩ :=
    parseSystemGetTxResultInstruction_carries h ⟨messageBody, messageBodyLength⟩ rfl
      (hlength.trans size.intMax_le_max) ⟨0, none⟩ .zero
  obtain ⟨summary, hprint, hholds⟩ := printSystemGetTxResultInfo_holds {
    fromKey := some fromPtr, chain := some chainPtr, refBlockNumber, methodName := name,
    toKey := some key, amount } prior
  refine ⟨fromPtr, chainPtr, name, key, summary, ?_, hholds, hfrom, hchain, hname, hbytes, hkey⟩
  have hcode : ¬ 4 = 3 := by omega
  simp only [processMessageBody, hcode, ↓reduceIte, hcall, ok_bind, hempty, Bool.not_true,
    Bool.false_eq_true, hprint]

end Accepted

section Screens

/-- The steps of a review show these screens, one after the other, and there
are no more, whatever the buffers hold. -/
def Shows (mem : Mem β) (flags : DisplayFlags) (summary : TransactionSummary β)
    (screens : List Screen) : Prop :=
  (transactionSummaryFinalize summary).2.length = screens.length ∧
    ∀ itemIndex (g : SummaryGlobals β), g.summary = summary →
      displayed mem itemIndex flags g =
        match screens[itemIndex]? with
        | some screen => .ok (0, some screen)
        | none => .ok (1, none)

/-- A review shows the screens of its items. -/
theorem Holds.shows {ops : List (TakeAndSet β)} {summary : TransactionSummary β}
    (h : Holds summary (keptItems ops)) (hprimary : ∃ op ∈ ops, op.getter = .primary)
    {flags : DisplayFlags} {screens : List Screen}
    (hscreens : (reviewItems ops).map (itemOutcome mem flags) =
      screens.map fun screen => .ok (0, some screen)) : Shows mem flags summary screens := by
  have hlength := congrArg List.length hscreens
  rw [List.length_map, List.length_map] at hlength
  have hsome : ¬ ∀ op ∈ ops, op.getter ≠ .primary := by
    simpa using hprimary
  constructor
  · rw [h.finalize_eq, if_neg hsome, List.length_map, hlength]
  · rintro itemIndex g rfl
    rw [h.displayed_eq hprimary]
    have hindex := congrArg (·[itemIndex]?) hscreens
    simp only [List.getElem?_map] at hindex
    cases hitem : (reviewItems ops)[itemIndex]? with
    | none =>
        rw [hitem] at hindex
        cases hscreen : screens[itemIndex]? with
        | none => rfl
        | some screen =>
            rw [hscreen] at hindex
            cases hindex
    | some item =>
        rw [hitem] at hindex
        cases hscreen : screens[itemIndex]? with
        | none =>
            rw [hscreen] at hindex
            cases hindex
        | some screen =>
            rw [hscreen] at hindex
            exact Option.some.inj hindex

/-- The screens of a transfer, for the decimal text of its amount. -/
def transferScreens (flags : DisplayFlags) (toKey amountText : List UInt8) : List Screen :=
  [⟨ascii "Transfer", amountText ++ ascii " ELF"⟩, ⟨ascii "Recipient", pubkeyText flags toKey⟩]

/-- The screens of a get-tx-result, for the decimal text of its amount. -/
def getTxResultScreens (flags : DisplayFlags) (fromKey chain : List UInt8)
    (refBlockNumber : UInt64) (methodName toKey amountText : List UInt8) : List Screen :=
  [⟨ascii "Type", ascii "Get Transaction result"⟩, ⟨ascii "From", pubkeyText flags fromKey⟩,
    ⟨ascii "Contract", pubkeyText flags chain⟩,
    ⟨ascii "Ref block number", numeral refBlockNumber.toNat⟩, ⟨ascii "Method name", methodName⟩,
    ⟨ascii "Recipient", pubkeyText flags toKey⟩, ⟨ascii "Amount", amountText ++ ascii " ELF"⟩]

/-- The titles of the two reviews. -/
def reviewTitles : List String :=
  ["Transfer", "Recipient", "Type", "From", "Contract", "Ref block number", "Method name", "Amount"]

/-- Every title fits into its buffer. -/
theorem clipped_title : ∀ title ∈ reviewTitles,
    clipped titleSize (CString.lit title).chars = ascii title := by
  decide

theorem itemOutcome_pubkey {flags : DisplayFlags} {key : Ptr β} {bytes : List UInt8}
    (h : mem.bytes key pubkeySize = bytes) (title : CString) :
    itemOutcome mem flags (.used title (.pubkey (some key))) =
      .ok (0, some ⟨clipped titleSize title.chars, pubkeyText flags bytes⟩) := by
  rw [← h]
  rfl

theorem itemOutcome_amount (flags : DisplayFlags) (title : CString) (amount : UInt64) :
    itemOutcome mem flags (.used title (.amount amount)) =
      .ok (0, some ⟨clipped titleSize title.chars,
        decimalText 8 amount.toNat ++ ascii " ELF"⟩) := rfl

/-- A number without a sign bit is shown without a sign. -/
theorem itemOutcome_i64 (flags : DisplayFlags) (title : CString) {i64 : UInt64}
    (h : i64.toNat < 2 ^ 63) :
    itemOutcome mem flags (.used title (.i64 i64)) =
      .ok (0, some ⟨clipped titleSize title.chars, numeral i64.toNat⟩) := by
  have hpositive : ¬ i64.toNat ≥ 2 ^ 63 := by omega
  have hdigits : (unitsFirst i64.toNat).length ≤ 19 :=
    unitsFirst_length_le (by decide) (h.trans (by decide))
  have hfits : ¬ textBufferLength ≤ (unitsFirst i64.toNat).length := by
    have hsize : textBufferLength = 45 := rfl
    omega
  simp only [itemOutcome, valueOutcome, i64Outcome, u64Outcome, hpositive, hfits, ↓reduceIte,
    ok_bind, pure_eq_ok]

/-- A short name without a NUL is shown whole. -/
theorem itemOutcome_sizedString (flags : DisplayFlags) (title : CString)
    {string : SizedString β} (name : CString) (hlength : string.length.toNat = name.chars.length)
    (hload : mem.loadBytes string.string name.chars.length = .ok name.chars)
    (hshort : name.chars.length < textBufferLength) :
    itemOutcome mem flags (.used title (.sizedString string)) =
      .ok (0, some ⟨clipped titleSize title.chars, name.chars⟩) := by
  have hmin : min textBufferLength string.length.toNat = name.chars.length := by omega
  have htext : sizedText textBufferLength string.length.toNat name.chars = name.chars := by
    rw [sizedText, if_pos (by omega), cString_of_noNul _ name.noNul]
  simp only [itemOutcome, valueOutcome, hmin, hload, htext, ok_bind, pure_eq_ok, ↓reduceIte]

theorem transfer_shows {key : Ptr β} {toKey : List UInt8} (hkey : mem.bytes key pubkeySize = toKey)
    {amount : UInt64} {summary : TransactionSummary β}
    (h : Holds summary (keptItems (transferReview { toKey := some key, amount })))
    (flags : DisplayFlags) :
    Shows mem flags summary (transferScreens flags toKey (decimalText 8 amount.toNat)) := by
  refine h.shows ⟨_, List.mem_cons_self, rfl⟩ ?_
  have hitems : reviewItems (transferReview { toKey := some key, amount }) =
      [.used (.lit "Transfer") (.amount amount),
        .used (.lit "Recipient") (.pubkey (some key))] := rfl
  simp only [hitems, List.map_cons, List.map_nil, itemOutcome_amount, itemOutcome_pubkey hkey,
    clipped_title "Transfer" (by decide), clipped_title "Recipient" (by decide), transferScreens]

theorem getTxResult_shows {fromPtr chainPtr key : Ptr β} {fromKey chain toKey : List UInt8}
    (hfrom : mem.bytes fromPtr pubkeySize = fromKey)
    (hchain : mem.bytes chainPtr pubkeySize = chain) (hkey : mem.bytes key pubkeySize = toKey)
    {refBlockNumber amount : UInt64} (hblock : refBlockNumber.toNat < 2 ^ 63)
    {name : SizedString β} {methodName : CString}
    (hname : name.length.toNat = methodName.chars.length)
    (hload : mem.loadBytes name.string methodName.chars.length = .ok methodName.chars)
    (hshort : methodName.chars.length < textBufferLength) {summary : TransactionSummary β}
    (h : Holds summary (keptItems (getTxResultReview {
      fromKey := some fromPtr, chain := some chainPtr, refBlockNumber, methodName := name,
      toKey := some key, amount })))
    (flags : DisplayFlags) :
    Shows mem flags summary (getTxResultScreens flags fromKey chain refBlockNumber
      methodName.chars toKey (decimalText 8 amount.toNat)) := by
  refine h.shows ⟨_, List.mem_cons_self, rfl⟩ ?_
  have htype : itemOutcome mem flags
      (.used (.lit "Type") (.string (.lit "Get Transaction result"))) =
        .ok (0, some ⟨ascii "Type", ascii "Get Transaction result"⟩) := by
    have htext : clipped textBufferLength (CString.lit "Get Transaction result").chars =
        ascii "Get Transaction result" := by decide
    simp only [itemOutcome, valueOutcome, htext, clipped_title "Type" (by decide), ok_bind,
      pure_eq_ok, ↓reduceIte]
  have hitems : reviewItems (getTxResultReview {
      fromKey := some fromPtr, chain := some chainPtr, refBlockNumber, methodName := name,
      toKey := some key, amount }) =
      [.used (.lit "Type") (.string (.lit "Get Transaction result")),
        .used (.lit "From") (.pubkey (some fromPtr)),
        .used (.lit "Contract") (.pubkey (some chainPtr)),
        .used (.lit "Ref block number") (.i64 refBlockNumber),
        .used (.lit "Method name") (.sizedString name),
        .used (.lit "Recipient") (.pubkey (some key)),
        .used (.lit "Amount") (.amount amount)] := rfl
  simp only [hitems, List.map_cons, List.map_nil, htype, itemOutcome_amount,
    itemOutcome_pubkey hfrom, itemOutcome_pubkey hchain, itemOutcome_pubkey hkey,
    itemOutcome_i64 flags _ hblock, itemOutcome_sizedString flags _ methodName hname hload hshort,
    clipped_title "From" (by decide), clipped_title "Contract" (by decide),
    clipped_title "Ref block number" (by decide), clipped_title "Method name" (by decide),
    clipped_title "Recipient" (by decide), clipped_title "Amount" (by decide), getTxResultScreens]

end Screens

section WellFormed

/-- A transfer, before it is encoded. -/
structure Transfer where
  toKey : Buffer UInt8 pubkeySize
  ticker : List UInt8
  amount : UInt64
  ticker_length : ticker.length < 2 ^ 21

/-- A get-tx-result, before it is encoded. -/
structure GetTxResult where
  fromKey : Buffer UInt8 pubkeySize
  chain : Buffer UInt8 pubkeySize
  refBlockNumber : UInt64
  methodName : CString
  transfer : Transfer
  refBlockNumber_lt : refBlockNumber.toNat < 2 ^ 63
  methodName_length : methodName.chars.length ≤ 44

/-- Recipient, ticker with its length in the shortest form, amount. -/
def Transfer.body (t : Transfer) : List UInt8 :=
  t.toKey.toList ++ (continuationBytes 3 t.ticker.length ++ (t.ticker ++ leBytes 8 t.amount.toNat))

def GetTxResult.body (r : GetTxResult) : List UInt8 :=
  r.fromKey.toList ++ (r.chain.toList ++ (leBytes 8 r.refBlockNumber.toNat ++
    (leBytes 8 r.methodName.chars.length ++ (r.methodName.chars ++ r.transfer.body))))

theorem Transfer.carries (t : Transfer) :
    CarriesTransfer t.body t.toKey.toList t.ticker t.amount where
  toKey_length := t.toKey.length_eq
  body_eq := ⟨_, continued_continuationBytes t.ticker_length, rfl⟩

theorem GetTxResult.carries (r : GetTxResult) :
    CarriesGetTxResult r.body r.fromKey.toList r.chain.toList r.refBlockNumber r.methodName.chars
      r.transfer.toKey.toList r.transfer.ticker r.transfer.amount where
  fromKey_length := r.fromKey.length_eq
  chain_length := r.chain.length_eq
  methodName_length := r.methodName_length.trans_lt (by decide)
  body_eq := ⟨_, r.transfer.carries, rfl⟩

theorem continuationBytes_length_le (room n : Nat) : (continuationBytes room n).length ≤ room := by
  induction room generalizing n with
  | zero => exact Nat.le_refl 0
  | succ room ih =>
      rw [continuationBytes]
      split
      · simp
      · simpa using ih (n / 128)

theorem GetTxResult.body_length (r : GetTxResult) : r.body.length ≤ intMax := by
  have hfrom := r.fromKey.length_eq
  have hchain := r.chain.length_eq
  have hto := r.transfer.toKey.length_eq
  have hname := r.methodName_length
  have hticker := r.transfer.ticker_length
  have hlength := continuationBytes_length_le 3 r.transfer.ticker.length
  have hsize : pubkeySize = 32 := rfl
  have hmax : intMax = 2147483647 := rfl
  simp only [GetTxResult.body, Transfer.body, List.length_append, leBytes_length]
  omega

/-- Every well-formed message is accepted after a reset and shown as it is:
its kinds, its titles, its texts, for all flags and whatever the buffers held. -/
theorem well_formed_messages_shown (size : SizeT) (mem : Mem β) (messageBody : Ptr β)
    (prior : SummaryGlobals β) :
    (∀ t : Transfer, mem.bytes messageBody t.body.length = t.body →
      ∃ summary amountText, processMessageBody size mem messageBody t.body.length 3
          (transactionSummaryReset prior).summary = .ok (0, summary) ∧
        transactionSummaryFinalize summary = (0, [.amount, .pubkey]) ∧
        IsDecimal amountText ((t.amount.toNat : ℚ) / 10 ^ 8) ∧
        ∀ flags : DisplayFlags,
          Shows mem flags summary (transferScreens flags t.toKey.toList amountText)) ∧
    (∀ r : GetTxResult, mem.bytes messageBody r.body.length = r.body →
      ∃ summary amountText, processMessageBody size mem messageBody r.body.length 4
          (transactionSummaryReset prior).summary = .ok (0, summary) ∧
        transactionSummaryFinalize summary =
          (0, [.string, .pubkey, .pubkey, .i64, .sizedString, .pubkey, .amount]) ∧
        IsDecimal amountText ((r.transfer.amount.toNat : ℚ) / 10 ^ 8) ∧
        ∀ flags : DisplayFlags, Shows mem flags summary
          (getTxResultScreens flags r.fromKey.toList r.chain.toList r.refBlockNumber
            r.methodName.chars r.transfer.toKey.toList amountText)) := by
  refine ⟨fun t hbody => ?_, fun r hbody => ?_⟩
  · obtain ⟨key, summary, hcall, hholds, hkey⟩ := processMessageBody_transfer size
      (hbody.symm ▸ t.carries) prior
    refine ⟨summary, _, hcall, ?_, isDecimal_decimalText 8 t.amount.toNat, ?_⟩
    · rw [hholds.finalize_eq]
      rfl
    · exact transfer_shows hkey hholds
  · obtain ⟨fromPtr, chainPtr, name, key, summary, hcall, hholds, hfrom, hchain, hname, hload,
        hkey⟩ :=
      processMessageBody_getTxResult size (hbody.symm ▸ r.carries) r.body_length prior
    refine ⟨summary, _, hcall, ?_, isDecimal_decimalText 8 r.transfer.amount.toNat, ?_⟩
    · rw [hholds.finalize_eq]
      rfl
    · exact getTxResult_shows hfrom hchain hkey r.refBlockNumber_lt hname hload
        (Nat.lt_succ_of_le r.methodName_length) hholds

/-- A transfer of 1.5 ELF, and a get-tx-result with it. -/
def sampleTransfer : Transfer where
  toKey := .replicate _ 7
  ticker := ascii "ELF"
  amount := 150000000
  ticker_length := by decide

def sampleGetTxResult : GetTxResult where
  fromKey := .replicate _ 1
  chain := .replicate _ 2
  refBlockNumber := 1000
  methodName := .lit "Transfer"
  transfer := sampleTransfer
  refBlockNumber_lt := by decide
  methodName_length := by decide

theorem bytes_ofBytes_whole (body : List UInt8) :
    (Mem.ofBytes body).bytes ⟨(), 0⟩ body.length = body := by
  have hbytes := Mem.bytes_ofBytes [] body []
  rwa [List.nil_append, List.append_nil] at hbytes

theorem sample_messages_shown :
    (∃ summary amountText, processMessageBody .bits32 (Mem.ofBytes sampleTransfer.body) ⟨(), 0⟩
        sampleTransfer.body.length 3 (.empty : TransactionSummary Unit) = .ok (0, summary) ∧
      transactionSummaryFinalize summary = (0, [.amount, .pubkey]) ∧
      IsDecimal amountText ((sampleTransfer.amount.toNat : ℚ) / 10 ^ 8) ∧
      ∀ flags : DisplayFlags, Shows (Mem.ofBytes sampleTransfer.body) flags summary
          (transferScreens flags sampleTransfer.toKey.toList amountText)) ∧
    (∃ summary amountText, processMessageBody .bits32 (Mem.ofBytes sampleGetTxResult.body)
        ⟨(), 0⟩ sampleGetTxResult.body.length 4 (.empty : TransactionSummary Unit) =
          .ok (0, summary) ∧
      transactionSummaryFinalize summary =
        (0, [.string, .pubkey, .pubkey, .i64, .sizedString, .pubkey, .amount]) ∧
      IsDecimal amountText ((sampleTransfer.amount.toNat : ℚ) / 10 ^ 8) ∧
      ∀ flags : DisplayFlags, Shows (Mem.ofBytes sampleGetTxResult.body) flags summary
          (getTxResultScreens flags sampleGetTxResult.fromKey.toList
            sampleGetTxResult.chain.toList 1000 (CString.lit "Transfer").chars
            sampleTransfer.toKey.toList amountText)) :=
  ⟨(well_formed_messages_shown .bits32 (Mem.ofBytes sampleTransfer.body) ⟨(), 0⟩
      ⟨.empty, .replicate _ 0, .replicate _ 0⟩).1 sampleTransfer (bytes_ofBytes_whole _),
    (well_formed_messages_shown .bits32 (Mem.ofBytes sampleGetTxResult.body) ⟨(), 0⟩
      ⟨.empty, .replicate _ 0, .replicate _ 0⟩).2 sampleGetTxResult (bytes_ofBytes_whole _)⟩

end WellFormed

section BlockNumber

/-- The step behind the contract shows the block number, unsigned. -/
def BlockNumberShown (mem : Mem β) (summary : TransactionSummary β) (refBlockNumber : UInt64) :
    Prop :=
  ∀ (flags : DisplayFlags) (g : SummaryGlobals β), g.summary = summary →
    displayed mem 3 flags g =
      .ok (0, some ⟨ascii "Ref block number", numeral refBlockNumber.toNat⟩)

/-- A number with the sign bit is shown as the negative number of its pattern. -/
theorem itemOutcome_i64_negative (flags : DisplayFlags) (title : CString) {i64 : UInt64}
    (h : 2 ^ 63 ≤ i64.toNat) :
    itemOutcome mem flags (.used title (.i64 i64)) =
      .ok (0, some ⟨clipped titleSize title.chars,
        charMinus :: numeral (2 ^ 64 - i64.toNat)⟩) := by
  have hdigits : (numeral (2 ^ 64 - i64.toNat)).length ≤ 19 := by
    rw [numeral_length]
    apply unitsFirst_length_le (by decide)
    have hlt := i64.toNat_lt
    omega
  have hfits : ¬ textBufferLength - 1 ≤ (numeral (2 ^ 64 - i64.toNat)).length := by
    have hsize : textBufferLength = 45 := rfl
    omega
  simp only [itemOutcome, valueOutcome, i64Outcome, ge_iff_le, h, ↓reduceIte, u64Outcome_eq,
    negated_toNat h, hfits, ok_bind, pure_eq_ok]

/-- The item of that step. -/
theorem blockNumber_displayed {info : SystemGetTxResultInfo β} {summary : TransactionSummary β}
    (h : Holds summary (keptItems (getTxResultReview info))) (flags : DisplayFlags)
    {g : SummaryGlobals β} (hg : g.summary = summary) :
    displayed mem 3 flags g =
      itemOutcome mem flags (.used (.lit "Ref block number") (.i64 info.refBlockNumber)) := by
  subst hg
  rw [h.displayed_eq ⟨_, List.mem_cons_self, rfl⟩]
  rfl

/-- A minus sign is no beginning of an unsigned number. -/
theorem not_blockNumberShown {info : SystemGetTxResultInfo β} {summary : TransactionSummary β}
    (h : Holds summary (keptItems (getTxResultReview info)))
    (hnegative : 2 ^ 63 ≤ info.refBlockNumber.toNat) :
    ¬ BlockNumberShown mem summary info.refBlockNumber := by
  intro hshown
  have hsaid := hshown displayFlagNone ⟨summary, .replicate _ 0, .replicate _ 0⟩ rfl
  rw [blockNumber_displayed h _ rfl, itemOutcome_i64_negative _ _ hnegative] at hsaid
  simp only [Except.ok.injEq, Prod.mk.injEq, Option.some.injEq, Screen.mk.injEq, true_and]
    at hsaid
  exact numeral_ne_cons _ _ (by decide) hsaid.2.symm

variable (size : SizeT) {messageBody : Ptr β} {messageBodyLength : Nat}

/-- Exactly the block numbers without the sign bit of an `int64_t` are shown as
they are. -/
theorem blockNumberShown_iff {fromKey chain : List UInt8} {refBlockNumber : UInt64}
    {methodName toKey ticker : List UInt8} {amount : UInt64}
    (h : CarriesGetTxResult (mem.bytes messageBody messageBodyLength) fromKey chain refBlockNumber
      methodName toKey ticker amount)
    (hlength : messageBodyLength ≤ intMax) (prior : SummaryGlobals β) :
    ∃ summary, processMessageBody size mem messageBody messageBodyLength 4
        (transactionSummaryReset prior).summary = .ok (0, summary) ∧
      (BlockNumberShown mem summary refBlockNumber ↔ refBlockNumber.toNat < 2 ^ 63) := by
  obtain ⟨fromPtr, chainPtr, name, key, summary, hcall, hholds, -⟩ :=
    processMessageBody_getTxResult size h hlength prior
  refine ⟨summary, hcall, ?_⟩
  constructor
  · intro hshown
    by_contra hnegative
    exact not_blockNumberShown hholds (Nat.le_of_not_lt hnegative) hshown
  · intro hpositive flags g hg
    rw [blockNumber_displayed hholds flags hg, itemOutcome_i64 flags _ hpositive,
      clipped_title "Ref block number" (by decide)]

/-- The equivalence at a block number that is shown. -/
theorem blockNumberShown_iff_sample :
    ∃ summary, processMessageBody .bits32 (Mem.ofBytes sampleGetTxResult.body) ⟨(), 0⟩
        sampleGetTxResult.body.length 4 (.empty : TransactionSummary Unit) = .ok (0, summary) ∧
      (BlockNumberShown (Mem.ofBytes sampleGetTxResult.body) summary 1000 ↔
        (1000 : UInt64).toNat < 2 ^ 63) :=
  blockNumberShown_iff .bits32
    ((bytes_ofBytes_whole sampleGetTxResult.body).symm ▸ sampleGetTxResult.carries)
    sampleGetTxResult.body_length ⟨.empty, .replicate _ 0, .replicate _ 0⟩

/-- The same request for another block. -/
def blockBody (refBlockNumber : UInt64) : List UInt8 :=
  List.replicate 32 1 ++ (List.replicate 32 2 ++ (leBytes 8 refBlockNumber.toNat ++
    (leBytes 8 (ascii "Transfer").length ++ (ascii "Transfer" ++ sampleTransfer.body))))

theorem blockBody_length (refBlockNumber : UInt64) : (blockBody refBlockNumber).length = 132 := by
  simp only [blockBody, List.length_append, List.length_replicate, leBytes_length]
  rfl

theorem blockBody_carries (refBlockNumber : UInt64) :
    CarriesGetTxResult (blockBody refBlockNumber) (List.replicate 32 1) (List.replicate 32 2)
      refBlockNumber (ascii "Transfer") sampleTransfer.toKey.toList sampleTransfer.ticker
      sampleTransfer.amount where
  fromKey_length := List.length_replicate
  chain_length := List.length_replicate
  methodName_length := by decide
  body_eq := ⟨_, sampleTransfer.carries, rfl⟩

/-- Block 2^64 - 1 is shown as block -1. -/
theorem last_block_shown_negative :
    ∃ summary, processMessageBody .bits32 (Mem.ofBytes (blockBody (-1))) ⟨(), 0⟩
        (blockBody (-1)).length 4 (.empty : TransactionSummary Unit) = .ok (0, summary) ∧
      ¬ BlockNumberShown (Mem.ofBytes (blockBody (-1))) summary (-1) := by
  have hlength : (blockBody (-1)).length ≤ intMax := by
    rw [blockBody_length]
    decide
  obtain ⟨fromPtr, chainPtr, name, key, summary, hcall, hholds, -⟩ :=
    processMessageBody_getTxResult .bits32
      ((bytes_ofBytes_whole (blockBody (-1))).symm ▸ blockBody_carries (-1)) hlength
      ⟨.empty, .replicate _ 0, .replicate _ 0⟩
  have hnegative : 2 ^ 63 ≤ (-1 : UInt64).toNat := by decide
  exact ⟨summary, hcall, not_blockNumberShown hholds hnegative⟩

end BlockNumber

section Determined

/-- Two reviews have the same number of steps, and each step shows the same. -/
def SameReview (mem : Mem β) (summary : TransactionSummary β) (mem' : Mem β)
    (summary' : TransactionSummary β) (flags : DisplayFlags) : Prop :=
  (transactionSummaryFinalize summary).2.length = (transactionSummaryFinalize summary').2.length ∧
    ∀ itemIndex < (transactionSummaryFinalize summary).2.length,
      ∀ g g' : SummaryGlobals β, g.summary = summary → g'.summary = summary' →
        displayed mem itemIndex flags g = displayed mem' itemIndex flags g'

/-- Reviews that show known screens are the same exactly if the screens are. -/
theorem sameReview_iff {mem mem' : Mem β} {summary summary' : TransactionSummary β}
    {flags : DisplayFlags} {screens screens' : List Screen}
    (h : Shows mem flags summary screens) (h' : Shows mem' flags summary' screens') :
    SameReview mem summary mem' summary' flags ↔ screens = screens' := by
  rw [SameReview, h.1, h'.1]
  constructor
  · rintro ⟨hlength, hsame⟩
    apply List.ext_getElem hlength
    intro i hi hi'
    have hstep := hsame i hi ⟨summary, .replicate _ 0, .replicate _ 0⟩
      ⟨summary', .replicate _ 0, .replicate _ 0⟩ rfl rfl
    rw [h.2 i _ rfl, h'.2 i _ rfl, List.getElem?_eq_getElem hi, List.getElem?_eq_getElem hi']
      at hstep
    simpa using hstep
  · rintro rfl
    refine ⟨rfl, fun i _ g g' hg hg' => ?_⟩
    rw [h.2 i g hg, h'.2 i g' hg']

/-- With long keys, the screens of a transfer are those of another exactly if
recipient and amount are. -/
theorem transferScreens_inj {toKey toKey' : List UInt8} {amount amount' : UInt64}
    (hkey : toKey.length = pubkeySize) (hkey' : toKey'.length = pubkeySize) :
    transferScreens displayFlagLongPubkeys toKey (decimalText 8 amount.toNat) =
        transferScreens displayFlagLongPubkeys toKey' (decimalText 8 amount'.toNat) ↔
      toKey = toKey' ∧ amount = amount' := by
  have hlong : displayFlagLongPubkeys &&& displayFlagLongPubkeys ≠ 0 := by decide
  constructor
  · intro h
    simp only [transferScreens, List.cons.injEq, Screen.mk.injEq, true_and, and_true,
      List.append_cancel_right_eq, pubkeyText, if_pos hlong] at h
    refine ⟨base58Text_injective (hkey.trans hkey'.symm) h.2, ?_⟩
    exact UInt64.toNat_inj.mp (decimalText_injective h.1)
  · rintro ⟨rfl, rfl⟩
    rfl

variable {size : SizeT} {mem mem' : Mem β} {messageBody messageBody' : Ptr β} {n n' : Nat}

/-- The screens of a transfer show its recipient and its amount, but never its
ticker: two whole bodies with the same screens are told apart by nothing but
the ticker. -/
theorem transfer_review_determines_iff {toKey ticker toKey' ticker' : List UInt8}
    {amount amount' : UInt64} (prior prior' : SummaryGlobals β)
    (h : CarriesTransfer (mem.bytes messageBody n) toKey ticker amount)
    (h' : CarriesTransfer (mem'.bytes messageBody' n') toKey' ticker' amount') :
    ∃ summary summary',
      processMessageBody size mem messageBody n 3 (transactionSummaryReset prior).summary =
        .ok (0, summary) ∧
      processMessageBody size mem' messageBody' n' 3 (transactionSummaryReset prior').summary =
        .ok (0, summary') ∧
      ((SameReview mem summary mem' summary' displayFlagLongPubkeys →
          toKey = toKey' ∧ ticker = ticker' ∧ amount = amount') ↔
        (toKey = toKey' → amount = amount' → ticker = ticker')) := by
  obtain ⟨key, summary, hcall, hholds, hkey⟩ := processMessageBody_transfer size h prior
  obtain ⟨key', summary', hcall', hholds', hkey'⟩ :=
    processMessageBody_transfer size h' prior'
  refine ⟨summary, summary', hcall, hcall', ?_⟩
  have hsame := sameReview_iff (transfer_shows hkey hholds displayFlagLongPubkeys)
    (transfer_shows hkey' hholds' displayFlagLongPubkeys)
  rw [hsame, transferScreens_inj h.toKey_length h'.toKey_length]
  constructor
  · intro hall hto hamount
    exact (hall ⟨hto, hamount⟩).2.1
  · rintro hticker ⟨hto, hamount⟩
    exact ⟨hto, hticker hto hamount, hamount⟩

/-- The same transfer of another token. -/
def otherTransfer : Transfer :=
  { sampleTransfer with ticker := ascii "USD", ticker_length := by decide }

theorem transfer_review_determines_iff_sample :
    ∃ summary summary',
      processMessageBody .bits32 (Mem.ofBytes sampleTransfer.body) ⟨(), 0⟩
        sampleTransfer.body.length 3 (.empty : TransactionSummary Unit) = .ok (0, summary) ∧
      processMessageBody .bits32 (Mem.ofBytes otherTransfer.body) ⟨(), 0⟩
        otherTransfer.body.length 3 (.empty : TransactionSummary Unit) = .ok (0, summary') ∧
      ((SameReview (Mem.ofBytes sampleTransfer.body) summary (Mem.ofBytes otherTransfer.body)
            summary' displayFlagLongPubkeys →
          sampleTransfer.toKey.toList = otherTransfer.toKey.toList ∧
            ascii "ELF" = ascii "USD" ∧ (150000000 : UInt64) = 150000000) ↔
        (sampleTransfer.toKey.toList = otherTransfer.toKey.toList →
          (150000000 : UInt64) = 150000000 → ascii "ELF" = ascii "USD")) :=
  transfer_review_determines_iff ⟨.empty, .replicate _ 0, .replicate _ 0⟩
    ⟨.empty, .replicate _ 0, .replicate _ 0⟩
    ((bytes_ofBytes_whole sampleTransfer.body).symm ▸ sampleTransfer.carries)
    ((bytes_ofBytes_whole otherTransfer.body).symm ▸ otherTransfer.carries)

/-- 1.5 of one token and 1.5 of another look the same. -/
theorem transfer_review_hides_ticker :
    ∃ summary summary',
      processMessageBody .bits32 (Mem.ofBytes sampleTransfer.body) ⟨(), 0⟩
        sampleTransfer.body.length 3 (.empty : TransactionSummary Unit) = .ok (0, summary) ∧
      processMessageBody .bits32 (Mem.ofBytes otherTransfer.body) ⟨(), 0⟩
        otherTransfer.body.length 3 (.empty : TransactionSummary Unit) = .ok (0, summary') ∧
      SameReview (Mem.ofBytes sampleTransfer.body) summary (Mem.ofBytes otherTransfer.body) summary'
        displayFlagLongPubkeys ∧
      sampleTransfer.ticker ≠ otherTransfer.ticker := by
  obtain ⟨key, summary, hcall, hholds, hkey⟩ := processMessageBody_transfer .bits32
    ((bytes_ofBytes_whole sampleTransfer.body).symm ▸ sampleTransfer.carries)
    ⟨.empty, .replicate _ 0, .replicate _ 0⟩
  obtain ⟨key', summary', hcall', hholds', hkey'⟩ := processMessageBody_transfer .bits32
    ((bytes_ofBytes_whole otherTransfer.body).symm ▸ otherTransfer.carries)
    ⟨.empty, .replicate _ 0, .replicate _ 0⟩
  refine ⟨summary, summary', hcall, hcall', ?_, by decide⟩
  rw [sameReview_iff
    (transfer_shows hkey hholds displayFlagLongPubkeys)
    (transfer_shows hkey' hholds' displayFlagLongPubkeys)]
  rfl

end Determined

end AelfApp.Libsol
