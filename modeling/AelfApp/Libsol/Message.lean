import AelfApp.Libsol.Instruction
import AelfApp.Libsol.TransactionSummary.Store

/-!
Which bodies `process_message_body` accepts, and the review it puts into a
reset store. Its only test is that nothing is left over, so it accepts the
bodies that are whole and those that stop where the next field would begin.
-/

namespace AelfApp.Libsol

open Memory Wire

variable {β : Type} {mem : Mem β}

section Reviews

/-- The uses of the store in `print_system_transfer_info`. -/
def transferReview (info : SystemTransferInfo β) : List (TakeAndSet β) :=
  [⟨.primary, .lit "Transfer", .amount info.amount⟩,
    ⟨.general, .lit "Recipient", .pubkey info.toKey⟩]

/-- The uses of the store in `print_system_get_tx_result_info`. -/
def getTxResultReview (info : SystemGetTxResultInfo β) : List (TakeAndSet β) :=
  [⟨.primary, .lit "Type", .string (.lit "Get Transaction result")⟩,
    ⟨.general, .lit "From", .pubkey info.fromKey⟩,
    ⟨.general, .lit "Contract", .pubkey info.chain⟩,
    ⟨.general, .lit "Ref block number", .i64 info.refBlockNumber⟩,
    ⟨.general, .lit "Method name", .sizedString info.methodName⟩,
    ⟨.general, .lit "Recipient", .pubkey info.toKey⟩,
    ⟨.general, .lit "Amount", .amount info.amount⟩]

theorem printSystemTransferInfo_holds (info : SystemTransferInfo β) (prior : SummaryGlobals β) :
    ∃ summary, printSystemTransferInfo info (transactionSummaryReset prior).summary =
        .ok (0, summary) ∧ Holds summary (keptItems (transferReview info)) := by
  have h := holds_reset prior
  obtain ⟨s1, h1, h⟩ := h.setNext ⟨.primary, .lit "Transfer", .amount info.amount⟩
    (by simp [keptItems, SlotGetter.capacity])
  obtain ⟨s2, h2, h⟩ := h.setNext ⟨.general, .lit "Recipient", .pubkey info.toKey⟩
    (by simp [keptItems, SlotGetter.capacity, numGeneralItems])
  refine ⟨s2, ?_, h⟩
  simp only [SlotGetter.slot] at h1 h2
  simp only [printSystemTransferInfo, summaryItemSetAmount, summaryItemSetPubkey, h1, h2, ok_bind,
    pure_eq_ok]

theorem printSystemGetTxResultInfo_holds (info : SystemGetTxResultInfo β)
    (prior : SummaryGlobals β) :
    ∃ summary, printSystemGetTxResultInfo info (transactionSummaryReset prior).summary =
        .ok (0, summary) ∧ Holds summary (keptItems (getTxResultReview info)) := by
  have h := holds_reset prior
  obtain ⟨s1, h1, h⟩ := h.setNext ⟨.primary, .lit "Type", .string (.lit "Get Transaction result")⟩
    (by simp [keptItems, SlotGetter.capacity])
  obtain ⟨s2, h2, h⟩ := h.setNext ⟨.general, .lit "From", .pubkey info.fromKey⟩
    (by simp [keptItems, SlotGetter.capacity, numGeneralItems])
  obtain ⟨s3, h3, h⟩ := h.setNext ⟨.general, .lit "Contract", .pubkey info.chain⟩
    (by simp [keptItems, SlotGetter.capacity, numGeneralItems])
  obtain ⟨s4, h4, h⟩ := h.setNext ⟨.general, .lit "Ref block number", .i64 info.refBlockNumber⟩
    (by simp [keptItems, SlotGetter.capacity, numGeneralItems])
  obtain ⟨s5, h5, h⟩ := h.setNext ⟨.general, .lit "Method name", .sizedString info.methodName⟩
    (by simp [keptItems, SlotGetter.capacity, numGeneralItems])
  obtain ⟨s6, h6, h⟩ := h.setNext ⟨.general, .lit "Recipient", .pubkey info.toKey⟩
    (by simp [keptItems, SlotGetter.capacity, numGeneralItems])
  obtain ⟨s7, h7, h⟩ := h.setNext ⟨.general, .lit "Amount", .amount info.amount⟩
    (by simp [keptItems, SlotGetter.capacity, numGeneralItems])
  refine ⟨s7, ?_, h⟩
  simp only [SlotGetter.slot] at h1 h2 h3 h4 h5 h6 h7
  simp only [printSystemGetTxResultInfo, summaryItemSetString, summaryItemSetPubkey,
    summaryItemSetI64, summaryItemSetSizedString, summaryItemSetAmount, h1, h2, h3, h4, h5, h6, h7,
    ok_bind, pure_eq_ok]

end Reviews

section Rejection

theorem printSystemTransferInfo_ret (info : SystemTransferInfo β) (summary : TransactionSummary β) :
    Ensures (printSystemTransferInfo info summary) fun result => result.1 = 0 := by
  refine ensures_bind fun _ => ?_
  exact ensures_bind fun _ => ensures_ok rfl

theorem printSystemGetTxResultInfo_ret (info : SystemGetTxResultInfo β)
    (summary : TransactionSummary β) :
    Ensures (printSystemGetTxResultInfo info summary) fun result => result.1 = 0 := by
  refine ensures_bind fun _ => ?_
  refine ensures_bind fun _ => ?_
  refine ensures_bind fun _ => ?_
  refine ensures_bind fun _ => ?_
  refine ensures_bind fun _ => ?_
  refine ensures_bind fun _ => ?_
  exact ensures_bind fun _ => ensures_ok rfl

/-- The store is only touched once nothing can fail any more. -/
theorem processMessageBody_rejected (size : SizeT) (mem : Mem β) (messageBody : Ptr β)
    (messageBodyLength insCode : Nat) (summary : TransactionSummary β) :
    Ensures (processMessageBody size mem messageBody messageBodyLength insCode summary)
      fun result => result.1 ≠ 0 → result.2 = summary := by
  simp only [processMessageBody]
  split
  · refine ensures_bind ?_
    rintro ⟨_, parser, _, info⟩
    dsimp only
    split
    · exact ensures_ok fun _ => rfl
    · intro result hresult hret
      exact absurd (printSystemTransferInfo_ret info summary result hresult) hret
  split
  · refine ensures_bind ?_
    rintro ⟨_, parser, _, info⟩
    dsimp only
    split
    · exact ensures_ok fun _ => rfl
    · intro result hresult hret
      exact absurd (printSystemGetTxResultInfo_ret info summary result hresult) hret
  · exact ensures_ok fun _ => rfl

end Rejection

section Acceptance

/-- A reader leaves nothing over exactly if the bytes are whole or stop short,
and it also succeeds exactly if they are whole. -/
theorem Parsed.empty_iff {σ : Type} {format : Format} {bytes : List UInt8}
    {parser parser' : Parser β} {ret : Nat} {s : σ} (hrest : parser.rest mem = bytes)
    (h : Parsed format bytes parser (ret, parser', s)) :
    (parserIsEmpty parser' = true ↔ format.Whole bytes ∨ format.Short bytes) ∧
      (ret = 0 ∧ parserIsEmpty parser' = true ↔ format.Whole bytes) := by
  have hlength : bytes.length = parser.bufferLength := by
    simp [← hrest]
  cases h with
  | complete before after s hbytes hwhole =>
      have hempty : parserIsEmpty (parser.skip before.length) = true ↔ after = [] := by
        have hsum := congrArg List.length hbytes
        rw [List.length_append] at hsum
        rw [parserIsEmpty, decide_eq_true_iff, Parser.skip_bufferLength,
          ← List.length_eq_zero_iff]
        omega
      have hall : after = [] ↔ format.Whole bytes := by
        constructor
        · rintro rfl
          rwa [hbytes, List.append_nil]
        · intro hbody
          have hsame := format.unique hwhole hbody
            (hbytes.symm.trans (List.append_nil bytes).symm)
          rw [← hsame] at hbytes
          simpa using hbytes
      have hshort : ¬ format.Short bytes := by
        intro hstops
        rw [hbytes] at hstops
        exact format.short hstops hwhole
      simp only [hempty, hall, hshort, or_false, true_and, and_self]
  | stopped n s hn hmissing hshort =>
      have hwhole : ¬ format.Whole bytes := hmissing bytes [] (List.append_nil bytes).symm
      have hempty : parserIsEmpty (parser.skip n) = true ↔ n = bytes.length := by
        rw [parserIsEmpty, decide_eq_true_iff, Parser.skip_bufferLength]
        omega
      simp [hempty, hshort, hwhole]

/-- What an accepted body leaves in the store: a review with a primary. -/
def Reviewed (summary : TransactionSummary β) : Prop :=
  ∃ ops, Holds summary (keptItems ops) ∧ ∃ op ∈ ops, op.getter = .primary

/-- A reader, the test for an empty rest, and a printer that always fills the
store, accept the bodies that are whole or stop short. -/
private theorem readThenPrint {σ : Type} {format : Format} {bytes : List UInt8}
    {parser : Parser β} {call : Checked (Nat × Parser β × σ)} (hrest : parser.rest mem = bytes)
    (hreads : Reads format bytes parser call) (summary : TransactionSummary β)
    (print : σ → Checked (Nat × TransactionSummary β))
    (hprint : ∀ s, ∃ after, print s = .ok (0, after) ∧ Reviewed after) :
    ((∃ parser s, call = .ok (0, parser, s) ∧ parserIsEmpty parser = true) ↔
      format.Whole bytes) ∧
    ∃ ret after, (do
        let (_, parser, s) ← call
        if !parserIsEmpty parser then
          return (1, summary)
        print s) = .ok (ret, after) ∧
      ((format.Whole bytes ∨ format.Short bytes) ∧ ret = 0 ∧ Reviewed after ∨
        ¬ (format.Whole bytes ∨ format.Short bytes) ∧ ret = 1 ∧ after = summary) := by
  obtain ⟨⟨ret, parser', s⟩, rfl, hparsed⟩ := hreads
  obtain ⟨hempty, hwhole⟩ := hparsed.empty_iff hrest
  constructor
  · rw [← hwhole]
    constructor
    · rintro ⟨_, _, hcall, hnothing⟩
      cases hcall
      exact ⟨rfl, hnothing⟩
    · rintro ⟨rfl, hnothing⟩
      exact ⟨parser', s, rfl, hnothing⟩
  · simp only [ok_bind]
    by_cases hnothing : parserIsEmpty parser' = true
    · obtain ⟨after, hcall, hafter⟩ := hprint s
      refine ⟨0, after, ?_, .inl ⟨hempty.mp hnothing, rfl, hafter⟩⟩
      simp only [hnothing, Bool.not_true, Bool.false_eq_true, ↓reduceIte, hcall]
    · refine ⟨1, summary, ?_, .inr ⟨mt hempty.mpr hnothing, rfl, rfl⟩⟩
      simp only [hnothing, Bool.not_false, ↓reduceIte, pure_eq_ok]

/-- The format that an instruction code asks for. -/
def bodyFormat (insCode : Nat) : Format := if insCode = 3 then transferFormat else getTxResultFormat

/-- The instruction parser of a code succeeds on the body and consumes all of
it. -/
def ParsesWhole (size : SizeT) (mem : Mem β) (messageBody : Ptr β) (messageBodyLength : Nat)
    (insCode : Nat) : Prop :=
  let parser : Parser β := ⟨messageBody, messageBodyLength⟩
  if insCode = 3 then
    ∃ parser' filled, parseSystemTransferInstruction mem parser ⟨0, none⟩ .zero =
      .ok (0, parser', filled) ∧ parserIsEmpty parser' = true
  else
    ∃ parser' filled, parseSystemGetTxResultInstruction size mem parser ⟨0, none⟩ .zero =
      .ok (0, parser', filled) ∧ parserIsEmpty parser' = true

/-- A body is accepted exactly if it is whole or stops short. Otherwise the
store stays as it was. -/
theorem processMessageBody_cases (size : SizeT) (mem : Mem β) (messageBody : Ptr β)
    {messageBodyLength insCode : Nat} (hlength : messageBodyLength ≤ intMax)
    (hcode : insCode = 3 ∨ insCode = 4) (prior : SummaryGlobals β) :
    let body := mem.bytes messageBody messageBodyLength
    let accepted := (bodyFormat insCode).Whole body ∨ (bodyFormat insCode).Short body
    (ParsesWhole size mem messageBody messageBodyLength insCode ↔ (bodyFormat insCode).Whole body) ∧
    ∃ ret after, processMessageBody size mem messageBody messageBodyLength insCode
        (transactionSummaryReset prior).summary = .ok (ret, after) ∧
      (accepted ∧ ret = 0 ∧ Reviewed after ∨
        ¬ accepted ∧ ret = 1 ∧ after = (transactionSummaryReset prior).summary) := by
  have hrest : (⟨messageBody, messageBodyLength⟩ : Parser β).rest mem =
      mem.bytes messageBody messageBodyLength := rfl
  have hsize : messageBodyLength ≤ size.max := hlength.trans size.intMax_le_max
  rcases hcode with rfl | rfl
  · refine readThenPrint hrest (parseSystemTransferInstruction_reads hrest _ _) _
      (fun s => printSystemTransferInfo s.2 _) fun s => ?_
    obtain ⟨after, hcall, hholds⟩ := printSystemTransferInfo_holds s.2 prior
    exact ⟨after, hcall, transferReview s.2, hholds, _, List.mem_cons_self, rfl⟩
  · refine readThenPrint hrest (parseSystemGetTxResultInstruction_reads hrest hsize _ _) _
      (fun s => printSystemGetTxResultInfo s.2 _) fun s => ?_
    obtain ⟨after, hcall, hholds⟩ := printSystemGetTxResultInfo_holds s.2 prior
    exact ⟨after, hcall, getTxResultReview s.2, hholds, _, List.mem_cons_self, rfl⟩

end Acceptance

end AelfApp.Libsol
