import AelfApp.Libsol.Screens
import AelfApp.Libsol.HandedOut

/-!
What a review keeps of the message it was read from: its items are values that
always have a text, and its pointers are null or lie inside the body. Only a
null pointer keeps a page of it from being shown.
-/

namespace AelfApp.Libsol

open Memory Numeral Wire

variable {β : Type}

section Values

/-- The pointers of a value, each with the number of bytes it stands for. -/
def SummaryValue.slots : SummaryValue β → List (Slot β)
  | .pubkey key => [(key, pubkeySize)]
  | .hash bytes => [(bytes, hashSize)]
  | .sizedString name => [(name.string, name.length.toNat)]
  | _ => []

/-- The kinds of values that have a text for every number they may hold. -/
def SummaryItemKind.AlwaysFits : SummaryItemKind → Prop
  | .amount | .i64 | .pubkey | .hash | .sizedString | .string => True
  | _ => False

theorem i64Outcome_fits (i64 : UInt64) :
    ∃ text, i64Outcome i64 textBufferLength = .ok (0, text) := by
  have hsize : textBufferLength = 45 := rfl
  have hdigits : ∀ n < 2 ^ 64, (unitsFirst n).length ≤ 20 := fun n hn =>
    unitsFirst_length_le (by decide) (hn.trans (by decide))
  unfold i64Outcome
  split
  · have hlength := hdigits _ ((i64 ^^^ 0xffffffffffffffff) + 1).toNat_lt
    exact ⟨charMinus :: numeral ((i64 ^^^ 0xffffffffffffffff) + 1).toNat, by
      rw [u64Outcome, if_neg (by omega), ok_bind]
      rfl⟩
  · have hlength := hdigits _ i64.toNat_lt
    exact ⟨numeral i64.toNat, if_neg (by omega)⟩

/-- Showing such a value returns zero, or runs into a null pointer. -/
theorem valueOutcome_fits (mem : Mem β) (flags : DisplayFlags) {value : SummaryValue β}
    (h : value.kind.AlwaysFits) :
    Ensures (valueOutcome mem flags value) fun result => result.1 = 0 := by
  cases value with
  | amount u64 => exact ensures_ok rfl
  | i64 i64 =>
      obtain ⟨text, htext⟩ := i64Outcome_fits i64
      rw [valueOutcome, htext]
      exact ensures_ok rfl
  | pubkey pubkey => exact ensures_bind fun key => ensures_ok rfl
  | hash hash => exact ensures_bind fun bytes => ensures_ok rfl
  | sizedString sizedString =>
      apply ensures_bind
      intro src
      exact ensures_ok rfl
  | string string => exact ensures_ok rfl
  | tokenAmount value symbol decimals => cases h
  | u64 u64 => cases h
  | timestamp i64 => cases h

theorem loadBytes_ok (mem : Mem β) {p : Option (Ptr β)} (h : p ≠ none) (n : Nat) :
    ∃ data, mem.loadBytes p n = .ok data := by
  cases p with
  | none => exact absurd rfl h
  | some p => exact ⟨_, rfl⟩

/-- Without a null pointer, it has a text. -/
theorem valueOutcome_ok (mem : Mem β) (flags : DisplayFlags) {value : SummaryValue β}
    (h : value.kind.AlwaysFits) (hslots : ∀ slot ∈ value.slots, slot.1 ≠ none) :
    ∃ text, valueOutcome mem flags value = .ok (0, text) := by
  have hreturns : ∃ result, valueOutcome mem flags value = .ok result := by
    cases value with
    | amount u64 => exact ⟨_, rfl⟩
    | i64 i64 =>
        obtain ⟨text, htext⟩ := i64Outcome_fits i64
        exact ⟨(0, text), htext⟩
    | pubkey pubkey =>
        obtain ⟨key, hkey⟩ := loadBytes_ok mem (hslots _ List.mem_cons_self) pubkeySize
        exact ⟨_, by rw [valueOutcome, hkey]; rfl⟩
    | hash hash =>
        obtain ⟨bytes, hbytes⟩ := loadBytes_ok mem (hslots _ List.mem_cons_self) hashSize
        exact ⟨_, by rw [valueOutcome, hbytes]; rfl⟩
    | sizedString sizedString =>
        obtain ⟨src, hsrc⟩ := loadBytes_ok mem (hslots _ List.mem_cons_self)
          (min textBufferLength sizedString.length.toNat)
        exact ⟨_, by rw [valueOutcome, hsrc]; rfl⟩
    | string string => exact ⟨_, rfl⟩
    | tokenAmount value symbol decimals => cases h
    | u64 u64 => cases h
    | timestamp i64 => cases h
  obtain ⟨⟨ret, text⟩, hcall⟩ := hreturns
  obtain rfl : ret = 0 := valueOutcome_fits mem flags h _ hcall
  exact ⟨text, hcall⟩

end Values

section Accepted

variable {size : SizeT} {mem : Mem β}

/-- The review of an accepted body is made of what its instruction parser has
read, which has left nothing over. -/
inductive ReviewOf (size : SizeT) (mem : Mem β) (parser : Parser β) :
    Nat → List (TakeAndSet β) → Prop where
  | transfer (ret : Nat) (parser' : Parser β) (instruction : Instruction β)
      (info : SystemTransferInfo β)
      (hcall : parseSystemTransferInstruction mem parser ⟨0, none⟩ .zero =
        .ok (ret, parser', instruction, info)) (hempty : parserIsEmpty parser' = true) :
      ReviewOf size mem parser 3 (transferReview info)
  | getTxResult (ret : Nat) (parser' : Parser β) (instruction : Instruction β)
      (info : SystemGetTxResultInfo β)
      (hcall : parseSystemGetTxResultInstruction size mem parser ⟨0, none⟩ .zero =
        .ok (ret, parser', instruction, info)) (hempty : parserIsEmpty parser' = true) :
      ReviewOf size mem parser 4 (getTxResultReview info)

theorem processMessageBody_review (size : SizeT) (mem : Mem β) (messageBody : Ptr β)
    (messageBodyLength insCode : Nat) (prior : SummaryGlobals β) :
    Ensures (processMessageBody size mem messageBody messageBodyLength insCode
      (transactionSummaryReset prior).summary) fun result => result.1 = 0 →
        ∃ ops, ReviewOf size mem ⟨messageBody, messageBodyLength⟩ insCode ops ∧
          Holds result.2 (keptItems ops) := by
  rintro ⟨ret, after⟩ hcall rfl
  unfold processMessageBody at hcall
  split at hcall
  · rename_i hcode
    obtain ⟨⟨read, parser, instruction, info⟩, hparse, hcall⟩ := bind_eq_ok.mp hcall
    obtain ⟨summary, hprint, hholds⟩ := printSystemTransferInfo_holds info prior
    dsimp only at hcall
    split at hcall
    · cases hcall
    · rename_i hempty
      rw [hprint] at hcall
      cases hcall
      exact ⟨_, hcode ▸ .transfer read parser instruction info hparse (by simpa using hempty),
        hholds⟩
  split at hcall
  · rename_i hcode
    obtain ⟨⟨read, parser, instruction, info⟩, hparse, hcall⟩ := bind_eq_ok.mp hcall
    obtain ⟨summary, hprint, hholds⟩ := printSystemGetTxResultInfo_holds info prior
    dsimp only at hcall
    split at hcall
    · cases hcall
    · rename_i hempty
      rw [hprint] at hcall
      cases hcall
      exact ⟨_, hcode ▸ .getTxResult read parser instruction info hparse (by simpa using hempty),
        hholds⟩
  · cases hcall

/-- A review begins with a primary that needs no pointer, has room for all of
its items, and only values that always have a text. -/
structure Presentable (ops : List (TakeAndSet β)) : Prop where
  first : ∃ op rest, ops = op :: rest ∧ op.getter = .primary ∧ op.value.slots = []
  items : reviewItems ops = ops.map TakeAndSet.item
  fits : ∀ op ∈ ops, op.value.kind.AlwaysFits

theorem Presentable.primary {ops : List (TakeAndSet β)} (h : Presentable ops) :
    ∃ op ∈ ops, op.getter = .primary := by
  obtain ⟨op, rest, rfl, hgetter, -⟩ := h.first
  exact ⟨op, List.mem_cons_self, hgetter⟩

theorem ReviewOf.presentable {parser : Parser β} {insCode : Nat} {ops : List (TakeAndSet β)}
    (h : ReviewOf size mem parser insCode ops) : Presentable ops := by
  cases h with
  | transfer ret parser' instruction info _ _ =>
      refine ⟨⟨_, _, rfl, rfl, rfl⟩, rfl, ?_⟩
      simp [transferReview, SummaryValue.kind, SummaryItemKind.AlwaysFits]
  | getTxResult ret parser' instruction info _ _ =>
      refine ⟨⟨_, _, rfl, rfl, rfl⟩, rfl, ?_⟩
      simp [getTxResultReview, SummaryValue.kind, SummaryItemKind.AlwaysFits]

/-- The pointers of a review. -/
def reviewSlots (ops : List (TakeAndSet β)) : List (Slot β) := ops.flatMap (·.value.slots)

/-- They are among the outputs of the instruction parser. -/
theorem transferReview_slots {instruction : Instruction β} {info : SystemTransferInfo β}
    {slot : Slot β} (h : slot ∈ reviewSlots (transferReview info)) :
    slot ∈ transferSlots instruction info := by
  have hslots : reviewSlots (transferReview info) = [(info.toKey, pubkeySize)] := rfl
  rw [hslots, List.mem_singleton] at h
  simp [transferSlots, h]

theorem getTxResultReview_slots {instruction : Instruction β} {info : SystemGetTxResultInfo β}
    {slot : Slot β} (h : slot ∈ reviewSlots (getTxResultReview info)) :
    slot ∈ getTxResultSlots instruction info := by
  have hslots : reviewSlots (getTxResultReview info) = [(info.fromKey, pubkeySize),
      (info.chain, pubkeySize), (info.methodName.string, info.methodName.length.toNat),
      (info.toKey, pubkeySize)] := rfl
  rw [hslots] at h
  exact List.mem_append_left [(instruction.ticker, instruction.tickerLength)] h

theorem Filled.inside {before after : List (Slot β)} {slices : List (Slice β)} {low high : Ptr β}
    (h : Filled before slices after) (hbefore : ∀ slot ∈ before, slot.1 = none)
    (hinside : ∀ slice ∈ slices, low ≤ slice.start ∧ slice.stop ≤ high) :
    ∀ slot ∈ after, ∀ p, slot.1 = some p → low ≤ p ∧ p.add slot.2 ≤ high := by
  intro slot member p hp
  rw [← List.take_append_drop slices.length after] at member
  rcases List.mem_append.mp member with hfilled | hleft
  · rw [h.1] at hfilled
    obtain ⟨slice, hslice, rfl⟩ := List.mem_map.mp hfilled
    cases hp
    exact hinside slice hslice
  · have hfirst : slot.1 ∈ (after.drop slices.length).map Prod.fst := List.mem_map_of_mem hleft
    rw [h.2] at hfirst
    obtain ⟨old, hold, hsame⟩ := List.mem_map.mp hfirst
    rw [hbefore old (List.mem_of_mem_drop hold), hp] at hsame
    cases hsame

theorem Filled.nonNull {before after : List (Slot β)} {slices : List (Slice β)}
    (h : Filled before slices after) (hall : after.length ≤ slices.length) :
    ∀ slot ∈ after, slot.1 ≠ none := by
  intro slot member
  have hfilled := h.1
  rw [List.take_of_length_le hall] at hfilled
  rw [hfilled] at member
  obtain ⟨slice, _, rfl⟩ := List.mem_map.mp member
  exact Option.some_ne_none _

/-- Every pointer of a review is null or stands for bytes of the body. -/
theorem ReviewOf.inside {parser : Parser β} {insCode : Nat} {ops : List (TakeAndSet β)}
    (h : ReviewOf size mem parser insCode ops) :
    ∀ slot ∈ reviewSlots ops, ∀ p, slot.1 = some p →
      parser.buffer ≤ p ∧ p.add slot.2 ≤ parser.stop := by
  cases h with
  | transfer ret parser' instruction info hcall _ =>
      obtain ⟨_, _, _, _, slices, hread, hkeeps, -⟩ :=
        parseSystemTransferInstruction_keeps mem parser ⟨0, none⟩ .zero
      cases hcall.symm.trans hread
      have hinside := hkeeps.filled.inside (by simp [transferSlots, SystemTransferInfo.zero])
        hkeeps.inside
      intro slot member
      exact hinside slot (transferReview_slots member)
  | getTxResult ret parser' instruction info hcall _ =>
      obtain ⟨_, _, _, _, slices, hread, hkeeps, -⟩ :=
        parseSystemGetTxResultInstruction_keeps size mem parser ⟨0, none⟩ .zero
      cases hcall.symm.trans hread
      have hinside := hkeeps.filled.inside
        (by simp [getTxResultSlots, SystemGetTxResultInfo.zero]) hkeeps.inside
      intro slot member
      exact hinside slot (getTxResultReview_slots member)

/-- A whole body has filled every pointer of its review. -/
theorem ReviewOf.nonNull {parser : Parser β} {insCode : Nat} {ops : List (TakeAndSet β)}
    (h : ReviewOf size mem parser insCode ops) (hsize : parser.bufferLength ≤ size.max)
    (hwhole : (bodyFormat insCode).Whole (parser.rest mem)) :
    ∀ slot ∈ reviewSlots ops, slot.1 ≠ none := by
  cases h with
  | transfer ret parser' instruction info hcall _ =>
      obtain ⟨result, hread, hparsed⟩ := parseSystemTransferInstruction_reads
        (rfl : parser.rest mem = _) ⟨0, none⟩ .zero
      cases hcall.symm.trans hread
      obtain ⟨hret, -⟩ := (hparsed.empty_iff rfl).2.mpr hwhole
      obtain ⟨_, _, _, _, slices, hread, hkeeps, -, hend⟩ :=
        parseSystemTransferInstruction_keeps mem parser ⟨0, none⟩ .zero
      cases hcall.symm.trans hread
      have hfilled := hkeeps.filled.nonNull (hend hret).1.ge
      intro slot member
      exact hfilled slot (transferReview_slots member)
  | getTxResult ret parser' instruction info hcall _ =>
      obtain ⟨result, hread, hparsed⟩ := parseSystemGetTxResultInstruction_reads
        (rfl : parser.rest mem = _) hsize ⟨0, none⟩ .zero
      cases hcall.symm.trans hread
      obtain ⟨hret, -⟩ := (hparsed.empty_iff rfl).2.mpr hwhole
      obtain ⟨_, _, _, _, slices, hread, hkeeps, -, hend, -⟩ :=
        parseSystemGetTxResultInstruction_keeps size mem parser ⟨0, none⟩ .zero
      cases hcall.symm.trans hread
      have hfilled := hkeeps.filled.nonNull (hend hret).1.ge
      intro slot member
      exact hfilled slot (getTxResultReview_slots member)

end Accepted

section Pages

variable {ops : List (TakeAndSet β)} {g : SummaryGlobals β}

theorem Holds.finalize_presentable (h : Holds g.summary (keptItems ops))
    (hpresentable : Presentable ops) :
    (transactionSummaryFinalize g.summary).1 = 0 ∧
      (transactionSummaryFinalize g.summary).2.length = ops.length := by
  have hsome : ¬ ∀ op ∈ ops, op.getter ≠ .primary := by
    simpa using hpresentable.primary
  rw [h.finalize_eq, if_neg hsome, hpresentable.items]
  simp

/-- A page is the outcome of its value. -/
theorem Holds.displayed_page (h : Holds g.summary (keptItems ops))
    (hpresentable : Presentable ops) (mem : Mem β) (itemIndex : Nat) (flags : DisplayFlags) :
    displayed mem itemIndex flags g =
      match ops[itemIndex]? with
      | some op => itemOutcome mem flags op.item
      | none => .ok (1, none) := by
  rw [h.displayed_eq hpresentable.primary, hpresentable.items, List.getElem?_map]
  cases ops[itemIndex]? with
  | none => rfl
  | some op => rfl

/-- A page that comes up shows a screen. Behind the last one there is none. -/
theorem Holds.displayed_fits (h : Holds g.summary (keptItems ops))
    (hpresentable : Presentable ops) (mem : Mem β) (itemIndex : Nat) (flags : DisplayFlags) :
    Ensures (displayed mem itemIndex flags g) fun result =>
      (itemIndex < ops.length → ∃ screen, result = (0, some screen)) ∧
        (ops.length ≤ itemIndex → result = (1, none)) := by
  rw [h.displayed_page hpresentable]
  rcases Nat.lt_or_ge itemIndex ops.length with hpage | hbehind
  · rw [List.getElem?_eq_getElem hpage]
    refine (valueOutcome_fits mem flags (hpresentable.fits _ (List.getElem_mem hpage))).bind ?_
    rintro ⟨ret, text⟩ rfl
    exact ensures_ok ⟨fun _ => ⟨_, rfl⟩, fun hle => absurd hpage (Nat.not_lt.mpr hle)⟩
  · rw [List.getElem?_eq_none hbehind]
    exact ensures_ok ⟨fun hlt => absurd hlt (Nat.not_lt.mpr hbehind), fun _ => rfl⟩

/-- Only a null pointer keeps a page from coming up. -/
theorem Holds.displayed_shows (h : Holds g.summary (keptItems ops))
    (hpresentable : Presentable ops) (mem : Mem β) {itemIndex : Nat} (flags : DisplayFlags)
    (hpage : itemIndex < ops.length)
    (hslots : ∀ slot ∈ ops[itemIndex].value.slots, slot.1 ≠ none) :
    ∃ screen, displayed mem itemIndex flags g = .ok (0, some screen) := by
  obtain ⟨text, htext⟩ := valueOutcome_ok mem flags
    (hpresentable.fits _ (List.getElem_mem hpage)) hslots
  refine ⟨⟨clipped titleSize ops[itemIndex].title.chars, text⟩, ?_⟩
  rw [h.displayed_page hpresentable, List.getElem?_eq_getElem hpage]
  simp only [TakeAndSet.item, itemOutcome, htext, ok_bind, ↓reduceIte, pure_eq_ok]

/-- The first page always comes up. -/
theorem Holds.displayed_first (h : Holds g.summary (keptItems ops))
    (hpresentable : Presentable ops) (mem : Mem β) (flags : DisplayFlags) :
    ∃ screen, displayed mem 0 flags g = .ok (0, some screen) := by
  obtain ⟨op, rest, rfl, -, hslots⟩ := hpresentable.first
  apply h.displayed_shows hpresentable mem flags (Nat.zero_lt_succ _)
  intro slot member
  rw [List.getElem_cons_zero, hslots] at member
  cases member

/-- A reset store has no page at all. -/
theorem displayed_empty (mem : Mem β) (itemIndex : Nat) (flags : DisplayFlags)
    (h : g.summary = .empty) : displayed mem itemIndex flags g = .ok (1, none) := by
  rw [displayed_eq, h]
  cases itemIndex with
  | zero => rfl
  | succ itemIndex =>
      have hfound : transactionSummaryFindItem (.empty : TransactionSummary β) (itemIndex + 1) =
          if 1 = itemIndex + 1 then some .unused else none := rfl
      rw [hfound]
      split
      · rename_i hitem
        split at hitem
        · cases hitem
        · rfl
      · rename_i item hitem
        split at hitem
        · cases hitem
          rfl
        · cases hitem

end Pages

end AelfApp.Libsol
