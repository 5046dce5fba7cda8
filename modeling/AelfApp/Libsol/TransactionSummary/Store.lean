import AelfApp.Libsol.TransactionSummary.Display

/-!
The store against its purpose: a review is the list of the items that were
set, in a fixed order of the slots. `transaction_summary_finalize` and
`transaction_summary_find_item` walk the slots separately; both walks agree
with the list of the items in use.
-/

namespace AelfApp.Libsol

open Memory

variable {β : Type}

/-- The five functions that hand out a slot. -/
inductive SlotGetter where
  | primary
  | general
  | nonceAccount
  | nonceAuthority
  | feePayer
  deriving Repr, DecidableEq

namespace SlotGetter

def slot : SlotGetter → TransactionSummary β → Option SummarySlot
  | .primary => transactionSummaryPrimaryItem
  | .general => transactionSummaryGeneralItem
  | .nonceAccount => transactionSummaryNonceAccountItem
  | .nonceAuthority => transactionSummaryNonceAuthorityItem
  | .feePayer => transactionSummaryFeePayerItem

/-- The items that a getter looks at. -/
def items : SlotGetter → TransactionSummary β → List (SummaryItem β)
  | .primary, summary => [summary.primary]
  | .general, summary => summary.general.toList
  | .nonceAccount, summary => [summary.nonceAccount]
  | .nonceAuthority, summary => [summary.nonceAuthority]
  | .feePayer, summary => [summary.feePayer]

def capacity : SlotGetter → Nat
  | .general => numGeneralItems
  | _ => 1

end SlotGetter

/-- The order of the steps. -/
def reviewOrder : List SlotGetter := [.primary, .general, .nonceAccount, .nonceAuthority, .feePayer]

section Traversals

/-- The items in use, in the order of the steps. -/
def TransactionSummary.usedItems (summary : TransactionSummary β) : List (SummaryItem β) :=
  (reviewOrder.flatMap (·.items summary)).filter isSummaryItemUsed

theorem isSummaryItemUsed_iff (item : SummaryItem β) :
    isSummaryItemUsed item = true ↔ item ≠ .unused := by
  cases item with
  | unused => simp [isSummaryItemUsed, SummaryItem.kind]
  | used title value =>
      cases value <;> simp [isSummaryItemUsed, SummaryItem.kind, SummaryValue.kind]

theorem setIfUsed_eq (itemKinds : List SummaryItemKind) (item : SummaryItem β) :
    setIfUsed itemKinds item =
      itemKinds ++ ([item].filter isSummaryItemUsed).map SummaryItem.kind := by
  by_cases hused : item.kind = .none <;> simp [setIfUsed, isSummaryItemUsed, hused]

theorem foldl_setIfUsed (items : List (SummaryItem β)) (itemKinds : List SummaryItemKind) :
    items.foldl setIfUsed itemKinds =
      itemKinds ++ (items.filter isSummaryItemUsed).map SummaryItem.kind := by
  induction items generalizing itemKinds with
  | nil => simp
  | cons item items ih =>
      rw [List.foldl_cons, ih, setIfUsed_eq, List.append_assoc, ← List.map_append,
        ← List.filter_append, List.singleton_append]

/-- Finalizing lists the kinds of the items in use. -/
theorem transactionSummaryFinalize_eq (summary : TransactionSummary β) :
    transactionSummaryFinalize summary =
      if summary.primary.kind = .none then (1, [])
      else (0, summary.usedItems.map SummaryItem.kind) := by
  simp only [transactionSummaryFinalize, foldl_setIfUsed, setIfUsed_eq,
    TransactionSummary.usedItems, reviewOrder, List.flatMap_cons, List.flatMap_nil,
    SlotGetter.items, List.filter_append,
    List.map_append, List.append_assoc, List.nil_append, List.append_nil]

theorem foldl_findIfUsed_found (itemIndex : Nat) (items : List (SummaryItem β))
    (found : SummaryItem β) :
    items.foldl (fun state item => findIfUsed itemIndex item state) (.inl found) = .inl found := by
  induction items with
  | nil => rfl
  | cons item items ih => exact ih

/-- The walk finds the item of that index among those in use, or counts them all. -/
theorem foldl_findIfUsed (itemIndex : Nat) (items : List (SummaryItem β))
    (currentIndex : Nat) (h : currentIndex ≤ itemIndex) :
    items.foldl (fun state item => findIfUsed itemIndex item state) (.inr currentIndex) =
      match (items.filter isSummaryItemUsed)[itemIndex - currentIndex]? with
      | some found => .inl found
      | none => .inr (currentIndex + (items.filter isSummaryItemUsed).length) := by
  induction items generalizing currentIndex with
  | nil => rfl
  | cons item items ih =>
      rw [List.foldl_cons]
      by_cases hused : isSummaryItemUsed item = true
      · rw [List.filter_cons_of_pos hused]
        by_cases hhere : currentIndex = itemIndex
        · have hstep : findIfUsed itemIndex item (.inr currentIndex) = .inl item := by
            simp only [findIfUsed, hused, hhere, ↓reduceIte]
          rw [hstep, foldl_findIfUsed_found, hhere, Nat.sub_self, List.getElem?_cons_zero]
        · obtain ⟨k, rfl⟩ := Nat.exists_eq_add_of_lt (Nat.lt_of_le_of_ne h hhere)
          have hstep : findIfUsed (currentIndex + k + 1) item (.inr currentIndex) =
              .inr (currentIndex + 1) := by
            simp only [findIfUsed, hused, hhere, ↓reduceIte]
          have hindex : currentIndex + k + 1 - currentIndex =
              currentIndex + k + 1 - (currentIndex + 1) + 1 := by omega
          have hcount : currentIndex + ((items.filter isSummaryItemUsed).length + 1) =
              currentIndex + 1 + (items.filter isSummaryItemUsed).length := by omega
          rw [hstep, hindex, List.getElem?_cons_succ, List.length_cons, hcount, ih _ (by omega)]
      · have hstep : findIfUsed itemIndex item (.inr currentIndex) = .inr currentIndex := by
          simp only [findIfUsed, hused, Bool.false_eq_true, ↓reduceIte]
        rw [hstep, List.filter_cons_of_neg hused, ih _ h]

/-- With the primary in use, the item found for a step is the one of that
index among those in use; behind them nothing in use is found. -/
theorem transactionSummaryFindItem_eq (summary : TransactionSummary β)
    (hprimary : summary.primary ≠ .unused) (itemIndex : Nat) :
    (transactionSummaryFindItem summary itemIndex).filter isSummaryItemUsed =
      summary.usedItems[itemIndex]? := by
  have hused := (isSummaryItemUsed_iff summary.primary).mpr hprimary
  have hitems : summary.usedItems = summary.primary ::
      ((summary.general.toList ++ [summary.nonceAccount, summary.nonceAuthority]).filter
        isSummaryItemUsed ++ [summary.feePayer].filter isSummaryItemUsed) := by
    rw [← List.filter_append, ← List.filter_cons_of_pos hused]
    simp [TransactionSummary.usedItems, reviewOrder, SlotGetter.items]
  cases itemIndex with
  | zero => simp [hitems, transactionSummaryFindItem, hused]
  | succ i =>
      have hwalk := foldl_findIfUsed (i + 1)
        (summary.general.toList ++ [summary.nonceAccount, summary.nonceAuthority])
        1 (by omega)
      have hshift : ¬ 0 = i + 1 := by omega
      rw [List.foldl_append, List.foldl_cons, List.foldl_cons, List.foldl_nil,
        Nat.add_sub_cancel] at hwalk
      rw [hitems, List.getElem?_cons_succ]
      simp only [transactionSummaryFindItem, hshift, ↓reduceIte, hwalk]
      generalize hmiddle : (summary.general.toList ++
        [summary.nonceAccount, summary.nonceAuthority]).filter isSummaryItemUsed = middle
      cases hfound : middle[i]? with
      | some found =>
          have hmem := List.mem_of_getElem? hfound
          rw [← hmiddle] at hmem
          rw [List.getElem?_append_left (List.getElem?_eq_some_iff.mp hfound).1, hfound]
          simp [Option.filter, (List.mem_filter.mp hmem).2]
      | none =>
          -- What is left is the fee payer, at the index behind the others.
          rw [List.getElem?_append_right (List.getElem?_eq_none_iff.mp hfound)]
          have hge := List.getElem?_eq_none_iff.mp hfound
          by_cases hlast : 1 + middle.length = i + 1
          · have hzero : i - middle.length = 0 := by omega
            by_cases hfee : isSummaryItemUsed summary.feePayer = true <;>
              simp [Option.filter, hlast, hzero, hfee]
          · obtain ⟨k, hk⟩ : ∃ k, i - middle.length = k + 1 := ⟨i - middle.length - 1, by omega⟩
            by_cases hfee : isSummaryItemUsed summary.feePayer = true <;>
              simp [hlast, hk, hfee]

end Traversals

section Slots

/-- The slots of each getter hold these items and nothing behind them. -/
structure Holds (summary : TransactionSummary β) (kept : SlotGetter → List (SummaryItem β)) :
    Prop where
  used : ∀ getter, ∀ item ∈ kept getter, item ≠ .unused
  fits : ∀ getter, (kept getter).length ≤ getter.capacity
  items_eq : ∀ getter : SlotGetter, getter.items summary =
    kept getter ++ .replicate (getter.capacity - (kept getter).length) .unused

theorem holds_empty : Holds (.empty : TransactionSummary β) fun _ => [] where
  used := by simp
  fits := by simp
  items_eq getter := by cases getter <;> rfl

variable {summary : TransactionSummary β} {kept : SlotGetter → List (SummaryItem β)}

theorem filter_used (items : List (SummaryItem β)) (count : Nat)
    (h : ∀ item ∈ items, item ≠ .unused) :
    (items ++ .replicate count .unused).filter isSummaryItemUsed = items := by
  have hunused : isSummaryItemUsed (.unused : SummaryItem β) = false := rfl
  rw [List.filter_append, List.filter_replicate, hunused, if_neg (by decide), List.append_nil,
    List.filter_eq_self]
  exact fun item hitem => (isSummaryItemUsed_iff item).mpr (h item hitem)

theorem Holds.usedItems_eq (h : Holds summary kept) :
    summary.usedItems = reviewOrder.flatMap kept := by
  rw [TransactionSummary.usedItems, List.filter_flatMap]
  congr 1
  funext getter
  rw [h.items_eq getter, filter_used _ _ (h.used getter)]

theorem firstUnused_full (items : List (SummaryItem β)) (i : Nat)
    (h : ∀ item ∈ items, item ≠ .unused) : firstUnused i items = none := by
  induction items generalizing i with
  | nil => rfl
  | cons item items ih =>
      have hused := (isSummaryItemUsed_iff item).mpr (h item (by simp))
      simp only [firstUnused, hused, Bool.not_true, Bool.false_eq_true, ↓reduceIte]
      exact ih (i + 1) fun other hother => h other (by simp [hother])

theorem firstUnused_append (items rest : List (SummaryItem β)) (i : Nat)
    (h : ∀ item ∈ items, item ≠ .unused) :
    firstUnused i (items ++ .unused :: rest) = some (.general (i + items.length)) := by
  induction items generalizing i with
  | nil => rfl
  | cons item items ih =>
      have hused := (isSummaryItemUsed_iff item).mpr (h item (by simp))
      have hnext := ih (i + 1) fun other hother => h other (by simp [hother])
      have hindex : i + 1 + items.length = i + (items.length + 1) := by omega
      simpa only [List.cons_append, firstUnused, hused, Bool.not_true, Bool.false_eq_true,
        ↓reduceIte, List.length_cons, hindex] using hnext

/-- A getter whose slots are all in use returns `NULL`. -/
theorem slot_eq_none {getter : SlotGetter} (h : ∀ item ∈ getter.items summary, item ≠ .unused) :
    getter.slot summary = none := by
  have hone : ∀ (slot : SummarySlot) (item : SummaryItem β), item ≠ .unused →
      summaryItemAsUnused slot item = none := by
    intro slot item hitem
    simp [summaryItemAsUnused, (isSummaryItemUsed_iff item).mpr hitem]
  cases getter with
  | primary => exact hone _ _ (h _ (by simp [SlotGetter.items]))
  | general => exact firstUnused_full _ 0 h
  | nonceAccount => exact hone _ _ (h _ (by simp [SlotGetter.items]))
  | nonceAuthority => exact hone _ _ (h _ (by simp [SlotGetter.items]))
  | feePayer => exact hone _ _ (h _ (by simp [SlotGetter.items]))

/-- A getter with a slot left returns it, and an item written there stands
behind the getter's other items. The slots of the other getters stay. -/
theorem slot_eq_some {getter : SlotGetter} {items rest : List (SummaryItem β)}
    (hitems : getter.items summary = items ++ .unused :: rest)
    (hused : ∀ item ∈ items, item ≠ .unused) (title : CString) (value : SummaryValue β) :
    ∃ slot summary', getter.slot summary = some slot ∧
      summaryItemSet (some slot) title value summary = .ok summary' ∧
      getter.items summary' = items ++ .used title value :: rest ∧
      ∀ other ≠ getter, other.items summary' = other.items summary := by
  have hone : ∀ item : SummaryItem β, [item] = items ++ .unused :: rest →
      item = .unused ∧ items = [] ∧ rest = [] := by
    intro item h
    match items, h with
    | [], h => simpa [eq_comm] using h
    | _ :: _, h => simp at h
  cases getter with
  | general =>
      have hslot := firstUnused_append items rest 0 hused
      have hwrite := writeAt_append items rest .unused (.used title value)
      rw [← hitems, Nat.zero_add] at hslot
      rw [← hitems] at hwrite
      obtain ⟨general, hbuf, hlist⟩ := Buffer.writeAt_ok hwrite
      refine ⟨_, { summary with general }, hslot, ?_, hlist, ?_⟩
      · simp only [summaryItemSet, hbuf, ok_bind, pure_eq_ok]
      · intro other hother
        cases other <;> first | rfl | exact absurd rfl hother
  | primary =>
      obtain ⟨hitem, rfl, rfl⟩ := hone _ hitems
      refine ⟨.primary, _, ?_, rfl, rfl, ?_⟩
      · exact congrArg (summaryItemAsUnused _) hitem
      · intro other hother
        cases other <;> first | rfl | exact absurd rfl hother
  | nonceAccount =>
      obtain ⟨hitem, rfl, rfl⟩ := hone _ hitems
      refine ⟨.nonceAccount, _, ?_, rfl, rfl, ?_⟩
      · exact congrArg (summaryItemAsUnused _) hitem
      · intro other hother
        cases other <;> first | rfl | exact absurd rfl hother
  | nonceAuthority =>
      obtain ⟨hitem, rfl, rfl⟩ := hone _ hitems
      refine ⟨.nonceAuthority, _, ?_, rfl, rfl, ?_⟩
      · exact congrArg (summaryItemAsUnused _) hitem
      · intro other hother
        cases other <;> first | rfl | exact absurd rfl hother
  | feePayer =>
      obtain ⟨hitem, rfl, rfl⟩ := hone _ hitems
      refine ⟨.feePayer, _, ?_, rfl, rfl, ?_⟩
      · exact congrArg (summaryItemAsUnused _) hitem
      · intro other hother
        cases other <;> first | rfl | exact absurd rfl hother

theorem Holds.slot_none (h : Holds summary kept) {getter : SlotGetter}
    (hfull : (kept getter).length = getter.capacity) : getter.slot summary = none := by
  have hitems := h.items_eq getter
  rw [hfull, Nat.sub_self, List.replicate_zero, List.append_nil] at hitems
  exact slot_eq_none (by rw [hitems]; exact h.used getter)

/-- With a slot left, the getter's items get one more. -/
theorem Holds.set (h : Holds summary kept) {getter : SlotGetter}
    (hroom : (kept getter).length < getter.capacity) (title : CString) (value : SummaryValue β) :
    ∃ slot summary', getter.slot summary = some slot ∧
      summaryItemSet (some slot) title value summary = .ok summary' ∧
      Holds summary' (Function.update kept getter (kept getter ++ [.used title value])) := by
  obtain ⟨k, hk⟩ := Nat.exists_eq_add_of_lt hroom
  have hleft : getter.capacity - (kept getter).length = k + 1 := by omega
  have hitems := h.items_eq getter
  rw [hleft, List.replicate_succ] at hitems
  obtain ⟨slot, summary', hslot, hset, hgetter, hframe⟩ :=
    slot_eq_some hitems (h.used getter) title value
  refine ⟨slot, summary', hslot, hset, ⟨?_, ?_, ?_⟩⟩
  · intro other item hitem
    by_cases hother : other = getter
    · subst hother
      rw [Function.update_self] at hitem
      rcases List.mem_append.mp hitem with hitem | hitem
      · exact h.used other item hitem
      · simp [List.mem_singleton.mp hitem]
    · rw [Function.update_of_ne hother] at hitem
      exact h.used other item hitem
  · intro other
    by_cases hother : other = getter
    · subst hother
      rw [Function.update_self, List.length_append, List.length_singleton]
      omega
    · rw [Function.update_of_ne hother]
      exact h.fits other
  · intro other
    by_cases hother : other = getter
    · subst hother
      have hrest : other.capacity - ((kept other).length + 1) = k := by omega
      rw [Function.update_self, hgetter, List.length_append, List.length_singleton, hrest,
        List.append_assoc, List.singleton_append]
    · rw [Function.update_of_ne hother, hframe other hother]
      exact h.items_eq other

end Slots

section Reviews

/-- The setter for a value of its kind. -/
def summaryItemSetter (item : Option SummarySlot) (title : CString) :
    SummaryValue β → TransactionSummary β → Checked (TransactionSummary β)
  | .amount u64 => summaryItemSetAmount item title u64
  | .tokenAmount value symbol decimals => summaryItemSetTokenAmount item title value symbol decimals
  | .i64 i64 => summaryItemSetI64 item title i64
  | .u64 u64 => summaryItemSetU64 item title u64
  | .pubkey pubkey => summaryItemSetPubkey item title pubkey
  | .hash hash => summaryItemSetHash item title hash
  | .sizedString sizedString => summaryItemSetSizedString item title sizedString
  | .string string => summaryItemSetString item title string
  | .timestamp i64 => summaryItemSetTimestamp item title i64

theorem summaryItemSetter_eq (item : Option SummarySlot) (title : CString)
    (value : SummaryValue β) :
    summaryItemSetter item title value = summaryItemSet item title value := by
  cases value <;> rfl

/-- One use of the store: a slot is taken and, if there is one, set. -/
structure TakeAndSet (β : Type) where
  getter : SlotGetter
  title : CString
  value : SummaryValue β
  deriving DecidableEq

def TakeAndSet.item (op : TakeAndSet β) : SummaryItem β := .used op.title op.value

def takeAndSet (summary : TransactionSummary β) (op : TakeAndSet β) :
    Checked (TransactionSummary β) :=
  match op.getter.slot summary with
  | none => .ok summary
  | some slot => summaryItemSetter (some slot) op.title op.value summary

/-- The items that stay: as many as the getter has slots for, the first ones. -/
def keptItems (ops : List (TakeAndSet β)) (getter : SlotGetter) : List (SummaryItem β) :=
  ((ops.filter (·.getter = getter)).map TakeAndSet.item).take getter.capacity

/-- The review that a sequence of uses asks for. -/
def reviewItems (ops : List (TakeAndSet β)) : List (SummaryItem β) :=
  reviewOrder.flatMap (keptItems ops)

theorem take_take_append {α : Type} (n : Nat) (front back : List α) :
    (front.take n ++ back).take n = (front ++ back).take n := by
  have hroom : n - min n front.length = n - front.length := by omega
  rw [List.take_append, List.take_append, List.take_take, Nat.min_self, List.length_take, hroom]

theorem keptItems_append (ops : List (TakeAndSet β)) (op : TakeAndSet β) :
    keptItems (ops ++ [op]) = Function.update (keptItems ops) op.getter
      ((keptItems ops op.getter ++ [op.item]).take op.getter.capacity) := by
  funext getter
  by_cases hgetter : getter = op.getter
  · subst hgetter
    rw [Function.update_self, keptItems, keptItems, take_take_append]
    simp
  · have hother : ¬ op.getter = getter := fun h => hgetter h.symm
    rw [Function.update_of_ne hgetter]
    simp [keptItems, hother]

/-- One use keeps the store in step with the review. -/
theorem Holds.takeAndSet {ops : List (TakeAndSet β)} {summary : TransactionSummary β}
    (h : Holds summary (keptItems ops)) (op : TakeAndSet β) :
    ∃ summary', takeAndSet summary op = .ok summary' ∧
      Holds summary' (keptItems (ops ++ [op])) := by
  rw [keptItems_append]
  rcases Nat.lt_or_eq_of_le (h.fits op.getter) with hroom | hfull
  · obtain ⟨slot, summary', hslot, hset, hholds⟩ := h.set hroom op.title op.value
    refine ⟨summary', ?_, ?_⟩
    · simp only [Libsol.takeAndSet, hslot, summaryItemSetter_eq, hset]
    · rw [List.take_of_length_le (by simpa using hroom)]
      exact hholds
  · refine ⟨summary, ?_, ?_⟩
    · simp only [Libsol.takeAndSet, h.slot_none hfull]
    · rw [← hfull, List.take_left, Function.update_eq_self]
      exact h

/-- Setting a slot that is known to be there is one use. -/
theorem Holds.setNext {ops : List (TakeAndSet β)} {summary : TransactionSummary β}
    (h : Holds summary (keptItems ops)) (op : TakeAndSet β)
    (hroom : (keptItems ops op.getter).length < op.getter.capacity) :
    ∃ summary', summaryItemSet (op.getter.slot summary) op.title op.value summary = .ok summary' ∧
      Holds summary' (keptItems (ops ++ [op])) := by
  obtain ⟨summary', hstep, hholds⟩ := h.takeAndSet op
  obtain ⟨slot, _, hslot, _, _⟩ := h.set hroom op.title op.value
  refine ⟨summary', ?_, hholds⟩
  rw [← hstep]
  simp only [Libsol.takeAndSet, hslot, summaryItemSetter_eq]

theorem keptItems_nil : keptItems ([] : List (TakeAndSet β)) = fun _ => [] := by
  funext getter
  simp [keptItems]

theorem holds_reset (g : SummaryGlobals β) :
    Holds (transactionSummaryReset g).summary (keptItems []) := by
  rw [keptItems_nil]
  exact holds_empty

/-- Any sequence of uses leaves the review in the store. -/
theorem holds_takeAndSet (prior : SummaryGlobals β) (ops : List (TakeAndSet β)) :
    ∃ summary, ops.foldlM takeAndSet (transactionSummaryReset prior).summary = .ok summary ∧
      Holds summary (keptItems ops) := by
  induction ops using List.reverseRecOn with
  | nil => exact ⟨_, rfl, holds_reset prior⟩
  | append_singleton ops op ih =>
      obtain ⟨summary, hrun, hholds⟩ := ih
      obtain ⟨summary', hstep, hholds'⟩ := hholds.takeAndSet op
      refine ⟨summary', ?_, hholds'⟩
      rw [List.foldlM_append, hrun, ok_bind, List.foldlM_cons, hstep, ok_bind, List.foldlM_nil]
      rfl

theorem reviewItems_length (ops : List (TakeAndSet β)) :
    (reviewItems ops).length ≤ maxTransactionSummaryItems := by
  have hlength : ∀ getter, (keptItems ops getter).length ≤ getter.capacity := fun getter =>
    List.length_take_le _ _
  have hprimary := hlength .primary
  have hgeneral := hlength .general
  have haccount := hlength .nonceAccount
  have hauthority := hlength .nonceAuthority
  have hfee := hlength .feePayer
  simp only [SlotGetter.capacity] at hprimary hgeneral haccount hauthority hfee
  simp only [reviewItems, reviewOrder, List.flatMap_cons, List.flatMap_nil, List.append_nil,
    List.length_append, maxTransactionSummaryItems]
  omega

/-- The primary item is missing exactly if its slot was never taken. -/
theorem Holds.primary_unused {ops : List (TakeAndSet β)} {summary : TransactionSummary β}
    (h : Holds summary (keptItems ops)) :
    summary.primary = .unused ↔ ∀ op ∈ ops, op.getter ≠ .primary := by
  have hitems := h.items_eq .primary
  have hkept : keptItems ops .primary = [] ↔ ∀ op ∈ ops, op.getter ≠ .primary := by
    simp [keptItems, SlotGetter.capacity]
  rw [← hkept]
  cases hfirst : keptItems ops .primary with
  | nil =>
      rw [hfirst] at hitems
      simpa [SlotGetter.items, SlotGetter.capacity] using hitems
  | cons item items =>
      have hused := h.used .primary item (by simp [hfirst])
      rw [hfirst] at hitems
      simp only [SlotGetter.items, List.cons_append, List.cons.injEq] at hitems
      simp [hitems.1, hused]

theorem kind_eq_none (item : SummaryItem β) : item.kind = .none ↔ item = .unused := by
  have hused := isSummaryItemUsed_iff item
  by_cases hunused : item = .unused
  · simp [hunused, SummaryItem.kind]
  · simpa [isSummaryItemUsed, hunused] using hused

/-- Finalizing reports the kinds of the review, unless there is no primary. -/
theorem Holds.finalize_eq {ops : List (TakeAndSet β)} {summary : TransactionSummary β}
    (h : Holds summary (keptItems ops)) :
    transactionSummaryFinalize summary =
      if ∀ op ∈ ops, op.getter ≠ .primary then (1, [])
      else (0, (reviewItems ops).map SummaryItem.kind) := by
  have hitems : summary.usedItems = reviewItems ops := h.usedItems_eq
  simp only [transactionSummaryFinalize_eq, hitems, kind_eq_none, h.primary_unused]

/-- A review with a primary is found item by item, and nothing behind it. -/
theorem Holds.findItem_eq {ops : List (TakeAndSet β)} {summary : TransactionSummary β}
    (h : Holds summary (keptItems ops)) (hprimary : ∃ op ∈ ops, op.getter = .primary)
    (itemIndex : Nat) :
    (transactionSummaryFindItem summary itemIndex).filter isSummaryItemUsed =
      (reviewItems ops)[itemIndex]? := by
  have hitems : summary.usedItems = reviewItems ops := h.usedItems_eq
  have hused : summary.primary ≠ .unused := by
    obtain ⟨op, hop, hgetter⟩ := hprimary
    exact fun hunused => h.primary_unused.mp hunused op hop hgetter
  rw [transactionSummaryFindItem_eq summary hused, hitems]

/-- What the display calls of a review show. -/
theorem Holds.displayed_eq {ops : List (TakeAndSet β)} {g : SummaryGlobals β}
    (h : Holds g.summary (keptItems ops)) (hprimary : ∃ op ∈ ops, op.getter = .primary)
    (mem : Mem β) (itemIndex : Nat) (flags : DisplayFlags) :
    displayed mem itemIndex flags g =
      match (reviewItems ops)[itemIndex]? with
      | some item => itemOutcome mem flags item
      | none => .ok (1, none) := by
  rw [Libsol.displayed_eq, ← h.findItem_eq hprimary itemIndex]
  cases transactionSummaryFindItem g.summary itemIndex with
  | none => rfl
  | some item =>
      by_cases hused : isSummaryItemUsed item = true
      · simp [Option.filter, hused]
      · have hunused : item = .unused := by
          by_contra hne
          exact hused ((isSummaryItemUsed_iff item).mpr hne)
        subst hunused
        rfl

/-- The displays of a walk through the steps, in any order: the return code of
each call and, if it is zero, what it shows. -/
def displaySteps (mem : Mem β) : List (Nat × DisplayFlags) → SummaryGlobals β →
    Checked (List (Nat × Option Screen) × SummaryGlobals β)
  | [], g => .ok ([], g)
  | (itemIndex, flags) :: calls, g => do
    let (ret, g) ← transactionSummaryDisplayItem mem itemIndex flags g
    let (shown, last) ← displaySteps mem calls g
    return ((ret, if ret = 0 then some g.screen else none) :: shown, last)

theorem displayed_congr (mem : Mem β) (itemIndex : Nat) (flags : DisplayFlags)
    {g g' : SummaryGlobals β} (h : g'.summary = g.summary) :
    displayed mem itemIndex flags g' = displayed mem itemIndex flags g := by
  rw [displayed_eq, displayed_eq, h]

/-- No call of a walk changes what another one shows. -/
theorem displaySteps_eq (mem : Mem β) (calls : List (Nat × DisplayFlags))
    (g : SummaryGlobals β) :
    Prod.fst <$> displaySteps mem calls g =
      calls.mapM (fun call => displayed mem call.1 call.2 g) ∧
    Ensures (displaySteps mem calls g) fun result => result.2.summary = g.summary := by
  induction calls generalizing g with
  | nil => exact ⟨rfl, ensures_ok rfl⟩
  | cons call calls ih =>
      obtain ⟨itemIndex, flags⟩ := call
      have hstore := transactionSummaryDisplayItem_summary mem itemIndex flags g
      rw [List.mapM_cons, displayed, displaySteps]
      cases hcall : transactionSummaryDisplayItem mem itemIndex flags g with
      | error e => exact ⟨rfl, by rintro _ ⟨⟩⟩
      | ok result =>
          obtain ⟨ret, next⟩ := result
          have hnext : next.summary = g.summary := hstore _ hcall
          obtain ⟨hshown, hlast⟩ := ih next
          have hsame : (fun call : Nat × DisplayFlags => displayed mem call.1 call.2 next) =
              fun call => displayed mem call.1 call.2 g := by
            funext call
            exact displayed_congr mem call.1 call.2 hnext
          rw [hsame] at hshown
          simp only [ok_bind, pure_eq_ok, ← hshown]
          cases hrest : displaySteps mem calls next with
          | error e => exact ⟨rfl, by rintro _ ⟨⟩⟩
          | ok rest => exact ⟨rfl, ensures_ok ((hlast _ hrest).trans hnext)⟩

/-- After any sequence of uses of a reset store, finalizing fails exactly if
the primary was never set. Otherwise it reports the kinds of the review, the
display calls find and render exactly the review's items, and refuse any
further index. No walk through the steps changes the store or what a step
shows. -/
theorem summary_and_screens_agree (mem : Mem β) (prior : SummaryGlobals β)
    (ops : List (TakeAndSet β)) :
    ∃ summary, ops.foldlM takeAndSet (transactionSummaryReset prior).summary = .ok summary ∧
      ((transactionSummaryFinalize summary).1 ≠ 0 ↔ ∀ op ∈ ops, op.getter ≠ .primary) ∧
      ((transactionSummaryFinalize summary).1 = 0 →
        (transactionSummaryFinalize summary).2 = (reviewItems ops).map SummaryItem.kind ∧
        (reviewItems ops).length ≤ maxTransactionSummaryItems ∧
        (∀ (i : Nat) (hi : i < (reviewItems ops).length),
          transactionSummaryFindItem summary i = some (reviewItems ops)[i] ∧
          ∀ flags (g : SummaryGlobals β), g.summary = summary →
            transactionSummaryDisplayItem mem i flags g =
              transactionSummaryUpdateDisplayForItem mem (reviewItems ops)[i] flags g) ∧
        ∀ i ≥ (reviewItems ops).length, ∀ flags (g : SummaryGlobals β), g.summary = summary →
          transactionSummaryDisplayItem mem i flags g = .ok (1, g)) ∧
      ∀ (g : SummaryGlobals β) (calls : List (Nat × DisplayFlags)), g.summary = summary →
        Prod.fst <$> displaySteps mem calls g =
          calls.mapM (fun call => displayed mem call.1 call.2 g) ∧
        Ensures (displaySteps mem calls g) fun result => result.2.summary = summary := by
  obtain ⟨summary, hrun, hholds⟩ := holds_takeAndSet prior ops
  refine ⟨summary, hrun, ?_, ?_, ?_⟩
  · rw [hholds.finalize_eq]
    by_cases hnone : ∀ op ∈ ops, op.getter ≠ .primary
    · rw [if_pos hnone]
      exact iff_of_true (by decide) hnone
    · rw [if_neg hnone]
      exact iff_of_false (fun hret => hret rfl) hnone
  · intro hok
    have hsome : ¬ ∀ op ∈ ops, op.getter ≠ .primary := by
      intro hnone
      rw [hholds.finalize_eq, if_pos hnone] at hok
      exact absurd hok (by decide)
    have hprimary : ∃ op ∈ ops, op.getter = .primary := by
      simpa using hsome
    refine ⟨?_, reviewItems_length ops, ?_, ?_⟩
    · rw [hholds.finalize_eq, if_neg hsome]
    · intro i hi
      have hfound := hholds.findItem_eq hprimary i
      rw [List.getElem?_eq_getElem hi] at hfound
      have hitem := (Option.filter_eq_some_iff.mp hfound).1
      refine ⟨hitem, ?_⟩
      rintro flags g rfl
      simp only [transactionSummaryDisplayItem, hitem]
    · rintro i hi flags g rfl
      have hfound := hholds.findItem_eq hprimary i
      rw [List.getElem?_eq_none hi, Option.filter_eq_none_iff] at hfound
      simp only [transactionSummaryDisplayItem]
      cases hitem : transactionSummaryFindItem g.summary i with
      | none => rfl
      | some item =>
          have hunused : item = .unused := by
            by_contra hne
            exact hfound item hitem ((isSummaryItemUsed_iff item).mpr hne)
          rw [hunused]
          rfl
  · rintro g calls rfl
    exact displaySteps_eq mem calls g

end Reviews

end AelfApp.Libsol
