import AelfApp.Lib.Memory

/-!
Slices of memory that lie one behind the other. A reader that hands out parts
of its buffer as it goes hands them out in order; two readers in a row do if
the second starts where the first one stopped.
-/

namespace AelfApp.Memory

variable {β : Type}

/-- Pointers are compared within a block, as C compares them. -/
instance : PartialOrder (Ptr β) where
  le p q := p.block = q.block ∧ p.offset ≤ q.offset
  le_refl _ := ⟨rfl, le_rfl⟩
  le_trans _ _ _ hpq hqr := ⟨hpq.1.trans hqr.1, hpq.2.trans hqr.2⟩
  le_antisymm := by
    rintro ⟨block, offset⟩ ⟨_, other⟩ ⟨rfl, hle⟩ ⟨_, hge⟩
    obtain rfl : offset = other := le_antisymm hle hge
    rfl

theorem Ptr.le_add (p : Ptr β) (n : Nat) : p ≤ p.add n := ⟨rfl, Nat.le_add_right _ _⟩

theorem Ptr.add_le_add (p : Ptr β) {m n : Nat} (h : m ≤ n) : p.add m ≤ p.add n :=
  ⟨rfl, Nat.add_le_add_left h _⟩

/-- `length` bytes from a pointer on. -/
structure Slice (β : Type) where
  start : Ptr β
  length : Nat
  deriving Repr, DecidableEq

/-- The end of a slice, one past its last byte. -/
def Slice.stop (slice : Slice β) : Ptr β := slice.start.add slice.length

/-- The slices lie between the two pointers, each behind the one before. -/
def InOrder : Ptr β → List (Slice β) → Ptr β → Prop
  | start, [], stop => start ≤ stop
  | start, slice :: slices, stop => start ≤ slice.start ∧ InOrder slice.stop slices stop

namespace InOrder

variable {start middle stop : Ptr β} {slices more : List (Slice β)}

theorem singleton {slice : Slice β} (hstart : start ≤ slice.start) (hstop : slice.stop ≤ stop) :
    InOrder start [slice] stop :=
  ⟨hstart, hstop⟩

theorem le (h : InOrder start slices stop) : start ≤ stop := by
  induction slices generalizing start with
  | nil => exact h
  | cons slice slices ih =>
      obtain ⟨hstart, hrest⟩ := h
      calc start ≤ slice.start := hstart
        _ ≤ slice.stop := slice.start.le_add slice.length
        _ ≤ stop := ih hrest

/-- Where the slices before begin further down, those behind may as well. -/
theorem of_le (hle : start ≤ middle) (h : InOrder middle slices stop) :
    InOrder start slices stop := by
  cases slices with
  | nil => exact hle.trans h
  | cons slice slices =>
      obtain ⟨hstart, hrest⟩ := h
      exact ⟨hle.trans hstart, hrest⟩

theorem append (h : InOrder start slices middle) (hmore : InOrder middle more stop) :
    InOrder start (slices ++ more) stop := by
  induction slices generalizing start with
  | nil => exact of_le h hmore
  | cons slice slices ih =>
      obtain ⟨hstart, hrest⟩ := h
      exact ⟨hstart, ih hrest⟩

/-- Each slice lies wholly between the two pointers. -/
theorem inside (h : InOrder start slices stop) :
    ∀ slice ∈ slices, start ≤ slice.start ∧ slice.stop ≤ stop := by
  induction slices generalizing start with
  | nil => simp
  | cons first slices ih =>
      obtain ⟨hstart, hrest⟩ := h
      intro slice hmem
      rcases List.mem_cons.mp hmem with rfl | hmem
      · exact ⟨hstart, hrest.le⟩
      · obtain ⟨hlow, hhigh⟩ := ih hrest slice hmem
        have hfirst := first.start.le_add first.length
        exact ⟨(hstart.trans hfirst).trans hlow, hhigh⟩

/-- No slice begins before every one handed out earlier has ended. -/
theorem pairwise (h : InOrder start slices stop) :
    slices.Pairwise fun earlier later => earlier.stop ≤ later.start := by
  induction slices generalizing start with
  | nil => exact List.Pairwise.nil
  | cons first slices ih =>
      obtain ⟨_, hrest⟩ := h
      refine List.Pairwise.cons (fun later hmem => ?_) (ih hrest)
      exact (hrest.inside later hmem).1

end InOrder

end AelfApp.Memory
