import Mathlib.Tactic

/-!
A list cut into pieces of one size, the last of which may be shorter.
-/

namespace AelfApp.Pieces

variable {α : Type}

/-- `[list[x:x + size] for x in range(0, len(list), size)]`. -/
def pieces (size : Nat) (list : List α) : List (List α) :=
  (List.range ((list.length + (size - 1)) / size)).map fun i => (list.drop (i * size)).take size

@[simp] theorem pieces_nil (size : Nat) : pieces size ([] : List α) = [] := by
  have hcount : (size - 1) / size = 0 := by
    rcases Nat.eq_zero_or_pos size with rfl | hsize
    · rfl
    · exact Nat.div_eq_of_lt (Nat.sub_lt hsize Nat.one_pos)
  simp [pieces, hcount]

/-- The first piece, and those of what is behind it. -/
theorem pieces_cons {size : Nat} (hsize : 0 < size) {list : List α} (hne : list ≠ []) :
    pieces size list = list.take size :: pieces size (list.drop size) := by
  have hlength := List.length_pos_of_ne_nil hne
  have hcount : (list.length + (size - 1)) / size =
      ((list.drop size).length + (size - 1)) / size + 1 := by
    rw [List.length_drop]
    rcases Nat.le_total list.length size with hle | hge
    · have hone : (list.length + (size - 1)) / size = 1 :=
        Nat.div_eq_of_lt_le (by omega) (by omega)
      rw [hone, Nat.sub_eq_zero_of_le hle, Nat.zero_add,
        Nat.div_eq_of_lt (Nat.sub_lt hsize Nat.one_pos)]
    · rw [← Nat.add_div_right _ hsize]
      congr 1
      omega
  rw [pieces, hcount, List.range_succ_eq_map, List.map_cons, List.map_map]
  congr 1
  · simp
  · apply List.map_congr_left
    intro i _
    simp only [Function.comp_apply, List.drop_drop, Nat.succ_eq_add_one]
    congr 2
    ring

theorem pieces_flatten {size : Nat} (hsize : 0 < size) (list : List α) :
    (pieces size list).flatten = list := by
  induction hlength : list.length using Nat.strong_induction_on generalizing list with
  | _ length ih =>
      rcases eq_or_ne list [] with rfl | hne
      · simp
      · have hpos := List.length_pos_of_ne_nil hne
        rw [pieces_cons hsize hne, List.flatten_cons,
          ih (list.drop size).length (by rw [List.length_drop]; omega) _ rfl,
          List.take_append_drop]

theorem mem_pieces {size : Nat} (hsize : 0 < size) {list piece : List α}
    (h : piece ∈ pieces size list) : piece ≠ [] ∧ piece.length ≤ size := by
  obtain ⟨i, hi, rfl⟩ := List.mem_map.mp h
  have hroom : i * size < list.length := by
    have hcount := (Nat.lt_div_iff_mul_lt hsize).mp (List.mem_range.mp hi)
    omega
  constructor
  · apply List.ne_nil_of_length_pos
    rw [List.length_take, List.length_drop]
    omega
  · rw [List.length_take]
    exact Nat.min_le_left _ _

end AelfApp.Pieces
