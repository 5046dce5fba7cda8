import AelfApp.Libsol.Printer.Decimals

/-!
What the string printers leave in a buffer: `print_string`,
`print_sized_string` and `print_summary`.
-/

namespace AelfApp.Libsol

open Memory Numeral

section Filling

theorem strncpyAt_zero (out src : List UInt8) {n : Nat} (h : n ≤ out.length) :
    strncpyAt out 0 src n = .ok (strncpyBytes src n ++ out.drop n) := by
  have hlength := strncpyBytes_length src n
  have hwrite := writeBytes_next [] out (strncpyBytes src n) (by omega)
  rw [hlength] at hwrite
  exact hwrite

theorem strncpyBytes_short (src : List UInt8) {n : Nat} (h : (cString src).length ≤ n) :
    strncpyBytes src n = cString src ++ List.replicate (n - (cString src).length) 0 := by
  rw [strncpyBytes, List.take_of_length_le h]

theorem strncpyBytes_long (src : List UInt8) {n : Nat} (h : n ≤ (cString src).length) :
    strncpyBytes src n = (cString src).take n := by
  have hzero : n - (cString src).length = 0 := by omega
  rw [strncpyBytes, hzero, List.replicate_zero, List.append_nil]

/-- The terminator, and the mark of a truncated text in front of it. -/
theorem truncate_eq (text : List UInt8) {n : Nat} (htext : text.length = n + 2) :
    writeAt text ((n + 1 : Nat) : Int) 0 = .ok (text.take (n + 1) ++ [0]) ∧
      signalTruncation (text.take (n + 1) ++ [0]) (n + 1) =
        .ok (text.take n ++ [charTilde, 0]) := by
  obtain ⟨a, b, hdrop⟩ : ∃ a b, text.drop n = [a, b] :=
    List.length_eq_two.mp (by simp only [List.length_drop]; omega)
  have hsplit : text = text.take n ++ [a, b] := by
    rw [← hdrop, List.take_append_drop]
  have hlength : (text.take n).length = n := by
    simp only [List.length_take]
    omega
  have hfront : text.take (n + 1) = text.take n ++ [a] := by
    conv_lhs => rw [hsplit]
    rw [List.take_append, hlength]
    simp
  have hlast := writeAt_append (text.take n ++ [a]) [] b 0
  have hmark := writeAt_append (text.take n) [0] a charTilde
  have hindex : (text.take n ++ [a]).length = n + 1 := by simp [hlength]
  rw [hindex, List.append_assoc, List.singleton_append, ← hsplit] at hlast
  rw [hlength] at hmark
  have hprevious : ((n + 1 : Nat) : Int) - 1 = (n : Nat) := by omega
  refine ⟨by rw [hlast, hfront], ?_⟩
  rw [signalTruncation, if_pos (by omega), hprevious, hfront, List.append_assoc]
  exact hmark

end Filling

section Strings

/-- A text cut to a buffer of that size, with `~` at the cut. -/
def clipped (size : Nat) (text : List UInt8) : List UInt8 :=
  if text.length < size then text else text.take (size - 2) ++ [charTilde]

/-- The last character of a copy is the terminator if the text is shorter, -/
theorem readAt_strncpyBytes_short (text : List UInt8) {n : Nat}
    (h : (cString text).length < n + 1) :
    readAt (strncpyBytes text (n + 1)) (n : Int) = .ok 0 := by
  obtain ⟨zeros, hzeros⟩ : ∃ zeros, n + 1 - (cString text).length = zeros + 1 :=
    ⟨n - (cString text).length, by omega⟩
  have happend := readAt_append (cString text ++ List.replicate zeros 0) [] 0
  have hindex : (cString text ++ List.replicate zeros (0 : UInt8)).length = n := by
    rw [List.length_append, List.length_replicate]
    omega
  rw [hindex, List.append_assoc, ← List.replicate_succ'] at happend
  rw [strncpyBytes_short text (Nat.le_of_lt h), hzeros]
  exact happend

/-- and another character if it is not. -/
theorem readAt_strncpyBytes_long (text : List UInt8) {n : Nat}
    (h : n + 1 ≤ (cString text).length) :
    ∃ c, readAt (strncpyBytes text (n + 1)) (n : Int) = .ok c ∧ c ≠ 0 := by
  have hlength := strncpyBytes_length text (n + 1)
  refine ⟨_, readAt_ok (by omega), ?_⟩
  apply cString_noNul text _
  simp only [strncpyBytes_long text h]
  exact (List.take_subset _ _) (List.getElem_mem _)

/-- The text is there, cut if it has to be, whatever the return code says. -/
theorem printString_eq (text out : List UInt8) (size : Nat) (hsize : 2 ≤ size)
    (hout : out.length = size) :
    ∃ filled, printString text out size =
        .ok (if (cString text).length < size then 0 else 1, filled) ∧
      cString filled = clipped size (cString text) := by
  obtain ⟨n, rfl⟩ := Nat.exists_eq_add_of_le' hsize
  have hcopy := strncpyAt_zero out text (n := n + 2) (by omega)
  have hdrop : out.drop (n + 2) = [] := List.drop_eq_nil_of_le (by omega)
  have hlength := strncpyBytes_length text (n + 2)
  rw [hdrop, List.append_nil] at hcopy
  have hsub : subSize (n + 2) 1 = .ok (n + 1) := rfl
  simp only [printString, hcopy, hsub, ok_bind, clipped]
  by_cases hshort : (cString text).length < n + 2
  · have hread := readAt_strncpyBytes_short text hshort
    obtain ⟨zeros, hzeros⟩ : ∃ zeros, n + 2 - (cString text).length = zeros + 1 :=
      ⟨n + 1 - (cString text).length, by omega⟩
    refine ⟨strncpyBytes text (n + 2), ?_, ?_⟩
    · simp only [hread, hshort, ok_bind, pure_eq_ok, ne_eq, not_true_eq_false, ↓reduceIte]
    · rw [if_pos hshort, strncpyBytes_short text (Nat.le_of_lt hshort), hzeros,
        List.replicate_succ, cString_append_nul _ _ (cString_noNul text)]
  · have hbytes := strncpyBytes_long text (n := n + 2) (by omega)
    obtain ⟨hwrite, hmark⟩ := truncate_eq (strncpyBytes text (n + 2)) hlength
    obtain ⟨c, hread, hc⟩ := readAt_strncpyBytes_long text (show n + 1 + 1 ≤ _ by omega)
    refine ⟨(strncpyBytes text (n + 2)).take n ++ [charTilde, 0], ?_, ?_⟩
    · simp only [hread, hwrite, hmark, hc, hshort, ok_bind, pure_eq_ok, ne_eq, not_false_eq_true,
        ↓reduceIte]
    · have hfront : (strncpyBytes text (n + 2)).take n = (cString text).take n := by
        rw [hbytes, List.take_take, Nat.min_eq_left (by omega)]
      have hnoNul : ∀ c ∈ (cString text).take n ++ [charTilde], c ≠ 0 := by
        intro c hc
        rcases List.mem_append.mp hc with hc | hc
        · exact cString_noNul text c (List.mem_of_mem_take hc)
        · obtain rfl := List.mem_singleton.mp hc
          decide
      have hseen := cString_append_nul ((cString text).take n ++ [charTilde]) [] hnoNul
      rw [if_neg hshort, hfront, Nat.add_sub_cancel]
      rw [List.append_assoc] at hseen
      exact hseen

/-- Copying does not change what is seen of a beginning. -/
theorem cString_strncpyBytes_take (src tail : List UInt8) (m : Nat) :
    cString ((strncpyBytes src src.length).take m ++ tail) = cString (src.take m ++ tail) := by
  induction src generalizing m with
  | nil => simp [strncpyBytes, cString]
  | cons c src ih =>
      cases m with
      | zero => simp
      | succ m =>
          by_cases hc : c = 0
          · simp [strncpyBytes, hc, List.replicate_succ]
          · have hcons : strncpyBytes (c :: src) (c :: src).length =
                c :: strncpyBytes src src.length := by
              simp [strncpyBytes, cString_cons _ hc]
            rw [hcons]
            simp only [List.take_succ_cons, List.cons_append, cString_cons _ hc, ih]

/-- What is seen of so many bytes of a string. -/
def sizedText (size length : Nat) (src : List UInt8) : List UInt8 :=
  if length < size then cString src else cString (src.take (size - 2) ++ [charTilde])

/-- The bytes up to the first NUL are there, cut if they have to be. -/
theorem printSizedString_eq {β : Type} (mem : Mem β) (string : SizedString β)
    {src out : List UInt8} (size : Nat) (hsize : 2 ≤ size) (hout : out.length = size)
    (hload : mem.loadBytes string.string (min size string.length.toNat) = .ok src) :
    ∃ filled, printSizedString mem string out size =
        .ok (if string.length.toNat < size then 0 else 1, filled) ∧
      cString filled = sizedText size string.length.toNat src := by
  obtain ⟨n, rfl⟩ := Nat.exists_eq_add_of_le' hsize
  have hlength := Mem.loadBytes_length hload
  have hcopy := strncpyAt_zero out src (n := src.length) (by omega)
  have hcopied := strncpyBytes_length src src.length
  rw [← hlength] at hload
  simp only [printSizedString, ← hlength, hload, ok_bind, hcopy]
  by_cases hshort : string.length.toNat < n + 2
  · have hsame : string.length.toNat = src.length := by omega
    cases hdrop : out.drop src.length with
    | nil =>
        have hnil := congrArg List.length hdrop
        rw [List.length_drop, List.length_nil] at hnil
        omega
    | cons old rest =>
        have hwrite := writeAt_append (strncpyBytes src src.length) rest old 0
        rw [hcopied] at hwrite
        refine ⟨strncpyBytes src src.length ++ 0 :: rest, ?_, ?_⟩
        · rw [if_pos hshort, if_pos hshort, hsame, hwrite]
          rfl
        · have hseen := cString_strncpyBytes_take src (0 :: rest) src.length
          rw [List.take_of_length_le hcopied.le, List.take_length] at hseen
          rw [hseen, sizedText, if_pos hshort]
          exact cString_append_self src rest
  · have hfull : src.length = n + 2 := by omega
    have hdrop : out.drop src.length = [] := List.drop_eq_nil_of_le (by omega)
    obtain ⟨hwrite, hmark⟩ := truncate_eq (strncpyBytes src src.length) (n := n) (by omega)
    have hsub : subSize (n + 2) 1 = .ok (n + 1) := rfl
    refine ⟨(strncpyBytes src src.length).take n ++ [charTilde, 0], ?_, ?_⟩
    · rw [if_neg hshort, if_neg hshort, hdrop, List.append_nil]
      simp only [hsub, hwrite, hmark, ok_bind, pure_eq_ok]
    · rw [cString_strncpyBytes_take, sizedText, if_neg hshort, Nat.add_sub_cancel]
      have hsplit : src.take n ++ [charTilde, 0] = src.take n ++ [charTilde] ++ 0 :: [] := by simp
      rw [hsplit, cString_append_self]

/-- A null string is only read if its length is not zero. -/
theorem printSizedString_null {β : Type} {mem : Mem β} {string : SizedString β}
    {out : List UInt8} {size : Nat} {e : Fault}
    (hload : mem.loadBytes string.string (min size string.length.toNat) = .error e) :
    printSizedString mem string out size = .error e := by
  simp only [printSizedString, hload, error_bind]

/-- A long text is shown by its ends. -/
theorem printSummary_eq (text rest out : List UInt8) (size left right : Nat)
    (htext : ∀ c ∈ text, c ≠ 0) (hlong : size ≤ text.length)
    (hends : left + right + 2 < size) (hout : size ≤ out.length) :
    ∃ filled, printSummary (text ++ 0 :: rest) out size left right = .ok (0, filled) ∧
      cString filled =
        text.take left ++ [charPoint, charPoint] ++ text.drop (text.length - right) := by
  have hlength : (cString (text ++ 0 :: rest)).length = text.length := by
    rw [cString_append_nul text rest htext]
  have hsize : ¬ size ≤ left + right + 2 := by omega
  have hcut : text.length + 1 > size := by omega
  have hleft : (text.take left).length = left := by
    simp only [List.length_take]
    omega
  have hright : (text.drop (text.length - right)).length = right := by
    simp only [List.length_drop]
    omega
  have hreadLeft := readBytes_front text (0 :: rest) (n := left) (by omega)
  have hreadRight := readBytes_end text (0 :: rest) (n := right) (by omega)
  have hwriteLeft := writeBytes_drop [] out (text.take left) (k := 0) (by omega)
  have hpoint := writeAt_drop (text.take left) out charPoint (k := left) (by omega)
  have hpoint' := writeAt_drop (text.take left ++ [charPoint]) out charPoint (k := left + 1)
    (by omega)
  have hwriteRight := writeBytes_drop (text.take left ++ [charPoint, charPoint]) out
    (text.drop (text.length - right)) (k := left + 2) (by omega)
  have hend := writeAt_drop (text.take left ++ [charPoint, charPoint] ++
    text.drop (text.length - right)) out 0 (k := left + 2 + right) (by omega)
  simp only [List.drop_zero, List.nil_append, List.length_nil, Int.natCast_zero, Nat.zero_add,
    List.length_append, List.length_cons, hleft, hright, List.append_assoc, List.cons_append]
    at hwriteLeft hpoint hpoint' hwriteRight hend
  refine ⟨text.take left ++ [charPoint, charPoint] ++ text.drop (text.length - right) ++
    0 :: out.drop (left + 2 + right + 1), ?_, ?_⟩
  · simp only [printSummary, hsize, ↓reduceIte, hlength, hcut, hreadLeft, ok_bind, hwriteLeft]
    have hsum : left + (right + 1 + 1) = left + right + 2 := by omega
    rw [hsum] at hend
    simp only [hpoint, hpoint', hreadRight, hwriteRight, hend, ok_bind, pure_eq_ok]
    simp
  · apply cString_append_nul _ _
    intro c hc
    rcases List.mem_append.mp hc with hc | hc
    · rcases List.mem_append.mp hc with hc | hc
      · exact htext c (List.mem_of_mem_take hc)
      · have hcp : c = charPoint := by simpa using hc
        rw [hcp]
        decide
    · exact htext c (List.mem_of_mem_drop hc)

end Strings

end AelfApp.Libsol
