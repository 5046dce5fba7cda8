import AelfApp.Libsol.Printer

/-!
What the decimal printers leave in a buffer: `print_u64`, `print_i64`,
`print_token_amount` and `print_amount`. All of them write the digits units
first and turn them around in place.
-/

namespace AelfApp.Libsol

open Memory Numeral

/-- On every buffer of that size the call faults, or returns the same code
and, if it is zero, the same text. -/
def Prints (size : Nat) (call : List UInt8 → Checked (Nat × List UInt8))
    (outcome : Checked (Nat × List UInt8)) : Prop :=
  ∀ out : List UInt8, out.length = size →
    match outcome with
    | .error e => call out = .error e
    | .ok (ret, text) => ∃ filled, call out = .ok (ret, filled) ∧ (ret = 0 → cString filled = text)

section Writing

theorem writeAt_next (done rest : List UInt8) (c old : UInt8) :
    writeAt (done ++ old :: rest) done.length c = .ok (done ++ [c] ++ rest) := by
  rw [writeAt_append, List.append_assoc, List.singleton_append]

/-- Writing behind what is done, with room to spare. -/
theorem writeBytes_next (done rest data : List UInt8) (h : data.length ≤ rest.length) :
    writeBytes (done ++ rest) done.length data = .ok (done ++ data ++ rest.drop data.length) := by
  have hold : (rest.take data.length).length = data.length := by
    simp only [List.length_take]
    omega
  have hwrite := writeBytes_append done (rest.take data.length) (rest.drop data.length) data
    hold.symm
  rwa [List.append_assoc, List.take_append_drop] at hwrite

/-- The same in the rest of a buffer. -/
theorem writeBytes_drop (done out data : List UInt8) {k : Nat} (h : k + data.length ≤ out.length) :
    writeBytes (done ++ out.drop k) done.length data =
      .ok (done ++ data ++ out.drop (k + data.length)) := by
  rw [writeBytes_next done (out.drop k) data (by simp only [List.length_drop]; omega),
    List.drop_drop]

theorem writeAt_drop (done out : List UInt8) (c : UInt8) {k : Nat} (h : k < out.length) :
    writeAt (done ++ out.drop k) done.length c = .ok (done ++ [c] ++ out.drop (k + 1)) := by
  rw [List.drop_eq_getElem_cons h, writeAt_append, List.append_assoc, List.singleton_append]

/-- The loop ends where its two ends meet. -/
theorem reverseLoop_stop (fuel : Nat) {i k : Int} (out : List UInt8) (h : k ≤ i) :
    reverseLoop fuel i k out = .ok out := by
  have hstop : ¬ i < k := by omega
  cases fuel with
  | zero => simp only [reverseLoop, hstop, ↓reduceIte]
  | succ fuel => simp only [reverseLoop, hstop, ↓reduceIte, pure_eq_ok]

/-- The loop turns a part of the buffer around. -/
theorem reverseLoop_eq (fuel : Nat) {k : Int} (pre mid post : List UInt8)
    (hfuel : mid.length ≤ fuel) (hk : k + 1 = pre.length + mid.length) :
    reverseLoop fuel pre.length k (pre ++ mid ++ post) = .ok (pre ++ mid.reverse ++ post) := by
  induction fuel generalizing k pre mid post with
  | zero =>
      have hnil : mid = [] := List.eq_nil_of_length_eq_zero (by omega)
      subst hnil
      exact reverseLoop_stop 0 _ (by simp only [List.length_nil] at hk; omega)
  | succ fuel ih =>
      cases mid with
      | nil => exact reverseLoop_stop _ _ (by simp only [List.length_nil] at hk; omega)
      | cons x tail =>
          rcases List.eq_nil_or_concat tail with rfl | ⟨inner, y, rfl⟩
          · exact reverseLoop_stop _ _ (by simp only [List.length_singleton] at hk; omega)
          simp only [List.concat_eq_append, List.length_cons, List.length_append,
            List.length_nil] at hfuel hk
          have hgo : (pre.length : Int) < k := by omega
          have hlast : k = (pre ++ x :: inner).length := by
            simp only [List.length_append, List.length_cons]
            omega
          have hother : k = (pre ++ y :: inner).length := by
            simp only [List.length_append, List.length_cons]
            omega
          have hx := readAt_append pre (inner ++ y :: post) x
          have hy := readAt_append (pre ++ x :: inner) post y
          have hwritex := writeAt_append pre (inner ++ y :: post) x y
          have hwritey := writeAt_append (pre ++ y :: inner) post y x
          have hnext := ih (k := k - 1) (pre ++ [y]) inner (x :: post) (by omega) (by
            simp only [List.length_append, List.length_singleton]
            omega)
          have hj : ((pre ++ [y]).length : Int) = pre.length + 1 := by simp
          rw [hj] at hnext
          rw [← hlast] at hy
          rw [← hother] at hwritey
          simp only [List.append_assoc, List.cons_append, List.nil_append]
            at hx hy hwritex hwritey hnext
          simp only [reverseLoop, hgo, ↓reduceIte, List.concat_eq_append, List.append_assoc,
            List.cons_append, List.nil_append, hx, hy, hwritex, hwritey, ok_bind, hnext]
          simp

end Writing

section Endings

/-- How a loop that writes characters ends: with all it has to write, or at the
end of the buffer. -/
structure LoopEnding (outlen : Nat) (done rest text : List UInt8)
    (ended : Checked (Nat × List UInt8)) : Prop where
  fits : text.length ≤ rest.length →
    ended = .ok (done.length + text.length, done ++ text ++ rest.drop text.length)
  full : rest.length < text.length → ∃ out, ended = .ok (outlen, out)

variable {outlen : Nat} {done rest text : List UInt8} {c old : UInt8}
  {ended : Checked (Nat × List UInt8)}

theorem LoopEnding.cons (h : LoopEnding outlen (done ++ [c]) rest text ended) :
    LoopEnding outlen done (old :: rest) (c :: text) ended where
  fits hfits := by
    have hlength : (done ++ [c]).length + text.length = done.length + (c :: text).length := by
      simp only [List.length_append, List.length_cons, List.length_nil]
      omega
    rw [h.fits (Nat.le_of_succ_le_succ hfits), hlength]
    simp only [List.append_assoc, List.nil_append, List.cons_append, List.length_cons,
      List.drop_succ_cons]
  full hover := h.full (Nat.lt_of_succ_lt_succ hover)

/-- An iteration that writes one character, and goes on if there is more to
write and room for it. -/
theorem LoopEnding.step {more : Prop} [Decidable more]
    (hsize : done.length + (rest.length + 1) = outlen) (hmore : more ↔ text ≠ [])
    (hnext : more → rest ≠ [] → LoopEnding outlen (done ++ [c]) rest text ended) :
    LoopEnding outlen done (old :: rest) (c :: text)
      (if more ∧ done.length + 1 < outlen then ended
        else .ok (done.length + 1, done ++ [c] ++ rest)) := by
  cases text with
  | nil =>
      have hlast : ¬ more := fun h => hmore.mp h rfl
      simp only [hlast, false_and, ↓reduceIte]
      exact ⟨fun _ => rfl, fun hover => absurd hover (by simp)⟩
  | cons d text =>
      have hgoes : more := hmore.mpr (List.cons_ne_nil d text)
      simp only [hgoes, true_and]
      by_cases hroom : done.length + 1 < outlen
      · rw [if_pos hroom]
        apply (hnext hgoes _).cons
        rintro rfl
        simp only [List.length_nil] at hsize
        omega
      · have hwhole : done.length + 1 = outlen := by omega
        rw [if_neg hroom, hwhole]
        refine ⟨fun hfits => ?_, fun _ => ⟨_, rfl⟩⟩
        simp only [List.length_cons] at hfits
        omega

/-- A text that leaves no room for its terminator stops the loop at the end of
the buffer. -/
theorem LoopEnding.stops (h : LoopEnding outlen [] rest text ended) (hsize : rest.length = outlen)
    (hlong : outlen ≤ text.length) : ∃ out, ended = .ok (outlen, out) := by
  rcases Nat.lt_or_eq_of_le hlong with hover | hexact
  · exact h.full (hsize ▸ hover)
  · have hcall := h.fits (by omega)
    rw [List.length_nil, Nat.zero_add, ← hexact] at hcall
    exact ⟨_, hcall⟩

/-- Any other text is written to the front of the buffer. -/
theorem LoopEnding.leaves (h : LoopEnding outlen [] rest text ended) (hsize : rest.length = outlen)
    (hshort : text.length < outlen) :
    ended = .ok (text.length, text ++ rest.drop text.length) := by
  have hcall := h.fits (by omega)
  rwa [List.length_nil, Nat.zero_add, List.nil_append] at hcall

end Endings

section TokenDigits

/-- The characters of digits. -/
def digitText (digits : List Nat) : List UInt8 := digits.map digitChar

@[simp] theorem digitText_length (digits : List Nat) :
    (digitText digits).length = digits.length := by
  simp [digitText]

/-- The digits of a number, one at a time. -/
theorem digitText_unitsFirst (n : Nat) :
    digitText (unitsFirst n) = digitChar (n % 10) ::
      if n / 10 = 0 then [] else digitText (unitsFirst (n / 10)) := by
  rw [unitsFirst_eq n]
  split <;> rfl

theorem digitText_unitsFirst_ne_nil (n : Nat) : digitText (unitsFirst n) ≠ [] := by
  rw [digitText_unitsFirst]
  exact List.cons_ne_nil _ _

theorem div_ten_pos (dVal : UInt64) : dVal / 10 > 0 ↔ dVal.toNat / 10 ≠ 0 := by
  have hten : (10 : UInt64).toNat = 10 := rfl
  rw [gt_iff_lt, UInt64.lt_iff_toNat_lt, UInt64.toNat_div, hten]
  exact Nat.pos_iff_ne_zero

theorem mod_ten (dVal : UInt64) : (dVal % 10).toNat = dVal.toNat % 10 := by
  rw [UInt64.toNat_mod]
  rfl

theorem div_ten (dVal : UInt64) : (dVal / 10).toNat = dVal.toNat / 10 := by
  rw [UInt64.toNat_div]
  rfl

variable {decimals minChars outlen : Nat}

/-- One digit where no point goes. -/
theorem tokenDigitLoop_step (fuel : Nat) (dVal : UInt64) (done rest : List UInt8) (old : UInt8)
    (hi : done.length ≠ decimals) :
    tokenDigitLoop decimals minChars outlen (fuel + 1) dVal done.length (done ++ old :: rest) =
      if (dVal / 10 > 0 ∨ done.length + 1 < minChars) ∧ done.length + 1 < outlen then
        tokenDigitLoop decimals minChars outlen fuel (dVal / 10)
          (done ++ [digitChar (dVal.toNat % 10)]).length
          (done ++ [digitChar (dVal.toNat % 10)] ++ rest)
      else .ok (done.length + 1, done ++ [digitChar (dVal.toNat % 10)] ++ rest) := by
  rw [tokenDigitLoop, putPoint, if_neg hi]
  simp only [ok_bind, pure_eq_ok, mod_ten, writeAt_next, List.length_append,
    List.length_singleton]

/-- The point, and then the same iteration without it. -/
theorem tokenDigitLoop_point (fuel : Nat) (dVal : UInt64) (done rest : List UInt8) (old : UInt8)
    (hi : done.length = decimals) :
    tokenDigitLoop decimals minChars outlen (fuel + 1) dVal done.length (done ++ old :: rest) =
      tokenDigitLoop decimals minChars outlen (fuel + 1) dVal (done ++ [charPoint]).length
        (done ++ [charPoint] ++ rest) := by
  have hbehind : ¬ (done ++ [charPoint]).length = decimals := by
    simp only [List.length_append, List.length_singleton]
    omega
  rw [tokenDigitLoop, tokenDigitLoop, putPoint, putPoint, if_pos hi, if_neg hbehind]
  simp only [ok_bind, pure_eq_ok, writeAt_next, List.length_append, List.length_singleton]

/-- Behind the point, the loop writes the digits that are left. -/
theorem tokenDigitLoop_whole (fuel : Nat) (dVal : UInt64) (done rest : List UInt8)
    (hmin : minChars ≤ done.length) (hbehind : decimals < done.length)
    (hsize : done.length + rest.length = outlen) (hroom : rest ≠ [])
    (hfuel : rest.length ≤ fuel) :
    LoopEnding outlen done rest (digitText (unitsFirst dVal.toNat))
      (tokenDigitLoop decimals minChars outlen fuel dVal done.length (done ++ rest)) := by
  obtain ⟨old, rest, rfl⟩ := List.exists_cons_of_ne_nil hroom
  simp only [List.length_cons] at hsize hfuel
  induction fuel generalizing dVal done rest old with
  | zero => omega
  | succ fuel ih =>
      have hlength : (done ++ [digitChar (dVal.toNat % 10)]).length = done.length + 1 := by simp
      have hmin' : ¬ done.length + 1 < minChars := by omega
      rw [tokenDigitLoop_step fuel dVal done rest old (by omega), digitText_unitsFirst]
      simp only [div_ten_pos, hmin', or_false]
      refine LoopEnding.step hsize ?_ fun hmore hrest => ?_
      · by_cases hlast : dVal.toNat / 10 = 0
        · simp [hlast]
        · simp [hlast, digitText_unitsFirst_ne_nil]
      · obtain ⟨next, rest, rfl⟩ := List.exists_cons_of_ne_nil hrest
        simp only [List.length_cons] at hsize hfuel
        rw [if_neg hmore, ← div_ten]
        exact ih (dVal / 10) _ (by omega) (by omega) next rest (by omega) hrest (by omega)

/-- What the loop writes: the fraction, the point and the whole part, each
units first. -/
def rawDigits (count n : Nat) : List UInt8 :=
  digitText (lowDigits count n) ++ charPoint :: digitText (unitsFirst (n / 10 ^ count))

theorem rawDigits_length (count n : Nat) :
    (rawDigits count n).length = count + 1 + (unitsFirst (n / 10 ^ count)).length := by
  simp only [rawDigits, List.length_append, List.length_cons, digitText_length, lowDigits_length]
  omega

theorem rawDigits_zero (n : Nat) : rawDigits 0 n = charPoint :: digitText (unitsFirst n) := by
  simp [rawDigits, lowDigits, digitText]

theorem rawDigits_succ (count n : Nat) :
    rawDigits (count + 1) n = digitChar (n % 10) :: rawDigits count (n / 10) := by
  simp [rawDigits, lowDigits, digitText, Nat.pow_succ', Nat.div_div_eq_div_mul]

/-- The loop writes the fraction, the point and the whole part. -/
theorem tokenDigitLoop_eq (count fuel : Nat) (dVal : UInt64) (done rest : List UInt8)
    (hpoint : decimals + 1 ≠ outlen) (hcount : done.length + count = decimals)
    (hsize : done.length + rest.length = outlen) (hroom : rest ≠ [])
    (hfuel : rest.length ≤ fuel) :
    LoopEnding outlen done rest (rawDigits count dVal.toNat)
      (tokenDigitLoop decimals (decimals + 1) outlen fuel dVal done.length (done ++ rest)) := by
  obtain ⟨old, rest, rfl⟩ := List.exists_cons_of_ne_nil hroom
  obtain ⟨fuel, rfl⟩ : ∃ k, fuel = k + 1 := Nat.exists_eq_add_of_le' (Nat.le_of_add_left_le hfuel)
  induction count generalizing fuel dVal done rest old with
  | zero =>
      have hlength : (done ++ [charPoint]).length = done.length + 1 := by simp
      simp only [List.length_cons] at hsize hfuel
      have hmore : rest ≠ [] := by
        rintro rfl
        simp only [List.length_nil] at hsize
        omega
      rw [tokenDigitLoop_point fuel dVal done rest old hcount, rawDigits_zero]
      apply LoopEnding.cons
      exact tokenDigitLoop_whole (fuel + 1) dVal _ rest (by omega) (by omega) (by omega) hmore
        (by omega)
  | succ count ih =>
      have hlength : (done ++ [digitChar (dVal.toNat % 10)]).length = done.length + 1 := by simp
      simp only [List.length_cons] at hsize hfuel
      rw [tokenDigitLoop_step fuel dVal done rest old (by omega), rawDigits_succ, ← div_ten]
      refine LoopEnding.step hsize ?_ fun hmore hrest => ?_
      · have hmin : done.length + 1 < decimals + 1 := by omega
        simp [hmin, rawDigits]
      · obtain ⟨next, rest, rfl⟩ := List.exists_cons_of_ne_nil hrest
        simp only [List.length_cons] at hsize hfuel
        obtain ⟨fuel, rfl⟩ : ∃ k, fuel = k + 1 := Nat.exists_eq_add_of_le' (by omega)
        exact ih (dVal / 10) _ (by omega) next rest (by simp only [List.length_cons]; omega) hrest
          fuel (by simp only [List.length_cons]; omega)

/-- If the point takes the last place, the digit behind it goes past the end. -/
theorem tokenDigitLoop_fault (count fuel : Nat) (dVal : UInt64) (done rest : List UInt8)
    (hpoint : decimals + 1 = outlen) (hcount : done.length + count = decimals)
    (hsize : done.length + rest.length = outlen) (hfuel : rest.length ≤ fuel) :
    tokenDigitLoop decimals (decimals + 1) outlen fuel dVal done.length (done ++ rest) =
      .error (.outOfBounds outlen outlen) := by
  obtain ⟨old, rest, rfl⟩ : ∃ old tail, rest = old :: tail :=
    List.exists_cons_of_length_pos (by omega)
  obtain ⟨fuel, rfl⟩ : ∃ k, fuel = k + 1 := Nat.exists_eq_add_of_le' (Nat.le_of_add_left_le hfuel)
  simp only [List.length_cons] at hsize hfuel
  induction count generalizing fuel dVal done rest old with
  | zero =>
      have hnil : rest = [] := List.eq_nil_of_length_eq_zero (by omega)
      subst hnil
      have hlength : (done ++ [charPoint]).length = outlen := by
        simp only [List.length_append, List.length_singleton]
        omega
      have hbehind : ¬ (done ++ [charPoint]).length = decimals := by omega
      have hwrite : writeAt (done ++ [charPoint]) (((done ++ [charPoint]).length : Nat) : Int)
          (digitChar (dVal % 10).toNat) = .error (.outOfBounds outlen outlen) := by
        rw [writeAt_fault _ _ le_rfl, hlength]
      rw [tokenDigitLoop_point fuel dVal done [] old hcount, List.append_nil, tokenDigitLoop,
        putPoint, if_neg hbehind]
      simp only [ok_bind, pure_eq_ok, hwrite, error_bind]
  | succ count ih =>
      have hlength : (done ++ [digitChar (dVal.toNat % 10)]).length = done.length + 1 := by simp
      have hgoes : (dVal / 10 > 0 ∨ done.length + 1 < decimals + 1) ∧ done.length + 1 < outlen := by
        omega
      rw [tokenDigitLoop_step fuel dVal done rest old (by omega), if_pos hgoes]
      obtain ⟨next, rest, rfl⟩ : ∃ next tail, rest = next :: tail :=
        List.exists_cons_of_length_pos (by omega)
      simp only [List.length_cons] at hsize hfuel
      obtain ⟨fuel, rfl⟩ : ∃ k, fuel = k + 1 := Nat.exists_eq_add_of_le' (by omega)
      exact ih (dVal / 10) _ (by omega) next rest (by omega) fuel (by omega)

/-- The digits turned around, from which the trailing zeros are stripped. -/
theorem rawDigits_reverse (decimals n : Nat) :
    ∃ zeros, (rawDigits decimals n).reverse =
      numeral (n / 10 ^ decimals) ++
        charPoint :: (digitText (fractionDigits decimals n) ++ List.replicate zeros charZero) := by
  obtain ⟨zeros, hlow, _⟩ := lowDigits_eq decimals n
  refine ⟨zeros, ?_⟩
  have hzero : digitChar 0 = charZero := rfl
  simp [rawDigits, digitText, hlow, numeral, hzero]

/-- The loop stops at the last character that is not a zero. -/
theorem stripZerosLoop_eq (fuel zeros : Nat) (body post : List UInt8) {c : UInt8}
    (hc : c ≠ charZero) (hfuel : zeros < fuel) :
    stripZerosLoop fuel ((body.length + zeros : Nat) : Int)
      (body ++ c :: (List.replicate zeros charZero ++ post)) = .ok body.length := by
  induction zeros generalizing fuel post with
  | zero =>
      match fuel, hfuel with
      | fuel + 1, _ =>
          have hread := readAt_append body post c
          simp only [Nat.add_zero, List.replicate_zero, List.nil_append, stripZerosLoop, hread,
            ok_bind, pure_eq_ok, ne_eq, hc, not_false_eq_true, ↓reduceIte, ite_self]
  | succ zeros ih =>
      match fuel, hfuel with
      | fuel + 1, hfuel =>
          have hnext := ih fuel (charZero :: post) (by omega)
          have hread := readAt_append (body ++ c :: List.replicate zeros charZero) post charZero
          have hpos : ((body.length + (zeros + 1) : Nat) : Int) > 0 := by omega
          have hindex : ((body.length + (zeros + 1) : Nat) : Int) =
              ((body ++ c :: List.replicate zeros charZero).length : Nat) := by
            simp only [List.length_append, List.length_cons, List.length_replicate]
          have hprevious : ((body.length + (zeros + 1) : Nat) : Int) - 1 =
              ((body.length + zeros : Nat) : Int) := by omega
          rw [← hindex] at hread
          simp only [List.append_assoc, List.cons_append] at hread
          have hlist : List.replicate (zeros + 1) charZero ++ post =
              List.replicate zeros charZero ++ charZero :: post := by
            rw [List.replicate_succ', List.append_assoc, List.singleton_append]
          rw [stripZerosLoop, if_pos hpos, hlist, hread, ok_bind, if_neg (by simp), hprevious,
            hnext]

/-- The zeros at the end go, and a point that is then the last character. -/
theorem stripNumeral_zeros (outlen zeros : Nat) (body post : List UInt8) {c : UInt8}
    (hc : c ≠ charZero) (hroom : body.length + zeros < outlen) :
    stripNumeral outlen (body.length + 1 + zeros)
        (body ++ c :: (List.replicate zeros charZero ++ post)) =
      .ok (if c = charPoint then (body.length : Int) else body.length + 1) := by
  have hstart : ((body.length + 1 + zeros : Nat) : Int) - 1 =
      ((body.length + zeros : Nat) : Int) := by
    omega
  have hstrip := stripZerosLoop_eq outlen zeros body post hc (by omega)
  have hread := readAt_append body (List.replicate zeros charZero ++ post) c
  simp only [stripNumeral, hstart, hstrip, ok_bind, Int.add_sub_cancel, hread, pure_eq_ok]

/-- What is left of the digits is the canonical decimal. -/
theorem stripNumeral_eq (outlen decimals n : Nat) (post : List UInt8)
    (hroom : (rawDigits decimals n).length < outlen) :
    ∃ rest, (rawDigits decimals n).reverse ++ post = decimalText decimals n ++ rest ∧
      stripNumeral outlen (rawDigits decimals n).length ((rawDigits decimals n).reverse ++ post) =
        .ok (decimalText decimals n).length := by
  obtain ⟨zeros, hreverse⟩ := rawDigits_reverse decimals n
  have hlength := congrArg List.length hreverse
  rw [List.length_reverse] at hlength
  rw [hreverse]
  rcases List.eq_nil_or_concat (fractionDigits decimals n) with hnil | ⟨front, last, hconcat⟩
  · have htext : decimalText decimals n = numeral (n / 10 ^ decimals) := by
      simp [decimalText, pointed, hnil]
    rw [hnil] at hlength ⊢
    rw [htext]
    simp only [digitText, List.map_nil, List.nil_append, List.length_append, List.length_cons,
      List.length_replicate, List.append_assoc, List.cons_append] at hlength ⊢
    refine ⟨charPoint :: (List.replicate zeros charZero ++ post), rfl, ?_⟩
    have hdigits : (rawDigits decimals n).length =
        (numeral (n / 10 ^ decimals)).length + 1 + zeros := by omega
    rw [hdigits, stripNumeral_zeros outlen zeros _ post (by decide) (by omega), if_pos rfl]
  · rw [List.concat_eq_append] at hconcat
    have hmember : last ∈ fractionDigits decimals n := by simp [hconcat]
    have hlast : last < 10 := fractionDigits_lt hmember
    have hends : (fractionDigits decimals n).getLast? = some last := by
      rw [hconcat, List.getLast?_concat]
    have hne : last ≠ 0 := fractionDigits_getLast? hends
    obtain ⟨body, hbody⟩ : ∃ body, body =
        numeral (n / 10 ^ decimals) ++ charPoint :: digitText front := ⟨_, rfl⟩
    have htext : decimalText decimals n = body ++ [digitChar last] := by
      simp [decimalText, pointed, hconcat, hbody, digitText]
    have hlist : numeral (n / 10 ^ decimals) ++ charPoint ::
        (digitText (fractionDigits decimals n) ++ List.replicate zeros charZero) =
        body ++ digitChar last :: List.replicate zeros charZero := by
      simp [hconcat, hbody, digitText]
    rw [hlist] at hlength ⊢
    rw [htext]
    simp only [List.length_append, List.length_cons, List.length_replicate, List.append_assoc,
      List.cons_append] at hlength ⊢
    refine ⟨List.replicate zeros charZero ++ post, rfl, ?_⟩
    have hdigits : (rawDigits decimals n).length = body.length + 1 + zeros := by omega
    have hzero : digitChar last ≠ charZero := fun h => hne ((digitChar_eq_zero hlast).mp h)
    rw [hdigits, stripNumeral_zeros outlen zeros body post hzero (by omega),
      if_neg (digitChar_ne_point hlast)]
    rfl

/-- What the end of `print_token_amount` does behind a numeral. -/
def qualifyOutcome (asset : Option CString) (text : List UInt8) (outlen : Nat) :
    Checked (Nat × List UInt8) :=
  match asset with
  | some asset =>
    if text.length + 1 + asset.chars.length + 1 ≤ intMax then
      if text.length + 1 + asset.chars.length + 1 > outlen then .ok (1, [])
      else .ok (0, text ++ charSpace :: asset.chars)
    else if asset.chars.length ≤ intMax then .error .intOverflow
    else if asset.chars.length < SizeT.bits32.max then
      .error (.outOfBounds ((text.length : Int) + 1 + (asset.chars.length + 1 : Nat)) outlen)
    else .error .sizeWrap
  | none => .ok (0, text)

/-- What `print_token_amount` does with a buffer of that size. -/
def tokenAmountOutcome (amount : UInt64) (asset : Option CString) (decimals : UInt8)
    (outlen : Nat) : Checked (Nat × List UInt8) :=
  if decimals.toNat + 1 = outlen then .error (.outOfBounds outlen outlen)
  else if outlen ≤ (rawDigits decimals.toNat amount.toNat).length then .ok (1, [])
  else qualifyOutcome asset (decimalText decimals.toNat amount.toNat) outlen

theorem decimalText_length_le (decimals n : Nat) :
    (decimalText decimals n).length ≤ (rawDigits decimals n).length := by
  obtain ⟨zeros, _, hlength⟩ := lowDigits_eq decimals n
  rw [rawDigits_length, decimalText, List.length_append, numeral, List.length_map,
    List.length_reverse, pointed]
  split
  · simp only [List.length_nil]
    omega
  · simp only [List.length_cons, List.length_map]
    omega

theorem decimalText_noNul (decimals n : Nat) : ∀ c ∈ decimalText decimals n, c ≠ 0 := by
  intro c hc
  rcases List.mem_append.mp hc with hwhole | hfraction
  · exact numeral_noNul _ c hwhole
  · unfold pointed at hfraction
    split at hfraction
    · cases hfraction
    · rcases List.mem_cons.mp hfraction with rfl | hdigit
      · decide
      · obtain ⟨d, hd, rfl⟩ := List.mem_map.mp hdigit
        exact digitChar_ne_nul (fractionDigits_lt hd)

theorem addInt_ok {a b : Int} (hlow : -2 ^ 31 ≤ a + b) (hhigh : a + b ≤ intMax) :
    addInt a b = .ok (a + b) := by
  rw [addInt, if_pos ⟨hlow, hhigh⟩]

theorem addInt_overflow {a b : Int} (h : intMax < a + b) : addInt a b = .error .intOverflow := by
  rw [addInt, if_neg (by omega)]

/-- Where the number of characters that are needed is an `int`, it is compared
with the size of the buffer. -/
theorem qualifyAmount_some (asset : CString) (i : Int) (out : List UInt8) (outlen : Nat)
    {assetLength : Int} (hlength : intLength asset.chars.length = .ok assetLength)
    (hlow : -2 ^ 31 ≤ i + 1 + assetLength) (hhigh : i + 1 + assetLength + 1 ≤ intMax) :
    qualifyAmount (some asset) i out outlen =
      if i + 1 + assetLength + 1 > outlen then .ok (1, out)
      else do
        let out ← writeAt out i charSpace
        let out ← strncpyAt out (i + 1) asset.chars (charCount (assetLength + 1))
        return (0, out) := by
  rw [qualifyAmount, hlength, ok_bind, addInt_ok hlow (by omega), ok_bind,
    addInt_ok (by omega) hhigh, ok_bind]
  rfl

/-- The space and the asset, where there is room for them. -/
theorem qualifyAmount_fits (asset : CString) (text rest : List UInt8)
    (htext : ∀ c ∈ text, c ≠ 0) (hroom : 1 + asset.chars.length + 1 ≤ rest.length)
    (hhigh : text.length + rest.length ≤ intMax) :
    ∃ filled, qualifyAmount (some asset) text.length (text ++ rest) (text.length + rest.length) =
        .ok (0, filled) ∧ cString filled = text ++ charSpace :: asset.chars := by
  have hmax : intMax = 2147483647 := rfl
  have hlength : intLength asset.chars.length = .ok (asset.chars.length : Int) := by
    rw [intLength, if_pos (by omega)]
  have hcount : charCount ((asset.chars.length : Int) + 1) = asset.chars.length + 1 := by
    rw [charCount]
    omega
  have hcopy : strncpyBytes asset.chars (asset.chars.length + 1) = asset.chars ++ [0] := by
    simp [strncpyBytes, cString_of_noNul _ asset.noNul]
  have hspace := writeAt_drop text rest charSpace (k := 0) (by omega)
  have hasset := writeBytes_drop (text ++ [charSpace]) rest (asset.chars ++ [0]) (k := 1)
    (by simp only [List.length_append, List.length_singleton]; omega)
  simp only [List.drop_zero, List.length_append, List.length_singleton, Int.natCast_add,
    Int.natCast_one, Nat.zero_add] at hspace hasset
  have hshown : ∀ c ∈ text ++ charSpace :: asset.chars, c ≠ 0 := by
    intro c hc
    rcases List.mem_append.mp hc with hc | hc
    · exact htext c hc
    · rcases List.mem_cons.mp hc with rfl | hc
      · decide
      · exact asset.noNul c hc
  have hseen := cString_append_nul (text ++ charSpace :: asset.chars)
    (rest.drop (1 + (asset.chars.length + 1))) hshown
  refine ⟨text ++ charSpace :: asset.chars ++ 0 :: rest.drop (1 + (asset.chars.length + 1)),
    ?_, hseen⟩
  rw [qualifyAmount_some asset _ _ _ hlength (by omega) (by omega), if_neg (by omega), hspace,
    ok_bind, hcount, strncpyAt, hcopy, hasset, ok_bind]
  simp

/-- There is no room for the asset. -/
theorem qualifyAmount_full (asset : CString) (text out : List UInt8) (outlen : Nat)
    (hover : outlen < text.length + 1 + asset.chars.length + 1)
    (hhigh : text.length + 1 + asset.chars.length + 1 ≤ intMax) :
    qualifyAmount (some asset) text.length out outlen = .ok (1, out) := by
  have hlength : intLength asset.chars.length = .ok (asset.chars.length : Int) := by
    rw [intLength, if_pos (by omega)]
  rw [qualifyAmount_some asset _ _ _ hlength (by omega) (by omega), if_pos (by omega)]

/-- The number of characters that are needed is more than an `int` holds. -/
theorem qualifyAmount_overflow (asset : CString) (text out : List UInt8) (outlen : Nat)
    (hlow : asset.chars.length ≤ intMax)
    (hover : intMax < text.length + 1 + asset.chars.length + 1) :
    qualifyAmount (some asset) text.length out outlen = .error .intOverflow := by
  have hlength : intLength asset.chars.length = .ok (asset.chars.length : Int) := by
    rw [intLength, if_pos hlow]
  rw [qualifyAmount, hlength, ok_bind]
  by_cases hfirst : intMax < (text.length : Int) + 1 + asset.chars.length
  · rw [addInt_overflow hfirst, error_bind]
  · rw [addInt_ok (by omega) (by omega), ok_bind, addInt_overflow (by omega), error_bind]

/-- The length comes out negative, so the test for room succeeds and the copy
goes past the end. -/
theorem qualifyAmount_negative (asset : CString) (text rest : List UInt8) {outlen : Nat}
    (hsize : text.length + rest.length = outlen) (hroom : rest ≠ []) (hhigh : outlen ≤ intMax)
    (hlow : intMax < asset.chars.length) (hspace : asset.chars.length < SizeT.bits32.max) :
    qualifyAmount (some asset) text.length (text ++ rest) outlen =
      .error (.outOfBounds ((text.length : Int) + 1 + (asset.chars.length + 1 : Nat)) outlen) := by
  have hmax : intMax = 2147483647 := rfl
  have hspace32 : SizeT.bits32.max = 4294967295 := rfl
  obtain ⟨old, rest, rfl⟩ := List.exists_cons_of_ne_nil hroom
  rw [List.length_cons] at hsize
  have hlength : intLength asset.chars.length = .ok ((asset.chars.length : Int) - 2 ^ 32) := by
    rw [intLength, if_neg (by omega), if_pos hspace]
  have hcount : charCount ((asset.chars.length : Int) - 2 ^ 32 + 1) = asset.chars.length + 1 := by
    rw [charCount]
    omega
  have hwrite := writeAt_append text rest old charSpace
  have hcopied := strncpyBytes_length asset.chars (asset.chars.length + 1)
  have hfault := writeBytes_fault (text ++ charSpace :: rest)
    (strncpyBytes asset.chars (asset.chars.length + 1)) (i := (text.length : Int) + 1) (by
      rw [hcopied, List.length_append, List.length_cons]
      omega)
  rw [hcopied, List.length_append, List.length_cons, hsize] at hfault
  rw [qualifyAmount_some asset _ _ _ hlength (by omega) (by omega), if_neg (by omega), hwrite,
    ok_bind, hcount, strncpyAt, hfault, error_bind]

/-- The asset, or only the terminator, behind a text that leaves room for it. -/
theorem qualifyAmount_eq (asset : Option CString) (text rest : List UInt8) (outlen : Nat)
    (hsize : text.length + rest.length = outlen) (hroom : rest ≠ []) (hhigh : outlen ≤ intMax)
    (htext : ∀ c ∈ text, c ≠ 0) :
    match qualifyOutcome asset text outlen with
    | .error e => qualifyAmount asset text.length (text ++ rest) outlen = .error e
    | .ok (ret, shown) => ∃ filled,
        qualifyAmount asset text.length (text ++ rest) outlen = .ok (ret, filled) ∧
          (ret = 0 → cString filled = shown) := by
  cases asset with
  | none =>
      obtain ⟨old, rest, rfl⟩ := List.exists_cons_of_ne_nil hroom
      have hwrite := writeAt_append text rest old 0
      refine ⟨text ++ 0 :: rest, ?_, fun _ => cString_append_nul text rest htext⟩
      simp only [qualifyAmount, hwrite, ok_bind, pure_eq_ok]
  | some asset =>
      simp only [qualifyOutcome]
      by_cases hint : text.length + 1 + asset.chars.length + 1 ≤ intMax
      · rw [if_pos hint]
        by_cases hover : text.length + 1 + asset.chars.length + 1 > outlen
        · rw [if_pos hover]
          exact ⟨_, qualifyAmount_full asset text _ outlen hover hint, by simp⟩
        · rw [if_neg hover, ← hsize]
          obtain ⟨filled, hcall, hshown⟩ := qualifyAmount_fits asset text rest htext
            (by omega) (by omega)
          exact ⟨filled, hcall, fun _ => hshown⟩
      rw [if_neg hint]
      by_cases hpositive : asset.chars.length ≤ intMax
      · rw [if_pos hpositive]
        exact qualifyAmount_overflow asset text _ outlen hpositive (by omega)
      rw [if_neg hpositive]
      by_cases hspace : asset.chars.length < SizeT.bits32.max
      · rw [if_pos hspace]
        exact qualifyAmount_negative asset text rest hsize hroom hhigh (by omega) hspace
      · have hlength : intLength asset.chars.length = .error .sizeWrap := by
          rw [intLength, if_neg hpositive, if_neg hspace]
        rw [if_neg hspace]
        show qualifyAmount (some asset) _ _ _ = _
        rw [qualifyAmount, hlength, error_bind]

/-- Every buffer of more than one character shows the outcome. -/
theorem printTokenAmount_prints (amount : UInt64) (asset : Option CString) (decimals : UInt8)
    (outlen : Nat) (hlow : 2 ≤ outlen) (hhigh : outlen ≤ intMax) :
    Prints outlen (fun out => printTokenAmount amount asset decimals out outlen)
      (tokenAmountOutcome amount asset decimals outlen) := by
  intro out hout
  have hint : ¬ outlen > intMax := by omega
  have hgo : (0 : Int) < (outlen : Int) - 1 := by omega
  have hne : out ≠ [] := by
    rintro rfl
    simp only [List.length_nil] at hout
    omega
  have hcount : ([] : List UInt8).length + decimals.toNat = decimals.toNat := by simp
  have hsize : ([] : List UInt8).length + out.length = outlen := by simpa using hout
  simp only [printTokenAmount, hint, ↓reduceIte, tokenDigits, hgo, tokenAmountOutcome]
  by_cases hpoint : decimals.toNat + 1 = outlen
  · have hcall : tokenDigitLoop decimals.toNat (decimals.toNat + 1) outlen outlen amount 0 out =
        .error (.outOfBounds outlen outlen) :=
      tokenDigitLoop_fault decimals.toNat outlen amount [] out hpoint hcount hsize (by omega)
    simp only [hpoint, ↓reduceIte] at hcall ⊢
    rw [hcall, error_bind]
  have hends : LoopEnding outlen [] out (rawDigits decimals.toNat amount.toNat)
      (tokenDigitLoop decimals.toNat (decimals.toNat + 1) outlen outlen amount 0 out) :=
    tokenDigitLoop_eq decimals.toNat outlen amount [] out hpoint hcount hsize hne (by omega)
  by_cases hlong : outlen ≤ (rawDigits decimals.toNat amount.toNat).length
  · obtain ⟨filled, hcall⟩ := hends.stops hout hlong
    simp only [hpoint, hlong, ↓reduceIte, hcall, ok_bind, ge_iff_le, le_refl, pure_eq_ok]
    exact ⟨filled, rfl, by simp⟩
  have hcall := hends.leaves hout (by omega)
  obtain ⟨rest, hsplit, hstrip⟩ := stripNumeral_eq outlen decimals.toNat amount.toNat
    (out.drop (rawDigits decimals.toNat amount.toNat).length) (by omega)
  have hreverse := reverseLoop_eq outlen [] (rawDigits decimals.toNat amount.toNat)
    (out.drop (rawDigits decimals.toNat amount.toNat).length)
    (k := ((rawDigits decimals.toNat amount.toNat).length : Int) - 1) (by omega)
    (by simp)
  have hsize := congrArg List.length hsplit
  simp only [List.length_append, List.length_reverse, List.length_drop] at hsize
  have hshort : (decimalText decimals.toNat amount.toNat).length ≤
      (rawDigits decimals.toNat amount.toNat).length :=
    decimalText_length_le decimals.toNat amount.toNat
  have hrest : rest ≠ [] := by
    rintro rfl
    simp only [List.length_nil] at hsize
    omega
  have hqualify := qualifyAmount_eq asset (decimalText decimals.toNat amount.toNat) rest outlen
    (by omega) hrest hhigh (decimalText_noNul _ _)
  simp only [List.length_nil, List.nil_append, Int.natCast_zero] at hreverse
  simp only [hpoint, hlong, ↓reduceIte, hcall, ok_bind, ge_iff_le, hreverse, hstrip]
  rw [hsplit]
  exact hqualify

end TokenDigits

section Amounts

theorem unitsFirst_length_le {n k : Nat} (hpos : 0 < k) (h : n < 10 ^ k) :
    (unitsFirst n).length ≤ k := by
  unfold unitsFirst
  split
  · exact hpos
  · exact (Nat.digits_length_le_iff (by omega) n).mpr h

/-- Every amount fits, with its unit. -/
theorem printAmount_prints (amount : UInt64) :
    Prints base58PubkeyLength (fun out => printAmount amount out base58PubkeyLength)
      (.ok (0, decimalText 8 amount.toNat ++ ascii " ELF")) := by
  have hprints := printTokenAmount_prints amount (some (.lit "ELF")) elfDecimals base58PubkeyLength
    (by decide) (by decide)
  have hdecimals : elfDecimals.toNat = 8 := rfl
  have hunits : (unitsFirst (amount.toNat / 10 ^ 8)).length ≤ 12 := by
    apply unitsFirst_length_le (by decide)
    have hlt := amount.toNat_lt
    omega
  have hraw := rawDigits_length 8 amount.toNat
  have hshort := decimalText_length_le 8 amount.toNat
  have hsize : base58PubkeyLength = 45 := rfl
  have hpoint : ¬ 8 + 1 = base58PubkeyLength := by decide
  have hfits : ¬ base58PubkeyLength ≤ (rawDigits 8 amount.toNat).length := by omega
  have helf : (CString.lit "ELF").chars.length = 3 := rfl
  have hasset : ¬ (decimalText 8 amount.toNat).length + 1 + 3 + 1 > base58PubkeyLength := by omega
  have hunit : charSpace :: (CString.lit "ELF").chars = ascii " ELF" := rfl
  have hint : (decimalText 8 amount.toNat).length + 1 + 3 + 1 ≤ intMax := by
    have hmax : intMax = 2147483647 := rfl
    omega
  simp only [tokenAmountOutcome, qualifyOutcome, hdecimals, hpoint, hfits, helf, hint, hasset,
    hunit, ↓reduceIte] at hprints
  exact hprints

end Amounts

section Integers

variable {outlen : Nat}

theorem pos_iff (dVal : UInt64) : dVal > 0 ↔ dVal.toNat ≠ 0 := by
  rw [gt_iff_lt, UInt64.lt_iff_toNat_lt]
  exact Nat.pos_iff_ne_zero

/-- One digit, whether there is anything left to print or not. -/
theorem digitLoop_step (fuel : Nat) (dVal : UInt64) (done rest : List UInt8) (old : UInt8) :
    digitLoop outlen (fuel + 1) dVal done.length (done ++ old :: rest) =
      if dVal / 10 > 0 ∧ done.length + 1 < outlen then
        digitLoop outlen fuel (dVal / 10) (done ++ [digitChar (dVal.toNat % 10)]).length
          (done ++ [digitChar (dVal.toNat % 10)] ++ rest)
      else .ok (done.length + 1, done ++ [digitChar (dVal.toNat % 10)] ++ rest) := by
  rw [digitLoop, putDigit]
  by_cases hpos : dVal > 0
  · simp only [hpos, ↓reduceIte, ok_bind, pure_eq_ok, mod_ten, writeAt_next, List.length_append,
      List.length_singleton]
  · have hzero : dVal.toNat = 0 := by
      by_contra hne
      exact hpos ((pos_iff dVal).mpr hne)
    have hstop : ¬ dVal / 10 > 0 := by
      rw [div_ten_pos, hzero]
      decide
    have hchar : digitChar (dVal.toNat % 10) = charZero := by
      rw [hzero]
      decide
    simp only [hpos, hstop, false_and, ↓reduceIte, ok_bind, pure_eq_ok, writeAt_next, hchar]

/-- The loop writes all digits. -/
theorem digitLoop_eq (fuel : Nat) (dVal : UInt64) (done rest : List UInt8)
    (hsize : done.length + rest.length = outlen) (hroom : rest ≠ [])
    (hfuel : rest.length ≤ fuel) :
    LoopEnding outlen done rest (digitText (unitsFirst dVal.toNat))
      (digitLoop outlen fuel dVal done.length (done ++ rest)) := by
  obtain ⟨old, rest, rfl⟩ := List.exists_cons_of_ne_nil hroom
  simp only [List.length_cons] at hsize hfuel
  induction fuel generalizing dVal done rest old with
  | zero => omega
  | succ fuel ih =>
      have hlength : (done ++ [digitChar (dVal.toNat % 10)]).length = done.length + 1 := by simp
      rw [digitLoop_step fuel dVal done rest old, digitText_unitsFirst]
      simp only [div_ten_pos]
      refine LoopEnding.step hsize ?_ fun hmore hrest => ?_
      · by_cases hlast : dVal.toNat / 10 = 0
        · simp [hlast]
        · simp [hlast, digitText_unitsFirst_ne_nil]
      · obtain ⟨next, rest, rfl⟩ := List.exists_cons_of_ne_nil hrest
        simp only [List.length_cons] at hsize hfuel
        rw [if_neg hmore, ← div_ten]
        exact ih (dVal / 10) _ next rest (by omega) hrest (by omega)

/-- What `print_u64` does with a buffer of that size. -/
def u64Outcome (u64 : UInt64) (outlen : Nat) : Checked (Nat × List UInt8) :=
  if outlen ≤ (unitsFirst u64.toNat).length then .ok (1, []) else .ok (0, numeral u64.toNat)

theorem u64Outcome_eq (u64 : UInt64) (outlen : Nat) :
    u64Outcome u64 outlen =
      if outlen ≤ (numeral u64.toNat).length then .ok (1, []) else .ok (0, numeral u64.toNat) := by
  rw [u64Outcome, numeral_length]

/-- Every buffer of more than one character shows the outcome. -/
theorem printU64_prints (u64 : UInt64) (outlen : Nat) (hlow : 2 ≤ outlen)
    (hhigh : outlen ≤ intMax) :
    Prints outlen (fun out => printU64 u64 out outlen) (u64Outcome u64 outlen) := by
  intro out hout
  have hint : ¬ outlen > intMax := by omega
  have hgo : (0 : Int) < (outlen : Int) - 1 := by omega
  have hne : out ≠ [] := by
    rintro rfl
    simp only [List.length_nil] at hout
    omega
  have hsize : ([] : List UInt8).length + out.length = outlen := by simpa using hout
  have hends : LoopEnding outlen [] out (digitText (unitsFirst u64.toNat))
      (digitLoop outlen outlen u64 0 out) := digitLoop_eq outlen u64 [] out hsize hne (by omega)
  have hlength := digitText_length (unitsFirst u64.toNat)
  simp only [printU64, hint, ↓reduceIte, u64Digits, hgo, u64Outcome]
  by_cases hlong : outlen ≤ (unitsFirst u64.toNat).length
  · obtain ⟨filled, hcall⟩ := hends.stops hout (by omega)
    simp only [hlong, ↓reduceIte, hcall, ok_bind, ge_iff_le, le_refl, pure_eq_ok]
    exact ⟨filled, rfl, by simp⟩
  have hcall := hends.leaves hout (by omega)
  rw [hlength] at hcall
  cases hrest : out.drop (unitsFirst u64.toNat).length with
  | nil =>
      have hlength := congrArg List.length hrest
      simp only [List.length_drop, List.length_nil] at hlength
      omega
  | cons old rest =>
      have hwrite := writeAt_append (digitText (unitsFirst u64.toNat)) rest old 0
      rw [digitText_length] at hwrite
      have hreverse := reverseLoop_eq outlen [] (digitText (unitsFirst u64.toNat)) (0 :: rest)
        (k := ((unitsFirst u64.toNat).length : Int) - 1) (by simp only [digitText_length]; omega)
        (by simp)
      simp only [List.length_nil, List.nil_append, Int.natCast_zero] at hreverse
      have htext : (digitText (unitsFirst u64.toNat)).reverse = numeral u64.toNat := by
        simp [digitText, numeral]
      simp only [hlong, ↓reduceIte, hcall, ok_bind, ge_iff_le, hrest, hwrite, hreverse, pure_eq_ok]
      exact ⟨_, rfl, fun _ => by rw [htext, cString_append_nul _ _ (numeral_noNul _)]⟩

/-- The two's complement that `print_i64` computes. -/
theorem negated_eq (x : UInt64) : (x ^^^ 0xffffffffffffffff) + 1 = -x := by
  apply UInt64.toBitVec_inj.mp
  have hones : (0xffffffffffffffff : UInt64).toBitVec = BitVec.allOnes 64 := rfl
  rw [UInt64.toBitVec_add, UInt64.toBitVec_xor, hones, BitVec.xor_allOnes, UInt64.toBitVec_neg,
    BitVec.neg_eq_not_add]
  rfl

/-- The pattern of a negative number, negated, is its absolute value. -/
theorem negated_toNat {x : UInt64} (h : 2 ^ 63 ≤ x.toNat) :
    ((x ^^^ 0xffffffffffffffff) + 1).toNat = 2 ^ 64 - x.toNat := by
  have hlt := x.toNat_lt
  rw [negated_eq, UInt64.toNat_neg, UInt64.size]
  omega

/-- What `print_i64` does with a buffer of that size. -/
def i64Outcome (i64 : UInt64) (outlen : Nat) : Checked (Nat × List UInt8) :=
  if i64.toNat ≥ 2 ^ 63 then do
    let (ret, text) ← u64Outcome ((i64 ^^^ 0xffffffffffffffff) + 1) (outlen - 1)
    return (ret, if ret = 0 then charMinus :: text else [])
  else u64Outcome i64 outlen

/-- Every buffer of more than two characters shows the outcome. -/
theorem printI64_prints (i64 : UInt64) (hlow : 3 ≤ outlen) (hhigh : outlen ≤ intMax) :
    Prints outlen (fun out => printI64 i64 out outlen) (i64Outcome i64 outlen) := by
  intro out hout
  have hroom : ¬ outlen < 1 := by omega
  by_cases hnegative : i64.toNat ≥ 2 ^ 63
  swap
  · have hprints := printU64_prints i64 outlen (by omega) hhigh out hout
    simpa only [printI64, hroom, i64Outcome, hnegative, ↓reduceIte] using hprints
  cases out with
  | nil =>
      simp only [List.length_nil] at hout
      omega
  | cons old rest =>
      simp only [List.length_cons] at hout
      have hwrite : writeAt (old :: rest) 0 charMinus = .ok (charMinus :: rest) :=
        writeAt_append [] rest old charMinus
      have hprints := printU64_prints ((i64 ^^^ 0xffffffffffffffff) + 1) (outlen - 1)
        (by omega) (by omega) rest (by omega)
      simp only [printI64, hroom, i64Outcome, hnegative, ↓reduceIte, hwrite, ok_bind,
        List.drop_succ_cons, List.drop_zero]
      cases houtcome : u64Outcome ((i64 ^^^ 0xffffffffffffffff) + 1) (outlen - 1) with
      | error e =>
          simp only [houtcome] at hprints
          simp only [hprints, error_bind]
      | ok result =>
          obtain ⟨ret, text⟩ := result
          simp only [houtcome] at hprints
          obtain ⟨filled, hcall, htext⟩ := hprints
          simp only [hcall, ok_bind, pure_eq_ok]
          refine ⟨_, rfl, fun hret => ?_⟩
          have hminus : charMinus ≠ 0 := by decide
          simp [cString_cons _ hminus, htext hret, hret]

end Integers

end AelfApp.Libsol
