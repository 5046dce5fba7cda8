import AelfApp.Libsol.Printer.Strings

/-!
`encode_base58` computes the standard base58 text. One pass of the outer loop
divides the number by 58 in place and puts its remainder before the digits
already there; every second pass at the latest frees the leading byte.
-/

namespace AelfApp.Libsol

open Memory Numeral

/-- The standard base58 text of a byte string. -/
def base58Text (input : List UInt8) : List UInt8 := (radixDigits 58 input).map base58Char

section Alphabet

/-- Where a character stands in the alphabet. -/
def base58Digit (c : UInt8) : Nat := base58Alphabet.findIdx (· = c)

theorem base58Digit_base58Char {d : Nat} (h : d < 58) : base58Digit (base58Char d) = d := by
  have hall : ∀ d < 58, base58Digit (base58Char d) = d := by decide +kernel
  exact hall d h

theorem base58Char_ne_nul {d : Nat} (h : d < 58) : base58Char d ≠ 0 := by
  have hall : ∀ d < 58, base58Char d ≠ 0 := by decide +kernel
  exact hall d h

theorem base58Char_eq_zero {d : Nat} (h : d < 58) : base58Char d = base58Char 0 ↔ d = 0 := by
  constructor
  · intro heq
    rw [← base58Digit_base58Char h, heq, base58Digit_base58Char (by decide)]
  · rintro rfl
    rfl

theorem base58Text_noNul (input : List UInt8) : ∀ c ∈ base58Text input, c ≠ 0 := by
  intro c hc
  obtain ⟨d, hd, rfl⟩ := List.mem_map.mp hc
  exact base58Char_ne_nul (radixDigits_lt (by omega) hd)

/-- The digits can be read off the text. -/
theorem base58Digits_base58Text (input : List UInt8) :
    (base58Text input).map base58Digit = radixDigits 58 input := by
  rw [base58Text, List.map_map]
  conv_rhs => rw [← List.map_id (radixDigits 58 input)]
  apply List.map_congr_left
  intro d hd
  exact base58Digit_base58Char (radixDigits_lt (by omega) hd)

/-- Byte strings of one length have different texts. -/
theorem base58Text_injective {a b : List UInt8} (hlength : a.length = b.length)
    (h : base58Text a = base58Text b) : a = b := by
  apply radixDigits_injective hlength
  rw [← base58Digits_base58Text a, ← base58Digits_base58Text b, h]

/-- The bytes that a base58 text stands for, a zero byte for each `1` in front.
A text with another character stands for none. -/
def base58Decode (text : List UInt8) : Option (List UInt8) :=
  if text.all base58Alphabet.contains then some (radixBytes 58 (text.map base58Digit)) else none

theorem base58Char_mem {d : Nat} (h : d < 58) : base58Char d ∈ base58Alphabet := by
  have hsize : d < base58Alphabet.length := h
  rw [base58Char, List.getD_eq_getElem?_getD, List.getElem?_eq_getElem hsize]
  exact List.getElem_mem hsize

theorem base58Decode_base58Text (input : List UInt8) :
    base58Decode (base58Text input) = some input := by
  have hall : (base58Text input).all base58Alphabet.contains = true := by
    rw [List.all_eq_true]
    intro c hc
    obtain ⟨d, hd, rfl⟩ := List.mem_map.mp hc
    exact List.contains_iff_mem.mpr (base58Char_mem (radixDigits_lt (by omega) hd))
  rw [base58Decode, if_pos hall, base58Digits_base58Text, radixBytes_radixDigits]

theorem takeWhile_base58Char {digits : List Nat} (h : ∀ d ∈ digits, d < 58) :
    (digits.map base58Char).takeWhile (· = base58Char 0) =
      (digits.takeWhile (· = 0)).map base58Char := by
  induction digits with
  | nil => rfl
  | cons d digits ih =>
      have hd := base58Char_eq_zero (h d List.mem_cons_self)
      have hrest := ih fun e he => h e (List.mem_cons_of_mem _ he)
      by_cases hzero : d = 0
      · simp [hzero, hrest]
      · simp [hd, hzero]

/-- One `1` is in front for each leading zero byte, and no other. -/
theorem base58Text_ones (input : List UInt8) :
    ((base58Text input).takeWhile (· = base58Char 0)).length = leadingZeros input := by
  rw [base58Text, takeWhile_base58Char fun d hd => radixDigits_lt (by omega) hd, List.length_map,
    radixDigits_zeros]

/-- The text of a key has 32 to 44 characters. -/
theorem base58Text_pubkey {key : List UInt8} (h : key.length = pubkeySize) :
    pubkeySize ≤ (base58Text key).length ∧ (base58Text key).length < base58PubkeyLength := by
  have hcount : 256 ^ key.length ≤ 58 ^ 44 := by
    rw [h]
    decide
  have hlow : key.length ≤ (radixDigits 58 key).length :=
    length_le_radixDigits (by omega) (by omega) key
  have hhigh := radixDigits_length_le (by omega) (by omega) hcount
  have hsize : base58PubkeyLength = 45 := rfl
  rw [base58Text, List.length_map]
  omega

end Alphabet

section Division

/-- The quotient and the remainder of a pass, for the number with the
remainder so far in front. -/
theorem divLoop_eq (bytes : List UInt8) (remainder : UInt16) (h : remainder.toNat < 58) :
    (divLoop bytes remainder).1.length = bytes.length ∧
      (divLoop bytes remainder).2.toNat < 58 ∧
      58 * beNat (divLoop bytes remainder).1 + (divLoop bytes remainder).2.toNat =
        remainder.toNat * 256 ^ bytes.length + beNat bytes := by
  induction bytes generalizing remainder with
  | nil => simp [divLoop, h]
  | cons b rest ih =>
      have hb := b.toNat_lt
      have hvalue : (remainder * 256 + b.toUInt16).toNat = remainder.toNat * 256 + b.toNat := by
        have h256 : (256 : UInt16).toNat = 256 := rfl
        simp only [UInt16.toNat_add, UInt16.toNat_mul, h256, UInt8.toNat_toUInt16]
        omega
      have h58 : (58 : UInt16).toNat = 58 := rfl
      have hmod : ((remainder * 256 + b.toUInt16) % 58).toNat =
          (remainder.toNat * 256 + b.toNat) % 58 := by
        rw [UInt16.toNat_mod, hvalue, h58]
      have hdiv : ((remainder * 256 + b.toUInt16) / 58).toUInt8.toNat =
          (remainder.toNat * 256 + b.toNat) / 58 := by
        rw [UInt16.toNat_toUInt8, UInt16.toNat_div, hvalue, h58]
        omega
      obtain ⟨hlength, hlt, hrest⟩ := ih ((remainder * 256 + b.toUInt16) % 58) (by omega)
      simp only [divLoop, List.length_cons, beNat_cons, hlength, hdiv, true_and]
      refine ⟨hlt, ?_⟩
      rw [hmod] at hrest
      have hsplit := Nat.div_add_mod (remainder.toNat * 256 + b.toNat) 58
      calc 58 * ((remainder.toNat * 256 + b.toNat) / 58 * 256 ^ rest.length +
              beNat (divLoop rest _).1) + (divLoop rest _).2.toNat
          = 58 * ((remainder.toNat * 256 + b.toNat) / 58) * 256 ^ rest.length +
              (58 * beNat (divLoop rest ((remainder * 256 + b.toUInt16) % 58)).1 +
                (divLoop rest ((remainder * 256 + b.toUInt16) % 58)).2.toNat) := by ring
        _ = (58 * ((remainder.toNat * 256 + b.toNat) / 58) +
              (remainder.toNat * 256 + b.toNat) % 58) * 256 ^ rest.length + beNat rest := by
            rw [hrest]
            ring
        _ = remainder.toNat * 256 ^ (rest.length + 1) +
              (b.toNat * 256 ^ rest.length + beNat rest) := by
            rw [hsplit]
            ring

/-- The leading byte is divided on its own. -/
theorem divLoop_head (top : UInt8) (rest : List UInt8) :
    ∃ quotient, (divLoop (top :: rest) 0).1 = quotient :: (divLoop (top :: rest) 0).1.tail ∧
      quotient.toNat = top.toNat / 58 := by
  refine ⟨_, rfl, ?_⟩
  have htop := top.toNat_lt
  have h58 : (58 : UInt16).toNat = 58 := rfl
  simp only [UInt16.zero_mul, UInt16.zero_add, UInt16.toNat_toUInt8, UInt16.toNat_div,
    UInt8.toNat_toUInt16, h58]
  omega

/-- A bound on the passes that are left. -/
def passes : List UInt8 → Nat
  | [] => 0
  | top :: rest => 2 * rest.length + if top.toNat < 58 then 1 else 2

theorem passes_le (tmp : List UInt8) : passes tmp ≤ 2 * tmp.length := by
  cases tmp with
  | nil => simp [passes]
  | cons top rest =>
      simp only [passes, List.length_cons]
      split <;> omega

/-- What a pass leaves to the next one. -/
theorem passes_divLoop (top : UInt8) (rest : List UInt8) :
    let quotient := (divLoop (top :: rest) 0).1
    let tmp := if quotient.head? = some 0 then quotient.tail else quotient
    passes tmp + 1 ≤ passes (top :: rest) ∧ beNat tmp = beNat quotient := by
  obtain ⟨quotient, hcons, hquotient⟩ := divLoop_head top rest
  obtain ⟨hlength, -, -⟩ := divLoop_eq (top :: rest) 0 (by decide)
  rw [hcons] at hlength ⊢
  simp only [List.length_cons] at hlength
  have htop := top.toNat_lt
  have hnext := passes_le (divLoop (top :: rest) 0).1.tail
  have hnow : passes (top :: rest) = 2 * rest.length + if top.toNat < 58 then 1 else 2 := rfl
  simp only [List.head?_cons, Option.some.injEq, List.tail_cons, hnow]
  by_cases hzero : quotient = 0
  · have hsmall : top.toNat < 58 := by
      have hdiv : top.toNat / 58 = 0 := by rw [← hquotient, hzero]; rfl
      omega
    simp only [hzero, hsmall, ↓reduceIte, beNat_cons, UInt8.toNat_zero, Nat.zero_mul,
      Nat.zero_add, and_true]
    omega
  · have hlarge : ¬ top.toNat < 58 := by
      intro hsmall
      apply hzero
      apply UInt8.toNat_inj.mp
      rw [hquotient, Nat.div_eq_of_lt hsmall]
      rfl
    have hagain : quotient.toNat < 58 := by omega
    simp only [hzero, hlarge, hagain, ↓reduceIte, passes, and_true]
    omega

theorem pred_toNat {j : UInt8} {n : Nat} (h : j.toNat = n + 1) : (j - 1).toNat = n := by
  have hone : (1 : UInt8).toNat = 1 := rfl
  have hle : (1 : UInt8) ≤ j := by
    rw [UInt8.le_iff_toNat_le, h, hone]
    omega
  rw [UInt8.toNat_sub_of_le _ _ hle, h, hone, Nat.add_sub_cancel]

/-- The passes spell the number with digits that end where `done` begins. -/
theorem base58Loop_eq (fuel : Nat) (tmp free done : List UInt8) (j : UInt8)
    (hj : j.toNat = free.length) (hfuel : passes tmp ≤ fuel) (hroom : passes tmp ≤ free.length) :
    ∃ (digits : List Nat) (left : List UInt8) (j' : UInt8),
      base58Loop fuel tmp j (free ++ done) =
        .ok (j', left ++ digits.map base58Char ++ done) ∧
      Spells 58 digits (beNat tmp) ∧ j'.toNat = left.length ∧
      left.length + digits.length = free.length ∧ digits.length ≤ passes tmp := by
  induction fuel generalizing tmp free done j with
  | zero =>
      match tmp with
      | [] =>
          refine ⟨[], free, j, ?_, ⟨by simp, rfl⟩, hj, rfl, Nat.zero_le _⟩
          simp [base58Loop]
      | top :: rest => simp only [passes] at hfuel; split at hfuel <;> omega
  | succ fuel ih =>
      match tmp with
      | [] =>
          refine ⟨[], free, j, ?_, ⟨by simp, rfl⟩, hj, rfl, Nat.zero_le _⟩
          simp [base58Loop]
      | top :: rest =>
          obtain ⟨hless, hsame⟩ := passes_divLoop top rest
          obtain ⟨-, hdigit, hvalue⟩ := divLoop_eq (top :: rest) 0 (by decide)
          rcases List.eq_nil_or_concat free with rfl | ⟨free, old, rfl⟩
          · simp only [List.length_nil] at hroom
            omega
          rw [List.concat_eq_append, List.length_append, List.length_singleton] at hroom hj
          have hlast := pred_toNat hj
          have hwrite := writeAt_append free done old
            (base58Char (divLoop (top :: rest) 0).2.toNat)
          rw [← hlast] at hwrite
          obtain ⟨digits, left, j', hcall, hspells, hj', hlength, hcount⟩ := ih _ free
            (base58Char (divLoop (top :: rest) 0).2.toNat :: done) (j - 1) hlast
            (Nat.le_of_succ_le_succ (hless.trans hfuel))
            (Nat.le_of_succ_le_succ (hless.trans hroom))
          refine ⟨digits ++ [(divLoop (top :: rest) 0).2.toNat], left, j', ?_, ?_, hj', ?_, ?_⟩
          · simp only [base58Loop, List.concat_eq_append, List.append_assoc,
              List.singleton_append, hwrite, ok_bind, hcall]
            simp
          · rw [hsame] at hspells
            have hwhole := hspells.append hdigit
            rwa [hvalue, UInt16.toNat_zero, Nat.zero_mul, Nat.zero_add] at hwhole
          · simp only [List.length_append, List.length_singleton, List.concat_eq_append]
            omega
          · rw [List.length_append, List.length_singleton]
            omega

end Division

section Text

/-- The surplus zeros in front are passed over. -/
theorem skipZerosLoop_eq (length fuel : Nat) (pre : List UInt8) (digits : List Nat)
    (post : List UInt8) (j : UInt8) (hlt : ∀ d ∈ digits, d < 58) (hj : j.toNat = pre.length)
    (hend : pre.length + digits.length = 2 * length) (hsize : 2 * length < 256)
    (hfuel : digits.length < fuel) :
    ∃ j' : UInt8, skipZerosLoop length fuel j (pre ++ digits.map base58Char ++ post) = .ok j' ∧
      j'.toNat = pre.length + (digits.takeWhile (· = 0)).length := by
  induction digits generalizing fuel pre j with
  | nil =>
      match fuel, hfuel with
      | fuel + 1, _ =>
          simp only [List.length_nil, Nat.add_zero] at hend
          refine ⟨j, ?_, by simp [hj]⟩
          have hstop : ¬ j.toNat < 2 * length := by omega
          simp only [skipZerosLoop, hstop, ↓reduceIte, pure_eq_ok]
  | cons d digits ih =>
      match fuel, hfuel with
      | fuel + 1, hfuel =>
          simp only [List.length_cons] at hend hfuel
          have hgo : j.toNat < 2 * length := by omega
          have hread := readAt_append pre (digits.map base58Char ++ post) (base58Char d)
          rw [← hj] at hread
          simp only [List.map_cons, List.append_assoc, List.cons_append, skipZerosLoop, hgo,
            ↓reduceIte, hread, ok_bind, base58Char_eq_zero (hlt d (by simp))]
          by_cases hd : d = 0
          · have hnext : (j + 1).toNat = (pre ++ [base58Char d]).length := by
              have hone : (1 : UInt8).toNat = 1 := rfl
              rw [UInt8.toNat_add, hone, List.length_append, List.length_singleton]
              omega
            obtain ⟨j', hcall, hj'⟩ := ih fuel (pre ++ [base58Char d]) (j + 1)
              (fun d hd => hlt d (List.mem_cons_of_mem _ hd)) hnext
              (by rw [List.length_append, List.length_singleton]; omega) (by omega)
            simp only [List.append_assoc, List.cons_append, List.nil_append] at hcall
            refine ⟨j', ?_, ?_⟩
            · rw [if_pos hd, hcall]
            · rw [hj', List.length_append, List.length_singleton,
                List.takeWhile_cons_of_pos (by simpa using hd), List.length_cons]
              omega
          · refine ⟨j, ?_, ?_⟩
            · rw [if_neg hd]
              rfl
            · rw [hj, List.takeWhile_cons_of_neg (by simpa using hd), List.length_nil]
              rfl

/-- One more character for each zero byte. -/
theorem leadingOnesLoop_eq (count : Nat) (free done : List UInt8) (j : UInt8)
    (hj : j.toNat = free.length) (hroom : count ≤ free.length) :
    ∃ (left : List UInt8) (j' : UInt8),
      leadingOnesLoop count j (free ++ done) =
        .ok (j', left ++ List.replicate count (base58Char 0) ++ done) ∧
      j'.toNat = left.length ∧ left.length + count = free.length := by
  induction count generalizing free done j with
  | zero => exact ⟨free, j, by simp [leadingOnesLoop], hj, rfl⟩
  | succ count ih =>
      rcases List.eq_nil_or_concat free with rfl | ⟨free, old, rfl⟩
      · simp only [List.length_nil] at hroom
        omega
      rw [List.concat_eq_append, List.length_append, List.length_singleton] at hroom hj
      have hlast := pred_toNat hj
      have hwrite := writeAt_append free done old (base58Char 0)
      rw [← hlast] at hwrite
      obtain ⟨left, j', hcall, hj', hlength⟩ := ih free (base58Char 0 :: done) (j - 1) hlast
        (by omega)
      refine ⟨left, j', ?_, hj', ?_⟩
      · simp only [leadingOnesLoop, List.concat_eq_append, List.append_assoc,
          List.singleton_append, hwrite, ok_bind, hcall, List.replicate_succ']
      · rw [List.concat_eq_append, List.length_append, List.length_singleton]
        omega

/-- The three loops leave the text at the end of the part of the buffer that
has two characters for each byte. -/
theorem base58Buffer_eq {input : List UInt8} (hinput : input.length ≤ 32) :
    ∃ (first second last : UInt8) (buffer front : List UInt8),
      base58Loop (2 * input.length) (input.drop (leadingZeros input))
          (UInt8.ofNat (2 * input.length)) (List.replicate base58BufferSize 0) =
        .ok (first, buffer) ∧
      skipZerosLoop input.length (2 * input.length + 1) first buffer = .ok second ∧
      leadingOnesLoop (leadingZeros input) second buffer =
        .ok (last, front ++ base58Text input ++ List.replicate (64 - 2 * input.length) 0) ∧
      last.toNat = front.length ∧ front.length + (base58Text input).length = 2 * input.length := by
  have hzeros := leadingZeros_le input
  have hrest : (input.drop (leadingZeros input)).length = input.length - leadingZeros input :=
    List.length_drop
  have hpasses := passes_le (input.drop (leadingZeros input))
  have hbuffer : List.replicate base58BufferSize (0 : UInt8) =
      List.replicate (2 * input.length) 0 ++ List.replicate (64 - 2 * input.length) 0 := by
    rw [List.replicate_append_replicate, Nat.add_sub_cancel' (by omega)]
    rfl
  have hstart : (UInt8.ofNat (2 * input.length)).toNat = 2 * input.length := by
    rw [UInt8.toNat_ofNat']
    omega
  obtain ⟨digits, left, first, hloop, hspells, hfirst, hlength, hcount⟩ :=
    base58Loop_eq (2 * input.length) (input.drop (leadingZeros input))
      (List.replicate (2 * input.length) 0) (List.replicate (64 - 2 * input.length) 0)
      (UInt8.ofNat (2 * input.length)) (by rw [hstart, List.length_replicate]) (by omega)
      (by rw [List.length_replicate]; omega)
  rw [List.length_replicate] at hlength
  obtain ⟨second, hskip, hsecond⟩ := skipZerosLoop_eq input.length (2 * input.length + 1) left
    digits (List.replicate (64 - 2 * input.length) 0) first hspells.lt hfirst hlength (by omega)
    (by omega)
  -- What is left of the digits are those of the number.
  have hsplit := List.takeWhile_append_dropWhile (p := (· = 0)) (l := digits)
  have hdigits := hspells.dropWhile_zero (by omega)
  rw [beNat_drop_leadingZeros] at hdigits
  obtain ⟨front, last, hones, hlast, hfront⟩ := leadingOnesLoop_eq (leadingZeros input)
    (left ++ (digits.takeWhile (· = 0)).map base58Char)
    ((digits.dropWhile (· = 0)).map base58Char ++ List.replicate (64 - 2 * input.length) 0) second
    (by rw [hsecond, List.length_append, List.length_map])
    (by rw [List.length_append]; omega)
  have htext : base58Text input = List.replicate (leadingZeros input) (base58Char 0) ++
      (digits.dropWhile (· = 0)).map base58Char := by
    rw [base58Text, radixDigits, List.map_append, List.map_replicate, hdigits]
  have hsame : left ++ (digits.takeWhile (· = 0)).map base58Char ++
      ((digits.dropWhile (· = 0)).map base58Char ++ List.replicate (64 - 2 * input.length) 0) =
        left ++ digits.map base58Char ++ List.replicate (64 - 2 * input.length) 0 := by
    conv_rhs => rw [← hsplit]
    simp only [List.map_append, List.append_assoc]
  rw [hsame] at hones
  refine ⟨first, second, last, _, front, hbuffer ▸ hloop, hskip, ?_, hlast, ?_⟩
  · rw [hones, htext]
    simp only [List.append_assoc]
  · have hwhole := congrArg List.length hsplit
    rw [List.length_append] at hwhole
    rw [htext, List.length_append, List.length_replicate, List.length_map]
    rw [List.length_append, List.length_map] at hfront
    omega

/-- The text is there, unless there is no room for it. -/
theorem encodeBase58_eq (input out : List UInt8) {maxoutlen : Nat} (hinput : input.length ≤ 32)
    (hout : maxoutlen ≤ out.length) :
    encodeBase58 input out maxoutlen =
      if maxoutlen ≤ (base58Text input).length then .ok (exceptionOverflow, out)
      else .ok (0, base58Text input ++ 0 :: out.drop ((base58Text input).length + 1)) := by
  obtain ⟨first, second, last, buffer, front, hloop, hskip, hones, hlast, hend⟩ :=
    base58Buffer_eq hinput
  have hsize : ¬ input.length > base58BufferSize := by
    have h64 : base58BufferSize = 64 := rfl
    omega
  have hlen : subSize (2 * input.length) last.toNat = .ok (base58Text input).length := by
    rw [subSize_ok (by omega), ← hend, hlast, Nat.add_sub_cancel_left]
  have hread : readBytes (front ++ base58Text input ++ List.replicate (64 - 2 * input.length) 0)
      last.toNat (base58Text input).length = .ok (base58Text input) := by
    rw [hlast, readBytes_ok (by simp only [List.length_append]; omega), List.append_assoc,
      List.drop_left, List.take_left]
  simp only [leadingZeros] at hloop hones
  simp only [encodeBase58, hsize, ↓reduceIte, hloop, hskip, hones, hlen, hread, ok_bind,
    Nat.lt_succ_iff]
  split
  · rfl
  · have hwrite := writeBytes_drop [] out (base58Text input) (k := 0) (by omega)
    have hnul := writeAt_drop (base58Text input) out 0 (k := (base58Text input).length) (by omega)
    simp only [List.drop_zero, List.nil_append, List.length_nil, Int.natCast_zero, Nat.zero_add]
      at hwrite
    simp only [hwrite, hnul, ok_bind, pure_eq_ok, List.append_assoc, List.singleton_append]

/-- The encoder writes the standard text of any input of up to 32 bytes, with its
terminator, or has no room for it and leaves the output alone. For a key there
is always room. -/
theorem encodeBase58_standard (input out : List UInt8) (maxoutlen : Nat)
    (hinput : input.length ≤ 32) (hout : maxoutlen ≤ out.length) :
    base58Decode (base58Text input) = some input ∧
      ((base58Text input).takeWhile (· = base58Char 0)).length = leadingZeros input ∧
      (if maxoutlen ≤ (base58Text input).length then
        encodeBase58 input out maxoutlen = .ok (exceptionOverflow, out)
      else encodeBase58 input out maxoutlen =
        .ok (0, base58Text input ++ 0 :: out.drop ((base58Text input).length + 1))) ∧
      (input.length = pubkeySize →
        32 ≤ (base58Text input).length ∧ (base58Text input).length ≤ 44 ∧
          (maxoutlen = base58PubkeyLength →
            ∃ filled, encodeBase58 input out maxoutlen = .ok (0, filled))) := by
  have hcall := encodeBase58_eq input out hinput hout
  refine ⟨base58Decode_base58Text input, base58Text_ones input, ?_, fun hkey => ?_⟩
  · rw [hcall]
    split
    · rfl
    · rfl
  · have hsize : pubkeySize = 32 := rfl
    have hlength : base58PubkeyLength = 45 := rfl
    obtain ⟨hlow, hhigh⟩ := base58Text_pubkey hkey
    refine ⟨by omega, by omega, ?_⟩
    rintro rfl
    rw [if_neg (by omega)] at hcall
    exact ⟨_, hcall⟩

/-- The law at a key that begins with a zero byte, in the buffer of a public
key. -/
theorem encodeBase58_standard_key :
    ∃ filled, encodeBase58 (0 :: List.replicate 31 7) (List.replicate 45 0) 45 = .ok (0, filled) :=
  (encodeBase58_standard (0 :: List.replicate 31 7) (List.replicate 45 0) 45 (by decide)
    (by decide)).2.2.2 rfl |>.2.2 rfl

end Text

section Bounds

/-- Every access of the encoder is inside its array, where the output has as
many elements as it says. -/
def EncodesInBounds (input : List UInt8) (maxoutlen : Nat) : Prop :=
  ∀ out : List UInt8, out.length = maxoutlen →
    ∀ index size, encodeBase58 input out maxoutlen ≠ .error (.outOfBounds index size)

/-- The first digit of a long number goes past the end of `buffer`. -/
theorem base58Loop_fault (fuel : Nat) (top : UInt8) (rest buffer : List UInt8) {j : UInt8} {n : Nat}
    (hj : j.toNat = n + 1) (hover : buffer.length ≤ n) :
    base58Loop (fuel + 1) (top :: rest) j buffer = .error (.outOfBounds n buffer.length) := by
  have hwrite := writeAt_fault buffer (i := ((j - 1).toNat : Int))
    (base58Char (divLoop (top :: rest) 0).2.toNat) (by rw [pred_toNat hj]; omega)
  rw [pred_toNat hj] at hwrite
  simp only [base58Loop, pred_toNat hj, hwrite, error_bind]

/-- And so does the first character for a zero byte. -/
theorem leadingOnesLoop_fault (count : Nat) (buffer : List UInt8) {j : UInt8} {n : Nat}
    (hj : j.toNat = n + 1) (hover : buffer.length ≤ n) :
    leadingOnesLoop (count + 1) j buffer = .error (.outOfBounds n buffer.length) := by
  have hwrite := writeAt_fault buffer (i := ((j - 1).toNat : Int)) (base58Char 0)
    (by rw [pred_toNat hj]; omega)
  rw [pred_toNat hj] at hwrite
  simp only [leadingOnesLoop, pred_toNat hj, hwrite, error_bind]

/-- The cursor starts two characters for each byte behind the start of
`buffer`, which is past its end for more than 32 bytes. -/
theorem encodeBase58_fault (input out : List UInt8) (maxoutlen : Nat)
    (hlow : 32 < input.length) (hhigh : input.length ≤ base58BufferSize) :
    encodeBase58 input out maxoutlen =
      .error (.outOfBounds (2 * input.length - 1 : Nat) base58BufferSize) := by
  have h64 : base58BufferSize = 64 := rfl
  have hsize : ¬ input.length > base58BufferSize := by omega
  have hstart : (UInt8.ofNat (2 * input.length)).toNat = 2 * input.length - 1 + 1 := by
    rw [UInt8.toNat_ofNat']
    omega
  have hbuffer : (List.replicate base58BufferSize (0 : UInt8)).length = base58BufferSize :=
    List.length_replicate
  have hfuel : 2 * input.length = (2 * input.length - 1) + 1 := by omega
  simp only [encodeBase58, hsize, ↓reduceIte]
  cases hrest : input.drop (input.takeWhile (· = 0)).length with
  | nil =>
      have hzeros : (input.takeWhile (· = 0)).length = (input.length - 1) + 1 := by
        have hlength := congrArg List.length hrest
        have hle := leadingZeros_le input
        rw [List.length_drop, List.length_nil] at hlength
        rw [leadingZeros] at hle
        omega
      have hskip : skipZerosLoop input.length (2 * input.length + 1)
          (UInt8.ofNat (2 * input.length)) (List.replicate base58BufferSize 0) =
          .ok (UInt8.ofNat (2 * input.length)) := by
        have hstop : ¬ (UInt8.ofNat (2 * input.length)).toNat < 2 * input.length := by omega
        rw [skipZerosLoop, if_neg hstop]
        rfl
      have hones := leadingOnesLoop_fault (input.length - 1)
        (List.replicate base58BufferSize 0) hstart (by omega)
      rw [hbuffer] at hones
      simp only [base58Loop, ok_bind, hskip, hzeros, hones, error_bind]
  | cons top rest =>
      have hloop := base58Loop_fault (2 * input.length - 1) top rest
        (List.replicate base58BufferSize 0) hstart (by omega)
      rw [hbuffer, ← hfuel] at hloop
      simp only [hloop, error_bind]

/-- The accesses are inside their arrays exactly for inputs of at most 32 bytes. -/
theorem encodesInBounds_iff (input : List UInt8) (maxoutlen : Nat)
    (hsize : input.length ≤ base58BufferSize) :
    EncodesInBounds input maxoutlen ↔ input.length ≤ 32 := by
  constructor
  · intro h
    by_contra hlong
    exact h (List.replicate maxoutlen 0) List.length_replicate _ _
      (encodeBase58_fault input _ maxoutlen (by omega) hsize)
  · intro hinput out hout index size hfault
    rw [encodeBase58_eq input out hinput hout.ge] at hfault
    split at hfault
    · cases hfault
    · cases hfault

/-- The equivalence at a key. -/
theorem encodesInBounds_iff_key :
    EncodesInBounds (List.replicate 32 1) 45 ↔ (List.replicate 32 (1 : UInt8)).length ≤ 32 :=
  encodesInBounds_iff (List.replicate 32 1) 45 (by decide)

/-- 33 bytes are not rejected, and their first digit goes to `buffer[65]`. -/
theorem encodeBase58_writes_past_buffer :
    (List.replicate 33 (1 : UInt8)).length ≤ base58BufferSize ∧
      ¬ EncodesInBounds (List.replicate 33 1) 64 := by
  refine ⟨by decide, fun h => ?_⟩
  exact h (List.replicate 64 0) List.length_replicate 65 64
    (encodeBase58_fault (List.replicate 33 1) _ 64 (by decide) (by decide))

end Bounds

end AelfApp.Libsol
