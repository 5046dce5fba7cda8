import AelfApp.Libsol.Printer.Strings

/-!
The printers in buffers of every size: when they return zero, what the buffer
holds then, and the few sizes that they handle wrongly. The sizes the
application uses are far from those.
-/

namespace AelfApp.Libsol

open Memory Numeral

/-- The buffer begins with the text and its terminator. -/
def HoldsText (buffer text : List UInt8) : Prop := text ++ [0] <+: buffer

/-- On every buffer of that size the call returns zero exactly if there is room
for the text and its terminator, and then the buffer holds them. -/
def PrintsWhole (size : Nat) (call : List UInt8 → Checked (Nat × List UInt8))
    (text : List UInt8) : Prop :=
  ∀ out : List UInt8, out.length = size →
    ((∃ filled, call out = .ok (0, filled)) ↔ text.length + 1 ≤ size) ∧
      ∀ filled, call out = .ok (0, filled) → HoldsText filled text

/-- No access to a buffer of that size, and nothing else, is undefined. -/
def StaysInBounds (size : Nat) (call : List UInt8 → Checked (Nat × List UInt8)) : Prop :=
  ∀ out : List UInt8, out.length = size → ∃ result, call out = .ok result

section Texts

/-- A text that is seen and does not fill the buffer has its terminator. -/
theorem holdsText_of_cString {buffer text : List UInt8} (h : cString buffer = text)
    (hlength : text.length < buffer.length) : HoldsText buffer text := by
  induction buffer generalizing text with
  | nil => cases hlength
  | cons c rest ih =>
      by_cases hc : c = 0
      · rw [hc, cString_nul] at h
        rw [← h, hc]
        exact ⟨rest, rfl⟩
      · rw [cString_cons _ hc] at h
        rw [← h, List.length_cons, List.length_cons] at hlength
        obtain ⟨tail, htail⟩ := ih rfl (Nat.lt_of_succ_lt_succ hlength)
        rw [← h]
        exact ⟨tail, congrArg (List.cons c) htail⟩

section Outcomes

variable {size : Nat} {call : List UInt8 → Checked (Nat × List UInt8)}
  {outcome : Checked (Nat × List UInt8)}

/-- A call that returns zero shows the text of its outcome. -/
theorem Prints.of_zero (h : Prints size call outcome) {out filled : List UInt8}
    (hout : out.length = size) (hcall : call out = .ok (0, filled)) :
    outcome = .ok (0, cString filled) := by
  have hprints := h out hout
  cases outcome with
  | error e => cases hcall.symm.trans hprints
  | ok result =>
      obtain ⟨ret, text⟩ := result
      obtain ⟨other, hother, htext⟩ := hprints
      cases hcall.symm.trans hother
      rw [htext rfl]

/-- And it returns zero whenever its outcome does. -/
theorem Prints.zero_iff (h : Prints size call outcome) {out : List UInt8}
    (hout : out.length = size) :
    (∃ filled, call out = .ok (0, filled)) ↔ ∃ text, outcome = .ok (0, text) := by
  constructor
  · rintro ⟨filled, hcall⟩
    exact ⟨_, h.of_zero hout hcall⟩
  · rintro ⟨text, rfl⟩
    obtain ⟨filled, hcall, -⟩ := h out hout
    exact ⟨filled, hcall⟩

/-- No outcome that is a return code is undefined, and every other one is. -/
theorem Prints.staysInBounds_iff (h : Prints size call outcome) :
    StaysInBounds size call ↔ ∃ result, outcome = .ok result := by
  constructor
  · intro hbounds
    obtain ⟨result, hcall⟩ := hbounds (List.replicate size 0) List.length_replicate
    have hprints := h (List.replicate size 0) List.length_replicate
    cases outcome with
    | error e => cases hcall.symm.trans hprints
    | ok result => exact ⟨result, rfl⟩
  · rintro ⟨⟨ret, text⟩, rfl⟩ out hout
    obtain ⟨filled, hcall, -⟩ := h out hout
    exact ⟨_, hcall⟩

/-- An outcome that depends on the room for a text is the whole text or none of
it. -/
theorem Prints.whole {text : List UInt8}
    (h : Prints size call (if size ≤ text.length then .ok (1, []) else .ok (0, text)))
    (hsize : ∀ out, out.length = size → KeepsSize size (call out)) :
    PrintsWhole size call text := by
  intro out hout
  have hzero := h.zero_iff hout
  by_cases hroom : size ≤ text.length
  · simp only [hroom, ↓reduceIte] at h hzero
    refine ⟨hzero.trans ⟨?_, fun hfits => by omega⟩, fun filled hcall => ?_⟩
    · rintro ⟨_, ⟨⟩⟩
    · cases h.of_zero hout hcall
  · simp only [hroom, ↓reduceIte] at h hzero
    refine ⟨hzero.trans ⟨fun _ => by omega, fun _ => ⟨text, rfl⟩⟩, fun filled hcall => ?_⟩
    have hlength : filled.length = size := hsize out hout _ hcall
    have htext := h.of_zero hout hcall
    simp only [Except.ok.injEq, Prod.mk.injEq, true_and] at htext
    exact holdsText_of_cString htext.symm (by omega)

end Outcomes

end Texts

section TokenAmounts

/-- The digits before they are stripped: those of the amount, or as many as the
decimals ask for, and a point. -/
theorem rawDigits_length_max (decimals n : Nat) :
    (rawDigits decimals n).length = max (numeral n).length (decimals + 1) + 1 := by
  rw [rawDigits_length, numeral_length]
  induction decimals generalizing n with
  | zero =>
      have hpos := List.length_pos_of_ne_nil (unitsFirst_ne_nil n)
      rw [Nat.pow_zero, Nat.div_one]
      omega
  | succ decimals ih =>
      have hrest := ih (n / 10)
      have hdigits := congrArg List.length (unitsFirst_eq n)
      rw [Nat.pow_succ', ← Nat.div_div_eq_div_mul]
      rw [List.length_cons] at hdigits
      by_cases hlast : n / 10 = 0
      · have hzero : (unitsFirst 0).length = 1 := rfl
        rw [if_pos hlast, List.length_nil] at hdigits
        rw [hlast, hzero] at hrest
        rw [hlast]
        omega
      · rw [if_neg hlast] at hdigits
        omega

/-- The asset is appended exactly if there is room for it. -/
theorem qualifyOutcome_zero_iff (asset : CString) (text shown : List UInt8) {outlen : Nat}
    (hhigh : outlen ≤ intMax) :
    qualifyOutcome (some asset) text outlen = .ok (0, shown) ↔
      shown = text ++ charSpace :: asset.chars ∧ shown.length + 1 ≤ outlen := by
  have hlength : (text ++ charSpace :: asset.chars).length =
      text.length + 1 + asset.chars.length := by
    rw [List.length_append, List.length_cons]
    omega
  have hroom : shown = text ++ charSpace :: asset.chars ∧ shown.length + 1 ≤ outlen →
      text.length + 1 + asset.chars.length + 1 ≤ outlen := by
    rintro ⟨rfl, hfits⟩
    omega
  rw [qualifyOutcome]
  split
  · split
    · exact iff_of_false (by rintro ⟨⟩) fun h => by have hfits := hroom h; omega
    · constructor
      · rintro ⟨⟩
        exact ⟨rfl, by omega⟩
      · rintro ⟨rfl, -⟩
        rfl
  · have hnone : ¬ (shown = text ++ charSpace :: asset.chars ∧ shown.length + 1 ≤ outlen) :=
      fun h => by have hfits := hroom h; omega
    split
    · exact iff_of_false (by rintro ⟨⟩) hnone
    · split
      · exact iff_of_false (by rintro ⟨⟩) hnone
      · exact iff_of_false (by rintro ⟨⟩) hnone

theorem tokenAmountOutcome_zero_iff (amount : UInt64) (asset : CString) (decimals : UInt8)
    {outlen : Nat} (hhigh : outlen ≤ intMax) (text : List UInt8) :
    tokenAmountOutcome amount (some asset) decimals outlen = .ok (0, text) ↔
      max (numeral amount.toNat).length (decimals.toNat + 1) + 1 < outlen ∧
        text = decimalText decimals.toNat amount.toNat ++ charSpace :: asset.chars ∧
        text.length + 1 ≤ outlen := by
  have hraw := rawDigits_length_max decimals.toNat amount.toNat
  rw [← hraw, tokenAmountOutcome]
  by_cases hpoint : decimals.toNat + 1 = outlen
  · rw [if_pos hpoint]
    refine iff_of_false (by rintro ⟨⟩) ?_
    rintro ⟨hroom, -⟩
    omega
  rw [if_neg hpoint]
  by_cases hlong : outlen ≤ (rawDigits decimals.toNat amount.toNat).length
  · rw [if_pos hlong]
    refine iff_of_false (by rintro ⟨⟩) ?_
    rintro ⟨hroom, -⟩
    omega
  · rw [if_neg hlong, qualifyOutcome_zero_iff asset _ text hhigh]
    constructor
    · rintro ⟨htext, hfits⟩
      exact ⟨by omega, htext, hfits⟩
    · rintro ⟨-, htext, hfits⟩
      exact ⟨htext, hfits⟩

/-- With room for the digits and for the text, and only then, the text is the
exact decimal of the amount, a space, and the asset. -/
theorem printTokenAmount_shows (amount : UInt64) (asset : CString) (decimals : UInt8)
    (outlen : Nat) (hlow : 2 ≤ outlen) (hhigh : outlen ≤ intMax) :
    IsDecimal (decimalText decimals.toNat amount.toNat)
        ((amount.toNat : ℚ) / 10 ^ decimals.toNat) ∧
      ∀ out : List UInt8, out.length = outlen →
        ((∃ filled, printTokenAmount amount (some asset) decimals out outlen = .ok (0, filled)) ↔
          max (numeral amount.toNat).length (decimals.toNat + 1) + 1 < outlen ∧
            (decimalText decimals.toNat amount.toNat ++ charSpace :: asset.chars).length + 1 ≤
              outlen) ∧
        ∀ filled, printTokenAmount amount (some asset) decimals out outlen = .ok (0, filled) →
          HoldsText filled (decimalText decimals.toNat amount.toNat ++
            charSpace :: asset.chars) := by
  refine ⟨isDecimal_decimalText _ _, fun out hout => ?_⟩
  have hprints := printTokenAmount_prints amount (some asset) decimals outlen hlow hhigh
  have houtcome := tokenAmountOutcome_zero_iff amount asset decimals hhigh
  refine ⟨(hprints.zero_iff hout).trans ?_, fun filled hcall => ?_⟩
  · constructor
    · rintro ⟨text, htext⟩
      obtain ⟨hroom, rfl, hfits⟩ := (houtcome text).mp htext
      exact ⟨hroom, hfits⟩
    · rintro ⟨hroom, hfits⟩
      exact ⟨_, (houtcome _).mpr ⟨hroom, rfl, hfits⟩⟩
  · obtain ⟨-, htext, hfits⟩ := (houtcome _).mp (hprints.of_zero hout hcall)
    have hlength : filled.length = outlen :=
      printTokenAmount_size amount (some asset) decimals out outlen hout _ hcall
    exact holdsText_of_cString htext (by rw [htext] at hfits; omega)

/-- The law at an amount in a buffer of twelve characters. -/
theorem printTokenAmount_shows_sample :
    ∃ filled, printTokenAmount 1234500 (some (.lit "ELF")) 4 (List.replicate 12 0) 12 =
      .ok (0, filled) :=
  ((printTokenAmount_shows 1234500 (.lit "ELF") 4 12 (by decide) (by decide)).2
    (List.replicate 12 0) rfl).1.mpr ⟨by decide, by decide⟩

/-- The sizes and assets that `print_token_amount` copes with: the loop does not
put the point at the last place of the buffer, there is a digit in front of
what is stripped, and the room for the asset is an `int`. -/
def TokenAmountFits (amount : UInt64) (asset : Option CString) (decimals : UInt8)
    (outlen : Nat) : Prop :=
  outlen ≠ 1 ∧ outlen ≠ decimals.toNat + 1 ∧
    ∀ s, asset = some s → max (numeral amount.toNat).length (decimals.toNat + 1) + 1 < outlen →
      (decimalText decimals.toNat amount.toNat).length + 1 + s.chars.length + 1 ≤ intMax

theorem qualifyOutcome_ok_iff (asset : Option CString) (text : List UInt8) (outlen : Nat) :
    (∃ result, qualifyOutcome asset text outlen = .ok result) ↔
      ∀ s, asset = some s → text.length + 1 + s.chars.length + 1 ≤ intMax := by
  cases asset with
  | none => exact iff_of_true ⟨_, rfl⟩ (by rintro _ ⟨⟩)
  | some asset =>
      simp only [qualifyOutcome, Option.some.injEq, forall_eq']
      by_cases hint : text.length + 1 + asset.chars.length + 1 ≤ intMax
      · rw [if_pos hint]
        refine iff_of_true ?_ hint
        split
        · exact ⟨_, rfl⟩
        · exact ⟨_, rfl⟩
      · rw [if_neg hint]
        refine iff_of_false ?_ hint
        rintro ⟨result, hresult⟩
        split at hresult
        · cases hresult
        · split at hresult
          · cases hresult
          · cases hresult

theorem tokenAmountOutcome_ok_iff (amount : UInt64) (asset : Option CString) (decimals : UInt8)
    {outlen : Nat} (hlow : 2 ≤ outlen) :
    (∃ result, tokenAmountOutcome amount asset decimals outlen = .ok result) ↔
      TokenAmountFits amount asset decimals outlen := by
  have hraw := rawDigits_length_max decimals.toNat amount.toNat
  rw [TokenAmountFits, tokenAmountOutcome, hraw]
  by_cases hpoint : decimals.toNat + 1 = outlen
  · rw [if_pos hpoint]
    refine iff_of_false (by rintro ⟨_, ⟨⟩⟩) ?_
    rintro ⟨-, hother, -⟩
    exact hother hpoint.symm
  rw [if_neg hpoint]
  by_cases hlong : outlen ≤ max (numeral amount.toNat).length (decimals.toNat + 1) + 1
  · rw [if_pos hlong]
    exact iff_of_true ⟨_, rfl⟩
      ⟨by omega, fun h => hpoint h.symm, fun _ _ hroom => absurd hlong (by omega)⟩
  · rw [if_neg hlong, qualifyOutcome_ok_iff]
    constructor
    · intro h
      exact ⟨by omega, fun h => hpoint h.symm, fun s hs _ => h s hs⟩
    · rintro ⟨-, -, h⟩ s hs
      exact h s hs (by omega)

/-- With room for the terminator alone, the code looks at the character before
the buffer. -/
theorem printTokenAmount_one (amount : UInt64) (asset : Option CString) (decimals : UInt8)
    (c : UInt8) : printTokenAmount amount asset decimals [c] 1 = .error (.outOfBounds (-1) 1) := by
  rfl

/-- Exactly at these sizes and assets every access is inside the buffer. -/
theorem printTokenAmount_staysInBounds_iff (amount : UInt64) (asset : Option CString)
    (decimals : UInt8) (outlen : Nat) (hhigh : outlen ≤ intMax) :
    StaysInBounds outlen (fun out => printTokenAmount amount asset decimals out outlen) ↔
      TokenAmountFits amount asset decimals outlen := by
  match outlen with
  | 0 =>
      refine iff_of_true (fun out _ => ⟨(1, out), rfl⟩) ⟨by omega, by omega, ?_⟩
      intro s _ hroom
      omega
  | 1 =>
      refine iff_of_false (fun hbounds => ?_) fun hfits => hfits.1 rfl
      obtain ⟨result, hresult⟩ := hbounds [0] rfl
      cases hresult.symm.trans (printTokenAmount_one amount asset decimals 0)
  | outlen + 2 =>
      have hlow : 2 ≤ outlen + 2 := by omega
      rw [(printTokenAmount_prints amount asset decimals _ hlow hhigh).staysInBounds_iff]
      exact tokenAmountOutcome_ok_iff amount asset decimals hlow

/-- The equivalence at the buffer of the screens. -/
theorem printTokenAmount_staysInBounds_iff_screen :
    StaysInBounds 45 (fun out => printTokenAmount 5 none 8 out 45) ↔ TokenAmountFits 5 none 8 45 :=
  printTokenAmount_staysInBounds_iff 5 none 8 45 (by decide)

/-- Nine characters are too few for eight decimals, and the first digit of the
whole part goes behind them. -/
theorem printTokenAmount_writes_past_buffer :
    ¬ StaysInBounds 9 (fun out => printTokenAmount 5 (some (.lit "ELF")) 8 out 9) := by
  intro hbounds
  obtain ⟨result, hresult⟩ := hbounds (List.replicate 9 0) rfl
  have hcall : printTokenAmount 5 (some (.lit "ELF")) 8 (List.replicate 9 0) 9 =
      .error (.outOfBounds 9 9) := rfl
  cases hresult.symm.trans hcall

end TokenAmounts

section Integers

/-- The canonical numeral of an integer. -/
def signedNumeral (z : Int) : List UInt8 :=
  if z < 0 then charMinus :: numeral z.natAbs else numeral z.natAbs

theorem toInt_eq (v : Int64) :
    v.toInt = if v.toUInt64.toNat < 2 ^ 63 then (v.toUInt64.toNat : Int)
      else (v.toUInt64.toNat : Int) - 2 ^ 64 := by
  have hbits : v.toBitVec.toNat = v.toUInt64.toNat := rfl
  rw [Int64.toInt, BitVec.toInt_eq_toNat_cond, hbits]
  split <;> split <;> omega

theorem i64Outcome_eq (v : Int64) {outlen : Nat} (h : 1 ≤ outlen) :
    i64Outcome v.toUInt64 outlen =
      if outlen ≤ (signedNumeral v.toInt).length then .ok (1, [])
      else .ok (0, signedNumeral v.toInt) := by
  have hv := toInt_eq v
  rw [i64Outcome, u64Outcome_eq, u64Outcome_eq, signedNumeral]
  by_cases hnegative : v.toUInt64.toNat ≥ 2 ^ 63
  · rw [if_neg (by omega)] at hv
    have habs : ((v.toUInt64 ^^^ 0xffffffffffffffff) + 1).toNat = v.toInt.natAbs := by
      have hlt := v.toUInt64.toNat_lt
      rw [negated_toNat hnegative]
      omega
    have hsign : v.toInt < 0 := by
      have hlt := v.toUInt64.toNat_lt
      omega
    rw [if_pos hnegative, habs, if_pos hsign, List.length_cons]
    by_cases hroom : outlen ≤ (numeral v.toInt.natAbs).length + 1
    · rw [if_pos hroom, if_pos (by omega)]
      rfl
    · rw [if_neg hroom, if_neg (by omega)]
      rfl
  · rw [if_pos (by omega)] at hv
    have habs : v.toUInt64.toNat = v.toInt.natAbs := by omega
    rw [if_neg hnegative, if_neg (show ¬ v.toInt < 0 by omega), habs]

/-- A call that returns zero with nothing but the terminator does not print the
text. -/
theorem not_printsWhole {size : Nat} {call : List UInt8 → Checked (Nat × List UInt8)}
    {text filled : List UInt8} (hcall : call (List.replicate size 0) = .ok (0, filled))
    (hroom : size ≤ text.length) : ¬ PrintsWhole size call text := by
  intro h
  have hfits := (h (List.replicate size 0) List.length_replicate).1.mp ⟨filled, hcall⟩
  omega

/-- And one that does not return zero prints as much as there is room for. -/
theorem printsWhole_none {size : Nat} {call : List UInt8 → Checked (Nat × List UInt8)}
    {text : List UInt8}
    (hcall : ∀ out, out.length = size → ∃ filled, call out = .ok (1, filled))
    (hroom : size ≤ text.length) : PrintsWhole size call text := by
  intro out hout
  obtain ⟨filled, hone⟩ := hcall out hout
  have hzero : ∀ other, call out ≠ .ok (0, other) := by
    intro other hother
    cases hone.symm.trans hother
  exact ⟨iff_of_false (fun ⟨other, hother⟩ => hzero other hother) (by omega),
    fun other hother => absurd hother (hzero other)⟩

theorem numeral_pos (n : Nat) : 0 < (numeral n).length := by
  rw [numeral_length]
  exact List.length_pos_of_ne_nil (unitsFirst_ne_nil n)

theorem printU64_zero (u64 : UInt64) (out : List UInt8) : printU64 u64 out 0 = .ok (1, out) := rfl

/-- With room for the terminator alone, the digits are skipped. -/
theorem printU64_one (u64 : UInt64) (c : UInt8) : printU64 u64 [c] 1 = .ok (0, [0]) := rfl

theorem printU64_whole_iff (u64 : UInt64) (outlen : Nat) (hhigh : outlen ≤ intMax) :
    PrintsWhole outlen (fun out => printU64 u64 out outlen) (numeral u64.toNat) ↔ outlen ≠ 1 := by
  have hpos := numeral_pos u64.toNat
  match outlen with
  | 0 =>
      refine iff_of_true ?_ (by omega)
      exact printsWhole_none (fun out _ => ⟨out, printU64_zero u64 out⟩) (Nat.zero_le _)
  | 1 =>
      refine iff_of_false ?_ (by omega)
      exact not_printsWhole (printU64_one u64 0) hpos
  | outlen + 2 =>
      refine iff_of_true ?_ (by omega)
      have hprints := printU64_prints u64 (outlen + 2) (by omega) hhigh
      rw [u64Outcome_eq] at hprints
      exact hprints.whole fun out hout => printU64_size u64 out _ hout

/-- Without the sign bit, `print_i64` is `print_u64`. -/
theorem printI64_positive {i64 : UInt64} (h : i64.toNat < 2 ^ 63) (out : List UInt8)
    (outlen : Nat) : printI64 i64 out outlen = printU64 i64 out outlen := by
  have hpositive : ¬ i64.toNat ≥ 2 ^ 63 := by omega
  cases outlen with
  | zero => rfl
  | succ outlen =>
      have hroom : ¬ outlen + 1 < 1 := by omega
      simp only [printI64, hroom, hpositive, ↓reduceIte]

/-- With room for the sign alone, there is no room for a digit. -/
theorem printI64_negative_one {i64 : UInt64} (h : 2 ^ 63 ≤ i64.toNat) (c : UInt8) :
    printI64 i64 [c] 1 = .ok (1, [charMinus]) := by
  have hwrite : writeAt [c] 0 charMinus = .ok [charMinus] := rfl
  have hroom : ¬ 1 < 1 := by omega
  simp only [printI64, hroom, ge_iff_le, h, ↓reduceIte, hwrite, ok_bind]
  rfl

/-- With room for the sign and the terminator, the digits are skipped. -/
theorem printI64_negative_two {i64 : UInt64} (h : 2 ^ 63 ≤ i64.toNat) (c d : UInt8) :
    printI64 i64 [c, d] 2 = .ok (0, [charMinus, 0]) := by
  have hwrite : writeAt [c, d] 0 charMinus = .ok [charMinus, d] := rfl
  have hroom : ¬ 2 < 1 := by omega
  simp only [printI64, hroom, ge_iff_le, h, ↓reduceIte, hwrite, ok_bind]
  rfl

theorem printI64_whole_iff (v : Int64) (outlen : Nat) (hhigh : outlen ≤ intMax) :
    PrintsWhole outlen (fun out => printI64 v.toUInt64 out outlen) (signedNumeral v.toInt) ↔
      outlen ≠ if v.toInt < 0 then 2 else 1 := by
  have hv := toInt_eq v
  have hlt := v.toUInt64.toNat_lt
  by_cases hpositive : v.toUInt64.toNat < 2 ^ 63
  · rw [if_pos hpositive] at hv
    have hsign : ¬ v.toInt < 0 := by omega
    have habs : v.toInt.natAbs = v.toUInt64.toNat := by omega
    rw [signedNumeral, if_neg hsign, if_neg hsign, habs]
    simp only [printI64_positive hpositive]
    exact printU64_whole_iff v.toUInt64 outlen hhigh
  rw [if_neg hpositive] at hv
  have hsign : v.toInt < 0 := by omega
  have hnegative : 2 ^ 63 ≤ v.toUInt64.toNat := by omega
  have hlength : (signedNumeral v.toInt).length = (numeral v.toInt.natAbs).length + 1 := by
    rw [signedNumeral, if_pos hsign, List.length_cons]
  have hpos := numeral_pos v.toInt.natAbs
  rw [if_pos hsign]
  match outlen with
  | 0 =>
      refine iff_of_true ?_ (by omega)
      exact printsWhole_none (fun out _ => ⟨out, rfl⟩) (Nat.zero_le _)
  | 1 =>
      refine iff_of_true (printsWhole_none (fun out hout => ?_) (by omega)) (by omega)
      obtain ⟨c, rfl⟩ := List.length_eq_one_iff.mp hout
      exact ⟨_, printI64_negative_one hnegative c⟩
  | 2 =>
      refine iff_of_false ?_ (by omega)
      exact not_printsWhole (printI64_negative_two hnegative 0 0) (by omega)
  | outlen + 3 =>
      refine iff_of_true ?_ (by omega)
      have hprints := printI64_prints v.toUInt64 (show 3 ≤ outlen + 3 by omega) hhigh
      rw [i64Outcome_eq v (by omega)] at hprints
      exact hprints.whole fun out hout => printI64_size _ out _ hout

/-- Both integer printers keep the law of their return code, and show the whole
numeral, except where the buffer has room for the sign and the terminator alone. -/
theorem printIntegers_whole_iff (u : UInt64) (v : Int64) (outlen : Nat)
    (hhigh : outlen ≤ intMax) :
    (PrintsWhole outlen (fun out => printU64 u out outlen) (numeral u.toNat) ↔ outlen ≠ 1) ∧
      (PrintsWhole outlen (fun out => printI64 v.toUInt64 out outlen) (signedNumeral v.toInt) ↔
        outlen ≠ if v.toInt < 0 then 2 else 1) :=
  ⟨printU64_whole_iff u outlen hhigh, printI64_whole_iff v outlen hhigh⟩

/-- The equivalences at the buffer of the screens. -/
theorem printIntegers_whole_iff_screen :
    (PrintsWhole 45 (fun out => printU64 7 out 45) (numeral (7 : UInt64).toNat) ↔ 45 ≠ 1) ∧
      (PrintsWhole 45 (fun out => printI64 (Int64.toUInt64 (-7)) out 45)
          (signedNumeral (Int64.toInt (-7))) ↔
        45 ≠ if Int64.toInt (-7) < 0 then 2 else 1) :=
  printIntegers_whole_iff 7 (-7) 45 (by decide)

/-- The empty text is printed for 7, with return code zero, and only the sign
for -7. -/
theorem printIntegers_empty :
    ¬ PrintsWhole 1 (fun out => printU64 7 out 1) (numeral (7 : UInt64).toNat) ∧
      ¬ PrintsWhole 2 (fun out => printI64 (Int64.toUInt64 (-7)) out 2)
        (signedNumeral (Int64.toInt (-7))) :=
  ⟨not_printsWhole (printU64_one 7 0) (by decide),
    not_printsWhole (printI64_negative_two (by decide) 0 0) (by decide)⟩

end Integers

section SizedStrings

variable {β : Type} (mem : Mem β) (string : Ptr β) (length : UInt64)

/-- What is meant to be seen of a sized string: all of it, or its beginning. -/
def seenBytes (outLength : Nat) : List UInt8 :=
  if length.toNat < outLength then mem.bytes string length.toNat
  else (mem.bytes string length.toNat).take (outLength - 2)

/-- Return code zero comes with the whole string, and return code one with its
beginning and the mark of a truncation. Which of them it is depends on the
length alone. -/
def SizedStringShown (outLength : Nat) : Prop :=
  ∀ out : List UInt8, out.length = outLength →
    ∃ ret filled, printSizedString mem ⟨length, some string⟩ out outLength = .ok (ret, filled) ∧
      (ret = 0 ↔ length.toNat < outLength) ∧ (ret = 0 ∨ ret = 1) ∧
      (ret = 0 → cString filled = mem.bytes string length.toNat) ∧
      (ret = 1 → (cString filled).length = outLength - 1 ∧
        (2 ≤ outLength → cString filled =
          (mem.bytes string length.toNat).take (outLength - 2) ++ [charTilde]))

theorem cString_eq_self_iff (text : List UInt8) : cString text = text ↔ ∀ c ∈ text, c ≠ 0 := by
  constructor
  · intro h
    rw [← h]
    exact cString_noNul text
  · exact cString_of_noNul text

theorem cString_append_tilde (text : List UInt8) :
    cString (text ++ [charTilde]) = text ++ [charTilde] ↔ cString text = text := by
  have htilde : charTilde ≠ 0 := by decide
  rw [cString_eq_self_iff, cString_eq_self_iff]
  simp [htilde, or_imp, forall_and]

/-- With room for the terminator alone, nothing is seen. -/
theorem printSizedString_one (c : UInt8) :
    printSizedString mem ⟨length, some string⟩ [c] 1 =
      .ok (if length.toNat < 1 then 0 else 1, [0]) := by
  by_cases hempty : length.toNat < 1
  · have hlength : length.toNat = 0 := by omega
    simp only [printSizedString, hlength, Mem.loadBytes]
    rfl
  · have hmin : min 1 length.toNat = 1 := by omega
    have hcopy := strncpyAt_zero [c] (mem.bytes string 1) (n := 1) (by simp)
    obtain ⟨d, hd⟩ := List.length_eq_one_iff.mp (strncpyBytes_length (mem.bytes string 1) 1)
    rw [hd] at hcopy
    simp only [printSizedString, hmin, Mem.loadBytes, hempty, ↓reduceIte, ok_bind, hcopy]
    rfl

/-- With more room, what is seen ends at the first NUL. -/
theorem printSizedString_seen {outLength : Nat} (hlow : 2 ≤ outLength) (out : List UInt8)
    (hout : out.length = outLength) :
    ∃ filled, printSizedString mem ⟨length, some string⟩ out outLength =
        .ok (if length.toNat < outLength then 0 else 1, filled) ∧
      cString filled = cString (seenBytes mem string length outLength ++
        if length.toNat < outLength then [] else [charTilde]) := by
  obtain ⟨filled, hcall, hseen⟩ := printSizedString_eq mem ⟨length, some string⟩ outLength
    hlow hout rfl
  refine ⟨filled, hcall, hseen.trans ?_⟩
  by_cases hshort : length.toNat < outLength
  · have hmin : min outLength length.toNat = length.toNat := by omega
    simp only [sizedText, seenBytes, hshort, ↓reduceIte, hmin, List.append_nil]
  · have hmin : min outLength length.toNat = outLength := by omega
    have htake := mem.bytes_take string (m := outLength) (n := length.toNat) (by omega)
    simp only [sizedText, seenBytes, hshort, ↓reduceIte, hmin, ← htake, List.take_take]
    rw [Nat.min_eq_left (by omega)]

/-- With room for the terminator alone, there is nothing to be seen. -/
theorem seenBytes_one : seenBytes mem string length 1 = [] := by
  have hlength := mem.bytes_length string length.toNat
  rw [seenBytes]
  split
  · exact List.eq_nil_of_length_eq_zero (by omega)
  · rfl

theorem sizedStringShown_one : SizedStringShown mem string length 1 := by
  intro out hout
  obtain ⟨c, rfl⟩ := List.length_eq_one_iff.mp hout
  refine ⟨_, _, printSizedString_one mem string length c, ?_⟩
  by_cases hempty : length.toNat < 1
  · have hnil : mem.bytes string length.toNat = [] := by
      apply List.eq_nil_of_length_eq_zero
      rw [mem.bytes_length]
      omega
    simp [hempty, hnil]
  · simp [hempty]

/-- A string that is shorter than the buffer is seen up to its first NUL. -/
theorem sizedStringShown_short {outLength : Nat} (hlow : 2 ≤ outLength)
    (hshort : length.toNat < outLength) :
    SizedStringShown mem string length outLength ↔
      cString (seenBytes mem string length outLength) = seenBytes mem string length outLength := by
  have hseenBytes : seenBytes mem string length outLength = mem.bytes string length.toNat := by
    rw [seenBytes, if_pos hshort]
  constructor
  · intro h
    obtain ⟨ret, filled, hcall, hret, -, hzero, -⟩ := h (List.replicate outLength 0)
      List.length_replicate
    obtain ⟨other, hother, hseen⟩ := printSizedString_seen mem string length hlow
      (List.replicate outLength 0) List.length_replicate
    cases hcall.symm.trans hother
    rw [hzero (hret.mpr hshort), hseenBytes, if_pos hshort, List.append_nil] at hseen
    rw [hseenBytes, ← hseen]
  · intro hself out hout
    obtain ⟨filled, hcall, hseen⟩ := printSizedString_seen mem string length hlow out hout
    rw [if_pos hshort] at hcall
    rw [if_pos hshort, List.append_nil, hself, hseenBytes] at hseen
    refine ⟨0, filled, hcall, iff_of_true rfl hshort, .inl rfl, fun _ => hseen, ?_⟩
    rintro ⟨⟩

/-- A longer one is seen up to its first NUL, or up to the mark. -/
theorem sizedStringShown_long {outLength : Nat} (hlow : 2 ≤ outLength)
    (hlong : ¬ length.toNat < outLength) :
    SizedStringShown mem string length outLength ↔
      cString (seenBytes mem string length outLength ++ [charTilde]) =
        seenBytes mem string length outLength ++ [charTilde] := by
  have hlength := mem.bytes_length string length.toNat
  have hseenBytes : seenBytes mem string length outLength =
      (mem.bytes string length.toNat).take (outLength - 2) := by
    rw [seenBytes, if_neg hlong]
  rw [hseenBytes]
  constructor
  · intro h
    obtain ⟨ret, filled, hcall, hret, hcodes, -, hone⟩ := h (List.replicate outLength 0)
      List.length_replicate
    obtain ⟨other, hother, hseen⟩ := printSizedString_seen mem string length hlow
      (List.replicate outLength 0) List.length_replicate
    cases hcall.symm.trans hother
    rw [(hone (hcodes.resolve_left (mt hret.mp hlong))).2 hlow, hseenBytes, if_neg hlong] at hseen
    exact hseen.symm
  · intro hself out hout
    obtain ⟨filled, hcall, hseen⟩ := printSizedString_seen mem string length hlow out hout
    rw [if_neg hlong] at hcall
    rw [if_neg hlong, hseenBytes, hself] at hseen
    refine ⟨1, filled, hcall, iff_of_false (by omega) hlong, .inr rfl, by rintro ⟨⟩, ?_⟩
    intro _
    refine ⟨?_, fun _ => hseen⟩
    rw [hseen, List.length_append, List.length_take, List.length_singleton]
    omega

/-- The law holds exactly if there is no NUL in what is meant to be seen. -/
theorem sizedStringShown_iff (outLength : Nat) (hlow : 1 ≤ outLength) :
    SizedStringShown mem string length outLength ↔
      ∀ c ∈ seenBytes mem string length outLength, c ≠ 0 := by
  rw [← cString_eq_self_iff]
  rcases Nat.eq_or_lt_of_le hlow with rfl | hmore
  · have hself : cString (seenBytes mem string length 1) = seenBytes mem string length 1 := by
      rw [seenBytes_one]
      rfl
    exact iff_of_true (sizedStringShown_one mem string length) hself
  by_cases hshort : length.toNat < outLength
  · exact sizedStringShown_short mem string length hmore hshort
  · rw [sizedStringShown_long mem string length hmore hshort, cString_append_tilde]

/-- The equivalence at a method name in the buffer of the screens. -/
theorem sizedStringShown_iff_screen :
    SizedStringShown (Mem.ofBytes (ascii "Transfer")) ⟨(), 0⟩ 8 45 ↔
      ∀ c ∈ seenBytes (Mem.ofBytes (ascii "Transfer")) ⟨(), 0⟩ 8 45, c ≠ 0 :=
  sizedStringShown_iff (Mem.ofBytes (ascii "Transfer")) ⟨(), 0⟩ 8 45 (by decide)

/-- A name that begins with a NUL is shown as the empty one, whole or cut. -/
theorem printSizedString_hides_name :
    ¬ SizedStringShown (Mem.ofBytes [0, 65, 65]) ⟨(), 0⟩ 3 45 ∧
      ¬ SizedStringShown (Mem.ofBytes [0, 65, 65]) ⟨(), 0⟩ 3 3 := by
  constructor
  · intro h
    obtain ⟨ret, filled, hcall, hret, -, hzero, -⟩ := h (List.replicate 45 0) rfl
    have htext := hzero (hret.mpr (by decide))
    cases hcall
    exact absurd htext (by decide)
  · intro h
    obtain ⟨ret, filled, hcall, hret, hcodes, -, hone⟩ := h (List.replicate 3 0) rfl
    have htext := (hone (hcodes.resolve_left (mt hret.mp (by decide)))).1
    cases hcall
    exact absurd htext (by decide)

end SizedStrings

end AelfApp.Libsol
