import AelfApp.Lib.Memory
import Mathlib.Data.List.TakeWhile
import Mathlib.Data.Nat.Digits.Lemmas

/-!
Numerals as texts: canonical decimals with a fraction, and the numeral of a
byte string in any radix, where each leading zero byte gets a digit of its
own. A text determines the number it spells, which is what makes showing it
to a user worth anything.
-/

namespace AelfApp.Numeral

open Memory

def charZero : UInt8 := 0x30
def charPoint : UInt8 := 0x2E

/-- The character of a decimal digit. -/
def digitChar (digit : Nat) : UInt8 := UInt8.ofNat digit + charZero

section Digits

/-- The decimal digits of a number, units first. Zero has one digit. -/
def unitsFirst (n : Nat) : List Nat := if n = 0 then [0] else Nat.digits 10 n

/-- So many low decimal digits of a number, units first. -/
def lowDigits : Nat → Nat → List Nat
  | 0, _ => []
  | count + 1, n => n % 10 :: lowDigits count (n / 10)

theorem unitsFirst_eq (n : Nat) :
    unitsFirst n = n % 10 :: if n / 10 = 0 then [] else unitsFirst (n / 10) := by
  by_cases hn : n = 0
  · simp [unitsFirst, hn]
  rw [unitsFirst, if_neg hn, Nat.digits_def' (by omega) (Nat.pos_of_ne_zero hn)]
  by_cases hrest : n / 10 = 0
  · simp [hrest]
  · simp [hrest, unitsFirst]

theorem unitsFirst_ne_nil (n : Nat) : unitsFirst n ≠ [] := by
  rw [unitsFirst_eq]
  exact List.cons_ne_nil _ _

theorem unitsFirst_lt {n d : Nat} (h : d ∈ unitsFirst n) : d < 10 := by
  unfold unitsFirst at h
  split at h
  · simp only [List.mem_singleton] at h
    omega
  · exact Nat.digits_lt_base (by omega) h

theorem ofDigits_unitsFirst (n : Nat) : Nat.ofDigits 10 (unitsFirst n) = n := by
  unfold unitsFirst
  split
  · rename_i hn
    simp [hn]
  · exact Nat.ofDigits_digits 10 n

@[simp] theorem lowDigits_length (count n : Nat) : (lowDigits count n).length = count := by
  induction count generalizing n with
  | zero => rfl
  | succ count ih => simp [lowDigits, ih]

theorem lowDigits_lt {count n d : Nat} (h : d ∈ lowDigits count n) : d < 10 := by
  induction count generalizing n with
  | zero => cases h
  | succ count ih =>
      rcases List.mem_cons.mp h with rfl | hrest
      · exact Nat.mod_lt _ (by omega)
      · exact ih hrest

theorem ofDigits_lowDigits (count n : Nat) :
    Nat.ofDigits 10 (lowDigits count n) = n % 10 ^ count := by
  induction count generalizing n with
  | zero => simp [lowDigits, Nat.mod_one]
  | succ count ih =>
      rw [lowDigits, Nat.ofDigits_cons, ih, Nat.pow_succ', Nat.mod_mul]

theorem digitChar_toNat {d : Nat} (h : d < 10) : (digitChar d).toNat = d + 48 := by
  have hzero : charZero.toNat = 48 := rfl
  simp only [digitChar, UInt8.toNat_add, UInt8.toNat_ofNat', hzero]
  omega

theorem digitChar_ne_point {d : Nat} (h : d < 10) : digitChar d ≠ charPoint := by
  intro heq
  have hchar := congrArg UInt8.toNat heq
  have hpoint : charPoint.toNat = 46 := rfl
  rw [digitChar_toNat h, hpoint] at hchar
  omega

theorem digitChar_ne_nul {d : Nat} (h : d < 10) : digitChar d ≠ 0 := by
  intro heq
  have hchar := congrArg UInt8.toNat heq
  rw [digitChar_toNat h] at hchar
  cases hchar

/-- A digit comes behind every sign in the character set. -/
theorem digitChar_ne_of_lt {d : Nat} {c : UInt8} (h : d < 10) (hc : c.toNat < 48) :
    digitChar d ≠ c := by
  rintro rfl
  rw [digitChar_toNat h] at hc
  omega

theorem digitChar_eq_zero {d : Nat} (h : d < 10) : digitChar d = charZero ↔ d = 0 := by
  constructor
  · intro heq
    have hchar := congrArg UInt8.toNat heq
    have hzero : charZero.toNat = 48 := rfl
    rw [digitChar_toNat h, hzero] at hchar
    omega
  · rintro rfl
    decide

/-- Different digits have different characters. -/
theorem map_digitChar_injective {a b : List Nat} (ha : ∀ d ∈ a, d < 10) (hb : ∀ d ∈ b, d < 10)
    (h : a.map digitChar = b.map digitChar) : a = b := by
  have hback : ∀ l : List Nat, (∀ d ∈ l, d < 10) →
      (l.map digitChar).map (fun c => c.toNat - 48) = l := by
    intro l hl
    rw [List.map_map]
    conv_rhs => rw [← List.map_id l]
    apply List.map_congr_left
    intro d hd
    simp [digitChar_toNat (hl d hd)]
  rw [← hback a ha, ← hback b hb, h]

end Digits

section Decimals

/-- The canonical numeral of a natural number. -/
def numeral (n : Nat) : List UInt8 := (unitsFirst n).reverse.map digitChar

/-- The fraction of a decimal, with its point unless it is empty. -/
def pointed (fraction : List Nat) : List UInt8 :=
  if fraction = [] then [] else charPoint :: fraction.map digitChar

/-- The digits of `n / 10 ^ decimals` behind the point, without the zeros at
their end. -/
def fractionDigits (decimals n : Nat) : List Nat :=
  ((lowDigits decimals n).dropWhile (· = 0)).reverse

/-- The canonical numeral of `n / 10 ^ decimals`. -/
def decimalText (decimals n : Nat) : List UInt8 :=
  numeral (n / 10 ^ decimals) ++ pointed (fractionDigits decimals n)

/-- A canonical decimal with its exact value: a canonical whole part, and a
fraction that does not end in a zero. -/
def IsDecimal (text : List UInt8) (value : ℚ) : Prop :=
  ∃ (whole : Nat) (fraction : List Nat), (∀ d ∈ fraction, d < 10) ∧
    fraction.getLast? ≠ some 0 ∧ text = numeral whole ++ pointed fraction ∧
    value = whole + (Nat.ofDigits 10 fraction.reverse : Nat) / 10 ^ fraction.length

theorem numeral_length (n : Nat) : (numeral n).length = (unitsFirst n).length := by
  rw [numeral, List.length_map, List.length_reverse]

theorem numeral_ne_point {n : Nat} {c : UInt8} (h : c ∈ numeral n) : c ≠ charPoint := by
  obtain ⟨d, hd, rfl⟩ := List.mem_map.mp h
  exact digitChar_ne_point (unitsFirst_lt (List.mem_reverse.mp hd))

/-- A numeral has digits only. -/
theorem numeral_ne_cons (n : Nat) {c : UInt8} (rest : List UInt8) (hc : c.toNat < 48) :
    numeral n ≠ c :: rest := by
  intro h
  have hmem : c ∈ numeral n := by
    rw [h]
    exact List.mem_cons_self
  obtain ⟨d, hd, hchar⟩ := List.mem_map.mp hmem
  exact digitChar_ne_of_lt (unitsFirst_lt (List.mem_reverse.mp hd)) hc hchar

theorem numeral_noNul (n : Nat) : ∀ c ∈ numeral n, c ≠ 0 := by
  intro c hc
  obtain ⟨d, hd, rfl⟩ := List.mem_map.mp hc
  exact digitChar_ne_nul (unitsFirst_lt (List.mem_reverse.mp hd))

theorem numeral_injective {m n : Nat} (h : numeral m = numeral n) : m = n := by
  have hdigits := map_digitChar_injective (fun d hd => unitsFirst_lt (List.mem_reverse.mp hd))
    (fun d hd => unitsFirst_lt (List.mem_reverse.mp hd)) h
  rw [← ofDigits_unitsFirst m, ← ofDigits_unitsFirst n, List.reverse_injective hdigits]

theorem pointed_injective {a b : List Nat} (ha : ∀ d ∈ a, d < 10) (hb : ∀ d ∈ b, d < 10)
    (h : pointed a = pointed b) : a = b := by
  unfold pointed at h
  split at h <;> split at h
  · rename_i hnil hnil'
    rw [hnil, hnil']
  · cases h
  · cases h
  · exact map_digitChar_injective ha hb (List.cons.inj h).2

/-- A text is the decimal of at most one value. -/
theorem IsDecimal.unique {text : List UInt8} {p q : ℚ} (hp : IsDecimal text p)
    (hq : IsDecimal text q) : p = q := by
  obtain ⟨m, a, ha, _, rfl, rfl⟩ := hp
  obtain ⟨n, b, hb, _, htext, rfl⟩ := hq
  have hsplit : ∀ (k : Nat) (f : List Nat),
      (numeral k ++ pointed f).takeWhile (· ≠ charPoint) = numeral k := by
    intro k f
    rw [List.takeWhile_append_of_pos (by simpa using fun c hc => numeral_ne_point hc)]
    unfold pointed
    split <;> simp
  have hwhole := congrArg (List.takeWhile (· ≠ charPoint)) htext
  rw [hsplit, hsplit] at hwhole
  rw [hwhole, List.append_cancel_left_eq] at htext
  rw [numeral_injective hwhole, pointed_injective ha hb htext]

theorem fractionDigits_lt {decimals n d : Nat} (h : d ∈ fractionDigits decimals n) : d < 10 :=
  lowDigits_lt ((List.dropWhile_suffix _).mem (List.mem_reverse.mp h))

/-- A fraction does not end in a zero. -/
theorem fractionDigits_getLast? {decimals n last : Nat}
    (h : (fractionDigits decimals n).getLast? = some last) : last ≠ 0 := by
  rintro rfl
  rw [fractionDigits, List.getLast?_reverse] at h
  have hzero := List.head?_dropWhile_not (· = 0) (lowDigits decimals n)
  rw [h] at hzero
  simp at hzero

/-- The digits of a number are zeros and then the reverse of the fraction. -/
theorem lowDigits_eq (decimals n : Nat) :
    ∃ zeros, lowDigits decimals n = List.replicate zeros 0 ++ (fractionDigits decimals n).reverse ∧
      zeros + (fractionDigits decimals n).length = decimals := by
  have hsplit := List.takeWhile_append_dropWhile (p := (· = 0)) (l := lowDigits decimals n)
  have hzeros : (lowDigits decimals n).takeWhile (· = 0) =
      List.replicate ((lowDigits decimals n).takeWhile (· = 0)).length 0 := by
    rw [List.eq_replicate_iff]
    exact ⟨rfl, fun d hd => by simpa using List.mem_takeWhile_imp hd⟩
  refine ⟨((lowDigits decimals n).takeWhile (· = 0)).length, ?_, ?_⟩
  · rw [← hzeros, fractionDigits, List.reverse_reverse, hsplit]
  · have hlength := congrArg List.length hsplit
    rw [List.length_append, lowDigits_length] at hlength
    rwa [fractionDigits, List.length_reverse]

theorem isDecimal_decimalText (decimals n : Nat) :
    IsDecimal (decimalText decimals n) ((n : ℚ) / 10 ^ decimals) := by
  refine ⟨n / 10 ^ decimals, fractionDigits decimals n, fun d hd => fractionDigits_lt hd,
    ?_, rfl, ?_⟩
  · intro hlast
    exact fractionDigits_getLast? hlast rfl
  · obtain ⟨zeros, hlow, hlength⟩ := lowDigits_eq decimals n
    have hvalue := ofDigits_lowDigits decimals n
    rw [hlow, Nat.ofDigits_append, Nat.ofDigits_replicate_zero, List.length_replicate,
      Nat.zero_add] at hvalue
    have hsum := Nat.div_add_mod n (10 ^ decimals)
    have hpow : (10 : ℚ) ^ decimals =
        10 ^ zeros * 10 ^ (fractionDigits decimals n).length := by
      rw [← pow_add, hlength]
    have hn : (n : ℚ) = 10 ^ decimals * (n / 10 ^ decimals : Nat) +
        10 ^ zeros * (Nat.ofDigits 10 (fractionDigits decimals n).reverse : Nat) := by
      rw [← hvalue] at hsum
      exact_mod_cast hsum.symm
    rw [hn, hpow]
    field_simp

/-- Amounts with the same number of decimals and the same text are the same. -/
theorem decimalText_injective {decimals m n : Nat}
    (h : decimalText decimals m = decimalText decimals n) : m = n := by
  have hm := isDecimal_decimalText decimals m
  rw [h] at hm
  have hvalue := hm.unique (isDecimal_decimalText decimals n)
  have hpos : (10 : ℚ) ^ decimals ≠ 0 := pow_ne_zero _ (by norm_num)
  field_simp at hvalue
  exact_mod_cast hvalue

end Decimals

section Radix

/-- The number that bytes spell, most significant first. -/
def beNat (bytes : List UInt8) : Nat := Nat.ofDigits 256 (bytes.reverse.map UInt8.toNat)

@[simp] theorem beNat_nil : beNat [] = 0 := rfl

@[simp] theorem beNat_cons (b : UInt8) (bytes : List UInt8) :
    beNat (b :: bytes) = b.toNat * 256 ^ bytes.length + beNat bytes := by
  simp only [beNat, List.reverse_cons, List.map_append, List.map_cons, List.map_nil,
    Nat.ofDigits_append, Nat.ofDigits_singleton, List.length_map, List.length_reverse]
  rw [Nat.add_comm, Nat.mul_comm]

theorem toNat_lt_of_mem_map {bytes : List UInt8} {d : Nat} (h : d ∈ bytes.map UInt8.toNat) :
    d < 256 := by
  obtain ⟨b, _, rfl⟩ := List.mem_map.mp h
  exact b.toNat_lt

theorem beNat_lt (bytes : List UInt8) : beNat bytes < 256 ^ bytes.length := by
  have hlt := Nat.ofDigits_lt_base_pow_length (b := 256) (l := bytes.reverse.map UInt8.toNat)
    (by omega) (fun _ hd => toNat_lt_of_mem_map hd)
  simpa [beNat] using hlt

/-- Byte strings of one length spell different numbers. -/
theorem beNat_injective {a b : List UInt8} (hlength : a.length = b.length)
    (h : beNat a = beNat b) : a = b := by
  have hsame : (a.reverse.map UInt8.toNat).length = (b.reverse.map UInt8.toNat).length := by
    simpa using hlength
  have hdigits := Nat.ofDigits_inj_of_len_eq (b := 256) (by omega) hsame
    (fun _ hd => toNat_lt_of_mem_map hd) (fun _ hd => toNat_lt_of_mem_map hd) h
  have hreverse := List.map_injective_iff.mpr (fun x y hxy => UInt8.toNat_inj.mp hxy) hdigits
  exact List.reverse_injective hreverse

def leadingZeros (bytes : List UInt8) : Nat := (bytes.takeWhile (· = 0)).length

/-- The digits of a byte string in a radix: a zero for each leading zero byte,
and behind them the number's digits, which begin with another one. -/
def radixDigits (radix : Nat) (bytes : List UInt8) : List Nat :=
  List.replicate (leadingZeros bytes) 0 ++ (Nat.digits radix (beNat bytes)).reverse

variable {radix : Nat}

theorem leadingZeros_le (bytes : List UInt8) : leadingZeros bytes ≤ bytes.length :=
  (List.takeWhile_sublist _).length_le

theorem drop_leadingZeros_eq (bytes : List UInt8) :
    bytes.drop (leadingZeros bytes) = bytes.dropWhile (· = 0) := by
  have hsplit := List.takeWhile_append_dropWhile (p := (· = 0)) (l := bytes)
  calc bytes.drop (leadingZeros bytes)
      = (bytes.takeWhile (· = 0) ++ bytes.dropWhile (· = 0)).drop (leadingZeros bytes) := by
        rw [hsplit]
    _ = bytes.dropWhile (· = 0) := List.drop_left

theorem drop_leadingZeros (bytes : List UInt8) :
    bytes = List.replicate (leadingZeros bytes) 0 ++ bytes.drop (leadingZeros bytes) := by
  have hzeros : bytes.takeWhile (· = 0) = List.replicate (leadingZeros bytes) 0 := by
    rw [List.eq_replicate_iff]
    exact ⟨rfl, fun b hb => by simpa using List.mem_takeWhile_imp hb⟩
  rw [← hzeros, drop_leadingZeros_eq, List.takeWhile_append_dropWhile]

theorem beNat_zeros_append (count : Nat) (bytes : List UInt8) :
    beNat (List.replicate count 0 ++ bytes) = beNat bytes := by
  induction count with
  | zero => simp
  | succ count ih => simp [List.replicate_succ, ih]

theorem beNat_drop_leadingZeros (bytes : List UInt8) :
    beNat (bytes.drop (leadingZeros bytes)) = beNat bytes := by
  conv_rhs => rw [drop_leadingZeros bytes]
  rw [beNat_zeros_append]

/-- The digits spell the number. -/
theorem ofDigits_radixDigits (radix : Nat) (bytes : List UInt8) :
    Nat.ofDigits radix (radixDigits radix bytes).reverse = beNat bytes := by
  rw [radixDigits, List.reverse_append, List.reverse_reverse, List.reverse_replicate,
    Nat.ofDigits_append_replicate_zero, Nat.ofDigits_digits]

theorem radixDigits_lt (hradix : 1 < radix) {bytes : List UInt8} {d : Nat}
    (h : d ∈ radixDigits radix bytes) : d < radix := by
  rcases List.mem_append.mp h with hzero | hdigit
  · have hd := List.eq_of_mem_replicate hzero
    omega
  · exact Nat.digits_lt_base hradix (List.mem_reverse.mp hdigit)

/-- Byte strings of one length have different digits. -/
theorem radixDigits_injective {a b : List UInt8} (hlength : a.length = b.length)
    (h : radixDigits radix a = radixDigits radix b) : a = b := by
  apply beNat_injective hlength
  rw [← ofDigits_radixDigits radix a, h, ofDigits_radixDigits]

/-- The bytes of a number, most significant first and without a leading zero. -/
def beBytes (n : Nat) : List UInt8 := (Nat.digits 256 n).reverse.map UInt8.ofNat

/-- The byte string that digits stand for: a zero byte for each leading zero,
and behind them the bytes of the number that the digits spell. -/
def radixBytes (radix : Nat) (digits : List Nat) : List UInt8 :=
  List.replicate (digits.takeWhile (· = 0)).length 0 ++ beBytes (Nat.ofDigits radix digits.reverse)

/-- Bytes that do not begin with a zero are those of their number. -/
theorem beBytes_beNat {bytes : List UInt8} (h : leadingZeros bytes = 0) :
    beBytes (beNat bytes) = bytes := by
  have hback : ∀ l : List UInt8, (l.map UInt8.toNat).map UInt8.ofNat = l := by
    intro l
    rw [List.map_map]
    conv_rhs => rw [← List.map_id l]
    exact List.map_congr_left fun b _ => UInt8.ofNat_toNat
  have hlast : ∀ hne : bytes.reverse.map UInt8.toNat ≠ [],
      (bytes.reverse.map UInt8.toNat).getLast hne ≠ 0 := by
    intro hne hzero
    cases bytes with
    | nil => exact hne rfl
    | cons b rest =>
        simp only [List.reverse_cons, List.map_append, List.map_cons, List.map_nil,
          List.getLast_append_singleton] at hzero
        have hb : b = 0 := UInt8.toNat_inj.mp hzero
        simp [leadingZeros, hb] at h
  rw [beBytes, beNat, Nat.digits_ofDigits 256 (by omega) _
    (fun _ hd => toNat_lt_of_mem_map hd) hlast, ← List.map_reverse, List.reverse_reverse, hback]

/-- The number's own digits do not begin with a zero. -/
theorem takeWhile_digits (radix n : Nat) :
    (Nat.digits radix n).reverse.takeWhile (· = 0) = [] := by
  rw [List.takeWhile_eq_nil_iff]
  intro hpos
  have hne : Nat.digits radix n ≠ [] := by
    rintro hnil
    simp [hnil] at hpos
  have hn : n ≠ 0 := by
    rintro rfl
    simp at hne
  have hlast := Nat.getLast_digit_ne_zero radix hn
  rw [List.getLast_eq_getElem] at hlast
  simpa using hlast

/-- The zeros in front are those of the leading zero bytes. -/
theorem radixDigits_zeros (radix : Nat) (bytes : List UInt8) :
    ((radixDigits radix bytes).takeWhile (· = 0)).length = leadingZeros bytes := by
  rw [radixDigits, List.takeWhile_append_of_pos (by simp), takeWhile_digits, List.append_nil,
    List.length_replicate]

/-- The digits of a byte string stand for it. -/
theorem radixBytes_radixDigits (radix : Nat) (bytes : List UInt8) :
    radixBytes radix (radixDigits radix bytes) = bytes := by
  have hnone : leadingZeros (bytes.drop (leadingZeros bytes)) = 0 := by
    have hhead := List.head?_dropWhile_not (· = 0) bytes
    rw [leadingZeros, drop_leadingZeros_eq]
    cases hrest : bytes.dropWhile (· = 0) with
    | nil => rfl
    | cons b rest =>
        rw [hrest] at hhead
        simpa using hhead
  rw [radixBytes, radixDigits_zeros, ofDigits_radixDigits, ← beNat_drop_leadingZeros,
    beBytes_beNat hnone, ← drop_leadingZeros]

/-- There are no fewer digits than bytes, in a radix no larger than 256. -/
theorem length_le_radixDigits (hradix : 1 < radix) (hsmall : radix ≤ 256) (bytes : List UInt8) :
    bytes.length ≤ (radixDigits radix bytes).length := by
  have hle := leadingZeros_le bytes
  rw [radixDigits, List.length_append, List.length_replicate, List.length_reverse]
  cases hrest : bytes.drop (leadingZeros bytes) with
  | nil =>
      have hlength := congrArg List.length hrest
      rw [List.length_drop, List.length_nil] at hlength
      omega
  | cons b rest =>
      have hlength := congrArg List.length hrest
      rw [List.length_drop, List.length_cons] at hlength
      have hb : 1 ≤ b.toNat := by
        by_contra hzero
        have hb0 : b = 0 := UInt8.toNat_inj.mp (by simp; omega)
        have hhead := List.head?_dropWhile_not (· = 0) bytes
        rw [drop_leadingZeros_eq] at hrest
        rw [hrest, hb0] at hhead
        simp at hhead
      have hlow : radix ^ rest.length ≤ beNat bytes := by
        calc radix ^ rest.length ≤ 256 ^ rest.length := Nat.pow_le_pow_left hsmall _
          _ ≤ b.toNat * 256 ^ rest.length := Nat.le_mul_of_pos_left _ hb
          _ ≤ beNat (b :: rest) := by rw [beNat_cons]; omega
          _ = beNat bytes := by rw [← hrest, beNat_drop_leadingZeros]
      have hdigits := (Nat.lt_digits_length_iff hradix _).mpr hlow
      omega

/-- There are at most `count` digits if so many spell any number of the same
number of bytes. -/
theorem radixDigits_length_le (hradix : 1 < radix) (hsmall : radix ≤ 256) {count : Nat}
    {bytes : List UInt8} (hcount : 256 ^ bytes.length ≤ radix ^ count) :
    (radixDigits radix bytes).length ≤ count := by
  have hle := leadingZeros_le bytes
  have hbytes : bytes.length ≤ count := by
    by_contra hlt
    have hpow : radix ^ count < radix ^ bytes.length := Nat.pow_lt_pow_right hradix (by omega)
    have hmono : radix ^ bytes.length ≤ 256 ^ bytes.length := Nat.pow_le_pow_left hsmall _
    omega
  rw [radixDigits, List.length_append, List.length_replicate, List.length_reverse]
  have hdigits : (Nat.digits radix (beNat bytes)).length ≤ count - leadingZeros bytes := by
    rw [Nat.digits_length_le_iff hradix]
    have hlt := beNat_lt (bytes.drop (leadingZeros bytes))
    rw [beNat_drop_leadingZeros, List.length_drop] at hlt
    apply hlt.trans_le
    have hpos : 0 < radix ^ leadingZeros bytes := Nat.pow_pos (by omega)
    refine Nat.le_of_mul_le_mul_right ?_ hpos
    calc 256 ^ (bytes.length - leadingZeros bytes) * radix ^ leadingZeros bytes
        ≤ 256 ^ (bytes.length - leadingZeros bytes) * 256 ^ leadingZeros bytes :=
          Nat.mul_le_mul_left _ (Nat.pow_le_pow_left hsmall _)
      _ = 256 ^ bytes.length := by rw [← Nat.pow_add, Nat.sub_add_cancel hle]
      _ ≤ radix ^ count := hcount
      _ = radix ^ (count - leadingZeros bytes) * radix ^ leadingZeros bytes := by
          rw [← Nat.pow_add, Nat.sub_add_cancel (hle.trans hbytes)]
  omega

/-- The digits of a number, high digit first and perhaps behind zeros. -/
structure Spells (radix : Nat) (digits : List Nat) (value : Nat) : Prop where
  lt : ∀ d ∈ digits, d < radix
  value_eq : Nat.ofDigits radix digits.reverse = value

theorem Spells.append {digits : List Nat} {value low : Nat} (h : Spells radix digits value)
    (hlow : low < radix) : Spells radix (digits ++ [low]) (radix * value + low) where
  lt d hd := by
    rcases List.mem_append.mp hd with hd | hd
    · exact h.lt d hd
    · exact (List.mem_singleton.mp hd).trans_lt hlow
  value_eq := by
    rw [List.reverse_append, List.reverse_singleton, List.singleton_append, Nat.ofDigits_cons,
      h.value_eq, Nat.add_comm]

/-- Without the zeros in front they are the digits. -/
theorem Spells.dropWhile_zero (hradix : 1 < radix) {digits : List Nat} {value : Nat}
    (h : Spells radix digits value) :
    digits.dropWhile (· = 0) = (Nat.digits radix value).reverse := by
  have hsplit := List.takeWhile_append_dropWhile (p := (· = 0)) (l := digits)
  have hzeros : ∀ d ∈ (digits.takeWhile (· = 0)).reverse, d = 0 := by
    intro d hd
    simpa using List.mem_takeWhile_imp (List.mem_reverse.mp hd)
  have hzero : Nat.ofDigits radix (digits.takeWhile (· = 0)).reverse = 0 := by
    rw [List.eq_replicate_of_mem hzeros, Nat.ofDigits_replicate_zero]
  have hvalue : Nat.ofDigits radix (digits.dropWhile (· = 0)).reverse = value := by
    have hwhole := h.value_eq
    rwa [← hsplit, List.reverse_append, Nat.ofDigits_append, hzero, Nat.mul_zero,
      Nat.add_zero] at hwhole
  have hlast : ∀ hne : (digits.dropWhile (· = 0)).reverse ≠ [],
      (digits.dropWhile (· = 0)).reverse.getLast hne ≠ 0 := by
    intro hne
    have hhead := List.head_dropWhile_not (· = 0) (l := digits) (by simpa using hne)
    simpa using hhead
  have hdigits := Nat.digits_ofDigits radix hradix (digits.dropWhile (· = 0)).reverse
    (fun d hd => h.lt d (List.dropWhile_subset _ (List.mem_reverse.mp hd))) hlast
  rw [← hvalue, hdigits, List.reverse_reverse]

end Radix

end AelfApp.Numeral
