import AelfApp.Lib.Memory
import Mathlib.Data.Nat.Digits.Lemmas

/-!
Formats made of self-delimiting fields, one behind the other. A byte string
has at most one beginning that is whole. It can also stop short: it holds some
whole fields and ends where the next one would be read. The two exclude each
other, and a parser that only looks for leftover bytes cannot tell them apart.
-/

namespace AelfApp.Wire

section LittleEndian

/-- The number that bytes spell, least significant first. -/
def leNat (bytes : List UInt8) : Nat := Nat.ofDigits 256 (bytes.map UInt8.toNat)

/-- The `width` low bytes of a number, least significant first. -/
def leBytes : Nat → Nat → List UInt8
  | 0, _ => []
  | width + 1, n => UInt8.ofNat (n % 256) :: leBytes width (n / 256)

@[simp] theorem leNat_nil : leNat [] = 0 := rfl

@[simp] theorem leNat_cons (b : UInt8) (bytes : List UInt8) :
    leNat (b :: bytes) = b.toNat + 256 * leNat bytes := by
  simp [leNat, Nat.ofDigits_cons]

@[simp] theorem leBytes_length (width n : Nat) : (leBytes width n).length = width := by
  induction width generalizing n with
  | zero => rfl
  | succ width ih => simp [leBytes, ih]

theorem leNat_leBytes {width n : Nat} (h : n < 256 ^ width) : leNat (leBytes width n) = n := by
  induction width generalizing n with
  | zero =>
      have hzero : n = 0 := by simpa using h
      simp [leBytes, hzero]
  | succ width ih =>
      have hrest : n / 256 < 256 ^ width := by
        rw [Nat.div_lt_iff_lt_mul (by omega), ← Nat.pow_succ]
        exact h
      have hbyte : (UInt8.ofNat (n % 256)).toNat = n % 256 := by
        simp only [UInt8.toNat_ofNat']
        omega
      rw [leBytes, leNat_cons, hbyte, ih hrest]
      omega

theorem leNat_lt (bytes : List UInt8) : leNat bytes < 256 ^ bytes.length := by
  induction bytes with
  | nil => simp
  | cons b bytes ih =>
      have hb := b.toNat_lt
      rw [leNat_cons, List.length_cons, Nat.pow_succ]
      omega

theorem leNat_append (a b : List UInt8) : leNat (a ++ b) = leNat a + 256 ^ a.length * leNat b := by
  rw [leNat, List.map_append, Nat.ofDigits_append, List.length_map]
  rfl

end LittleEndian

/-- A code for the length of what follows. `Dangling` byte strings end before
the code says how long. -/
structure PrefixCode where
  Announces : List UInt8 → Nat → Prop
  Dangling : List UInt8 → Prop
  unique : ∀ {a b r t : List UInt8} {m n : Nat},
    Announces a m → Announces b n → a ++ r = b ++ t → a = b ∧ m = n
  dangling : ∀ {a r : List UInt8} {n : Nat}, Dangling (a ++ r) → ¬ Announces a n

/-- A format: the byte strings that are whole, and those that stop short,
ending where the next field would be read. -/
structure Format where
  Whole : List UInt8 → Prop
  Short : List UInt8 → Prop
  unique : ∀ {a b r t : List UInt8}, Whole a → Whole b → a ++ r = b ++ t → a = b
  short : ∀ {a r : List UInt8}, Short (a ++ r) → ¬ Whole a

namespace Format

/-- One field of fixed size, read only if all of it is there. -/
def fixed (size : Nat) (h : 0 < size) : Format where
  Whole a := a.length = size
  Short a := a = []
  unique ha hb hab := (List.append_inj hab (ha.trans hb.symm)).1
  short := by
    rintro a r hshort rfl
    rw [List.append_eq_nil_iff] at hshort
    simp [hshort.1] at h

/-- A length and that many bytes. It stops short inside the length, or right
behind a length that is not zero. -/
def counted (code : PrefixCode) : Format where
  Whole a := ∃ front data, code.Announces front data.length ∧ a = front ++ data
  Short a := code.Dangling a ∨ ∃ n, 0 < n ∧ code.Announces a n
  unique := by
    rintro a b r t ⟨front, data, hfront, rfl⟩ ⟨other, more, hother, rfl⟩ hab
    simp only [List.append_assoc] at hab
    obtain ⟨rfl, hlength⟩ := code.unique hfront hother hab
    rw [List.append_cancel_left_eq] at hab
    rw [(List.append_inj hab hlength).1]
  short := by
    rintro a r hshort ⟨front, data, hfront, rfl⟩
    rw [List.append_assoc] at hshort
    rcases hshort with hdangling | ⟨n, hpos, hannounces⟩
    · exact code.dangling hdangling hfront
    · obtain ⟨hsame, hlength⟩ := code.unique hannounces hfront
        (List.append_nil (front ++ (data ++ r)))
      have hempty : data ++ r = [] := by
        simpa using hsame
      rw [List.append_eq_nil_iff] at hempty
      simp [hempty.1] at hlength
      omega

/-- One format behind another, with nothing between them. -/
def followedBy (first second : Format) : Format where
  Whole a := ∃ front back, first.Whole front ∧ second.Whole back ∧ a = front ++ back
  Short a := first.Short a ∨ ∃ front back, first.Whole front ∧ second.Short back ∧ a = front ++ back
  unique := by
    rintro a b r t ⟨front, back, hfront, hback, rfl⟩ ⟨other, last, hother, hlast, rfl⟩ hab
    simp only [List.append_assoc] at hab
    obtain rfl := first.unique hfront hother hab
    rw [List.append_cancel_left_eq] at hab
    rw [second.unique hback hlast hab]
  short := by
    rintro a r hshort ⟨front, back, hfront, hback, rfl⟩
    rw [List.append_assoc] at hshort
    rcases hshort with hhere | ⟨other, last, hother, hlast, hbytes⟩
    · exact first.short hhere hfront
    · obtain rfl := first.unique hfront hother hbytes
      rw [List.append_cancel_left_eq] at hbytes
      rw [← hbytes] at hlast
      exact second.short hlast hback

/-- What stops short is not whole. -/
theorem not_whole_of_short (format : Format) {a : List UInt8} (h : format.Short a) :
    ¬ format.Whole a :=
  format.short (r := []) (by simpa using h)

end Format

section Continuation

/-- Seven bits a byte, least significant first, in at most as many bytes as
the first argument says. The top bit asks for one more byte, and the last byte
allowed has its top bit ignored. -/
inductive Continued : Nat → List UInt8 → Nat → Prop where
  | last {room : Nat} {b : UInt8} (h : b.toNat < 128) : Continued (room + 1) [b] b.toNat
  | full {b : UInt8} (h : 128 ≤ b.toNat) : Continued 1 [b] (b.toNat - 128)
  | more {room n : Nat} {b : UInt8} {bytes : List UInt8} (h : 128 ≤ b.toNat)
      (hrest : Continued (room + 1) bytes n) :
      Continued (room + 2) (b :: bytes) (b.toNat - 128 + 128 * n)

theorem Continued.unique {room m n : Nat} {a b r t : List UInt8} (ha : Continued room a m)
    (hb : Continued room b n) (hab : a ++ r = b ++ t) : a = b ∧ m = n := by
  induction ha generalizing b n with
  | last h =>
      cases hb with
      | last _ =>
          obtain ⟨rfl, _⟩ := List.cons_eq_cons.mp hab
          exact ⟨rfl, rfl⟩
      | full hother =>
          obtain ⟨rfl, _⟩ := List.cons_eq_cons.mp hab
          omega
      | more hother _ =>
          obtain ⟨rfl, _⟩ := List.cons_eq_cons.mp hab
          omega
  | full h =>
      cases hb with
      | last hother =>
          obtain ⟨rfl, _⟩ := List.cons_eq_cons.mp hab
          omega
      | full _ =>
          obtain ⟨rfl, _⟩ := List.cons_eq_cons.mp hab
          exact ⟨rfl, rfl⟩
  | more h _ ih =>
      cases hb with
      | last hother =>
          obtain ⟨rfl, _⟩ := List.cons_eq_cons.mp hab
          omega
      | more _ hrest =>
          obtain ⟨rfl, htail⟩ := List.cons_eq_cons.mp hab
          obtain ⟨rfl, rfl⟩ := ih hrest htail
          exact ⟨rfl, rfl⟩

/-- The bytes so far all ask for another one. -/
def Continuing (room : Nat) (bytes : List UInt8) : Prop :=
  bytes.length < room ∧ ∀ b ∈ bytes, 128 ≤ b.toNat

theorem Continuing.not_continued {room n : Nat} {a r : List UInt8}
    (h : Continuing room (a ++ r)) : ¬ Continued room a n := by
  intro ha
  induction ha with
  | @last _ b hlow =>
      have hhigh := h.2 b (by simp)
      omega
  | full _ =>
      have hlength := h.1
      simp at hlength
  | more _ _ ih =>
      refine ih ⟨?_, fun b hb => h.2 b (by simp_all)⟩
      have hlength := h.1
      simp only [List.cons_append, List.length_cons] at hlength
      omega

/-- A byte string asks for more, or begins with a whole number. -/
theorem continuing_or_continued (room : Nat) (bytes : List UInt8) :
    Continuing (room + 1) bytes ∨
      ∃ front after n, bytes = front ++ after ∧ Continued (room + 1) front n := by
  induction room generalizing bytes with
  | zero =>
      cases bytes with
      | nil => exact .inl ⟨by simp, by simp⟩
      | cons b after =>
          by_cases hlow : b.toNat < 128
          · exact .inr ⟨[b], after, _, rfl, .last hlow⟩
          · exact .inr ⟨[b], after, _, rfl, .full (by omega)⟩
  | succ room ih =>
      cases bytes with
      | nil => exact .inl ⟨by simp, by simp⟩
      | cons b tail =>
          by_cases hlow : b.toNat < 128
          · exact .inr ⟨[b], tail, _, rfl, .last hlow⟩
          have hhigh : 128 ≤ b.toNat := by omega
          rcases ih tail with ⟨hlength, hall⟩ | ⟨front, after, n, rfl, hfront⟩
          · refine .inl ⟨by simpa using hlength, ?_⟩
            intro c hc
            rcases List.mem_cons.mp hc with rfl | hmem
            · exact hhigh
            · exact hall c hmem
          · exact .inr ⟨b :: front, after, _, rfl, .more hhigh hfront⟩

/-- The code of `Continued`, with room for so many bytes. -/
def continuation (room : Nat) : PrefixCode where
  Announces := Continued room
  Dangling := Continuing room
  unique := Continued.unique
  dangling := Continuing.not_continued

/-- The shortest form of a number in the code. -/
def continuationBytes : Nat → Nat → List UInt8
  | 0, _ => []
  | room + 1, n =>
    if n < 128 then [UInt8.ofNat n]
    else UInt8.ofNat (128 + n % 128) :: continuationBytes room (n / 128)

theorem continued_continuationBytes {room n : Nat} (h : n < 128 ^ (room + 1)) :
    Continued (room + 1) (continuationBytes (room + 1) n) n := by
  induction room generalizing n with
  | zero =>
      have hlow : n < 128 := by simpa using h
      have hbyte : (UInt8.ofNat n).toNat = n := by
        simp only [UInt8.toNat_ofNat']
        omega
      have hlast : Continued 1 _ _ := Continued.last (hbyte.trans_lt hlow)
      rw [hbyte] at hlast
      simpa [continuationBytes, hlow] using hlast
  | succ room ih =>
      by_cases hlow : n < 128
      · have hbyte : (UInt8.ofNat n).toNat = n := by
          simp only [UInt8.toNat_ofNat']
          omega
        have hlast : Continued (room + 2) _ _ := Continued.last (hbyte.trans_lt hlow)
        rw [hbyte] at hlast
        simpa [continuationBytes, hlow] using hlast
      · have hbyte : (UInt8.ofNat (128 + n % 128)).toNat = 128 + n % 128 := by
          simp only [UInt8.toNat_ofNat']
          omega
        have hrest : n / 128 < 128 ^ (room + 1) := by
          rw [Nat.div_lt_iff_lt_mul (by decide), ← Nat.pow_succ]
          exact h
        have hmore := Continued.more (b := UInt8.ofNat (128 + n % 128)) (by omega) (ih hrest)
        have hvalue : 128 + n % 128 - 128 + 128 * (n / 128) = n := by omega
        rw [hbyte, hvalue] at hmore
        rw [continuationBytes, if_neg hlow]
        exact hmore

end Continuation

/-- A length in so many bytes, least significant first, read only if all of
them are there. -/
def littleEndian (width : Nat) (h : 0 < width) : PrefixCode where
  Announces a n := a.length = width ∧ leNat a = n
  Dangling a := a = []
  unique := by
    rintro a b r t m n ⟨ha, rfl⟩ ⟨hb, rfl⟩ hab
    obtain ⟨rfl, _⟩ := List.append_inj hab (ha.trans hb.symm)
    exact ⟨rfl, rfl⟩
  dangling := by
    rintro a r n hempty ⟨rfl, _⟩
    rw [List.append_eq_nil_iff] at hempty
    simp [hempty.1] at h

end AelfApp.Wire
