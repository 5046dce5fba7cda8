import AelfApp.Lib.Loop
import AelfApp.Libsol.Printer.Base58

/-!
The passes of the outer loop of `encode_base58`, with `tmp`, `start_at` and
the cursor as the source has them. Where the characters go is apart from that:
the loop writes `buffer` and never reads it.
-/

namespace AelfApp.Libsol

open Memory Numeral Loop

/-- What the outer loop works on. -/
structure Division where
  tmp : List UInt8
  startAt : Nat
  j : UInt8
  deriving Repr, DecidableEq

/-- The values of `remainder * 256 + digit256`, before they go into the 16 bits
of `tmp_div`. -/
def tmpDivs : List UInt8 → UInt16 → List Nat
  | [], _ => []
  | digit256 :: rest, remainder =>
    (remainder.toNat * 256 + digit256.toNat) ::
      tmpDivs rest ((remainder * 256 + digit256.toUInt16) % 58)

/-- A remainder is below 58, so the 16 bits are always enough. -/
theorem tmpDivs_lt (bytes : List UInt8) (remainder : UInt16) (h : remainder.toNat < 58) :
    ∀ tmpDiv ∈ tmpDivs bytes remainder, tmpDiv < 2 ^ 16 := by
  induction bytes generalizing remainder with
  | nil => simp [tmpDivs]
  | cons digit256 rest ih =>
      have hdigit := digit256.toNat_lt
      have hmod : ((remainder * 256 + digit256.toUInt16) % 58).toNat < 58 := by
        have h58 : (58 : UInt16).toNat = 58 := rfl
        rw [UInt16.toNat_mod, h58]
        exact Nat.mod_lt _ (by omega)
      intro tmpDiv hmem
      rcases List.mem_cons.mp hmem with rfl | hmem
      · omega
      · exact ih _ hmod tmpDiv hmem

namespace Division

/-- Before the first pass, `start_at` is behind the zeros in front. -/
def start (input : List UInt8) : Division :=
  { tmp := input, startAt := leadingZeros input, j := UInt8.ofNat (2 * input.length) }

/-- `start_at < length`. -/
def Going (d : Division) : Prop := d.startAt < d.tmp.length

def pass (d : Division) : Division :=
  let tmp := d.tmp.take d.startAt ++ (divLoop (d.tmp.drop d.startAt) 0).1
  { tmp
    startAt := if tmp[d.startAt]? = some 0 then d.startAt + 1 else d.startAt
    j := d.j - 1 }

/-- What is left to divide. -/
def rest (d : Division) : List UInt8 := d.tmp.drop d.startAt

/-- The character that a pass puts where its cursor ends. -/
def char (d : Division) : UInt8 := base58Char (divLoop d.rest 0).2.toNat

variable {d last : Division} {n : Nat}

theorem rest_eq_cons (h : d.Going) : ∃ top rest, d.rest = top :: rest := by
  have hgoing : d.startAt < d.tmp.length := h
  exact ⟨_, _, List.drop_eq_getElem_cons hgoing⟩

theorem take_length (h : d.Going) : (d.tmp.take d.startAt).length = d.startAt := by
  have hgoing : d.startAt < d.tmp.length := h
  simp only [List.length_take]
  omega

/-- A pass divides what is left, and gives up the first byte once it is zero. -/
theorem pass_rest (h : d.Going) :
    d.pass.rest =
      if (divLoop d.rest 0).1.head? = some 0 then (divLoop d.rest 0).1.tail
      else (divLoop d.rest 0).1 := by
  have htake := take_length h
  have hfirst : (d.tmp.take d.startAt ++ (divLoop d.rest 0).1)[d.startAt]? =
      (divLoop d.rest 0).1.head? := by
    rw [List.getElem?_append_right (by omega), htake, Nat.sub_self, List.head?_eq_getElem?]
  have hdrop : ∀ k, (d.tmp.take d.startAt ++ (divLoop d.rest 0).1).drop (d.startAt + k) =
      (divLoop d.rest 0).1.drop k := by
    intro k
    rw [List.drop_append, List.drop_eq_nil_of_le (by omega), htake, List.nil_append,
      Nat.add_sub_cancel_left]
  have hpass : d.pass.rest = (d.tmp.take d.startAt ++ (divLoop d.rest 0).1).drop
      (if (divLoop d.rest 0).1.head? = some 0 then d.startAt + 1 else d.startAt) := by
    rw [← hfirst]
    rfl
  rw [hpass]
  split
  · rw [hdrop 1, List.drop_one]
  · exact hdrop 0

/-- What the passes keep: the bytes before `start_at` are zero, and below the
cursor there is room for the passes that are left and the zeros in front. -/
structure Inv (zeros length : Nat) (d : Division) : Prop where
  length_eq : d.tmp.length = length
  startAt_le : d.startAt ≤ length
  reduced : d.tmp.take d.startAt = List.replicate d.startAt 0
  cursor : 2 * zeros + passes d.rest ≤ d.j.toNat
  cursor_le : d.j.toNat ≤ 2 * length

theorem start_toNat {input : List UInt8} (h : input.length ≤ base58BufferSize) :
    (start input).j.toNat = 2 * input.length := by
  have h64 : base58BufferSize = 64 := rfl
  rw [start, UInt8.toNat_ofNat']
  omega

theorem inv_start {input : List UInt8} (h : input.length ≤ base58BufferSize) :
    Inv (leadingZeros input) input.length (start input) where
  length_eq := rfl
  startAt_le := leadingZeros_le input
  reduced := by
    have hlength : (List.replicate (leadingZeros input) (0 : UInt8)).length =
        leadingZeros input := List.length_replicate
    have hsplit := congrArg (List.take (leadingZeros input)) (drop_leadingZeros input)
    rwa [List.take_append_of_le_length hlength.ge, List.take_of_length_le hlength.le] at hsplit
  cursor := by
    have hzeros := leadingZeros_le input
    have hpasses := passes_le (input.drop (leadingZeros input))
    rw [List.length_drop] at hpasses
    have hrest : (start input).rest = input.drop (leadingZeros input) := rfl
    rw [start_toNat h, hrest]
    omega
  cursor_le := (start_toNat h).le

/-- Every pass has a character's room below the cursor. -/
theorem Inv.pass_cursor {zeros length : Nat} (h : Inv zeros length d) (hgoing : d.Going) :
    d.pass.j.toNat + 1 = d.j.toNat ∧ passes d.pass.rest + 1 ≤ passes d.rest := by
  obtain ⟨top, rest, hrest⟩ := rest_eq_cons hgoing
  obtain ⟨hless, -⟩ := passes_divLoop top rest
  rw [← hrest, ← pass_rest hgoing] at hless
  have hcursor := h.cursor
  have hj : d.j.toNat = (d.j.toNat - 1) + 1 := by omega
  have hpred : d.pass.j.toNat = d.j.toNat - 1 := pred_toNat hj
  exact ⟨by omega, hless⟩

theorem Inv.pass {zeros length : Nat} (h : Inv zeros length d) (hgoing : d.Going) :
    Inv zeros length d.pass := by
  obtain ⟨hj, hless⟩ := h.pass_cursor hgoing
  have hbound : d.startAt < d.tmp.length := hgoing
  have htake := take_length hgoing
  obtain ⟨hdivided, -, -⟩ := divLoop_eq d.rest 0 (by decide)
  have hrest : d.rest.length = d.tmp.length - d.startAt := List.length_drop
  have htmp : d.pass.tmp = d.tmp.take d.startAt ++ (divLoop d.rest 0).1 := rfl
  have hlength : d.pass.tmp.length = length := by
    rw [htmp, List.length_append, htake, hdivided, hrest, ← h.length_eq]
    omega
  have hcursor := h.cursor
  have hcursor_le := h.cursor_le
  have hkept : d.pass.tmp.take d.startAt = List.replicate d.startAt 0 := by
    rw [htmp, List.take_append_of_le_length htake.ge, List.take_of_length_le htake.le, h.reduced]
  by_cases hzero : d.pass.tmp[d.startAt]? = some 0
  · have hstart : d.pass.startAt = d.startAt + 1 := if_pos hzero
    refine ⟨hlength, ?_, ?_, by omega, by omega⟩
    · rw [hstart, ← h.length_eq]
      omega
    · rw [hstart, List.take_add_one, hkept, hzero, List.replicate_succ']
      rfl
  · have hstart : d.pass.startAt = d.startAt := if_neg hzero
    refine ⟨hlength, ?_, ?_, by omega, by omega⟩
    · rw [hstart]
      exact h.startAt_le
    · rw [hstart, hkept]

/-- At the end of the loop `tmp` is zero throughout. -/
theorem Inv.tmp_eq {zeros length : Nat} (h : Inv zeros length d) (hdone : ¬ d.Going) :
    d.tmp = List.replicate length 0 := by
  have hbound : d.tmp.length ≤ d.startAt := Nat.le_of_not_lt hdone
  have hsize := h.length_eq
  have hstart : d.startAt = length := le_antisymm h.startAt_le (by omega)
  have hzero := h.reduced
  rwa [List.take_of_length_le hbound, hstart] at hzero

/-- A round of the modelled loop is a pass and the store of its character. -/
theorem base58Loop_pass (hgoing : d.Going) (fuel : Nat) (buffer : List UInt8) :
    base58Loop (fuel + 1) d.rest d.j buffer = (do
      let buffer ← writeAt buffer d.pass.j.toNat d.char
      base58Loop fuel d.pass.rest d.pass.j buffer) := by
  obtain ⟨top, rest, hrest⟩ := rest_eq_cons hgoing
  rw [pass_rest hgoing, char, hrest, base58Loop]
  rfl

/-- The modelled loop ends with the cursor of the last pass, where its
characters have room. -/
theorem base58Loop_runs {zeros length : Nat} (hruns : Runs Going pass n d last)
    (hinv : Inv zeros length d) (fuel : Nat) (hfuel : n ≤ fuel) (buffer : List UInt8)
    (hbuffer : d.j.toNat ≤ buffer.length) :
    ∃ filled, base58Loop fuel d.rest d.j buffer = .ok (last.j, filled) ∧
      filled.length = buffer.length := by
  induction hruns generalizing fuel buffer with
  | @ended d hdone =>
      have hrest : d.rest = [] := List.drop_eq_nil_of_le (Nat.le_of_not_lt hdone)
      refine ⟨buffer, ?_, rfl⟩
      rw [hrest, base58Loop]
  | @pass n d last hgoing _ ih =>
      obtain ⟨hj, -⟩ := hinv.pass_cursor hgoing
      obtain ⟨fuel, rfl⟩ : ∃ k, fuel = k + 1 := ⟨fuel - 1, by omega⟩
      have hwrite : writeAt buffer d.pass.j.toNat d.char =
          .ok (buffer.set d.pass.j.toNat d.char) := by
        simp [writeAt]
        omega
      obtain ⟨filled, hcall, hlength⟩ := ih (hinv.pass hgoing) fuel (by omega)
        (buffer.set d.pass.j.toNat d.char) (by rw [List.length_set]; omega)
      refine ⟨filled, ?_, hlength.trans List.length_set⟩
      rw [base58Loop_pass hgoing, hwrite, ok_bind, hcall]

end Division

/-- The surplus characters are passed over at most up to the end. -/
theorem skipZerosLoop_le {length : Nat} (hsize : 2 * length < 256) (fuel : Nat)
    {buffer : List UInt8} (hbuffer : 2 * length ≤ buffer.length) (j : UInt8)
    (hj : j.toNat ≤ 2 * length) (hfuel : 2 * length < fuel + j.toNat) :
    ∃ j' : UInt8, skipZerosLoop length fuel j buffer = .ok j' ∧ j.toNat ≤ j'.toNat ∧
      j'.toNat ≤ 2 * length := by
  induction fuel generalizing j with
  | zero => omega
  | succ fuel ih =>
      rw [skipZerosLoop]
      by_cases hgo : j.toNat < 2 * length
      · have hinside : j.toNat < buffer.length := by omega
        have hread := readAt_ok hinside
        have hnext : (j + 1).toNat = j.toNat + 1 := by
          have hone : (1 : UInt8).toNat = 1 := rfl
          rw [UInt8.toNat_add, hone]
          omega
        rw [if_pos hgo, hread, ok_bind]
        split
        · obtain ⟨j', hcall, hlow, hhigh⟩ := ih (j + 1) (by omega) (by omega)
          exact ⟨j', hcall, by omega, hhigh⟩
        · exact ⟨j, rfl, le_rfl, hj⟩
      · rw [if_neg hgo]
        exact ⟨j, rfl, le_rfl, hj⟩

/-- Each leading character takes the cursor down by one. -/
theorem leadingOnesLoop_cursor {count : Nat} {j : UInt8} {buffer : List UInt8}
    (hbuffer : j.toNat ≤ buffer.length) (hcount : count ≤ j.toNat) :
    ∃ (j' : UInt8) (filled : List UInt8),
      leadingOnesLoop count j buffer = .ok (j', filled) ∧ j'.toNat + count = j.toNat := by
  have hfree : (buffer.take j.toNat).length = j.toNat := by
    simp only [List.length_take]
    omega
  obtain ⟨left, j', hcall, hj', hlength⟩ := leadingOnesLoop_eq count (buffer.take j.toNat)
    (buffer.drop j.toNat) j hfree.symm (by omega)
  rw [List.take_append_drop] at hcall
  exact ⟨j', _, hcall, by omega⟩

/-- The outer loop of the encoder ends after at most two passes for each byte
that is not a leading zero, and leaves `tmp` zero. The sums of a pass fit 16
bits. The cursor goes down by one in each pass and for each leading zero, for
which there is still room when the loop ends. -/
theorem encodeBase58_cursor (input : List UInt8) (hsize : input.length ≤ base58BufferSize) :
    ∃ n last, n ≤ 2 * (input.length - leadingZeros input) ∧
      Runs Division.Going Division.pass n (Division.start input) last ∧
      last.tmp = List.replicate input.length 0 ∧
      (∀ k < n,
        let d := Division.pass^[k] (Division.start input)
        (∀ tmpDiv ∈ tmpDivs d.rest 0, tmpDiv < 2 ^ 16) ∧ d.pass.j.toNat + 1 = d.j.toNat) ∧
      leadingZeros input ≤ last.j.toNat ∧
      ∀ buffer : List UInt8, 2 * input.length ≤ buffer.length →
        ∃ filled second,
          base58Loop (2 * input.length) (input.drop (leadingZeros input))
            (UInt8.ofNat (2 * input.length)) buffer = .ok (last.j, filled) ∧
          skipZerosLoop input.length (2 * input.length + 1) last.j filled = .ok second ∧
          ∀ k ≤ leadingZeros input, ∃ j filled',
            leadingOnesLoop k second filled = .ok (j, filled') ∧ j.toNat + k = second.toNat := by
  have h64 : base58BufferSize = 64 := rfl
  have hzeros := leadingZeros_le input
  have hstart := Division.inv_start hsize
  obtain ⟨n, last, hruns, hn⟩ := exists_runs (fun d => passes d.rest)
    (fun _ => Division.Inv.pass) (fun _ hinv hgoing => (hinv.pass_cursor hgoing).2) hstart
  obtain ⟨hlast, hpasses⟩ := hruns.keeps (fun _ => Division.Inv.pass) hstart
  have hcursor := hlast.cursor
  have hmeasure : passes (Division.start input).rest =
      passes (input.drop (leadingZeros input)) := rfl
  have hcount := passes_le (input.drop (leadingZeros input))
  rw [List.length_drop] at hcount
  refine ⟨n, last, by omega, hruns, hlast.tmp_eq hruns.not_going, ?_, by omega, ?_⟩
  · intro k hk
    obtain ⟨hinv, hgoing⟩ := hpasses k hk
    exact ⟨tmpDivs_lt _ 0 (by decide), (hinv.pass_cursor hgoing).1⟩
  · intro buffer hbuffer
    have hj := Division.start_toNat hsize
    obtain ⟨filled, hcall, hlength⟩ := Division.base58Loop_runs hruns hstart (2 * input.length)
      (by omega) buffer (by omega)
    have hfilled : 2 * input.length ≤ filled.length := by omega
    obtain ⟨second, hskip, hlow, hhigh⟩ := skipZerosLoop_le (by omega) (2 * input.length + 1)
      hfilled last.j hlast.cursor_le (by omega)
    refine ⟨filled, second, hcall, hskip, fun k hk => ?_⟩
    exact leadingOnesLoop_cursor (by omega) (by omega)

/-- The bound at 64 bytes of which the first is zero. -/
theorem encodeBase58_cursor_full :
    ∃ n last, n ≤ 126 ∧
      Runs Division.Going Division.pass n (Division.start (0 :: List.replicate 63 255)) last ∧
      last.tmp = List.replicate 64 0 := by
  obtain ⟨n, last, hn, hruns, htmp, -⟩ :=
    encodeBase58_cursor (0 :: List.replicate 63 255) (by decide)
  have hbound : 2 * ((0 :: List.replicate 63 (255 : UInt8)).length -
      leadingZeros (0 :: List.replicate 63 255)) = 126 := by decide
  exact ⟨n, last, hbound ▸ hn, hruns, htmp⟩

end AelfApp.Libsol
