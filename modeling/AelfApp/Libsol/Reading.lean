import AelfApp.Libsol.Parser

/-!
What each field parser does, in terms of the bytes left to read and of the
format it reads. `Reads` is the part that composes: a chain of readers under
`BAIL_IF` reads the formats one behind the other.
-/

namespace AelfApp.Libsol

open Memory Wire

variable {β σ τ : Type} {mem : Mem β}

/-- The call reads one beginning of the bytes that is whole, or fails with
return code one. After a failure nothing is left exactly if the bytes stop
short in the format. -/
inductive Parsed (format : Format) (bytes : List UInt8) (parser : Parser β) :
    Nat × Parser β × σ → Prop where
  | complete (before after : List UInt8) (s : σ) (hbytes : bytes = before ++ after)
      (hwhole : format.Whole before) :
      Parsed format bytes parser (0, parser.skip before.length, s)
  | stopped (n : Nat) (s : σ) (hn : n ≤ bytes.length)
      (hmissing : ∀ before after, bytes = before ++ after → ¬ format.Whole before)
      (hshort : n = bytes.length ↔ format.Short bytes) :
      Parsed format bytes parser (1, parser.skip n, s)

def Reads (format : Format) (bytes : List UInt8) (parser : Parser β)
    (call : Checked (Nat × Parser β × σ)) : Prop :=
  ∃ result, call = .ok result ∧ Parsed format bytes parser result

/-- Storing what was read elsewhere reads the same. -/
theorem Reads.storing {format : Format} {bytes : List UInt8} {parser : Parser β}
    {call : Checked (Nat × Parser β × τ)} (h : Reads format bytes parser call) (store : τ → σ) :
    Reads format bytes parser (storing call store) := by
  obtain ⟨result, rfl, hparsed⟩ := h
  cases hparsed with
  | complete before after s hbytes hwhole =>
      exact ⟨_, rfl, .complete before after _ hbytes hwhole⟩
  | stopped n s hn hmissing hshort => exact ⟨_, rfl, .stopped n _ hn hmissing hshort⟩

/-- A chain of two readers reads the two formats one behind the other. -/
theorem Reads.bailIf {first second : Format} {bytes : List UInt8} {parser : Parser β}
    {call : Checked (Nat × Parser β × σ)}
    {next : Parser β → σ → Checked (Nat × Parser β × σ)} (hcall : Reads first bytes parser call)
    (hnext : ∀ before after s, bytes = before ++ after →
      Reads second after (parser.skip before.length) (next (parser.skip before.length) s)) :
    Reads (first.followedBy second) bytes parser (bailIf call next) := by
  obtain ⟨result, rfl, hparsed⟩ := hcall
  cases hparsed with
  | complete front rest s hbytes hfront =>
      obtain ⟨last, hlast, hparsed⟩ := hnext front rest s hbytes
      refine ⟨last, hlast, ?_⟩
      cases hparsed with
      | complete back after s' hrest hback =>
          have hskip : (parser.skip front.length).skip back.length =
              parser.skip (front ++ back).length := by
            simp
          rw [hskip]
          exact .complete (front ++ back) after s' (by rw [hbytes, hrest, List.append_assoc])
            ⟨front, back, hfront, hback, rfl⟩
      | stopped n s' hn hmissing hshort =>
          rw [Parser.skip_skip]
          refine .stopped (front.length + n) s' ?_ ?_ ?_
          · rw [hbytes, List.length_append]
            omega
          · rintro _ after hbytes' ⟨other, back, hother, hback, rfl⟩
            rw [hbytes, List.append_assoc] at hbytes'
            obtain rfl := first.unique hfront hother hbytes'
            rw [List.append_cancel_left_eq] at hbytes'
            exact hmissing back after hbytes' hback
          · rw [hbytes, List.length_append, Nat.add_left_cancel_iff, hshort]
            constructor
            · intro h
              exact .inr ⟨front, rest, hfront, h, rfl⟩
            · rintro (hhere | ⟨other, back, hother, hback, hsame⟩)
              · exact absurd hfront (first.short hhere)
              · obtain rfl := first.unique hfront hother hsame
                rw [List.append_cancel_left_eq] at hsame
                rwa [hsame]
  | stopped n s hn hmissing hshort =>
      refine ⟨(1, parser.skip n, s), rfl, .stopped n s hn ?_ ?_⟩
      · rintro _ after hbytes ⟨front, back, hfront, _, rfl⟩
        rw [List.append_assoc] at hbytes
        exact hmissing front _ hbytes hfront
      · rw [hshort]
        constructor
        · exact .inl
        · rintro (hhere | ⟨front, back, hfront, _, hbytes⟩)
          · exact hhere
          · exact absurd hfront (hmissing front back hbytes)

theorem advance_ok {parser : Parser β} {n : Nat} (h : n ≤ parser.bufferLength) :
    advance parser n = .ok (parser.skip n) := by
  simp [advance, subSize_ok h, Parser.skip]

theorem checkBufferLength_ok {parser : Parser β} {n : Nat} (h : n ≤ parser.bufferLength) :
    checkBufferLength parser n = 0 := by
  simp [checkBufferLength, h]

theorem checkBufferLength_short {parser : Parser β} {n : Nat} (h : parser.bufferLength < n) :
    checkBufferLength parser n = 1 := by
  simp [checkBufferLength, h]

section Fixed

theorem parsePubkey_ok {parser : Parser β} (h : pubkeySize ≤ parser.bufferLength)
    (pubkey : Option (Ptr β)) :
    parsePubkey parser pubkey = .ok (0, parser.skip pubkeySize, some parser.buffer) := by
  simp [parsePubkey, checkBufferLength_ok h, advance_ok h]

theorem parsePubkey_short {parser : Parser β} (h : parser.bufferLength < pubkeySize)
    (pubkey : Option (Ptr β)) : parsePubkey parser pubkey = .ok (1, parser, pubkey) := by
  simp [parsePubkey, checkBufferLength_short h]

theorem parseMessageHeader_ok {parser : Parser β} (h : hashSize ≤ parser.bufferLength)
    (blockhash : Option (Ptr β)) :
    parseMessageHeader parser blockhash = .ok (0, parser.skip hashSize, some parser.buffer) := by
  simp [parseMessageHeader, parseHash, checkBufferLength_ok h, advance_ok h]

theorem parseMessageHeader_short {parser : Parser β} (h : parser.bufferLength < hashSize)
    (blockhash : Option (Ptr β)) :
    parseMessageHeader parser blockhash = .ok (1, parser, blockhash) := by
  simp [parseMessageHeader, parseHash, checkBufferLength_short h]

/-- A reader that takes `size` bytes or nothing reads a field of that size. -/
theorem reads_fixed {size : Nat} (hpos : 0 < size) {bytes : List UInt8} {parser : Parser β}
    {call : Checked (Nat × Parser β × σ)}
    (hok : size ≤ bytes.length → ∃ s, call = .ok (0, parser.skip size, s))
    (hshort : bytes.length < size → ∃ s, call = .ok (1, parser, s)) :
    Reads (.fixed size hpos) bytes parser call := by
  by_cases hlength : size ≤ bytes.length
  · obtain ⟨s, hcall⟩ := hok hlength
    have htake : (bytes.take size).length = size := by
      simp only [List.length_take]
      omega
    refine ⟨_, hcall, ?_⟩
    have hcomplete : Parsed (.fixed size hpos) bytes parser
        (0, parser.skip (bytes.take size).length, s) :=
      .complete _ (bytes.drop size) s (List.take_append_drop size bytes).symm htake
    rwa [htake] at hcomplete
  · obtain ⟨s, hcall⟩ := hshort (by omega)
    refine ⟨_, hcall, ?_⟩
    rw [← parser.skip_zero]
    refine .stopped 0 s (Nat.zero_le _) ?_ ?_
    · intro before after hbytes hwhole
      have hsize : before.length = size := hwhole
      have htotal := congrArg List.length hbytes
      rw [List.length_append] at htotal
      omega
    · constructor
      · intro h
        exact List.eq_nil_of_length_eq_zero h.symm
      · intro h
        have hempty : bytes = [] := h
        simp [hempty]

theorem parsePubkey_reads {parser : Parser β} {bytes : List UInt8}
    (h : parser.rest mem = bytes) (pubkey : Option (Ptr β)) :
    Reads (.fixed pubkeySize (Nat.zero_lt_succ _)) bytes parser (parsePubkey parser pubkey) := by
  have hlength : bytes.length = parser.bufferLength := by
    simp [← h]
  exact reads_fixed (by decide)
    (fun hok => ⟨_, parsePubkey_ok (by omega) pubkey⟩)
    (fun hshort => ⟨_, parsePubkey_short (by omega) pubkey⟩)

end Fixed

section Integers

theorem parseU8_cons {parser : Parser β} {b : UInt8} {after : List UInt8}
    (h : parser.rest mem = b :: after) (value : UInt8) :
    parseU8 mem parser value = .ok (0, parser.skip 1, b) := by
  have hsplit : parser.rest mem = [b] ++ after := h
  have hlength := Parser.bufferLength_of_rest hsplit
  have hbytes := Parser.bytes_of_rest hsplit
  have hload : mem.load parser.buffer = b := by
    simpa [Mem.bytes] using hbytes
  have hroom : 1 ≤ parser.bufferLength := by
    simp only [List.length_singleton] at hlength
    omega
  simp [parseU8, checkBufferLength_ok hroom, advance_ok hroom, hload]

theorem parseU8_nil {parser : Parser β} (h : parser.rest mem = []) (value : UInt8) :
    parseU8 mem parser value = .ok (1, parser, value) := by
  have hlength := congrArg List.length h
  have hshort : parser.bufferLength < 1 := by
    simp only [Parser.rest_length, List.length_nil] at hlength
    omega
  simp [parseU8, checkBufferLength_short hshort]

theorem parseU16_append {parser : Parser β} (bytes : List UInt8) {after : List UInt8}
    (hsize : bytes.length = 2) (h : parser.rest mem = bytes ++ after) (value : UInt16) :
    ∃ result, parseU16 mem parser value = .ok (0, parser.skip 2, result) ∧
      result.toNat = leNat bytes := by
  match bytes, hsize with
  | [b0, b1], _ =>
      have hnext := Parser.rest_skip_one h
      refine ⟨b0.toUInt16 + b1.toUInt16 <<< 8, ?_, ?_⟩
      · simp [parseU16, parseU8_cons h, parseU8_cons hnext]
      · have h0 := b0.toNat_lt
        have h1 := b1.toNat_lt
        simp only [UInt16.toNat_add, UInt8.toNat_toUInt16, UInt16.toNat_shiftLeft, Nat.shiftLeft_eq,
          leNat_cons, leNat_nil]
        have hshift : (8 : UInt16).toNat % 16 = 8 := rfl
        rw [hshift]
        omega

theorem parseU32_append {parser : Parser β} (bytes : List UInt8) {after : List UInt8}
    (hsize : bytes.length = 4) (h : parser.rest mem = bytes ++ after) (value : UInt32) :
    ∃ result, parseU32 mem parser value = .ok (0, parser.skip 4, result) ∧
      result.toNat = leNat bytes := by
  match bytes, hsize with
  | [b0, b1, b2, b3], _ =>
      have hsplit : parser.rest mem = [b0, b1] ++ ([b2, b3] ++ after) := h
      have hnext : (parser.skip 2).rest mem = [b2, b3] ++ after := Parser.rest_skip hsplit
      obtain ⟨lower, hlower, hlow⟩ := parseU16_append [b0, b1] rfl hsplit 0
      obtain ⟨upper, hupper, hhigh⟩ := parseU16_append [b2, b3] rfl hnext 0
      refine ⟨lower.toUInt32 + upper.toUInt32 <<< 16, ?_, ?_⟩
      · simp [parseU32, hlower, hupper]
      · have h0 := lower.toNat_lt
        have h1 := upper.toNat_lt
        simp only [UInt32.toNat_add, UInt16.toNat_toUInt32, UInt32.toNat_shiftLeft,
          Nat.shiftLeft_eq, leNat_cons, leNat_nil] at hlow hhigh ⊢
        have hshift : (16 : UInt32).toNat % 32 = 16 := rfl
        rw [hshift]
        omega

/-- Eight bytes give the number they spell, least significant first. -/
theorem parseU64_append {parser : Parser β} {bytes after : List UInt8} (hsize : bytes.length = 8)
    (h : parser.rest mem = bytes ++ after) (value : UInt64) :
    parseU64 mem parser value = .ok (0, parser.skip 8, UInt64.ofNat (leNat bytes)) := by
  match bytes, hsize with
  | [b0, b1, b2, b3, b4, b5, b6, b7], _ =>
      have hlength := Parser.bufferLength_of_rest h
      have hroom : 8 ≤ parser.bufferLength := by
        simp only [List.length_cons, List.length_nil] at hlength
        omega
      have hsplit : parser.rest mem = [b0, b1, b2, b3] ++ ([b4, b5, b6, b7] ++ after) := h
      have hnext : (parser.skip 4).rest mem = [b4, b5, b6, b7] ++ after := Parser.rest_skip hsplit
      obtain ⟨lower, hlower, hlow⟩ := parseU32_append [b0, b1, b2, b3] rfl hsplit 0
      obtain ⟨upper, hupper, hhigh⟩ := parseU32_append [b4, b5, b6, b7] rfl hnext 0
      have hvalue : lower.toUInt64 + upper.toUInt64 <<< 32 =
          UInt64.ofNat (leNat [b0, b1, b2, b3, b4, b5, b6, b7]) := by
        apply UInt64.toNat_inj.mp
        have h0 := lower.toNat_lt
        have h1 := upper.toNat_lt
        simp only [UInt64.toNat_add, UInt32.toNat_toUInt64, UInt64.toNat_shiftLeft,
          UInt64.toNat_ofNat', Nat.shiftLeft_eq, leNat_cons, leNat_nil] at hlow hhigh ⊢
        have hshift : (32 : UInt64).toNat % 64 = 32 := rfl
        rw [hshift]
        omega
      simp [parseU64, checkBufferLength_ok hroom, hlower, hupper, hvalue]

theorem parseU64_short (mem : Mem β) {parser : Parser β} (h : parser.bufferLength < 8)
    (value : UInt64) :
    parseU64 mem parser value = .ok (1, parser, value) := by
  simp [parseU64, checkBufferLength_short h]

theorem parseU64_reads {parser : Parser β} {bytes : List UInt8}
    (h : parser.rest mem = bytes) (value : UInt64) :
    Reads (.fixed 8 (Nat.zero_lt_succ _)) bytes parser (parseU64 mem parser value) := by
  have hlength : bytes.length = parser.bufferLength := by
    simp [← h]
  refine reads_fixed (by decide) (fun hok => ?_)
    (fun hshort => ⟨_, parseU64_short mem (by omega) value⟩)
  rw [← List.take_append_drop 8 bytes] at h
  exact ⟨_, parseU64_append (by simp; omega) h value⟩

end Integers

section Lengths

theorem low_seven_bits (n : Nat) : n &&& 127 = n % 128 :=
  Nat.and_two_pow_sub_one_eq_mod n 7

theorem top_bit (b : UInt8) : b &&& 0x80 ≠ 0 ↔ 128 ≤ b.toNat := by
  have hall : ∀ n < 256, (UInt8.ofNat n &&& 0x80 ≠ 0 ↔ 128 ≤ (UInt8.ofNat n).toNat) := by
    decide +kernel
  have hb := hall b.toNat b.toNat_lt
  rwa [UInt8.ofNat_toNat] at hb

/-- Seven bits above a number of so many bits. -/
theorem shiftLeft_or (n low : Nat) {k : Nat} (h : low < 2 ^ k) :
    n <<< k ||| low = n * 2 ^ k + low := by
  rw [← Nat.shiftLeft_add_eq_or_of_lt h, Nat.shiftLeft_eq]

theorem top_bit_clear {b : UInt8} (h : b.toNat < 128) : b &&& 0x80 = 0 := by
  by_contra hne
  have hhigh := (top_bit b).mp hne
  omega

theorem mod_of_top_bit {b : UInt8} (h : 128 ≤ b.toNat) : b.toNat % 128 = b.toNat - 128 := by
  have hb := b.toNat_lt
  omega

/-- The first byte of a length. -/
private theorem parseLength_first {parser : Parser β} {b : UInt8} {after : List UInt8}
    (h : parser.rest mem = b :: after) (value : Nat) (hlow : b.toNat < 128) :
    parseLength mem parser value = .ok (0, parser.skip 1, b.toNat) := by
  have htop := top_bit_clear hlow
  simp [parseLength, parseU8_cons h, htop, low_seven_bits, Nat.mod_eq_of_lt hlow]

/-- The second byte counts the groups of seven bits above the first. -/
private theorem parseLength_second {parser : Parser β} {b0 b1 : UInt8} {after : List UInt8}
    (h : parser.rest mem = b0 :: b1 :: after) (value : Nat) (hhigh0 : 128 ≤ b0.toNat)
    (hlow1 : b1.toNat < 128) :
    parseLength mem parser value =
      .ok (0, parser.skip 2, b1.toNat * 2 ^ 7 + (b0.toNat - 128)) := by
  have hb0 := b0.toNat_lt
  have htop0 := (top_bit b0).mpr hhigh0
  have htop1 := top_bit_clear hlow1
  have hsecond := parseU8_cons (Parser.rest_skip_one h)
  have hor := shiftLeft_or b1.toNat (b0.toNat - 128) (k := 7) (by omega)
  simp [parseLength, parseU8_cons h, htop0, hsecond, htop1, low_seven_bits,
    Nat.mod_eq_of_lt hlow1, mod_of_top_bit hhigh0, hor]

/-- The third byte ends a length, and loses its top bit. -/
private theorem parseLength_third {parser : Parser β} {b0 b1 b2 : UInt8} {after : List UInt8}
    (h : parser.rest mem = b0 :: b1 :: b2 :: after) (value : Nat) (hhigh0 : 128 ≤ b0.toNat)
    (hhigh1 : 128 ≤ b1.toNat) :
    parseLength mem parser value = .ok (0, parser.skip 3,
      b2.toNat % 128 * 2 ^ 14 + ((b1.toNat - 128) * 2 ^ 7 + (b0.toNat - 128))) := by
  have hb0 := b0.toNat_lt
  have hb1 := b1.toNat_lt
  have htop0 := (top_bit b0).mpr hhigh0
  have htop1 := (top_bit b1).mpr hhigh1
  have hrest := Parser.rest_skip_one h
  have hsecond := parseU8_cons hrest
  have hthird := parseU8_cons (Parser.rest_skip_one hrest)
  rw [Parser.skip_skip] at hthird
  have hor := shiftLeft_or (b1.toNat - 128) (b0.toNat - 128) (k := 7) (by omega)
  have hor2 := shiftLeft_or (b2.toNat % 128) ((b1.toNat - 128) * 2 ^ 7 + (b0.toNat - 128))
    (k := 14) (by omega)
  simp only [Nat.reducePow] at hor hor2 ⊢
  simp [parseLength, parseU8_cons h, htop0, hsecond, htop1, hthird, low_seven_bits,
    mod_of_top_bit hhigh0, mod_of_top_bit hhigh1, hor, hor2]

/-- A length is read from its announcement. -/
theorem parseLength_announces {parser : Parser β} {front after : List UInt8} {n : Nat}
    (hfront : (continuation 3).Announces front n) (h : parser.rest mem = front ++ after)
    (value : Nat) :
    parseLength mem parser value = .ok (0, parser.skip front.length, n) := by
  have hcontinued : Continued 3 front n := hfront
  cases hcontinued with
  | last hlow => exact parseLength_first h value hlow
  | @more _ _ b0 _ hhigh0 hrest =>
      cases hrest with
      | @last _ b1 hlow1 =>
          rw [parseLength_second h value hhigh0 hlow1]
          simp
          omega
      | @more _ _ b1 _ hhigh1 hlast =>
          cases hlast with
          | @last _ b2 hlow2 =>
              rw [parseLength_third h value hhigh0 hhigh1, Nat.mod_eq_of_lt hlow2]
              simp
              omega
          | @full b2 hhigh2 =>
              rw [parseLength_third h value hhigh0 hhigh1, mod_of_top_bit hhigh2]
              simp
              omega

/-- A length that is cut off takes all that is left. -/
theorem parseLength_continuing {parser : Parser β} {bytes : List UInt8}
    (hcontinuing : (continuation 3).Dangling bytes) (h : parser.rest mem = bytes) (value : Nat) :
    ∃ left, parseLength mem parser value = .ok (1, parser.skip bytes.length, left) := by
  obtain ⟨hlength, hhigh⟩ : Continuing 3 bytes := hcontinuing
  match bytes, hlength with
  | [], _ => exact ⟨value, by simp [parseLength, parseU8_nil h]⟩
  | [b0], _ =>
      have htop0 := (top_bit b0).mpr (hhigh b0 (by simp))
      have hrest1 := Parser.rest_skip_one h
      exact ⟨_, by simp [parseLength, parseU8_cons h, htop0, parseU8_nil hrest1]; rfl⟩
  | [b0, b1], _ =>
      have htop0 := (top_bit b0).mpr (hhigh b0 (by simp))
      have htop1 := (top_bit b1).mpr (hhigh b1 (by simp))
      have hrest1 := Parser.rest_skip_one h
      have hrest2 := Parser.rest_skip_one hrest1
      simp only [Parser.skip_skip] at hrest2
      exact ⟨_, by
        simp [parseLength, parseU8_cons h, htop0, parseU8_cons hrest1, htop1,
          parseU8_nil hrest2]
        rfl⟩

/-- The ticker of an instruction, once its length is read. -/
theorem parseData_announces {parser : Parser β} {front after : List UInt8} {n : Nat}
    (hfront : (continuation 3).Announces front n) (h : parser.rest mem = front ++ after)
    (instruction : Instruction β) :
    parseData mem parser instruction =
      if n ≤ after.length then
        .ok (0, parser.skip (front.length + n),
          { tickerLength := n, ticker := some (parser.buffer.add front.length) })
      else .ok (1, parser.skip front.length, { instruction with tickerLength := n }) := by
  have hlength : (parser.skip front.length).bufferLength = after.length := by
    rw [Parser.skip_bufferLength, Parser.bufferLength_of_rest h, Nat.add_sub_cancel_left]
  simp only [parseData, parseLength_announces hfront h, ok_bind]
  by_cases hroom : n ≤ after.length
  · simp [hroom, checkBufferLength_ok (hroom.trans_eq hlength.symm),
      advance_ok (hroom.trans_eq hlength.symm)]
  · have hshort : (parser.skip front.length).bufferLength < n := by omega
    simp [hroom, checkBufferLength_short hshort]

/-- A reader of a length and so many bytes, which takes the length before it
finds that the bytes are missing. -/
theorem reads_counted {code : PrefixCode} {bytes : List UInt8} {parser : Parser β}
    {call : Checked (Nat × Parser β × σ)}
    (hcases : ((∀ front after n, bytes = front ++ after → ¬ code.Announces front n) ∧
        ∃ m s, call = .ok (1, parser.skip m, s) ∧ m ≤ bytes.length ∧
          (m = bytes.length ↔ code.Dangling bytes)) ∨
      ∃ front after n, bytes = front ++ after ∧ code.Announces front n ∧
        (n ≤ after.length → ∃ s, call = .ok (0, parser.skip (front.length + n), s)) ∧
        (after.length < n → ∃ s, call = .ok (1, parser.skip front.length, s))) :
    Reads (.counted code) bytes parser call := by
  rcases hcases with ⟨hnone, m, s, hcall, hm, hdangling⟩ |
    ⟨front, after, n, rfl, hfront, hok, hshort⟩
  · refine ⟨_, hcall, .stopped m s hm ?_ ?_⟩
    · rintro before after hbytes ⟨front, data, hfront, rfl⟩
      rw [List.append_assoc] at hbytes
      exact hnone _ _ _ hbytes hfront
    · rw [hdangling]
      constructor
      · exact .inl
      · rintro (h | ⟨n, _, hannounces⟩)
        · exact h
        · exact absurd hannounces (hnone bytes [] n (List.append_nil bytes).symm)
  by_cases hroom : n ≤ after.length
  · obtain ⟨s, hcall⟩ := hok hroom
    have htake : (after.take n).length = n := by
      simp only [List.length_take]
      omega
    have hskip : front.length + n = (front ++ after.take n).length := by
      rw [List.length_append, htake]
    rw [hskip] at hcall
    refine ⟨_, hcall, .complete _ (after.drop n) s ?_ ⟨front, after.take n, ?_, rfl⟩⟩
    · rw [List.append_assoc, List.take_append_drop]
    · rwa [htake]
  · obtain ⟨s, hcall⟩ := hshort (by omega)
    refine ⟨_, hcall, .stopped _ s (by simp) ?_ ?_⟩
    · rintro _ rest hbytes ⟨other, data, hother, rfl⟩
      rw [List.append_assoc] at hbytes
      obtain ⟨rfl, rfl⟩ := code.unique hfront hother hbytes
      rw [List.append_cancel_left_eq] at hbytes
      have htotal := congrArg List.length hbytes
      rw [List.length_append] at htotal
      omega
    · rw [List.length_append]
      constructor
      · intro hall
        have hempty : after = [] := List.eq_nil_of_length_eq_zero (by omega)
        subst hempty
        refine .inr ⟨n, by simp only [List.length_nil] at hroom; omega, ?_⟩
        rwa [List.append_nil]
      · rintro (hdangling | ⟨m, _, hannounces⟩)
        · exact absurd hfront (code.dangling hdangling)
        · obtain ⟨hsame, -⟩ := code.unique hannounces hfront
            (List.append_nil (front ++ after))
          have hempty : after = [] := by
            simpa using hsame
          simp [hempty]

theorem parseData_reads {parser : Parser β} {bytes : List UInt8}
    (h : parser.rest mem = bytes) (instruction : Instruction β) :
    Reads (.counted (continuation 3)) bytes parser (parseData mem parser instruction) := by
  apply reads_counted
  rcases continuing_or_continued 2 bytes with hcontinuing | ⟨front, after, n, rfl, hfront⟩
  · obtain ⟨left, hcall⟩ := parseLength_continuing hcontinuing h instruction.tickerLength
    refine .inl ⟨?_, bytes.length, { instruction with tickerLength := left }, ?_, le_rfl,
      fun _ => hcontinuing, fun _ => rfl⟩
    · rintro front after n rfl hfront
      exact hcontinuing.not_continued hfront
    · simp [parseData, hcall]
  · have hcall := parseData_announces hfront h instruction
    exact .inr ⟨front, after, n, rfl, hfront, fun hroom => ⟨_, hcall.trans (if_pos hroom)⟩,
      fun hshort => ⟨_, hcall.trans (if_neg (by omega))⟩⟩

/-- The eight bytes of a string's length. -/
def sizedStringLength : PrefixCode := littleEndian 8 (by decide)

/-- Eight bytes spell a number of 64 bits. -/
theorem toNat_ofNat_leNat {bytes : List UInt8} (h : bytes.length = 8) :
    (UInt64.ofNat (leNat bytes)).toNat = leNat bytes := by
  have hlt := leNat_lt bytes
  rw [h] at hlt
  rw [UInt64.toNat_ofNat']
  exact Nat.mod_eq_of_lt hlt

/-- A string is there if its length fits `size_t` and so many bytes follow. A
length that does not fit is not cut down. -/
theorem parseSizedString_eq (size : SizeT) {parser : Parser β} {front after : List UInt8}
    (hfixed : front.length = 8) (h : parser.rest mem = front ++ after)
    (string : SizedString β) :
    parseSizedString mem size parser string =
      if leNat front ≤ size.max ∧ leNat front ≤ after.length then
        .ok (0, parser.skip (8 + leNat front),
          { length := UInt64.ofNat (leNat front), string := some (parser.buffer.add 8) })
      else .ok (1, parser.skip 8, { string with length := UInt64.ofNat (leNat front) }) := by
  have hlength : (parser.skip 8).bufferLength = after.length := by
    rw [Parser.skip_bufferLength, Parser.bufferLength_of_rest h, hfixed, Nat.add_sub_cancel_left]
  have hvalue := toNat_ofNat_leNat hfixed
  simp only [parseSizedString, parseU64_append hfixed h, ok_bind, hvalue]
  by_cases hmax : leNat front ≤ size.max
  · have hkept : ¬ leNat front > size.max := by omega
    by_cases hroom : leNat front ≤ after.length
    · simp [hmax, hroom, hkept, SizeT.cast_eq hmax,
        checkBufferLength_ok (hroom.trans_eq hlength.symm),
        advance_ok (hroom.trans_eq hlength.symm)]
    · have hshort : (parser.skip 8).bufferLength < leNat front := by omega
      simp [hroom, hkept, SizeT.cast_eq hmax, checkBufferLength_short hshort]
  · have hlost : leNat front > size.max := by omega
    simp [hmax, hlost]

/-- In a buffer that `size_t` can measure, a length that does not fit is
longer than what is left. -/
theorem parseSizedString_announces {size : SizeT} {parser : Parser β} {front after : List UInt8}
    {n : Nat} (hfront : sizedStringLength.Announces front n) (h : parser.rest mem = front ++ after)
    (hsize : parser.bufferLength ≤ size.max) (string : SizedString β) :
    parseSizedString mem size parser string =
      if n ≤ after.length then
        .ok (0, parser.skip (front.length + n),
          { length := UInt64.ofNat n, string := some (parser.buffer.add front.length) })
      else .ok (1, parser.skip front.length, { string with length := UInt64.ofNat n }) := by
  obtain ⟨hfixed, rfl⟩ : front.length = 8 ∧ leNat front = n := hfront
  have htotal := Parser.bufferLength_of_rest h
  have hfits : leNat front ≤ size.max ∧ leNat front ≤ after.length ↔
      leNat front ≤ after.length := by
    constructor
    · exact And.right
    · intro hroom
      exact ⟨by omega, hroom⟩
  rw [parseSizedString_eq size hfixed h string, hfixed]
  simp only [hfits]

theorem parseSizedString_reads {size : SizeT} {parser : Parser β} {bytes : List UInt8}
    (h : parser.rest mem = bytes) (hsize : parser.bufferLength ≤ size.max)
    (string : SizedString β) :
    Reads (.counted sizedStringLength) bytes parser (parseSizedString mem size parser string) := by
  apply reads_counted
  have hlength : bytes.length = parser.bufferLength := by
    simp [← h]
  by_cases hshort : bytes.length < 8
  · have hcall := parseU64_short mem (hlength ▸ hshort) string.length
    refine .inl ⟨?_, 0, string, ?_, Nat.zero_le _, ?_, ?_⟩
    · rintro front after n rfl ⟨hfront, _⟩
      rw [List.length_append] at hshort
      omega
    · simp [parseSizedString, hcall]
    · intro hzero
      exact List.eq_nil_of_length_eq_zero hzero.symm
    · intro hnil
      have hempty : bytes = [] := hnil
      simp [hempty]
  · have hfront : sizedStringLength.Announces (bytes.take 8) (leNat (bytes.take 8)) :=
      ⟨by simp only [List.length_take]; omega, rfl⟩
    have hsplit := (List.take_append_drop 8 bytes).symm
    have hcall := parseSizedString_announces hfront (h.trans hsplit) hsize string
    exact .inr ⟨_, _, _, hsplit, hfront, fun hroom => ⟨_, hcall.trans (if_pos hroom)⟩,
      fun hmissing => ⟨_, hcall.trans (if_neg (by omega))⟩⟩

end Lengths

end AelfApp.Libsol
