import AelfApp.Apdu

/-!
What each part of the command assembler does with an APDU, said once. A
`Chunk` is an APDU that passes the header checks, taken apart; everything
after those checks is a function of the chunk and of the command, and the
lemmas here say which.
-/

namespace AelfApp.Apdu

open Memory

/-- An APDU with a valid header, as the host meant it. -/
structure Chunk where
  instruction : InstructionCode
  p1 : UInt8
  p2 : UInt8
  data : List UInt8
  instruction_ne : instruction ≠ .unset
  data_length : data.length ≤ 255

namespace Chunk

/-- The APDU on the wire. -/
def bytes (chunk : Chunk) : List UInt8 :=
  [cla, chunk.instruction.toByte, chunk.p1, chunk.p2, UInt8.ofNat chunk.data.length] ++ chunk.data

def header (chunk : Chunk) : ApduHeader where
  instruction := chunk.instruction
  p1 := chunk.p1
  p2 := chunk.p2
  data := if chunk.data.length > 0 then some offsetCdata else none
  dataLength := chunk.data.length
  deprecatedHost := false

/-- `P2_EXTEND` is set. -/
def extending (chunk : Chunk) : Bool := decide (chunk.p2 &&& p2Extend ≠ 0)

/-- `P2_MORE` is set. -/
def more (chunk : Chunk) : Bool := decide (chunk.p2 &&& p2More ≠ 0)

/-- What `P1` says about `non_confirm`. -/
def nonConfirm (chunk : Chunk) : Bool := decide (chunk.p1 = p1NonConfirm)

theorem ofNat_data_length (chunk : Chunk) :
    (UInt8.ofNat chunk.data.length).toNat = chunk.data.length := by
  have h := chunk.data_length
  simp only [UInt8.toNat_ofNat']
  omega

end Chunk

/-- The bytes of an APDU determine its parts. -/
theorem Chunk.bytes_injective {a b : Chunk} (h : a.bytes = b.bytes) : a = b := by
  obtain ⟨ainstruction, ap1, ap2, adata, _, _⟩ := a
  obtain ⟨binstruction, bp1, bp2, bdata, _, _⟩ := b
  simp only [Chunk.bytes, List.cons_append, List.nil_append, List.cons.injEq, true_and] at h
  obtain ⟨hins, rfl, rfl, _, rfl⟩ := h
  obtain rfl := InstructionCode.toByte_injective hins
  rfl

/-- The header checks accept the bytes of a chunk. -/
theorem parseHeader_bytes (chunk : Chunk) :
    parseHeader chunk.bytes = .ok (.ok chunk.header) := by
  have hlength := chunk.data_length
  have hlc := chunk.ofNat_data_length
  have hswitch := InstructionCode.ofByte?_toByte _ chunk.instruction_ne
  have hnotShort : ¬ chunk.bytes.length ≤ offsetIns := by
    simp [Chunk.bytes, offsetIns]
  have hfull : ¬ chunk.bytes.length < offsetCdata := by
    simp [Chunk.bytes, offsetCdata]
  have hsmall : ¬ chunk.bytes.length > 255 + offsetCdata := by
    simp only [Chunk.bytes, offsetCdata, List.length_append, List.length_cons, List.length_nil]
    omega
  have hexact : ¬ chunk.bytes.length ≠ chunk.data.length + offsetCdata := by
    simp only [Chunk.bytes, offsetCdata, List.length_append, List.length_cons, List.length_nil]
    omega
  have hcla : readAt chunk.bytes offsetCla = .ok cla := rfl
  have hins : readAt chunk.bytes offsetIns = .ok chunk.instruction.toByte := rfl
  have hp1 : readAt chunk.bytes offsetP1 = .ok chunk.p1 := rfl
  have hp2 : readAt chunk.bytes offsetP2 = .ok chunk.p2 := rfl
  have hread : readAt chunk.bytes offsetLc = .ok (UInt8.ofNat chunk.data.length) := rfl
  simp only [parseHeader, hnotShort, hfull, hsmall, hcla, hins, hp1, hp2, hread, hswitch, hlc,
    hexact, ok_bind, pure_eq_ok, ↓reduceIte, ne_eq, not_true_eq_false, Chunk.header]

private theorem header_decomp (apduMessage : List UInt8) (hfull : 5 ≤ apduMessage.length) :
    apduMessage = [apduMessage[0], apduMessage[1], apduMessage[2], apduMessage[3],
      apduMessage[4]] ++ apduMessage.drop 5 := by
  match apduMessage, hfull with
  | _ :: _ :: _ :: _ :: _ :: _, _ => rfl

/-- An APDU that the header checks accept is the bytes of a chunk. -/
theorem parseHeader_cases (apduMessage : List UInt8) :
    (∃ reply, parseHeader apduMessage = .ok (.error reply)) ∨
      ∃ chunk : Chunk, apduMessage = chunk.bytes := by
  by_cases hshort : apduMessage.length ≤ offsetIns
  · exact .inl ⟨_, by simp [parseHeader, hshort]; rfl⟩
  have hlength : 1 < apduMessage.length := by
    simpa [offsetIns] using hshort
  have hcla : readAt apduMessage offsetCla = .ok apduMessage[0] :=
    readAt_ok (by simp only [offsetCla]; omega)
  have hins : readAt apduMessage offsetIns = .ok apduMessage[1] := readAt_ok hlength
  by_cases hclass : apduMessage[0] = cla
  swap
  · exact .inl ⟨_, by simp [parseHeader, hshort, hcla, hclass]; rfl⟩
  cases hswitch : InstructionCode.ofByte? apduMessage[1] with
  | none => exact .inl ⟨_, by simp [parseHeader, hshort, hcla, hclass, hins, hswitch]; rfl⟩
  | some instruction =>
      obtain ⟨hbyte, hne⟩ := InstructionCode.toByte_of_ofByte? hswitch
      by_cases hheader : apduMessage.length < offsetCdata
      · exact .inl ⟨_, by simp [parseHeader, hshort, hcla, hclass, hins, hswitch, hheader]; rfl⟩
      have hfull : 5 ≤ apduMessage.length := by
        simpa [offsetCdata] using hheader
      have hlc : readAt apduMessage offsetLc = .ok apduMessage[4] :=
        readAt_ok (by simp only [offsetLc]; omega)
      by_cases hlarge : apduMessage.length > 255 + offsetCdata
      · exact .inl ⟨_, by
          simp [parseHeader, hshort, hcla, hclass, hins, hswitch, hheader, hlarge]; rfl⟩
      by_cases hexact : apduMessage.length = apduMessage[4].toNat + offsetCdata
      swap
      · exact .inl ⟨_, by
          simp [parseHeader, hshort, hcla, hclass, hins, hswitch, hheader, hlarge, hlc, hexact]
          rfl⟩
      simp only [offsetCdata] at hlarge hexact
      have hdata : (apduMessage.drop 5).length = apduMessage[4].toNat := by
        simp only [List.length_drop]
        omega
      refine .inr ⟨⟨instruction, apduMessage[2], apduMessage[3], apduMessage.drop 5, hne, ?_⟩, ?_⟩
      · have hbound := apduMessage[4].toNat_lt
        omega
      · simp only [Chunk.bytes, hdata, UInt8.ofNat_toNat, ← hbyte, ← hclass]
        exact header_decomp apduMessage hfull

/-- Consecutive groups of four bytes, each an index with its most significant
byte first. -/
def decodePath : List UInt8 → List UInt32
  | b0 :: b1 :: b2 :: b3 :: rest => be32 b0 b1 b2 b3 :: decodePath rest
  | _ => []

/-- A path on the wire: a count from 1 to 5 and as many indices. Returns the
path and what follows it. -/
def splitPath : List UInt8 → Option (List UInt32 × List UInt8)
  | [] => none
  | len :: rest =>
    if 1 ≤ len.toNat ∧ len.toNat ≤ maxBip32PathLength ∧ 4 * len.toNat ≤ rest.length then
      some (decodePath (rest.take (4 * len.toNat)), rest.drop (4 * len.toNat))
    else none

/-- The path and the message part of a first chunk. Only a `GetPubkey` has no
path count in front. -/
def Chunk.split (chunk : Chunk) : Option (List UInt32 × List UInt8) :=
  if chunk.instruction = .getPubkey then splitPath chunk.data
  else match chunk.data with
    | [] => none
    | count :: rest => if count = 1 then splitPath rest else none

/-- What stands before the path in a first chunk. -/
def Chunk.pathCount (chunk : Chunk) : List UInt8 :=
  if chunk.instruction = .getPubkey then [] else [1]

theorem decodePath_length {count : Nat} {bytes : List UInt8} (h : bytes.length = 4 * count) :
    (decodePath bytes).length = count := by
  induction count generalizing bytes with
  | zero =>
      have hnil : bytes = [] := List.eq_nil_of_length_eq_zero (by omega)
      simp [hnil, decodePath]
  | succ count ih =>
      match bytes, h with
      | b0 :: b1 :: b2 :: b3 :: rest, h =>
          have hrest : rest.length = 4 * count := by
            simp only [List.length_cons] at h
            omega
          simp [decodePath, ih hrest]

/-- A split path has 1 to 5 indices and leaves the rest of the data. -/
theorem splitPath_some {data rest : List UInt8} {path : List UInt32}
    (h : splitPath data = some (path, rest)) :
    1 ≤ path.length ∧ path.length ≤ maxBip32PathLength ∧
      ∃ len indices, len.toNat = path.length ∧ indices.length = 4 * path.length ∧
        decodePath indices = path ∧ data = len :: indices ++ rest := by
  cases data with
  | nil => cases h
  | cons len tail =>
      simp only [splitPath] at h
      split at h
      · rename_i hbounds
        obtain ⟨hlow, hhigh, hroom⟩ := hbounds
        cases h
        have htake : (tail.take (4 * len.toNat)).length = 4 * len.toNat := by
          simp only [List.length_take]
          omega
        have hlength := decodePath_length htake
        refine ⟨by omega, by omega, len, tail.take (4 * len.toNat), hlength.symm,
          by omega, rfl, ?_⟩
        simp
      · cases h

/-- The data of a first chunk that splits, field by field. -/
theorem Chunk.split_some {chunk : Chunk} {path : List UInt32} {rest : List UInt8}
    (h : chunk.split = some (path, rest)) :
    1 ≤ path.length ∧ path.length ≤ maxBip32PathLength ∧
      ∃ len indices, len.toNat = path.length ∧ indices.length = 4 * path.length ∧
        decodePath indices = path ∧
        chunk.data = chunk.pathCount ++ len :: indices ++ rest := by
  by_cases hpubkey : chunk.instruction = .getPubkey
  · simp only [Chunk.split, hpubkey, ↓reduceIte] at h
    simpa [Chunk.pathCount, hpubkey] using splitPath_some h
  · simp only [Chunk.split, hpubkey, ↓reduceIte] at h
    cases hdata : chunk.data with
    | nil => simp [hdata] at h
    | cons count tail =>
        simp only [hdata] at h
        split at h
        · rename_i hone
          subst hone
          simpa [Chunk.pathCount, hpubkey] using splitPath_some h
        · cases h

theorem Chunk.split_length {chunk : Chunk} {path : List UInt32} {rest : List UInt8}
    (h : chunk.split = some (path, rest)) : rest.length ≤ 255 := by
  obtain ⟨_, _, len, indices, _, _, _, hdata⟩ := Chunk.split_some h
  have hlength := congrArg List.length hdata
  have hbound := chunk.data_length
  simp only [List.length_append] at hlength
  omega

/-- The loop stores the indices it reads behind those already stored. -/
theorem readPathLoop_eq (count : Nat) (pre bytes post : List UInt8) (done : List UInt32)
    (hbytes : bytes.length = 4 * count) (hroom : done.length + count ≤ maxBip32PathLength) :
    readPathLoop (pre ++ bytes ++ post) count done.length pre.length (.padded _ 0 done) =
      .ok (.padded _ 0 (done ++ decodePath bytes)) := by
  induction count generalizing pre bytes done with
  | zero =>
      have hnil : bytes = [] := List.eq_nil_of_length_eq_zero (by omega)
      simp [readPathLoop, hnil, decodePath]
  | succ count ih =>
      match bytes, hbytes with
      | b0 :: b1 :: b2 :: b3 :: rest, hbytes =>
          have hrest : rest.length = 4 * count := by
            simp only [List.length_cons] at hbytes
            omega
          have hread0 := readAt_append pre (b1 :: b2 :: b3 :: rest ++ post) b0
          have hread1 := readAt_append (pre ++ [b0]) (b2 :: b3 :: rest ++ post) b1
          have hread2 := readAt_append (pre ++ [b0, b1]) (b3 :: rest ++ post) b2
          have hread3 := readAt_append (pre ++ [b0, b1, b2]) (rest ++ post) b3
          have hwrite : (Buffer.padded maxBip32PathLength 0 done).writeAt done.length
              (be32 b0 b1 b2 b3) = .ok (.padded _ 0 (done ++ [be32 b0 b1 b2 b3])) :=
            Buffer.padded_writeAt _ (by omega)
          have hnext := ih (pre ++ [b0, b1, b2, b3]) rest (done ++ [be32 b0 b1 b2 b3]) hrest
            (by simp only [List.length_append, List.length_singleton]; omega)
          simp only [List.length_append, List.length_cons, List.length_nil, List.append_assoc,
            List.cons_append, List.nil_append, Nat.zero_add, Nat.reduceAdd]
            at hread0 hread1 hread2 hread3 hnext
          simp only [readPathLoop, List.append_assoc, List.cons_append, hread0, hread1, hread2,
            hread3, hwrite, ok_bind, hnext, decodePath]

/-- `read_derivation_path` on a cleared command succeeds with the split path. -/
theorem readDerivationPath_some (pre data rest : List UInt8) (path : List UInt32)
    (h : splitPath data = some (path, rest)) :
    readDerivationPath (pre ++ data) (some pre.length) data.length (.padded _ 0 []) 0 =
      .ok (0, .padded _ 0 path, path.length) := by
  obtain ⟨hlow, hhigh, len, indices, hlen, hindices, hdecode, rfl⟩ := splitPath_some h
  have hread := readAt_append pre (indices ++ rest) len
  have hloop := readPathLoop_eq path.length (pre ++ [len]) indices rest [] hindices
    (by simpa using hhigh)
  simp only [List.length_append, List.length_singleton, List.append_assoc,
    List.cons_append, List.nil_append, List.length_nil, hdecode] at hloop
  have hsize : ¬ (len :: (indices ++ rest)).length = 0 := by simp
  have hrange : ¬ (path.length < 1 ∨ path.length > maxBip32PathLength) := by omega
  have hroom : ¬ 1 + 4 * path.length > (len :: (indices ++ rest)).length := by
    simp only [List.length_cons, List.length_append]
    omega
  simp only [List.cons_append, readDerivationPath, hread, hsize, hlen, hrange, hroom, hloop,
    ok_bind, pure_eq_ok, ↓reduceIte]

/-- `read_derivation_path` refuses, with nothing written, what does not split. -/
theorem readDerivationPath_none (pre data : List UInt8) (h : splitPath data = none)
    (derivationPath : Buffer UInt32 maxBip32PathLength) (derivationPathLength : Nat) :
    ∃ reply : ApduReply,
      readDerivationPath (pre ++ data) (some pre.length) data.length derivationPath
        derivationPathLength = .ok (reply.code, derivationPath, derivationPathLength) := by
  cases data with
  | nil => exact ⟨_, by simp [readDerivationPath]; rfl⟩
  | cons len tail =>
      have hread := readAt_append pre tail len
      have hsize : ¬ (len :: tail).length = 0 := by simp
      simp only [readDerivationPath, hread, hsize, ok_bind, pure_eq_ok, ↓reduceIte]
      by_cases hrange : len.toNat < 1 ∨ len.toNat > maxBip32PathLength
      · exact ⟨_, by simp only [hrange, ↓reduceIte]; rfl⟩
      by_cases hroom : 1 + 4 * len.toNat > (len :: tail).length
      · exact ⟨_, by simp only [hrange, hroom, ↓reduceIte]; rfl⟩
      · simp only [List.length_cons] at hroom
        have hbounds : 1 ≤ len.toNat ∧ len.toNat ≤ maxBip32PathLength ∧
            4 * len.toNat ≤ tail.length := by omega
        simp [splitPath, hbounds] at h

/-- The command with the path of a first chunk stored. -/
def ApduCommand.withPath (path : List UInt32) : ApduCommand :=
  { ApduCommand.zero with
    numDerivationPaths := 1
    derivationPath := .padded _ 0 path
    derivationPathLength := path.length }

/-- The header with its data moved to an offset. -/
def ApduHeader.moved (header : ApduHeader) (offset dataLength : Nat) : ApduHeader :=
  { header with data := some offset, dataLength }

theorem zero_derivationPath : ApduCommand.zero.derivationPath = .padded _ 0 [] :=
  Buffer.padded_nil.symm

/-- The first five bytes of a chunk. -/
def Chunk.front (chunk : Chunk) : List UInt8 :=
  [cla, chunk.instruction.toByte, chunk.p1, chunk.p2, UInt8.ofNat chunk.data.length]

theorem Chunk.bytes_eq (chunk : Chunk) : chunk.bytes = chunk.front ++ chunk.data := rfl

theorem Chunk.front_length (chunk : Chunk) : chunk.front.length = offsetCdata := rfl

/-- Once the path count is read, a path that splits is stored and the data
moves to what follows it. -/
private theorem readFirstChunk_path {apduMessage pre data rest : List UInt8}
    {path : List UInt32} {header counted : ApduHeader}
    (hcount : readPathCount apduMessage header .zero =
      .ok (0, counted.moved pre.length data.length,
        { ApduCommand.zero with numDerivationPaths := 1 }))
    (hbytes : apduMessage = pre ++ data) (hsplit : splitPath data = some (path, rest)) :
    ∃ before, apduMessage = before ++ rest ∧
      readFirstChunk apduMessage header .zero =
        .ok (0, counted.moved before.length rest.length, .withPath path) := by
  have hpath := readDerivationPath_some pre data rest path hsplit
  obtain ⟨_, _, len, indices, _, hindices, _, hdata⟩ := splitPath_some hsplit
  refine ⟨pre ++ len :: indices, by rw [hbytes, hdata]; simp, ?_⟩
  have hlength : data.length = 1 + path.length * 4 + rest.length := by
    rw [hdata]
    simp only [List.length_append, List.length_cons]
    omega
  have hsub : subSize data.length (1 + path.length * 4) = .ok rest.length := by
    rw [subSize_ok (by omega), hlength, Nat.add_sub_cancel_left]
  have hoffset : pre.length + (1 + path.length * 4) = (pre ++ len :: indices).length := by
    simp only [List.length_append, List.length_cons]
    omega
  rw [← hbytes] at hpath
  simp only [readFirstChunk, hcount, ApduHeader.moved, zero_derivationPath]
  simp [hpath, hsub, hoffset, ApduCommand.withPath, ApduCommand.zero]

/-- Once the path count is read, a path that does not split is refused. -/
private theorem readFirstChunk_noPath {apduMessage pre data : List UInt8}
    {header counted : ApduHeader}
    (hcount : readPathCount apduMessage header .zero =
      .ok (0, counted.moved pre.length data.length,
        { ApduCommand.zero with numDerivationPaths := 1 }))
    (hbytes : apduMessage = pre ++ data) (hsplit : splitPath data = none) :
    ∃ (reply : ApduReply) (final : ApduHeader) (count : UInt8),
      readFirstChunk apduMessage header .zero =
        .ok (reply.code, final, { ApduCommand.zero with numDerivationPaths := count }) := by
  obtain ⟨reply, hpath⟩ := readDerivationPath_none pre data hsplit
    ApduCommand.zero.derivationPath ApduCommand.zero.derivationPathLength
  rw [← hbytes] at hpath
  refine ⟨reply, counted.moved pre.length data.length, 1, ?_⟩
  simp only [readFirstChunk, hcount, ApduHeader.moved]
  simp [hpath, reply.code_ne_zero]

/-- A `GetPubkey` goes straight to its path. -/
private theorem readPathCount_getPubkey {chunk : Chunk} (h : chunk.instruction = .getPubkey)
    (hdata : chunk.data ≠ []) :
    readPathCount chunk.bytes chunk.header .zero =
      .ok (0, chunk.header.moved chunk.front.length chunk.data.length,
        { ApduCommand.zero with numDerivationPaths := 1 }) := by
  have hlength : 0 < chunk.data.length := List.length_pos_of_ne_nil hdata
  simp [readPathCount, Chunk.header, ApduHeader.moved, h, hlength, Chunk.front_length]

/-- The other instructions read a count, and refuse any but one path. -/
private theorem readPathCount_count {chunk : Chunk} {count : UInt8} {tail : List UInt8}
    (h : chunk.instruction ≠ .getPubkey) (hdata : chunk.data = count :: tail) :
    readPathCount chunk.bytes chunk.header .zero =
      .ok (if count = 1 then 0 else ApduReply.aelfInvalidMessage.code,
        chunk.header.moved (chunk.front ++ [count]).length tail.length,
        { ApduCommand.zero with numDerivationPaths := count }) := by
  have hread : readAt chunk.bytes ((offsetCdata + 0 : Nat) : Int) = .ok count := by
    have happend := readAt_append chunk.front tail count
    rwa [chunk.front_length, ← hdata] at happend
  have hlength : 0 < chunk.data.length := by simp [hdata]
  have hheader : chunk.header = chunk.header.moved offsetCdata (tail.length + 1) := by
    simp [Chunk.header, ApduHeader.moved, hdata]
  rw [hheader]
  simp only [readPathCount, ApduHeader.moved, Chunk.header, dataAt, hread]
  by_cases hcount : count = 1
  · simp [hcount, h, Chunk.front_length, subSize]
  · simp [hcount, h, Chunk.front_length, subSize]

/-- A first chunk that splits is read up to its message part. -/
theorem readFirstChunk_some {chunk : Chunk} {path : List UInt32} {rest : List UInt8}
    (h : chunk.split = some (path, rest)) :
    ∃ before, chunk.bytes = before ++ rest ∧
      readFirstChunk chunk.bytes chunk.header .zero =
        .ok (0, chunk.header.moved before.length rest.length, .withPath path) := by
  by_cases hpubkey : chunk.instruction = .getPubkey
  · simp only [Chunk.split, hpubkey, ↓reduceIte] at h
    have hne : chunk.data ≠ [] := by
      intro hnil
      rw [hnil] at h
      cases h
    exact readFirstChunk_path (readPathCount_getPubkey hpubkey hne) rfl h
  · simp only [Chunk.split, hpubkey, ↓reduceIte] at h
    cases hdata : chunk.data with
    | nil => simp [hdata] at h
    | cons count tail =>
        simp only [hdata] at h
        split at h
        · rename_i hone
          subst hone
          have hcount := readPathCount_count hpubkey hdata
          simp only [↓reduceIte] at hcount
          exact readFirstChunk_path hcount (by simp [Chunk.bytes_eq, hdata]) h
        · cases h

/-- A first chunk that does not split leaves at most its path count behind. -/
theorem readFirstChunk_none {chunk : Chunk} (h : chunk.split = none) :
    ∃ (reply : ApduReply) (header : ApduHeader) (count : UInt8),
      readFirstChunk chunk.bytes chunk.header .zero =
        .ok (reply.code, header, { ApduCommand.zero with numDerivationPaths := count }) := by
  by_cases hpubkey : chunk.instruction = .getPubkey
  · simp only [Chunk.split, hpubkey, ↓reduceIte] at h
    by_cases hne : chunk.data = []
    · refine ⟨.sdkInvalidParameter, chunk.header, 1, ?_⟩
      simp [readFirstChunk, readPathCount, readDerivationPath, Chunk.header, hpubkey, hne,
        ApduReply.code]
    · exact readFirstChunk_noPath (readPathCount_getPubkey hpubkey hne) rfl h
  · simp only [Chunk.split, hpubkey, ↓reduceIte] at h
    cases hdata : chunk.data with
    | nil =>
        refine ⟨.aelfInvalidMessageSize, chunk.header, 0, ?_⟩
        simp [readFirstChunk, readPathCount, Chunk.header, hpubkey, hdata, ApduReply.code]
        rfl
    | cons count tail =>
        have hcount := readPathCount_count hpubkey hdata
        by_cases hone : count = 1
        · subst hone
          simp only [hdata, ↓reduceIte] at h hcount
          exact readFirstChunk_noPath hcount (by simp [Chunk.bytes_eq, hdata]) h
        · refine ⟨.aelfInvalidMessage,
            chunk.header.moved (chunk.front ++ [count]).length tail.length, count, ?_⟩
          simp only [readFirstChunk, hcount, hone]
          simp [ApduReply.code]

/-- The command that `appendData` fills: in progress, with the header's fields. -/
def Chunk.mark (chunk : Chunk) (command : ApduCommand) : ApduCommand :=
  { command with
    state := .payloadInProgress
    instruction := chunk.instruction
    nonConfirm := chunk.nonConfirm
    deprecatedHost := false }

/-- The state in which an accepted chunk leaves the command. -/
def Chunk.stateAfter (chunk : Chunk) : ApduState :=
  if chunk.more then .payloadInProgress else .payloadComplete

/-- With data to store, `appendData` is a capacity check and one copy. -/
theorem appendData_some (chunk : Chunk) (command : ApduCommand) (before data : List UInt8)
    (hbytes : chunk.bytes = before ++ data) :
    appendData chunk.bytes (chunk.header.moved before.length data.length) command =
      if (sizeOfInt command.messageLength + data.length) % 2 ^ sizeBits > maxMessageLength then
        .ok (ApduReply.aelfInvalidMessageSize.code, chunk.mark command)
      else
        (do
          let message ← command.message.writeBytes command.messageLength data
          pure (0, { chunk.mark command with
            message, messageLength := command.messageLength + data.length
            state := chunk.stateAfter })) := by
  have hread : readBytes chunk.bytes before.length data.length = .ok data := by
    rw [hbytes, readBytes_ok (by simp)]
    simp
  simp only [appendData, ApduHeader.moved, Chunk.header, hread, ok_bind]
  split
  · simp [Chunk.mark, Chunk.nonConfirm]
    rfl
  · cases command.message.writeBytes command.messageLength data with
    | error e => rfl
    | ok message =>
        by_cases hmore : chunk.p2 &&& p2More = 0
        · simp [Chunk.mark, Chunk.nonConfirm, Chunk.stateAfter, Chunk.more, hmore]
          rfl
        · simp [Chunk.mark, Chunk.nonConfirm, Chunk.stateAfter, Chunk.more, hmore]
          rfl

/-- Without data, only a `GetPubkey` goes on. -/
theorem appendData_none (chunk : Chunk) (command : ApduCommand) (hdata : chunk.data = []) :
    appendData chunk.bytes chunk.header command =
      if chunk.instruction = .getPubkey then
        .ok (0, { chunk.mark command with state := chunk.stateAfter })
      else .ok (ApduReply.aelfInvalidMessageSize.code, chunk.mark command) := by
  by_cases hpubkey : chunk.instruction = .getPubkey
  · by_cases hmore : chunk.p2 &&& p2More = 0
    · simp [appendData, Chunk.header, hdata, hpubkey, hmore, Chunk.mark, Chunk.nonConfirm,
        Chunk.stateAfter, Chunk.more]
    · simp [appendData, Chunk.header, hdata, hpubkey, hmore, Chunk.mark, Chunk.nonConfirm,
        Chunk.stateAfter, Chunk.more]
  · simp [appendData, Chunk.header, hdata, hpubkey, Chunk.mark, Chunk.nonConfirm]

/-- The command's message buffer holds `message` and is zero after it. -/
structure ApduCommand.Holds (command : ApduCommand) (message : List UInt8) : Prop where
  buffer : command.message = .padded _ 0 message
  length : command.messageLength = message.length
  fits : message.length ≤ maxMessageLength

theorem ApduCommand.Holds.messageBytes {command : ApduCommand} {message : List UInt8}
    (h : command.Holds message) : command.messageBytes = message := by
  simp [ApduCommand.messageBytes, h.buffer, h.length, Buffer.padded_take h.fits]

theorem sizeOfInt_add {length data : Nat} (hlength : length ≤ maxMessageLength)
    (hdata : data ≤ 255) : (sizeOfInt length + data) % 2 ^ sizeBits = length + data := by
  rw [maxMessageLength_eq] at hlength
  simp only [sizeOfInt, sizeBits]
  omega

theorem zero_holds : ApduCommand.zero.Holds [] where
  buffer := Buffer.padded_nil.symm
  length := rfl
  fits := Nat.zero_le _

/-- Appending to a message it has room for. -/
theorem appendData_holds (chunk : Chunk) {command : ApduCommand} {message : List UInt8}
    (hholds : command.Holds message) (before data : List UInt8)
    (hbytes : chunk.bytes = before ++ data) (hdata : data.length ≤ 255) :
    appendData chunk.bytes (chunk.header.moved before.length data.length) command =
      if message.length + data.length > maxMessageLength then
        .ok (ApduReply.aelfInvalidMessageSize.code, chunk.mark command)
      else
        .ok (0, { chunk.mark command with
          message := .padded _ 0 (message ++ data)
          messageLength := (message ++ data).length
          state := chunk.stateAfter }) := by
  rw [appendData_some chunk command before data hbytes, hholds.length,
    sizeOfInt_add hholds.fits hdata]
  split
  · rfl
  · rename_i hroom
    rw [hholds.buffer, Buffer.padded_writeBytes data (by omega)]
    simp

end AelfApp.Apdu
