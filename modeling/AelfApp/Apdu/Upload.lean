import AelfApp.Apdu.Step
import AelfApp.Lib.Machine

/-!
Uploading a message in pieces. However a host cuts a message, the pieces
assemble to the same command; a piece too many is refused.
-/

namespace AelfApp.Apdu

open Memory Machine

def be32Bytes (index : UInt32) : List UInt8 :=
  [(index >>> 24).toUInt8, (index >>> 16).toUInt8, (index >>> 8).toUInt8, index.toUInt8]

/-- The indices of a path as the host sends them. -/
def encodePath (path : List UInt32) : List UInt8 := path.flatMap be32Bytes

/-- The number that four bytes spell, most significant first. -/
theorem be32_toNat (b0 b1 b2 b3 : UInt8) :
    (be32 b0 b1 b2 b3).toNat =
      b0.toNat * 2 ^ 24 + (b1.toNat * 2 ^ 16 + (b2.toNat * 2 ^ 8 + b3.toNat)) := by
  have h0 := b0.toNat_lt
  have h1 := b1.toNat_lt
  have h2 := b2.toNat_lt
  have h3 := b3.toNat_lt
  have hlast := Nat.shiftLeft_add_eq_or_of_lt h3 b2.toNat
  have hmiddle := Nat.shiftLeft_add_eq_or_of_lt
    (show b2.toNat <<< 8 + b3.toNat < 2 ^ 16 by rw [Nat.shiftLeft_eq]; omega) b1.toNat
  have hfirst := Nat.shiftLeft_add_eq_or_of_lt
    (show b1.toNat <<< 16 + (b2.toNat <<< 8 + b3.toNat) < 2 ^ 24 by
      simp only [Nat.shiftLeft_eq]; omega) b0.toNat
  have hshift : ∀ (b : UInt8) (k : Nat), k ≤ 24 → b.toNat <<< k % 2 ^ 32 = b.toNat <<< k := by
    intro b k hk
    have hb := b.toNat_lt
    have hpow : 2 ^ k ≤ 2 ^ 24 := Nat.pow_le_pow_right (by omega) hk
    rw [Nat.shiftLeft_eq]
    apply Nat.mod_eq_of_lt
    calc b.toNat * 2 ^ k ≤ b.toNat * 2 ^ 24 := Nat.mul_le_mul_left _ hpow
      _ < 2 ^ 32 := by omega
  rw [be32]
  simp only [UInt32.toNat_or, UInt32.toNat_shiftLeft, UInt8.toNat_toUInt32, UInt32.reduceToNat,
    Nat.reduceMod, hshift _ 24 le_rfl, hshift _ 16 (by omega), hshift _ 8 (by omega), Nat.or_assoc]
  rw [← hlast, ← hmiddle, ← hfirst]
  simp only [Nat.shiftLeft_eq]

theorem be32_bytes (index : UInt32) :
    be32 (index >>> 24).toUInt8 (index >>> 16).toUInt8 (index >>> 8).toUInt8 index.toUInt8 =
      index := by
  have hindex := index.toNat_lt
  apply UInt32.toNat_inj.mp
  rw [be32_toNat]
  simp only [UInt32.toNat_toUInt8, UInt32.toNat_shiftRight, UInt32.reduceToNat, Nat.reduceMod,
    Nat.shiftRight_eq_div_pow]
  omega

theorem decodePath_encodePath (path : List UInt32) : decodePath (encodePath path) = path := by
  induction path with
  | nil => rfl
  | cons index path ih =>
      have hcons : encodePath (index :: path) = be32Bytes index ++ encodePath path := by
        simp [encodePath]
      rw [hcons]
      simp only [be32Bytes, List.cons_append, List.nil_append, decodePath, be32_bytes, ih]

theorem encodePath_length (path : List UInt32) : (encodePath path).length = 4 * path.length := by
  induction path with
  | nil => rfl
  | cons index path ih =>
      have hcons : encodePath (index :: path) = be32Bytes index ++ encodePath path := by
        simp [encodePath]
      rw [hcons, List.length_append, ih, List.length_cons]
      simp only [be32Bytes, List.length_cons, List.length_nil]
      omega

/-- A path on the wire splits back into the path and what follows it. -/
theorem splitPath_encodePath (path : List UInt32) (rest : List UInt8)
    (hlow : 1 ≤ path.length) (hhigh : path.length ≤ maxBip32PathLength) :
    splitPath (UInt8.ofNat path.length :: encodePath path ++ rest) = some (path, rest) := by
  have hlen : (UInt8.ofNat path.length).toNat = path.length := by
    rw [maxBip32PathLength_eq] at hhigh
    simp only [UInt8.toNat_ofNat']
    omega
  have hlength := encodePath_length path
  simp [splitPath, hlen, hlow, hhigh, ← hlength, decodePath_encodePath]

/-- `P2` of a chunk, from its place in the upload. -/
def p2Of (extending last : Bool) : UInt8 :=
  (if extending then p2Extend else 0) ||| (if last then 0 else p2More)

theorem p2Of_extend : ∀ extending last : Bool,
    decide (p2Of extending last &&& p2Extend ≠ 0) = extending := by decide

theorem p2Of_more : ∀ extending last : Bool,
    decide (p2Of extending last &&& p2More ≠ 0) = !last := by decide

/-- One chunk of an upload. -/
def uploadChunk (p1 : UInt8) (extending last : Bool) (data : List UInt8)
    (hdata : data.length ≤ 255) : Chunk :=
  ⟨.signMessage, p1, p2Of extending last, data, by decide, hdata⟩

theorem uploadChunk_extending (p1 : UInt8) (extending last : Bool) (data : List UInt8)
    (hdata : data.length ≤ 255) :
    (uploadChunk p1 extending last data hdata).extending = extending :=
  p2Of_extend extending last

theorem uploadChunk_more (p1 : UInt8) (extending last : Bool) (data : List UInt8)
    (hdata : data.length ≤ 255) :
    (uploadChunk p1 extending last data hdata).more = !last :=
  p2Of_more extending last

/-- The bytes of one `InsSignMessage` APDU. -/
def signMessageApdu (p1 : UInt8) (extending last : Bool) (data : List UInt8) : List UInt8 :=
  [cla, 0x03, p1, p2Of extending last, UInt8.ofNat data.length] ++ data

/-- A message cut into a first part that fits behind the path, and non-empty
later parts. -/
structure Cutting (path : List UInt32) (message : List UInt8) where
  first : List UInt8
  later : List (List UInt8)
  joined : first ++ later.flatten = message
  first_fits : 2 + 4 * path.length + first.length ≤ 255
  later_fits : ∀ part ∈ later, part ≠ [] ∧ part.length ≤ 255

/-- The extensions that send the later parts: all but the last announce another. -/
def laterApdus (p1 : UInt8) : List (List UInt8) → List (List UInt8)
  | [] => []
  | part :: rest => signMessageApdu p1 true rest.isEmpty part :: laterApdus p1 rest

/-- The data of the first chunk. -/
def firstData (path : List UInt32) (first : List UInt8) : List UInt8 :=
  1 :: UInt8.ofNat path.length :: encodePath path ++ first

def Cutting.apdus {path : List UInt32} {message : List UInt8} (cut : Cutting path message)
    (p1 : UInt8) : List (List UInt8) :=
  signMessageApdu p1 false cut.later.isEmpty (firstData path cut.first) :: laterApdus p1 cut.later

/-- The command that an upload of `message` arrives at. -/
def uploaded (p1 : UInt8) (path : List UInt32) (message : List UInt8) (state : ApduState) :
    ApduCommand where
  state := state
  instruction := .signMessage
  numDerivationPaths := 1
  derivationPath := .padded _ 0 path
  derivationPathLength := path.length
  nonConfirm := decide (p1 = p1NonConfirm)
  deprecatedHost := false
  message := .padded _ 0 message
  messageLength := message.length
  messageHash := .replicate _ 0

theorem uploaded_holds {p1 : UInt8} {path : List UInt32} {message : List UInt8}
    {state : ApduState} (h : message.length ≤ maxMessageLength) :
    (uploaded p1 path message state).Holds message :=
  ⟨rfl, rfl, h⟩

theorem uploaded_extendable (p1 : UInt8) (path : List UInt32) (message data : List UInt8)
    (last : Bool) (hdata : data.length ≤ 255) :
    Extendable (uploadChunk p1 true last data hdata)
      (uploaded p1 path message .payloadInProgress) :=
  ⟨rfl, rfl, rfl, rfl, rfl⟩

/-- The first chunk of an upload, from any command. -/
theorem upload_first (p1 : UInt8) (path : List UInt32) (first : List UInt8) (last : Bool)
    (command : ApduCommand) (hlow : 1 ≤ path.length) (hhigh : path.length ≤ maxBip32PathLength)
    (hfits : 2 + 4 * path.length + first.length ≤ 255) :
    apduHandleMessage (signMessageApdu p1 false last (firstData path first)) command =
      .ok (0, uploaded p1 path first (if last then .payloadComplete else .payloadInProgress)) := by
  have hdata : (firstData path first).length ≤ 255 := by
    have hlength := encodePath_length path
    simp only [firstData, List.length_cons, List.length_append]
    omega
  have hsplit : (uploadChunk p1 false last (firstData path first) hdata).split =
      some (path, first) := by
    have hpath := splitPath_encodePath path first hlow hhigh
    simp only [List.cons_append] at hpath
    simp [Chunk.split, uploadChunk, firstData, hpath]
  have hcall := apduHandleMessage_started (uploadChunk p1 false last (firstData path first) hdata)
    command (by simp [uploadChunk]) (uploadChunk_extending p1 false last _ hdata) hsplit
  have hbytes : (uploadChunk p1 false last (firstData path first) hdata).bytes =
      signMessageApdu p1 false last (firstData path first) := rfl
  rw [← hbytes, hcall, Chunk.stateAfter, uploadChunk_more]
  cases last <;> rfl

/-- A later chunk of an upload: it is appended, or refused for its size. -/
theorem upload_later (p1 : UInt8) (path : List UInt32) (message part : List UInt8) (last : Bool)
    (hmessage : message.length ≤ maxMessageLength) (hne : part ≠ []) (hpart : part.length ≤ 255) :
    apduHandleMessage (signMessageApdu p1 true last part)
        (uploaded p1 path message .payloadInProgress) =
      if (message ++ part).length > maxMessageLength then
        .ok (ApduReply.aelfInvalidMessageSize.code, uploaded p1 path message .payloadInProgress)
      else .ok (0, uploaded p1 path (message ++ part)
        (if last then .payloadComplete else .payloadInProgress)) := by
  have hcall := apduHandleMessage_extendable (uploaded_holds hmessage) rfl
    (uploadChunk_extending p1 true last part hpart)
    (uploaded_extendable p1 path message part last hpart) hne
  have hbytes : (uploadChunk p1 true last part hpart).bytes = signMessageApdu p1 true last part :=
    rfl
  have hextend : (uploaded p1 path message .payloadInProgress).extend message
      (uploadChunk p1 true last part hpart) =
        uploaded p1 path (message ++ part)
          (if last then .payloadComplete else .payloadInProgress) := by
    simp only [ApduCommand.extend, uploaded, Chunk.stateAfter, uploadChunk_more]
    cases last <;> rfl
  rw [← hbytes, hcall, hextend]
  rfl

/-- The state of a log in which every call returned zero. -/
def allAccepted (apdus : List (List UInt8)) : List (List UInt8 × Nat) := apdus.map (·, 0)

/-- Any number of parts that fit and announce another. -/
theorem upload_parts (p1 : UInt8) (path : List UInt32) (parts : List (List UInt8))
    (message : List UInt8) (hfits : (message ++ parts.flatten).length ≤ maxMessageLength)
    (hparts : ∀ part ∈ parts, part ≠ [] ∧ part.length ≤ 255) :
    run apduHandleMessage (parts.map (signMessageApdu p1 true false))
        (uploaded p1 path message .payloadInProgress) =
      .ok (allAccepted (parts.map (signMessageApdu p1 true false)),
        uploaded p1 path (message ++ parts.flatten) .payloadInProgress) := by
  induction parts generalizing message with
  | nil => simp [run, allAccepted]
  | cons part rest ih =>
      obtain ⟨hne, hpart⟩ := hparts part (by simp)
      simp only [List.flatten_cons, ← List.append_assoc] at hfits ⊢
      have hroom : ¬ (message ++ part).length > maxMessageLength := by
        simp only [List.length_append] at hfits ⊢
        omega
      have hmessage : message.length ≤ maxMessageLength := by
        simp only [List.length_append] at hfits
        omega
      have hstep := upload_later p1 path message part false hmessage hne hpart
      rw [if_neg hroom] at hstep
      have hrest := ih (message ++ part) hfits (fun other member => hparts other (by simp [member]))
      exact run_cons_ok hstep hrest

/-- Where a list of later parts ends, or where one stands in it. -/
theorem laterApdus_append (p1 : UInt8) (taken rest : List (List UInt8)) (part : List UInt8) :
    laterApdus p1 (taken ++ part :: rest) =
      taken.map (signMessageApdu p1 true false) ++
        signMessageApdu p1 true rest.isEmpty part :: laterApdus p1 rest := by
  induction taken with
  | nil => rfl
  | cons head taken ih =>
      have hmore : (taken ++ part :: rest).isEmpty = false := by simp
      simp only [List.cons_append, laterApdus, ih, hmore, List.map_cons]

theorem isEmpty_concat {α : Type} (taken : List α) (last : α) :
    (taken ++ [last]).isEmpty = false := by simp

/-- A message that fits is assembled, however it is cut. -/
theorem Cutting.run_fits {path : List UInt32} {message : List UInt8} (cut : Cutting path message)
    (p1 : UInt8) (command : ApduCommand) (hlow : 1 ≤ path.length)
    (hhigh : path.length ≤ maxBip32PathLength) (hfits : message.length ≤ maxMessageLength) :
    run apduHandleMessage (cut.apdus p1) command =
      .ok (allAccepted (cut.apdus p1), uploaded p1 path message .payloadComplete) := by
  obtain ⟨first, later, rfl, hfirst, hlater⟩ := cut
  rcases List.eq_nil_or_concat later with rfl | ⟨taken, last, rfl⟩
  · have hcall := upload_first p1 path first true command hlow hhigh hfirst
    exact run_cons_ok (by simpa using hcall) (by simp [run, laterApdus])
  · have hcall := upload_first p1 path first false command hlow hhigh hfirst
    simp only [List.concat_eq_append, List.flatten_append, List.flatten_cons, List.flatten_nil,
      List.append_nil, ← List.append_assoc] at hfits hlater ⊢
    have hroom : (first ++ taken.flatten).length ≤ maxMessageLength := by
      simp only [List.length_append] at hfits ⊢
      omega
    have hparts := upload_parts p1 path taken first hroom
      (fun part member => hlater part (by simp [member]))
    obtain ⟨hne, hlast⟩ := hlater last (by simp)
    have hfinal := upload_later p1 path (first ++ taken.flatten) last true hroom hne hlast
    rw [if_neg (by omega)] at hfinal
    have hend : run apduHandleMessage [signMessageApdu p1 true true last]
        (uploaded p1 path (first ++ taken.flatten) .payloadInProgress) =
        .ok (allAccepted [signMessageApdu p1 true true last],
          uploaded p1 path (first ++ taken.flatten ++ last) .payloadComplete) :=
      run_cons_ok (by simpa using hfinal) rfl
    simp only [Cutting.apdus, isEmpty_concat, laterApdus_append, laterApdus, List.isEmpty_nil,
      allAccepted, List.map_cons, List.map_append]
    apply run_cons_ok (by simpa using hcall)
    simpa [allAccepted] using run_append hparts hend

/-- The part of an upload that would exceed the buffer. -/
theorem exists_exceeding (parts : List (List UInt8)) (message : List UInt8)
    (hmessage : message.length ≤ maxMessageLength)
    (hexceeds : maxMessageLength < (message ++ parts.flatten).length) :
    ∃ taken part rest, parts = taken ++ part :: rest ∧
      (message ++ taken.flatten).length ≤ maxMessageLength ∧
      maxMessageLength < (message ++ taken.flatten ++ part).length := by
  induction parts generalizing message with
  | nil =>
      simp only [List.flatten_nil, List.append_nil] at hexceeds
      omega
  | cons part rest ih =>
      by_cases hroom : (message ++ part).length ≤ maxMessageLength
      · obtain ⟨taken, found, more, rfl, hfits, hover⟩ := ih (message ++ part) hroom
          (by simpa using hexceeds)
        exact ⟨part :: taken, found, more, rfl, by simpa using hfits, by simpa using hover⟩
      · exact ⟨[], part, rest, rfl, by simpa using hmessage, by simpa using hroom⟩

/-- An upload that is too large goes through up to the first part that does
not fit; that part is refused and the command stays as it was. -/
theorem Cutting.run_exceeds {path : List UInt32} {message : List UInt8}
    (cut : Cutting path message) (p1 : UInt8) (command : ApduCommand) (hlow : 1 ≤ path.length)
    (hhigh : path.length ≤ maxBip32PathLength) (hexceeds : maxMessageLength < message.length) :
    ∃ (sent : List (List UInt8)) (apdu : List UInt8) (unsent : List (List UInt8))
        (last : Bool) (taken part : List UInt8),
      cut.apdus p1 = sent ++ apdu :: unsent ∧ apdu = signMessageApdu p1 true last part ∧
      taken.length ≤ maxMessageLength ∧ maxMessageLength < (taken ++ part).length ∧
      run apduHandleMessage sent command =
        .ok (allAccepted sent, uploaded p1 path taken .payloadInProgress) ∧
      apduHandleMessage apdu (uploaded p1 path taken .payloadInProgress) =
        .ok (ApduReply.aelfInvalidMessageSize.code, uploaded p1 path taken .payloadInProgress) := by
  obtain ⟨first, later, rfl, hfirst, hlater⟩ := cut
  have hfirstRoom : first.length ≤ maxMessageLength := le_maxMessageLength (by omega)
  obtain ⟨taken, part, rest, rfl, hfits, hover⟩ :=
    exists_exceeding later first hfirstRoom hexceeds
  have hcall := upload_first p1 path first false command hlow hhigh hfirst
  have hparts := upload_parts p1 path taken first hfits
    (fun other member => hlater other (by simp [member]))
  obtain ⟨hne, hpart⟩ := hlater part (by simp)
  have hrefused := upload_later p1 path (first ++ taken.flatten) part rest.isEmpty hfits hne hpart
  rw [if_pos hover] at hrefused
  have hempty : (taken ++ part :: rest).isEmpty = false := by simp
  refine ⟨signMessageApdu p1 false false (firstData path first) ::
      taken.map (signMessageApdu p1 true false),
    signMessageApdu p1 true rest.isEmpty part, laterApdus p1 rest, rest.isEmpty,
    first ++ taken.flatten, part, ?_, rfl, hfits, hover, ?_, hrefused⟩
  · simp only [Cutting.apdus, hempty, laterApdus_append, List.cons_append]
  · exact run_cons_ok (by simpa using hcall) hparts

/-- No upload in chunks that are all accepted ends with a shorter message. -/
theorem Cutting.not_accepted {path : List UInt32} {message other : List UInt8}
    (cut : Cutting path other) (p1 : UInt8) (command final : ApduCommand) (hlow : 1 ≤ path.length)
    (hhigh : path.length ≤ maxBip32PathLength) (hlonger : message.length < other.length)
    (hrun : run apduHandleMessage (cut.apdus p1) command =
      .ok (allAccepted (cut.apdus p1), final)) : final.messageBytes ≠ message := by
  rintro rfl
  rcases Nat.lt_or_ge maxMessageLength other.length with hexceeds | hfits
  · obtain ⟨sent, apdu, unsent, _, taken, part, hcut, -, -, -, hsent, hrefused⟩ :=
      cut.run_exceeds p1 command hlow hhigh hexceeds
    simp only [hcut, run_append_eq, hsent, run, hrefused, ok_bind, bind_eq_ok, pure_eq_ok,
      Except.ok.injEq, Prod.mk.injEq, allAccepted, List.map_append, List.map_cons,
      List.append_cancel_left_eq] at hrun
    obtain ⟨_, ⟨_, _, rfl⟩, hlog, -⟩ := hrun
    simp only [List.cons.injEq, Prod.mk.injEq, true_and] at hlog
    exact ApduReply.code_ne_zero .aelfInvalidMessageSize hlog.1
  · cases hrun.symm.trans (cut.run_fits p1 command hlow hhigh hfits)
    rw [(uploaded_holds hfits).messageBytes] at hlonger
    exact Nat.lt_irrefl _ hlonger

/-- Chunked upload does not depend on the cut: from any command, every chunk
of a message that fits is accepted and the command is the same for every
cutting; the first chunk of a larger message that does not fit is refused and
changes nothing. -/
theorem upload_any_cutting (path : List UInt32) (message : List UInt8) (p1 : UInt8)
    (hlow : 1 ≤ path.length) (hhigh : path.length ≤ maxBip32PathLength) :
    (message.length ≤ maxMessageLength →
      ∃ final : ApduCommand, final.state = .payloadComplete ∧ final.path = path ∧
        final.messageBytes = message ∧ final.nonConfirm = decide (p1 = p1NonConfirm) ∧
        ∀ (cut : Cutting path message) (command : ApduCommand),
          run apduHandleMessage (cut.apdus p1) command =
            .ok (allAccepted (cut.apdus p1), final)) ∧
    (maxMessageLength < message.length →
      ∀ (cut : Cutting path message) (command : ApduCommand),
        ∃ (sent : List (List UInt8)) (apdu : List UInt8) (unsent : List (List UInt8))
            (last : Bool) (part : List UInt8) (kept : ApduCommand),
          cut.apdus p1 = sent ++ apdu :: unsent ∧ apdu = signMessageApdu p1 true last part ∧
          kept.messageBytes.length ≤ maxMessageLength ∧
          maxMessageLength < (kept.messageBytes ++ part).length ∧
          run apduHandleMessage sent command = .ok (allAccepted sent, kept) ∧
          apduHandleMessage apdu kept =
            .ok (ApduReply.aelfInvalidMessageSize.code, kept)) := by
  constructor
  · intro hfits
    refine ⟨uploaded p1 path message .payloadComplete, rfl, Buffer.padded_take hhigh,
      (uploaded_holds hfits).messageBytes, rfl, ?_⟩
    intro cut command
    exact cut.run_fits p1 command hlow hhigh hfits
  · intro hexceeds cut command
    obtain ⟨sent, apdu, unsent, last, taken, part, hcut, hapdu, htaken, hover, hrun, hrefused⟩ :=
      cut.run_exceeds p1 command hlow hhigh hexceeds
    have hholds : (uploaded p1 path taken .payloadInProgress).Holds taken := uploaded_holds htaken
    have hbytes := hholds.messageBytes
    exact ⟨sent, apdu, unsent, last, part, uploaded p1 path taken .payloadInProgress, hcut, hapdu,
      by rwa [hbytes], by rwa [hbytes], hrun, hrefused⟩

/-- Three bytes for a path of one index, sent as one byte and two. -/
def threeBytes : Cutting [0x8000002C] [1, 2, 3] where
  first := [1]
  later := [[2, 3]]
  joined := rfl
  first_fits := by decide
  later_fits := by decide

theorem upload_threeBytes :
    ∃ final : ApduCommand, final.messageBytes = [1, 2, 3] ∧
      run apduHandleMessage (threeBytes.apdus 1) .zero =
        .ok (allAccepted (threeBytes.apdus 1), final) := by
  obtain ⟨final, _, _, hbytes, _, hrun⟩ :=
    (upload_any_cutting [0x8000002C] [1, 2, 3] 1 (by decide) (by decide)).1 (by decide)
  exact ⟨final, hbytes, hrun threeBytes .zero⟩

end AelfApp.Apdu
