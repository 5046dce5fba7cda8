import AelfApp.Apdu.Step

/-!
Extensions of a message to sign, for every command they may meet, whether a
run can reach it or not. An `InsSignMessage` extends or changes nothing; an
`InsGetTxResult` with the same flag clears the command and starts over.
-/

namespace AelfApp.Apdu

open Memory

/-- The call appends the APDU's data to a command in progress for the same
instruction, or leaves the command exactly as it was. -/
def ExtendsOnly (apdu : List UInt8) (command : ApduCommand) : Prop :=
  ∀ ret after, apduHandleMessage apdu command = .ok (ret, after) →
    (ret = 0 →
      command.state = .payloadInProgress ∧
      command.instruction.toByte = apdu.getD offsetIns 0 ∧
      after.instruction = command.instruction ∧
      after.messageBytes = command.messageBytes ++ apdu.drop offsetCdata ∧
      after.derivationPath = command.derivationPath ∧
      after.derivationPathLength = command.derivationPathLength ∧
      after.numDerivationPaths = command.numDerivationPaths ∧
      after.nonConfirm = command.nonConfirm) ∧
    (ret ≠ 0 → after = command)

/-- An empty `InsGetTxResult` command without a path, in progress. -/
structure BlankTxResult (chunk : Chunk) (command : ApduCommand) : Prop where
  state : command.state = .payloadInProgress
  instruction : command.instruction = .getTxResult
  message : command.messageBytes = []
  derivationPath : command.derivationPath = .replicate _ 0
  derivationPathLength : command.derivationPathLength = 0
  numDerivationPaths : command.numDerivationPaths = 0
  nonConfirm : command.nonConfirm = chunk.nonConfirm

/-- No `InsGetTxResult` APDU that passes the header checks, unless the command
is already the blank one that such an APDU starts from. -/
def StartsNothing (apdu : List UInt8) (command : ApduCommand) : Prop :=
  ∀ chunk : Chunk, apdu = chunk.bytes → chunk.instruction = .getTxResult →
    (chunk.data ≠ [] → BlankTxResult chunk command) ∧
    (chunk.data = [] → command = assembled chunk 0 [] [] .payloadInProgress)

theorem Chunk.bytes_ins (chunk : Chunk) :
    chunk.bytes.getD offsetIns 0 = chunk.instruction.toByte := rfl

theorem Chunk.bytes_p2 (chunk : Chunk) : chunk.bytes.getD offsetP2 0 = chunk.p2 := rfl

theorem Chunk.bytes_data (chunk : Chunk) : chunk.bytes.drop offsetCdata = chunk.data := rfl

/-- Bytes stored behind a message are the end of the longer message. -/
theorem messageBytes_append {command after : ApduCommand} {data : List UInt8}
    (hwrite : command.message.writeBytes command.messageLength data = .ok after.message)
    (hlength : after.messageLength = command.messageLength + data.length) :
    after.messageBytes = command.messageBytes ++ data := by
  obtain ⟨hlow, hhigh, hlist⟩ := writeBytes_eq_ok.mp (Buffer.writeBytes_eq_ok hwrite)
  obtain ⟨n, hn⟩ := Int.eq_ofNat_of_zero_le hlow
  have htake : (command.message.toList.take n ++ data).length = n + data.length := by
    simp only [List.length_append, List.length_take]
    omega
  have hsum : ((n : Int) + data.length).toNat = n + data.length := by omega
  simp only [ApduCommand.messageBytes, hlength, hn, Int.toNat_natCast, ← hlist, hsum, ← htake,
    List.take_left]

/-- An extension of a message to sign extends or changes nothing. -/
theorem signMessage_extendsOnly (chunk : Chunk) (command : ApduCommand)
    (hinstruction : chunk.instruction = .signMessage) (hextending : chunk.extending = true) :
    ExtendsOnly chunk.bytes command := by
  intro ret after hcall
  have hconfig : chunk.instruction ≠ .getAppConfiguration := by
    rw [hinstruction]
    decide
  rw [apduHandleMessage_extending chunk command hconfig hextending] at hcall
  rcases prepareCommand_signMessage chunk command hinstruction with ⟨hvalid, hprepare⟩ | hprepare
  swap
  · rw [hprepare] at hcall
    cases hcall
    exact ⟨fun hret => absurd hret (ApduReply.code_ne_zero _), fun _ => rfl⟩
  rw [hprepare] at hcall
  by_cases hdata : chunk.data = []
  · simp only [appendData_none chunk command hdata, hinstruction, reduceCtorEq, ↓reduceIte,
      hvalid.mark] at hcall
    cases hcall
    exact ⟨fun hret => absurd hret (ApduReply.code_ne_zero _), fun _ => rfl⟩
  rw [Chunk.header_data hdata] at hcall
  simp only [appendData_some chunk command chunk.front chunk.data chunk.bytes_eq,
    hvalid.mark] at hcall
  split at hcall
  · cases hcall
    exact ⟨fun hret => absurd hret (ApduReply.code_ne_zero _), fun _ => rfl⟩
  · obtain ⟨message, hwrite, hafter⟩ := bind_eq_ok.mp hcall
    cases hafter
    refine ⟨fun _ => ⟨hvalid.state, ?_, rfl, ?_, rfl, rfl, rfl, rfl⟩, fun hret => absurd rfl hret⟩
    · rw [chunk.bytes_ins, hvalid.instruction]
    · rw [chunk.bytes_data]
      exact messageBytes_append hwrite rfl

/-- What an extension of `InsGetTxResult` leaves does not depend on the
command, so it extends only the command that it would start from anyway. -/
theorem getTxResult_extendsOnly_iff (chunk : Chunk) (command : ApduCommand)
    (hinstruction : chunk.instruction = .getTxResult) (hextending : chunk.extending = true) :
    ExtendsOnly chunk.bytes command ↔
      (chunk.data ≠ [] → BlankTxResult chunk command) ∧
      (chunk.data = [] → command = assembled chunk 0 [] [] .payloadInProgress) := by
  have hcall := apduHandleMessage_pathless chunk command (.inr hinstruction) hextending
  have hfits : chunk.data.length ≤ maxMessageLength := le_maxMessageLength chunk.data_length
  by_cases hdata : chunk.data = []
  · rw [if_pos ⟨hinstruction, hdata⟩] at hcall
    constructor
    · intro hextends
      refine ⟨fun hne => absurd hdata hne, fun _ => ?_⟩
      exact ((hextends _ _ hcall).2 (ApduReply.code_ne_zero _)).symm
    · rintro ⟨_, hsame⟩ ret after hother
      cases hcall.symm.trans hother
      exact ⟨fun hret => absurd hret (ApduReply.code_ne_zero _), fun _ => (hsame hdata).symm⟩
  · rw [if_neg (fun h => hdata h.2)] at hcall
    have hbytes : (assembled chunk 0 [] chunk.data chunk.stateAfter).messageBytes = chunk.data :=
      (assembled_holds hfits).messageBytes
    constructor
    · intro hextends
      refine ⟨fun _ => ?_, fun hempty => absurd hempty hdata⟩
      obtain ⟨hstate, _, hins, hmessage, hpath, hlength, hpaths, hconfirm⟩ :=
        (hextends _ _ hcall).1 rfl
      rw [hbytes, chunk.bytes_data, List.self_eq_append_left] at hmessage
      exact ⟨hstate, hins.symm.trans hinstruction, hmessage, hpath.symm.trans Buffer.padded_nil,
        hlength.symm, hpaths.symm, hconfirm.symm⟩
    · rintro ⟨hblank, _⟩ ret after hother
      cases hcall.symm.trans hother
      have h := hblank hdata
      refine ⟨fun _ => ⟨h.state, ?_, hinstruction.trans h.instruction.symm, ?_, ?_,
        h.derivationPathLength.symm, h.numDerivationPaths.symm, h.nonConfirm.symm⟩,
        fun hret => absurd rfl hret⟩
      · rw [chunk.bytes_ins, h.instruction, hinstruction]
      · rw [hbytes, chunk.bytes_data, h.message, List.nil_append]
      · rw [h.derivationPath]
        exact Buffer.padded_nil

/-- An APDU with `P2_EXTEND` for one of the two instructions with a message to
sign extends the command, or leaves it alone, exactly if it does not start a
command over. -/
theorem extendsOnly_iff (apdu : List UInt8) (command : ApduCommand)
    (hinstruction : apdu.getD offsetIns 0 = InstructionCode.signMessage.toByte ∨
      apdu.getD offsetIns 0 = InstructionCode.getTxResult.toByte)
    (hextend : apdu.getD offsetP2 0 &&& p2Extend ≠ 0) :
    ExtendsOnly apdu command ↔ StartsNothing apdu command := by
  rcases parseHeader_cases apdu with ⟨reply, hreply⟩ | ⟨chunk, rfl⟩
  · have hcall : apduHandleMessage apdu command = .ok (reply.code, command) := by
      simp only [apduHandleMessage, hreply, ok_bind]
      rfl
    constructor
    · intro _ chunk hchunk
      rw [hchunk, parseHeader_bytes] at hreply
      cases hreply
    · intro _ ret after hother
      cases hcall.symm.trans hother
      exact ⟨fun hret => absurd hret reply.code_ne_zero, fun _ => rfl⟩
  rw [chunk.bytes_p2] at hextend
  have hextending : chunk.extending = true := by
    simpa [Chunk.extending] using hextend
  rw [chunk.bytes_ins] at hinstruction
  have hstarts : StartsNothing chunk.bytes command ↔ (chunk.instruction = .getTxResult →
      (chunk.data ≠ [] → BlankTxResult chunk command) ∧
      (chunk.data = [] → command = assembled chunk 0 [] [] .payloadInProgress)) := by
    constructor
    · intro h
      exact h chunk rfl
    · intro h other hbytes
      rw [← Chunk.bytes_injective hbytes]
      exact h
  rw [hstarts]
  rcases hinstruction with hsign | htx
  · have hins : chunk.instruction = .signMessage := InstructionCode.toByte_injective hsign
    simp [hins, signMessage_extendsOnly chunk command hins hextending]
  · have hins : chunk.instruction = .getTxResult := InstructionCode.toByte_injective htx
    simpa [hins] using getTxResult_extendsOnly_iff chunk command hins hextending

/-- A first `InsGetTxResult` chunk with more to follow: one path of one index,
and one byte of the message. -/
def firstTxResultApdu : List UInt8 :=
  [cla, 0x04, 0x01, p2More, 7, 1, 1, 0x80, 0, 0, 44, 0xAA]

/-- The extension that was announced, with the next byte. -/
def nextTxResultApdu : List UInt8 := [cla, 0x04, 0x01, p2Extend, 1, 0xBB]

/-- The command that `firstTxResultApdu` leaves. -/
def txResultInProgress : ApduCommand where
  state := .payloadInProgress
  instruction := .getTxResult
  numDerivationPaths := 1
  derivationPath := .padded _ 0 [0x8000002C]
  derivationPathLength := 1
  nonConfirm := false
  deprecatedHost := false
  message := .padded _ 0 [0xAA]
  messageLength := 1
  messageHash := .replicate _ 0

/-- The extension is accepted, and leaves a complete command with only its own
byte and without the path. -/
theorem txResult_extension_replaces :
    apduHandleMessage firstTxResultApdu .zero = .ok (0, txResultInProgress) ∧
      ¬ ExtendsOnly nextTxResultApdu txResultInProgress := by
  refine ⟨by decide +kernel, ?_⟩
  intro h
  have hcall : apduHandleMessage nextTxResultApdu txResultInProgress =
      .ok (0, { txResultInProgress with
        state := .payloadComplete
        numDerivationPaths := 0
        derivationPath := .replicate _ 0
        derivationPathLength := 0
        message := .padded _ 0 [0xBB] }) := by
    decide +kernel
  have hpaths := ((h _ _ hcall).1 rfl).2.2.2.2.2.2.1
  exact absurd hpaths (by decide)

/-- An `InsSignMessage` in progress accepts its next byte. -/
theorem extendsOnly_iff_signMessage :
    (apduHandleMessage [cla, 0x03, 0x01, p2Extend, 1, 0xBB]
        { txResultInProgress with instruction := .signMessage }).map Prod.fst = .ok 0 ∧
      (ExtendsOnly [cla, 0x03, 0x01, p2Extend, 1, 0xBB]
          { txResultInProgress with instruction := .signMessage } ↔
        StartsNothing [cla, 0x03, 0x01, p2Extend, 1, 0xBB]
          { txResultInProgress with instruction := .signMessage }) :=
  ⟨by decide +kernel, extendsOnly_iff _ _ (.inl rfl) (by decide)⟩

end AelfApp.Apdu
