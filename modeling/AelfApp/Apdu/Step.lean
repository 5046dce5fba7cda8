import AelfApp.Apdu.Chunks

/-!
Everything one call of `apdu_handle_message` can do to the command, said
once: `apduHandleMessage_cases` lists the outcomes, and every invariant of a
run is a case analysis on them.
-/

namespace AelfApp.Apdu

open Memory

/-- The command that one upload leaves: the fields its first chunk sets, with
the path and the message gathered so far. -/
def assembled (first : Chunk) (numDerivationPaths : UInt8) (path : List UInt32)
    (message : List UInt8) (state : ApduState) : ApduCommand where
  state := state
  instruction := first.instruction
  numDerivationPaths := numDerivationPaths
  derivationPath := .padded _ 0 path
  derivationPathLength := path.length
  nonConfirm := first.nonConfirm
  deprecatedHost := false
  message := .padded _ 0 message
  messageLength := message.length
  messageHash := .replicate _ 0

theorem assembled_holds {first : Chunk} {numDerivationPaths : UInt8} {path : List UInt32}
    {message : List UInt8} {state : ApduState} (h : message.length ≤ maxMessageLength) :
    (assembled first numDerivationPaths path message state).Holds message :=
  ⟨rfl, rfl, h⟩

theorem assembled_path {first : Chunk} {numDerivationPaths : UInt8} {path : List UInt32}
    {message : List UInt8} {state : ApduState} (h : path.length ≤ maxBip32PathLength) :
    (assembled first numDerivationPaths path message state).path = path :=
  Buffer.padded_take h

/-- The command after an accepted `GetAppConfiguration`. -/
def configured (chunk : Chunk) : ApduCommand :=
  { ApduCommand.zero with
    state := .payloadComplete
    instruction := .getAppConfiguration
    nonConfirm := chunk.nonConfirm }

/-- The command in progress is one that `chunk` may extend. -/
structure Extendable (chunk : Chunk) (command : ApduCommand) : Prop where
  state : command.state = .payloadInProgress
  instruction : command.instruction = chunk.instruction
  nonConfirm : command.nonConfirm = chunk.nonConfirm
  deprecatedHost : command.deprecatedHost = false
  numDerivationPaths : command.numDerivationPaths = 1

/-- The command with the data of an extension appended to its message. -/
def ApduCommand.extend (command : ApduCommand) (message : List UInt8) (chunk : Chunk) :
    ApduCommand :=
  { command with
    message := .padded _ 0 (message ++ chunk.data)
    messageLength := (message ++ chunk.data).length
    state := chunk.stateAfter }

/-- What a call can do to a command that holds `message`. -/
inductive Handled (apduMessage : List UInt8) (command : ApduCommand) (message : List UInt8) :
    Nat → ApduCommand → Prop where
  /-- The header, or the extension, is refused: nothing is written. -/
  | refused (reply : ApduReply) :
      Handled apduMessage command message reply.code command
  | configured (chunk : Chunk) (hbytes : apduMessage = chunk.bytes)
      (hinstruction : chunk.instruction = .getAppConfiguration) :
      Handled apduMessage command message 0 (configured chunk)
  /-- A first chunk without a valid path: the command is cleared and stays so. -/
  | discarded (chunk : Chunk) (reply : ApduReply) (count : UInt8)
      (hbytes : apduMessage = chunk.bytes) (hfirst : chunk.extending = false)
      (hsplit : chunk.split = none) :
      Handled apduMessage command message reply.code
        { ApduCommand.zero with numDerivationPaths := count }
  | started (chunk : Chunk) (path : List UInt32) (rest : List UInt8)
      (hbytes : apduMessage = chunk.bytes)
      (hinstruction : chunk.instruction ≠ .getAppConfiguration)
      (hfirst : chunk.extending = false) (hsplit : chunk.split = some (path, rest)) :
      Handled apduMessage command message 0 (assembled chunk 1 path rest chunk.stateAfter)
  | extended (chunk : Chunk) (hbytes : apduMessage = chunk.bytes)
      (hinstruction : chunk.instruction = .signMessage) (hextending : chunk.extending = true)
      (hvalid : Extendable chunk command) (hdata : chunk.data ≠ [])
      (hroom : (message ++ chunk.data).length ≤ maxMessageLength) :
      Handled apduMessage command message 0 (command.extend message chunk)
  /-- An extension of an instruction that is never extended starts a command
  without a path. -/
  | pathless (chunk : Chunk) (hbytes : apduMessage = chunk.bytes)
      (hinstruction : chunk.instruction = .getPubkey ∨ chunk.instruction = .getTxResult)
      (hextending : chunk.extending = true)
      (hdata : chunk.instruction = .getTxResult → chunk.data ≠ []) :
      Handled apduMessage command message 0 (assembled chunk 0 [] chunk.data chunk.stateAfter)
  /-- The same without data, which `GetTxResult` refuses after clearing. -/
  | emptied (chunk : Chunk) (hbytes : apduMessage = chunk.bytes)
      (hinstruction : chunk.instruction = .getTxResult) (hextending : chunk.extending = true)
      (hdata : chunk.data = []) :
      Handled apduMessage command message ApduReply.aelfInvalidMessageSize.code
        (assembled chunk 0 [] [] .payloadInProgress)

theorem Chunk.firstDataChunk (chunk : Chunk) :
    decide (chunk.header.p2 &&& p2Extend = 0) = !chunk.extending := by
  simp [Chunk.extending, Chunk.header]

/-- A first chunk clears the command, reads its path and stores the rest. -/
theorem apduHandleMessage_first (chunk : Chunk) (command : ApduCommand)
    (hinstruction : chunk.instruction ≠ .getAppConfiguration) (hfirst : chunk.extending = false) :
    apduHandleMessage chunk.bytes command = (do
      let (ret, header, cleared) ← readFirstChunk chunk.bytes chunk.header .zero
      if ret ≠ 0 then pure (ret, cleared) else appendData chunk.bytes header cleared) := by
  have hprepare : prepareCommand chunk.header true command = some .zero := by
    simp [prepareCommand]
  have hheader : chunk.header.instruction ≠ .getAppConfiguration := hinstruction
  simp only [apduHandleMessage, parseHeader_bytes, chunk.firstDataChunk, hfirst, Bool.not_false,
    hprepare, hheader, ok_bind, pure_eq_ok, ↓reduceIte]

/-- The command of an accepted first chunk. -/
theorem apduHandleMessage_started (chunk : Chunk) (command : ApduCommand)
    {path : List UInt32} {rest : List UInt8}
    (hinstruction : chunk.instruction ≠ .getAppConfiguration) (hfirst : chunk.extending = false)
    (hsplit : chunk.split = some (path, rest)) :
    apduHandleMessage chunk.bytes command =
      .ok (0, assembled chunk 1 path rest chunk.stateAfter) := by
  obtain ⟨before, hbytes, hread⟩ := readFirstChunk_some hsplit
  have hlength := Chunk.split_length hsplit
  have hholds : (ApduCommand.withPath path).Holds [] :=
    ⟨zero_holds.buffer, zero_holds.length, zero_holds.fits⟩
  have hroom : ¬ ([] : List UInt8).length + rest.length > maxMessageLength := by
    rw [List.length_nil, Nat.zero_add]
    exact Nat.not_lt.mpr (le_maxMessageLength hlength)
  have happend := appendData_holds chunk hholds before rest hbytes hlength
  rw [apduHandleMessage_first chunk command hinstruction hfirst, hread]
  simp only [ok_bind, ne_eq, not_true_eq_false, ↓reduceIte, happend, hroom]
  simp [Chunk.mark, ApduCommand.withPath, assembled, ApduCommand.zero]

/-- A first chunk without a valid path. -/
theorem apduHandleMessage_discarded (chunk : Chunk) (command : ApduCommand)
    (hinstruction : chunk.instruction ≠ .getAppConfiguration) (hfirst : chunk.extending = false)
    (hsplit : chunk.split = none) :
    ∃ (reply : ApduReply) (count : UInt8), apduHandleMessage chunk.bytes command =
      .ok (reply.code, { ApduCommand.zero with numDerivationPaths := count }) := by
  obtain ⟨reply, header, count, hread⟩ := readFirstChunk_none hsplit
  refine ⟨reply, count, ?_⟩
  rw [apduHandleMessage_first chunk command hinstruction hfirst, hread]
  simp [reply.code_ne_zero]

/-- An extension goes straight to the command it is prepared. -/
theorem apduHandleMessage_extending (chunk : Chunk) (command : ApduCommand)
    (hinstruction : chunk.instruction ≠ .getAppConfiguration)
    (hextending : chunk.extending = true) :
    apduHandleMessage chunk.bytes command =
      match prepareCommand chunk.header false command with
      | none => .ok (ApduReply.aelfInvalidMessage.code, command)
      | some prepared => appendData chunk.bytes chunk.header prepared := by
  have hheader : chunk.header.instruction ≠ .getAppConfiguration := hinstruction
  have hextends : decide (chunk.header.p2 &&& p2Extend = 0) = false := by
    rw [chunk.firstDataChunk, hextending]
    rfl
  rw [apduHandleMessage, parseHeader_bytes, ok_bind]
  dsimp only
  rw [hextends, if_neg hheader]
  cases prepareCommand chunk.header false command with
  | none => rfl
  | some prepared => rfl

/-- An extension of a message to sign needs a command it may extend. -/
theorem prepareCommand_signMessage (chunk : Chunk) (command : ApduCommand)
    (hinstruction : chunk.instruction = .signMessage) :
    (Extendable chunk command ∧ prepareCommand chunk.header false command = some command) ∨
      prepareCommand chunk.header false command = none := by
  have hheader : chunk.header.instruction = .signMessage := hinstruction
  by_cases hvalid : command.state ≠ .payloadInProgress ∨
      command.instruction ≠ chunk.header.instruction ∨
      command.nonConfirm ≠ decide (chunk.header.p1 = p1NonConfirm) ∨
      command.deprecatedHost ≠ chunk.header.deprecatedHost ∨ command.numDerivationPaths ≠ 1
  · right
    simp only [prepareCommand, hheader, Bool.not_false, ↓reduceIte] at hvalid ⊢
    rw [if_pos hvalid]
  · left
    constructor
    · simp only [ne_eq, not_or, not_not] at hvalid
      obtain ⟨hstate, hins, hnonConfirm, hhost, hpaths⟩ := hvalid
      exact ⟨hstate, hins, hnonConfirm, hhost, hpaths⟩
    · simp only [prepareCommand, hheader, Bool.not_false, ↓reduceIte] at hvalid ⊢
      rw [if_neg hvalid]

/-- Marking a command that may be extended changes nothing. -/
theorem Extendable.mark {chunk : Chunk} {command : ApduCommand} (h : Extendable chunk command) :
    chunk.mark command = command := by
  cases command
  simp only [Chunk.mark, ApduCommand.mk.injEq, and_true, true_and]
  exact ⟨h.state.symm, h.instruction.symm, h.nonConfirm.symm, h.deprecatedHost.symm⟩

/-- The data of a chunk, as `appendData` finds it. -/
theorem Chunk.header_data {chunk : Chunk} (hdata : chunk.data ≠ []) :
    chunk.header = chunk.header.moved chunk.front.length chunk.data.length := by
  have hlength : 0 < chunk.data.length := List.length_pos_of_ne_nil hdata
  simp [Chunk.header, ApduHeader.moved, hlength, Chunk.front_length]

/-- An extension of the command in progress either fits or changes nothing. -/
theorem apduHandleMessage_extendable {chunk : Chunk} {command : ApduCommand}
    {message : List UInt8} (hholds : command.Holds message)
    (hinstruction : chunk.instruction = .signMessage) (hextending : chunk.extending = true)
    (hvalid : Extendable chunk command) (hdata : chunk.data ≠ []) :
    apduHandleMessage chunk.bytes command =
      if (message ++ chunk.data).length > maxMessageLength then
        .ok (ApduReply.aelfInvalidMessageSize.code, command)
      else .ok (0, command.extend message chunk) := by
  have hconfig : chunk.instruction ≠ .getAppConfiguration := by
    rw [hinstruction]
    decide
  have hprepare : prepareCommand chunk.header false command = some command := by
    have hheader : chunk.header.instruction = .signMessage := hinstruction
    have hsame : command.instruction = .signMessage := hvalid.instruction.trans hinstruction
    have hconfirm : command.nonConfirm = decide (chunk.header.p1 = p1NonConfirm) :=
      hvalid.nonConfirm
    have hhost : command.deprecatedHost = chunk.header.deprecatedHost := hvalid.deprecatedHost
    simp [prepareCommand, hheader, hsame, hvalid.state, hconfirm, hhost,
      hvalid.numDerivationPaths]
  rw [apduHandleMessage_extending chunk command hconfig hextending, hprepare,
    Chunk.header_data hdata]
  simp only [appendData_holds chunk hholds chunk.front chunk.data chunk.bytes_eq chunk.data_length,
    hvalid.mark, ← List.length_append]
  rfl

/-- An extension of a message to sign, for a command with a well-formed message. -/
theorem apduHandleMessage_extended (chunk : Chunk) {command : ApduCommand} {message : List UInt8}
    (hholds : command.Holds message) (hinstruction : chunk.instruction = .signMessage)
    (hextending : chunk.extending = true) :
    (∃ reply : ApduReply, apduHandleMessage chunk.bytes command = .ok (reply.code, command)) ∨
      Extendable chunk command ∧ chunk.data ≠ [] ∧
        (message ++ chunk.data).length ≤ maxMessageLength ∧
        apduHandleMessage chunk.bytes command = .ok (0, command.extend message chunk) := by
  have hconfig : chunk.instruction ≠ .getAppConfiguration := by
    rw [hinstruction]
    decide
  rcases prepareCommand_signMessage chunk command hinstruction with ⟨hvalid, hprepare⟩ | hprepare
  swap
  · refine .inl ⟨.aelfInvalidMessage, ?_⟩
    rw [apduHandleMessage_extending chunk command hconfig hextending, hprepare]
  by_cases hdata : chunk.data = []
  · refine .inl ⟨.aelfInvalidMessageSize, ?_⟩
    rw [apduHandleMessage_extending chunk command hconfig hextending, hprepare]
    simp [appendData_none chunk command hdata, hinstruction, hvalid.mark]
  have hcall := apduHandleMessage_extendable hholds hinstruction hextending hvalid hdata
  by_cases hroom : (message ++ chunk.data).length > maxMessageLength
  · exact .inl ⟨.aelfInvalidMessageSize, by rw [hcall, if_pos hroom]⟩
  · exact .inr ⟨hvalid, hdata, by omega, by rw [hcall, if_neg hroom]⟩

/-- Only a message to sign is ever extended: the other two instructions that
take a path start over, without one. -/
theorem apduHandleMessage_pathless (chunk : Chunk) (command : ApduCommand)
    (hinstruction : chunk.instruction = .getPubkey ∨ chunk.instruction = .getTxResult)
    (hextending : chunk.extending = true) :
    apduHandleMessage chunk.bytes command =
      if chunk.instruction = .getTxResult ∧ chunk.data = [] then
        .ok (ApduReply.aelfInvalidMessageSize.code, assembled chunk 0 [] [] .payloadInProgress)
      else .ok (0, assembled chunk 0 [] chunk.data chunk.stateAfter) := by
  have hconfig : chunk.instruction ≠ .getAppConfiguration := by
    rcases hinstruction with h | h <;> rw [h] <;> decide
  have hsign : chunk.instruction ≠ .signMessage := by
    rcases hinstruction with h | h <;> rw [h] <;> decide
  have hprepare : prepareCommand chunk.header false command = some .zero := by
    simp [prepareCommand, Chunk.header, hsign]
  rw [apduHandleMessage_extending chunk command hconfig hextending, hprepare]
  by_cases hdata : chunk.data = []
  · simp only [appendData_none chunk .zero hdata, hdata, and_true]
    rcases hinstruction with hpubkey | htx
    · simp [hpubkey, Chunk.mark, assembled, ApduCommand.zero, Buffer.padded_nil]
    · simp [htx, Chunk.mark, assembled, ApduCommand.zero, Buffer.padded_nil]
  · have hroom : ¬ ([] : List UInt8).length + chunk.data.length > maxMessageLength := by
      rw [List.length_nil, Nat.zero_add]
      exact Nat.not_lt.mpr (le_maxMessageLength chunk.data_length)
    have happend := appendData_holds chunk zero_holds chunk.front chunk.data chunk.bytes_eq
      chunk.data_length
    rw [Chunk.header_data hdata]
    simp only [happend, hroom, hdata, ↓reduceIte]
    simp [Chunk.mark, assembled, ApduCommand.zero, Buffer.padded_nil]

/-- Every call answers, and does one of the things `Handled` lists. -/
theorem apduHandleMessage_cases (apduMessage : List UInt8) {command : ApduCommand}
    {message : List UInt8} (hholds : command.Holds message) :
    ∃ ret after, apduHandleMessage apduMessage command = .ok (ret, after) ∧
      Handled apduMessage command message ret after := by
  rcases parseHeader_cases apduMessage with ⟨reply, hreply⟩ | ⟨chunk, rfl⟩
  · exact ⟨_, _, by simp only [apduHandleMessage, hreply, ok_bind]; rfl, .refused reply⟩
  by_cases hconfig : chunk.instruction = .getAppConfiguration
  · refine ⟨0, configured chunk, ?_, .configured chunk rfl hconfig⟩
    have hheader : chunk.header.instruction = .getAppConfiguration := hconfig
    simp only [apduHandleMessage, parseHeader_bytes, ok_bind, hheader, ↓reduceIte]
    rfl
  cases hextending : chunk.extending with
  | false =>
      cases hsplit : chunk.split with
      | none =>
          obtain ⟨reply, count, hcall⟩ :=
            apduHandleMessage_discarded chunk command hconfig hextending hsplit
          exact ⟨_, _, hcall, .discarded chunk reply count rfl hextending hsplit⟩
      | some found =>
          obtain ⟨path, rest⟩ := found
          exact ⟨_, _, apduHandleMessage_started chunk command hconfig hextending hsplit,
            .started chunk path rest rfl hconfig hextending hsplit⟩
  | true =>
      by_cases hsign : chunk.instruction = .signMessage
      · rcases apduHandleMessage_extended chunk hholds hsign hextending with
          ⟨reply, hcall⟩ | ⟨hvalid, hdata, hroom, hcall⟩
        · exact ⟨_, _, hcall, .refused reply⟩
        · exact ⟨_, _, hcall, .extended chunk rfl hsign hextending hvalid hdata hroom⟩
      have hother : chunk.instruction = .getPubkey ∨ chunk.instruction = .getTxResult := by
        have hne := chunk.instruction_ne
        cases hins : chunk.instruction <;> simp_all
      have hcall := apduHandleMessage_pathless chunk command hother hextending
      by_cases hempty : chunk.instruction = .getTxResult ∧ chunk.data = []
      · rw [if_pos hempty] at hcall
        exact ⟨_, _, hcall, .emptied chunk rfl hempty.1 hextending hempty.2⟩
      · rw [if_neg hempty] at hcall
        refine ⟨_, _, hcall, .pathless chunk rfl hother hextending ?_⟩
        intro htx hdata
        exact hempty ⟨htx, hdata⟩

end AelfApp.Apdu
