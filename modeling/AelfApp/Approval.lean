import AelfApp.Main

/-!
What is approved is what is signed. The review on the screen and the command
that the Approve step signs are tied together by nothing but the order of the
APDUs: the property holds in a run as long as no APDU touches the command
under a review without putting up a screen of its own.
-/

namespace AelfApp

open Memory Apdu Libsol Machine

section Reviews

/-- Path and message of the last review put up. -/
def lastReviewed (last : Option (List UInt32 × List UInt8)) :
    List Output → Option (List UInt32 × List UInt8)
  | [] => last
  | .reviewed path message :: outputs => lastReviewed (some (path, message)) outputs
  | .signed _ _ :: outputs => lastReviewed last outputs
  | .sent _ :: outputs => lastReviewed last outputs

/-- Every signature is made with path and message of the last review before it. -/
def SignsReviewed (last : Option (List UInt32 × List UInt8)) : List Output → Prop
  | [] => True
  | .reviewed path message :: outputs => SignsReviewed (some (path, message)) outputs
  | .signed path message :: outputs => last = some (path, message) ∧ SignsReviewed last outputs
  | .sent _ :: outputs => SignsReviewed last outputs

theorem lastReviewed_append (last : Option (List UInt32 × List UInt8))
    (first second : List Output) :
    lastReviewed last (first ++ second) = lastReviewed (lastReviewed last first) second := by
  induction first generalizing last with
  | nil => rfl
  | cons output first ih => cases output <;> exact ih _

theorem signsReviewed_append (last : Option (List UInt32 × List UInt8))
    (first second : List Output) :
    SignsReviewed last (first ++ second) ↔
      SignsReviewed last first ∧ SignsReviewed (lastReviewed last first) second := by
  induction first generalizing last with
  | nil => simp [SignsReviewed, lastReviewed]
  | cons output first ih =>
      cases output with
      | reviewed path message => exact ih _
      | signed path message =>
          simp only [List.cons_append, SignsReviewed, lastReviewed, ih, and_assoc]
      | sent response => exact ih _

/-- Responses are no reviews and no signatures. -/
theorem respond_quiet (last : Option (List UInt32 × List UInt8)) (ending : Ending) :
    lastReviewed last (respond ending) = last ∧ SignsReviewed last (respond ending) := by
  cases ending with
  | asynch => exact ⟨rfl, trivial⟩
  | thrown e data => exact ⟨rfl, trivial⟩

end Reviews

section Commands

/-- The path and the message that a chunk carries on its own, if it does not
depend on the command before it and its path can be read. -/
def content (chunk : Chunk) : Option (List UInt32 × List UInt8) :=
  if chunk.extending then
    if chunk.instruction = .signMessage then none else some ([], chunk.data)
  else chunk.split

/-- A command that the handlers put a screen up for: its key is derived, or its
message is reviewable. -/
def PutsUp (sdk : Sdk) (settings : AppSettings) (instruction : InstructionCode)
    (path : List UInt32) (message : List UInt8) : Prop :=
  instruction = .getPubkey ∧ (∃ publicKey, getPublicKey sdk path = .ok publicKey) ∨
    (instruction = .signMessage ∨ instruction = .getTxResult) ∧
      Reviewable settings instruction.toByte.toNat message

/-- An APDU that is a complete command, asks for confirmation and gets a
screen of its own. -/
def StartsScreen (sdk : Sdk) (settings : AppSettings) (apdu : List UInt8) : Prop :=
  ∃ (chunk : Chunk) (path : List UInt32) (message : List UInt8), apdu = chunk.bytes ∧
    chunk.more = false ∧ chunk.nonConfirm = false ∧ content chunk = some (path, message) ∧
    PutsUp sdk settings chunk.instruction path message

/-- An APDU without a valid header, or an extension of a message to sign,
which a complete command does not accept. -/
def LeavesCommand (apdu : List UInt8) : Prop :=
  ∀ chunk : Chunk, apdu = chunk.bytes → chunk.instruction = .signMessage ∧ chunk.extending = true

/-- An event that does not replace the command under a review: while one is on
the screen, every APDU leaves the command alone or starts a screen. -/
def Undisturbing (sdk : Sdk) (event : Event) (device : Device) : Prop :=
  ∀ apdu numSummarySteps index, event = .apdu apdu →
    device.flow = .signMessage numSummarySteps index →
    LeavesCommand apdu ∨ StartsScreen sdk device.settings apdu

theorem handled_holds {apdu message : List UInt8} {command after : ApduCommand} {ret : Nat}
    (hholds : command.Holds message) (h : Handled apdu command message ret after) :
    ∃ message', after.Holds message' := by
  cases h with
  | refused reply => exact ⟨message, hholds⟩
  | configured chunk _ _ => exact ⟨[], zero_holds.buffer, zero_holds.length, zero_holds.fits⟩
  | discarded chunk reply count _ _ _ =>
      exact ⟨[], zero_holds.buffer, zero_holds.length, zero_holds.fits⟩
  | started chunk path rest _ _ _ hsplit =>
      exact ⟨rest, assembled_holds (le_maxMessageLength (Chunk.split_length hsplit))⟩
  | extended chunk _ _ _ _ _ hroom => exact ⟨_, rfl, rfl, hroom⟩
  | pathless chunk _ _ _ _ =>
      exact ⟨chunk.data, assembled_holds (le_maxMessageLength chunk.data_length)⟩
  | emptied chunk _ _ _ _ => exact ⟨[], assembled_holds (Nat.zero_le _)⟩

/-- An accepted APDU leaves the command in progress or complete. -/
theorem handled_state {apdu message : List UInt8} {command after : ApduCommand} {ret : Nat}
    (h : Handled apdu command message ret after) (hret : ret = 0) :
    after.state = .payloadInProgress ∨ after.state = .payloadComplete := by
  have hafter : ∀ chunk : Chunk,
      chunk.stateAfter = .payloadInProgress ∨ chunk.stateAfter = .payloadComplete := by
    intro chunk
    unfold Chunk.stateAfter
    split
    · exact .inl rfl
    · exact .inr rfl
  cases h with
  | refused reply => exact absurd hret reply.code_ne_zero
  | configured chunk _ _ => exact .inr rfl
  | discarded chunk reply count _ _ _ => exact absurd hret reply.code_ne_zero
  | started chunk path rest _ _ _ _ => exact hafter chunk
  | extended chunk _ _ _ _ _ _ => exact hafter chunk
  | pathless chunk _ _ _ _ => exact hafter chunk
  | emptied chunk _ _ _ _ => exact .inl rfl

/-- A complete command is left alone. -/
theorem LeavesCommand.refused {apdu message : List UInt8} (h : LeavesCommand apdu)
    {command : ApduCommand} (hholds : command.Holds message)
    (hcomplete : command.state = .payloadComplete) :
    ∃ reply : ApduReply, apduHandleMessage apdu command = .ok (reply.code, command) := by
  rcases parseHeader_cases apdu with ⟨reply, hreply⟩ | ⟨chunk, rfl⟩
  · exact ⟨reply, by simp only [apduHandleMessage, hreply, ok_bind]; rfl⟩
  obtain ⟨hinstruction, hextending⟩ := h chunk rfl
  rcases apduHandleMessage_extended chunk hholds hinstruction hextending with
    hrefused | ⟨hvalid, -⟩
  · exact hrefused
  · rw [hvalid.state] at hcomplete
    cases hcomplete

/-- A command that does not depend on the one before it. -/
theorem apduHandleMessage_content {chunk : Chunk} {path : List UInt32} {message : List UInt8}
    (hcontent : content chunk = some (path, message))
    (hinstruction : chunk.instruction ≠ .getAppConfiguration)
    (hdata : chunk.instruction = .getTxResult → chunk.extending = true → message ≠ [])
    (command : ApduCommand) :
    path.length ≤ maxBip32PathLength ∧ message.length ≤ maxMessageLength ∧
      ∃ count, apduHandleMessage chunk.bytes command =
        .ok (0, assembled chunk count path message chunk.stateAfter) := by
  unfold content at hcontent
  cases hextending : chunk.extending with
  | false =>
      simp only [hextending, Bool.false_eq_true, ↓reduceIte] at hcontent
      exact ⟨(Chunk.split_some hcontent).2.1,
        le_maxMessageLength (Chunk.split_length hcontent), 1,
        apduHandleMessage_started chunk command hinstruction hextending hcontent⟩
  | true =>
      simp only [hextending, ↓reduceIte] at hcontent
      split at hcontent
      · cases hcontent
      rename_i hsign
      cases hcontent
      have hother : chunk.instruction = .getPubkey ∨ chunk.instruction = .getTxResult := by
        have hne := chunk.instruction_ne
        cases hins : chunk.instruction <;> simp_all
      have hcall := apduHandleMessage_pathless chunk command hother hextending
      rw [if_neg (fun hempty => hdata hempty.1 hextending hempty.2)] at hcall
      exact ⟨Nat.zero_le _, le_maxMessageLength chunk.data_length, 0, hcall⟩

/-- What starts a screen completes a command that is put up, whatever the command
before it. -/
theorem StartsScreen.assembles {sdk : Sdk} {settings : AppSettings} {apdu : List UInt8}
    (h : StartsScreen sdk settings apdu) (command : ApduCommand) :
    ∃ final message, apduHandleMessage apdu command = .ok (0, final) ∧
      final.state = .payloadComplete ∧ final.nonConfirm = false ∧ final.Holds message ∧
      PutsUp sdk settings final.instruction final.path message := by
  obtain ⟨chunk, path, message, rfl, hmore, hconfirm, hcontent, hputs⟩ := h
  have hins : chunk.instruction ≠ .getAppConfiguration := by
    intro hconfig
    simp [PutsUp, hconfig] at hputs
  have hdata : chunk.instruction = .getTxResult → chunk.extending = true → message ≠ [] := by
    rintro htx - rfl
    rcases hputs with ⟨hpubkey, -⟩ | ⟨-, hheader, -⟩
    · rw [htx] at hpubkey
      cases hpubkey
    · exact Nat.not_succ_le_zero _ hheader
  obtain ⟨hpath, hfits, count, hcall⟩ := apduHandleMessage_content hcontent hins hdata command
  refine ⟨_, message, hcall, ?_, hconfirm, assembled_holds hfits, ?_⟩
  · simp [assembled, Chunk.stateAfter, hmore]
  · rw [assembled_path hpath]
    exact hputs

end Commands

section Steps

variable {sdk : Sdk}

/-- What a complete command does to the screen. Only one that does not put
anything up keeps the flow. -/
inductive Dispatched (sdk : Sdk) (device : Device) (message : List UInt8) :
    List Output → Device → Prop where
  | kept (after : Device) (hflow : after.flow = device.flow)
      (hcommand : ∃ messageHash, after.command = { device.command with messageHash })
      (hnot : device.command.nonConfirm = false →
        ¬ PutsUp sdk device.settings device.command.instruction device.command.path message) :
      Dispatched sdk device message [] after
  | pubkey (after : Device) (hflow : after.flow = .pubkey 0)
      (hcommand : ∃ messageHash, after.command = { device.command with messageHash }) :
      Dispatched sdk device message [] after
  | review (after : Device) (numSummarySteps : Nat)
      (hflow : after.flow = .signMessage numSummarySteps 0)
      (hcommand : ∃ messageHash, after.command = { device.command with messageHash }) :
      Dispatched sdk device message
        [.reviewed after.command.path after.command.messageBytes] after

theorem handleGetPubkey_cases {device : Device} (message : List UInt8)
    (hstate : device.command.state = .payloadComplete)
    (hins : device.command.instruction = .getPubkey) :
    Ensures (handleGetPubkey sdk device) fun result =>
      Dispatched sdk device message [] result.2 := by
  have hvalid : ¬ (device.command.instruction ≠ .getPubkey ∨
      device.command.state ≠ .payloadComplete) := by
    simp [hins, hstate]
  rw [handleGetPubkey, if_neg hvalid]
  split
  · rename_i e hrefused
    refine ensures_ok (.kept _ rfl ⟨device.command.messageHash, rfl⟩ ?_)
    rintro - (⟨-, publicKey, hderived⟩ | ⟨hsigns, -⟩)
    · cases hrefused.symm.trans hderived
    · rcases hsigns with h | h <;> cases hins.symm.trans h
  · refine ensures_bind fun filled => ?_
    dsimp only
    split
    · rename_i hconfirm
      refine ensures_ok (.kept _ rfl ⟨device.command.messageHash, rfl⟩ ?_)
      intro hasks
      rw [hasks] at hconfirm
      cases hconfirm
    · exact ensures_ok (.pubkey _ rfl ⟨device.command.messageHash, rfl⟩)

theorem handleSignMessage_cases {device : Device} {message : List UInt8}
    (hholds : device.command.Holds message) (hstate : device.command.state = .payloadComplete)
    (hins : device.command.instruction = .signMessage ∨ device.command.instruction = .getTxResult) :
    Ensures (do
      let (thrown, device) ← handleSignMessageParseMessage sdk device
      match thrown with
      | none => handleSignMessageUi device
      | some e => pure (.thrown e [], [], device))
      fun result => Dispatched sdk device message result.2.1 result.2.2 := by
  have hcode : device.command.instruction.toByte.toNat = 3 ∨
      device.command.instruction.toByte.toNat = 4 := by
    rcases hins with h | h
    · exact .inl (by rw [h]; rfl)
    · exact .inr (by rw [h]; rfl)
  obtain ⟨thrown, parsed, hcall, hsame, hthrown, hreviewed⟩ :=
    handleSignMessageParseMessage_cases sdk hholds rfl hcode
  obtain ⟨messageHash, hcommand⟩ := hsame.command
  rw [hcall, ok_bind]
  cases thrown with
  | some e =>
      refine ensures_ok (.kept parsed hsame.flow ⟨messageHash, hcommand⟩ ?_)
      intro hconfirm hputs
      have hthrows : ¬ (device.command.state = .payloadComplete ∧
          device.command.nonConfirm = false ∧
          Reviewable device.settings device.command.instruction.toByte.toNat message) := by
        simpa using hthrown
      rcases hputs with ⟨hpubkey, -⟩ | ⟨-, hreviewable⟩
      · rcases hins with h | h <;> rw [h] at hpubkey <;> cases hpubkey
      · exact hthrows ⟨hstate, hconfirm, hreviewable⟩
  | none =>
      intro result hui
      obtain ⟨houtputs, hafter, -, numSummarySteps, hflow⟩ :=
        handleSignMessageUi_reviewed (hreviewed rfl) _ hui
      rw [houtputs, ← hafter]
      exact .review _ numSummarySteps hflow ⟨messageHash, hafter.trans hcommand⟩

theorem dispatch_cases {device : Device} {message : List UInt8}
    (hholds : device.command.Holds message) (hstate : device.command.state = .payloadComplete) :
    Ensures (dispatch sdk device) fun result =>
      Dispatched sdk device message result.2.1 result.2.2 := by
  have hnothing : ∀ instruction, device.command.instruction = instruction →
      instruction = .getAppConfiguration ∨ instruction = .unset →
      Dispatched sdk device message [] device := by
    intro instruction hins hother
    refine .kept device rfl ⟨device.command.messageHash, rfl⟩ fun _ hputs => ?_
    rcases hother with rfl | rfl <;> simp [PutsUp, hins] at hputs
  rw [dispatch]
  cases hins : device.command.instruction with
  | unset => exact ensures_ok (hnothing _ hins (.inr rfl))
  | getAppConfiguration => exact ensures_ok (hnothing _ hins (.inl rfl))
  | getPubkey =>
      refine (handleGetPubkey_cases message hstate hins).bind ?_
      rintro ⟨ending, after⟩ hafter
      exact ensures_ok hafter
  | signMessage => exact handleSignMessage_cases hholds hstate (.inl hins)
  | getTxResult => exact handleSignMessage_cases hholds hstate (.inr hins)

end Steps

section Runs

/-- Everything signed so far was reviewed, and a review on the screen is that
of the command. -/
structure Approvable (outputs : List Output) (device : Device) : Prop where
  holds : ∃ message, device.command.Holds message
  signs : SignsReviewed none outputs
  review : ∀ numSummarySteps index, device.flow = .signMessage numSummarySteps index →
    device.command.state = .payloadComplete ∧
      lastReviewed none outputs = some (device.command.path, device.command.messageBytes)

theorem approvable_boot (settings : AppSettings) : Approvable [] (Device.boot settings) where
  holds := ⟨[], zero_holds⟩
  signs := trivial
  review _ _ hflow := by cases hflow

variable {sdk : Sdk} {outputs : List Output} {device : Device}

theorem Approvable.respond (h : Approvable outputs device) (ending : Ending) :
    Approvable (outputs ++ respond ending) device where
  holds := h.holds
  signs := (signsReviewed_append _ _ _).mpr ⟨h.signs, (respond_quiet _ ending).2⟩
  review numSummarySteps index hflow := by
    rw [lastReviewed_append, (respond_quiet _ ending).1]
    exact h.review numSummarySteps index hflow

/-- Without a review on the screen, nothing is asked of the command but its form. -/
theorem Approvable.unreviewed (h : Approvable outputs device) {after : Device}
    (hholds : ∃ message, after.command.Holds message)
    (hflow : ∀ numSummarySteps index, after.flow ≠ .signMessage numSummarySteps index) :
    Approvable outputs after where
  holds := hholds
  signs := h.signs
  review numSummarySteps index hreview := absurd hreview (hflow numSummarySteps index)

/-- A response and the idle flow after it. -/
theorem Approvable.sendResponse (h : Approvable outputs device) (data : List UInt8)
    (approve : Bool) :
    Approvable (outputs ++ (sendResponse data approve device).1)
      (sendResponse data approve device).2 where
  holds := h.holds
  signs := (signsReviewed_append _ _ _).mpr ⟨h.signs, trivial⟩
  review _ _ hflow := by cases hflow

/-- Moving within a flow keeps the command of its review. -/
theorem Approvable.goToStep (h : Approvable outputs device) {flow : Flow}
    (hflow : ∀ numSummarySteps index, flow = .signMessage numSummarySteps index →
      ∃ before, device.flow = .signMessage numSummarySteps before) :
    Ensures (goToStep flow device) fun result => Approvable (outputs ++ result.1) result.2 := by
  refine (initStep_device { device with flow }).bind ?_
  rintro ⟨thrown, after⟩ ⟨summary, -, rfl⟩
  have hmoved : Approvable outputs { device with flow, summary } := by
    refine ⟨h.holds, h.signs, fun numSummarySteps index hreview => ?_⟩
    obtain ⟨before, hbefore⟩ := hflow numSummarySteps index hreview
    exact h.review numSummarySteps before hbefore
  cases thrown with
  | none => exact ensures_ok (by simpa using hmoved)
  | some e => exact ensures_ok (hmoved.respond (.thrown e []))

/-- The Approve step signs the command, which is the one under review. -/
theorem Approvable.validateStep (h : Approvable outputs device) :
    Approvable (outputs ++ (validateStep sdk device).1) (validateStep sdk device).2 := by
  have hnothing : Approvable (outputs ++ []) device := by simpa using h
  unfold AelfApp.validateStep
  split
  · exact hnothing
  · split
    · exact h.sendResponse _ _
    · split
      · exact h.sendResponse _ _
      · exact hnothing
  · rename_i numSummarySteps index hflow
    obtain ⟨-, hreviewed⟩ := h.review numSummarySteps index hflow
    split
    · simp only [sendResultSignMessage]
      split
      · rename_i e _
        exact h.respond (.thrown e.code [])
      · refine ⟨h.holds, ?_, fun _ _ hidle => by cases hidle⟩
        exact (signsReviewed_append _ _ _).mpr ⟨h.signs, hreviewed, trivial⟩
    · split
      · exact h.sendResponse _ _
      · exact hnothing

/-- A complete command keeps the tie, unless it leaves an older review on the
screen. -/
theorem Approvable.dispatched {message : List UInt8} {shown : List Output} {after : Device}
    (h : SignsReviewed none outputs) (hholds : device.command.Holds message)
    (hstate : device.command.state = .payloadComplete)
    (hdispatched : Dispatched sdk device message shown after)
    (hkept : (∃ numSummarySteps index, device.flow = .signMessage numSummarySteps index) →
      device.command.nonConfirm = false ∧
        PutsUp sdk device.settings device.command.instruction device.command.path message) :
    Approvable (outputs ++ shown) after := by
  have hafter : ∀ messageHash, after.command = { device.command with messageHash } →
      ∃ message, after.command.Holds message := by
    intro messageHash hcommand
    rw [hcommand]
    exact ⟨message, hholds.buffer, hholds.length, hholds.fits⟩
  cases hdispatched with
  | kept after hflow hcommand hnot =>
      obtain ⟨messageHash, hcommand⟩ := hcommand
      refine ⟨hafter messageHash hcommand, by simpa using h, ?_⟩
      intro numSummarySteps index hreview
      obtain ⟨hconfirm, hputs⟩ := hkept ⟨numSummarySteps, index, hflow ▸ hreview⟩
      exact absurd hputs (hnot hconfirm)
  | pubkey after hflow hcommand =>
      obtain ⟨messageHash, hcommand⟩ := hcommand
      refine ⟨hafter messageHash hcommand, by simpa using h, ?_⟩
      intro numSummarySteps index hreview
      rw [hflow] at hreview
      cases hreview
  | review after numSummarySteps hflow hcommand =>
      obtain ⟨messageHash, hcommand⟩ := hcommand
      refine ⟨hafter messageHash hcommand, (signsReviewed_append _ _ _).mpr ⟨h, trivial⟩,
        fun _ _ _ => ⟨?_, ?_⟩⟩
      · rw [hcommand]
        exact hstate
      · rw [lastReviewed_append]
        rfl

/-- An APDU that leaves a complete command alone is refused. -/
theorem Approvable.handleApdu_leaves (h : Approvable outputs device) {apdu : List UInt8}
    (hleaves : LeavesCommand apdu) (hstate : device.command.state = .payloadComplete) :
    Ensures (handleApdu sdk apdu device) fun result =>
      Approvable (outputs ++ result.2.1) result.2.2 := by
  obtain ⟨message, hholds⟩ := h.holds
  obtain ⟨reply, hrefused⟩ := hleaves.refused hholds hstate
  rw [AelfApp.handleApdu, hrefused, ok_bind]
  simp only [ne_eq, reply.code_ne_zero, not_false_eq_true, ↓reduceIte]
  exact ensures_ok (by simpa using h)

/-- An APDU that starts a screen leaves no older review behind. -/
theorem Approvable.handleApdu_starts (h : Approvable outputs device) {apdu : List UInt8}
    (hstarts : StartsScreen sdk device.settings apdu) :
    Ensures (handleApdu sdk apdu device) fun result =>
      Approvable (outputs ++ result.2.1) result.2.2 := by
  obtain ⟨command, message, hcall, hcomplete, hconfirm, hholds, hputs⟩ :=
    hstarts.assembles device.command
  rw [AelfApp.handleApdu, hcall, ok_bind]
  simp only [ne_eq, not_true_eq_false, ↓reduceIte, hcomplete, reduceCtorEq]
  intro result hdispatch
  exact .dispatched h.signs hholds hcomplete (dispatch_cases hholds hcomplete _ hdispatch)
    fun _ => ⟨hconfirm, hputs⟩

/-- Without a review on the screen, any APDU may come. -/
theorem Approvable.handleApdu_unreviewed (h : Approvable outputs device) (apdu : List UInt8)
    (hflow : ∀ numSummarySteps index, device.flow ≠ .signMessage numSummarySteps index) :
    Ensures (handleApdu sdk apdu device) fun result =>
      Approvable (outputs ++ result.2.1) result.2.2 := by
  obtain ⟨message, hholds⟩ := h.holds
  obtain ⟨ret, command, hcall, hhandled⟩ := apduHandleMessage_cases apdu hholds
  obtain ⟨message', hholds'⟩ := handled_holds hholds hhandled
  have hunreviewed : Approvable outputs { device with command } :=
    h.unreviewed ⟨message', hholds'⟩ hflow
  rw [AelfApp.handleApdu, hcall, ok_bind]
  by_cases hret : ret = 0
  swap
  · simp only [ne_eq, hret, not_false_eq_true, ↓reduceIte]
    exact ensures_ok (by simpa using hunreviewed)
  simp only [ne_eq, hret, not_true_eq_false, ↓reduceIte]
  rcases handled_state hhandled hret with hprogress | hcomplete
  · simp only [hprogress, ↓reduceIte]
    exact ensures_ok (by simpa using hunreviewed)
  · simp only [hcomplete, reduceCtorEq, ↓reduceIte]
    intro result hdispatch
    apply Approvable.dispatched h.signs hholds' hcomplete
      (dispatch_cases hholds' hcomplete _ hdispatch)
    rintro ⟨numSummarySteps, index, hreview⟩
    exact absurd hreview (hflow numSummarySteps index)

/-- An APDU that does not disturb a review keeps the tie. -/
theorem Approvable.handleApdu (h : Approvable outputs device) {apdu : List UInt8}
    (hallowed : Undisturbing sdk (.apdu apdu) device) :
    Ensures (handleApdu sdk apdu device) fun result =>
      Approvable (outputs ++ result.2.1) result.2.2 := by
  cases hflow : device.flow with
  | idle => exact h.handleApdu_unreviewed apdu (by simp [hflow])
  | pubkey index => exact h.handleApdu_unreviewed apdu (by simp [hflow])
  | signMessage numSummarySteps index =>
      rcases hallowed apdu numSummarySteps index rfl hflow with hleaves | hstarts
      · exact h.handleApdu_leaves hleaves (h.review numSummarySteps index hflow).1
      · exact h.handleApdu_starts hstarts

/-- One round of the main loop keeps the tie. -/
theorem Approvable.appStep (h : Approvable outputs device) {event : Event}
    (hallowed : Undisturbing sdk event device) :
    Ensures (appStep sdk event device) fun result => Approvable (outputs ++ result.1) result.2 := by
  have hnothing : Ensures (.ok ([], device) : Checked (List Output × Device))
      fun result => Approvable (outputs ++ result.1) result.2 :=
    ensures_ok (by simpa using h)
  -- Both buttons that move a flow move it to a step of the same flow.
  have hpubkey : ∀ next, Ensures (AelfApp.goToStep (.pubkey next) device)
      fun result => Approvable (outputs ++ result.1) result.2 :=
    fun _ => h.goToStep (by rintro _ _ ⟨⟩)
  have hreview : ∀ numSummarySteps index, device.flow = .signMessage numSummarySteps index →
      ∀ next, Ensures (AelfApp.goToStep (.signMessage numSummarySteps next) device)
        fun result => Approvable (outputs ++ result.1) result.2 := by
    intro numSummarySteps index hflow next
    apply h.goToStep
    rintro _ _ ⟨⟩
    exact ⟨index, hflow⟩
  cases event with
  | apdu bytes =>
      simp only [AelfApp.appStep]
      split
      · exact ensures_ok (h.respond (.thrown ApduReply.noApduReceived.code []))
      refine (h.handleApdu hallowed).bind ?_
      rintro ⟨ending, shown, after⟩ hafter
      refine ensures_ok ?_
      rw [← List.append_assoc]
      exact hafter.respond ending
  | left =>
      simp only [AelfApp.appStep]
      split
      · exact hnothing
      · split
        · exact hnothing
        · exact hpubkey _
      · rename_i numSummarySteps index hflow
        split
        · exact hnothing
        · exact hreview numSummarySteps index hflow _
  | right =>
      simp only [AelfApp.appStep]
      split
      · exact hnothing
      · split
        · exact hpubkey _
        · exact hnothing
      · rename_i numSummarySteps index hflow
        split
        · exact hreview numSummarySteps index hflow _
        · exact hnothing
  | pageTurn => exact hnothing
  | both => exact ensures_ok h.validateStep
  | settings settings =>
      simp only [AelfApp.appStep]
      split
      · rename_i hflow
        refine ensures_ok ?_
        rw [List.append_nil]
        exact h.unreviewed h.holds (by simp [hflow])
      · exact hnothing
  | ioReset =>
      refine ensures_ok ?_
      rw [List.append_nil]
      exact h.unreviewed ⟨[], zero_holds⟩ (by simp [uiIdle])

/-- What is approved is what is signed. In a run whose events do not disturb a
review, every signature is made with the path and the message of the last
review before it, and in every state reached a review on the screen is that of
the command. -/
theorem approved_is_reviewed (sdk : Sdk) (settings : AppSettings) (events : List Event)
    (h : Within (AelfApp.appStep sdk) (Undisturbing sdk) events (Device.boot settings)) :
    Ensures (run (AelfApp.appStep sdk) events (Device.boot settings)) fun result =>
      SignsReviewed none (result.1.flatMap Prod.snd) ∧
      ∀ numSummarySteps index, result.2.flow = .signMessage numSummarySteps index →
        lastReviewed none (result.1.flatMap Prod.snd) =
          some (result.2.command.path, result.2.command.messageBytes) := by
  have hrun := run_ensures (fun log device => Approvable (log.flatMap Prod.snd) device)
    (Undisturbing sdk) (fun past device event happrovable hallowed => ?_) events [] _
    (approvable_boot settings) h
  · intro result hresult
    have happrovable : Approvable (([] ++ result.1).flatMap Prod.snd) result.2 :=
      hrun result hresult
    rw [List.nil_append] at happrovable
    exact ⟨happrovable.signs, fun numSummarySteps index hflow =>
      (happrovable.review numSummarySteps index hflow).2⟩
  · intro result hresult
    have hnext := happrovable.appStep hallowed result hresult
    simpa using hnext

/-- A transfer, in one APDU that asks for confirmation. -/
def sampleApdu : List UInt8 :=
  [0xE0, 0x03, 0x01, 0x00, 79, 1, 1, 0x80, 0x00, 0x00, 0x2C] ++ List.replicate 32 9 ++
    List.replicate 32 7 ++ [0x00] ++ [0x00, 0xE1, 0xF5, 0x05, 0x00, 0x00, 0x00, 0x00]

/-- Its message: the reference block hash, recipient, ticker and amount. -/
def sampleMessage : List UInt8 := sampleApdu.drop 11

/-- The tie in the run that reviews and approves the transfer, with an APDU in
between that is too short to be one. -/
theorem approved_is_reviewed_transfer :
    Ensures (run (AelfApp.appStep constantSdk)
      [.apdu sampleApdu, .right, .right, .apdu [cla], .both]
      (Device.boot ⟨.disabled, .long⟩)) fun result =>
        SignsReviewed none (result.1.flatMap Prod.snd) ∧
        ∀ numSummarySteps index, result.2.flow = .signMessage numSummarySteps index →
          lastReviewed none (result.1.flatMap Prod.snd) =
            some (result.2.command.path, result.2.command.messageBytes) := by
  have hidle : Undisturbing constantSdk (.apdu sampleApdu) (Device.boot ⟨.disabled, .long⟩) := by
    intro _ _ _ _ hflow
    cases hflow
  have hright : ∀ device, Undisturbing constantSdk .right device := by
    intro _ _ _ _ hevent
    cases hevent
  have hboth : ∀ device, Undisturbing constantSdk .both device := by
    intro _ _ _ _ hevent
    cases hevent
  have hshort : ∀ device, Undisturbing constantSdk (.apdu [cla]) device := by
    intro _ _ _ _ hevent _
    cases hevent
    refine .inl fun chunk hbytes => ?_
    cases hbytes
  apply approved_is_reviewed
  exact ⟨hidle, fun _ _ _ => ⟨hright _, fun _ _ _ => ⟨hright _, fun _ _ _ =>
    ⟨hshort _, fun _ _ _ => ⟨hboth _, fun _ _ _ => trivial⟩⟩⟩⟩⟩

/-- The host asks for the configuration while the transfer stands at Approve:
the user approves the transfer, and the device signs an empty message under the
empty path. -/
theorem overwritten_command_signed :
    ((run (AelfApp.appStep constantSdk)
        [.apdu sampleApdu, .right, .right, .apdu [cla, 0x01, 0x00, 0x00, 0x00], .both]
        (Device.boot ⟨.disabled, .long⟩)).map fun result => result.1.flatMap Prod.snd) =
      .ok [.reviewed [0x8000002C] sampleMessage, .sent [0, 0, 1, 0, 0, 0x90, 0x00],
        .signed [] [], .sent (List.replicate signatureLength 0 ++ [0x90, 0x00])] ∧
    ¬ SignsReviewed none [.reviewed [0x8000002C] sampleMessage, .sent [0, 0, 1, 0, 0, 0x90, 0x00],
        .signed [] [], .sent (List.replicate signatureLength 0 ++ [0x90, 0x00])] := by
  refine ⟨by decide +kernel, ?_⟩
  rintro ⟨hreviewed, -⟩
  cases hreviewed

end Runs

end AelfApp
