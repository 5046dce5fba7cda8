import AelfApp.Apdu.Step
import AelfApp.Lib.Machine

/-!
Whole runs of the command assembler. The invariant `Origin` says, of a command
and of the APDUs accepted so far, which of them the command was made from. The
bounds on the command and the provenance of its path and message are read off
it.
-/

namespace AelfApp.Apdu

open Memory Machine

/-- The accepted APDUs of a run, in order. -/
def accepted (log : List (List UInt8 × Nat)) : List (List UInt8) :=
  (log.filter fun entry => entry.2 = 0).map Prod.fst

theorem accepted_snoc_zero (log : List (List UInt8 × Nat)) (apdu : List UInt8) :
    accepted (log ++ [(apdu, 0)]) = accepted log ++ [apdu] := by
  simp [accepted]

theorem accepted_snoc_reply (log : List (List UInt8 × Nat)) (apdu : List UInt8)
    (reply : ApduReply) : accepted (log ++ [(apdu, reply.code)]) = accepted log := by
  simp [accepted, reply.code_ne_zero]

theorem accepted_subset (log : List (List UInt8 × Nat)) :
    ∀ apdu ∈ accepted log, apdu ∈ log.map Prod.fst := by
  intro apdu member
  obtain ⟨entry, hentry, rfl⟩ := List.mem_map.mp member
  exact List.mem_map.mpr ⟨entry, (List.mem_filter.mp hentry).1, rfl⟩

/-- The chunks of one command: the first carries the path, each later one
extends a message to sign, and all but the last announce another. -/
structure Upload (first : Chunk) (later : List Chunk) (path : List UInt32)
    (message : List UInt8) : Prop where
  instruction : first.instruction ≠ .getAppConfiguration
  notExtending : first.extending = false
  content : ∃ rest, first.split = some (path, rest) ∧
    message = rest ++ later.flatMap Chunk.data
  extensions : ∀ chunk ∈ later, first.instruction = .signMessage ∧
    chunk.instruction = .signMessage ∧ chunk.extending = true ∧
    chunk.nonConfirm = first.nonConfirm
  more : ∀ chunk ∈ (first :: later).dropLast, chunk.more = true
  fits : message.length ≤ maxMessageLength

/-- An APDU that completes a command without reading a path for it: an
extension of an instruction that is never extended. -/
def PathlessCommand (apdu : List UInt8) : Prop :=
  ∃ chunk : Chunk, apdu = chunk.bytes ∧ chunk.extending = true ∧ chunk.more = false ∧
    (chunk.instruction = .getPubkey ∨ chunk.instruction = .getTxResult ∧ chunk.data ≠ [])

/-- Where the contents of a command come from, among the accepted APDUs. -/
inductive Origin (accepted : List (List UInt8)) : ApduCommand → Prop where
  | cleared (count : UInt8) :
      Origin accepted { ApduCommand.zero with numDerivationPaths := count }
  | configured (chunk : Chunk) : Origin accepted (configured chunk)
  | upload (before : List (List UInt8)) (first : Chunk) (later : List Chunk)
      (path : List UInt32) (message : List UInt8)
      (haccepted : accepted = before ++ (first :: later).map Chunk.bytes)
      (hupload : Upload first later path message) :
      Origin accepted (assembled first 1 path message
        ((first :: later).getLast (List.cons_ne_nil _ _)).stateAfter)
  | pathless (chunk : Chunk) (message : List UInt8) (state : ApduState)
      (hfits : message.length ≤ maxMessageLength)
      (hstate : state = .payloadComplete → PathlessCommand chunk.bytes ∧ chunk.bytes ∈ accepted) :
      Origin accepted (assembled chunk 0 [] message state)

theorem origin_zero : Origin [] ApduCommand.zero := .cleared 0

theorem Origin.holds {accepted : List (List UInt8)} {command : ApduCommand}
    (h : Origin accepted command) : ∃ message, command.Holds message := by
  cases h with
  | cleared count => exact ⟨[], zero_holds.buffer, zero_holds.length, zero_holds.fits⟩
  | configured chunk => exact ⟨[], zero_holds.buffer, zero_holds.length, zero_holds.fits⟩
  | upload before first later path message _ hupload =>
      exact ⟨message, assembled_holds hupload.fits⟩
  | pathless chunk message state hfits _ => exact ⟨message, assembled_holds hfits⟩

/-- An accepted extension makes the upload in progress longer. -/
theorem Upload.snoc {first chunk : Chunk} {later : List Chunk} {path : List UInt32}
    {message : List UInt8} (h : Upload first later path message)
    (hinstruction : chunk.instruction = .signMessage) (hextending : chunk.extending = true)
    (hvalid : Extendable chunk (assembled first 1 path message
      ((first :: later).getLast (List.cons_ne_nil _ _)).stateAfter))
    (hfits : (message ++ chunk.data).length ≤ maxMessageLength) :
    Upload first (later ++ [chunk]) path (message ++ chunk.data) where
  instruction := h.instruction
  notExtending := h.notExtending
  content := by
    obtain ⟨rest, hsplit, hmessage⟩ := h.content
    exact ⟨rest, hsplit, by simp [hmessage]⟩
  extensions := by
    intro other member
    rcases List.mem_append.mp member with hold | hnew
    · exact h.extensions other hold
    · obtain rfl := List.mem_singleton.mp hnew
      have hfirst : first.instruction = other.instruction := hvalid.instruction
      have hconfirm : first.nonConfirm = other.nonConfirm := hvalid.nonConfirm
      exact ⟨hfirst.trans hinstruction, hinstruction, hextending, hconfirm.symm⟩
  more := by
    -- The chunk before the new one left the command in progress.
    have hlast : ((first :: later).getLast (List.cons_ne_nil _ _)).more = true := by
      have hstate := hvalid.state
      simp only [assembled, Chunk.stateAfter] at hstate
      split at hstate
      · assumption
      · cases hstate
    intro other member
    rw [← List.cons_append, List.dropLast_concat,
      ← List.dropLast_append_getLast (List.cons_ne_nil first later)] at member
    rcases List.mem_append.mp member with hold | hnew
    · exact h.more other hold
    · rw [List.mem_singleton.mp hnew]
      exact hlast
  fits := hfits

/-- What one call preserves. -/
theorem Origin.step {log : List (List UInt8 × Nat)} {command after : ApduCommand}
    {apdu message : List UInt8} {ret : Nat} (h : Origin (accepted log) command)
    (hholds : command.Holds message) (hstep : Handled apdu command message ret after) :
    Origin (accepted (log ++ [(apdu, ret)])) after := by
  cases hstep with
  | refused reply => rwa [accepted_snoc_reply]
  | configured chunk _ _ => exact .configured chunk
  | discarded chunk reply count _ _ _ => exact .cleared count
  | started chunk path rest hbytes hinstruction hfirst hsplit =>
      rw [accepted_snoc_zero]
      refine .upload (accepted log) chunk [] path rest (by simp [hbytes]) ?_
      exact {
        instruction := hinstruction
        notExtending := hfirst
        content := ⟨rest, hsplit, by simp⟩
        extensions := by simp
        more := by simp
        fits := le_maxMessageLength (Chunk.split_length hsplit) }
  | extended chunk hbytes hinstruction hextending hvalid hdata hroom =>
      rw [accepted_snoc_zero]
      cases h with
      | cleared count => cases hvalid.state
      | configured old => cases hvalid.state
      | pathless old oldMessage state _ _ => cases hvalid.numDerivationPaths
      | upload before first later path oldMessage haccepted hupload =>
          have hsame : oldMessage = message := by
            rw [← (assembled_holds hupload.fits).messageBytes, hholds.messageBytes]
          subst hsame
          have hnext := hupload.snoc hinstruction hextending hvalid hroom
          have horigin := Origin.upload before first (later ++ [chunk]) path
            (oldMessage ++ chunk.data)
            (show accepted log ++ [apdu] = _ by rw [haccepted, hbytes]; simp) hnext
          simpa [assembled, ApduCommand.extend] using horigin
  | pathless chunk hbytes hinstruction hextending hdata =>
      rw [accepted_snoc_zero]
      refine .pathless chunk chunk.data chunk.stateAfter ?_ ?_
      · exact le_maxMessageLength chunk.data_length
      · intro hstate
        have hmore : chunk.more = false := by
          simp only [Chunk.stateAfter] at hstate
          split at hstate
          · cases hstate
          · rename_i hmore
            simpa using hmore
        refine ⟨⟨chunk, rfl, hextending, hmore, ?_⟩, by simp [hbytes]⟩
        rcases hinstruction with hpubkey | htx
        · exact .inl hpubkey
        · exact .inr ⟨htx, hdata htx⟩
  | emptied chunk hbytes hinstruction hextending hdata =>
      exact .pathless chunk [] .payloadInProgress (Nat.zero_le _) (by simp)

/-- Every run from the all-zero command answers every APDU, and its command
has its origin in the accepted ones. -/
theorem apdu_run_origin (apdus : List (List UInt8)) :
    ∃ log command, run apduHandleMessage apdus .zero = .ok (log, command) ∧
      log.map Prod.fst = apdus ∧ Origin (accepted log) command := by
  refine run_invariant (fun log command => Origin (accepted log) command) (fun _ => True)
    ?_ apdus [] .zero origin_zero (fun _ _ => trivial)
  intro past command apdu horigin _
  obtain ⟨message, hholds⟩ := horigin.holds
  obtain ⟨ret, after, hcall, hstep⟩ := apduHandleMessage_cases apdu hholds
  exact ⟨ret, after, hcall, horigin.step hholds hstep⟩

theorem Origin.bounds {accepted : List (List UInt8)} {command : ApduCommand}
    (h : Origin accepted command) :
    0 ≤ command.messageLength ∧ command.messageLength ≤ maxMessageLength ∧
      command.derivationPathLength ≤ maxBip32PathLength := by
  obtain ⟨message, hholds⟩ := h.holds
  have hfits := hholds.fits
  refine ⟨by rw [hholds.length]; omega, by rw [hholds.length]; omega, ?_⟩
  cases h with
  | cleared count => exact Nat.zero_le _
  | configured chunk => exact Nat.zero_le _
  | upload before first later path message _ hupload =>
      obtain ⟨rest, hsplit, _⟩ := hupload.content
      exact (Chunk.split_some hsplit).2.1
  | pathless chunk message state _ _ => exact Nat.zero_le _

/-- Memory safety of every run. Each read of the APDU, each copy and each
store is checked against its array, and each `size_t` subtraction against
zero, so answering at all means that none of them went wrong. -/
theorem apdu_run_in_bounds (apdus : List (List UInt8)) :
    ∃ log command, run apduHandleMessage apdus .zero = .ok (log, command) ∧
      log.map Prod.fst = apdus ∧
      0 ≤ command.messageLength ∧ command.messageLength ≤ maxMessageLength ∧
      command.derivationPathLength ≤ maxBip32PathLength := by
  obtain ⟨log, command, hrun, hlog, horigin⟩ := apdu_run_origin apdus
  exact ⟨log, command, hrun, hlog, horigin.bounds⟩

/-- Provenance of a message to sign. A complete `SignMessage` command was
uploaded by the last accepted first chunk and the accepted extensions after
it, with nothing else accepted in between, and holds exactly their bytes. -/
theorem sign_message_provenance (apdus : List (List UInt8)) :
    ∃ log command, run apduHandleMessage apdus .zero = .ok (log, command) ∧
      log.map Prod.fst = apdus ∧
      (command.state = .payloadComplete → command.instruction = .signMessage →
        ∃ (before : List (List UInt8)) (first : Chunk) (later : List Chunk)
            (len : UInt8) (indices rest : List UInt8),
          accepted log = before ++ (first :: later).map Chunk.bytes ∧
          first.instruction = .signMessage ∧ first.extending = false ∧
          (∀ chunk ∈ later, chunk.instruction = .signMessage ∧ chunk.extending = true ∧
            chunk.nonConfirm = first.nonConfirm) ∧
          (∀ chunk ∈ (first :: later).dropLast, chunk.more = true) ∧
          first.data = 1 :: len :: indices ++ rest ∧
          indices.length = 4 * len.toNat ∧ command.path = decodePath indices ∧
          command.nonConfirm = first.nonConfirm ∧
          command.messageBytes = rest ++ later.flatMap Chunk.data) := by
  obtain ⟨log, command, hrun, hlog, horigin⟩ := apdu_run_origin apdus
  refine ⟨log, command, hrun, hlog, ?_⟩
  intro hstate hinstruction
  cases horigin with
  | cleared count => cases hstate
  | configured chunk => cases hinstruction
  | pathless chunk message state _ hpathless =>
      -- Only the other two instructions start without a path.
      obtain ⟨⟨same, hbytes, _, _, hother⟩, _⟩ := hpathless hstate
      have hins : chunk.instruction = .signMessage := hinstruction
      have hbyte : chunk.instruction.toByte = same.instruction.toByte := by
        simp only [Chunk.bytes, List.cons_append, List.cons.injEq, true_and] at hbytes
        exact hbytes.1
      rcases hother with hpubkey | ⟨htx, _⟩
      · rw [hins, hpubkey] at hbyte
        exact absurd hbyte (by decide)
      · rw [hins, htx] at hbyte
        exact absurd hbyte (by decide)
  | upload before first later path message haccepted hupload =>
      have hfirst : first.instruction = .signMessage := hinstruction
      obtain ⟨rest, hsplit, hmessage⟩ := hupload.content
      obtain ⟨hlow, hhigh, len, indices, hlen, hindices, hdecode, hdata⟩ := Chunk.split_some hsplit
      refine ⟨before, first, later, len, indices, rest, haccepted, hfirst, hupload.notExtending,
        fun chunk member => (hupload.extensions chunk member).2, hupload.more, ?_, ?_, ?_, rfl, ?_⟩
      · simpa [Chunk.pathCount, hfirst] using hdata
      · omega
      · rw [assembled_path hhigh, hdecode]
      · rw [(assembled_holds hupload.fits).messageBytes, hmessage]

/-- The path of a command ready to derive a key is one the host sent for it:
the indices in the first of the accepted chunks that make up the command. -/
def KeyPathRequested (log : List (List UInt8 × Nat)) (command : ApduCommand) : Prop :=
  command.state = .payloadComplete →
    command.instruction ∈ [.getPubkey, .signMessage, .getTxResult] →
    command.numDerivationPaths = 1 ∧ 1 ≤ command.derivationPathLength ∧
      command.derivationPathLength ≤ maxBip32PathLength ∧
      ∃ (before : List (List UInt8)) (first : Chunk) (later : List Chunk)
          (len : UInt8) (indices rest : List UInt8),
        accepted log = before ++ (first :: later).map Chunk.bytes ∧
        first.instruction = command.instruction ∧ first.extending = false ∧
        (∀ chunk ∈ later, chunk.instruction = command.instruction ∧ chunk.extending = true) ∧
        first.data = first.pathCount ++ len :: indices ++ rest ∧
        indices.length = 4 * len.toNat ∧ command.derivationPathLength = len.toNat ∧
        command.path = decodePath indices

theorem Upload.keyPathRequested {log : List (List UInt8 × Nat)} {before : List (List UInt8)}
    {first : Chunk} {later : List Chunk} {path : List UInt32} {message : List UInt8}
    {state : ApduState} (h : Upload first later path message)
    (haccepted : accepted log = before ++ (first :: later).map Chunk.bytes) :
    KeyPathRequested log (assembled first 1 path message state) := by
  intro _ _
  obtain ⟨rest, hsplit, _⟩ := h.content
  obtain ⟨hlow, hhigh, len, indices, hlen, hindices, hdecode, hdata⟩ := Chunk.split_some hsplit
  refine ⟨rfl, hlow, hhigh, before, first, later, len, indices, rest, haccepted, rfl,
    h.notExtending, ?_, hdata, by omega, hlen.symm, by rw [assembled_path hhigh, hdecode]⟩
  intro chunk member
  obtain ⟨hfirst, hinstruction, hextending, _⟩ := h.extensions chunk member
  exact ⟨hinstruction.trans hfirst.symm, hextending⟩

/-- A command with an origin has a requested path, unless an accepted APDU
completed it without one. -/
theorem Origin.keyPathRequested {log : List (List UInt8 × Nat)} {command : ApduCommand}
    (h : Origin (accepted log) command)
    (hallowed : ∀ apdu ∈ accepted log, ¬ PathlessCommand apdu) :
    KeyPathRequested log command := by
  cases h with
  | cleared count =>
      intro hstate
      cases hstate
  | configured chunk =>
      intro _ hinstruction
      simp [Apdu.configured] at hinstruction
  | pathless chunk message state _ hpathless =>
      intro hstate
      obtain ⟨hbad, member⟩ := hpathless hstate
      exact absurd hbad (hallowed _ member)
  | upload before first later path message haccepted hupload =>
      exact hupload.keyPathRequested haccepted

/-- A pathless command is accepted whatever came before it, and is complete
with no path at all. -/
theorem PathlessCommand.completes {apdu : List UInt8} (h : PathlessCommand apdu)
    (command : ApduCommand) :
    ∃ after, apduHandleMessage apdu command = .ok (0, after) ∧ after.state = .payloadComplete ∧
      after.instruction ∈ [.getPubkey, .signMessage, .getTxResult] ∧
      after.numDerivationPaths = 0 := by
  obtain ⟨chunk, rfl, hextending, hmore, hinstruction⟩ := h
  have hother : chunk.instruction = .getPubkey ∨ chunk.instruction = .getTxResult := by
    rcases hinstruction with hpubkey | ⟨htx, _⟩
    · exact .inl hpubkey
    · exact .inr htx
  have hdata : ¬ (chunk.instruction = .getTxResult ∧ chunk.data = []) := by
    rintro ⟨htx, hempty⟩
    rcases hinstruction with hpubkey | ⟨_, hne⟩
    · rw [htx] at hpubkey
      cases hpubkey
    · exact hne hempty
  have hcall := apduHandleMessage_pathless chunk command hother hextending
  rw [if_neg hdata] at hcall
  refine ⟨_, hcall, by simp [assembled, Chunk.stateAfter, hmore], ?_, rfl⟩
  rcases hother with hpubkey | htx
  · simp [assembled, hpubkey]
  · simp [assembled, htx]

/-- In every state that a run reaches, a command ready to derive a key has a
path the host sent for it, exactly if no APDU of the run completes a command
without one. -/
theorem key_path_requested_iff (apdus : List (List UInt8)) :
    (∀ sent, sent <+: apdus → ∀ log command,
        run apduHandleMessage sent .zero = .ok (log, command) → KeyPathRequested log command) ↔
      ∀ apdu ∈ apdus, ¬ PathlessCommand apdu := by
  constructor
  · intro hrequested apdu member hbad
    obtain ⟨before, after, rfl⟩ := List.append_of_mem member
    obtain ⟨log, command, hrun, -, -⟩ := apdu_run_origin before
    obtain ⟨final, hcall, hstate, hinstruction, hpaths⟩ := hbad.completes command
    have hlast : run apduHandleMessage [apdu] command = .ok ([(apdu, 0)], final) := by
      simp [run, hcall]
    have hsent : before ++ [apdu] <+: before ++ apdu :: after := by
      simp
    have hkey := hrequested _ hsent _ _ (run_append hrun hlast) hstate hinstruction
    rw [hpaths] at hkey
    exact absurd hkey.1 (by decide)
  · intro hallowed sent hsent log command hrun
    obtain ⟨log', command', hrun', hlog, horigin⟩ := apdu_run_origin sent
    cases hrun.symm.trans hrun'
    apply horigin.keyPathRequested
    intro apdu member
    have hmember : apdu ∈ sent := hlog ▸ accepted_subset log apdu member
    exact hallowed apdu (hsent.subset hmember)

/-- A `GetPubkey` with `P2_EXTEND` and no data at all. -/
def bareGetPubkey : Chunk := ⟨.getPubkey, 0x00, 0x01, [], by decide, by decide⟩

/-- That one APDU completes a command whose path has length zero. -/
theorem bareGetPubkey_completes :
    ∃ log command, run apduHandleMessage [[0xE0, 0x02, 0x00, 0x01, 0x00]] .zero =
        .ok (log, command) ∧ command.derivationPathLength = 0 ∧ ¬ KeyPathRequested log command := by
  have hcall : apduHandleMessage bareGetPubkey.bytes .zero =
      .ok (0, assembled bareGetPubkey 0 [] [] .payloadComplete) :=
    apduHandleMessage_pathless bareGetPubkey .zero (.inl rfl) (by decide)
  refine ⟨[(bareGetPubkey.bytes, 0)], assembled bareGetPubkey 0 [] [] .payloadComplete,
    ?_, rfl, ?_⟩
  · show run apduHandleMessage [bareGetPubkey.bytes] .zero = _
    simp [run, hcall]
  · intro hkey
    have hpaths := (hkey rfl (by simp [assembled, bareGetPubkey])).1
    exact absurd hpaths (by simp [assembled])

end AelfApp.Apdu
