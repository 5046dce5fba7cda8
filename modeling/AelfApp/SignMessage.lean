import AelfApp.Device

/-!
The handlers of a message to sign (`signMessage.c`): reading the message into
the summary store, the flow of its steps, and the callback that signs.
-/

namespace AelfApp

open Memory Apdu Libsol Wire

/-- The part of `handle_sign_message_parse_message` that sets the summary. A
message that is not processed is only reviewed, by its hash, if blind signing
is enabled. -/
def setTransactionSummary (sdk : Sdk) (device : Device) (parser : Parser Block) :
    Checked (Option Nat × Device) := do
  let command := device.command
  let g := transactionSummaryReset device.summary
  let (ret, summary) ← processMessageBody .bits32 (commandMem command) parser.buffer
    parser.bufferLength command.instruction.toByte.toNat g.summary
  if ret ≠ 0 then
    if device.settings.allowBlindSign = .enabled then
      let item := transactionSummaryPrimaryItem summary
      let summary ← summaryItemSetString item (.lit "Unrecognized") (.lit "format") summary
      let messageHash := sdk.sha256 command.messageBytes
      let item := transactionSummaryGeneralItem summary
      let summary ← summaryItemSetHash item (.lit "Message Hash") (some ⟨.messageHash, 0⟩) summary
      return (none, { device with
        command := { command with messageHash }, summary := { g with summary } })
    else
      return (some ApduReply.sdkNotSupported.code, { device with summary := { g with summary } })
  return (none, { device with summary := { g with summary } })

/-- Returns the code of the exception that it throws, if it throws one. -/
def handleSignMessageParseMessage (sdk : Sdk) (device : Device) :
    Checked (Option Nat × Device) := do
  if device.command.state ≠ .payloadComplete then
    return (some ApduReply.sdkInvalidParameter.code, device)
  let parser : Parser Block := ⟨⟨.message, 0⟩, sizeOfInt device.command.messageLength⟩
  let (ret, parser, _) ← parseMessageHeader parser none
  if ret ≠ 0 then
    -- not a valid message
    return (some ApduReply.aelfInvalidMessage.code, device)
  if device.command.nonConfirm then
    return (some ApduReply.sdkNotSupported.code, device)
  setTransactionSummary sdk device parser

/-- Shows the step that a flow is at. Only a summary step has work to do. -/
def initStep (device : Device) : Checked (Option Nat × Device) :=
  match device.flow with
  | .signMessage numSummarySteps index =>
    if index < numSummarySteps then do
      let flags := if device.settings.pubkeyDisplay = .long then displayFlagLongPubkeys
        else displayFlagNone
      let (ret, summary) ← transactionSummaryDisplayItem (commandMem device.command) index flags
        device.summary
      if ret ≠ 0 then
        return (some ApduReply.aelfSummaryUpdateFailed.code, { device with summary })
      return (none, { device with summary })
    else .ok (none, device)
  | _ => .ok (none, device)

def handleSignMessageUi (device : Device) : Checked (Ending × List Output × Device) := do
  let (ret, summaryStepKinds) := transactionSummaryFinalize device.summary.summary
  if ret = 0 then
    let outputs := [.reviewed device.command.path device.command.messageBytes]
    let (thrown, device) ← initStep { device with flow := .signMessage summaryStepKinds.length 0 }
    match thrown with
    | none => return (.asynch, outputs, device)
    | some e => return (.thrown e [], outputs, device)
  else
    return (.thrown ApduReply.aelfSummaryFinalizeFailed.code [], [], device)

/-- The callback of the Approve step. An exception of the SDK goes past it to the
main loop, which answers with its status word and leaves the flow on the screen. -/
def sendResultSignMessage (sdk : Sdk) (device : Device) : List Output × Device :=
  let path := device.command.path
  let message := device.command.messageBytes
  match sdk.eddsaSign path message with
  | .error e => (respond (.thrown e.code []), device)
  | .ok signature =>
    let (outputs, device) := sendResponse signature.toList true device
    (.signed path message :: outputs, device)

section Parsing

/-- A message that is put up for review: it has a header, and a body that is
accepted or may be signed blind. -/
def Reviewable (settings : AppSettings) (insCode : Nat) (message : List UInt8) : Prop :=
  hashSize ≤ message.length ∧
    (settings.allowBlindSign = .enabled ∨ (bodyFormat insCode).Whole (message.drop hashSize) ∨
      (bodyFormat insCode).Short (message.drop hashSize))

/-- What reading the message leaves as it was. -/
structure SameCommand (before after : Device) : Prop where
  flow : after.flow = before.flow
  settings : after.settings = before.settings
  command : ∃ messageHash, after.command = { before.command with messageHash }

theorem SameCommand.refl (device : Device) : SameCommand device device :=
  ⟨rfl, rfl, device.command.messageHash, rfl⟩

variable {device : Device} {message : List UInt8}

/-- The uses of the store for a message that is only shown by its hash. -/
def blindReview : List (TakeAndSet Block) :=
  [⟨.primary, .lit "Unrecognized", .string (.lit "format")⟩,
    ⟨.general, .lit "Message Hash", .hash (some ⟨.messageHash, 0⟩)⟩]

/-- The blind review always fits into a reset store: both getters return a
slot. -/
theorem blindReview_holds (g : SummaryGlobals Block) :
    ∃ first summary,
      transactionSummaryPrimaryItem (transactionSummaryReset g).summary = some .primary ∧
      summaryItemSetString (some .primary) (.lit "Unrecognized") (.lit "format")
        (transactionSummaryReset g).summary = .ok first ∧
      transactionSummaryGeneralItem first = some (.general 0) ∧
      summaryItemSetHash (some (.general 0)) (.lit "Message Hash") (some ⟨.messageHash, 0⟩)
        first = .ok summary ∧
      Holds summary (keptItems blindReview) := by
  have h := holds_reset g
  obtain ⟨first, hfirst, h⟩ := h.setNext ⟨.primary, .lit "Unrecognized", .string (.lit "format")⟩
    (by simp [keptItems, SlotGetter.capacity])
  obtain ⟨summary, hsecond, h⟩ := h.setNext
    ⟨.general, .lit "Message Hash", .hash (some ⟨.messageHash, 0⟩)⟩
    (by simp [keptItems, SlotGetter.capacity, numGeneralItems])
  have hprimary : transactionSummaryPrimaryItem (transactionSummaryReset g).summary =
      some .primary := rfl
  have hset : summaryItemSetString (some .primary) (.lit "Unrecognized") (.lit "format")
      (transactionSummaryReset g).summary = .ok first := hfirst
  have hgeneral : transactionSummaryGeneralItem first = some (.general 0) := by
    cases hset
    rfl
  exact ⟨first, summary, hprimary, hset, hgeneral, hgeneral ▸ hsecond, h⟩

/-- A rejected body is reviewed by the hash of the message, or refused. -/
theorem setTransactionSummary_rejected (sdk : Sdk) (parser : Parser Block) {ret : Nat}
    {rejected : TransactionSummary Block}
    (hcall : processMessageBody .bits32 (commandMem device.command) parser.buffer
      parser.bufferLength device.command.instruction.toByte.toNat
      (transactionSummaryReset device.summary).summary = .ok (ret, rejected)) (hret : ret ≠ 0) :
    rejected = (transactionSummaryReset device.summary).summary ∧
      (device.settings.allowBlindSign = .enabled → ∃ last,
        Holds last (keptItems blindReview) ∧
        setTransactionSummary sdk device parser = .ok (none, { device with
          command := { device.command with messageHash := sdk.sha256 device.command.messageBytes }
          summary := { transactionSummaryReset device.summary with summary := last } })) ∧
      (device.settings.allowBlindSign = .disabled →
        setTransactionSummary sdk device parser = .ok (some ApduReply.sdkNotSupported.code,
          { device with summary := transactionSummaryReset device.summary })) := by
  obtain rfl : rejected = (transactionSummaryReset device.summary).summary :=
    processMessageBody_rejected _ _ _ _ _ _ _ hcall hret
  refine ⟨rfl, fun hblind => ?_, fun hblind => ?_⟩
  · obtain ⟨first, last, hprimary, hfirst, hgeneral, hlast, hholds⟩ :=
      blindReview_holds device.summary
    refine ⟨last, hholds, ?_⟩
    simp only [setTransactionSummary, hcall, ok_bind, ne_eq, hret, not_false_eq_true, ↓reduceIte,
      hblind, hprimary, hfirst, hgeneral, hlast, pure_eq_ok]
  · simp only [setTransactionSummary, hcall, ok_bind, ne_eq, hret, not_false_eq_true, ↓reduceIte,
      hblind, reduceCtorEq, pure_eq_ok]

/-- The body is reviewed if it is accepted, or if blind signing is enabled. -/
theorem setTransactionSummary_cases (sdk : Sdk) (parser : Parser Block) {body : List UInt8}
    (hbody : parser.rest (commandMem device.command) = body) (hlength : body.length ≤ intMax)
    {insCode : Nat} (hcode : device.command.instruction.toByte.toNat = insCode)
    (hins : insCode = 3 ∨ insCode = 4) :
    ∃ thrown after, setTransactionSummary sdk device parser = .ok (thrown, after) ∧
      SameCommand device after ∧
      (thrown = none ↔ device.settings.allowBlindSign = .enabled ∨
        (bodyFormat insCode).Whole body ∨ (bodyFormat insCode).Short body) ∧
      (thrown = none → Libsol.Reviewed after.summary.summary) := by
  have hmax : parser.bufferLength ≤ intMax := by
    rwa [← hbody, Parser.rest_length] at hlength
  obtain ⟨-, ret, summary, hcall, hcases⟩ := processMessageBody_cases .bits32
    (commandMem device.command) parser.buffer hmax hins device.summary
  have hsame : (commandMem device.command).bytes parser.buffer parser.bufferLength = body := hbody
  rw [hsame] at hcases
  rcases hcases with ⟨haccepted, rfl, hreviewed⟩ | ⟨hrejected, rfl, rfl⟩
  · refine ⟨none,
      { device with summary := { transactionSummaryReset device.summary with summary } }, ?_,
      ⟨rfl, rfl, device.command.messageHash, rfl⟩, by simp [haccepted], fun _ => hreviewed⟩
    simp only [setTransactionSummary, hcode, hcall, ok_bind, ne_eq, not_true_eq_false, ↓reduceIte,
      pure_eq_ok]
  obtain ⟨-, henabled, hdisabled⟩ := setTransactionSummary_rejected sdk parser
    (hcode.symm ▸ hcall) Nat.one_ne_zero
  cases hblind : device.settings.allowBlindSign with
  | enabled =>
      obtain ⟨last, hholds, hset⟩ := henabled hblind
      exact ⟨none, _, hset, ⟨rfl, rfl, _, rfl⟩, by simp,
        fun _ => ⟨blindReview, hholds, _, List.mem_cons_self, rfl⟩⟩
  | disabled =>
      exact ⟨_, _, hdisabled hblind, ⟨rfl, rfl, device.command.messageHash, rfl⟩,
        by simp [hrejected], by simp⟩

theorem sizeOfInt_messageLength (hholds : device.command.Holds message) :
    sizeOfInt device.command.messageLength = message.length := by
  have hfits := hholds.fits
  rw [hholds.length]
  rw [maxMessageLength_eq] at hfits
  simp only [sizeOfInt, sizeBits]
  omega

/-- The body of a complete command that asks for confirmation is what is behind
the header. -/
theorem handleSignMessageParseMessage_eq (sdk : Sdk) (hholds : device.command.Holds message)
    (hstate : device.command.state = .payloadComplete) (hheader : hashSize ≤ message.length)
    (hconfirm : device.command.nonConfirm = false) :
    handleSignMessageParseMessage sdk device = setTransactionSummary sdk device
      ((⟨⟨.message, 0⟩, message.length⟩ : Parser Block).skip hashSize) := by
  have hbuffer : hashSize ≤ (⟨⟨.message, 0⟩, message.length⟩ : Parser Block).bufferLength := hheader
  have hread := parseMessageHeader_ok hbuffer none
  simp only [handleSignMessageParseMessage, ne_eq, hstate, not_true_eq_false, ↓reduceIte,
    sizeOfInt_messageLength hholds, hread, ok_bind, hconfirm, Bool.false_eq_true]

/-- Reading a message answers every time. It ends without an exception exactly
if the command is complete, asks for confirmation and is reviewable, and then
the store holds a review. -/
theorem handleSignMessageParseMessage_cases (sdk : Sdk) (hholds : device.command.Holds message)
    {insCode : Nat} (hcode : device.command.instruction.toByte.toNat = insCode)
    (hins : insCode = 3 ∨ insCode = 4) :
    ∃ thrown after, handleSignMessageParseMessage sdk device = .ok (thrown, after) ∧
      SameCommand device after ∧
      (thrown = none ↔ device.command.state = .payloadComplete ∧
        device.command.nonConfirm = false ∧ Reviewable device.settings insCode message) ∧
      (thrown = none → Libsol.Reviewed after.summary.summary) := by
  have hlength := sizeOfInt_messageLength hholds
  by_cases hstate : device.command.state = .payloadComplete
  swap
  · refine ⟨some ApduReply.sdkInvalidParameter.code, device, ?_, .refl device, ?_, by simp⟩
    · simp only [handleSignMessageParseMessage, ne_eq, hstate, not_false_eq_true, ↓reduceIte,
        pure_eq_ok]
    · simp [hstate]
  by_cases hheader : hashSize ≤ message.length
  swap
  · refine ⟨some ApduReply.aelfInvalidMessage.code, device, ?_, .refl device, ?_, by simp⟩
    · simp only [handleSignMessageParseMessage, ne_eq, hstate, not_true_eq_false, ↓reduceIte,
        hlength]
      rw [parseMessageHeader_short (Nat.lt_of_not_le hheader)]
      rfl
    · simp [Reviewable, hheader]
  cases hconfirm : device.command.nonConfirm with
  | true =>
      have hbuffer : hashSize ≤ (⟨⟨.message, 0⟩, message.length⟩ : Parser Block).bufferLength :=
        hheader
      have hread := parseMessageHeader_ok hbuffer none
      refine ⟨some ApduReply.sdkNotSupported.code, device, ?_, .refl device, by simp, by simp⟩
      simp only [handleSignMessageParseMessage, ne_eq, hstate, not_true_eq_false, ↓reduceIte,
        hlength, hread, ok_bind, hconfirm, pure_eq_ok]
  | false =>
      have hmax : (message.drop hashSize).length ≤ intMax := by
        rw [List.length_drop]
        exact (Nat.sub_le _ _).trans (hholds.fits.trans (by decide))
      obtain ⟨thrown, after, hcall, hsame, hthrown, hreviewed⟩ := setTransactionSummary_cases sdk
        ((⟨⟨.message, 0⟩, message.length⟩ : Parser Block).skip hashSize)
        (bytes_of_holds hholds hheader) hmax hcode hins
      refine ⟨thrown, after, ?_, hsame, ?_, hreviewed⟩
      · rw [handleSignMessageParseMessage_eq sdk hholds hstate hheader hconfirm, hcall]
      · simpa [Reviewable, hheader, hstate] using hthrown

end Parsing

section Truncation

variable {β : Type} {n insCode : Nat}

/-- A body that is accepted is parsed to its end, and with blind signing
disabled no other message gets as far as its review. -/
def AcceptsOnlyWhole (sdk : Sdk) (size : SizeT) (mem : Mem β) (messageBody : Ptr β) (n : Nat)
    (insCode : Nat) (prior : SummaryGlobals β) : Prop :=
  ((∃ summary, processMessageBody size mem messageBody n insCode
        (transactionSummaryReset prior).summary = .ok (0, summary)) →
      ParsesWhole size mem messageBody n insCode ∧
        (bodyFormat insCode).Whole (mem.bytes messageBody n)) ∧
    ∀ (device after : Device) (header : List UInt8), header.length = hashSize →
      device.command.Holds (header ++ mem.bytes messageBody n) →
      device.command.instruction.toByte.toNat = insCode →
      device.settings.allowBlindSign = .disabled →
      handleSignMessageParseMessage sdk device = .ok (none, after) →
      (bodyFormat insCode).Whole (mem.bytes messageBody n)

/-- Exactly the bodies that stop short are accepted without being whole. -/
theorem acceptsOnlyWhole_iff (sdk : Sdk) (size : SizeT) (mem : Mem β) (messageBody : Ptr β)
    (prior : SummaryGlobals β) (hlength : n ≤ intMax) (hins : insCode = 3 ∨ insCode = 4) :
    AcceptsOnlyWhole sdk size mem messageBody n insCode prior ↔
      ¬ (bodyFormat insCode).Short (mem.bytes messageBody n) := by
  obtain ⟨hparses, ret, summary, hcall, hcases⟩ :=
    processMessageBody_cases size mem messageBody hlength hins prior
  constructor
  · rintro ⟨haccepted, -⟩ hshort
    rcases hcases with ⟨-, rfl, -⟩ | ⟨hrejected, -⟩
    · exact Format.not_whole_of_short _ hshort (haccepted ⟨summary, hcall⟩).2
    · exact hrejected (.inr hshort)
  · intro hshort
    constructor
    · rintro ⟨other, hother⟩
      cases hcall.symm.trans hother
      rcases hcases with ⟨hwhole | hstops, -⟩ | ⟨-, hret, -⟩
      · exact ⟨hparses.mpr hwhole, hwhole⟩
      · exact absurd hstops hshort
      · cases hret
    · intro device after header hheader hholds hcode hblind hreviewed
      obtain ⟨thrown, other, hother, -, hthrown, -⟩ :=
        handleSignMessageParseMessage_cases sdk hholds hcode hins
      cases hreviewed.symm.trans hother
      obtain ⟨-, -, -, hbody⟩ := hthrown.mp rfl
      rw [← hheader, List.drop_left, hblind] at hbody
      rcases hbody with henabled | hwhole | hstops
      · cases henabled
      · exact hwhole
      · exact absurd hstops hshort

/-- An SDK that gives the same answer to everything. -/
def constantSdk : Sdk where
  sha256 _ := .replicate _ 0
  generatePair _ := .ok (.replicate _ 0)
  eddsaSign _ _ := .ok (.replicate _ 0)

/-- The exception that the host sees as `ApduReplySdkExceptionSecurity`. -/
def exceptionSecurity : SdkException := ⟨4, by decide, by decide, by decide⟩

/-- An SDK that refuses every path outside of 44'/1616', and gives the same
answer to everything else. -/
def guardedSdk (w signature : UInt8) : Sdk where
  sha256 _ := .replicate _ 0
  generatePair path :=
    if [0x8000002C, 0x80000650] <+: path then .ok (.replicate _ w) else .error exceptionSecurity
  eddsaSign path _ :=
    if [0x8000002C, 0x80000650] <+: path then .ok (.replicate _ signature)
    else .error exceptionSecurity

/-- The equivalence at the body of a transfer of nothing to the zero key. -/
theorem acceptsOnlyWhole_iff_zeros :
    AcceptsOnlyWhole constantSdk .bits32 (Mem.ofBytes []) ⟨(), 0⟩ 41 3
        ⟨.empty, .replicate _ 0, .replicate _ 0⟩ ↔
      ¬ (bodyFormat 3).Short ((Mem.ofBytes []).bytes ⟨(), 0⟩ 41) :=
  acceptsOnlyWhole_iff constantSdk .bits32 (Mem.ofBytes []) ⟨(), 0⟩
    ⟨.empty, .replicate _ 0, .replicate _ 0⟩ (by decide) (.inl rfl)

/-- Nothing at all is accepted as a transfer, although it is not one. -/
theorem empty_body_accepted :
    (∃ summary, processMessageBody .bits32 (Mem.ofBytes []) ⟨(), 0⟩ 0 3
        (.empty : TransactionSummary Unit) = .ok (0, summary)) ∧
      ¬ ParsesWhole .bits32 (Mem.ofBytes []) ⟨(), 0⟩ 0 3 ∧ ¬ transferFormat.Whole [] := by
  have hshort : transferFormat.Short [] := .inl rfl
  have hwhole : ¬ transferFormat.Whole [] := Format.not_whole_of_short _ hshort
  obtain ⟨hparses, ret, summary, hcall, hcases⟩ := processMessageBody_cases .bits32
    (Mem.ofBytes []) ⟨(), 0⟩ (Nat.zero_le intMax) (.inl rfl)
    ⟨.empty, .replicate _ 0, .replicate _ 0⟩
  refine ⟨?_, mt hparses.mp hwhole, hwhole⟩
  rcases hcases with ⟨-, rfl, -⟩ | ⟨hrejected, -⟩
  · exact ⟨summary, hcall⟩
  · exact absurd (.inr hshort) hrejected

end Truncation

section Flow

variable {sdk : Sdk} {device : Device}

/-- Showing a step changes nothing but the two text buffers. -/
theorem initStep_device (device : Device) :
    Ensures (initStep device) fun result =>
      ∃ summary : SummaryGlobals Block, summary.summary = device.summary.summary ∧
        result.2 = { device with summary } := by
  unfold initStep
  split
  · split
    · refine (transactionSummaryDisplayItem_summary _ _ _ _).bind ?_
      rintro ⟨ret, summary⟩ hsummary
      dsimp only
      split
      · exact ensures_ok ⟨summary, hsummary, rfl⟩
      · exact ensures_ok ⟨summary, hsummary, rfl⟩
    · exact ensures_ok ⟨device.summary, rfl, rfl⟩
  · exact ensures_ok ⟨device.summary, rfl, rfl⟩

/-- A store with a review is put up, for the command as it is. -/
theorem handleSignMessageUi_reviewed (h : Libsol.Reviewed device.summary.summary) :
    Ensures (handleSignMessageUi device) fun result =>
      result.2.1 = [.reviewed device.command.path device.command.messageBytes] ∧
        result.2.2.command = device.command ∧ result.2.2.settings = device.settings ∧
        ∃ numSummarySteps, result.2.2.flow = .signMessage numSummarySteps 0 := by
  obtain ⟨ops, hholds, hprimary⟩ := h
  have hsome : ¬ ∀ op ∈ ops, op.getter ≠ .primary := by
    simpa using hprimary
  rw [handleSignMessageUi, hholds.finalize_eq, if_neg hsome]
  simp only [↓reduceIte]
  refine (initStep_device _).bind ?_
  rintro ⟨thrown, after⟩ ⟨summary, -, rfl⟩
  cases thrown with
  | none => exact ensures_ok ⟨rfl, rfl, rfl, _, rfl⟩
  | some e => exact ensures_ok ⟨rfl, rfl, rfl, _, rfl⟩

end Flow

end AelfApp
