import AelfApp.Approval
import AelfApp.BlindReview
import AelfApp.Libsol.Reviews

/-!
Everything one round of the main loop can do, said once. A complete command is
dispatched, an APDU is handled, a button is pressed: each has a list of its
outcomes here, and the invariants of whole runs are case analyses on them.
-/

namespace AelfApp

open Memory Apdu Libsol Machine Wire

variable {sdk : Sdk} {device : Device} {message : List UInt8}

/-- The flags that the summary steps pass on. -/
def AppSettings.displayFlags (settings : AppSettings) : DisplayFlags :=
  if settings.pubkeyDisplay = .long then displayFlagLongPubkeys else displayFlagNone

section Dispatching

/-- The body of the message that a complete command holds. -/
def bodyParser (message : List UInt8) : Parser Block :=
  ⟨⟨.message, hashSize⟩, message.length - hashSize⟩

/-- What the store holds when a message is put up, and the command with it. -/
inductive PutUp (sdk : Sdk) (device : Device) (message : List UInt8) :
    List (TakeAndSet Block) → Device → Prop where
  | body (ops : List (TakeAndSet Block)) (summary : TransactionSummary Block)
      (haccepted : (bodyFormat device.command.instruction.toByte.toNat).Whole
          (message.drop hashSize) ∨
        (bodyFormat device.command.instruction.toByte.toNat).Short (message.drop hashSize))
      (hreview : ReviewOf .bits32 (commandMem device.command) (bodyParser message)
        device.command.instruction.toByte.toNat ops)
      (hholds : Holds summary (keptItems ops)) :
      PutUp sdk device message ops
        { device with summary := { transactionSummaryReset device.summary with summary } }
  | blind (summary : TransactionSummary Block)
      (hrejected : ¬ ((bodyFormat device.command.instruction.toByte.toNat).Whole
          (message.drop hashSize) ∨
        (bodyFormat device.command.instruction.toByte.toNat).Short (message.drop hashSize)))
      (hblind : device.settings.allowBlindSign = .enabled)
      (hholds : Holds summary (keptItems blindReview)) :
      PutUp sdk device message blindReview { device with
        command := { device.command with messageHash := sdk.sha256 message }
        summary := { transactionSummaryReset device.summary with summary } }

/-- Why a complete message is not put up, and what is left of the store. -/
inductive TurnedDown (device : Device) (message : List UInt8) : ApduReply → Device → Prop where
  | headerless (h : message.length < hashSize) :
      TurnedDown device message .aelfInvalidMessage device
  | unattended (hheader : hashSize ≤ message.length) (h : device.command.nonConfirm = true) :
      TurnedDown device message .sdkNotSupported device
  | unrecognized (hheader : hashSize ≤ message.length)
      (hrejected : ¬ ((bodyFormat device.command.instruction.toByte.toNat).Whole
          (message.drop hashSize) ∨
        (bodyFormat device.command.instruction.toByte.toNat).Short (message.drop hashSize)))
      (hblind : device.settings.allowBlindSign = .disabled) :
      TurnedDown device message .sdkNotSupported
        { device with summary := transactionSummaryReset device.summary }

/-- What a complete command does. -/
inductive Dispatch (sdk : Sdk) (device : Device) (message : List UInt8) :
    Ending → List Output → Device → Prop where
  | configuration (hins : device.command.instruction = .getAppConfiguration) :
      Dispatch sdk device message (.thrown ApduReply.success.code
        [device.settings.allowBlindSign.toByte, device.settings.pubkeyDisplay.toByte,
          majorVersion, minorVersion, patchVersion]) [] device
  | keyRefused (e : SdkException) (hins : device.command.instruction = .getPubkey)
      (hkey : getPublicKey sdk device.command.path = .error e) :
      Dispatch sdk device message (.thrown e.code []) [] device
  | keySent (publicKey : Buffer UInt8 pubkeySize) (publicKeyStr : Buffer UInt8 base58PubkeyLength)
      (hins : device.command.instruction = .getPubkey) (hconfirm : device.command.nonConfirm = true)
      (hkey : getPublicKey sdk device.command.path = .ok publicKey)
      (htext : cString publicKeyStr.toList = base58Text publicKey.toList) :
      Dispatch sdk device message (.thrown ApduReply.success.code publicKey.toList) []
        { device with publicKey, publicKeyStr }
  | keyShown (publicKey : Buffer UInt8 pubkeySize) (publicKeyStr : Buffer UInt8 base58PubkeyLength)
      (hins : device.command.instruction = .getPubkey)
      (hconfirm : device.command.nonConfirm = false)
      (hkey : getPublicKey sdk device.command.path = .ok publicKey)
      (htext : cString publicKeyStr.toList = base58Text publicKey.toList) :
      Dispatch sdk device message .asynch []
        { device with publicKey, publicKeyStr, flow := .pubkey 0 }
  | turnedDown (reply : ApduReply) (after : Device)
      (hins : device.command.instruction = .signMessage ∨
        device.command.instruction = .getTxResult)
      (h : TurnedDown device message reply after) :
      Dispatch sdk device message (.thrown reply.code []) [] after
  | reviewed (ops : List (TakeAndSet Block)) (read : Device) (summary : SummaryGlobals Block)
      (hins : device.command.instruction = .signMessage ∨
        device.command.instruction = .getTxResult)
      (hheader : hashSize ≤ message.length) (hconfirm : device.command.nonConfirm = false)
      (hputUp : PutUp sdk device message ops read)
      (hsame : summary.summary = read.summary.summary)
      (hscreen : displayed (commandMem read.command) 0 read.settings.displayFlags summary =
        .ok (0, some summary.screen)) :
      Dispatch sdk device message .asynch [.reviewed device.command.path message]
        { read with summary, flow := .signMessage ops.length 0 }
  | unimplemented (hins : device.command.instruction = .unset) :
      Dispatch sdk device message (.thrown ApduReply.unimplementedInstruction.code []) [] device

variable {ops : List (TakeAndSet Block)} {read : Device}

theorem blindReview_presentable : Presentable blindReview := by
  refine ⟨⟨_, _, rfl, rfl, rfl⟩, rfl, ?_⟩
  simp [blindReview, SummaryValue.kind, SummaryItemKind.AlwaysFits]

theorem PutUp.presentable (h : PutUp sdk device message ops read) : Presentable ops := by
  cases h with
  | body ops summary _ hreview _ => exact hreview.presentable
  | blind summary _ _ _ => exact blindReview_presentable

theorem PutUp.holds (h : PutUp sdk device message ops read) :
    Holds read.summary.summary (keptItems ops) := by
  cases h with
  | body ops summary _ _ hholds => exact hholds
  | blind summary _ _ hholds => exact hholds

theorem PutUp.same (h : PutUp sdk device message ops read) : SameCommand device read := by
  cases h with
  | body ops summary _ _ _ => exact ⟨rfl, rfl, device.command.messageHash, rfl⟩
  | blind summary _ _ _ => exact ⟨rfl, rfl, _, rfl⟩

/-- The body is put up, or turned down. -/
theorem setTransactionSummary_outcome (sdk : Sdk) (hholds : device.command.Holds message)
    (hheader : hashSize ≤ message.length)
    (hcode : device.command.instruction.toByte.toNat = 3 ∨
      device.command.instruction.toByte.toNat = 4) :
    (∃ ops read, setTransactionSummary sdk device (bodyParser message) = .ok (none, read) ∧
        PutUp sdk device message ops read) ∨
      ∃ after, setTransactionSummary sdk device (bodyParser message) =
          .ok (some ApduReply.sdkNotSupported.code, after) ∧
        TurnedDown device message .sdkNotSupported after := by
  have hmax : (bodyParser message).bufferLength ≤ intMax :=
    (Nat.sub_le _ _).trans (hholds.fits.trans (by decide))
  have hbody : (commandMem device.command).bytes (bodyParser message).buffer
      (bodyParser message).bufferLength = message.drop hashSize := bytes_of_holds hholds hheader
  obtain ⟨-, ret, summary, hcall, hcases⟩ := processMessageBody_cases .bits32
    (commandMem device.command) (bodyParser message).buffer hmax hcode device.summary
  simp only [hbody] at hcases
  rcases hcases with ⟨haccepted, rfl, -⟩ | ⟨hrejected, rfl, -⟩
  · obtain ⟨ops, hreview, hops⟩ := processMessageBody_review _ _ _ _ _ _ _ hcall rfl
    refine .inl ⟨ops, _, ?_, .body ops summary haccepted hreview hops⟩
    simp only [setTransactionSummary, hcall, ok_bind, ne_eq, not_true_eq_false, ↓reduceIte,
      pure_eq_ok]
  obtain ⟨-, henabled, hdisabled⟩ :=
    setTransactionSummary_rejected sdk (bodyParser message) hcall Nat.one_ne_zero
  cases hblind : device.settings.allowBlindSign with
  | enabled =>
      obtain ⟨last, hlast, hset⟩ := henabled hblind
      rw [hholds.messageBytes] at hset
      exact .inl ⟨blindReview, _, hset, .blind last hrejected hblind hlast⟩
  | disabled => exact .inr ⟨_, hdisabled hblind, .unrecognized hheader hrejected hblind⟩

/-- A complete message is put up, or turned down. -/
theorem handleSignMessageParseMessage_outcome (sdk : Sdk) (hholds : device.command.Holds message)
    (hstate : device.command.state = .payloadComplete)
    (hcode : device.command.instruction.toByte.toNat = 3 ∨
      device.command.instruction.toByte.toNat = 4) :
    (∃ ops read, handleSignMessageParseMessage sdk device = .ok (none, read) ∧
        hashSize ≤ message.length ∧ device.command.nonConfirm = false ∧
        PutUp sdk device message ops read) ∨
      ∃ reply after, handleSignMessageParseMessage sdk device =
          .ok (some (ApduReply.code reply), after) ∧ TurnedDown device message reply after := by
  have hlength := sizeOfInt_messageLength hholds
  rcases Nat.lt_or_ge message.length hashSize with hshort | hheader
  · refine .inr ⟨_, device, ?_, .headerless hshort⟩
    simp only [handleSignMessageParseMessage, ne_eq, hstate, not_true_eq_false, ↓reduceIte, hlength]
    rw [parseMessageHeader_short hshort]
    rfl
  cases hconfirm : device.command.nonConfirm with
  | true =>
      have hread := parseMessageHeader_ok
        (show hashSize ≤ (⟨⟨.message, 0⟩, message.length⟩ : Parser Block).bufferLength from hheader)
        none
      refine .inr ⟨_, device, ?_, .unattended hheader hconfirm⟩
      simp only [handleSignMessageParseMessage, ne_eq, hstate, not_true_eq_false, ↓reduceIte,
        hlength, hread, ok_bind, hconfirm, pure_eq_ok]
  | false =>
      have hset := handleSignMessageParseMessage_eq sdk hholds hstate hheader hconfirm
      rcases setTransactionSummary_outcome sdk hholds hheader hcode with
        ⟨ops, read, hcall, hputUp⟩ | ⟨after, hcall, hdown⟩
      · exact .inl ⟨ops, read, hset.trans hcall, hheader, rfl, hputUp⟩
      · exact .inr ⟨_, after, hset.trans hcall, hdown⟩

/-- A step whose screen is known comes up with it in the two buffers, and
leaves the store as it was. -/
theorem initStep_screen {numSummarySteps index : Nat} {screen : Screen}
    (hflow : device.flow = .signMessage numSummarySteps index) (hindex : index < numSummarySteps)
    (hshows : displayed (commandMem device.command) index device.settings.displayFlags
      device.summary = .ok (0, some screen)) :
    ∃ summary : SummaryGlobals Block, summary.summary = device.summary.summary ∧
      summary.screen = screen ∧ initStep device = .ok (none, { device with summary }) := by
  obtain ⟨⟨ret, summary⟩, hcall, hstep⟩ := bind_eq_ok.mp hshows
  have hkept := transactionSummaryDisplayItem_summary _ _ _ _ _ hcall
  simp only [pure_eq_ok, Except.ok.injEq, Prod.mk.injEq] at hstep
  obtain ⟨rfl, hscreen⟩ := hstep
  refine ⟨summary, hkept, by simpa using hscreen, ?_⟩
  rw [AppSettings.displayFlags] at hcall
  simp only [initStep, hflow, hindex, ↓reduceIte, hcall, ok_bind, ne_eq, not_true_eq_false,
    pure_eq_ok]

theorem PutUp.path (h : PutUp sdk device message ops read) :
    read.command.path = device.command.path := by
  obtain ⟨messageHash, hcommand⟩ := h.same.command
  rw [hcommand]
  rfl

theorem PutUp.messageBytes (h : PutUp sdk device message ops read)
    (hholds : device.command.Holds message) : read.command.messageBytes = message := by
  obtain ⟨messageHash, hcommand⟩ := h.same.command
  rw [hcommand]
  exact hholds.messageBytes

/-- What is put up comes up with its first page. -/
theorem handleSignMessageUi_outcome (h : PutUp sdk device message ops read)
    (hholds : device.command.Holds message) :
    ∃ summary : SummaryGlobals Block, summary.summary = read.summary.summary ∧
      displayed (commandMem read.command) 0 read.settings.displayFlags summary =
        .ok (0, some summary.screen) ∧
      handleSignMessageUi read = .ok (.asynch, [.reviewed device.command.path message],
        { read with summary, flow := .signMessage ops.length 0 }) := by
  obtain ⟨hret, hlength⟩ := h.holds.finalize_presentable h.presentable
  obtain ⟨op, rest, hops, -⟩ := h.presentable.first
  have hindex : 0 < ops.length := by
    rw [hops]
    exact Nat.zero_lt_succ _
  obtain ⟨screen, hshows⟩ := h.holds.displayed_first h.presentable (commandMem read.command)
    read.settings.displayFlags
  obtain ⟨summary, hsame, hscreen, hinit⟩ := initStep_screen
    (show ({ read with flow := .signMessage ops.length 0 } : Device).flow =
      .signMessage ops.length 0 from rfl) hindex hshows
  refine ⟨summary, hsame, ?_, ?_⟩
  · rw [displayed_congr _ _ _ hsame, hshows, hscreen]
  · simp only [handleSignMessageUi, hret, ↓reduceIte, hlength, hinit, ok_bind, pure_eq_ok, h.path,
      h.messageBytes hholds]

/-- The text of a key always fits. -/
theorem publicKeyStr_fill (device : Device) (publicKey : Buffer UInt8 pubkeySize) :
    ∃ publicKeyStr : Buffer UInt8 base58PubkeyLength,
      cString publicKeyStr.toList = base58Text publicKey.toList ∧
      device.publicKeyStr.fill (encodeBase58 publicKey.toList · base58PubkeyLength)
        (encodeBase58_size _ _ _ device.publicKeyStr.length_eq) = .ok (0, publicKeyStr) := by
  have hencode := encodeBase58_pubkey publicKey.length_eq device.publicKeyStr.length_eq
  obtain ⟨publicKeyStr, hfill, htext⟩ := device.publicKeyStr.fill_ok
    (f := (encodeBase58 publicKey.toList · base58PubkeyLength))
    (encodeBase58_size _ _ _ device.publicKeyStr.length_eq) hencode
  refine ⟨publicKeyStr, ?_, hfill⟩
  rw [htext]
  exact cString_append_nul _ _ (base58Text_noNul _)

theorem toByte_of_signs {instruction : InstructionCode}
    (h : instruction = .signMessage ∨ instruction = .getTxResult) :
    instruction.toByte.toNat = 3 ∨ instruction.toByte.toNat = 4 := by
  rcases h with rfl | rfl
  · exact .inl rfl
  · exact .inr rfl

/-- The branch of `dispatch` that both kinds of messages take. -/
def dispatchMessage (sdk : Sdk) (device : Device) : Checked (Ending × List Output × Device) := do
  let (thrown, device) ← handleSignMessageParseMessage sdk device
  match thrown with
  | none => handleSignMessageUi device
  | some e => return (.thrown e [], [], device)

theorem dispatchMessage_outcome (sdk : Sdk) (hholds : device.command.Holds message)
    (hstate : device.command.state = .payloadComplete)
    (hins : device.command.instruction = .signMessage ∨
      device.command.instruction = .getTxResult) :
    ∃ ending shown after, dispatchMessage sdk device = .ok (ending, shown, after) ∧
      Dispatch sdk device message ending shown after := by
  unfold dispatchMessage
  rcases handleSignMessageParseMessage_outcome sdk hholds hstate (toByte_of_signs hins) with
    ⟨ops, read, hcall, hheader, hconfirm, hputUp⟩ | ⟨reply, after, hcall, hdown⟩
  · obtain ⟨summary, hsame, hscreen, hui⟩ := handleSignMessageUi_outcome hputUp hholds
    refine ⟨_, _, _, ?_, .reviewed ops read summary hins hheader hconfirm hputUp hsame hscreen⟩
    simp only [hcall, ok_bind, hui]
  · refine ⟨_, _, _, ?_, .turnedDown reply after hins hdown⟩
    simp only [hcall, ok_bind, pure_eq_ok]

/-- A complete command is always answered, in one of these ways. -/
theorem dispatch_outcome (sdk : Sdk) (hholds : device.command.Holds message)
    (hstate : device.command.state = .payloadComplete) :
    ∃ ending shown after, dispatch sdk device = .ok (ending, shown, after) ∧
      Dispatch sdk device message ending shown after := by
  rw [dispatch]
  cases hins : device.command.instruction with
  | unset => exact ⟨_, _, _, rfl, .unimplemented hins⟩
  | getAppConfiguration => exact ⟨_, _, _, rfl, .configuration hins⟩
  | getPubkey =>
      have hvalid : ¬ (device.command.instruction ≠ .getPubkey ∨
          device.command.state ≠ .payloadComplete) := by
        simp [hins, hstate]
      cases hkey : getPublicKey sdk device.command.path with
      | error e =>
          refine ⟨_, _, _, ?_, .keyRefused e hins hkey⟩
          simp only [handleGetPubkey, hvalid, ↓reduceIte, hkey, ok_bind, pure_eq_ok]
      | ok publicKey =>
          obtain ⟨publicKeyStr, htext, hfill⟩ := publicKeyStr_fill device publicKey
          cases hconfirm : device.command.nonConfirm with
          | true =>
              refine ⟨_, _, _, ?_, .keySent publicKey publicKeyStr hins hconfirm hkey htext⟩
              simp only [handleGetPubkey, hvalid, ↓reduceIte, hkey, hfill, ok_bind, hconfirm,
                pure_eq_ok]
          | false =>
              refine ⟨_, _, _, ?_, .keyShown publicKey publicKeyStr hins hconfirm hkey htext⟩
              simp only [handleGetPubkey, hvalid, ↓reduceIte, hkey, hfill, ok_bind, hconfirm,
                pure_eq_ok, Bool.false_eq_true]
  | signMessage => exact dispatchMessage_outcome sdk hholds hstate (.inl hins)
  | getTxResult => exact dispatchMessage_outcome sdk hholds hstate (.inr hins)

end Dispatching

section Handling

/-- What an APDU does to a device whose command holds `message`. -/
inductive ApduRound (sdk : Sdk) (device : Device) (message apdu : List UInt8) :
    List Output → Device → Prop where
  | refused (ret : Nat) (command : ApduCommand) (hret : ret ≠ 0)
      (hcall : apduHandleMessage apdu device.command = .ok (ret, command))
      (h : Handled apdu device.command message ret command) :
      ApduRound sdk device message apdu (respond (.thrown ret [])) { device with command }
  | progress (command : ApduCommand) (hstate : command.state = .payloadInProgress)
      (hcall : apduHandleMessage apdu device.command = .ok (0, command))
      (h : Handled apdu device.command message 0 command) :
      ApduRound sdk device message apdu (respond (.thrown ApduReply.success.code []))
        { device with command }
  | complete (command : ApduCommand) (whole : List UInt8) (ending : Ending) (shown : List Output)
      (after : Device) (hstate : command.state = .payloadComplete)
      (hcall : apduHandleMessage apdu device.command = .ok (0, command))
      (h : Handled apdu device.command message 0 command) (hholds : command.Holds whole)
      (hdispatch : Dispatch sdk { device with command } whole ending shown after) :
      ApduRound sdk device message apdu (shown ++ respond ending) after

/-- Every APDU is answered. -/
theorem handleApdu_outcome (sdk : Sdk) (apdu : List UInt8) (hholds : device.command.Holds message) :
    ∃ ending shown after, handleApdu sdk apdu device = .ok (ending, shown, after) ∧
      ApduRound sdk device message apdu (shown ++ respond ending) after := by
  obtain ⟨ret, command, hcall, hhandled⟩ := apduHandleMessage_cases apdu hholds
  rw [handleApdu, hcall, ok_bind]
  by_cases hret : ret = 0
  swap
  · refine ⟨.thrown ret [], [], { device with command }, ?_,
      .refused ret command hret hcall hhandled⟩
    simp only [ne_eq, hret, not_false_eq_true, ↓reduceIte, pure_eq_ok]
  subst hret
  simp only [ne_eq, not_true_eq_false, ↓reduceIte, pure_eq_ok]
  rcases handled_state hhandled rfl with hprogress | hcomplete
  · refine ⟨.thrown ApduReply.success.code [], [], { device with command }, ?_,
      .progress command hprogress hcall hhandled⟩
    simp only [hprogress, ↓reduceIte]
  · obtain ⟨whole, hwhole⟩ := handled_holds hholds hhandled
    obtain ⟨ending, shown, after, hdispatch, houtcome⟩ : ∃ ending shown after,
        dispatch sdk { device with command } = .ok (ending, shown, after) ∧
          Dispatch sdk { device with command } whole ending shown after :=
      dispatch_outcome sdk hwhole hcomplete
    refine ⟨ending, shown, after, ?_,
      .complete command whole ending shown after hcomplete hcall hhandled hwhole houtcome⟩
    simp only [hcomplete, reduceCtorEq, ↓reduceIte, hdispatch]

/-- Where a move within a flow arrives: at a step that comes up, with its
screen if it has one, or at a step that throws. -/
inductive Arrives (device : Device) (flow : Flow) : List Output → Device → Prop where
  | shown (summary : SummaryGlobals Block) (hsame : summary.summary = device.summary.summary)
      (hscreen : ∀ numSummarySteps index, flow = .signMessage numSummarySteps index →
        index < numSummarySteps →
        displayed (commandMem device.command) index device.settings.displayFlags summary =
          .ok (0, some summary.screen)) :
      Arrives device flow [] { device with flow, summary }
  | failed (summary : SummaryGlobals Block) (ret : Nat) (numSummarySteps index : Nat)
      (hflow : flow = .signMessage numSummarySteps index) (hindex : index < numSummarySteps)
      (hsame : summary.summary = device.summary.summary)
      (hret : ret ≠ 0) (hscreen : displayed (commandMem device.command) index
        device.settings.displayFlags device.summary = .ok (ret, none)) :
      Arrives device flow (respond (.thrown ApduReply.aelfSummaryUpdateFailed.code []))
        { device with flow, summary }

theorem goToStep_arrives (flow : Flow) (device : Device) :
    Ensures (goToStep flow device) fun result => Arrives device flow result.1 result.2 := by
  have hquiet : (∀ numSummarySteps index, flow = .signMessage numSummarySteps index →
      ¬ index < numSummarySteps) → Arrives device flow [] { device with flow } :=
    fun hbehind => .shown device.summary rfl
      fun numSummarySteps index hflow hindex => absurd hindex (hbehind _ _ hflow)
  cases flow with
  | idle => exact ensures_ok (hquiet (by simp))
  | pubkey index => exact ensures_ok (hquiet (by simp))
  | signMessage numSummarySteps index =>
      by_cases hindex : index < numSummarySteps
      swap
      · simp only [goToStep, initStep, hindex, ↓reduceIte, ok_bind]
        refine ensures_ok (hquiet ?_)
        rintro _ _ ⟨⟩
        exact hindex
      simp only [goToStep, initStep, hindex, ↓reduceIte]
      intro result hresult
      obtain ⟨⟨thrown, after⟩, hinit, hresult⟩ := bind_eq_ok.mp hresult
      obtain ⟨⟨ret, summary⟩, hcall, hinit⟩ := bind_eq_ok.mp hinit
      have hsame := transactionSummaryDisplayItem_summary _ _ _ _ _ hcall
      have hshows : displayed (commandMem device.command) index device.settings.displayFlags
          device.summary = .ok (ret, if ret = 0 then some summary.screen else none) := by
        simp only [displayed, AppSettings.displayFlags, hcall, ok_bind, pure_eq_ok]
      rw [← displayed_congr _ _ _ hsame] at hshows
      by_cases hret : ret = 0
      · rw [if_pos hret, hret] at hshows
        simp only [ne_eq, hret, not_true_eq_false, ↓reduceIte, pure_eq_ok] at hinit
        cases hinit
        cases hresult
        refine .shown summary hsame ?_
        rintro _ _ ⟨⟩ -
        exact hshows
      · rw [if_neg hret, displayed_congr _ _ _ hsame] at hshows
        simp only [ne_eq, hret, not_false_eq_true, ↓reduceIte, pure_eq_ok] at hinit
        cases hinit
        cases hresult
        exact .failed summary ret numSummarySteps index rfl hindex hsame hret hshows

/-- A step next to the one on the screen, within the same flow. -/
inductive Next : Event → Flow → Flow → Prop where
  | pubkeyRight (index : Nat) (h : index + 1 < 3) :
      Next .right (.pubkey index) (.pubkey (index + 1))
  | pubkeyLeft (index : Nat) : Next .left (.pubkey (index + 1)) (.pubkey index)
  | signMessageRight (numSummarySteps index : Nat) (h : index + 1 < numSummarySteps + 2) :
      Next .right (.signMessage numSummarySteps index) (.signMessage numSummarySteps (index + 1))
  | signMessageLeft (numSummarySteps index : Nat) :
      Next .left (.signMessage numSummarySteps (index + 1)) (.signMessage numSummarySteps index)

/-- What a round does. -/
inductive Round (sdk : Sdk) (device : Device) : Event → List Output → Device → Prop where
  | noApdu : Round sdk device (.apdu []) (respond (.thrown ApduReply.noApduReceived.code [])) device
  | apdu (bytes message : List UInt8) (outputs : List Output) (after : Device) (hne : bytes ≠ [])
      (hholds : device.command.Holds message)
      (h : ApduRound sdk device message bytes outputs after) :
      Round sdk device (.apdu bytes) outputs after
  /-- An event that finds nothing to do. -/
  | stayed (event : Event) (hapdu : ∀ bytes, event ≠ .apdu bytes) (hreset : event ≠ .ioReset) :
      Round sdk device event [] device
  | moved (event : Event) (flow : Flow) (outputs : List Output) (after : Device)
      (hnext : Next event device.flow flow) (h : Arrives device flow outputs after) :
      Round sdk device event outputs after
  | keyApproved (hflow : device.flow = .pubkey 1) :
      Round sdk device .both [.sent (device.publicKey.toList ++ [0x90, 0x00])] (uiIdle device)
  | signed (numSummarySteps : Nat) (signature : Buffer UInt8 signatureLength)
      (hflow : device.flow = .signMessage numSummarySteps numSummarySteps)
      (hsign : sdk.eddsaSign device.command.path device.command.messageBytes = .ok signature) :
      Round sdk device .both [.signed device.command.path device.command.messageBytes,
        .sent (signature.toList ++ [0x90, 0x00])] (uiIdle device)
  /-- The review stays where it is. -/
  | unsigned (numSummarySteps : Nat) (e : SdkException)
      (hflow : device.flow = .signMessage numSummarySteps numSummarySteps)
      (hsign : sdk.eddsaSign device.command.path device.command.messageBytes = .error e) :
      Round sdk device .both (respond (.thrown e.code [])) device
  | rejected (hflow : device.flow = .pubkey 2 ∨
        ∃ numSummarySteps, device.flow = .signMessage numSummarySteps (numSummarySteps + 1)) :
      Round sdk device .both [.sent [0x69, 0x85]] (uiIdle device)
  | settings (settings : AppSettings) (hflow : device.flow = .idle) :
      Round sdk device (.settings settings) [] { device with settings }
  | ioReset : Round sdk device .ioReset [] (uiIdle { device with
      command := .zero, publicKey := .replicate _ 0, publicKeyStr := .replicate _ 0 })

/-- Both buttons always do something that is defined. -/
theorem validateStep_round (sdk : Sdk) (device : Device) :
    Round sdk device .both (validateStep sdk device).1 (validateStep sdk device).2 := by
  have hstayed : Round sdk device .both [] device := .stayed .both (by simp) (by simp)
  unfold validateStep
  split
  · exact hstayed
  · rename_i index hflow
    split
    · rename_i hindex
      exact .keyApproved (by rw [hflow, hindex])
    · split
      · rename_i hindex
        exact .rejected (.inl (by rw [hflow, hindex]))
      · exact hstayed
  · rename_i numSummarySteps index hflow
    split
    · rename_i hindex
      rw [hindex] at hflow
      simp only [sendResultSignMessage]
      split
      · rename_i e hsign
        exact .unsigned numSummarySteps e hflow hsign
      · rename_i signature hsign
        exact .signed numSummarySteps signature hflow hsign
    · split
      · rename_i hindex
        exact .rejected (.inr ⟨numSummarySteps, by rw [hflow, hindex]⟩)
      · exact hstayed

/-- An APDU is always answered. -/
theorem appStep_apdu (sdk : Sdk) (bytes : List UInt8) (hholds : device.command.Holds message) :
    ∃ outputs after, appStep sdk (.apdu bytes) device = .ok (outputs, after) ∧
      Round sdk device (.apdu bytes) outputs after := by
  by_cases hbytes : bytes = []
  · subst hbytes
    exact ⟨_, _, rfl, .noApdu⟩
  · obtain ⟨ending, shown, after, hcall, hround⟩ := handleApdu_outcome sdk bytes hholds
    have hlength : ¬ bytes.length = 0 := by
      simpa using hbytes
    refine ⟨_, after, ?_, .apdu bytes message _ after hbytes hholds hround⟩
    simp only [appStep, hlength, ↓reduceIte, hcall, ok_bind, pure_eq_ok]

/-- A round that answers does one of these things. -/
theorem appStep_round (sdk : Sdk) (event : Event) (hholds : device.command.Holds message) :
    Ensures (appStep sdk event device) fun result =>
      Round sdk device event result.1 result.2 := by
  have hmoved : ∀ flow, Next event device.flow flow →
      Ensures (goToStep flow device) fun result => Round sdk device event result.1 result.2 :=
    fun flow hnext result hresult =>
      .moved event flow _ _ hnext (goToStep_arrives flow device result hresult)
  cases event with
  | apdu bytes =>
      obtain ⟨outputs, after, hcall, hround⟩ := appStep_apdu sdk bytes hholds
      rw [hcall]
      exact ensures_ok hround
  | left =>
      have hstayed : Round sdk device .left [] device := .stayed .left (by simp) (by simp)
      simp only [appStep]
      split
      · exact ensures_ok hstayed
      · rename_i index hflow
        split
        · exact ensures_ok hstayed
        · apply hmoved
          obtain ⟨before, rfl⟩ := Nat.exists_eq_succ_of_ne_zero ‹_›
          rw [hflow]
          exact .pubkeyLeft before
      · rename_i numSummarySteps index hflow
        split
        · exact ensures_ok hstayed
        · apply hmoved
          obtain ⟨before, rfl⟩ := Nat.exists_eq_succ_of_ne_zero ‹_›
          rw [hflow]
          exact .signMessageLeft numSummarySteps before
  | right =>
      have hstayed : Round sdk device .right [] device := .stayed .right (by simp) (by simp)
      simp only [appStep]
      split
      · exact ensures_ok hstayed
      · rename_i index hflow
        split
        · apply hmoved
          rw [hflow]
          exact .pubkeyRight index ‹_›
        · exact ensures_ok hstayed
      · rename_i numSummarySteps index hflow
        split
        · apply hmoved
          rw [hflow]
          exact .signMessageRight numSummarySteps index ‹_›
        · exact ensures_ok hstayed
  | pageTurn => exact ensures_ok (.stayed .pageTurn (by simp) (by simp))
  | both => exact ensures_ok (validateStep_round sdk device)
  | settings settings =>
      simp only [appStep]
      split
      · exact ensures_ok (.settings settings ‹_›)
      · exact ensures_ok (.stayed (.settings settings) (by simp) (by simp))
  | ioReset => exact ensures_ok .ioReset

end Handling

section Runs

variable {outputs : List Output} {after : Device} {event : Event}

/-- The store is reset, and nothing else happens to the device. -/
theorem TurnedDown.eq {reply : ApduReply} (h : TurnedDown device message reply after) :
    ∃ summary, after = { device with summary } := by
  cases h with
  | headerless _ => exact ⟨device.summary, rfl⟩
  | unattended _ _ => exact ⟨device.summary, rfl⟩
  | unrecognized _ _ _ => exact ⟨_, rfl⟩

/-- A complete command stays, but for the hash of its message, and so do the settings. -/
theorem Dispatch.same {ending : Ending} (h : Dispatch sdk device message ending outputs after) :
    (∃ messageHash, after.command = { device.command with messageHash }) ∧
      after.settings = device.settings := by
  cases h with
  | configuration _ => exact ⟨⟨device.command.messageHash, rfl⟩, rfl⟩
  | keyRefused e _ _ => exact ⟨⟨device.command.messageHash, rfl⟩, rfl⟩
  | keySent publicKey publicKeyStr _ _ _ _ => exact ⟨⟨device.command.messageHash, rfl⟩, rfl⟩
  | keyShown publicKey publicKeyStr _ _ _ _ => exact ⟨⟨device.command.messageHash, rfl⟩, rfl⟩
  | turnedDown reply after _ h =>
      obtain ⟨summary, rfl⟩ := h.eq
      exact ⟨⟨device.command.messageHash, rfl⟩, rfl⟩
  | reviewed ops read summary _ _ _ hputUp _ _ => exact ⟨hputUp.same.command, hputUp.same.settings⟩
  | unimplemented _ => exact ⟨⟨device.command.messageHash, rfl⟩, rfl⟩

theorem ApduRound.holds {apdu : List UInt8} (h : ApduRound sdk device message apdu outputs after)
    (hholds : device.command.Holds message) : ∃ message', after.command.Holds message' := by
  cases h with
  | refused ret command _ _ hhandled => exact handled_holds hholds hhandled
  | progress command _ _ hhandled => exact handled_holds hholds hhandled
  | complete command whole ending shown after _ _ _ hwhole hdispatch =>
      obtain ⟨⟨messageHash, hcommand⟩, -⟩ := hdispatch.same
      rw [hcommand]
      exact ⟨whole, hwhole.buffer, hwhole.length, hwhole.fits⟩

theorem Arrives.eq {flow : Flow} (h : Arrives device flow outputs after) :
    ∃ summary : SummaryGlobals Block, summary.summary = device.summary.summary ∧
      after = { device with flow, summary } := by
  cases h with
  | shown summary hsame _ => exact ⟨summary, hsame, rfl⟩
  | failed summary _ _ _ _ _ hsame _ _ => exact ⟨summary, hsame, rfl⟩

/-- Every round leaves the command well formed. -/
theorem Round.holds (h : Round sdk device event outputs after)
    (hholds : ∃ message, device.command.Holds message) :
    ∃ message, after.command.Holds message := by
  cases h with
  | noApdu => exact hholds
  | apdu bytes message _ _ _ hmessage h => exact h.holds hmessage
  | stayed _ _ _ => exact hholds
  | moved _ flow _ _ _ h =>
      obtain ⟨summary, -, rfl⟩ := h.eq
      exact hholds
  | keyApproved _ => exact hholds
  | signed _ _ _ _ => exact hholds
  | unsigned _ _ _ _ => exact hholds
  | rejected _ => exact hholds
  | settings settings _ => exact hholds
  | ioReset => exact ⟨[], zero_holds⟩

/-- The log of a run: what happened in each round, and the device after it. -/
abbrev RoundLog : Type := List (Event × List Output × Device)

/-- What holds when the device boots and is kept by every allowed round holds
after every run of such rounds. -/
theorem rounds_ensures (sdk : Sdk) (settings : AppSettings) (inv : RoundLog → Device → Prop)
    (allowed : Event → Device → Prop) (hboot : inv [] (Device.boot settings))
    (hround : ∀ log device event outputs after, inv log device → allowed event device →
      Round sdk device event outputs after → inv (log ++ [(event, outputs, after)]) after)
    (events : List Event) (hwithin : Within (appStep sdk) allowed events (Device.boot settings)) :
    Ensures (run (recorded (appStep sdk)) events (Device.boot settings)) fun result =>
      inv result.1 result.2 := by
  have hrun := run_ensures
    (fun log device => inv log device ∧ ∃ message, device.command.Holds message) allowed
    (fun log device event h hallowed => ?_) events [] (Device.boot settings)
    ⟨hboot, [], zero_holds⟩ hwithin.recorded
  · intro result hresult
    have hfinal := hrun result hresult
    simpa using hfinal.1
  · obtain ⟨hinv, message, hholds⟩ := h
    rintro ⟨⟨outputs, after⟩, state⟩ hresult
    obtain ⟨hcall, rfl⟩ := recorded_eq_ok.mp hresult
    have hround' := appStep_round sdk event hholds _ hcall
    exact ⟨hround log device event outputs after hinv hallowed hround',
      hround'.holds ⟨message, hholds⟩⟩

/-- What every round does, every round of a run does. -/
theorem rounds_forall (sdk : Sdk) (settings : AppSettings)
    {P : Event × List Output × Device → Prop}
    (h : ∀ device event outputs after, Round sdk device event outputs after →
      P (event, outputs, after)) (events : List Event) :
    Ensures (run (recorded (appStep sdk)) events (Device.boot settings)) fun result =>
      ∀ round ∈ result.1, P round := by
  apply rounds_ensures sdk settings (fun log _ => ∀ round ∈ log, P round) (fun _ _ => True)
  · simp
  · intro log device event outputs after hlog _ hround
    exact forall_mem_snoc hlog (h device event outputs after hround)
  · exact within_always events _

/-- The command that a run leaves holds some message. -/
theorem rounds_hold (sdk : Sdk) (settings : AppSettings) (events : List Event) :
    Ensures (run (recorded (appStep sdk)) events (Device.boot settings)) fun result =>
      ∃ message, result.2.command.Holds message := by
  apply rounds_ensures sdk settings (fun _ device => ∃ message, device.command.Holds message)
    (fun _ _ => True)
  · exact ⟨[], zero_holds⟩
  · intro _ _ _ _ _ hholds _ hround
    exact hround.holds hholds
  · exact within_always events _

end Runs

end AelfApp
