import AelfApp.Main
import AelfApp.Libsol.Screens

/-!
What becomes of a message whose body is rejected. The rejected parse has left
the store as the reset did, so the review that shows only the hash of the
message always fits, and the flow has its two screens and nothing else.
-/

namespace AelfApp

open Memory Apdu Libsol

/-- A step of the flow for a message: a screen of the summary, or one of the
last two. -/
inductive FlowStep where
  | summary (screen : Screen)
  | approve
  | reject
  deriving DecidableEq

/-- What makes the step with that index the one it is: what it shows, whatever
the buffers hold, or what both buttons do there. -/
def FlowStep.Is (sdk : Sdk) (device : Device) (numSummarySteps index : Nat) : FlowStep → Prop
  | .summary screen => ∀ (flags : DisplayFlags) (g : SummaryGlobals Block),
      g.summary = device.summary.summary →
        displayed (commandMem device.command) index flags g = .ok (0, some screen)
  | .approve => validateStep sdk { device with flow := .signMessage numSummarySteps index } =
      sendResultSignMessage sdk { device with flow := .signMessage numSummarySteps index }
  | .reject => validateStep sdk { device with flow := .signMessage numSummarySteps index } =
      sendResponse [] false { device with flow := .signMessage numSummarySteps index }

/-- The flow on the screen consists of these steps, in this order. -/
def FlowConsistsOf (sdk : Sdk) (device : Device) (steps : List FlowStep) : Prop :=
  ∃ numSummarySteps index, device.flow = .signMessage numSummarySteps index ∧
    steps.length = numSummarySteps + 2 ∧
    ∀ (i : Nat) (hi : i < steps.length), steps[i].Is sdk device numSummarySteps i

variable {device : Device}

section Flow

/-- A step that shows its screen comes up without an exception, and leaves the
store as it was. -/
theorem initStep_displayed {numSummarySteps index : Nat} {screen : Screen}
    (hflow : device.flow = .signMessage numSummarySteps index) (hindex : index < numSummarySteps)
    (hshows : ∀ flags, displayed (commandMem device.command) index flags device.summary =
      .ok (0, some screen)) :
    ∃ summary : SummaryGlobals Block, summary.summary = device.summary.summary ∧
      initStep device = .ok (none, { device with summary }) := by
  have hstep := hshows (if device.settings.pubkeyDisplay = .long then displayFlagLongPubkeys
    else displayFlagNone)
  have hkept := transactionSummaryDisplayItem_summary (commandMem device.command) index
    (if device.settings.pubkeyDisplay = .long then displayFlagLongPubkeys else displayFlagNone)
    device.summary
  rw [displayed] at hstep
  obtain ⟨⟨ret, summary⟩, hcall, hstep⟩ := bind_eq_ok.mp hstep
  simp only [pure_eq_ok, Except.ok.injEq, Prod.mk.injEq] at hstep
  refine ⟨summary, hkept _ hcall, ?_⟩
  simp only [initStep, hflow, hindex, ↓reduceIte, hcall, ok_bind, ne_eq, hstep.1,
    not_true_eq_false, pure_eq_ok]

/-- A review that shows some screens is put up as a flow of them, Approve and
Reject. -/
theorem handleSignMessageUi_shows (sdk : Sdk) (device : Device) {screen : Screen}
    {screens : List Screen}
    (hfinalize : (transactionSummaryFinalize device.summary.summary).1 = 0)
    (hshows : ∀ flags, Shows (commandMem device.command) flags device.summary.summary
      (screen :: screens)) :
    ∃ shown, handleSignMessageUi device = .ok (.asynch,
        [.reviewed device.command.path device.command.messageBytes], shown) ∧
      FlowConsistsOf sdk shown
        ((screen :: screens).map FlowStep.summary ++ [.approve, .reject]) := by
  have hflow : ({ device with flow := .signMessage (screen :: screens).length 0 } : Device).flow =
      .signMessage (screen :: screens).length 0 := rfl
  obtain ⟨summary, hkept, hinit⟩ := initStep_displayed hflow (Nat.zero_lt_succ _)
    fun flags => (hshows flags).2 0 device.summary rfl
  refine ⟨{ device with flow := .signMessage (screen :: screens).length 0, summary }, ?_,
    (screen :: screens).length, 0, rfl, ?_, ?_⟩
  · have hlength := (hshows displayFlagNone).1
    simp only [handleSignMessageUi, hfinalize, ↓reduceIte, hlength, hinit, ok_bind, pure_eq_ok]
  · simp
  · intro i hi
    rcases Nat.lt_or_ge i (screen :: screens).length with hscreen | hlast
    · rw [List.getElem_append_left (by simpa using hscreen), List.getElem_map]
      intro flags g hg
      rw [(hshows flags).2 i g (hg.trans hkept), List.getElem?_eq_getElem hscreen]
    · -- The two steps behind the summary.
      have hmap : ((screen :: screens).map FlowStep.summary).length = (screen :: screens).length :=
        List.length_map _
      rw [List.length_append, hmap] at hi
      obtain ⟨k, rfl⟩ := Nat.exists_eq_add_of_le hlast
      have hindex : (screen :: screens).length + k -
          ((screen :: screens).map FlowStep.summary).length = k := by omega
      rw [List.getElem_append_right (by omega)]
      simp only [hindex]
      cases k with
      | zero => exact if_pos rfl
      | succ k =>
          cases k with
          | zero => exact (if_neg (by omega)).trans (if_pos rfl)
          | succ k =>
              simp only [List.length_cons, List.length_nil] at hi
              omega

end Flow

section Rejected

/-- The two screens of the blind review. -/
def blindScreens (messageHash : List UInt8) : List Screen :=
  [⟨ascii "Unrecognized", ascii "format"⟩, ⟨ascii "Message Hash", base58Text messageHash⟩]

theorem blindReview_shows (command : Apdu.ApduCommand) {summary : TransactionSummary Block}
    (h : Holds summary (keptItems blindReview)) (flags : DisplayFlags) :
    Shows (commandMem command) flags summary (blindScreens command.messageHash.toList) := by
  refine h.shows ⟨_, List.mem_cons_self, rfl⟩ ?_
  have hitems : reviewItems blindReview = [.used (.lit "Unrecognized") (.string (.lit "format")),
      .used (.lit "Message Hash") (.hash (some ⟨.messageHash, 0⟩))] := rfl
  have hfirst : itemOutcome (commandMem command) flags
      (.used (.lit "Unrecognized") (.string (.lit "format"))) =
        .ok (0, some ⟨ascii "Unrecognized", ascii "format"⟩) := rfl
  have hsecond : itemOutcome (commandMem command) flags
      (.used (.lit "Message Hash") (.hash (some ⟨.messageHash, 0⟩))) =
        .ok (0, some ⟨ascii "Message Hash", base58Text command.messageHash.toList⟩) := by
    rw [← bytes_messageHash]
    rfl
  rw [hitems, List.map_cons, List.map_cons, hfirst, hsecond]
  rfl

/-- With blind signing enabled, a rejected body ends in the flow of the blind
review. -/
theorem rejected_enabled (sdk : Sdk) {message : List UInt8} {ret : Nat}
    {rejected : TransactionSummary Block} (hholds : device.command.Holds message)
    (hstate : device.command.state = .payloadComplete)
    (hconfirm : device.command.nonConfirm = false) (hheader : hashSize ≤ message.length)
    (hcall : processMessageBody .bits32 (commandMem device.command) ⟨.message, hashSize⟩
      (message.length - hashSize) device.command.instruction.toByte.toNat
      (transactionSummaryReset device.summary).summary = .ok (ret, rejected)) (hret : ret ≠ 0)
    (hblind : device.settings.allowBlindSign = .enabled) :
    ∃ parsed shown, handleSignMessageParseMessage sdk device = .ok (none, parsed) ∧
      handleSignMessageUi parsed = .ok (.asynch, [.reviewed device.command.path message], shown) ∧
      FlowConsistsOf sdk shown
        ((blindScreens (sdk.sha256 message).toList).map FlowStep.summary ++
          [.approve, .reject]) := by
  obtain ⟨-, henabled, -⟩ := setTransactionSummary_rejected sdk
    ((⟨⟨.message, 0⟩, message.length⟩ : Parser Block).skip hashSize) hcall hret
  obtain ⟨last, hlast, hset⟩ := henabled hblind
  rw [← handleSignMessageParseMessage_eq sdk hholds hstate hheader hconfirm] at hset
  have hfinalize : (transactionSummaryFinalize last).1 = 0 := by
    rw [hlast.finalize_eq]
    rfl
  have hbytes := hholds.messageBytes
  obtain ⟨shown, hui, hflow⟩ := handleSignMessageUi_shows sdk
    { device with
      command := { device.command with messageHash := sdk.sha256 device.command.messageBytes }
      summary := { transactionSummaryReset device.summary with summary := last } }
    hfinalize (blindReview_shows _ hlast)
  have hsame : ({ device.command with
      messageHash := sdk.sha256 device.command.messageBytes } : Apdu.ApduCommand).messageBytes =
        message := hbytes
  rw [hsame] at hui
  simp only [hbytes] at hflow
  exact ⟨_, shown, hset, hui, hflow⟩

/-- A parse that fails leaves the store as it was, whatever it held. So if the
body of a complete command is rejected, both getters return a slot, and with
blind signing enabled the flow shows that the format is not recognized and the
hash of the whole message, and ends with Approve and Reject. Otherwise no flow
is started. -/
theorem failed_parse_leaves_review (sdk : Sdk) (device : Device) (message : List UInt8) :
    (∀ (β : Type) (size : SizeT) (mem : Mem β) (messageBody : Ptr β)
        (messageBodyLength insCode : Nat) (prior after : TransactionSummary β) (ret : Nat),
      processMessageBody size mem messageBody messageBodyLength insCode prior = .ok (ret, after) →
        ret ≠ 0 → after = prior) ∧
    ∀ (ret : Nat) (rejected : TransactionSummary Block), device.command.Holds message →
      device.command.state = .payloadComplete → device.command.nonConfirm = false →
      hashSize ≤ message.length →
      processMessageBody .bits32 (commandMem device.command) ⟨.message, hashSize⟩
        (message.length - hashSize) device.command.instruction.toByte.toNat
        (transactionSummaryReset device.summary).summary = .ok (ret, rejected) →
      ret ≠ 0 →
      (∃ first, transactionSummaryPrimaryItem rejected = some .primary ∧
        summaryItemSetString (some .primary) (.lit "Unrecognized") (.lit "format") rejected =
          .ok first ∧
        transactionSummaryGeneralItem first = some (.general 0)) ∧
      (device.settings.allowBlindSign = .enabled →
        ∃ parsed shown, handleSignMessageParseMessage sdk device = .ok (none, parsed) ∧
          handleSignMessageUi parsed =
            .ok (.asynch, [.reviewed device.command.path message], shown) ∧
          FlowConsistsOf sdk shown
            ((blindScreens (sdk.sha256 message).toList).map FlowStep.summary ++
              [.approve, .reject])) ∧
      (device.settings.allowBlindSign = .disabled →
        ∃ parsed, handleSignMessageParseMessage sdk device =
            .ok (some ApduReply.sdkNotSupported.code, parsed) ∧
          parsed.flow = device.flow ∧
          (device.command.instruction = .signMessage ∨ device.command.instruction = .getTxResult →
            dispatch sdk device =
              .ok (.thrown ApduReply.sdkNotSupported.code [], [], parsed))) := by
  refine ⟨fun β size mem messageBody n insCode prior after ret hcall hret =>
    processMessageBody_rejected size mem messageBody n insCode prior _ hcall hret, ?_⟩
  intro ret rejected hholds hstate hconfirm hheader hcall hret
  obtain ⟨hreset, -, hdisabled⟩ := setTransactionSummary_rejected sdk
    ((⟨⟨.message, 0⟩, message.length⟩ : Parser Block).skip hashSize) hcall hret
  refine ⟨?_, rejected_enabled sdk hholds hstate hconfirm hheader hcall hret, fun hblind => ?_⟩
  · obtain ⟨first, -, hprimary, hfirst, hgeneral, -⟩ := blindReview_holds device.summary
    rw [hreset]
    exact ⟨first, hprimary, hfirst, hgeneral⟩
  · have hset := hdisabled hblind
    rw [← handleSignMessageParseMessage_eq sdk hholds hstate hheader hconfirm] at hset
    refine ⟨_, hset, rfl, ?_⟩
    rintro (hins | hins)
    · simp only [dispatch, hins, hset, ok_bind, pure_eq_ok]
    · simp only [dispatch, hins, hset, ok_bind, pure_eq_ok]

/-- A device that holds a message of 33 bytes, one more than the header. -/
def sampleRejected : Device :=
  { Device.boot ⟨.enabled, .long⟩ with
    command := { Apdu.ApduCommand.zero with
      state := .payloadComplete
      instruction := .signMessage
      message := .padded _ 0 (List.replicate 33 7)
      messageLength := 33 } }

/-- Its one byte of a body is rejected and reviewed blind. -/
theorem failed_parse_leaves_review_sample :
    ∃ parsed shown, handleSignMessageParseMessage constantSdk sampleRejected = .ok (none, parsed) ∧
      handleSignMessageUi parsed = .ok (.asynch, [.reviewed [] (List.replicate 33 7)], shown) ∧
      FlowConsistsOf constantSdk shown
        ((blindScreens (constantSdk.sha256 (List.replicate 33 7)).toList).map FlowStep.summary ++
          [.approve, .reject]) :=
  ((failed_parse_leaves_review constantSdk sampleRejected (List.replicate 33 7)).2 1 .empty
    ⟨rfl, rfl, by decide⟩ rfl rfl (by decide) rfl Nat.one_ne_zero).2.1 rfl

end Rejected

end AelfApp
