import AelfApp.Walk
import AelfApp.Libsol.Formats

/-!
The summary store over whole runs. Whatever happens, it holds nothing or a
review whose pointers lie in the arrays of the command. A page can only run
into a null pointer, and only a body that stops short leaves one; in a run
without such bodies nothing is undefined, and the user can always reject.
-/

namespace AelfApp

open Memory Apdu Libsol Machine Wire

variable {sdk : Sdk} {device after : Device} {event : Event} {outputs : List Output}
  {message : List UInt8} {ops : List (TakeAndSet Block)}

section Store

/-- What the store may hold: nothing, or a review with such pointers. -/
inductive Stored (P : Slot Block → Prop) (summary : TransactionSummary Block) : Prop where
  | empty (h : summary = .empty)
  | review (ops : List (TakeAndSet Block)) (hholds : Holds summary (keptItems ops))
      (hpresentable : Presentable ops) (hslots : ∀ slot ∈ reviewSlots ops, P slot)

/-- The reviews that a round may put up have such pointers. -/
def PutsUpOnly (sdk : Sdk) (P : Slot Block → Prop) (event : Event) (device : Device) : Prop :=
  ∀ bytes command message ops read, event = .apdu bytes →
    apduHandleMessage bytes device.command = .ok (0, command) →
    command.state = .payloadComplete → command.Holds message → hashSize ≤ message.length →
    command.instruction = .signMessage ∨ command.instruction = .getTxResult →
    PutUp sdk { device with command } message ops read → ∀ slot ∈ reviewSlots ops, P slot

/-- The store is only changed by what is put up or turned down. -/
theorem Round.stored {P : Slot Block → Prop} (h : Round sdk device event outputs after)
    (hstored : Stored P device.summary.summary) (hputsUp : PutsUpOnly sdk P event device) :
    Stored P after.summary.summary := by
  cases h with
  | noApdu => exact hstored
  | apdu bytes message _ _ _ _ h =>
      cases h with
      | refused _ _ _ _ _ => exact hstored
      | progress _ _ _ _ => exact hstored
      | complete command whole ending shown _ hstate hcall _ hholds hdispatch =>
          cases hdispatch with
          | configuration _ => exact hstored
          | keyRefused _ _ _ => exact hstored
          | keySent _ _ _ _ _ _ => exact hstored
          | keyShown _ _ _ _ _ _ => exact hstored
          | turnedDown reply _ _ hdown =>
              cases hdown with
              | headerless _ => exact hstored
              | unattended _ _ => exact hstored
              | unrecognized _ _ _ => exact .empty rfl
          | reviewed ops read summary hins hheader _ hputUp hsame _ =>
              have hslots := hputsUp bytes command whole ops read rfl hcall hstate hholds hheader
                hins hputUp
              refine .review ops ?_ hputUp.presentable hslots
              rw [hsame]
              exact hputUp.holds
          | unimplemented _ => exact hstored
  | stayed _ _ _ => exact hstored
  | moved _ flow _ _ _ h =>
      obtain ⟨summary, hsame, rfl⟩ := h.eq
      rwa [hsame]
  | keyApproved _ => exact hstored
  | signed _ _ _ _ => exact hstored
  | unsigned _ _ _ _ => exact hstored
  | rejected _ => exact hstored
  | settings _ _ => exact hstored
  | ioReset => exact hstored

theorem Stored.item {P : Slot Block → Prop} {summary : TransactionSummary Block}
    (h : Stored P summary) {getter : SlotGetter} {title : CString} {value : SummaryValue Block}
    (hitem : .used title value ∈ getter.items summary) : ∀ slot ∈ value.slots, P slot := by
  cases h with
  | empty hempty =>
      subst hempty
      cases getter <;> simp [SlotGetter.items, TransactionSummary.empty, Buffer.replicate] at hitem
  | review ops hholds hpresentable hslots =>
      rw [hholds.items_eq getter] at hitem
      rcases List.mem_append.mp hitem with hkept | hunused
      · obtain ⟨op, hop, hsame⟩ := List.mem_map.mp (List.mem_of_mem_take hkept)
        have hvalue : op.value = value := (SummaryItem.used.inj hsame).2
        intro slot member
        apply hslots
        exact List.mem_flatMap.mpr ⟨op, List.mem_of_mem_filter hop, by rwa [hvalue]⟩
      · cases List.eq_of_mem_replicate hunused

end Store

section Arrays

/-- The pointer is null, or the bytes it stands for lie in the array that it
points into. -/
def InArrays (slot : Slot Block) : Prop :=
  ∀ p, slot.1 = some p →
    p.block = .message ∧ p.offset + slot.2 ≤ maxMessageLength ∨
      p.block = .messageHash ∧ p.offset + slot.2 ≤ hashLength

theorem PutUp.inArrays {read : Device} (h : PutUp sdk device message ops read)
    (hholds : device.command.Holds message) (hheader : hashSize ≤ message.length) :
    ∀ slot ∈ reviewSlots ops, InArrays slot := by
  intro slot member p hp
  cases h with
  | body ops _ _ hreview _ =>
      obtain ⟨⟨hblock, -⟩, -, hstop⟩ := hreview.inside slot member p hp
      have hfits := hholds.fits
      refine .inl ⟨hblock.symm, ?_⟩
      simp only [Parser.stop, bodyParser, Ptr.add_offset] at hstop
      omega
  | blind _ _ _ _ =>
      have hslots : reviewSlots blindReview = [(some ⟨.messageHash, 0⟩, hashSize)] := rfl
      rw [hslots, List.mem_singleton] at member
      subst member
      cases hp
      exact .inr ⟨rfl, le_rfl⟩

theorem putsUpOnly_inArrays (event : Event) (device : Device) :
    PutsUpOnly sdk InArrays event device := by
  intro bytes command message ops read _ _ _ hholds hheader _ hputUp
  exact hputUp.inArrays hholds hheader

/-- In every state of every run, whatever a page may read lies in the arrays of
the command: the message, or its hash. -/
theorem store_in_arrays (sdk : Sdk) (settings : AppSettings) (events : List Event) :
    Ensures (run (recorded (appStep sdk)) events (Device.boot settings)) fun result =>
      ∀ round ∈ result.1, ∀ (getter : SlotGetter) (title : CString) (value : SummaryValue Block),
        .used title value ∈ getter.items round.2.2.summary.summary →
        ∀ slot ∈ value.slots, InArrays slot := by
  have hrun := rounds_ensures sdk settings
    (fun log device => (∀ round ∈ log, Stored InArrays round.2.2.summary.summary) ∧
      Stored InArrays device.summary.summary) (fun _ _ => True)
    ⟨by simp, .empty rfl⟩ (fun log device event outputs after hinv _ hround => ?_) events
    (within_always events _)
  · intro result hresult round member getter title value hitem
    exact ((hrun result hresult).1 round member).item hitem
  · have hafter := hround.stored hinv.2 (putsUpOnly_inArrays event device)
    exact ⟨forall_mem_snoc hinv.1 hafter, hafter⟩

end Arrays

section Faults

/-- The body of the command stops where its next field would begin. -/
def BodyStopsShort (command : ApduCommand) : Prop :=
  (command.instruction = .signMessage ∨ command.instruction = .getTxResult) ∧
    hashSize ≤ command.messageBytes.length ∧
    (bodyFormat command.instruction.toByte.toNat).Short (command.messageBytes.drop hashSize)

/-- The event is an APDU that completes such a command. -/
def CompletesShort (event : Event) (device : Device) : Prop :=
  ∃ bytes command, event = .apdu bytes ∧
    apduHandleMessage bytes device.command = .ok (0, command) ∧
    command.state = .payloadComplete ∧ BodyStopsShort command

theorem PutUp.nonNull {read : Device} (h : PutUp sdk device message ops read)
    (hholds : device.command.Holds message) (hheader : hashSize ≤ message.length)
    (hwhole : ¬ (bodyFormat device.command.instruction.toByte.toNat).Short
      (message.drop hashSize)) : ∀ slot ∈ reviewSlots ops, slot.1 ≠ none := by
  cases h with
  | body ops _ haccepted hreview _ =>
      have hsize : (bodyParser message).bufferLength ≤ SizeT.bits32.max :=
        (Nat.sub_le _ _).trans (hholds.fits.trans (by decide))
      have hrest : (bodyParser message).rest (commandMem device.command) =
          message.drop hashSize := bytes_of_holds hholds hheader
      apply hreview.nonNull hsize
      rw [hrest]
      exact haccepted.resolve_right hwhole
  | blind _ _ _ _ =>
      have hslots : reviewSlots blindReview = [(some ⟨.messageHash, 0⟩, hashSize)] := rfl
      simp [hslots]

theorem putsUpOnly_nonNull (h : ¬ CompletesShort event device) :
    PutsUpOnly sdk (·.1 ≠ none) event device := by
  intro bytes command message ops read hevent hcall hstate hholds hheader hins hputUp
  apply hputUp.nonNull hholds hheader
  intro hshort
  have hbytes := hholds.messageBytes
  exact h ⟨bytes, command, hevent, hcall, hstate, hins, by rwa [hbytes], by rwa [hbytes]⟩

/-- Without a null pointer every page comes up or throws. -/
theorem Stored.displayed_total (h : Stored (·.1 ≠ none) device.summary.summary) (index : Nat)
    (flags : DisplayFlags) : ∃ result,
      displayed (commandMem device.command) index flags device.summary = .ok result := by
  cases h with
  | empty hempty => exact ⟨_, displayed_empty _ _ _ hempty⟩
  | review ops hholds hpresentable hslots =>
      rcases Nat.lt_or_ge index ops.length with hpage | hbehind
      · obtain ⟨screen, hscreen⟩ := hholds.displayed_shows hpresentable
          (commandMem device.command) flags hpage (fun slot member =>
            hslots slot (List.mem_flatMap.mpr ⟨_, List.getElem_mem hpage, member⟩))
        exact ⟨_, hscreen⟩
      · rw [hholds.displayed_page hpresentable, List.getElem?_eq_none hbehind]
        exact ⟨_, rfl⟩

theorem Stored.goToStep_total (h : Stored (·.1 ≠ none) device.summary.summary) (flow : Flow) :
    ∃ outputs after, goToStep flow device = .ok (outputs, after) := by
  cases flow with
  | idle => exact ⟨_, _, rfl⟩
  | pubkey index => exact ⟨_, _, rfl⟩
  | signMessage numSummarySteps index =>
      by_cases hindex : index < numSummarySteps
      swap
      · simp only [goToStep, initStep, hindex, ↓reduceIte, ok_bind]
        exact ⟨_, _, rfl⟩
      obtain ⟨result, hshown⟩ := h.displayed_total index device.settings.displayFlags
      obtain ⟨⟨ret, summary⟩, hcall, -⟩ := bind_eq_ok.mp hshown
      rw [AppSettings.displayFlags] at hcall
      simp only [goToStep, initStep, hindex, ↓reduceIte, hcall, ok_bind]
      by_cases hret : ret = 0
      · simp only [ne_eq, hret, not_true_eq_false, ↓reduceIte, pure_eq_ok, ok_bind]
        exact ⟨_, _, rfl⟩
      · simp only [ne_eq, hret, not_false_eq_true, ↓reduceIte, pure_eq_ok, ok_bind]
        exact ⟨_, _, rfl⟩

/-- Every event is answered. -/
theorem Stored.appStep_total (h : Stored (·.1 ≠ none) device.summary.summary)
    (hholds : device.command.Holds message) (sdk : Sdk) (event : Event) :
    ∃ outputs after, appStep sdk event device = .ok (outputs, after) := by
  cases event with
  | apdu bytes =>
      obtain ⟨outputs, after, hcall, -⟩ := appStep_apdu sdk bytes hholds
      exact ⟨outputs, after, hcall⟩
  | left =>
      simp only [appStep]
      split
      · exact ⟨_, _, rfl⟩
      · split
        · exact ⟨_, _, rfl⟩
        · exact h.goToStep_total _
      · split
        · exact ⟨_, _, rfl⟩
        · exact h.goToStep_total _
  | right =>
      simp only [appStep]
      split
      · exact ⟨_, _, rfl⟩
      · split
        · exact h.goToStep_total _
        · exact ⟨_, _, rfl⟩
      · split
        · exact h.goToStep_total _
        · exact ⟨_, _, rfl⟩
  | pageTurn => exact ⟨_, _, rfl⟩
  | both => exact ⟨_, _, rfl⟩
  | settings settings =>
      simp only [appStep]
      split
      · exact ⟨_, _, rfl⟩
      · exact ⟨_, _, rfl⟩
  | ioReset => exact ⟨_, _, rfl⟩

end Faults

section Runs

/-- The step on the screen is one of its flow. -/
def Flow.InRange : Flow → Prop
  | .idle => True
  | .pubkey index => index < 3
  | .signMessage numSummarySteps index => index < numSummarySteps + 2

theorem Next.inRange {flow before : Flow} (h : Next event before flow)
    (hbefore : before.InRange) : flow.InRange := by
  cases h with
  | pubkeyRight index h => exact h
  | pubkeyLeft index => exact Nat.lt_of_succ_lt hbefore
  | signMessageRight numSummarySteps index h => exact h
  | signMessageLeft numSummarySteps index => exact Nat.lt_of_succ_lt hbefore

theorem Round.inRange (h : Round sdk device event outputs after) (hflow : device.flow.InRange) :
    after.flow.InRange := by
  cases h with
  | noApdu => exact hflow
  | apdu bytes message _ _ _ _ h =>
      rcases h.outputs_cases with ⟨-, hsame | hpubkey⟩ | hputs
      · rwa [hsame]
      · rw [hpubkey]
        exact Nat.zero_lt_succ _
      · obtain ⟨numSummarySteps, -, hreview⟩ := hputs.outputs_eq
        rw [hreview]
        exact Nat.zero_lt_succ _
  | stayed _ _ _ => exact hflow
  | moved _ flow _ _ hnext h =>
      obtain ⟨summary, -, rfl⟩ := h.eq
      exact hnext.inRange hflow
  | keyApproved _ => trivial
  | signed _ _ _ _ => trivial
  | unsigned _ _ _ _ => exact hflow
  | rejected _ => trivial
  | settings _ hidle => rwa [hidle] at hflow ⊢
  | ioReset => trivial

/-- What every state of a run without short bodies is like. -/
structure Sound (device : Device) : Prop where
  holds : ∃ message, device.command.Holds message
  stored : Stored (·.1 ≠ none) device.summary.summary
  inArrays : Stored InArrays device.summary.summary
  flow : device.flow.InRange

theorem sound_boot (settings : AppSettings) : Sound (Device.boot settings) :=
  ⟨⟨[], zero_holds⟩, .empty rfl, .empty rfl, trivial⟩

theorem Sound.round (h : Sound device) (hshort : ¬ CompletesShort event device) (sdk : Sdk) :
    ∃ outputs after, appStep sdk event device = .ok (outputs, after) ∧
      Round sdk device event outputs after ∧ Sound after := by
  obtain ⟨message, hholds⟩ := h.holds
  obtain ⟨outputs, after, hcall⟩ := h.stored.appStep_total hholds sdk event
  have hround := appStep_round sdk event hholds _ hcall
  exact ⟨outputs, after, hcall, hround, hround.holds h.holds,
    hround.stored h.stored (putsUpOnly_nonNull hshort),
    hround.stored h.inArrays (putsUpOnly_inArrays event device), hround.inRange h.flow⟩

/-- Whatever a page may read stands for bytes in the arrays of the command, and
is not behind a null pointer. -/
def Readable (device : Device) : Prop :=
  ∀ (getter : SlotGetter) (title : CString) (value : SummaryValue Block),
    .used title value ∈ getter.items device.summary.summary →
    ∀ slot ∈ value.slots, slot.1 ≠ none ∧ InArrays slot

theorem Sound.readable (h : Sound device) : Readable device := by
  intro getter title value hitem slot member
  exact ⟨h.stored.item hitem slot member, h.inArrays.item hitem slot member⟩

theorem appStep_sound (sdk : Sdk) (settings : AppSettings) (events : List Event)
    (h : Within (appStep sdk) (fun event device => ¬ CompletesShort event device) events
      (Device.boot settings)) :
    ∃ rounds final, run (recorded (appStep sdk)) events (Device.boot settings) =
        .ok (rounds, final) ∧ Sound final ∧ ∀ round ∈ rounds, Sound round.2.2 := by
  have hrun := run_total (fun (rounds : RoundLog) device =>
      Sound device ∧ ∀ round ∈ rounds, Sound round.2.2)
    (fun event device => ¬ CompletesShort event device) (fun rounds device event hinv hshort => ?_)
    events [] _ ⟨sound_boot settings, by simp⟩ h.recorded
  · obtain ⟨rounds, final, hrun, hfinal, hrounds⟩ := hrun
    exact ⟨rounds, final, hrun, hfinal, by simpa using hrounds⟩
  · obtain ⟨hsound, hrounds⟩ := hinv
    obtain ⟨outputs, after, hcall, -, hafter⟩ := hsound.round hshort sdk
    exact ⟨(outputs, after), after, recorded_eq_ok.mpr ⟨hcall, rfl⟩, hafter,
      forall_mem_snoc hrounds hafter⟩

/-- A run in which no body stops short never faults: every event of it is
answered, and in each of its states a page reads nothing but the arrays. -/
theorem never_faults (sdk : Sdk) (settings : AppSettings) (events : List Event)
    (h : Within (appStep sdk) (fun event device => ¬ CompletesShort event device) events
      (Device.boot settings)) :
    ∃ log rounds final, run (appStep sdk) events (Device.boot settings) = .ok (log, final) ∧
      run (recorded (appStep sdk)) events (Device.boot settings) = .ok (rounds, final) ∧
      ∀ round ∈ rounds, Readable round.2.2 := by
  obtain ⟨rounds, final, hrun, -, hrounds⟩ := appStep_sound sdk settings events h
  exact ⟨_, rounds, final, run_of_recorded hrun, hrun,
    fun round member => (hrounds round member).readable⟩

theorem not_completesShort_of_ne (h : ∀ bytes, event ≠ .apdu bytes) (device : Device) :
    ¬ CompletesShort event device := by
  rintro ⟨bytes, command, hevent, -⟩
  exact h bytes hevent

/-- The sample transfer is whole. -/
theorem sampleApdu_whole (settings : AppSettings) :
    ¬ CompletesShort (.apdu sampleApdu) (Device.boot settings) := by
  rintro ⟨_, command, ⟨⟩, hcall, -, -, -, hshort⟩
  have hassembled : (apduHandleMessage sampleApdu .zero).map
      (fun result => (result.2.instruction, result.2.messageBytes)) =
        .ok (.signMessage, sampleMessage) := by decide +kernel
  rw [show apduHandleMessage sampleApdu .zero = _ from hcall] at hassembled
  obtain ⟨hins, hbytes⟩ := Prod.mk.inj (Except.ok.inj hassembled)
  simp only at hins hbytes
  rw [hins, hbytes] at hshort
  have hcarries : CarriesTransfer (sampleMessage.drop hashSize) (List.replicate 32 7) []
      100000000 := ⟨rfl, [0], Continued.last (by decide), by decide⟩
  exact Format.not_whole_of_short _ hshort hcarries.whole

theorem never_faults_transfer :
    ∃ log rounds final, run (appStep constantSdk) [.apdu sampleApdu, .right, .right, .both]
        (Device.boot ⟨.disabled, .long⟩) = .ok (log, final) ∧
      run (recorded (appStep constantSdk)) [.apdu sampleApdu, .right, .right, .both]
        (Device.boot ⟨.disabled, .long⟩) = .ok (rounds, final) ∧
      ∀ round ∈ rounds, Readable round.2.2 := by
  apply never_faults
  refine ⟨sampleApdu_whole _, fun _ _ _ => ⟨?_, fun _ _ _ => ⟨?_, fun _ _ _ => ⟨?_, fun _ _ _ =>
    trivial⟩⟩⟩⟩
  · exact not_completesShort_of_ne (by simp) _
  · exact not_completesShort_of_ne (by simp) _
  · exact not_completesShort_of_ne (by simp) _

end Runs

section Rejecting

/-- How far the Reject step is from the one on the screen. -/
def Flow.toReject : Flow → Nat
  | .idle => 0
  | .pubkey index => 2 - index
  | .signMessage numSummarySteps index => numSummarySteps + 1 - index

/-- The right button brings the Reject step closer. -/
theorem Sound.right (h : Sound device) (sdk : Sdk) {count : Nat}
    (hcount : device.flow.toReject = count + 1) :
    ∃ outputs after, appStep sdk .right device = .ok (outputs, after) ∧ Sound after ∧
      ¬ Signs outputs ∧ after.flow ≠ .idle ∧ after.flow.toReject = count := by
  obtain ⟨flow, hcall, hnext, hidle, hreject⟩ : ∃ flow,
      appStep sdk .right device = goToStep flow device ∧ Next .right device.flow flow ∧
        flow ≠ .idle ∧ flow.toReject = count := by
    cases hflow : device.flow with
    | idle =>
        rw [hflow] at hcount
        cases hcount
    | pubkey index =>
        simp only [hflow, Flow.toReject] at hcount
        have hroom : index + 1 < 3 := by omega
        refine ⟨.pubkey (index + 1), ?_, .pubkeyRight index hroom, by simp, ?_⟩
        · simp only [appStep, hflow, hroom, ↓reduceIte]
        · simp only [Flow.toReject]
          omega
    | signMessage numSummarySteps index =>
        simp only [hflow, Flow.toReject] at hcount
        have hroom : index + 1 < numSummarySteps + 2 := by omega
        refine ⟨.signMessage numSummarySteps (index + 1), ?_,
          .signMessageRight numSummarySteps index hroom, by simp, ?_⟩
        · simp only [appStep, hflow, hroom, ↓reduceIte]
        · simp only [Flow.toReject]
          omega
  obtain ⟨outputs, after, hgo⟩ := h.stored.goToStep_total flow
  have harrives := goToStep_arrives flow device _ hgo
  obtain ⟨summary, hsame, rfl⟩ := harrives.eq
  have hround : Round sdk device .right outputs _ := .moved .right flow outputs _ hnext harrives
  have hkept : ∀ {P}, Stored P device.summary.summary → Stored P summary.summary :=
    fun hstored => by rwa [hsame]
  exact ⟨outputs, _, hcall.trans hgo,
    ⟨h.holds, hkept h.stored, hkept h.inArrays, hround.inRange h.flow⟩,
    harrives.quiet.not_signs, hidle, hreject⟩

/-- Both buttons reject there. -/
theorem Sound.reject (h : Sound device) (sdk : Sdk) (hidle : device.flow ≠ .idle)
    (hcount : device.flow.toReject = 0) :
    appStep sdk .both device = .ok ([.sent [0x69, 0x85]], uiIdle device) := by
  have hrange := h.flow
  cases hflow : device.flow with
  | idle => exact absurd hflow hidle
  | pubkey index =>
      simp only [hflow, Flow.toReject, Flow.InRange] at hcount hrange
      obtain rfl : index = 2 := by omega
      simp [appStep, validateStep, hflow, sendResponse]
  | signMessage numSummarySteps index =>
      simp only [hflow, Flow.toReject, Flow.InRange] at hcount hrange
      obtain rfl : index = numSummarySteps + 1 := by omega
      simp [appStep, validateStep, hflow, sendResponse]

theorem Sound.walkToReject (h : Sound device) (sdk : Sdk) {count : Nat}
    (hidle : device.flow ≠ .idle) (hcount : device.flow.toReject = count) :
    ∃ log last, run (appStep sdk) (List.replicate count .right ++ [.both]) device =
        .ok (log, last) ∧ last.flow = .idle ∧ (∀ entry ∈ log, ¬ Signs entry.2) ∧
      log.getLast?.map Prod.snd = some [.sent [0x69, 0x85]] := by
  induction count generalizing device with
  | zero =>
      have hquiet : Quiet [.sent [0x69, 0x85]] := by simp [Quiet]
      refine ⟨[(.both, [.sent [0x69, 0x85]])], uiIdle device,
        run_cons_ok (h.reject sdk hidle hcount) rfl, rfl, ?_, rfl⟩
      intro entry member
      rw [List.mem_singleton.mp member]
      exact hquiet.not_signs
  | succ count ih =>
      obtain ⟨outputs, after, hcall, hsound, hnot, hidle', hcount'⟩ := h.right sdk hcount
      obtain ⟨log, last, hrun, hlast, hsigns, hresponse⟩ := ih hsound hidle' hcount'
      refine ⟨(.right, outputs) :: log, last, run_cons_ok hcall hrun, hlast, ?_, ?_⟩
      · intro entry member
        rcases List.mem_cons.mp member with rfl | hlater
        · exact hnot
        · exact hsigns entry hlater
      · cases log with
        | nil => cases hresponse
        | cons first rest => simpa using hresponse

/-- Wherever a run without short bodies has led, a flow on the screen can be
rejected: the right button leads to its Reject step, and both buttons there end
it with the response that says so. Nothing is signed on the way. -/
theorem user_can_reject (sdk : Sdk) (settings : AppSettings) (events : List Event)
    (h : Within (appStep sdk) (fun event device => ¬ CompletesShort event device) events
      (Device.boot settings)) :
    ∃ log final, run (appStep sdk) events (Device.boot settings) = .ok (log, final) ∧
      (final.flow ≠ .idle → ∃ count rejection last,
        run (appStep sdk) (List.replicate count .right ++ [.both]) final =
          .ok (rejection, last) ∧ last.flow = .idle ∧
        (∀ entry ∈ rejection, ¬ Signs entry.2) ∧
        rejection.getLast?.map Prod.snd = some [.sent [0x69, 0x85]]) := by
  obtain ⟨rounds, final, hrun, hsound, -⟩ := appStep_sound sdk settings events h
  refine ⟨_, final, run_of_recorded hrun, fun hidle => ?_⟩
  obtain ⟨rejection, last, hreject⟩ := hsound.walkToReject sdk hidle rfl
  exact ⟨_, rejection, last, hreject⟩

theorem user_can_reject_transfer :
    ∃ log final, run (appStep constantSdk) [.apdu sampleApdu] (Device.boot ⟨.disabled, .long⟩) =
        .ok (log, final) ∧
      (final.flow ≠ .idle → ∃ count rejection last,
        run (appStep constantSdk) (List.replicate count .right ++ [.both]) final =
          .ok (rejection, last) ∧ last.flow = .idle ∧
        (∀ entry ∈ rejection, ¬ Signs entry.2) ∧
        rejection.getLast?.map Prod.snd = some [.sent [0x69, 0x85]]) := by
  apply user_can_reject
  exact ⟨sampleApdu_whole _, fun _ _ _ => trivial⟩

end Rejecting

end AelfApp
