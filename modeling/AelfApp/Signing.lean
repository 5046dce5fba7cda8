import AelfApp.Apdu.Upload
import AelfApp.Watched

/-!
What the user approves is signed. From every state that a run reaches, a
request that has its screens comes up, shows them one after the other, and is
answered with the signature, if the system signs under its path. If it does
not, the host is told so, and the review stays at Approve.
-/

namespace AelfApp

open Memory Apdu Libsol Machine Wire Numeral

variable {sdk : Sdk} {device after : Device} {message : List UInt8} {screens : List Screen}
  {index : Nat}

section Walking

/-- The review of a message is on the screen, at one of its steps. -/
structure StandsAt (sdk : Sdk) (device : Device) (message : List UInt8) (screens : List Screen)
    (index : Nat) : Prop where
  onScreen : ∃ ops, OnScreen sdk device message ops
  presents : Presents sdk device.settings message device.command.instruction screens
  flow : device.flow = .signMessage screens.length index
  page : ∀ h : index < screens.length, device.summary.screen = screens[index]

/-- The next page is the one behind it. -/
theorem StandsAt.right (h : StandsAt sdk device message screens index)
    (hroom : index < screens.length) :
    ∃ after, appStep sdk .right device = .ok ([], after) ∧
      StandsAt sdk after message screens (index + 1) ∧ after.command = device.command := by
  obtain ⟨ops, hon⟩ := h.onScreen
  have hright : appStep sdk .right device =
      goToStep (.signMessage screens.length (index + 1)) device := by
    simp only [appStep, h.flow]
    rw [if_pos (by omega)]
  by_cases hlast : index + 1 < screens.length
  · have hshows := (hon.shows h.presents).2 (index + 1) device.summary rfl
    rw [List.getElem?_eq_getElem hlast] at hshows
    obtain ⟨summary, hsame, hscreen, hinit⟩ := initStep_screen
      (show ({ device with flow := .signMessage screens.length (index + 1) } : Device).flow =
        .signMessage screens.length (index + 1) from rfl) hlast hshows
    refine ⟨{ device with flow := .signMessage screens.length (index + 1), summary }, ?_,
      ⟨⟨ops, hon.moved hsame _⟩, h.presents, rfl, fun _ => hscreen⟩, rfl⟩
    simp only [hright, goToStep, hinit, ok_bind, pure_eq_ok]
  · refine ⟨{ device with flow := .signMessage screens.length (index + 1) }, ?_,
      ⟨⟨ops, hon.moved rfl _⟩, h.presents, rfl, fun hpage => absurd hpage hlast⟩, rfl⟩
    simp only [hright, goToStep, initStep, hlast, ↓reduceIte, ok_bind, pure_eq_ok]

/-- After the round at that position, the flow was at the step, with its page in
the buffers. -/
def PageAt (log : RoundLog) (position : Nat) (screens : List Screen) (index : Nat) : Prop :=
  ∃ round, log[position]? = some round ∧ round.2.2.flow = .signMessage screens.length index ∧
    ∀ h : index < screens.length, round.2.2.summary.screen = screens[index]

/-- The right button leads to the Approve step, page by page. -/
theorem StandsAt.walk (h : StandsAt sdk device message screens index) {steps : Nat}
    (hsteps : index + steps = screens.length) :
    ∃ log last, run (recorded (appStep sdk)) (List.replicate steps .right) device =
        .ok (log, last) ∧
      StandsAt sdk last message screens screens.length ∧ last.command = device.command ∧
      log.flatMap (·.2.1) = [] ∧
      ∀ position < steps, PageAt log position screens (index + 1 + position) := by
  induction steps generalizing device index with
  | zero =>
      obtain rfl : index = screens.length := by simpa using hsteps
      exact ⟨[], device, rfl, h, rfl, rfl, by simp⟩
  | succ steps ih =>
      obtain ⟨after, hcall, hafter, hcommand⟩ := h.right (by omega)
      obtain ⟨log, last, hrun, hlast, hkept, hquiet, hpages⟩ := ih hafter (by omega)
      refine ⟨(.right, [], after) :: log, last,
        run_cons_ok (recorded_eq_ok.mpr ⟨hcall, rfl⟩) hrun, hlast, hkept.trans hcommand, hquiet, ?_⟩
      intro position hposition
      cases position with
      | zero => exact ⟨_, rfl, hafter.flow, hafter.page⟩
      | succ position =>
          have hpage := hpages position (by omega)
          rwa [Nat.add_assoc (index + 1), Nat.add_comm 1] at hpage

/-- What both buttons at Approve do, with the flow after it. -/
inductive Approved (sdk : Sdk) (path : List UInt32) (message : List UInt8)
    (numSummarySteps : Nat) : List Output → Flow → Prop where
  | signed (signature : Buffer UInt8 signatureLength)
      (hsign : sdk.eddsaSign path message = .ok signature) :
      Approved sdk path message numSummarySteps
        [.signed path message, .sent (signature.toList ++ [0x90, 0x00])] .idle
  | refused (e : SdkException) (hsign : sdk.eddsaSign path message = .error e) :
      Approved sdk path message numSummarySteps (respond (.thrown e.code []))
        (.signMessage numSummarySteps numSummarySteps)

theorem StandsAt.approve (h : StandsAt sdk device message screens screens.length) :
    ∃ outputs after, appStep sdk .both device = .ok (outputs, after) ∧
      Approved sdk device.command.path device.command.messageBytes screens.length outputs
        after.flow := by
  have hboth : appStep sdk .both device = .ok (sendResultSignMessage sdk device) := by
    simp only [appStep, validateStep, h.flow, ↓reduceIte]
  rw [hboth]
  refine ⟨_, _, rfl, ?_⟩
  split
  · rename_i e hsign
    rw [h.flow]
    exact .refused e hsign
  · rename_i signature hsign
    exact .signed signature hsign

end Walking

section Requesting

/-- An APDU that completes a command is dispatched, from a device with any. -/
theorem appStep_complete {apdu : List UInt8} {command : ApduCommand} {content : List UInt8}
    (sdk : Sdk) (hholds : device.command.Holds content)
    (hcall : apduHandleMessage apdu device.command = .ok (0, command))
    (hstate : command.state = .payloadComplete) :
    ∃ whole ending shown after,
      appStep sdk (.apdu apdu) device = .ok (shown ++ respond ending, after) ∧
        command.Holds whole ∧ Dispatch sdk { device with command } whole ending shown after := by
  have hne : apdu ≠ [] := by
    rintro rfl
    have hempty : apduHandleMessage [] device.command =
        .ok (ApduReply.aelfInvalidMessageSize.code, device.command) := rfl
    exact ApduReply.code_ne_zero .aelfInvalidMessageSize
      (congrArg Prod.fst (Except.ok.inj (hempty.symm.trans hcall)))
  obtain ⟨outputs, after, hstep, hround⟩ := appStep_apdu sdk apdu hholds
  cases hround with
  | noApdu => exact absurd rfl hne
  | stayed _ hapdu _ => exact absurd rfl (hapdu apdu)
  | moved _ _ _ _ hnext _ => cases hnext
  | apdu _ _ _ _ _ _ hround =>
      cases hround with
      | refused ret _ hret hcall' _ =>
          cases hcall'.symm.trans hcall
          exact absurd rfl hret
      | progress _ hprogress hcall' _ =>
          cases hcall'.symm.trans hcall
          cases hprogress.symm.trans hstate
      | complete _ whole ending shown _ _ hcall' _ hwhole hdispatch =>
          cases hcall'.symm.trans hcall
          exact ⟨whole, ending, shown, after, hstep, hwhole, hdispatch⟩

/-- An APDU that completes a request which asks for confirmation and is put up
with these screens. -/
structure RequestsReview (sdk : Sdk) (device : Device) (apdu : List UInt8) (command : ApduCommand)
    (message : List UInt8) (screens : List Screen) : Prop where
  handled : apduHandleMessage apdu device.command = .ok (0, command)
  complete : command.state = .payloadComplete
  confirm : command.nonConfirm = false
  instruction : command.instruction = .signMessage ∨ command.instruction = .getTxResult
  holds : command.Holds message
  reviewable : Reviewable device.settings command.instruction.toByte.toNat message
  presents : Presents sdk device.settings message command.instruction screens

/-- The request comes up with its first page. -/
theorem RequestsReview.putUp {apdu : List UInt8} {command : ApduCommand} {content : List UInt8}
    (h : RequestsReview sdk device apdu command message screens)
    (hholds : device.command.Holds content) :
    ∃ after, appStep sdk (.apdu apdu) device = .ok ([.reviewed command.path message], after) ∧
      StandsAt sdk after message screens 0 ∧ after.command.path = command.path ∧
      after.command.messageBytes = message := by
  obtain ⟨whole, ending, shown, after, hcall, hwhole, hdispatch⟩ :=
    appStep_complete sdk hholds h.handled h.complete
  obtain rfl : whole = message := hwhole.messageBytes.symm.trans h.holds.messageBytes
  obtain ⟨⟨messageHash, hcommand⟩, hsettings⟩ := hdispatch.same
  have hins := h.instruction
  have hnot : ∀ other, command.instruction = other → other ≠ .signMessage →
      other ≠ .getTxResult → False := by
    rintro other rfl hsign htx
    exact hins.elim hsign htx
  refine ⟨after, ?_⟩
  cases hdispatch with
  | configuration hother => exact (hnot _ hother (by simp) (by simp)).elim
  | keyRefused _ hother _ => exact (hnot _ hother (by simp) (by simp)).elim
  | keySent _ _ hother _ _ _ => exact (hnot _ hother (by simp) (by simp)).elim
  | keyShown _ _ hother _ _ _ => exact (hnot _ hother (by simp) (by simp)).elim
  | unimplemented hother => exact (hnot _ hother (by simp) (by simp)).elim
  | turnedDown _ _ _ hdown =>
      have hputs : PutsUp sdk device.settings command.instruction command.path whole :=
        .inr ⟨hins, h.reviewable⟩
      exact (hdown.not_putsUp h.confirm hins hputs).elim
  | reviewed ops read summary _ hheader _ hputUp hsame hscreen =>
      have hon : OnScreen sdk { read with summary, flow := .signMessage ops.length 0 } whole ops :=
        hputUp.onScreen h.holds h.complete hheader hins hsame _
      have hpresents : Presents sdk read.settings whole read.command.instruction screens := by
        have hins' : read.command.instruction = command.instruction := by
          rw [show read.command = _ from hcommand]
        rw [show read.settings = device.settings from hsettings, hins']
        exact h.presents
      obtain ⟨hlength, hshows⟩ := hon.shows hpresents
      rw [(hon.store.finalize_presentable hon.presentable).2] at hlength
      refine ⟨?_, ⟨⟨ops, hon⟩, hpresents, by rw [hlength], fun hpage => ?_⟩,
        hputUp.path, hputUp.messageBytes h.holds⟩
      · rw [hcall]
        simp [respond]
      · have hfirst := hshows 0 summary rfl
        rw [List.getElem?_eq_getElem hpage, hscreen] at hfirst
        simpa using hfirst

/-- The rounds that do more than turn a page. -/
def moves (log : RoundLog) : RoundLog := log.filter (·.1 ≠ .pageTurn)

/-- What the user who reads a request and approves it does: the right button
leads on from each screen, and pages of long texts are turned at any time. -/
def Approving (apdu : List UInt8) (screens : List Screen) (events : List Event) : Prop :=
  events.filter (· ≠ .pageTurn) =
    .apdu apdu :: List.replicate screens.length .right ++ [.both]

theorem appStep_pageTurn (event : Event) (device : Device)
    (h : decide (event ≠ .pageTurn) = false) : appStep sdk event device = .ok ([], device) := by
  obtain rfl : event = .pageTurn := by simpa using h
  rfl

/-- The run of an approved request, from a device with any command. -/
theorem RequestsReview.approved {apdu : List UInt8} {command : ApduCommand}
    {content : List UInt8} (h : RequestsReview sdk device apdu command message screens)
    (hholds : device.command.Holds content) {events : List Event}
    (hevents : Approving apdu screens events) :
    ∃ log last outputs, run (recorded (appStep sdk)) events device = .ok (log, last) ∧
      log.flatMap (·.2.1) = .reviewed command.path message :: outputs ∧
      Approved sdk command.path message screens.length outputs last.flow ∧
      ∀ index ≤ screens.length, PageAt (moves log) index screens index := by
  obtain ⟨opened, hputUp, hstands, hpath, hbytes⟩ := h.putUp hholds
  obtain ⟨log, last, hwalk, hlast, hcommand, hquiet, hpages⟩ := hstands.walk (Nat.zero_add _)
  obtain ⟨outputs, after, hboth, happroved⟩ := hlast.approve
  rw [hcommand, hpath, hbytes] at happroved
  have hend : run (recorded (appStep sdk)) [.both] last = .ok ([(.both, outputs, after)], after) :=
    run_cons_ok (recorded_eq_ok.mpr ⟨hboth, rfl⟩) rfl
  have hfinal := run_append hwalk hend
  have hrun := run_cons_ok (recorded_eq_ok.mpr ⟨hputUp, rfl⟩) hfinal
  rw [← List.cons_append, ← hevents] at hrun
  obtain ⟨whole, hwhole, hmoves, houtputs⟩ := run_stutter appStep_pageTurn hrun
  refine ⟨whole, after, outputs, hwhole, ?_, happroved, ?_⟩
  · rw [houtputs]
    simp [hquiet]
  · intro index hindex
    rw [moves, hmoves]
    cases index with
    | zero => exact ⟨_, rfl, hstands.flow, hstands.page⟩
    | succ index =>
        obtain ⟨round, hround, hflow, hpage⟩ := hpages index hindex
        rw [Nat.zero_add, Nat.add_comm 1] at hflow
        refine ⟨round, ?_, hflow, fun hlt => ?_⟩
        · rw [List.getElem?_cons_succ, List.getElem?_append_left, hround]
          exact (List.getElem?_eq_some_iff.mp hround).1
        · simpa only [Nat.zero_add, Nat.add_comm 1] using hpage (by omega)

/-- From every state that a run reaches, a request that is put up with its
screens and approved shows each of them in turn, and ends with the signature of
its message, or with the exception of signing: nothing else is sent, and nothing
faults. -/
theorem approved_request_is_signed (sdk : Sdk) (settings : AppSettings) (events : List Event) :
    Ensures (run (recorded (appStep sdk)) events (Device.boot settings)) fun result =>
      ∀ apdu command message screens approving,
        RequestsReview sdk result.2 apdu command message screens →
        Approving apdu screens approving →
        ∃ log last outputs, run (recorded (appStep sdk)) approving result.2 = .ok (log, last) ∧
          log.flatMap (·.2.1) = .reviewed command.path message :: outputs ∧
          Approved sdk command.path message screens.length outputs last.flow ∧
          ∀ index ≤ screens.length, PageAt (moves log) index screens index := by
  intro result hresult apdu command message screens approving h happroving
  obtain ⟨content, hholds⟩ := rounds_hold sdk settings events result hresult
  exact h.approved hholds happroving

theorem sampleApdu_data_length : (sampleApdu.drop 5).length ≤ 255 := by
  decide

/-- The sample transfer, as a chunk. -/
def sampleChunk : Chunk :=
  uploadChunk 1 false true (sampleApdu.drop 5) sampleApdu_data_length

theorem sampleApdu_requestsReview (sdk : Sdk) (settings : AppSettings) :
    RequestsReview sdk (Device.boot settings) sampleApdu
      (assembled sampleChunk 1 [0x8000002C] sampleMessage .payloadComplete) sampleMessage
      (transferScreens settings.displayFlags (List.replicate 32 7) (decimalText 8 100000000)) := by
  have hcarries : CarriesTransfer (sampleMessage.drop hashSize) (List.replicate 32 7) []
      100000000 := ⟨rfl, [0], Continued.last (by decide), by decide⟩
  exact
    { handled := apduHandleMessage_started sampleChunk .zero (by decide) (by decide) (by decide)
      complete := rfl
      confirm := rfl
      instruction := .inl rfl
      holds := assembled_holds (by decide)
      reviewable := ⟨by decide, .inr (.inl hcarries.whole)⟩
      presents := .transfer (List.replicate 32 7) [] 100000000 hcarries }

/-- The user turns pages while approving the sample transfer. -/
theorem approved_request_is_signed_transfer :
    ∃ log last outputs, run (recorded (appStep constantSdk))
        [.apdu sampleApdu, .pageTurn, .right, .pageTurn, .right, .both]
        (Device.boot ⟨.disabled, .long⟩) = .ok (log, last) ∧
      log.flatMap (·.2.1) = .reviewed (assembled sampleChunk 1 [0x8000002C] sampleMessage
        .payloadComplete).path sampleMessage :: outputs ∧
      Approved constantSdk (assembled sampleChunk 1 [0x8000002C] sampleMessage
        .payloadComplete).path sampleMessage 2 outputs last.flow ∧
      ∀ index ≤ 2, PageAt (moves log) index (transferScreens displayFlagLongPubkeys
        (List.replicate 32 7) (decimalText 8 100000000)) index :=
  approved_request_is_signed constantSdk ⟨.disabled, .long⟩ [] ([], Device.boot ⟨.disabled, .long⟩)
    rfl _ _ _ _ _ (sampleApdu_requestsReview constantSdk ⟨.disabled, .long⟩) rfl

end Requesting

end AelfApp
