import AelfApp.Walk
import AelfApp.Libsol.Formats

/-!
What is signed was on the display. In a run whose APDUs do not disturb a
review, the store keeps the review of the command while its flow is on the
screen, so every page that the user passes shows what is going to be signed.
-/

namespace AelfApp

open Memory Apdu Libsol Machine Review Wire Numeral

variable {sdk : Sdk} {device after : Device} {event : Event} {outputs : List Output}
  {message : List UInt8} {ops : List (TakeAndSet Block)}

section OnScreen

/-- Where a review comes from: from the body of the command, or from the hash
of its message. -/
inductive ReadFrom (sdk : Sdk) (device : Device) (message : List UInt8) :
    List (TakeAndSet Block) → Prop where
  | body (ops : List (TakeAndSet Block))
      (haccepted : (bodyFormat device.command.instruction.toByte.toNat).Whole
          (message.drop hashSize) ∨
        (bodyFormat device.command.instruction.toByte.toNat).Short (message.drop hashSize))
      (hreview : ReviewOf .bits32 (commandMem device.command) (bodyParser message)
        device.command.instruction.toByte.toNat ops) :
      ReadFrom sdk device message ops
  | blind
      (hrejected : ¬ ((bodyFormat device.command.instruction.toByte.toNat).Whole
          (message.drop hashSize) ∨
        (bodyFormat device.command.instruction.toByte.toNat).Short (message.drop hashSize)))
      (hblind : device.settings.allowBlindSign = .enabled)
      (hhash : device.command.messageHash = sdk.sha256 message) :
      ReadFrom sdk device message blindReview

/-- The store holds the review of the command. -/
structure OnScreen (sdk : Sdk) (device : Device) (message : List UInt8)
    (ops : List (TakeAndSet Block)) : Prop where
  holds : device.command.Holds message
  state : device.command.state = .payloadComplete
  header : hashSize ≤ message.length
  instruction : device.command.instruction = .signMessage ∨
    device.command.instruction = .getTxResult
  store : Holds device.summary.summary (keptItems ops)
  source : ReadFrom sdk device message ops

theorem OnScreen.presentable (h : OnScreen sdk device message ops) : Presentable ops := by
  cases h.source with
  | body ops _ hreview => exact hreview.presentable
  | blind _ _ _ => exact blindReview_presentable

theorem OnScreen.reviewable (h : OnScreen sdk device message ops) :
    Reviewable device.settings device.command.instruction.toByte.toNat message := by
  refine ⟨h.header, ?_⟩
  cases h.source with
  | body ops haccepted _ => exact .inr haccepted
  | blind _ hblind _ => exact .inl hblind

/-- The buffers hold the page of that index. -/
def ShowsPage (device : Device) (index : Nat) : Prop :=
  displayed (commandMem device.command) index device.settings.displayFlags device.summary =
    .ok (0, some device.summary.screen)

/-- The review on the screen is that of the command, and its page is shown. -/
structure Watched (sdk : Sdk) (device : Device) : Prop where
  review : ∀ numSummarySteps index, device.flow = .signMessage numSummarySteps index →
    ∃ message ops, OnScreen sdk device message ops ∧ numSummarySteps = ops.length ∧
      (index < numSummarySteps → ShowsPage device index)

theorem PutUp.onScreen {read : Device} (h : PutUp sdk device message ops read)
    (hholds : device.command.Holds message) (hstate : device.command.state = .payloadComplete)
    (hheader : hashSize ≤ message.length)
    (hins : device.command.instruction = .signMessage ∨ device.command.instruction = .getTxResult)
    {summary : SummaryGlobals Block} (hsame : summary.summary = read.summary.summary)
    (flow : Flow) : OnScreen sdk { read with summary, flow } message ops := by
  have hstore : Holds summary.summary (keptItems ops) := by
    rw [hsame]
    exact h.holds
  cases h with
  | body ops _ haccepted hreview _ =>
      exact ⟨hholds, hstate, hheader, hins, hstore, .body ops haccepted hreview⟩
  | blind _ hrejected hblind _ =>
      exact ⟨⟨hholds.buffer, hholds.length, hholds.fits⟩, hstate, hheader, hins, hstore,
        .blind hrejected hblind rfl⟩

/-- What is put up is on the screen. -/
theorem PutsUpReview.onScreen (h : PutsUpReview sdk device outputs after) :
    ∃ message ops, outputs = [.reviewed after.command.path message] ∧
      after.flow = .signMessage ops.length 0 ∧ OnScreen sdk after message ops ∧
      ShowsPage after 0 := by
  obtain ⟨command, whole, ops, read, summary, hstate, hholds, hins, hheader, hputUp, hsame,
    hscreen⟩ := h
  have hpath : read.command.path = command.path := hputUp.path
  exact ⟨whole, ops, by rw [hpath], rfl,
    hputUp.onScreen hholds hstate hheader hins hsame _, hscreen⟩

/-- What the handlers put a screen up for is not turned down. -/
theorem TurnedDown.not_putsUp {reply : ApduReply} (h : TurnedDown device message reply after)
    (hconfirm : device.command.nonConfirm = false)
    (hins : device.command.instruction = .signMessage ∨ device.command.instruction = .getTxResult)
    (hputs : PutsUp sdk device.settings device.command.instruction device.command.path message) :
    False := by
  obtain ⟨-, hheader, hreviewable⟩ | ⟨hpubkey, -⟩ := hputs.symm
  swap
  · rcases hins with hins | hins <;> rw [hins] at hpubkey <;> cases hpubkey
  cases h with
  | headerless hshort => omega
  | unattended _ hnonConfirm =>
      rw [hconfirm] at hnonConfirm
      cases hnonConfirm
  | unrecognized _ hrejected hblind =>
      rcases hreviewable with henabled | haccepted
      · rw [hblind] at henabled
        cases henabled
      · exact hrejected haccepted

/-- An APDU that does not disturb the review on the screen changes nothing,
shows a key, or puts up a review of its own. -/
theorem ApduRound.undisturbing {apdu : List UInt8}
    (h : ApduRound sdk device message apdu outputs after) (hholds : device.command.Holds message)
    (hstate : device.command.state = .payloadComplete) {numSummarySteps index : Nat}
    (hflow : device.flow = .signMessage numSummarySteps index)
    (hallowed : Undisturbing sdk (.apdu apdu) device) (hquiet : Quiet outputs) :
    after = device ∨ after.flow = .pubkey 0 := by
  rcases hallowed apdu numSummarySteps index rfl hflow with hleaves | hstarts
  · obtain ⟨reply, hrefused⟩ := hleaves.refused hholds hstate
    cases h with
    | refused ret command _ hcall _ =>
        cases hcall.symm.trans hrefused
        exact .inl rfl
    | progress command _ hcall _ =>
        have hcode := congrArg (Except.map Prod.fst) (hcall.symm.trans hrefused)
        exact absurd (Except.ok.inj hcode).symm reply.code_ne_zero
    | complete command _ _ _ _ _ hcall _ _ _ =>
        have hcode := congrArg (Except.map Prod.fst) (hcall.symm.trans hrefused)
        exact absurd (Except.ok.inj hcode).symm reply.code_ne_zero
  obtain ⟨final, content, hassembled, hcomplete, hconfirm, hfinal, hputs⟩ :=
    hstarts.assembles device.command
  cases h with
  | refused ret command hret hcall _ =>
      cases hcall.symm.trans hassembled
      exact absurd rfl hret
  | progress command hprogress hcall _ =>
      cases hcall.symm.trans hassembled
      cases hcomplete.symm.trans hprogress
  | complete command whole _ _ _ _ hcall _ hwhole hdispatch =>
      cases hcall.symm.trans hassembled
      obtain rfl : whole = content := hwhole.messageBytes.symm.trans hfinal.messageBytes
      cases hdispatch with
      | configuration hconfig => simp [PutsUp, show final.instruction = _ from hconfig] at hputs
      | keyRefused e hpubkey hrefused =>
          rcases hputs with ⟨-, publicKey, hderived⟩ | ⟨hsigns, -⟩
          · cases hrefused.symm.trans hderived
          · rcases hsigns with h | h <;> cases h.symm.trans hpubkey
      | keySent _ _ _ hnonConfirm _ _ => cases hconfirm.symm.trans hnonConfirm
      | keyShown _ _ _ _ _ _ => exact .inr rfl
      | turnedDown _ _ hsigns hdown => exact (hdown.not_putsUp hconfirm hsigns hputs).elim
      | reviewed _ _ _ _ _ _ _ _ _ =>
          exact absurd ⟨_, _, List.mem_cons_self⟩ hquiet.not_reviews
      | unimplemented hunset => simp [PutsUp, show final.instruction = _ from hunset] at hputs

/-- Moving to another step keeps the review. -/
theorem OnScreen.moved (h : OnScreen sdk device message ops) {summary : SummaryGlobals Block}
    (hsame : summary.summary = device.summary.summary) (flow : Flow) :
    OnScreen sdk { device with flow, summary } message ops where
  holds := h.holds
  state := h.state
  header := h.header
  instruction := h.instruction
  store := by
    have hstore := h.store
    rwa [← hsame] at hstore
  source := by
    cases h.source with
    | body ops haccepted hreview => exact .body ops haccepted hreview
    | blind hrejected hblind hhash => exact .blind hrejected hblind hhash

/-- A page of the review on the screen never throws. -/
theorem OnScreen.arrives (h : OnScreen sdk device message ops) {index : Nat}
    (harrives : Arrives device (.signMessage ops.length index) outputs after) :
    OnScreen sdk after message ops ∧ (index < ops.length → ShowsPage after index) := by
  cases harrives with
  | shown summary hsame hscreen => exact ⟨h.moved hsame _, fun hpage => hscreen _ _ rfl hpage⟩
  | failed summary ret _ _ hflow hindex hsame hret hscreen =>
      cases hflow
      obtain ⟨screen, hshown⟩ := (h.store.displayed_fits h.presentable _ _ _ _ hscreen).1 hindex
      cases hshown

theorem Next.signMessage {flow : Flow} (h : Next event device.flow flow)
    {numSummarySteps index : Nat} (hflow : flow = .signMessage numSummarySteps index) :
    ∃ before, device.flow = .signMessage numSummarySteps before := by
  generalize device.flow = old at h
  cases h with
  | pubkeyRight _ _ => cases hflow
  | pubkeyLeft _ => cases hflow
  | signMessageRight _ before _ =>
      cases hflow
      exact ⟨before, rfl⟩
  | signMessageLeft _ before =>
      cases hflow
      exact ⟨_, rfl⟩

end OnScreen

section Runs

/-- All that the pages of a review depend on. -/
structure Request where
  command : ApduCommand
  summary : TransactionSummary Block
  settings : AppSettings
  numSummarySteps : Nat

/-- A review is about the command on the device. -/
def commandRequests : Requests Request where
  of device numSummarySteps :=
    ⟨device.command, device.summary.summary, device.settings, numSummarySteps⟩
  pages := Request.numSummarySteps
  About request path message :=
    path = request.command.path ∧ message = request.command.messageBytes
  pages_of _ _ := rfl
  about_of _ _ := ⟨rfl, rfl⟩

/-- A round that does not disturb a review keeps it watched, and the command
with it. -/
theorem Watched.round (h : Watched sdk device) (hallowed : Undisturbing sdk event device)
    (hround : Round sdk device event outputs after) :
    Watched sdk after ∧ (¬ Reviews outputs → ∀ numSummarySteps index,
      after.flow = .signMessage numSummarySteps index →
      commandRequests.of after numSummarySteps = commandRequests.of device numSummarySteps) := by
  have hidle : ∀ other, Watched sdk (uiIdle other) := by
    intro other
    constructor
    rintro _ _ ⟨⟩
  cases hround with
  | noApdu => exact ⟨h, fun _ _ _ _ => rfl⟩
  | apdu bytes message _ _ _ hholds hround =>
      rcases hround.outputs_cases with ⟨hquiet, hflow⟩ | hputs
      · -- The APDU may only have left the device as it was.
        have hsame : ∀ numSummarySteps index, after.flow = .signMessage numSummarySteps index →
            after = device := by
          intro numSummarySteps index hafter
          rcases hflow with hkept | hpubkey
          · have hbefore := hkept.symm.trans hafter
            obtain ⟨_, _, hon, -⟩ := h.review _ _ hbefore
            rcases hround.undisturbing hholds hon.state hbefore hallowed hquiet with
              hdevice | hpubkey
            · exact hdevice
            · cases hafter.symm.trans hpubkey
          · cases hafter.symm.trans hpubkey
        refine ⟨⟨fun numSummarySteps index hafter => ?_⟩, fun _ numSummarySteps index hafter => ?_⟩
        · obtain rfl := hsame _ _ hafter
          exact h.review _ _ hafter
        · rw [hsame _ _ hafter]
      · obtain ⟨message, ops, rfl, hflow, hon, hpage⟩ := hputs.onScreen
        refine ⟨⟨fun numSummarySteps index hafter => ?_⟩, fun hnot => ?_⟩
        · cases hflow.symm.trans hafter
          exact ⟨message, ops, hon, rfl, fun _ => hpage⟩
        · exact absurd ⟨_, message, List.mem_cons_self⟩ hnot
  | stayed _ _ _ => exact ⟨h, fun _ _ _ _ => rfl⟩
  | moved _ flow _ _ hnext harrives =>
      obtain ⟨summary, hsummary, hafter⟩ := harrives.eq
      constructor
      · constructor
        intro numSummarySteps index hflow
        have hto : flow = .signMessage numSummarySteps index := by
          rwa [hafter] at hflow
        obtain ⟨before, hbefore⟩ := hnext.signMessage hto
        obtain ⟨message, ops, hon, rfl, -⟩ := h.review _ _ hbefore
        subst hto
        obtain ⟨hon', hpage⟩ := hon.arrives harrives
        exact ⟨message, ops, hon', rfl, hpage⟩
      · intro _ numSummarySteps index _
        rw [hafter]
        simp only [commandRequests, hsummary]
  | keyApproved _ => exact ⟨hidle device, by rintro _ _ _ ⟨⟩⟩
  | signed _ _ _ _ => exact ⟨hidle device, by rintro _ _ _ ⟨⟩⟩
  | unsigned _ _ _ _ => exact ⟨h, fun _ _ _ _ => rfl⟩
  | rejected _ => exact ⟨hidle device, by rintro _ _ _ ⟨⟩⟩
  | settings settings hflow =>
      have hnone : ∀ numSummarySteps index,
          device.flow ≠ .signMessage numSummarySteps index := by
        simp [hflow]
      exact ⟨⟨fun _ _ hafter => absurd hafter (hnone _ _)⟩,
        fun _ _ _ hafter => absurd hafter (hnone _ _)⟩
  | ioReset => exact ⟨hidle _, by rintro _ _ _ ⟨⟩⟩

/-- A run that does not disturb its reviews follows the rules of a review of
the command, and shows its pages. -/
theorem appStep_watched (sdk : Sdk) (settings : AppSettings) (events : List Event)
    (h : Within (appStep sdk) (Undisturbing sdk) events (Device.boot settings)) :
    Ensures (run (recorded (appStep sdk)) events (Device.boot settings)) fun result =>
      Obeys (reviewView commandRequests) result.1 (reviewPhase commandRequests result.2) ∧
        (∀ round ∈ result.1, Watched sdk round.2.2 ∧ Recognized commandRequests round) ∧
        Watched sdk result.2 := by
  apply rounds_ensures sdk settings
    (fun log device => Obeys (reviewView commandRequests) log
      (reviewPhase commandRequests device) ∧
      (∀ round ∈ log, Watched sdk round.2.2 ∧ Recognized commandRequests round) ∧
      Watched sdk device) (Undisturbing sdk)
  · refine ⟨.nil, by simp, ⟨?_⟩⟩
    rintro _ _ ⟨⟩
  · rintro log device event outputs after ⟨hobeys, hlog, hwatched⟩ hallowed hround
    obtain ⟨hafter, hkept⟩ := hwatched.round hallowed hround
    exact ⟨hobeys.snoc (event, outputs, after) (hround.turn hkept),
      forall_mem_snoc hlog ⟨hafter, hround.recognized⟩, hafter⟩
  · exact h

/-- The screens that a message has to be reviewed with. -/
inductive Presents (sdk : Sdk) (settings : AppSettings) (message : List UInt8) :
    InstructionCode → List Screen → Prop where
  | transfer (toKey ticker : List UInt8) (amount : UInt64)
      (h : CarriesTransfer (message.drop hashSize) toKey ticker amount) :
      Presents sdk settings message .signMessage
        (transferScreens settings.displayFlags toKey (decimalText 8 amount.toNat))
  | getTxResult (fromKey chain : List UInt8) (refBlockNumber : UInt64) (methodName : CString)
      (toKey ticker : List UInt8) (amount : UInt64)
      (h : CarriesGetTxResult (message.drop hashSize) fromKey chain refBlockNumber
        methodName.chars toKey ticker amount)
      (hblock : refBlockNumber.toNat < 2 ^ 63)
      (hname : methodName.chars.length < textBufferLength) :
      Presents sdk settings message .getTxResult
        (getTxResultScreens settings.displayFlags fromKey chain refBlockNumber methodName.chars
          toKey (decimalText 8 amount.toNat))
  | blind (instruction : InstructionCode)
      (hrejected : ¬ ((bodyFormat instruction.toByte.toNat).Whole (message.drop hashSize) ∨
        (bodyFormat instruction.toByte.toNat).Short (message.drop hashSize))) :
      Presents sdk settings message instruction (blindScreens (sdk.sha256 message).toList)

/-- The review on the screen consists of the screens of its message. -/
theorem OnScreen.shows (h : OnScreen sdk device message ops) {screens : List Screen}
    (hpresents : Presents sdk device.settings message device.command.instruction screens) :
    Shows (commandMem device.command) device.settings.displayFlags device.summary.summary
      screens := by
  have hrest : (bodyParser message).rest (commandMem device.command) = message.drop hashSize :=
    bytes_of_holds h.holds h.header
  have hsize : (bodyParser message).bufferLength ≤ SizeT.bits32.max :=
    (Nat.sub_le _ _).trans (h.holds.fits.trans (by decide))
  have hstore := h.store
  have hsource := h.source
  generalize hins : device.command.instruction = instruction at hpresents
  cases hpresents with
  | transfer toKey ticker amount hcarries =>
      cases hsource with
      | blind hrejected _ _ =>
          rw [hins] at hrejected
          exact absurd (.inl hcarries.whole) hrejected
      | body ops _ hreview =>
          rw [hins] at hreview
          obtain ⟨_, _, key, hparse, hkey, -⟩ := parseSystemTransferInstruction_carries hcarries
            (bodyParser message) hrest ⟨0, none⟩ .zero
          cases hreview with
          | transfer ret parser' instruction info hcall _ =>
              cases hcall.symm.trans hparse
              exact transfer_shows hkey hstore _
  | getTxResult fromKey chain refBlockNumber methodName toKey ticker amount hcarries hblock hname =>
      cases hsource with
      | blind hrejected _ _ =>
          rw [hins] at hrejected
          exact absurd (.inl hcarries.whole) hrejected
      | body ops _ hreview =>
          rw [hins] at hreview
          obtain ⟨_, _, fromPtr, chainPtr, name, key, hparse, hfrom, hchain, hlength, hload, hkey,
              -⟩ :=
            parseSystemGetTxResultInstruction_carries hcarries (bodyParser message) hrest hsize
              ⟨0, none⟩ .zero
          cases hreview with
          | getTxResult ret parser' instruction info hcall _ =>
              cases hcall.symm.trans hparse
              exact getTxResult_shows hfrom hchain hkey hblock hlength hload hname hstore _
  | blind _ hrejected =>
      cases hsource with
      | body ops haccepted _ =>
          rw [hins] at haccepted
          exact absurd haccepted hrejected
      | blind _ _ hhash =>
          have hshows := blindReview_shows device.command hstore device.settings.displayFlags
          rwa [hhash] at hshows

/-- Since the opening of a review, each of its steps up to one was reached, and
the buffers held the page of that step. -/
theorem pages_shown {log walked : RoundLog} {request : Request} {step : Nat}
    {opening : Event × List Output × Device}
    (hwalked : Walked (reviewView commandRequests) log request step opening walked)
    (hwatched : ∀ round ∈ log, Watched sdk round.2.2) {index : Nat} (hstep : index ≤ step) :
    ∃ round ∈ opening :: walked, round.2.2.flow = .signMessage request.numSummarySteps index ∧
      (index < request.numSummarySteps → displayed (commandMem opening.2.2.command) index
        opening.2.2.settings.displayFlags opening.2.2.summary =
          .ok (0, some round.2.2.summary.screen)) := by
  obtain ⟨earlier, rfl⟩ := hwalked.log_eq
  obtain ⟨round, member, hphase⟩ := hwalked.visited index hstep
  obtain ⟨numSummarySteps, hflow, rfl⟩ := reviewPhase_eq_reading hphase
  obtain ⟨_, _, hopened⟩ := reviewPhase_eq_reading hwalked.opening_phase
  simp only [commandRequests, Request.mk.injEq] at hopened
  obtain ⟨hcommand, hsummary, hsettings, -⟩ := hopened
  obtain ⟨_, _, _, rfl, hpage⟩ :=
    (hwatched round (List.mem_append_right _ member)).review _ _ hflow
  refine ⟨round, member, hflow, fun hindex => ?_⟩
  -- The round shows its own store, which is that of the opening.
  rw [hcommand, hsettings, displayed_congr _ _ _ hsummary]
  exact hpage hindex

/-- Everything signed in the log was reviewed as what it is: its review was the
last one put up, and since then each of its pages was in the display buffers, at
its step of the flow. The pages are those of the message wherever its format
tells what they have to be. -/
def SignedWasShown (sdk : Sdk) (log : RoundLog) : Prop :=
  ∀ before event outputs after rest path message,
    log = before ++ (event, outputs, after) :: rest → .signed path message ∈ outputs →
    ∃ earlier opening walked ops, before = earlier ++ opening :: walked ∧
      .reviewed path message ∈ opening.2.1 ∧
      (∀ round ∈ walked, ¬ Reviews round.2.1 ∧ ¬ Signs round.2.1) ∧
      OnScreen sdk opening.2.2 message ops ∧
      Reviewable opening.2.2.settings opening.2.2.command.instruction.toByte.toNat message ∧
      (∀ index ≤ ops.length, ∃ round ∈ opening :: walked,
        round.2.2.flow = .signMessage ops.length index ∧
          (index < ops.length → displayed (commandMem opening.2.2.command) index
            opening.2.2.settings.displayFlags opening.2.2.summary =
              .ok (0, some round.2.2.summary.screen))) ∧
      ∀ screens, Presents sdk opening.2.2.settings message opening.2.2.command.instruction
          screens → ∀ (index : Nat) (hindex : index < screens.length),
        ∃ round ∈ opening :: walked, round.2.2.flow = .signMessage screens.length index ∧
          round.2.2.summary.screen = screens[index]

/-- In a run that does not disturb its reviews, whatever is signed was on the
display before, page by page. -/
theorem signed_was_shown (sdk : Sdk) (settings : AppSettings) (events : List Event)
    (h : Within (appStep sdk) (Undisturbing sdk) events (Device.boot settings)) :
    Ensures (run (recorded (appStep sdk)) events (Device.boot settings)) fun result =>
      SignedWasShown sdk result.1 := by
  intro result hresult before event outputs after rest path message hlog hsigned
  obtain ⟨hobeys, hwatched, -⟩ := appStep_watched sdk settings events h result hresult
  have hmember : (event, outputs, after) ∈ result.1 := by simp [hlog]
  obtain ⟨request, hgrants⟩ := (hwatched _ hmember).2.2 ⟨path, message, hsigned⟩
  obtain ⟨request, opening, walked, ⟨path', message', ⟨rfl, rfl⟩, hsigned'⟩, hwalked⟩ :=
    hobeys.granted hlog hgrants
  -- The round signs one message, which is that of the request.
  obtain ⟨rfl, rfl⟩ : path = request.command.path ∧ message = request.command.messageBytes := by
    obtain ⟨-, p, m, _, -, houtputs⟩ :=
      appStep_signs sdk settings events result hresult _ hmember ⟨path, message, hsigned⟩
    rw [show outputs = _ from houtputs] at hsigned hsigned'
    simp only [List.mem_cons, Output.signed.injEq, reduceCtorEq, List.not_mem_nil, or_false]
      at hsigned hsigned'
    exact ⟨hsigned.1.trans hsigned'.1.symm, hsigned.2.trans hsigned'.2.symm⟩
  have hbefore : ∀ round ∈ before, Watched sdk round.2.2 ∧ Recognized commandRequests round :=
    fun round member => hwatched round (by simp [hlog, member])
  have hpages : ∀ round ∈ before, Watched sdk round.2.2 :=
    fun round member => (hbefore round member).1
  obtain ⟨earlier, hearlier⟩ := hwalked.log_eq
  obtain ⟨numSummarySteps, hflow, rfl⟩ := reviewPhase_eq_reading hwalked.opening_phase
  obtain ⟨message, ops, hon, rfl, -⟩ :=
    (hpages opening (by simp [hearlier])).review _ _ hflow
  have hbytes : opening.2.2.command.messageBytes = message := hon.holds.messageBytes
  have hshown : ∀ index ≤ ops.length, _ := fun index hindex => pages_shown hwalked hpages hindex
  have hopened : OnScreen sdk opening.2.2 message ops := hon
  rw [← hbytes] at hopened
  refine ⟨earlier, opening, walked, ops, hearlier, ?_, ?_, hopened, hopened.reviewable, hshown, ?_⟩
  · obtain ⟨p, m, ⟨rfl, rfl⟩, hreviewed⟩ := hwalked.opens
    exact hreviewed
  · intro round member
    have hquiet := hwalked.quiet round member
    have hround : round ∈ before := by simp [hearlier, member]
    constructor
    · intro hreviews
      obtain ⟨other, hother⟩ := (hbefore round hround).2.1 hreviews
      exact (hquiet other).1 hother
    · intro hsigns
      obtain ⟨other, hother⟩ := (hbefore round hround).2.2 hsigns
      exact (hquiet other).2 hother
  · intro screens hpresents index hindex
    simp only [commandRequests, hbytes] at hpresents
    obtain ⟨hlength, hscreens⟩ := hon.shows hpresents
    rw [(hon.store.finalize_presentable hon.presentable).2] at hlength
    obtain ⟨round, member, hflow, hpage⟩ := hshown index (by omega)
    refine ⟨round, member, by rw [hflow, ← hlength]; rfl, ?_⟩
    have hscreen := hpage (by simpa only [commandRequests, hlength] using hindex)
    rw [hscreens index opening.2.2.summary rfl, List.getElem?_eq_getElem hindex] at hscreen
    simpa using hscreen.symm

/-- Only an APDU disturbs a review. -/
theorem undisturbing_of_ne {event : Event} (h : ∀ bytes, event ≠ .apdu bytes) (device : Device) :
    Undisturbing sdk event device :=
  fun bytes _ _ hevent _ => absurd hevent (h bytes)

/-- The user reviews a transfer and approves it. -/
theorem signed_was_shown_transfer :
    Ensures (run (recorded (appStep constantSdk)) [.apdu sampleApdu, .right, .right, .both]
      (Device.boot ⟨.disabled, .long⟩)) fun result => SignedWasShown constantSdk result.1 := by
  apply signed_was_shown
  refine ⟨?_, fun _ _ _ => ⟨?_, fun _ _ _ => ⟨?_, fun _ _ _ => ⟨?_, fun _ _ _ => trivial⟩⟩⟩⟩
  · rintro _ _ _ _ ⟨⟩
  · exact undisturbing_of_ne (by simp) _
  · exact undisturbing_of_ne (by simp) _
  · exact undisturbing_of_ne (by simp) _

end Runs

end AelfApp
