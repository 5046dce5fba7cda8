import AelfApp.Rounds
import AelfApp.Lib.Review

/-!
Whatever the host sends and whatever the user presses, the flow of a message
keeps the rules of a review: it is put up at its first step, moves from a step
to its neighbours, and signs behind its last page and nowhere else. So every
signature has its own review, and the user has been through all of it.
-/

namespace AelfApp

open Memory Apdu Libsol Machine Review

variable {sdk : Sdk} {device after : Device} {event : Event} {outputs : List Output}

/-- The device puts up a review. -/
def Reviews (outputs : List Output) : Prop := ∃ path message, Output.reviewed path message ∈ outputs

/-- The device signs something. -/
def Signs (outputs : List Output) : Prop := ∃ path message, Output.signed path message ∈ outputs

section Quiet

/-- Nothing but responses. -/
def Quiet (outputs : List Output) : Prop := ∀ output ∈ outputs, ∃ response, output = .sent response

theorem quiet_respond (ending : Ending) : Quiet (respond ending) := by
  cases ending with
  | asynch => simp [Quiet, respond]
  | thrown e data => simp [Quiet, respond]

theorem Quiet.not_reviews (h : Quiet outputs) : ¬ Reviews outputs := by
  rintro ⟨path, message, member⟩
  obtain ⟨response, hresponse⟩ := h _ member
  cases hresponse

theorem Quiet.not_signs (h : Quiet outputs) : ¬ Signs outputs := by
  rintro ⟨path, message, member⟩
  obtain ⟨response, hresponse⟩ := h _ member
  cases hresponse

theorem Arrives.quiet {flow : Flow} (h : Arrives device flow outputs after) : Quiet outputs := by
  cases h with
  | shown _ _ _ => simp [Quiet]
  | failed _ _ _ _ _ _ _ _ _ => exact quiet_respond _

/-- A round that puts up a review, with the command that it is for. -/
inductive PutsUpReview (sdk : Sdk) (device : Device) : List Output → Device → Prop where
  | intro (command : ApduCommand) (whole : List UInt8) (ops : List (TakeAndSet Block))
      (read : Device) (summary : SummaryGlobals Block) (hstate : command.state = .payloadComplete)
      (hholds : command.Holds whole)
      (hins : command.instruction = .signMessage ∨ command.instruction = .getTxResult)
      (hheader : hashSize ≤ whole.length)
      (hputUp : PutUp sdk { device with command } whole ops read)
      (hsame : summary.summary = read.summary.summary)
      (hscreen : displayed (commandMem read.command) 0 read.settings.displayFlags summary =
        .ok (0, some summary.screen)) :
      PutsUpReview sdk device [.reviewed command.path whole]
        { read with summary, flow := .signMessage ops.length 0 }

/-- An APDU is answered and leaves the flow or shows a key, or it puts up a
review. -/
theorem ApduRound.outputs_cases {apdu message : List UInt8}
    (h : ApduRound sdk device message apdu outputs after) :
    (Quiet outputs ∧ (after.flow = device.flow ∨ after.flow = .pubkey 0)) ∨
      PutsUpReview sdk device outputs after := by
  have hresponds : ∀ ending, Quiet ([] ++ respond ending) := fun ending => quiet_respond ending
  cases h with
  | refused ret command _ _ _ => exact .inl ⟨quiet_respond _, .inl rfl⟩
  | progress command _ _ _ => exact .inl ⟨quiet_respond _, .inl rfl⟩
  | complete command whole ending shown _ hstate _ _ hholds hdispatch =>
      cases hdispatch with
      | configuration _ => exact .inl ⟨hresponds _, .inl rfl⟩
      | keyRefused _ _ _ => exact .inl ⟨hresponds _, .inl rfl⟩
      | keySent _ _ _ _ _ _ => exact .inl ⟨hresponds _, .inl rfl⟩
      | keyShown _ _ _ _ _ _ => exact .inl ⟨hresponds _, .inr rfl⟩
      | turnedDown reply _ _ hdown =>
          obtain ⟨summary, rfl⟩ := hdown.eq
          exact .inl ⟨hresponds _, .inl rfl⟩
      | reviewed ops read summary hins hheader _ hputUp hsame hscreen =>
          exact .inr (.intro command whole ops read summary hstate hholds hins hheader hputUp hsame
            hscreen)
      | unimplemented _ => exact .inl ⟨hresponds _, .inl rfl⟩

/-- The review is put up for the command, at its first step. -/
theorem PutsUpReview.outputs_eq (h : PutsUpReview sdk device outputs after) :
    ∃ numSummarySteps, outputs = [.reviewed after.command.path after.command.messageBytes] ∧
      after.flow = .signMessage numSummarySteps 0 := by
  obtain ⟨command, whole, ops, read, summary, _, hholds, _, _, hputUp, _, _⟩ := h
  have hpath : read.command.path = command.path := hputUp.path
  have hbytes : read.command.messageBytes = whole := hputUp.messageBytes hholds
  exact ⟨ops.length, by rw [hpath, hbytes], rfl⟩

end Quiet

section Turns

variable {ρ : Type}

/-- What counts as the request of a review: it is read off the device and the
number of steps of the flow, and is about a path and a message. -/
structure Requests (ρ : Type) where
  of : Device → Nat → ρ
  pages : ρ → Nat
  About : ρ → List UInt32 → List UInt8 → Prop
  pages_of : ∀ device numSummarySteps, pages (of device numSummarySteps) = numSummarySteps
  about_of : ∀ device numSummarySteps,
    About (of device numSummarySteps) device.command.path device.command.messageBytes

variable (requests : Requests ρ)

/-- The review that the flow on the screen is for. -/
def reviewPhase (device : Device) : Phase ρ :=
  match device.flow with
  | .signMessage numSummarySteps index => .reading (requests.of device numSummarySteps) index
  | _ => .away

/-- The rounds of the device, seen as the turns of a review. -/
def reviewView : View (Event × List Output × Device) ρ where
  opens request round :=
    ∃ path message, requests.About request path message ∧ .reviewed path message ∈ round.2.1
  grants request round :=
    ∃ path message, requests.About request path message ∧ .signed path message ∈ round.2.1
  phase round := reviewPhase requests round.2.2
  pages := requests.pages

variable {requests}

theorem reviewPhase_signMessage {numSummarySteps index : Nat}
    (hflow : device.flow = .signMessage numSummarySteps index) :
    reviewPhase requests device = .reading (requests.of device numSummarySteps) index := by
  rw [reviewPhase, hflow]

theorem reviewPhase_away (hflow : ∀ numSummarySteps index,
    device.flow ≠ .signMessage numSummarySteps index) : reviewPhase requests device = .away := by
  unfold reviewPhase
  split
  · rename_i numSummarySteps index heq
    exact absurd heq (hflow numSummarySteps index)
  · rfl

theorem reviewPhase_eq_reading {request : ρ} {index : Nat}
    (h : reviewPhase requests device = .reading request index) :
    ∃ numSummarySteps, device.flow = .signMessage numSummarySteps index ∧
      requests.of device numSummarySteps = request := by
  unfold reviewPhase at h
  split at h
  · rename_i numSummarySteps index' hflow
    cases h
    exact ⟨numSummarySteps, hflow, rfl⟩
  · cases h

/-- The flow stays or is left: the review does, if its request is still the
same. -/
theorem moves_of_flow (hflow : after.flow = device.flow ∨
      ∀ numSummarySteps index, after.flow ≠ .signMessage numSummarySteps index)
    (hkept : ∀ numSummarySteps index, after.flow = .signMessage numSummarySteps index →
      requests.of after numSummarySteps = requests.of device numSummarySteps) :
    Moves (reviewPhase requests device) (reviewPhase requests after) := by
  rcases hflow with hsame | hleft
  swap
  · rw [reviewPhase_away hleft]
    exact .left _
  cases hdevice : device.flow with
  | idle =>
      have haway : reviewPhase requests after = .away :=
        reviewPhase_away (by simp [hsame, hdevice])
      rw [haway]
      exact .left _
  | pubkey index =>
      have haway : reviewPhase requests after = .away :=
        reviewPhase_away (by simp [hsame, hdevice])
      rw [haway]
      exact .left _
  | signMessage numSummarySteps index =>
      have hafter := hsame.trans hdevice
      rw [reviewPhase_signMessage hafter, reviewPhase_signMessage hdevice,
        hkept numSummarySteps index hafter]
      exact .stayed _

/-- A move to a neighbour in the flow is one in the review. -/
theorem Next.moves {flow : Flow} (h : Next event device.flow flow) (hafter : after.flow = flow)
    (hkept : ∀ numSummarySteps index, after.flow = .signMessage numSummarySteps index →
      requests.of after numSummarySteps = requests.of device numSummarySteps) :
    Moves (reviewPhase requests device) (reviewPhase requests after) := by
  cases hdevice : device.flow with
  | idle =>
      rw [hdevice] at h
      cases h
  | pubkey index =>
      rw [hdevice] at h
      apply moves_of_flow (.inr ?_) hkept
      cases h <;> simp [hafter]
  | signMessage numSummarySteps index =>
      rw [hdevice] at h
      cases h with
      | signMessageRight _ _ _ =>
          rw [reviewPhase_signMessage hdevice, reviewPhase_signMessage hafter, hkept _ _ hafter]
          exact .forward _ _
      | signMessageLeft _ before =>
          rw [reviewPhase_signMessage hdevice, reviewPhase_signMessage hafter, hkept _ _ hafter]
          exact .back _ _

/-- Every round is a turn of the review, if it keeps the request under review. -/
theorem Round.turn (h : Round sdk device event outputs after)
    (hkept : ¬ Reviews outputs → ∀ numSummarySteps index,
      after.flow = .signMessage numSummarySteps index →
      requests.of after numSummarySteps = requests.of device numSummarySteps) :
    Turn (reviewView requests) (reviewPhase requests device) (event, outputs, after) := by
  have hquiet : Quiet outputs → Moves (reviewPhase requests device) (reviewPhase requests after) →
      Turn (reviewView requests) (reviewPhase requests device) (event, outputs, after) := by
    intro hnothing hmoves
    refine .quiet ?_ ?_ hmoves
    · rintro request ⟨path, message, -, member⟩
      exact hnothing.not_reviews ⟨path, message, member⟩
    · rintro request ⟨path, message, -, member⟩
      exact hnothing.not_signs ⟨path, message, member⟩
  have hstays : Quiet outputs → (after.flow = device.flow ∨
        ∀ numSummarySteps index, after.flow ≠ .signMessage numSummarySteps index) →
      Turn (reviewView requests) (reviewPhase requests device) (event, outputs, after) :=
    fun hnothing hflow => hquiet hnothing (moves_of_flow hflow (hkept hnothing.not_reviews))
  have hsent : ∀ response, Quiet [.sent response] := by simp [Quiet]
  cases h with
  | noApdu => exact hstays (quiet_respond _) (.inl rfl)
  | apdu bytes message _ _ _ _ h =>
      rcases h.outputs_cases with ⟨hnothing, hflow | hflow⟩ | hputs
      · exact hstays hnothing (.inl hflow)
      · exact hstays hnothing (.inr (by simp [hflow]))
      · obtain ⟨numSummarySteps, rfl, hflow⟩ := hputs.outputs_eq
        refine .opened (requests.of after numSummarySteps) ⟨_, _, requests.about_of _ _,
          List.mem_cons_self⟩ ?_ (reviewPhase_signMessage hflow)
        rintro request ⟨path, message, -, member⟩
        simp at member
  | stayed _ _ _ => exact hstays (by simp [Quiet]) (.inl rfl)
  | moved _ flow _ _ hnext h =>
      obtain ⟨summary, -, hafter⟩ := h.eq
      exact hquiet h.quiet (hnext.moves (by rw [hafter]) (hkept h.quiet.not_reviews))
  | keyApproved _ => exact hstays (hsent _) (.inr (by simp [uiIdle]))
  | signed numSummarySteps _ hflow _ =>
      have hbehind : reviewPhase requests device = .reading (requests.of device numSummarySteps)
          (requests.pages (requests.of device numSummarySteps)) := by
        rw [requests.pages_of]
        exact reviewPhase_signMessage hflow
      have haway : reviewPhase requests (uiIdle device) = .away :=
        reviewPhase_away (by simp [uiIdle])
      refine .granted _ ?_ ⟨_, _, requests.about_of _ _, List.mem_cons_self⟩ hbehind haway
      rintro request ⟨path, message, -, member⟩
      simp at member
  | unsigned _ _ _ _ => exact hstays (quiet_respond _) (.inl rfl)
  | rejected _ => exact hstays (hsent _) (.inr (by simp [uiIdle]))
  | settings settings _ => exact hstays (by simp [Quiet]) (.inl rfl)
  | ioReset => exact hstays (by simp [Quiet]) (.inr (by simp [uiIdle]))

/-- Only both buttons sign, and they sign the command. -/
theorem Round.signs (h : Round sdk device event outputs after) (hsigns : Signs outputs) :
    event = .both ∧ ∃ signature,
      sdk.eddsaSign device.command.path device.command.messageBytes = .ok signature ∧
      outputs = [.signed device.command.path device.command.messageBytes,
        .sent (signature.toList ++ [0x90, 0x00])] := by
  have hnot : ¬ Quiet outputs := fun hquiet => hquiet.not_signs hsigns
  obtain ⟨path, message, hsigned⟩ := hsigns
  cases h with
  | noApdu => exact absurd (quiet_respond _) hnot
  | apdu bytes _ _ _ _ _ h =>
      rcases h.outputs_cases with ⟨hnothing, -⟩ | ⟨command, whole⟩
      · exact absurd hnothing hnot
      · simp at hsigned
  | stayed _ _ _ => simp at hsigned
  | moved _ flow _ _ hnext h => exact absurd h.quiet hnot
  | keyApproved _ => simp at hsigned
  | signed numSummarySteps signature _ hsign => exact ⟨rfl, signature, hsign, rfl⟩
  | unsigned _ _ _ _ => exact absurd (quiet_respond _) hnot
  | rejected _ => simp at hsigned
  | settings settings _ => simp at hsigned
  | ioReset => simp at hsigned

/-- Only a complete command puts up a review. -/
theorem Round.putsUp (h : Round sdk device event outputs after) (hreviews : Reviews outputs) :
    PutsUpReview sdk device outputs after := by
  have hnot : ¬ Quiet outputs := fun hquiet => hquiet.not_reviews hreviews
  obtain ⟨path, message, hreviewed⟩ := hreviews
  cases h with
  | noApdu => exact absurd (quiet_respond _) hnot
  | apdu bytes _ _ _ _ _ h =>
      rcases h.outputs_cases with ⟨hnothing, -⟩ | hputs
      · exact absurd hnothing hnot
      · exact hputs
  | stayed _ _ _ => simp at hreviewed
  | moved _ flow _ _ hnext h => exact absurd h.quiet hnot
  | keyApproved _ => simp at hreviewed
  | signed _ _ _ _ => simp at hreviewed
  | unsigned _ _ _ _ => exact absurd (quiet_respond _) hnot
  | rejected _ => simp at hreviewed
  | settings settings _ => simp at hreviewed
  | ioReset => simp at hreviewed

/-- What is put up is the command that the round leaves. -/
theorem Round.reviews (h : Round sdk device event outputs after) (hreviews : Reviews outputs) :
    outputs = [.reviewed after.command.path after.command.messageBytes] := by
  obtain ⟨numSummarySteps, houtputs, -⟩ := (h.putsUp hreviews).outputs_eq
  exact houtputs

variable (requests) in
/-- A round that puts up a review or signs does so for some request. -/
def Recognized (round : Event × List Output × Device) : Prop :=
  (Reviews round.2.1 → ∃ request, (reviewView requests).opens request round) ∧
    (Signs round.2.1 → ∃ request, (reviewView requests).grants request round)

theorem Round.recognized (h : Round sdk device event outputs after) :
    Recognized requests (event, outputs, after) := by
  constructor
  · intro hreviews
    have houtputs := h.reviews hreviews
    exact ⟨_, _, _, requests.about_of after 0, by simp [houtputs]⟩
  · intro hsigns
    obtain ⟨-, _, -, houtputs⟩ := h.signs hsigns
    exact ⟨_, _, _, requests.about_of device 0, by simp [houtputs]⟩

end Turns

section Runs

/-- A review that is known by nothing but the number of its steps. -/
def flowRequests : Requests Nat where
  of _ numSummarySteps := numSummarySteps
  pages numSummarySteps := numSummarySteps
  About _ _ _ := True
  pages_of _ _ := rfl
  about_of _ _ := trivial

/-- Only both buttons sign, and the response is the signature. -/
theorem appStep_signs (sdk : Sdk) (settings : AppSettings) (events : List Event) :
    Ensures (run (recorded (appStep sdk)) events (Device.boot settings)) fun result =>
      ∀ round ∈ result.1, Signs round.2.1 → round.1 = .both ∧ ∃ path message signature,
        sdk.eddsaSign path message = .ok signature ∧
        round.2.1 = [.signed path message, .sent (signature.toList ++ [0x90, 0x00])] := by
  refine rounds_forall sdk settings (fun device event outputs after hround hsigns => ?_) events
  obtain ⟨hboth, signature, hsign, houtputs⟩ := hround.signs hsigns
  exact ⟨hboth, _, _, signature, hsign, houtputs⟩

/-- Every run obeys the rules. -/
theorem appStep_obeys (sdk : Sdk) (settings : AppSettings) (events : List Event) :
    Ensures (run (recorded (appStep sdk)) events (Device.boot settings)) fun result =>
      Obeys (reviewView flowRequests) result.1 (reviewPhase flowRequests result.2) := by
  apply rounds_ensures sdk settings
    (fun log device => Obeys (reviewView flowRequests) log (reviewPhase flowRequests device))
    (fun _ _ => True)
  · exact .nil
  · intro log device event outputs after hobeys _ hround
    exact hobeys.snoc (event, outputs, after) (hround.turn fun _ _ _ _ => rfl)
  · exact within_always events _

/-- In every run, with any APDUs in between, a signature is made by both
buttons at the Approve step of a review, which the round before has left on the
screen. Since that review was put up nothing was reviewed or signed, every round
has left the review on the screen, and each of its steps up to Approve was
reached. -/
theorem signature_ends_walk (sdk : Sdk) (settings : AppSettings) (events : List Event) :
    Ensures (run (recorded (appStep sdk)) events (Device.boot settings)) fun result =>
      ∀ before event outputs after rest, result.1 = before ++ (event, outputs, after) :: rest →
        Signs outputs →
        event = .both ∧ ∃ earlier opening walked numSummarySteps,
          before = earlier ++ opening :: walked ∧ Reviews opening.2.1 ∧
          (∀ round ∈ walked, ¬ Reviews round.2.1 ∧ ¬ Signs round.2.1) ∧
          (∀ round ∈ opening :: walked,
            ∃ index, round.2.2.flow = .signMessage numSummarySteps index) ∧
          (∀ index ≤ numSummarySteps, ∃ round ∈ opening :: walked,
            round.2.2.flow = .signMessage numSummarySteps index) ∧
          (opening :: walked).getLast?.map (·.2.2.flow) =
            some (.signMessage numSummarySteps numSummarySteps) := by
  intro result hresult before event outputs after rest hlog hsigns
  have hobeys := appStep_obeys sdk settings events result hresult
  obtain ⟨hboth, -⟩ := appStep_signs sdk settings events result hresult (event, outputs, after)
    (by simp [hlog]) hsigns
  refine ⟨hboth, ?_⟩
  obtain ⟨path, message, hsigned⟩ := hsigns
  have hgrants : (reviewView flowRequests).grants 0 (event, outputs, after) :=
    ⟨path, message, trivial, hsigned⟩
  obtain ⟨numSummarySteps, opening, walked, -, hwalked⟩ := hobeys.granted hlog hgrants
  obtain ⟨earlier, hearlier⟩ := hwalked.log_eq
  have hflow : ∀ (round : Event × List Output × Device) index,
      reviewPhase flowRequests round.2.2 = .reading numSummarySteps index →
      round.2.2.flow = .signMessage numSummarySteps index := by
    intro round index hphase
    obtain ⟨_, hsame, rfl⟩ := reviewPhase_eq_reading hphase
    exact hsame
  refine ⟨earlier, opening, walked, numSummarySteps, hearlier, ?_, ?_, ?_, ?_, ?_⟩
  · obtain ⟨path, message, -, member⟩ := hwalked.opens
    exact ⟨path, message, member⟩
  · intro round member
    obtain ⟨hopens, hgrants⟩ := hwalked.quiet round member 0
    constructor
    · rintro ⟨path, message, hreviewed⟩
      exact hopens ⟨path, message, trivial, hreviewed⟩
    · rintro ⟨path, message, hsigned⟩
      exact hgrants ⟨path, message, trivial, hsigned⟩
  · intro round member
    rcases List.mem_cons.mp member with rfl | hlater
    · exact ⟨0, hflow _ _ hwalked.opening_phase⟩
    · obtain ⟨index, hphase⟩ := hwalked.same round hlater
      exact ⟨index, hflow _ _ hphase⟩
  · intro index hindex
    obtain ⟨round, member, hphase⟩ := hwalked.visited index hindex
    exact ⟨round, member, hflow _ _ hphase⟩
  · obtain ⟨round, hround, hphase⟩ := Option.map_eq_some_iff.mp hwalked.last
    rw [hround, Option.map_some, hflow round numSummarySteps hphase]

end Runs

end AelfApp
