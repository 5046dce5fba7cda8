import AelfApp.Watched

/-!
The responses of the device. Everything that it can send is listed here, with
the one round that each may come from. To a host that waits for an answer
before it sends the next APDU, every APDU has exactly one, but for the attempts
of the user to sign under a path that the system refuses: each of these is
answered, too, and leaves the review on the screen.
-/

namespace AelfApp

open Memory Apdu Libsol Machine

variable {sdk : Sdk} {device after : Device} {event : Event} {outputs : List Output}
  {message : List UInt8}

/-- The responses among the outputs of a round. -/
def responses (outputs : List Output) : List (List UInt8) :=
  outputs.filterMap fun
    | .sent response => some response
    | _ => none

@[simp] theorem responses_nil : responses [] = [] := rfl

@[simp] theorem responses_sent (response : List UInt8) (outputs : List Output) :
    responses (.sent response :: outputs) = response :: responses outputs := rfl

@[simp] theorem responses_reviewed (path : List UInt32) (message : List UInt8)
    (outputs : List Output) :
    responses (.reviewed path message :: outputs) = responses outputs := rfl

@[simp] theorem responses_signed (path : List UInt32) (message : List UInt8)
    (outputs : List Output) :
    responses (.signed path message :: outputs) = responses outputs := rfl

/-- The bytes of a status word. -/
def statusBytes (sw : Nat) : List UInt8 := [UInt8.ofNat (sw >>> 8), UInt8.ofNat sw]

theorem responses_thrown (e : Nat) (data : List UInt8) :
    responses (respond (.thrown e data)) = [data ++ statusBytes (statusWord e)] := rfl

/-- The codes of replies are status words as they are. -/
theorem responses_reply (reply : ApduReply) (data : List UInt8) :
    responses (respond (.thrown reply.code data)) = [data ++ statusBytes reply.code] := by
  cases reply <;> rfl

section Answers

/-- What an APDU may be answered at once, with the device after it. -/
inductive AnsweredWith (sdk : Sdk) (after : Device) : List UInt8 → Prop where
  | status (reply : ApduReply) : AnsweredWith sdk after (statusBytes reply.code)
  | configuration (hins : after.command.instruction = .getAppConfiguration) :
      AnsweredWith sdk after ([after.settings.allowBlindSign.toByte,
        after.settings.pubkeyDisplay.toByte, majorVersion, minorVersion, patchVersion] ++
          statusBytes ApduReply.success.code)
  | key (publicKey : Buffer UInt8 pubkeySize) (hins : after.command.instruction = .getPubkey)
      (hconfirm : after.command.nonConfirm = true)
      (hkey : getPublicKey sdk after.command.path = .ok publicKey) :
      AnsweredWith sdk after (publicKey.toList ++ statusBytes ApduReply.success.code)
  | keyRefused (e : SdkException) (hins : after.command.instruction = .getPubkey)
      (hkey : getPublicKey sdk after.command.path = .error e) :
      AnsweredWith sdk after (statusBytes (statusWord e.code))

/-- What the end of a flow may be answered. -/
inductive EndedWith (sdk : Sdk) (after : Device) : List UInt8 → Prop where
  | cancelled : EndedWith sdk after [0x69, 0x85]
  | key : EndedWith sdk after (after.publicKey.toList ++ statusBytes ApduReply.success.code)
  | signature (signature : Buffer UInt8 signatureLength)
      (hsign : sdk.eddsaSign after.command.path after.command.messageBytes = .ok signature) :
      EndedWith sdk after (signature.toList ++ statusBytes ApduReply.success.code)

/-- What a round may respond. -/
inductive Answer (sdk : Sdk) (after : Device) : Event → List UInt8 → Prop where
  | apdu (bytes response : List UInt8) (h : AnsweredWith sdk after response) :
      Answer sdk after (.apdu bytes) response
  /-- A page that cannot be shown. -/
  | moved (event : Event) (h : event = .left ∨ event = .right) :
      Answer sdk after event (statusBytes ApduReply.aelfSummaryUpdateFailed.code)
  | both (response : List UInt8) (hflow : after.flow = .idle) (h : EndedWith sdk after response) :
      Answer sdk after .both response
  /-- The review is still at Approve. -/
  | unsigned (numSummarySteps : Nat) (e : SdkException)
      (hflow : after.flow = .signMessage numSummarySteps numSummarySteps)
      (hsign : sdk.eddsaSign after.command.path after.command.messageBytes = .error e) :
      Answer sdk after .both (statusBytes (statusWord e.code))

theorem handled_reply {apdu : List UInt8} {command after : ApduCommand} {ret : Nat}
    (h : Handled apdu command message ret after) (hret : ret ≠ 0) :
    ∃ reply : ApduReply, ret = reply.code := by
  cases h with
  | refused reply => exact ⟨reply, rfl⟩
  | configured _ _ _ => exact absurd rfl hret
  | discarded _ reply _ _ _ _ => exact ⟨reply, rfl⟩
  | started _ _ _ _ _ _ _ => exact absurd rfl hret
  | extended _ _ _ _ _ _ _ => exact absurd rfl hret
  | pathless _ _ _ _ _ => exact absurd rfl hret
  | emptied _ _ _ _ _ => exact ⟨.aelfInvalidMessageSize, rfl⟩

/-- An APDU is answered once and leaves the flow, or puts a flow up and is not
answered yet. -/
theorem ApduRound.sends {apdu : List UInt8}
    (h : ApduRound sdk device message apdu outputs after) :
    (∃ response, responses outputs = [response] ∧ AnsweredWith sdk after response ∧
        after.flow = device.flow) ∨
      responses outputs = [] ∧ after.flow ≠ .idle := by
  cases h with
  | refused ret command hret _ hhandled =>
      obtain ⟨reply, rfl⟩ := handled_reply hhandled hret
      exact .inl ⟨_, responses_reply _ _, .status reply, rfl⟩
  | progress command _ _ _ => exact .inl ⟨_, responses_reply _ _, .status .success, rfl⟩
  | complete command whole ending shown _ _ _ _ _ hdispatch =>
      cases hdispatch with
      | configuration hins => exact .inl ⟨_, responses_reply _ _, .configuration hins, rfl⟩
      | keyRefused e hins hkey =>
          exact .inl ⟨_, responses_thrown _ _, .keyRefused e hins hkey, rfl⟩
      | keySent publicKey _ hins hconfirm hkey _ =>
          exact .inl ⟨_, responses_reply _ _, .key publicKey hins hconfirm hkey, rfl⟩
      | keyShown _ _ _ _ _ _ => exact .inr ⟨rfl, by simp⟩
      | turnedDown reply _ _ hdown =>
          obtain ⟨summary, rfl⟩ := hdown.eq
          exact .inl ⟨_, responses_reply _ _, .status reply, rfl⟩
      | reviewed _ _ _ _ _ _ _ _ _ => exact .inr ⟨rfl, by simp⟩
      | unimplemented _ =>
          exact .inl ⟨_, responses_reply _ _, .status .unimplementedInstruction, rfl⟩

theorem Arrives.sends {flow : Flow} (h : Arrives device flow outputs after) :
    responses outputs = [] ∨
      responses outputs = [statusBytes ApduReply.aelfSummaryUpdateFailed.code] := by
  cases h with
  | shown _ _ _ => exact .inl rfl
  | failed _ _ _ _ _ _ _ _ _ => exact .inr (responses_reply _ _)

theorem Next.button {before flow : Flow} (h : Next event before flow) :
    event = .left ∨ event = .right := by
  cases h with
  | pubkeyRight _ _ => exact .inr rfl
  | pubkeyLeft _ => exact .inl rfl
  | signMessageRight _ _ _ => exact .inr rfl
  | signMessageLeft _ _ => exact .inl rfl

/-- A round sends at most one response. -/
theorem Round.sends (h : Round sdk device event outputs after) :
    responses outputs = [] ∨
      ∃ response, responses outputs = [response] ∧ Answer sdk after event response := by
  cases h with
  | noApdu => exact .inr ⟨_, responses_reply _ _, .apdu _ _ (.status .noApduReceived)⟩
  | apdu bytes message _ _ _ _ h =>
      rcases h.sends with ⟨response, hresponse, hanswer, -⟩ | ⟨hnone, -⟩
      · exact .inr ⟨response, hresponse, .apdu bytes response hanswer⟩
      · exact .inl hnone
  | stayed _ _ _ => exact .inl rfl
  | moved _ flow _ _ hnext h =>
      rcases h.sends with hnone | hfailed
      · exact .inl hnone
      · exact .inr ⟨_, hfailed, .moved event hnext.button⟩
  | keyApproved _ => exact .inr ⟨_, rfl, .both _ rfl .key⟩
  | signed _ signature _ hsign => exact .inr ⟨_, rfl, .both _ rfl (.signature signature hsign)⟩
  | unsigned numSummarySteps e hflow hsign =>
      exact .inr ⟨_, rfl, .unsigned numSummarySteps e hflow hsign⟩
  | rejected _ => exact .inr ⟨_, rfl, .both _ rfl .cancelled⟩
  | settings _ _ => exact .inl rfl
  | ioReset => exact .inl rfl

end Answers

section Lockstep

/-- A host that waits: it sends an APDU when no flow is on the screen, and does
not drop the connection. -/
def Lockstep (event : Event) (device : Device) : Prop :=
  event ≠ .ioReset ∧ ∀ bytes, event = .apdu bytes → device.flow = .idle

/-- What the host sees of a run. -/
inductive Mark where
  | asked
  | answered
  | refused
  deriving Repr, DecidableEq

def Event.asks : Event → List Mark
  | .apdu _ => [.asked]
  | _ => []

/-- A response to both buttons that leaves the flow on the screen is the refusal
to sign. -/
def Event.answers (event : Event) (after : Device) : Mark :=
  if event = .both ∧ after.flow ≠ .idle then .refused else .answered

def marks (round : Event × List Output × Device) : List Mark :=
  round.1.asks ++ (responses round.2.1).map fun _ => round.1.answers round.2.2

/-- An APDU that waits for the user, who has tried to sign so many times. -/
def Flow.pending (refusals : Nat) : Flow → List Mark
  | .idle => []
  | _ => .asked :: List.replicate refusals .refused

/-- An APDU with the refusals to sign and then its answer. -/
def exchange (refusals : Nat) : List Mark :=
  .asked :: List.replicate refusals .refused ++ [.answered]

theorem pending_of_ne {flow : Flow} (h : flow ≠ .idle) (refusals : Nat) :
    flow.pending refusals = .asked :: List.replicate refusals .refused := by
  cases flow with
  | idle => exact absurd rfl h
  | pubkey index => rfl
  | signMessage numSummarySteps index => rfl

theorem Lockstep.undisturbing (h : Lockstep event device) : Undisturbing sdk event device := by
  intro apdu numSummarySteps index hevent hflow
  have hidle := h.2 apdu hevent
  rw [hflow] at hidle
  cases hidle

/-- A page of a watched review comes up. -/
theorem Watched.silent {flow : Flow} (h : Watched sdk device)
    (hnext : Next event device.flow flow) (harrives : Arrives device flow outputs after) :
    responses outputs = [] := by
  cases harrives with
  | shown _ _ _ => rfl
  | failed summary ret numSummarySteps index hflow hindex hsame hret hscreen =>
      obtain ⟨before, hbefore⟩ := hnext.signMessage hflow
      obtain ⟨message, ops, hon, rfl, -⟩ := h.review _ _ hbefore
      obtain ⟨screen, hshown⟩ := (hon.store.displayed_fits hon.presentable _ _ _ _ hscreen).1 hindex
      cases hshown

theorem Next.pending {before flow : Flow} (h : Next event before flow) (refusals : Nat) :
    flow.pending refusals = before.pending refusals := by
  cases h <;> rfl

theorem Next.asks {before flow : Flow} (h : Next event before flow) : event.asks = [] := by
  rcases h.button with rfl | rfl <;> rfl

/-- A round that ends the flow on the screen ends its exchange. -/
theorem pending_ended {flow : Flow} (h : flow ≠ .idle) (refusals : Nat) :
    flow.pending refusals ++ [.answered] =
      [refusals].flatMap exchange ++ Flow.idle.pending 0 := by
  rw [pending_of_ne h]
  simp [exchange, Flow.pending]

/-- A round of a host that waits begins an exchange, ends the one that is
pending, does both, adds a refusal, or does nothing. -/
theorem Round.exchanges (h : Round sdk device event outputs after)
    (hlockstep : Lockstep event device) (hwatched : Watched sdk device) (refusals : Nat) :
    ∃ (ended : List Nat) (waiting : Nat),
      device.flow.pending refusals ++ marks (event, outputs, after) =
        ended.flatMap exchange ++ after.flow.pending waiting := by
  have hquiet : ∀ {flow flow' : Flow}, flow'.pending refusals = flow.pending refusals →
      flow.pending refusals ++ [] = [].flatMap exchange ++ flow'.pending refusals := by
    intro flow flow' hsame
    rw [hsame, List.append_nil]
    rfl
  cases h with
  | noApdu =>
      have hidle := hlockstep.2 [] rfl
      refine ⟨[0], 0, ?_⟩
      simp only [hidle, marks, responses_reply]
      rfl
  | apdu bytes message _ _ _ _ h =>
      have hidle := hlockstep.2 bytes rfl
      rcases h.sends with ⟨response, hresponse, -, hflow⟩ | ⟨hnone, hflow⟩
      · refine ⟨[0], 0, ?_⟩
        simp only [hflow, hidle, marks, hresponse]
        rfl
      · refine ⟨[], 0, ?_⟩
        simp only [hidle, marks, hnone, pending_of_ne hflow]
        rfl
  | stayed _ hapdu _ =>
      refine ⟨[], refusals, ?_⟩
      have hasks : event.asks = [] := by
        cases event with
        | apdu bytes => exact absurd rfl (hapdu bytes)
        | _ => rfl
      simp only [marks, hasks]
      exact hquiet rfl
  | moved _ flow _ _ hnext h =>
      obtain ⟨summary, -, hafter⟩ := h.eq
      refine ⟨[], refusals, ?_⟩
      simp only [marks, hnext.asks, hwatched.silent hnext h]
      apply hquiet
      rw [hafter]
      exact hnext.pending refusals
  | keyApproved hflow => exact ⟨[refusals], 0, pending_ended (by simp [hflow]) refusals⟩
  | signed numSummarySteps _ hflow _ =>
      exact ⟨[refusals], 0, pending_ended (by simp [hflow]) refusals⟩
  | unsigned numSummarySteps e hflow _ =>
      have hne : device.flow ≠ .idle := by simp [hflow]
      refine ⟨[], refusals + 1, ?_⟩
      rw [pending_of_ne hne, pending_of_ne hne, List.replicate_succ']
      simp [marks, responses_thrown, Event.asks, Event.answers, hflow]
  | rejected hflow =>
      have hne : device.flow ≠ .idle := by
        rcases hflow with hflow | ⟨numSummarySteps, hflow⟩ <;> simp [hflow]
      exact ⟨[refusals], 0, pending_ended hne refusals⟩
  | settings settings _ => exact ⟨[], refusals, hquiet rfl⟩
  | ioReset => exact absurd rfl hlockstep.1

/-- The system does not sign the command, whose review stays at Approve. -/
def Unsigned (sdk : Sdk) (round : Event × List Output × Device) : Prop :=
  round.1 = .both ∧ ∃ numSummarySteps e,
    round.2.2.flow = .signMessage numSummarySteps numSummarySteps ∧
    sdk.eddsaSign round.2.2.command.path round.2.2.command.messageBytes = .error e ∧
    responses round.2.1 = [statusBytes (statusWord e.code)]

theorem Round.refused (h : Round sdk device event outputs after)
    (hrefused : .refused ∈ marks (event, outputs, after)) :
    Unsigned sdk (event, outputs, after) := by
  have hasks : ∀ event : Event, Mark.refused ∉ event.asks := by
    intro event
    cases event <;> simp [Event.asks]
  have hanswer : responses outputs ≠ [] ∧ event.answers after = .refused := by
    simp only [marks, List.mem_append, hasks, false_or, List.mem_map] at hrefused
    obtain ⟨response, member, hanswer⟩ := hrefused
    exact ⟨List.ne_nil_of_mem member, hanswer⟩
  obtain ⟨hresponds, hanswer⟩ := hanswer
  have hboth : event = .both ∧ after.flow ≠ .idle := by
    by_contra hnot
    rw [Event.answers, if_neg hnot] at hanswer
    cases hanswer
  obtain ⟨rfl, hup⟩ := hboth
  refine ⟨rfl, ?_⟩
  cases h with
  | stayed _ _ _ => exact absurd rfl hresponds
  | moved _ _ _ _ hnext _ => rcases hnext.button with hbutton | hbutton <;> cases hbutton
  | keyApproved _ => exact absurd rfl hup
  | signed _ _ _ _ => exact absurd rfl hup
  | unsigned numSummarySteps e hflow hsign => exact ⟨numSummarySteps, e, hflow, hsign, rfl⟩
  | rejected _ => exact absurd rfl hup

end Lockstep

end AelfApp
