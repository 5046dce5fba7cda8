import AelfApp.Lib.Memory

/-!
A machine that answers one input at a time, and what holds over a whole run
of it. An invariant may speak of the log of inputs and answers so far, so one
induction serves both state invariants and statements about where the
contents of a state came from.
-/

namespace AelfApp.Machine

open Memory

variable {ι ο σ : Type}

/-- Feeds the inputs in order and logs each with its answer. -/
def run (step : ι → σ → Checked (ο × σ)) : List ι → σ → Checked (List (ι × ο) × σ)
  | [], s => .ok ([], s)
  | i :: rest, s => do
    let (o, s') ← step i s
    let (log, final) ← run step rest s'
    pure ((i, o) :: log, final)

variable {step : ι → σ → Checked (ο × σ)}

theorem run_cons_ok {i : ι} {rest : List ι} {s s' final : σ} {o : ο} {log : List (ι × ο)}
    (hstep : step i s = .ok (o, s')) (hrest : run step rest s' = .ok (log, final)) :
    run step (i :: rest) s = .ok ((i, o) :: log, final) := by
  simp [run, hstep, hrest]

theorem run_append {first second : List ι} {s middle final : σ} {log more : List (ι × ο)}
    (hfirst : run step first s = .ok (log, middle))
    (hsecond : run step second middle = .ok (more, final)) :
    run step (first ++ second) s = .ok (log ++ more, final) := by
  induction first generalizing s log with
  | nil =>
      cases hfirst
      simpa using hsecond
  | cons i rest ih =>
      simp only [run, bind_eq_ok] at hfirst
      obtain ⟨⟨o, s'⟩, hstep, ⟨tail, next⟩, htail, hlog⟩ := hfirst
      cases hlog
      exact run_cons_ok hstep (ih htail)

theorem run_append_eq (first second : List ι) (s : σ) :
    run step (first ++ second) s = (do
      let (log, middle) ← run step first s
      let (more, final) ← run step second middle
      return (log ++ more, final)) := by
  induction first generalizing s with
  | nil =>
      simp only [List.nil_append, run, ok_bind]
      generalize run step second s = result
      cases result <;> rfl
  | cons i rest ih =>
      simp only [List.cons_append, run, ih]
      generalize step i s = head
      cases head with
      | error e => rfl
      | ok head =>
          simp only [ok_bind]
          generalize run step rest head.2 = middle
          cases middle with
          | error e => rfl
          | ok middle =>
              simp only [ok_bind, pure_eq_ok]
              generalize run step second middle.2 = result
              cases result <;> rfl

/-- The last step of a run leads to the state that the run ends in. -/
theorem run_concat {inputs : List ι} {i : ι} {s final : σ} {log : List (ι × ο)}
    (h : run step (inputs ++ [i]) s = .ok (log, final)) :
    ∃ middle o, step i middle = .ok (o, final) := by
  rw [run_append_eq] at h
  simp only [run, bind_eq_ok, pure_eq_ok, Except.ok.injEq, Prod.mk.injEq] at h
  obtain ⟨⟨_, middle⟩, _, ⟨_, _⟩, ⟨⟨o, s'⟩, hstep, _, rfl, _, rfl⟩, _, rfl⟩ := h
  exact ⟨middle, o, hstep⟩

/-- Every step answers and keeps the invariant, so every run does. The
invariant sees the log; `allowed` restricts the inputs of the run. -/
theorem run_invariant (inv : List (ι × ο) → σ → Prop) (allowed : ι → Prop)
    (hstep : ∀ past s i, inv past s → allowed i →
      ∃ o s', step i s = .ok (o, s') ∧ inv (past ++ [(i, o)]) s')
    (inputs : List ι) (past : List (ι × ο)) (s : σ) (hinit : inv past s)
    (hallowed : ∀ i ∈ inputs, allowed i) :
    ∃ log final, run step inputs s = .ok (log, final) ∧
      log.map Prod.fst = inputs ∧ inv (past ++ log) final := by
  induction inputs generalizing past s with
  | nil => exact ⟨[], s, rfl, rfl, by simpa using hinit⟩
  | cons i rest ih =>
      obtain ⟨o, s', hhead, hinv⟩ := hstep past s i hinit (hallowed i (by simp))
      obtain ⟨log, final, htail, hinputs, hfinal⟩ :=
        ih (past ++ [(i, o)]) s' hinv (fun j hj => hallowed j (by simp [hj]))
      refine ⟨(i, o) :: log, final, run_cons_ok hhead htail, by simp [hinputs], ?_⟩
      simpa using hfinal

/-- Every input of the run is allowed in the state that it finds. -/
def Within (step : ι → σ → Checked (ο × σ)) (allowed : ι → σ → Prop) : List ι → σ → Prop
  | [], _ => True
  | i :: rest, s => allowed i s ∧ ∀ o s', step i s = .ok (o, s') → Within step allowed rest s'

/-- If the steps that answer keep the invariant, so does a run that answers. -/
theorem run_ensures (inv : List (ι × ο) → σ → Prop) (allowed : ι → σ → Prop)
    (hstep : ∀ past s i, inv past s → allowed i s →
      Ensures (step i s) fun result => inv (past ++ [(i, result.1)]) result.2)
    (inputs : List ι) (past : List (ι × ο)) (s : σ) (hinit : inv past s)
    (hwithin : Within step allowed inputs s) :
    Ensures (run step inputs s) fun result => inv (past ++ result.1) result.2 := by
  induction inputs generalizing past s with
  | nil => exact ensures_ok (by simpa using hinit)
  | cons i rest ih =>
      obtain ⟨hallowed, hrest⟩ := hwithin
      intro result hrun
      rw [run] at hrun
      simp only [bind_eq_ok] at hrun
      obtain ⟨⟨o, s'⟩, hhead, ⟨log, final⟩, htail, hresult⟩ := hrun
      cases hresult
      have hnext := hstep past s i hinit hallowed _ hhead
      have hfinal := ih (past ++ [(i, o)]) s' hnext (hrest o s' hhead) _ htail
      simpa using hfinal

/-- If every step that is allowed where it is taken answers and keeps the
invariant, so does a run of such steps. -/
theorem run_total (inv : List (ι × ο) → σ → Prop) (allowed : ι → σ → Prop)
    (hstep : ∀ past s i, inv past s → allowed i s →
      ∃ o s', step i s = .ok (o, s') ∧ inv (past ++ [(i, o)]) s')
    (inputs : List ι) (past : List (ι × ο)) (s : σ) (hinit : inv past s)
    (hwithin : Within step allowed inputs s) :
    ∃ log final, run step inputs s = .ok (log, final) ∧ inv (past ++ log) final := by
  induction inputs generalizing past s with
  | nil => exact ⟨[], s, rfl, by simpa using hinit⟩
  | cons i rest ih =>
      obtain ⟨hallowed, hrest⟩ := hwithin
      obtain ⟨o, s', hhead, hinv⟩ := hstep past s i hinit hallowed
      obtain ⟨log, final, htail, hfinal⟩ := ih (past ++ [(i, o)]) s' hinv (hrest o s' hhead)
      refine ⟨(i, o) :: log, final, run_cons_ok hhead htail, ?_⟩
      simpa using hfinal

/-- The step with the state after it in its answer, for what is said about the
states that a run passes through. -/
def recorded (step : ι → σ → Checked (ο × σ)) (i : ι) (s : σ) : Checked ((ο × σ) × σ) := do
  let (o, s') ← step i s
  return ((o, s'), s')

theorem recorded_eq_ok {i : ι} {s s' : σ} {o : ο} {state : σ} :
    recorded step i s = .ok ((o, state), s') ↔ step i s = .ok (o, s') ∧ state = s' := by
  simp only [recorded, bind_eq_ok]
  constructor
  · rintro ⟨⟨o, s'⟩, hstep, hresult⟩
    cases hresult
    exact ⟨hstep, rfl⟩
  · rintro ⟨hstep, rfl⟩
    exact ⟨_, hstep, rfl⟩

/-- A run that is recorded is one that can be seen without its states. -/
theorem run_of_recorded {inputs : List ι} {s final : σ} {rounds : List (ι × ο × σ)}
    (h : run (recorded step) inputs s = .ok (rounds, final)) :
    run step inputs s = .ok (rounds.map fun round => (round.1, round.2.1), final) := by
  induction inputs generalizing s rounds with
  | nil =>
      cases h
      rfl
  | cons i rest ih =>
      simp only [run, bind_eq_ok] at h
      obtain ⟨⟨⟨o, state⟩, s'⟩, hstep, ⟨tail, last⟩, htail, hresult⟩ := h
      cases hresult
      obtain ⟨hstep, -⟩ := recorded_eq_ok.mp hstep
      exact run_cons_ok hstep (ih htail)

/-- Recording does not change what is allowed in a run. -/
theorem Within.recorded {allowed : ι → σ → Prop} {inputs : List ι} {s : σ}
    (h : Within step allowed inputs s) : Within (recorded step) allowed inputs s := by
  induction inputs generalizing s with
  | nil => trivial
  | cons i rest ih =>
      obtain ⟨hallowed, hrest⟩ := h
      refine ⟨hallowed, ?_⟩
      rintro ⟨o, state⟩ s' hstep
      exact ih (hrest o s' (recorded_eq_ok.mp hstep).1)

/-- Nothing is asked of an input that may always come. -/
theorem within_always (inputs : List ι) (s : σ) : Within step (fun _ _ => True) inputs s := by
  induction inputs generalizing s with
  | nil => trivial
  | cons i rest ih => exact ⟨trivial, fun _ _ _ => ih _⟩

/-- Inputs that leave the state and answer nothing may stand anywhere in a run. -/
theorem run_stutter {ω : Type} {step : ι → σ → Checked (List ω × σ)} {moves : ι → Bool}
    (hstutter : ∀ i s, moves i = false → step i s = .ok ([], s)) {inputs : List ι} {s final : σ}
    {log : List (ι × List ω × σ)}
    (h : run (recorded step) (inputs.filter moves) s = .ok (log, final)) :
    ∃ whole, run (recorded step) inputs s = .ok (whole, final) ∧
      whole.filter (moves ·.1) = log ∧ whole.flatMap (·.2.1) = log.flatMap (·.2.1) := by
  induction inputs generalizing s log with
  | nil =>
      cases h
      exact ⟨[], rfl, rfl, rfl⟩
  | cons i rest ih =>
      cases hmoves : moves i with
      | false =>
          rw [List.filter_cons_of_neg (by simp [hmoves])] at h
          obtain ⟨whole, hrun, hlog, houtputs⟩ := ih h
          refine ⟨(i, [], s) :: whole,
            run_cons_ok (recorded_eq_ok.mpr ⟨hstutter i s hmoves, rfl⟩) hrun, ?_, houtputs⟩
          rw [List.filter_cons_of_neg (by simp [hmoves]), hlog]
      | true =>
          rw [List.filter_cons_of_pos hmoves] at h
          simp only [run, bind_eq_ok] at h
          obtain ⟨⟨o, s'⟩, hstep, ⟨tail, last⟩, htail, hresult⟩ := h
          cases hresult
          obtain ⟨whole, hrun, hlog, houtputs⟩ := ih htail
          refine ⟨(i, o) :: whole, run_cons_ok hstep hrun, ?_, ?_⟩
          · rw [List.filter_cons_of_pos (by exact hmoves), hlog]
          · rw [List.flatMap_cons, List.flatMap_cons, houtputs]

section Logs

variable {ε : Type} {P : List ε → ε → Prop} {log : List ε} {e : ε}

theorem forall_mem_snoc {P : ε → Prop} (h : ∀ entry ∈ log, P entry) (hlast : P e) :
    ∀ entry ∈ log ++ [e], P entry :=
  List.forall_mem_append.mpr ⟨h, List.forall_mem_singleton.mpr hlast⟩

/-- Every entry of a log has a property that may speak of the entries before it. -/
def Everywhere (P : List ε → ε → Prop) (log : List ε) : Prop :=
  ∀ before e rest, log = before ++ e :: rest → P before e

theorem everywhere_nil : Everywhere P [] := by
  intro before e rest hlog
  simp at hlog

theorem Everywhere.snoc (h : Everywhere P log) (hlast : P log e) : Everywhere P (log ++ [e]) := by
  intro before entry rest hlog
  rcases List.eq_nil_or_concat rest with rfl | ⟨front, last, rfl⟩
  · obtain ⟨rfl, hentry⟩ := List.append_inj' hlog rfl
    cases hentry
    exact hlast
  · rw [List.concat_eq_append, ← List.cons_append, ← List.append_assoc] at hlog
    obtain ⟨hfront, -⟩ := List.append_inj' hlog rfl
    exact h before entry front hfront

end Logs

section Writes

variable {α : Type}

/-- What is observed of the state stays as it is over the whole run. -/
def Kept (step : ι → σ → Checked (ο × σ)) (observe : σ → α) (inputs : List ι) (s : σ) : Prop :=
  ∀ taken more, inputs = taken ++ more →
    Ensures (run step taken s) fun result => observe result.2 = observe s

/-- What is observed at the end of the run was written by one of its steps, and
is kept by all that come after it. -/
def WroteLast (step : ι → σ → Checked (ο × σ)) (observe : σ → α) (writes : ι → σ → α → Prop)
    (inputs : List ι) (s : σ) (value : α) : Prop :=
  ∃ before i later log middle o next, inputs = before ++ i :: later ∧
    run step before s = .ok (log, middle) ∧ writes i middle value ∧
    step i middle = .ok (o, next) ∧ observe next = value ∧ Kept step observe later next

variable {observe : σ → α} {writes : ι → σ → α → Prop} {i : ι} {rest : List ι} {s s' : σ} {o : ο}

theorem kept_nil (s : σ) : Kept step observe [] s := by
  intro taken more hsplit
  obtain ⟨rfl, -⟩ := List.append_eq_nil_iff.mp hsplit.symm
  exact ensures_ok rfl

theorem Kept.cons (hstep : step i s = .ok (o, s')) (hsame : observe s' = observe s)
    (h : Kept step observe rest s') : Kept step observe (i :: rest) s := by
  intro taken more hsplit
  rcases List.cons_eq_append_iff.mp hsplit with ⟨rfl, -⟩ | ⟨kept, rfl, hrest⟩
  · exact ensures_ok rfl
  · intro result hrun
    simp only [run, bind_eq_ok] at hrun
    obtain ⟨⟨o', next⟩, hhead, ⟨log, final⟩, htail, hresult⟩ := hrun
    cases hhead.symm.trans hstep
    cases hresult
    exact (h kept more hrest _ htail).trans hsame

theorem Kept.final (h : Kept step observe rest s) :
    Ensures (run step rest s) fun result => observe result.2 = observe s :=
  h rest [] (List.append_nil rest).symm

theorem WroteLast.cons {value : α} (hstep : step i s = .ok (o, s'))
    (h : WroteLast step observe writes rest s' value) :
    WroteLast step observe writes (i :: rest) s value := by
  obtain ⟨before, j, later, log, middle, o', next, rfl, hrun, hwrites, hwrite, hvalue, hkept⟩ := h
  exact ⟨i :: before, j, later, _, middle, o', next, rfl, run_cons_ok hstep hrun, hwrites, hwrite,
    hvalue, hkept⟩

variable (observe writes) in
/-- If every step keeps what is observed or writes it, then the run keeps it
from its start, or one of its steps was the last to write it. -/
theorem run_last_write (inv : σ → Prop)
    (hstep : ∀ i s, inv s → Ensures (step i s) fun result =>
      inv result.2 ∧ (observe result.2 = observe s ∨ writes i s (observe result.2)))
    (inputs : List ι) (s : σ) (h : inv s) :
    Ensures (run step inputs s) fun result => Kept step observe inputs s ∨
      WroteLast step observe writes inputs s (observe result.2) := by
  induction inputs generalizing s with
  | nil => exact ensures_ok (.inl (kept_nil s))
  | cons i rest ih =>
      intro result hrun
      simp only [run, bind_eq_ok] at hrun
      obtain ⟨⟨o, s'⟩, hhead, ⟨log, final⟩, htail, hresult⟩ := hrun
      cases hresult
      obtain ⟨hinv, hobserved⟩ := hstep i s h _ hhead
      rcases ih s' hinv _ htail with hkept | hwrote
      · rcases hobserved with hsame | hwrites
        · exact .inl (hkept.cons hhead hsame)
        · -- Nothing behind this step writes, so it was the last to do so.
          have hfinal : observe final = observe s' := hkept.final _ htail
          refine .inr ⟨[], i, rest, [], s, o, s', rfl, rfl, ?_, hhead, hfinal.symm, hkept⟩
          rw [hfinal]
          exact hwrites
      · exact .inr (hwrote.cons hhead)

end Writes

section Agreement

variable {α β α' β' σ' ο' : Type}

/-- Two computations that fault alike, or answer with results that are related. -/
inductive Agree (R : α → α' → Prop) : Checked α → Checked α' → Prop where
  | ok {a : α} {a' : α'} (h : R a a') : Agree R (.ok a) (.ok a')
  | error (e : Fault) : Agree R (.error e) (.error e)

theorem Agree.mono {R S : α → α' → Prop} {x : Checked α} {x' : Checked α'} (h : Agree R x x')
    (hmono : ∀ a a', R a a' → S a a') : Agree S x x' := by
  cases h with
  | ok h => exact .ok (hmono _ _ h)
  | error e => exact .error e

theorem Agree.bind {R : α → α' → Prop} {S : β → β' → Prop} {x : Checked α} {x' : Checked α'}
    {f : α → Checked β} {f' : α' → Checked β'} (h : Agree R x x')
    (hnext : ∀ a a', R a a' → Agree S (f a) (f' a')) : Agree S (x >>= f) (x' >>= f') := by
  cases h with
  | ok h => exact hnext _ _ h
  | error e => exact .error e

/-- Steps that agree do so with their states recorded in the answers. -/
theorem Agree.recorded {step : ι → σ → Checked (ο × σ)} {step' : ι → σ' → Checked (ο' × σ')}
    {R : ο × σ → ο' × σ' → Prop} {S : σ → σ' → Prop} {i : ι} {s : σ} {s' : σ'}
    (h : Agree R (step i s) (step' i s'))
    (hstates : ∀ result result', R result result' → S result.2 result'.2) :
    Agree (fun result result' => R result.1 result'.1 ∧ S result.2 result'.2)
      (Machine.recorded step i s) (Machine.recorded step' i s') := by
  apply h.bind
  rintro ⟨o, next⟩ ⟨o', next'⟩ hanswer
  exact .ok ⟨hanswer, hstates _ _ hanswer⟩

/-- The inputs of a run, translated into those of another machine. Each is
translated in the state that it finds, and some are dropped; nothing follows a
fault. -/
def translated {κ : Type} (step : ι → σ → Checked (ο × σ)) (translate : ι → σ → Option κ) :
    List ι → σ → List κ
  | [], _ => []
  | i :: rest, s => (translate i s).toList ++ match step i s with
    | .ok (_, s') => translated step translate rest s'
    | .error _ => []

section Translated

variable {κ : Type} {step : ι → σ → Checked (ο × σ)} {translate : ι → σ → Option κ} {i : ι}
  {rest : List ι} {s s' : σ} {o : ο} {k : κ}

theorem translated_dropped (hnone : translate i s = none) (hstep : step i s = .ok (o, s')) :
    translated step translate (i :: rest) s = translated step translate rest s' := by
  rw [translated, hnone, hstep]
  rfl

theorem translated_taken (hsome : translate i s = some k) (hstep : step i s = .ok (o, s')) :
    translated step translate (i :: rest) s = k :: translated step translate rest s' := by
  rw [translated, hsome, hstep]
  rfl

theorem translated_faulted {e : Fault} (hsome : translate i s = some k)
    (hstep : step i s = .error e) : translated step translate (i :: rest) s = [k] := by
  rw [translated, hsome, hstep]
  rfl

end Translated

/-- Refinement with stuttering: if every step whose input is dropped is silent
and keeps the abstract state, and the abstract machine takes every other one
with its translated input, then every run is that of the abstract machine with
the translated inputs: it has the same outputs and the same faults. -/
theorem run_refines {κ τ ω : Type} {step : ι → σ → Checked (List ω × σ)}
    {step' : κ → τ → Checked (List ω × τ)} (translate : ι → σ → Option κ) (abs : σ → τ)
    (inv : σ → Prop)
    (hdropped : ∀ i s, inv s → translate i s = none →
      ∃ s', step i s = .ok ([], s') ∧ inv s' ∧ abs s' = abs s)
    (htaken : ∀ i s k, inv s → translate i s = some k → Agree (fun result result' =>
      result.1 = result'.1 ∧ inv result.2 ∧ abs result.2 = result'.2)
        (step i s) (step' k (abs s)))
    (inputs : List ι) {s : σ} (h : inv s) :
    Agree (fun result result' => result.1.flatMap Prod.snd = result'.1.flatMap Prod.snd ∧
        inv result.2 ∧ abs result.2 = result'.2)
      (run step inputs s) (run step' (translated step translate inputs s) (abs s)) := by
  induction inputs generalizing s with
  | nil => exact .ok ⟨rfl, h, rfl⟩
  | cons i rest ih =>
      cases htranslate : translate i s with
      | none =>
          obtain ⟨s', hsilent, hinv, hsame⟩ := hdropped i s h htranslate
          have hhead : run step (i :: rest) s = run step rest s' >>= fun result =>
              .ok ((i, []) :: result.1, result.2) := by
            simp only [run, hsilent, ok_bind, pure_eq_ok]
          have hrest := ih hinv
          rw [hsame] at hrest
          rw [translated_dropped htranslate hsilent, hhead]
          generalize run step rest s' = taken at hrest ⊢
          generalize run step' (translated step translate rest s') (abs s) = taken' at hrest ⊢
          cases hrest with
          | ok hrest => exact .ok (by simpa using hrest)
          | error e => exact .error e
      | some k =>
          have hstep := htaken i s k h htranslate
          generalize hhead : step i s = head at hstep
          generalize hhead' : step' k (abs s) = head' at hstep
          cases hstep with
          | error e =>
              rw [translated_faulted htranslate hhead]
              simp only [run, hhead, hhead', error_bind]
              exact .error e
          | @ok result result' hresult =>
              obtain ⟨outputs, s'⟩ := result
              obtain ⟨_, t⟩ := result'
              obtain ⟨rfl, hinv, rfl⟩ := hresult
              rw [translated_taken htranslate hhead]
              simp only [run, hhead, hhead', ok_bind]
              apply (ih hinv).bind
              rintro ⟨log, final⟩ ⟨log', final'⟩ ⟨houtputs, hfinal, hview⟩
              exact .ok ⟨by simpa using houtputs, hfinal, hview⟩

end Agreement

end AelfApp.Machine
