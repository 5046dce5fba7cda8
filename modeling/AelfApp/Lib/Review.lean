import AelfApp.Lib.Machine

/-!
Reviewing a request page by page, and granting it once. The reader moves
between neighbouring pages and may leave at any time; a grant is given behind
the last page and nowhere else. From these rules for a single turn it follows
what the log before a grant looks like.
-/

namespace AelfApp.Review

open Machine

variable {ε ρ : Type}

/-- Where the reader is: at a step of a request, or nowhere. -/
inductive Phase (ρ : Type) where
  | away
  | reading (request : ρ) (step : Nat)

/-- How the entries of a log are seen. The steps of a request before `pages`
are its pages. -/
structure View (ε ρ : Type) where
  opens : ρ → ε → Prop
  grants : ρ → ε → Prop
  /-- The phase in which the entry leaves the reader. -/
  phase : ε → Phase ρ
  pages : ρ → Nat

/-- How a turn that neither opens nor grants anything moves the reader. -/
inductive Moves : Phase ρ → Phase ρ → Prop where
  | stayed (phase : Phase ρ) : Moves phase phase
  | forward (request : ρ) (step : Nat) :
      Moves (.reading request step) (.reading request (step + 1))
  | back (request : ρ) (step : Nat) : Moves (.reading request (step + 1)) (.reading request step)
  | left (phase : Phase ρ) : Moves phase .away

/-- The rules for one turn. -/
inductive Turn (view : View ε ρ) (phase : Phase ρ) (e : ε) : Prop where
  | opened (request : ρ) (hopens : view.opens request e)
      (hgrants : ∀ other, ¬ view.grants other e) (hafter : view.phase e = .reading request 0)
  | granted (request : ρ) (hopens : ∀ other, ¬ view.opens other e)
      (hgrants : view.grants request e)
      (hbefore : phase = .reading request (view.pages request)) (hafter : view.phase e = .away)
  | quiet (hopens : ∀ other, ¬ view.opens other e) (hgrants : ∀ other, ¬ view.grants other e)
      (hmoves : Moves phase (view.phase e))

/-- A log whose turns obey the rules, and the phase it ends in. -/
inductive Obeys (view : View ε ρ) : List ε → Phase ρ → Prop where
  | nil : Obeys view [] .away
  | snoc {log : List ε} {phase : Phase ρ} (h : Obeys view log phase) (e : ε)
      (hturn : Turn view phase e) : Obeys view (log ++ [e]) (view.phase e)

/-- The log ends with the opening of the request and turns that have led to
every step up to this one, the last of them to this step. -/
structure Walked (view : View ε ρ) (log : List ε) (request : ρ) (step : Nat) (opening : ε)
    (walked : List ε) : Prop where
  log_eq : ∃ earlier, log = earlier ++ opening :: walked
  opens : view.opens request opening
  opening_phase : view.phase opening = .reading request 0
  quiet : ∀ e ∈ walked, ∀ other, ¬ view.opens other e ∧ ¬ view.grants other e
  same : ∀ e ∈ walked, ∃ i, view.phase e = .reading request i
  visited : ∀ i ≤ step, ∃ e ∈ opening :: walked, view.phase e = .reading request i
  last : (opening :: walked).getLast?.map view.phase = some (.reading request step)

namespace Walked

variable {view : View ε ρ} {log walked : List ε} {request : ρ} {step : Nat} {opening e : ε}

/-- A quiet turn to a step of the same request. -/
theorem snoc (h : Walked view log request step opening walked)
    (hopens : ∀ other, ¬ view.opens other e) (hgrants : ∀ other, ¬ view.grants other e)
    {next : Nat} (hphase : view.phase e = .reading request next) (hnext : next ≤ step + 1) :
    Walked view (log ++ [e]) request next opening (walked ++ [e]) where
  log_eq := by
    obtain ⟨earlier, rfl⟩ := h.log_eq
    exact ⟨earlier, by simp⟩
  opens := h.opens
  opening_phase := h.opening_phase
  quiet := forall_mem_snoc h.quiet fun other => ⟨hopens other, hgrants other⟩
  same := forall_mem_snoc h.same ⟨next, hphase⟩
  visited := by
    intro i hi
    rcases Nat.lt_or_ge step i with hlast | hold
    · obtain rfl : i = next := by omega
      exact ⟨e, by simp, hphase⟩
    · obtain ⟨other, member, hother⟩ := h.visited i hold
      refine ⟨other, ?_, hother⟩
      rw [← List.cons_append]
      exact List.mem_append_left _ member
  last := by
    rw [← List.cons_append, List.getLast?_concat, Option.map_some, hphase]

end Walked

section Logs

variable {view : View ε ρ} {log : List ε} {phase : Phase ρ}

/-- Whoever reads a request has walked to its step since the request was opened. -/
theorem Obeys.walked (h : Obeys view log phase) {request : ρ} {step : Nat}
    (hphase : phase = .reading request step) :
    ∃ opening walked, Walked view log request step opening walked := by
  induction h generalizing request step with
  | nil => cases hphase
  | snoc hlog e hturn ih =>
      cases hturn with
      | opened other hopens hgrants hafter =>
          obtain ⟨rfl, rfl⟩ : other = request ∧ 0 = step := by
            simpa [hafter] using hphase
          refine ⟨e, [], ⟨_, rfl⟩, hopens, hafter, by simp, by simp, ?_, by simp [hafter]⟩
          intro i hi
          obtain rfl := Nat.le_zero.mp hi
          exact ⟨e, by simp, hafter⟩
      | granted other hopens hgrants hbefore hafter =>
          rw [hafter] at hphase
          cases hphase
      | quiet hopens hgrants hmoves =>
          rw [hphase] at hmoves
          -- The step before is the same one or a neighbour.
          cases hmoves with
          | stayed =>
              obtain ⟨opening, walked, hwalked⟩ := ih rfl
              exact ⟨opening, _, hwalked.snoc hopens hgrants hphase (Nat.le_succ _)⟩
          | forward _ before =>
              obtain ⟨opening, walked, hwalked⟩ := ih rfl
              exact ⟨opening, _, hwalked.snoc hopens hgrants hphase le_rfl⟩
          | back =>
              obtain ⟨opening, walked, hwalked⟩ := ih rfl
              exact ⟨opening, _, hwalked.snoc hopens hgrants hphase (by omega)⟩

/-- The part of a log before one of its entries obeys the rules, too, and so
does the entry. -/
theorem Obeys.split (h : Obeys view log phase) {before after : List ε} {e : ε}
    (hlog : log = before ++ e :: after) :
    ∃ phase', Obeys view before phase' ∧ Turn view phase' e := by
  induction h generalizing after with
  | nil => simp at hlog
  | snoc hbefore last hturn ih =>
      rcases List.eq_nil_or_concat after with rfl | ⟨front, other, rfl⟩
      · obtain ⟨rfl, hlast⟩ := List.append_inj' hlog rfl
        cases hlast
        exact ⟨_, hbefore, hturn⟩
      · rw [List.concat_eq_append, ← List.cons_append, ← List.append_assoc] at hlog
        obtain ⟨hfront, -⟩ := List.append_inj' hlog rfl
        exact ih hfront

/-- Before every grant, its request was opened and the reader got behind the
last page; nothing else was opened or granted in between. -/
theorem Obeys.granted (h : Obeys view log phase) {before after : List ε} {e : ε} {request : ρ}
    (hlog : log = before ++ e :: after) (hgrants : view.grants request e) :
    ∃ request opening walked, view.grants request e ∧
      Walked view before request (view.pages request) opening walked := by
  obtain ⟨phase', hbefore, hturn⟩ := h.split hlog
  cases hturn with
  | opened _ _ hnot _ => exact absurd hgrants (hnot request)
  | quiet _ hnot _ => exact absurd hgrants (hnot request)
  | granted request' _ hgrants' hphase _ =>
      obtain ⟨opening, walked, hwalked⟩ := hbefore.walked hphase
      exact ⟨request', opening, walked, hgrants', hwalked⟩

end Logs

end AelfApp.Review
