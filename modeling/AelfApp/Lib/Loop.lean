import Mathlib.Tactic

/-!
A loop that runs as long as a condition holds, with the passes it makes. A
measure that every pass makes smaller bounds them.
-/

namespace AelfApp.Loop

variable {σ : Type} {going : σ → Prop} {body : σ → σ} {n : Nat} {s s' : σ}

/-- From `s`, the loop makes `n` passes and ends in `s'`. -/
inductive Runs (going : σ → Prop) (body : σ → σ) : Nat → σ → σ → Prop where
  | ended {s : σ} (h : ¬ going s) : Runs going body 0 s s
  | pass {n : Nat} {s s' : σ} (h : going s) (hrest : Runs going body n (body s) s') :
      Runs going body (n + 1) s s'

/-- The loop ends only where its condition fails. -/
theorem Runs.not_going (h : Runs going body n s s') : ¬ going s' := by
  induction h with
  | ended h => exact h
  | pass _ _ ih => exact ih

/-- What the passes keep holds where each of them begins, and at the end. -/
theorem Runs.keeps {inv : σ → Prop} (h : Runs going body n s s')
    (hkeeps : ∀ s, inv s → going s → inv (body s)) (hinv : inv s) :
    inv s' ∧ ∀ k < n, inv (body^[k] s) ∧ going (body^[k] s) := by
  induction h with
  | ended _ => exact ⟨hinv, fun k hk => absurd hk (Nat.not_lt_zero k)⟩
  | pass hgoing _ ih =>
      obtain ⟨hend, hbefore⟩ := ih (hkeeps _ hinv hgoing)
      refine ⟨hend, fun k hk => ?_⟩
      cases k with
      | zero => exact ⟨hinv, hgoing⟩
      | succ k => exact hbefore k (by omega)

/-- A loop whose passes make the measure smaller ends, and its passes and what
is left of the measure are no more than the measure at the start. -/
theorem exists_runs (measure : σ → Nat) {inv : σ → Prop}
    (hkeeps : ∀ s, inv s → going s → inv (body s))
    (hless : ∀ s, inv s → going s → measure (body s) < measure s) (hinv : inv s) :
    ∃ n s', Runs going body n s s' ∧ n + measure s' ≤ measure s := by
  induction hm : measure s using Nat.strong_induction_on generalizing s with
  | _ m ih =>
      subst hm
      by_cases hgoing : going s
      · have hsmaller := hless s hinv hgoing
        obtain ⟨n, s', hruns, hn⟩ := ih (measure (body s)) hsmaller (hkeeps s hinv hgoing) rfl
        exact ⟨n + 1, s', .pass hgoing hruns, by omega⟩
      · exact ⟨0, s, .ended hgoing, by omega⟩

end AelfApp.Loop
