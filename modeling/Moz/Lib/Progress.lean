import Mathlib.Computability.StateTransition

/-!
# Loops that make progress

A deterministic system goes round a loop: from every head it comes to a head again
or to an exit. If a rank goes up with each round and stays below a bound, the exit
is reached; if a set of states is closed and has no exit in it, it is not.
-/

namespace Progress

open StateTransition

variable {σ : Type} {f : σ → Option σ} {Head Exit : σ → Prop}

theorem exits (rank : σ → ℕ) (bound : ℕ) {s₀ : σ} (h₀ : Head s₀)
    (hround : ∀ s, Reaches f s₀ s → Head s →
      (∃ s', Reaches f s s' ∧ Exit s') ∨
        ∃ s', Reaches f s s' ∧ Head s' ∧ rank s < rank s' ∧ rank s' ≤ bound) :
    ∃ s, Reaches f s₀ s ∧ Exit s := by
  have hall : ∀ n s, Reaches f s₀ s → Head s → bound - rank s ≤ n →
      ∃ s', Reaches f s s' ∧ Exit s' := by
    intro n
    induction n with
    | zero =>
      intro s hs hhead hn
      obtain hexit | ⟨s', -, -, hup, hbound⟩ := hround s hs hhead
      · exact hexit
      · omega
    | succ n ih =>
      intro s hs hhead hn
      obtain hexit | ⟨s', hs', hhead', hup, hbound⟩ := hround s hs hhead
      · exact hexit
      · obtain ⟨t, ht, hexit⟩ := ih s' (hs.trans hs') hhead' (by omega)
        exact ⟨t, hs'.trans ht, hexit⟩
  exact hall (bound - rank s₀) s₀ .refl h₀ le_rfl

/-- What holds at the start and after each step holds of all that is reached. -/
theorem invariant {P : σ → Prop} (hstep : ∀ s s', P s → f s = some s' → P s') {s₀ s : σ}
    (h₀ : P s₀) (hs : Reaches f s₀ s) : P s := by
  induction hs with
  | refl => exact h₀
  | tail _ h ih => exact hstep _ _ ih h

theorem reaches_iterate (n : ℕ) {s t : σ} (h : (fun o => o.bind f)^[n] (some s) = some t) :
    Reaches f s t := by
  induction n generalizing s with
  | zero =>
    cases h
    exact .refl
  | succ n ih =>
    rw [Function.iterate_succ_apply, Option.bind_some] at h
    cases hstep : f s with
    | none =>
      rw [hstep, Function.iterate_fixed (by rfl)] at h
      cases h
    | some u =>
      rw [hstep] at h
      exact .head hstep (ih h)

/-- The states of a run, at most `n` of them. -/
def trace (f : σ → Option σ) : ℕ → σ → List σ
  | 0, _ => []
  | n + 1, s => s :: (f s).elim [] (trace f n)

/-- A run with less than `n` states has come to its end. -/
theorem reaches_iff_mem_trace {n : ℕ} {s t : σ} (hlength : (trace f n s).length < n) :
    Reaches f s t ↔ t ∈ trace f n s := by
  induction n generalizing s with
  | zero => cases hlength
  | succ n ih =>
    rw [trace, List.mem_cons, eq_comm (a := t), Reaches, Relation.ReflTransGen.cases_head_iff]
    cases hstep : f s with
    | none => simp
    | some u =>
      have hu : Reaches f u t ↔ t ∈ trace f n u := ih (by simpa [trace, hstep] using hlength)
      simp only [Option.mem_def, Option.some.injEq, exists_eq_left', Option.elim_some]
      exact or_congr_right hu

/-- Induction along a run that stops: what holds of a state if it holds of all later ones. -/
theorem halting_induct {P : σ → Prop} {s t : σ} (hstop : f t = none) (hs : Reaches f s t)
    (hind : ∀ s, Reaches f s t → (∀ u, Reaches₁ f s u → Reaches f u t → P u) → P s) : P s := by
  have hall : ∀ u, Reaches f u t → (∀ v, Reaches₁ f u v → Reaches f v t → P v) ∧ P u := by
    intro u hu
    induction hu using Relation.ReflTransGen.head_induction_on with
    | refl =>
      have hlater : ∀ v, Reaches₁ f t v → Reaches f v t → P v := by
        intro v hv
        obtain ⟨w, hw, -⟩ := Relation.TransGen.head'_iff.1 hv
        rw [Option.mem_def, hstop] at hw
        cases hw
      exact ⟨hlater, hind t .refl hlater⟩
    | @head u w hw hwt ih =>
      have hlater : ∀ v, Reaches₁ f u v → Reaches f v t → P v := by
        intro v hv hvt
        obtain ⟨w', hw', hv'⟩ := Relation.TransGen.head'_iff.1 hv
        obtain rfl := Option.mem_unique hw hw'
        obtain rfl | htrans := Relation.reflTransGen_iff_eq_or_transGen.1 hv'
        · exact ih.2
        · exact ih.1 v htrans hvt
      exact ⟨hlater, hind u (.head hw hwt) hlater⟩
  exact (hall s hs).2

/-- A run that stops goes round a loop finitely often: what holds of the last head, and of a head
if it holds of the next, holds of the first. -/
theorem stopped {P : σ → Prop} {s t : σ} (hstop : f t = none)
    (hround : ∀ s, Head s → Reaches f s t → P s ∨ ∃ s', Reaches₁ f s s' ∧ Head s' ∧ (P s' → P s))
    (hs : Head s) (ht : Reaches f s t) : P s := by
  have hall : ∀ u, Reaches f u t → ∀ v, Reaches f u v → Head v → P v := by
    intro u hu
    induction hu using Relation.ReflTransGen.head_induction_on with
    | refl =>
      intro v hv hhead
      obtain rfl | ⟨w, hw, -⟩ := hv.cases_head
      · obtain hP | ⟨v', hv', -⟩ := hround t hhead .refl
        · exact hP
        · obtain ⟨w, hw, -⟩ := Relation.TransGen.head'_iff.1 hv'
          rw [Option.mem_def, hstop] at hw
          cases hw
      · rw [Option.mem_def, hstop] at hw
        cases hw
    | @head u w hw hwt ih =>
      have hnext : ∀ v, Reaches₁ f u v → Reaches f w v := by
        intro v hv
        obtain ⟨w', hw', hv'⟩ := Relation.TransGen.head'_iff.1 hv
        obtain rfl := Option.mem_unique hw hw'
        exact hv'
      intro v hv hhead
      obtain rfl | htrans := Relation.reflTransGen_iff_eq_or_transGen.1 hv
      · obtain hP | ⟨v', hv', hhead', himp⟩ := hround _ hhead (.head hw hwt)
        · exact hP
        · exact himp (ih v' (hnext v' hv') hhead')
      · exact ih v (hnext v htrans) hhead
  exact hall s ht s .refl hs

end Progress
