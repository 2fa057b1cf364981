import Mathlib.Logic.Relation

/-!
# Simulation with steps that leave no trace

A step of the left system is followed by some steps of the right one, or by none.
What holds of one step is carried along a whole run, as long as the steps of the run
start in states for which it was shown. Functions that may fail are followed with
`Option.Rel`.
-/

namespace Moz.Simulation

open Relation (ReflTransGen)

variable {α β : Type*}

/-- A run whose steps start in states that satisfy `ok`. -/
inductive Run (step : α → α → Prop) (ok : α → Prop) (a : α) : α → Prop
  | refl : Run step ok a a
  | tail {a' a'' : α} (h : Run step ok a a') (hok : ok a') (hstep : step a' a'') :
      Run step ok a a''

/-- The right system can follow each step of the left one from a state that satisfies `ok`. -/
def Follows (stepL : α → α → Prop) (stepR : β → β → Prop) (ok : α → Prop) (rel : α → β → Prop) :
    Prop :=
  ∀ ⦃a a' b⦄, ok a → stepL a a' → rel a b → ∃ b', ReflTransGen stepR b b' ∧ rel a' b'

section Systems

variable {stepL : α → α → Prop} {stepR : β → β → Prop} {ok ok' : α → Prop} {rel : α → β → Prop}
  {a a' : α} {b : β}

theorem Run.mono (h : Run stepL ok a a') (hok : ∀ x, ok x → ok' x) : Run stepL ok' a a' := by
  induction h with
  | refl => exact .refl
  | tail _ hlast hstep ih => exact ih.tail (hok _ hlast) hstep

theorem Follows.run (h : Follows stepL stepR ok rel) (hrun : Run stepL ok a a') (hrel : rel a b) :
    ∃ b', ReflTransGen stepR b b' ∧ rel a' b' := by
  induction hrun with
  | refl => exact ⟨b, .refl, hrel⟩
  | tail _ hok hstep ih =>
    obtain ⟨b₁, hb₁, hrel₁⟩ := ih
    obtain ⟨b₂, hb₂, hrel₂⟩ := h hok hstep hrel₁
    exact ⟨b₂, hb₁.trans hb₂, hrel₂⟩

end Systems

/-- A run with the events of its steps. -/
inductive Trace {ε : Type*} (step : α → α → Prop) (event : α → List ε) : α → List ε → α → Prop
  | refl (a : α) : Trace step event a [] a
  | head {a a' a'' : α} {es : List ε} (hstep : step a a') (h : Trace step event a' es a'') :
      Trace step event a (event a ++ es) a''

section Events

variable {ε : Type*} {step : α → α → Prop} {event : α → List ε} {a a' a'' : α} {es es' : List ε}

theorem Trace.single (hstep : step a a') : Trace step event a (event a) a' := by
  have htrace : Trace step event a (event a ++ []) a' := .head hstep (.refl a')
  rwa [List.append_nil] at htrace

/-- A step without an event. -/
theorem Trace.silent (hstep : step a a') (hevent : event a = []) (h : Trace step event a' es a'') :
    Trace step event a es a'' := by
  have htrace := Trace.head hstep h
  rwa [hevent] at htrace

theorem Trace.trans (h : Trace step event a es a') (h' : Trace step event a' es' a'') :
    Trace step event a (es ++ es') a'' := by
  induction h with
  | refl => exact h'
  | head hstep _ ih =>
    rw [List.append_assoc]
    exact .head hstep (ih h')

theorem Trace.reaches (h : Trace step event a es a') : ReflTransGen step a a' := by
  induction h with
  | refl => exact .refl
  | head hstep _ ih => exact .head hstep ih

theorem exists_trace (event : α → List ε) (h : ReflTransGen step a a') :
    ∃ es, Trace step event a es a' := by
  induction h using ReflTransGen.head_induction_on with
  | refl => exact ⟨[], .refl a'⟩
  | head hstep _ ih =>
    obtain ⟨es, htrace⟩ := ih
    exact ⟨_, .head hstep htrace⟩

end Events

/-- Two systems that follow each other with the same events. What has come out in a state comes out
of the other system as well, after steps without events. -/
structure Bisimulation {γ ε : Type*} (stepL : α → α → Prop) (stepR : β → β → Prop)
    (eventL : α → List ε) (eventR : β → List ε) (outL : α → γ → Prop) (outR : β → γ → Prop)
    (rel : α → β → Prop) : Prop where
  forth : ∀ ⦃a a' b⦄, stepL a a' → rel a b → ∃ b', Trace stepR eventR b (eventL a) b' ∧ rel a' b'
  back : ∀ ⦃a b b'⦄, stepR b b' → rel a b → ∃ a', Trace stepL eventL a (eventR b) a' ∧ rel a' b'
  outForth : ∀ ⦃a b r⦄, outL a r → rel a b → ∃ b', Trace stepR eventR b [] b' ∧ outR b' r
  outBack : ∀ ⦃a b r⦄, outR b r → rel a b → ∃ a', Trace stepL eventL a [] a' ∧ outL a' r

namespace Bisimulation

variable {γ ε : Type*} {stepL : α → α → Prop} {stepR : β → β → Prop} {eventL : α → List ε}
  {eventR : β → List ε} {outL : α → γ → Prop} {outR : β → γ → Prop} {rel : α → β → Prop} {a a' : α}
  {b : β} {r : γ} {es : List ε}

theorem symm (h : Bisimulation stepL stepR eventL eventR outL outR rel) :
    Bisimulation stepR stepL eventR eventL outR outL fun b a => rel a b where
  forth _ _ _ hstep hrel := h.back hstep hrel
  back _ _ _ hstep hrel := h.forth hstep hrel
  outForth _ _ _ hout hrel := h.outBack hout hrel
  outBack _ _ _ hout hrel := h.outForth hout hrel

/-- A run is followed with its events. -/
theorem follow (h : Bisimulation stepL stepR eventL eventR outL outR rel)
    (htrace : Trace stepL eventL a es a') (hrel : rel a b) :
    ∃ b', Trace stepR eventR b es b' ∧ rel a' b' := by
  induction htrace generalizing b with
  | refl => exact ⟨b, .refl b, hrel⟩
  | head hstep _ ih =>
    obtain ⟨b₁, hb₁, hrel₁⟩ := h.forth hstep hrel
    obtain ⟨b₂, hb₂, hrel₂⟩ := ih hrel₁
    exact ⟨b₂, hb₁.trans hb₂, hrel₂⟩

theorem trace_iff (h : Bisimulation stepL stepR eventL eventR outL outR rel) (hrel : rel a b)
    (es : List ε) : (∃ a', Trace stepL eventL a es a') ↔ ∃ b', Trace stepR eventR b es b' := by
  constructor
  · rintro ⟨a', ha'⟩
    obtain ⟨b', hb', -⟩ := h.follow ha' hrel
    exact ⟨b', hb'⟩
  · rintro ⟨b', hb'⟩
    obtain ⟨a', ha', -⟩ := h.symm.follow hb' hrel
    exact ⟨a', ha'⟩

theorem result (h : Bisimulation stepL stepR eventL eventR outL outR rel) (hrel : rel a b)
    (hresult : ∃ a', Trace stepL eventL a es a' ∧ outL a' r) :
    ∃ b', Trace stepR eventR b es b' ∧ outR b' r := by
  obtain ⟨a', htrace, hout⟩ := hresult
  obtain ⟨b₁, hb₁, hrel₁⟩ := h.follow htrace hrel
  obtain ⟨b₂, hb₂, hout₂⟩ := h.outForth hout hrel₁
  refine ⟨b₂, ?_, hout₂⟩
  simpa using hb₁.trans hb₂

theorem result_iff (h : Bisimulation stepL stepR eventL eventR outL outR rel) (hrel : rel a b)
    (es : List ε) (r : γ) : (∃ a', Trace stepL eventL a es a' ∧ outL a' r) ↔
      ∃ b', Trace stepR eventR b es b' ∧ outR b' r :=
  ⟨h.result hrel, h.symm.result hrel⟩

end Bisimulation

section Fallible

variable {γ δ : Type*} {r : α → β → Prop} {r' : γ → δ → Prop}

theorem rel_bind {x : Option α} {y : Option β} {f : α → Option γ} {f' : β → Option δ}
    (h : Option.Rel r x y) (hf : ∀ a b, r a b → Option.Rel r' (f a) (f' b)) :
    Option.Rel r' (x.bind f) (y.bind f') := by
  cases h with
  | some h => exact hf _ _ h
  | none => exact .none

/-- A loop over a list is followed by the loop over the images of its elements. -/
theorem rel_foldlM {step : α → γ → Option α} {step' : β → δ → Option β} {f : γ → δ} (cs : List γ)
    (h : ∀ c ∈ cs, ∀ a b, r a b → Option.Rel r (step a c) (step' b (f c))) {a : α} {b : β}
    (hab : r a b) : Option.Rel r (cs.foldlM step a) ((cs.map f).foldlM step' b) := by
  induction cs generalizing a b with
  | nil => exact .some hab
  | cons c cs ih =>
    rw [List.map_cons, List.foldlM_cons, List.foldlM_cons]
    apply rel_bind (h c List.mem_cons_self a b hab)
    intro a' b' hab'
    exact ih (fun c hc => h c (List.mem_cons_of_mem _ hc)) hab'

end Fallible

end Moz.Simulation
