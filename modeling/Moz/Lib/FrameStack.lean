import Mathlib.Tactic

/-!
# Frames on one stack

Frames of one width lie on a stack of cells. The first cell of a frame is a link
to the frame below it; the other cells are slots. A chain is what is found by
following the links from the top frame. Writing above the top frame keeps a
chain, pushing puts a frame on it, and popping is the inversion of `Chain.cons`.
-/

namespace Moz.FrameStack

variable {α : Type}

structure Frame (α : Type) where
  base : ℕ
  prev : ℕ
  slots : List α

/-- The cells of the frame, where `link` is how an index is stored in a cell. -/
structure Frame.Holds (link : ℕ → α) (stack : ℕ → α) (f : Frame α) : Prop where
  prev : stack f.base = link f.prev
  slots : ∀ i a, f.slots[i]? = some a → stack (f.base + 1 + i) = a

/-- The frames of width `w` from the one at `fp` on; the last one links to no frame. -/
inductive Chain (link : ℕ → α) (stack : ℕ → α) (w : ℕ) : ℕ → List (Frame α) → Prop
  | nil (fp : ℕ) : Chain link stack w fp []
  | cons {f : Frame α} {fs : List (Frame α)} (hold : f.Holds link stack)
      (width : f.slots.length + 1 = w) (above : fs ≠ [] → f.prev + w ≤ f.base)
      (rest : Chain link stack w f.prev fs) : Chain link stack w f.base (f :: fs)

variable {link : ℕ → α} {stack stack' : ℕ → α} {w fp sp : ℕ} {f : Frame α} {fs : List (Frame α)}

theorem Frame.Holds.congr (h : f.Holds link stack)
    (heq : ∀ i < f.base + (f.slots.length + 1), stack' i = stack i) : f.Holds link stack' where
  prev := by rw [heq _ (by omega), h.prev]
  slots i a hi := by
    obtain ⟨hlt, -⟩ := List.getElem?_eq_some_iff.1 hi
    rw [heq _ (by omega), h.slots i a hi]

namespace Chain

theorem congr (h : Chain link stack w fp fs) (heq : fs ≠ [] → ∀ i < fp + w, stack' i = stack i) :
    Chain link stack' w fp fs := by
  induction h with
  | nil fp => exact .nil fp
  | cons hold width above rest ih =>
    have heq' := heq (List.cons_ne_nil _ _)
    refine .cons (hold.congr (by rwa [width])) width above (ih fun hne i hi => ?_)
    have := above hne
    exact heq' i (by omega)

theorem push (h : Chain link stack w fp fs) {slots : List α} (hwidth : slots.length + 1 = w)
    (habove : fs ≠ [] → fp + w ≤ sp) (heq : ∀ i < sp, stack' i = stack i)
    (hold : Frame.Holds link stack' ⟨sp, fp, slots⟩) :
    Chain link stack' w sp (⟨sp, fp, slots⟩ :: fs) := by
  refine @Chain.cons α link stack' w ⟨sp, fp, slots⟩ fs hold hwidth habove (h.congr ?_)
  intro hne i hi
  have := habove hne
  exact heq i (by omega)

end Chain

end Moz.FrameStack
