import Mathlib.Data.List.Nodup

/-!
# Linked lists in memory

`next a` is what the cell `a` links to: a cell, the end of the list, or nothing that can
be read. A list of cells is linked from its first cell to the end.
-/

namespace Moz

variable {α : Type*} {next next' : α → Option (Option α)}

inductive Linked (next : α → Option (Option α)) : Option α → List α → Prop
  | nil : Linked next none []
  | cons {a : α} {b : Option α} {l : List α} (hnext : next a = some b) (htail : Linked next b l) :
    Linked next (some a) (a :: l)

namespace Linked

theorem eq_none {start : Option α} (h : Linked next start []) : start = none := by
  cases h
  rfl

theorem cons_inv {start : Option α} {a : α} {l : List α} (h : Linked next start (a :: l)) :
    ∃ b, start = some a ∧ next a = some b ∧ Linked next b l := by
  cases h with
  | cons hnext htail => exact ⟨_, rfl, hnext, htail⟩

theorem congr {start : Option α} {l : List α} (h : Linked next start l)
    (heq : ∀ a ∈ l, next' a = next a) : Linked next' start l := by
  induction h with
  | nil => exact .nil
  | @cons a b l hnext htail ih =>
    have hrest : ∀ c ∈ l, next' c = next c := fun c hc => heq c (List.mem_cons_of_mem a hc)
    exact .cons ((heq a List.mem_cons_self).trans hnext) (ih hrest)

/-- Cells that are linked one after the other, in front of a linked list. -/
theorem range (cell : ℕ → α) {l : List α} (s n : ℕ)
    (hnext : ∀ i, s ≤ i → i < s + n → next (cell i) = some (some (cell (i + 1))))
    (h : Linked next (some (cell (s + n))) l) :
    Linked next (some (cell s)) ((List.range' s n).map cell ++ l) := by
  induction n generalizing s with
  | zero => exact h
  | succ n ih =>
    have hindex : s + (n + 1) = s + 1 + n := by omega
    rw [hindex] at h
    have htail : ∀ i, s + 1 ≤ i → i < s + 1 + n → next (cell i) = some (some (cell (i + 1))) :=
      fun i hle hlt => hnext i (by omega) (by omega)
    exact .cons (hnext s (Nat.le_refl s) (by omega)) (ih (s + 1) htail h)

end Linked

end Moz
