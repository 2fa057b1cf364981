import Mathlib.Data.List.Basic
import Mathlib.Logic.Relation
import Mathlib.Tactic

/-!
# Sweeping over instructions of different lengths

A sweep reads the opcode at its position, may rewrite the instruction there, and
moves on by the size of the opcode; at an unknown opcode it moves back by one. It
gets through exactly the buffers that consist of whole instructions.
-/

namespace Moz.Sweep

variable {β : Type} (size : β → Option ℕ)

/-- The buffer is a sequence of whole instructions. -/
inductive Tiles : List β → Prop
  | nil : Tiles []
  | cons {opcode : β} {operands rest : List β} (h : size opcode = some (operands.length + 1))
      (ht : Tiles rest) : Tiles (opcode :: (operands ++ rest))

/-- Only the `n` bytes from `j` on may differ. -/
structure Rewrites (j n : ℕ) (buf buf' : List β) : Prop where
  length : buf'.length = buf.length
  outside : ∀ k, k < j ∨ j + n ≤ k → buf'[k]? = buf[k]?

/-- A round of the sweep at a position inside the buffer. -/
inductive Step : List β × ℤ → List β × ℤ → Prop
  | known {buf buf' : List β} {j n : ℕ} {opcode : β} (hget : buf[j]? = some opcode)
      (hsize : size opcode = some n) (hrewrites : Rewrites j n buf buf') :
      Step (buf, j) (buf', (j : ℤ) + n)
  | unknown {buf : List β} {j : ℕ} {opcode : β} (hget : buf[j]? = some opcode)
      (hsize : size opcode = none) : Step (buf, j) (buf, (j : ℤ) - 1)

/-- Every round moves on, there is an end of rounds, and it is the end of the buffer. -/
structure Ends (buf : List β) : Prop where
  advances : ∀ s, Relation.ReflTransGen (Step size) (buf, 0) s → ∀ s', Step size s s' → s.2 < s'.2
  stops : ∀ s, Relation.ReflTransGen (Step size) (buf, 0) s → (s.1.length : ℤ) ≤ s.2 →
    s.2 = s.1.length
  finite : Acc (fun s' s => Step size s s') (buf, 0)

section Tiles

variable {size} {buf buf' pre rest : List β} {opcode : β} {j n : ℕ}

theorem Rewrites.refl (j n : ℕ) (buf : List β) : Rewrites j n buf buf := ⟨rfl, fun _ _ => rfl⟩

theorem Rewrites.trans {buf₂ : List β} (h : Rewrites j n buf buf') (h' : Rewrites j n buf' buf₂) :
    Rewrites j n buf buf₂ where
  length := h'.length.trans h.length
  outside k hk := (h'.outside k hk).trans (h.outside k hk)

theorem Rewrites.drop (h : Rewrites j n buf buf') : buf'.drop (j + n) = buf.drop (j + n) := by
  apply List.ext_getElem?
  intro k
  rw [List.getElem?_drop, List.getElem?_drop, h.outside _ (.inr (Nat.le_add_right _ _))]

theorem tiles_cons_iff : Tiles size (opcode :: rest) ↔
    ∃ n, size opcode = some (n + 1) ∧ n ≤ rest.length ∧ Tiles size (rest.drop n) := by
  constructor
  · intro h
    generalize hbuf : opcode :: rest = buf at h
    cases h with
    | nil => cases hbuf
    | @cons opcode' operands rest' hsize ht =>
      cases hbuf
      refine ⟨operands.length, hsize, by simp, ?_⟩
      rwa [List.drop_left]
  · rintro ⟨n, hsize, hle, ht⟩
    have hlength : (rest.take n).length = n := List.length_take_of_le hle
    rw [← List.take_append_drop n rest]
    exact .cons (by rw [hsize, hlength]) ht

theorem not_tiles_of_unknown (h : size opcode = none) : ¬Tiles size (opcode :: rest) := by
  intro ht
  obtain ⟨n, hsize, -⟩ := tiles_cons_iff.1 ht
  rw [h] at hsize
  cases hsize

theorem Tiles.append_iff (h : Tiles size pre) : Tiles size (pre ++ rest) ↔ Tiles size rest := by
  induction h with
  | nil => rfl
  | @cons opcode operands rest' hsize _ ih =>
    rw [List.cons_append, List.append_assoc, tiles_cons_iff, ← ih]
    constructor
    · rintro ⟨n, hsize', -, ht⟩
      have hn : operands.length = n := by
        rw [hsize] at hsize'
        exact Nat.succ.inj (Option.some.inj hsize')
      rwa [← hn, List.drop_left] at ht
    · intro ht
      refine ⟨operands.length, hsize, by simp, ?_⟩
      rwa [List.drop_left]

theorem Tiles.append (h : Tiles size pre) (h' : Tiles size rest) : Tiles size (pre ++ rest) :=
  h.append_iff.2 h'

theorem tiles_single {operands : List β} (h : size opcode = some (operands.length + 1)) :
    Tiles size (opcode :: operands) := by
  rw [← List.append_nil operands]
  exact .cons h .nil

theorem tiles_drop_iff (hget : buf[j]? = some opcode) : Tiles size (buf.drop j) ↔
    ∃ n, size opcode = some (n + 1) ∧ j + (n + 1) ≤ buf.length ∧
      Tiles size (buf.drop (j + (n + 1))) := by
  obtain ⟨hlt, hopcode⟩ := List.getElem?_eq_some_iff.1 hget
  rw [List.drop_eq_getElem_cons hlt, hopcode, tiles_cons_iff]
  refine exists_congr fun n => and_congr_right fun _ => and_congr ?_ ?_
  · rw [List.length_drop]
    omega
  · rw [List.drop_drop, Nat.add_assoc, Nat.add_comm 1 n]

end Tiles

/-- A position between instructions, with whole instructions from there on. -/
structure Between (buf : List β) (s : List β × ℤ) : Prop where
  length : s.1.length = buf.length
  place : ∃ j : ℕ, s.2 = j ∧ j ≤ buf.length ∧ Tiles size (s.1.drop j)

section Ends

variable {size} {buf : List β} {s s' : List β × ℤ}

theorem Between.step (h : Between size buf s) (hstep : Step size s s') :
    Between size buf s' ∧ s.2 < s'.2 := by
  obtain ⟨hlength, j, hj, hle, ht⟩ := h
  cases hstep with
  | @known buf₁ buf₂ j' n opcode hget hsize hrewrites =>
    have hjj : j' = j := Int.ofNat.inj hj
    subst hjj
    obtain ⟨m, hsize', hend, ht'⟩ := (tiles_drop_iff hget).1 ht
    have hn : n = m + 1 := Option.some.inj (hsize.symm.trans hsize')
    subst hn
    dsimp only at hlength hend
    refine ⟨⟨hrewrites.length.trans hlength, j' + (m + 1), by push_cast; rfl, by omega, ?_⟩, ?_⟩
    · rw [hrewrites.drop]
      exact ht'
    · show (j' : ℤ) < (j' : ℤ) + ((m + 1 : ℕ) : ℤ)
      omega
  | @unknown buf₁ j' opcode hget hsize =>
    have hjj : j' = j := Int.ofNat.inj hj
    subst hjj
    obtain ⟨m, hsize', -⟩ := (tiles_drop_iff hget).1 ht
    rw [hsize] at hsize'
    cases hsize'

theorem Between.run (h : Between size buf s) (hrun : Relation.ReflTransGen (Step size) s s') :
    Between size buf s' := by
  induction hrun with
  | refl => exact h
  | tail _ hstep ih => exact (ih.step hstep).1

/-- The sweep of whole instructions ends, as each round leaves less of the buffer. -/
theorem Between.finite (h : Between size buf s) : Acc (fun s' s => Step size s s') s := by
  obtain ⟨k, hk⟩ : ∃ k : ℕ, (buf.length : ℤ) - s.2 ≤ k := ⟨((buf.length : ℤ) - s.2).toNat, by omega⟩
  induction k generalizing s with
  | zero =>
    apply Acc.intro
    intro s' hstep
    obtain ⟨hnext, hlt⟩ := h.step hstep
    obtain ⟨j, hj, hle, -⟩ := hnext.place
    omega
  | succ k ih =>
    apply Acc.intro
    intro s' hstep
    obtain ⟨hnext, hlt⟩ := h.step hstep
    exact ih hnext (by push_cast at hk; omega)

/-- Where the sweep gets to without rewriting anything there are whole instructions from there on. -/
theorem Ends.tiles_drop (h : Ends size buf) (hpos : ∀ opcode, size opcode ≠ some 0) {j : ℕ}
    (hreach : Relation.ReflTransGen (Step size) (buf, 0) (buf, (j : ℤ))) :
    Tiles size (buf.drop j) := by
  obtain ⟨k, hk⟩ : ∃ k : ℕ, buf.length - j ≤ k := ⟨_, le_rfl⟩
  induction k generalizing j with
  | zero =>
    rw [List.drop_eq_nil_of_le (by omega)]
    exact .nil
  | succ k ih =>
    cases hget : buf[j]? with
    | none =>
      rw [List.drop_eq_nil_of_le (List.getElem?_eq_none_iff.1 hget)]
      exact .nil
    | some opcode =>
      cases hsize : size opcode with
      | none =>
        have hback := h.advances _ hreach _ (.unknown hget hsize)
        dsimp only at hback
        omega
      | some n =>
        obtain ⟨m, rfl⟩ : ∃ m, n = m + 1 := Nat.exists_eq_succ_of_ne_zero fun hzero =>
          hpos opcode (hzero ▸ hsize)
        have hnext : Relation.ReflTransGen (Step size) (buf, 0) (buf, ((j + (m + 1) : ℕ) : ℤ)) := by
          have hstep := hreach.tail (.known hget hsize (.refl j (m + 1) buf))
          push_cast at hstep ⊢
          exact hstep
        obtain ⟨hlt, -⟩ := List.getElem?_eq_some_iff.1 hget
        -- an instruction that is cut off would take the sweep beyond the end
        have hend : j + (m + 1) ≤ buf.length := by
          by_contra hbeyond
          have hstop := h.stops _ hnext (by dsimp only; omega)
          dsimp only at hstop
          omega
        exact (tiles_drop_iff hget).2 ⟨m, hsize, hend, ih hnext (by omega)⟩

/-- A sweep advances to the end of a buffer exactly when the buffer consists of whole
instructions. -/
theorem ends_iff (hpos : ∀ opcode, size opcode ≠ some 0) : Ends size buf ↔ Tiles size buf := by
  constructor
  · intro h
    exact @Ends.tiles_drop _ _ _ h hpos 0 .refl
  · intro ht
    have hstart : Between size buf (buf, 0) := ⟨rfl, 0, rfl, Nat.zero_le _, ht⟩
    constructor
    · intro s hreach s' hstep
      exact ((hstart.run hreach).step hstep).2
    · intro s hreach hend
      obtain ⟨hlength, j, hj, hle, -⟩ := hstart.run hreach
      omega
    · exact hstart.finite

end Ends

end Moz.Sweep
