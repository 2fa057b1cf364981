import Mathlib.Order.Basic
import Mathlib.Tactic
import Moz.Vm1.Machine

/-!
# Choice points and marks

What lies on the stack of VM1: the frames of choice points, and between them
return addresses, positions and savepoints. An item is one of these together with
the state that was current when it was put there. A state comes after another one
when its position is not before the other's and its log and its symbol table only
have more entries.
-/

namespace Moz.Vm1

@[ext] structure Snap where
  current : ℕ
  logs : List AstLog
  table : List SymEntry

def Machine.snap (m : Machine) : Snap where
  current := m.current
  logs := m.ast.logs
  table := m.tbl.table

/-- One state is reached from another by moving on, logging and defining. -/
structure Snap.Before (s t : Snap) : Prop where
  current : s.current ≤ t.current
  logs : s.logs <+: t.logs
  table : s.table <+: t.table

instance : LE Snap := ⟨Snap.Before⟩

instance : Preorder Snap where
  le_refl s := ⟨le_rfl, List.prefix_rfl, List.prefix_rfl⟩
  le_trans _ _ _ h h' := ⟨h.current.trans h'.current, h.logs.trans h'.logs, h.table.trans h'.table⟩

/-- A frame; the `initial` one is pushed by `moz_runtime_parse_init`, the others by `Alt`. -/
structure Choice where
  initial : Bool
  snap : Snap
  target : ℤ
  base : ℕ
  fp : ℕ

inductive Item
  | ret (next : ℤ)
  | pos (snap : Snap)
  | tx (snap : Snap)
  | scope (snap : Snap)
  | choice (c : Choice)

def Item.snap : Item → Option Snap
  | .ret _ => none
  | .pos snap | .tx snap | .scope snap => some snap
  | .choice c => some c.snap

def Item.isRet : Item → Bool
  | .ret _ => true
  | .pos _ | .tx _ | .scope _ | .choice _ => false

def Item.isMark : Item → Bool
  | .choice _ => false
  | .ret _ | .pos _ | .tx _ | .scope _ => true

def Item.cell : Item → Option ℤ
  | .ret next => some next
  | .pos snap => some snap.current
  | .tx snap => some snap.logs.length
  | .scope snap => some snap.table.length
  | .choice _ => none

structure Choice.Cells (c : Choice) (stack : ℕ → ℤ) : Prop where
  fp : stack c.base = c.fp
  pos : stack (c.base + 1) = c.snap.current
  next : stack (c.base + 2) = c.target
  ast : stack (c.base + 3) = c.snap.logs.length
  symtbl : stack (c.base + 4) = c.snap.table.length

/-- The stack up to `sp`, with the top frame at `fp`, holds these items, the top one first. -/
inductive Holds (stack : ℕ → ℤ) : ℕ → ℕ → List Item → Prop
  | nil : Holds stack stackBase stackBase []
  | mark {sp fp : ℕ} {items : List Item} {item : Item} (h : Holds stack sp fp items)
      (hcell : item.cell = some (stack sp)) : Holds stack (sp + 1) fp (item :: items)
  | choice {items : List Item} {c : Choice} (h : Holds stack c.base c.fp items)
      (hcells : c.Cells stack) : Holds stack (c.base + fpMax) c.base (.choice c :: items)

namespace Holds

variable {stack stack' : ℕ → ℤ} {sp fp : ℕ} {items marks : List Item} {item : Item} {c : Choice}

theorem congr (h : Holds stack sp fp items) (heq : ∀ i < sp, stack' i = stack i) :
    Holds stack' sp fp items := by
  induction h with
  | nil => exact .nil
  | mark _ hcell ih =>
    refine .mark (ih fun i hi => heq i (by omega)) ?_
    rw [hcell, heq _ (Nat.lt_succ_self _)]
  | @choice items c h hcells ih =>
    have hlt : ∀ k < fpMax, stack' (c.base + k) = stack (c.base + k) := fun k hk =>
      heq _ (Nat.add_lt_add_left hk _)
    refine .choice (ih fun i hi => heq i (by omega)) ⟨?_, ?_, ?_, ?_, ?_⟩
    · exact (hlt 0 (by decide)).trans hcells.fp
    · exact (hlt 1 (by decide)).trans hcells.pos
    · exact (hlt 2 (by decide)).trans hcells.next
    · exact (hlt 3 (by decide)).trans hcells.ast
    · exact (hlt 4 (by decide)).trans hcells.symtbl

theorem top (h : Holds stack sp fp (item :: items)) (hitem : item.isMark) :
    item.cell = some (stack (sp - 1)) ∧ Holds stack (sp - 1) fp items := by
  cases h with
  | mark h hcell => exact ⟨hcell, h⟩
  | choice => cases hitem

theorem topChoice (h : Holds stack sp fp (.choice c :: items)) :
    sp = c.base + fpMax ∧ fp = c.base ∧ c.Cells stack ∧ Holds stack c.base c.fp items := by
  cases h with
  | mark _ hcell => cases hcell
  | choice h hcells => exact ⟨rfl, rfl, hcells, h⟩

theorem frame (h : Holds stack sp fp (marks ++ .choice c :: items))
    (hmarks : ∀ x ∈ marks, x.isMark) :
    fp = c.base ∧ fp + fpMax ≤ sp ∧ c.Cells stack ∧ Holds stack c.base c.fp items := by
  induction marks generalizing sp with
  | nil =>
    obtain ⟨hsp, hfp, hcells, hrest⟩ := h.topChoice
    exact ⟨hfp, by omega, hcells, hrest⟩
  | cons x marks ih =>
    obtain ⟨-, hrest⟩ := h.top (hmarks x (by simp))
    obtain ⟨hfp, hle, hcells⟩ := ih hrest fun y hy => hmarks y (by simp [hy])
    exact ⟨hfp, by omega, hcells⟩

theorem refresh (h : Holds stack sp fp (marks ++ .choice c :: items))
    (hmarks : ∀ x ∈ marks, x.isMark) {c' : Choice} (hbase : c'.base = c.base) (hfp : c'.fp = c.fp)
    (hbelow : ∀ i < fp, stack' i = stack i) (habove : ∀ i, fp + fpMax ≤ i → stack' i = stack i)
    (hcells : c'.Cells stack') : Holds stack' sp fp (marks ++ .choice c' :: items) := by
  induction marks generalizing sp with
  | nil =>
    obtain ⟨rfl, rfl, -, hrest⟩ := h.topChoice
    rw [← hbase, ← hfp] at hrest
    have hnew : Holds stack' (c'.base + fpMax) c'.base (.choice c' :: items) :=
      .choice (hrest.congr fun i hi => hbelow i (hbase ▸ hi)) hcells
    rwa [hbase] at hnew
  | cons x marks ih =>
    obtain ⟨-, hle, -⟩ := h.frame hmarks
    cases h with
    | mark h hcell =>
      obtain ⟨-, hle', -⟩ := h.frame fun y hy => hmarks y (by simp [hy])
      refine .mark (ih h fun y hy => hmarks y (by simp [hy])) ?_
      rw [hcell, habove _ hle']
    | choice => exact absurd (hmarks _ (List.mem_cons_self ..)) (by simp [Item.isMark])

end Holds

/-- The states of the items, top down, after the current one. -/
def snaps (s : Snap) (items : List Item) : List Snap := s :: items.filterMap Item.snap

def Ordered (s : Snap) (items : List Item) : Prop := (snaps s items).Pairwise fun s t => t ≤ s

namespace Ordered

variable {s t : Snap} {items items' marks : List Item} {item : Item} {c : Choice}

theorem grow (h : Ordered s items) (hle : s ≤ t) : Ordered t items := by
  obtain ⟨hs, hrest⟩ := List.pairwise_cons.1 h
  exact List.pairwise_cons.2 ⟨fun u hu => (hs u hu).trans hle, hrest⟩

theorem push (h : Ordered s items) (hitem : item.snap = some s) : Ordered s (item :: items) := by
  unfold Ordered snaps
  rw [List.filterMap_cons_some hitem]
  refine List.pairwise_cons.2 ⟨fun u hu => ?_, h⟩
  rcases List.mem_cons.1 hu with rfl | hu
  · exact le_rfl
  · exact (List.pairwise_cons.1 h).1 u hu

theorem append_rets (hmarks : ∀ x ∈ marks, x.isRet) :
    Ordered s (marks ++ items) ↔ Ordered s items := by
  have hnil : marks.filterMap Item.snap = [] := by
    refine List.filterMap_eq_nil_iff.2 fun x hx => ?_
    cases x with
    | ret next => rfl
    | pos | tx | scope | choice => exact absurd (hmarks _ hx) (by simp [Item.isRet])
  rw [Ordered, snaps, List.filterMap_append, hnil, List.nil_append]
  rfl

theorem pop (h : Ordered s (item :: items)) : Ordered s items :=
  List.Pairwise.sublist (((List.sublist_cons_self item items).filterMap _).cons_cons s) h

theorem pop_le (h : Ordered s (item :: items)) (hitem : item.snap = some t) : t ≤ s := by
  refine (List.pairwise_cons.1 h).1 t ?_
  rw [List.filterMap_cons_some hitem]
  exact List.mem_cons_self ..

theorem back (h : Ordered s (item :: items)) (hitem : item.snap = some t) : Ordered t items := by
  have hrest := (List.pairwise_cons.1 h).2
  rwa [List.filterMap_cons_some hitem] at hrest

theorem unwind (h : Ordered s (marks ++ .choice c :: items)) :
    c.snap ≤ s ∧ Ordered c.snap items := by
  have hcons : (Item.choice c :: items).filterMap Item.snap =
      c.snap :: items.filterMap Item.snap := rfl
  unfold Ordered snaps at h
  rw [List.filterMap_append, hcons] at h
  obtain ⟨hs, hrest⟩ := List.pairwise_cons.1 h
  exact ⟨hs _ (by simp), (List.pairwise_append.1 hrest).2.1⟩

end Ordered

end Moz.Vm1
