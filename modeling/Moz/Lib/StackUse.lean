import Moz.Lib.FrameStack

/-!
# How much of a stack is in use

A stack that holds frames and, above and between them, single cells. An operation
pushes or pops a cell or a frame; popping a frame drops the cells above it. The
items on a stack are followed beside the run of a machine, and as long as nothing
is popped that is not there, the top of the stack is where the sizes of the items
put it.
-/

namespace Moz.FrameStack

/-- The top of the stack, the base of the top frame, and the cells. -/
structure Regs (α : Type) where
  sp : ℕ
  fp : ℕ
  stack : ℕ → α

inductive StackOp (α : Type)
  | keep
  | push (a : α)
  | pop
  | pushFrame (slots : List α)
  | popFrame
  | setSlots (slots : List α)

inductive StackItem (α : Type)
  | cell (a : α)
  | frame (slots : List α)

namespace StackItem

variable {α : Type}

def size : StackItem α → ℕ
  | cell _ => 1
  | frame slots => slots.length + 1

def isCell : StackItem α → Bool
  | cell _ => true
  | frame _ => false

end StackItem

variable {α : Type}

def used (items : List (StackItem α)) : ℕ := (items.map StackItem.size).sum

@[simp] theorem used_cons (item : StackItem α) (items : List (StackItem α)) :
    used (item :: items) = item.size + used items := by
  simp [used]

def dropFrame : List (StackItem α) → Option (List (StackItem α))
  | [] => none
  | .frame _ :: items => some items
  | .cell _ :: items => dropFrame items

theorem mem_of_dropFrame {item : StackItem α} {items items' : List (StackItem α)}
    (h : dropFrame items = some items') (hmem : item ∈ items') : item ∈ items := by
  induction items with
  | nil => cases h
  | cons x items ih =>
    cases x with
    | cell a => exact List.mem_cons_of_mem _ (ih h)
    | frame slots =>
      cases h
      exact List.mem_cons_of_mem _ hmem

def replaceFrame (slots : List α) : List (StackItem α) → Option (List (StackItem α))
  | [] => none
  | .frame slots' :: items =>
    if slots'.length = slots.length then some (.frame slots :: items) else none
  | .cell a :: items => (replaceFrame slots items).map (.cell a :: ·)

namespace StackOp

/-- The effect of an operation on the registers and the cells. -/
def Does (link : ℕ → α) (unlink : α → ℕ) (r r' : Regs α) : StackOp α → Prop
  | keep => r'.sp = r.sp ∧ r'.fp = r.fp ∧ r'.stack = r.stack
  | push a => r'.sp = r.sp + 1 ∧ r'.fp = r.fp ∧ r'.stack = Function.update r.stack r.sp a
  | pop => r'.sp = r.sp - 1 ∧ r'.fp = r.fp ∧ r'.stack = r.stack
  | pushFrame slots => r'.sp = r.sp + (slots.length + 1) ∧ r'.fp = r.sp ∧
      (∀ i < r.sp, r'.stack i = r.stack i) ∧ Frame.Holds link r'.stack ⟨r.sp, r.fp, slots⟩
  | popFrame => r'.sp = r.fp ∧ r'.fp = unlink (r.stack r.fp) ∧ r'.stack = r.stack
  | setSlots slots => r'.sp = r.sp ∧ r'.fp = r.fp ∧
      (∀ i, i ≤ r.fp ∨ r.fp + (slots.length + 1) ≤ i → r'.stack i = r.stack i) ∧
      ∀ i a, slots[i]? = some a → r'.stack (r.fp + 1 + i) = a

/-- The items after an operation; it may pop nothing but what is there. -/
def after : StackOp α → List (StackItem α) → Option (List (StackItem α))
  | keep, items => some items
  | push a, items => some (.cell a :: items)
  | pop, .cell _ :: items => some items
  | pop, .frame _ :: _ | pop, [] => none
  | pushFrame slots, items => some (.frame slots :: items)
  | popFrame, items => dropFrame items
  | setSlots slots, items => replaceFrame slots items

theorem items_of_pop {items items' : List (StackItem α)} (h : pop.after items = some items') :
    ∃ a, items = .cell a :: items' := by
  cases items with
  | nil => cases h
  | cons item items =>
    cases item with
    | cell a =>
      cases h
      exact ⟨a, rfl⟩
    | frame slots => cases h

def room : StackOp α → ℕ
  | push _ => 1
  | pushFrame slots => slots.length + 1
  | keep | pop | popFrame | setSlots _ => 0

def pushed (op : StackOp α) (sp : ℕ) : List ℕ := (List.range op.room).map (sp + ·)

theorem mem_pushed {op : StackOp α} {sp i : ℕ} :
    i ∈ op.pushed sp ↔ sp ≤ i ∧ i < sp + op.room := by
  simp only [pushed, List.mem_map, List.mem_range]
  constructor
  · rintro ⟨k, hk, rfl⟩
    omega
  · intro h
    exact ⟨i - sp, by omega, by omega⟩

end StackOp

/-- The stack up to `sp`, with the top frame at `fp`, holds these items, the top one first. -/
inductive Lies (link : ℕ → α) (stack : ℕ → α) (base : ℕ) : ℕ → ℕ → List (StackItem α) → Prop
  | nil : Lies link stack base base base []
  | cell {sp fp : ℕ} {items : List (StackItem α)} {a : α} (h : Lies link stack base sp fp items)
      (ha : stack sp = a) : Lies link stack base (sp + 1) fp (.cell a :: items)
  | frame {sp fp : ℕ} {items : List (StackItem α)} {slots : List α}
      (h : Lies link stack base sp fp items) (hold : Frame.Holds link stack ⟨sp, fp, slots⟩) :
      Lies link stack base (sp + (slots.length + 1)) sp (.frame slots :: items)

namespace Lies

variable {link : ℕ → α} {unlink : α → ℕ} {stack stack' : ℕ → α} {base sp fp : ℕ}
  {items items' : List (StackItem α)} {slots : List α}

theorem sp_eq (h : Lies link stack base sp fp items) : sp = base + used items := by
  induction h with
  | nil => rfl
  | cell _ _ ih =>
    rw [used_cons, StackItem.size, ih]
    omega
  | frame _ _ ih =>
    rw [used_cons, StackItem.size, ih]
    omega

theorem congr (h : Lies link stack base sp fp items) (heq : ∀ i < sp, stack' i = stack i) :
    Lies link stack' base sp fp items := by
  induction h with
  | nil => exact .nil
  | cell _ ha ih =>
    refine .cell (ih fun i hi => heq i (by omega)) ?_
    rw [heq _ (Nat.lt_succ_self _), ha]
  | frame _ hold ih => exact .frame (ih fun i hi => heq i (by omega)) (hold.congr heq)

theorem top {a : α} (h : Lies link stack base sp fp (.cell a :: items)) :
    stack (sp - 1) = a ∧ Lies link stack base (sp - 1) fp items := by
  cases h with
  | cell h ha => exact ⟨ha, h⟩

theorem topFrame (h : Lies link stack base sp fp (.frame slots :: items)) :
    ∃ prev, sp = fp + (slots.length + 1) ∧ Frame.Holds link stack ⟨fp, prev, slots⟩ ∧
      Lies link stack base fp prev items := by
  cases h with
  | frame h hold => exact ⟨_, rfl, hold, h⟩

theorem drop (hunlink : ∀ n, unlink (link n) = n) (h : Lies link stack base sp fp items)
    (hafter : dropFrame items = some items') :
    Lies link stack base fp (unlink (stack fp)) items' := by
  induction items generalizing sp with
  | nil => cases hafter
  | cons item items ih =>
    cases item with
    | cell a => exact ih h.top.2 hafter
    | frame slots =>
      cases hafter
      obtain ⟨prev, -, hold, hrest⟩ := h.topFrame
      have hprev : stack fp = link prev := hold.prev
      rwa [hprev, hunlink]

theorem frameAt (h : Lies link stack base sp fp items) (hafter : dropFrame items = some items') :
    ∃ prev slots, .frame slots ∈ items ∧ Frame.Holds link stack ⟨fp, prev, slots⟩ ∧
      base ≤ fp ∧ fp + (slots.length + 1) ≤ sp := by
  induction items generalizing sp with
  | nil => cases hafter
  | cons item items ih =>
    cases item with
    | cell a =>
      obtain ⟨prev, slots, hmem, hold, hbase, hle⟩ := ih h.top.2 hafter
      exact ⟨prev, slots, List.mem_cons_of_mem _ hmem, hold, hbase, by omega⟩
    | frame slots =>
      obtain ⟨prev, hsp, hold, hrest⟩ := h.topFrame
      have hbase := hrest.sp_eq
      exact ⟨prev, slots, List.mem_cons_self .., hold, by omega, hsp.ge⟩

theorem setSlots (h : Lies link stack base sp fp items)
    (hkeep : ∀ i, i ≤ fp ∨ fp + (slots.length + 1) ≤ i → stack' i = stack i)
    (hslots : ∀ i a, slots[i]? = some a → stack' (fp + 1 + i) = a)
    (hafter : replaceFrame slots items = some items') :
    Lies link stack' base sp fp items' ∧ fp + (slots.length + 1) ≤ sp := by
  induction items generalizing sp items' with
  | nil => cases hafter
  | cons item items ih =>
    cases item with
    | cell a =>
      obtain ⟨ha, hrest⟩ := h.top
      have hsp : 0 < sp := by
        cases h
        omega
      obtain ⟨rest, hrest', rfl⟩ := Option.map_eq_some_iff.1 hafter
      obtain ⟨hlies, hle⟩ := ih hrest hrest'
      have hcell := Lies.cell hlies (rfl : stack' (sp - 1) = _)
      rw [hkeep (sp - 1) (.inr hle), ha, Nat.sub_add_cancel hsp] at hcell
      exact ⟨hcell, by omega⟩
    | frame slots' =>
      obtain ⟨prev, hsp, hold, hrest⟩ := h.topFrame
      unfold replaceFrame at hafter
      split_ifs at hafter with hlength
      cases hafter
      have hrest' := hrest.congr fun i hi => hkeep i (.inl hi.le)
      have hprev : stack' fp = link prev := (hkeep fp (.inl le_rfl)).trans hold.prev
      rw [hsp, hlength]
      exact ⟨.frame hrest' ⟨hprev, hslots⟩, le_rfl⟩

theorem does (hunlink : ∀ n, unlink (link n) = n) {r r' : Regs α} {op : StackOp α}
    (h : Lies link r.stack base r.sp r.fp items) (hop : op.Does link unlink r r')
    (hafter : op.after items = some items') : Lies link r'.stack base r'.sp r'.fp items' := by
  cases op with
  | keep =>
    obtain ⟨hsp, hfp, hstack⟩ := hop
    cases hafter
    rwa [hsp, hfp, hstack]
  | push a =>
    obtain ⟨hsp, hfp, hstack⟩ := hop
    cases hafter
    rw [hsp, hfp, hstack]
    refine .cell (h.congr fun i hi => ?_) (Function.update_self ..)
    exact Function.update_of_ne hi.ne ..
  | pop =>
    obtain ⟨hsp, hfp, hstack⟩ := hop
    match items, hafter with
    | .cell _ :: items, hafter =>
      cases hafter
      rw [hsp, hfp, hstack]
      exact h.top.2
  | pushFrame slots =>
    obtain ⟨hsp, hfp, hkeep, hold⟩ := hop
    cases hafter
    rw [hsp, hfp]
    exact .frame (h.congr hkeep) hold
  | popFrame =>
    obtain ⟨hsp, hfp, hstack⟩ := hop
    rw [hsp, hfp, hstack]
    exact h.drop hunlink hafter
  | setSlots slots =>
    obtain ⟨hsp, hfp, hkeep, hslots⟩ := hop
    rw [hsp, hfp]
    exact (h.setSlots hkeep hslots hafter).1

/-- Where an operation pushes to, and when all of it is below an index. -/
theorem pushed (h : Lies link stack base sp fp items) (op : StackOp α) (size : ℕ) :
    (∀ i ∈ op.pushed sp, base ≤ i) ∧
      ((∀ i ∈ op.pushed sp, i < size) ↔ op.room = 0 ∨ base + used items + op.room ≤ size) := by
  have hsp := h.sp_eq
  constructor
  · intro i hi
    have := StackOp.mem_pushed.1 hi
    omega
  · constructor
    · intro hlt
      by_cases hroom : op.room = 0
      · exact .inl hroom
      · have := hlt (sp + op.room - 1) (StackOp.mem_pushed.2 (by omega))
        exact .inr (by omega)
    · intro hroom i hi
      have := StackOp.mem_pushed.1 hi
      omega

end Lies

end Moz.FrameStack
