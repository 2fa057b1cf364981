import Mathlib.Data.List.ReduceOption
import Moz.Core.ArrayLists
import Moz.Node.Heap

/-!
# The children of a node in memory

The union `entry` of `struct Node`: its inline form and its array overlay each other
and share the size. Reading a word as what it is not, and what is undefined for the
array, is `none`. `malloc` gives what new cells happen to hold. An operation also
returns the retains and releases it makes of children.
-/

namespace Moz

open Moz.Core

/-- The null pointer has only zero bytes. -/
instance nullPointer : Zero (Option NodeId) := ⟨none⟩

/-- A word of the union: `raw.ary[i]` or `array.list`. -/
inductive EntryWord
  | node (n : Option NodeId)
  | cells (list : List (Option NodeId))
  deriving DecidableEq, Repr

def EntryWord.node? : EntryWord → Option (Option NodeId)
  | node n => some n
  | cells _ => none

/-- `union NodeEntry`. The first slot and `array.list` are the same word. -/
structure NodeEntry where
  size : ℕ
  capacity : ℕ
  word0 : EntryWord
  word1 : EntryWord
  deriving DecidableEq, Repr

inductive RcEvent
  | retain (n : NodeId)
  | release (n : NodeId)
  deriving DecidableEq, Repr

namespace NodeEntry

/-- `raw.ary[i]` -/
def ary (e : NodeEntry) : ℕ → Option (Option NodeId)
  | 0 => e.word0.node?
  | 1 => e.word1.node?
  | _ => none

def setAry (e : NodeEntry) (n : Option NodeId) : ℕ → Option NodeEntry
  | 0 => some { e with word0 := .node n }
  | 1 => some { e with word1 := .node n }
  | _ => none

def array (e : NodeEntry) : Option (Karray (Option NodeId)) :=
  match e.word0 with
  | .cells list => some ⟨e.size, e.capacity, list⟩
  | .node _ => none

def setArray (e : NodeEntry) (a : Karray (Option NodeId)) : NodeEntry :=
  { e with size := a.size, capacity := a.capacity, word0 := .cells a.list }

section Operations

variable (malloc : (n : ℕ) → Fin n → Option NodeId)

/-- The loop of `Node_new` that adds null pointers. -/
def addNulls : ℕ → Karray (Option NodeId) → Option (Karray (Option NodeId))
  | 0, a => some a
  | k + 1, a => do
    let a ← a.add none
    addNulls k a

/-- `Node_new`, in memory that holds an old entry. -/
def nodeNew (memory : NodeEntry) (elmSize : UInt32) : Option NodeEntry :=
  if 2 < elmSize.toNat then do
    let a ← addNulls elmSize.toNat (.init (List.ofFn (malloc elmSize.toNat)))
    return memory.setArray a
  else
    some { memory with size := elmSize.toNat, word0 := .node none, word1 := .node none }

def nodeLength (e : NodeEntry) : ℕ := e.size

def nodeGet (e : NodeEntry) (index : ℕ) : Option (Option NodeId) :=
  if index < e.nodeLength then
    if 2 < e.nodeLength then do
      let a ← e.array
      a.cell (asInt index)
    else e.ary index
  else some none

/-- What `Node_append` does to the entry. -/
def appendEntry (e : NodeEntry) (n : Option NodeId) : Option NodeEntry :=
  if 2 < e.nodeLength then do
    let a ← e.array
    let a ← a.ensureSize 1
    let a ← a.add n
    return e.setArray a
  else if e.nodeLength = 2 then do
    let e0 ← e.ary 0
    let e1 ← e.ary 1
    let a ← (Karray.init (List.ofFn (malloc 3))).add e0
    let a ← a.add e1
    let a ← a.add n
    return e.setArray a
  else if e.nodeLength = 1 then
    { e with size := e.size + 1 }.setAry n 1
  else
    { e with size := e.size + 1 }.setAry n 0

def nodeAppend (e : NodeEntry) (n : Option NodeId) : Option (NodeEntry × List RcEvent) := do
  let e ← appendEntry malloc e n
  return (e, n.toList.map .retain)

/-- The loop of `Node_set` that appends null pointers, for a number of rounds. -/
def appendUpTo (index : ℕ) : ℕ → NodeEntry → Option NodeEntry
  | 0, _ => none
  | rounds + 1, e =>
    if index < e.nodeLength then some e
    else do
      let e ← appendEntry malloc e none
      appendUpTo index rounds e

/-- The last step of `Node_set`. -/
def setEntry (e : NodeEntry) (index : ℕ) (n : NodeId) : Option NodeEntry :=
  if 2 < e.nodeLength then do
    let a ← e.array
    let a ← a.set (asInt index) (some n)
    return e.setArray a
  else e.setAry (some n) index

/-- `Node_set`, without the label, which is a field of the child. -/
def nodeSet (e : NodeEntry) (index : ℕ) (n : NodeId) : Option (NodeEntry × List RcEvent) := do
  let v ← e.nodeGet index
  let events := .retain n :: v.toList.map .release
  let e ← appendUpTo malloc index (index + 2) e
  let e ← e.setEntry index n
  return (e, events)

/-- The releases of `Node_sweep`. -/
def nodeSweep (e : NodeEntry) : Option (List RcEvent) := do
  let nodes ← (List.range e.nodeLength).mapM e.nodeGet
  return nodes.reduceOption.map .release

end Operations

/-- The number of cells of the first array of a node that is made for `elmSize` children. -/
def firstCells (elmSize : ℕ) : ℕ := if 2 < elmSize then elmSize else 3

/-- The largest number of children of a node with so many first cells. -/
def limit (first : ℕ) : ℕ := min (maxCapacity first) (2 ^ 31)

/-- The entry stands for the list, in one form or the other. -/
inductive Stands (first : ℕ) (e : NodeEntry) (l : List (Option NodeId)) : Prop
  | inline (hfirst : first = 3) (hsize : e.size = l.length) (hle : l.length ≤ 2)
    (hword0 : e.word0 = .node l[0]?.join) (hword1 : e.word1 = .node l[1]?.join)
  | array (a : Karray (Option NodeId)) (harray : e.array = some a) (hholds : a.Holds l)
    (hlt : 2 < l.length) (hle : l.length ≤ 2 ^ 31) (hreach : maxCapacity a.capacity = maxCapacity first)

variable {malloc : (n : ℕ) → Fin n → Option NodeId} {first : ℕ} {e e' : NodeEntry}
  {l : List (Option NodeId)} {a a' : Karray (Option NodeId)}

theorem array_setArray (e : NodeEntry) (a : Karray (Option NodeId)) : (e.setArray a).array = some a := rfl

theorem array_size (h : e.array = some a) : a.size = e.size := by
  unfold array at h
  split at h
  · cases h
    rfl
  · cases h

namespace Stands

theorem size (h : Stands first e l) : e.nodeLength = l.length := by
  cases h with
  | inline hfirst hsize hle hword0 hword1 => exact hsize
  | array a harray hholds hlt hle hreach =>
    obtain ⟨-, -, hsize, -⟩ := hholds.cells
    exact (array_size harray).symm.trans hsize

/-- `Node_get` reads the list, and a null pointer behind it. -/
theorem get (h : Stands first e l) (index : ℕ) : e.nodeGet index = some l[index]?.join := by
  have hlen := h.size
  rw [nodeGet, hlen]
  split_ifs with hindex hlong
  · cases h with
    | inline hfirst hsize hle hword0 hword1 => omega
    | array a harray hholds hlt hle hreach =>
      have hcell := Karray.cell_left hholds hindex
      rw [harray, asInt_of_lt (by omega), List.getElem?_eq_getElem hindex]
      exact hcell
  · cases h with
    | inline hfirst hsize hle hword0 hword1 =>
      have hcases : index = 0 ∨ index = 1 := by omega
      rcases hcases with rfl | rfl
      · rw [ary, hword0, EntryWord.node?]
      · rw [ary, hword1, EntryWord.node?]
    | array a harray hholds hlt hle hreach => omega
  · rw [List.getElem?_eq_none (by omega)]
    rfl

theorem sweep (h : Stands first e l) : e.nodeSweep = some (l.reduceOption.map .release) := by
  have hnodes : (List.range e.nodeLength).mapM e.nodeGet = some l := by
    have hget : e.nodeGet = fun index => pure l[index]?.join := funext h.get
    have hmap : (List.range l.length).map (fun index => l[index]?.join) = l := by
      apply List.ext_getElem
      · simp
      · intro i hi hi'
        simp [hi']
    rw [hget, h.size, List.mapM_pure, hmap]
    rfl
  rw [nodeSweep, hnodes]
  rfl

theorem le_limit (h : Stands first e l) : l.length ≤ limit first := by
  cases h with
  | inline hfirst hsize hle hword0 hword1 =>
    have hthree := le_maxCapacity 3
    subst hfirst
    exact le_min (by omega) (by omega)
  | array a harray hholds hlt hle hreach =>
    obtain ⟨-, -, hsize, -⟩ := hholds.cells
    have hcap := hholds.valid.size.trans (le_maxCapacity a.capacity)
    rw [hsize, hreach] at hcap
    exact le_min hcap hle

end Stands

theorem add_stands {n : Option NodeId} (h : a.Holds l) (hadd : a.add n = some a') :
    a'.Holds (l ++ [n]) ∧ (l ++ [n]).length ≤ 2 ^ 31 ∧
      maxCapacity a'.capacity = maxCapacity a.capacity := by
  have hroom := Karray.hasRoom_of_add hadd h.valid
  obtain ⟨a'', ha'', hholds⟩ := Karray.add_holds h hroom n
  obtain rfl : a'' = a' := Option.some.inj (ha''.symm.trans hadd)
  obtain ⟨-, -, hsize, -⟩ := h.cells
  have hsmall := hroom.2
  refine ⟨hholds, ?_, Karray.add_reach hadd⟩
  rw [List.length_append, List.length_singleton]
  omega

theorem add_isSome (h : a.Holds l) (hroom : l.length + 1 ≤ maxCapacity a.capacity)
    (hsmall : l.length + 1 ≤ 2 ^ 31) (n : Option NodeId) : ∃ a', a.add n = some a' := by
  obtain ⟨-, -, hsize, -⟩ := h.cells
  obtain ⟨a', ha', -⟩ := Karray.add_holds h ⟨hsize ▸ hroom, by omega⟩ n
  exact ⟨a', ha'⟩

theorem init_three (malloc : (n : ℕ) → Fin n → Option NodeId) : (Karray.init (List.ofFn (malloc 3))).Holds [] ∧
    maxCapacity (Karray.init (List.ofFn (malloc 3))).capacity = maxCapacity 3 := by
  have hlength : (List.ofFn (malloc 3)).length = 3 := List.length_ofFn
  exact ⟨⟨Karray.valid_init (by rw [hlength]; norm_num), rfl⟩, congrArg maxCapacity hlength⟩

namespace Stands

variable {n : Option NodeId}

theorem appended (h : Stands first e l) (happend : appendEntry malloc e n = some e') :
    Stands first e' (l ++ [n]) := by
  have hlen := h.size
  unfold appendEntry at happend
  rw [hlen] at happend
  cases h with
  | inline hfirst hsize hle hword0 hword1 =>
    rw [if_neg (by omega)] at happend
    rcases l with _ | ⟨x, _ | ⟨y, _ | ⟨z, rest⟩⟩⟩
    · cases happend
      exact .inline hfirst (congrArg (· + 1) hsize) (by simp) rfl hword1
    · cases happend
      exact .inline hfirst (congrArg (· + 1) hsize) (by simp) hword0 rfl
    · have hary : e.ary 0 = some x ∧ e.ary 1 = some y := by
        rw [ary, ary, hword0, hword1]
        exact ⟨rfl, rfl⟩
      rw [if_pos (show [x, y].length = 2 from rfl), hary.1, hary.2] at happend
      simp only [Option.bind_eq_bind, Option.bind_some, Option.bind_eq_some_iff] at happend
      obtain ⟨a₁, ha₁, a₂, ha₂, a₃, ha₃, he'⟩ := happend
      cases he'
      obtain ⟨h₁, -, hreach₁⟩ := add_stands (init_three malloc).1 ha₁
      obtain ⟨h₂, -, hreach₂⟩ := add_stands h₁ ha₂
      obtain ⟨h₃, hle₃, hreach₃⟩ := add_stands h₂ ha₃
      apply Stands.array a₃ (array_setArray e a₃) h₃ (by simp) hle₃
      rw [hreach₃, hreach₂, hreach₁, (init_three malloc).2, hfirst]
    · simp at hle
  | array a harray hholds hlt hle hreach =>
    rw [if_pos hlt, harray] at happend
    simp only [Option.bind_eq_bind, Option.bind_some, Option.bind_eq_some_iff] at happend
    obtain ⟨a₁, ha₁, a₂, ha₂, he'⟩ := happend
    cases he'
    obtain ⟨h₁, -, -⟩ := Karray.ensureSize_holds hholds ha₁
    obtain ⟨h₂, hle₂, hreach₂⟩ := add_stands h₁ ha₂
    apply Stands.array a₂ (array_setArray e a₂) h₂ (by simp; omega) hle₂
    rw [hreach₂, (Karray.ensureSize_reach ha₁).2, hreach]

theorem appendEntry_isSome (h : Stands first e l) (hroom : l.length + 1 ≤ maxCapacity first)
    (hsmall : l.length + 1 ≤ 2 ^ 31) (n : Option NodeId) :
    ∃ e', appendEntry malloc e n = some e' := by
  have hlen := h.size
  unfold appendEntry
  rw [hlen]
  cases h with
  | inline hfirst hsize hle hword0 hword1 =>
    rw [if_neg (by omega)]
    rcases l with _ | ⟨x, _ | ⟨y, _ | ⟨z, rest⟩⟩⟩
    · exact ⟨_, rfl⟩
    · exact ⟨_, rfl⟩
    · have hary : e.ary 0 = some x ∧ e.ary 1 = some y := by
        rw [ary, ary, hword0, hword1]
        exact ⟨rfl, rfl⟩
      have hthree := le_maxCapacity 3
      obtain ⟨h₀, hreach₀⟩ := init_three malloc
      obtain ⟨a₁, ha₁⟩ := add_isSome h₀ (by rw [hreach₀]; simp; omega) (by simp) x
      obtain ⟨h₁, -, hreach₁⟩ := add_stands h₀ ha₁
      obtain ⟨a₂, ha₂⟩ := add_isSome h₁ (by rw [hreach₁, hreach₀]; simp; omega) (by simp) y
      obtain ⟨h₂, -, hreach₂⟩ := add_stands h₁ ha₂
      obtain ⟨a₃, ha₃⟩ := add_isSome h₂ (by rw [hreach₂, hreach₁, hreach₀]; simpa using hthree) (by simp) n
      rw [if_pos (show [x, y].length = 2 from rfl), hary.1, hary.2]
      simp only [Option.bind_eq_bind, Option.bind_some, ha₁, ha₂, ha₃]
      exact ⟨_, rfl⟩
    · simp at hle
  | array a harray hholds hlt hle hreach =>
    obtain ⟨-, -, hsize, -⟩ := hholds.cells
    rw [← hreach] at hroom
    have hensure : ∃ a₁, a.ensureSize 1 = some a₁ :=
      Karray.ensureSize_isSome (by rw [hsize]; exact hroom)
    obtain ⟨a₁, ha₁⟩ := hensure
    obtain ⟨h₁, -, -⟩ := Karray.ensureSize_holds hholds ha₁
    obtain ⟨a₂, ha₂⟩ := add_isSome h₁ (by rw [(Karray.ensureSize_reach ha₁).2]; exact hroom) hsmall n
    rw [if_pos hlt, harray]
    simp only [Option.bind_eq_bind, Option.bind_some, ha₁, ha₂]
    exact ⟨_, rfl⟩

theorem padded {index rounds : ℕ} (h : Stands first e l)
    (hrun : appendUpTo malloc index rounds e = some e') :
    Stands first e' (l ++ List.replicate (index + 1 - l.length) none) := by
  induction rounds generalizing e l with
  | zero => cases hrun
  | succ rounds ih =>
    rw [appendUpTo, h.size] at hrun
    split_ifs at hrun with hindex
    · cases hrun
      rw [Nat.sub_eq_zero_of_le hindex, List.replicate_zero, List.append_nil]
      exact h
    · rw [Option.bind_eq_bind, Option.bind_eq_some_iff] at hrun
      obtain ⟨e₁, he₁, hrest⟩ := hrun
      have hstands := ih (h.appended he₁) hrest
      have hcount : index + 1 - l.length = index + 1 - (l ++ [none]).length + 1 := by
        rw [List.length_append, List.length_singleton]
        omega
      rw [hcount, List.replicate_succ, List.append_cons]
      exact hstands

theorem appendUpTo_isSome {index rounds : ℕ} (h : Stands first e l)
    (hrounds : index + 1 - l.length < rounds) (hroom : index < l.length ∨ index + 1 ≤ limit first) :
    ∃ e', appendUpTo malloc index rounds e = some e' := by
  induction rounds generalizing e l with
  | zero => omega
  | succ rounds ih =>
    rw [appendUpTo, h.size]
    split_ifs with hindex
    · exact ⟨e, rfl⟩
    · have hlimit := le_min_iff.1 (hroom.resolve_left hindex)
      obtain ⟨e₁, he₁⟩ := h.appendEntry_isSome (by omega) (by omega) none
      have hlength : (l ++ [none]).length = l.length + 1 := by simp
      obtain ⟨e', he'⟩ := ih (h.appended he₁) (by omega) (.inr (le_min hlimit.1 hlimit.2))
      exact ⟨e', by rw [he₁]; exact he'⟩

/-- The last step of `Node_set` sets the child in the list. -/
theorem setEntry (h : Stands first e l) {index : ℕ} (hindex : index < l.length) (n : NodeId) :
    ∃ e', e.setEntry index n = some e' ∧ Stands first e' (l.set index (some n)) := by
  have hlen := h.size
  rw [NodeEntry.setEntry, hlen]
  cases h with
  | inline hfirst hsize hle hword0 hword1 =>
    have hlength : (l.set index (some n)).length = l.length := List.length_set
    rw [if_neg (by omega)]
    have hcases : index = 0 ∨ index = 1 := by omega
    rcases hcases with rfl | rfl
    · refine ⟨_, rfl, .inline hfirst (hsize.trans hlength.symm) (hlength.trans_le hle) ?_ ?_⟩
      · rw [List.getElem?_set_self hindex]
        rfl
      · rw [List.getElem?_set_ne (by decide)]
        exact hword1
    · refine ⟨_, rfl, .inline hfirst (hsize.trans hlength.symm) (hlength.trans_le hle) ?_ ?_⟩
      · rw [List.getElem?_set_ne (by decide)]
        exact hword0
      · rw [List.getElem?_set_self hindex]
        rfl
  | array a harray hholds hlt hle hreach =>
    obtain ⟨a', ha', hholds'⟩ := Karray.set_holds hholds hindex (some n)
    have hcapacity : a'.capacity = a.capacity := by
      unfold Karray.set at ha'
      split_ifs at ha'
      cases ha'
      rfl
    rw [if_pos hlt, harray, asInt_of_lt (by omega)]
    refine ⟨e.setArray a', by simp [ha'], .array a' (array_setArray e a') hholds' ?_ ?_ ?_⟩
    · rwa [List.length_set]
    · rwa [List.length_set]
    · rw [hcapacity, hreach]

end Stands

theorem addNulls_holds {k : ℕ} (h : a.Holds l) (hrun : addNulls k a = some a') :
    a'.Holds (l ++ List.replicate k none) ∧ (l.length ≤ 2 ^ 31 → l.length + k ≤ 2 ^ 31) ∧
      maxCapacity a'.capacity = maxCapacity a.capacity := by
  induction k generalizing a l with
  | zero =>
    cases hrun
    rw [List.replicate_zero, List.append_nil]
    exact ⟨h, id, rfl⟩
  | succ k ih =>
    rw [addNulls, Option.bind_eq_bind, Option.bind_eq_some_iff] at hrun
    obtain ⟨a₁, ha₁, hrest⟩ := hrun
    obtain ⟨h₁, hle₁, hreach₁⟩ := add_stands h ha₁
    obtain ⟨hholds, hle, hreach⟩ := ih h₁ hrest
    rw [List.length_append, List.length_singleton] at hle hle₁
    rw [List.replicate_succ, List.append_cons]
    refine ⟨hholds, fun _ => ?_, hreach.trans hreach₁⟩
    have := hle hle₁
    omega

theorem addNulls_isSome {k : ℕ} (h : a.Holds l) (hroom : l.length + k ≤ maxCapacity a.capacity)
    (hsmall : l.length + k ≤ 2 ^ 31) : ∃ a', addNulls k a = some a' := by
  induction k generalizing a l with
  | zero => exact ⟨a, rfl⟩
  | succ k ih =>
    obtain ⟨a₁, ha₁⟩ := add_isSome h (by omega) (by omega) none
    obtain ⟨h₁, -, hreach₁⟩ := add_stands h ha₁
    have hlength : (l ++ [none]).length = l.length + 1 := by simp
    obtain ⟨a', ha'⟩ := ih h₁ (by rw [hreach₁]; omega) (by omega)
    exact ⟨a', by rw [addNulls, ha₁]; exact ha'⟩

section New

variable {memory : NodeEntry} {elmSize : UInt32}

theorem init_holds (malloc : (n : ℕ) → Fin n → Option NodeId) (elmSize : UInt32) :
    (Karray.init (List.ofFn (malloc elmSize.toNat))).Holds [] ∧
    (Karray.init (List.ofFn (malloc elmSize.toNat))).capacity = elmSize.toNat := by
  have hlength : (List.ofFn (malloc elmSize.toNat)).length = elmSize.toNat := List.length_ofFn
  exact ⟨⟨Karray.valid_init (by rw [hlength]; exact elmSize.toNat_lt), rfl⟩, hlength⟩

theorem nodeNew_stands (h : nodeNew malloc memory elmSize = some e) :
    Stands (firstCells elmSize.toNat) e (List.replicate elmSize.toNat none) := by
  rw [nodeNew] at h
  split_ifs at h with hlarge
  · rw [Option.bind_eq_bind, Option.bind_eq_some_iff] at h
    obtain ⟨a, ha, he⟩ := h
    cases he
    obtain ⟨hinit, hcapacity⟩ := init_holds malloc elmSize
    obtain ⟨hholds, hle, hreach⟩ := addNulls_holds hinit ha
    rw [List.nil_append] at hholds
    apply Stands.array a (array_setArray memory a) hholds
    · rwa [List.length_replicate]
    · rw [List.length_replicate]
      simpa using hle
    · rw [hreach, hcapacity, firstCells, if_pos hlarge]
  · cases h
    have hnone : ∀ i : ℕ, (List.replicate elmSize.toNat (none : Option NodeId))[i]?.join = none := by
      intro i
      rw [List.getElem?_replicate]
      split_ifs <;> rfl
    apply Stands.inline
    · rw [firstCells, if_neg hlarge]
    · rw [List.length_replicate]
    · rw [List.length_replicate]
      omega
    · rw [hnone]
    · rw [hnone]

theorem nodeNew_isSome (h : elmSize.toNat ≤ limit (firstCells elmSize.toNat)) :
    ∃ e, nodeNew malloc memory elmSize = some e := by
  rw [nodeNew]
  split_ifs with hlarge
  · obtain ⟨hinit, hcapacity⟩ := init_holds malloc elmSize
    have hlimit := le_min_iff.1 h
    rw [firstCells, if_pos hlarge] at hlimit
    have hroom : ([] : List (Option NodeId)).length + elmSize.toNat ≤
        maxCapacity (Karray.init (List.ofFn (malloc elmSize.toNat))).capacity := by
      rw [hcapacity, List.length_nil, Nat.zero_add]
      exact hlimit.1
    obtain ⟨a, ha⟩ := addNulls_isSome hinit hroom (by simpa using hlimit.2)
    rw [ha]
    exact ⟨_, rfl⟩
  · exact ⟨_, rfl⟩

end New

end NodeEntry

/-- A call of `Node_append` or of `Node_set`. -/
inductive EntryOp
  | append (n : Option NodeId)
  | set (index : UInt32) (n : NodeId)
  deriving DecidableEq, Repr

namespace EntryOp

open NodeEntry

def run (malloc : (n : ℕ) → Fin n → Option NodeId) (e : NodeEntry) :
    EntryOp → Option (NodeEntry × List RcEvent)
  | append n => NodeEntry.nodeAppend malloc e n
  | set index n => NodeEntry.nodeSet malloc e index.toNat n

def onList (l : List (Option NodeId)) : EntryOp → List (Option NodeId)
  | append n => l ++ [n]
  | set index n => (l ++ List.replicate (index.toNat + 1 - l.length) none).set index.toNat (some n)

/-- The new child is retained, and the child that was in its place is released. -/
def events (l : List (Option NodeId)) : EntryOp → List RcEvent
  | append n => n.toList.map .retain
  | set index n => .retain n :: l[index.toNat]?.join.toList.map .release

end EntryOp

namespace NodeEntry

/-- `Node_length`, `Node_get` and the releases of `Node_sweep` are those of the list. -/
structure Agrees (e : NodeEntry) (l : List (Option NodeId)) : Prop where
  length : e.nodeLength = l.length
  get : ∀ index, e.nodeGet index = some l[index]?.join
  sweep : e.nodeSweep = some (l.reduceOption.map .release)

/-- The entry agrees with the list at the beginning and after each call, and each call makes the
retains and releases of the list. -/
def AllAgree (malloc : (n : ℕ) → Fin n → Option NodeId) :
    NodeEntry → List (Option NodeId) → List EntryOp → Prop
  | e, l, [] => Agrees e l
  | e, l, op :: ops => Agrees e l ∧
      ∃ e', op.run malloc e = some (e', op.events l) ∧ AllAgree malloc e' (op.onList l) ops

variable {malloc : (n : ℕ) → Fin n → Option NodeId} {first : ℕ} {e e' : NodeEntry}
  {l : List (Option NodeId)} {op : EntryOp} {ops : List EntryOp} {events : List RcEvent}

theorem Stands.agrees (h : Stands first e l) : Agrees e l := ⟨h.size, h.get, h.sweep⟩

theorem length_padded (l : List (Option NodeId)) (index : ℕ) :
    (l ++ List.replicate (index + 1 - l.length) none).length = max l.length (index + 1) := by
  rw [List.length_append, List.length_replicate]
  omega

theorem length_le_onList (l : List (Option NodeId)) (op : EntryOp) : l.length ≤ (op.onList l).length := by
  cases op with
  | append n => exact (List.length_append ▸ Nat.le_add_right _ _)
  | set index n =>
    rw [EntryOp.onList, List.length_set, length_padded]
    exact le_max_left _ _

theorem length_le_foldl (l : List (Option NodeId)) (ops : List EntryOp) :
    l.length ≤ (ops.foldl EntryOp.onList l).length := by
  induction ops generalizing l with
  | nil => rfl
  | cons op ops ih => exact (length_le_onList l op).trans (ih (op.onList l))

theorem Stands.run (h : Stands first e l) (hrun : op.run malloc e = some (e', events)) :
    Stands first e' (op.onList l) := by
  cases op with
  | append n =>
    rw [EntryOp.run, NodeEntry.nodeAppend, Option.bind_eq_bind, Option.bind_eq_some_iff] at hrun
    obtain ⟨e₁, he₁, hpair⟩ := hrun
    cases hpair
    exact h.appended he₁
  | set index n =>
    rw [EntryOp.run, NodeEntry.nodeSet, h.get] at hrun
    simp only [Option.bind_eq_bind, Option.bind_some, Option.bind_eq_some_iff] at hrun
    obtain ⟨e₁, he₁, e₂, he₂, hpair⟩ := hrun
    cases hpair
    have hpadded := h.padded he₁
    have hlength := length_padded l index.toNat
    have hindex : index.toNat < (l ++ List.replicate (index.toNat + 1 - l.length) none).length := by
      omega
    obtain ⟨e₃, he₃, hstands⟩ := hpadded.setEntry hindex n
    have hsame : e₃ = e' := Option.some.inj (he₃.symm.trans he₂)
    exact hsame ▸ hstands

theorem Stands.run_isSome (h : Stands first e l) (hlimit : (op.onList l).length ≤ limit first) :
    ∃ e', op.run malloc e = some (e', op.events l) := by
  cases op with
  | append n =>
    have hlength : (EntryOp.onList l (.append n)).length = l.length + 1 := by
      simp [EntryOp.onList]
    rw [hlength] at hlimit
    obtain ⟨hroom, hsmall⟩ := le_min_iff.1 hlimit
    obtain ⟨e', he'⟩ := h.appendEntry_isSome hroom hsmall n
    exact ⟨e', by rw [EntryOp.run, NodeEntry.nodeAppend, he']; rfl⟩
  | set index n =>
    have hlength := length_padded l index.toNat
    rw [EntryOp.onList, List.length_set, hlength] at hlimit
    have happend : ∃ e₁, appendUpTo malloc index.toNat (index.toNat + 2) e = some e₁ :=
      h.appendUpTo_isSome (by omega) (.inr ((le_max_right _ _).trans hlimit))
    obtain ⟨e₁, he₁⟩ := happend
    have hindex : index.toNat < (l ++ List.replicate (index.toNat + 1 - l.length) none).length := by
      omega
    obtain ⟨e', he', -⟩ := (h.padded he₁).setEntry hindex n
    refine ⟨e', ?_⟩
    rw [EntryOp.run, NodeEntry.nodeSet, h.get]
    simp only [Option.bind_eq_bind, Option.bind_some, he₁, he']
    rfl

theorem Stands.allAgree_iff (h : Stands first e l) :
    AllAgree malloc e l ops ↔ (ops.foldl EntryOp.onList l).length ≤ limit first := by
  induction ops generalizing e l with
  | nil => exact iff_of_true h.agrees h.le_limit
  | cons op ops ih =>
    constructor
    · rintro ⟨-, e', he', hrest⟩
      exact (ih (h.run he')).1 hrest
    · intro hlimit
      obtain ⟨e', he'⟩ := h.run_isSome ((length_le_foldl (op.onList l) ops).trans hlimit)
      exact ⟨h.agrees, e', he', (ih (h.run he')).2 hlimit⟩

/-- A node's children are a list of null pointers, changed by each call, exactly if the number of
children in the end is within the limit. -/
theorem children_are_list (malloc : (n : ℕ) → Fin n → Option NodeId) (memory : NodeEntry)
    (elmSize : UInt32) (ops : List EntryOp) :
    (∃ e, nodeNew malloc memory elmSize = some e ∧
      AllAgree malloc e (List.replicate elmSize.toNat none) ops) ↔
    (ops.foldl EntryOp.onList (List.replicate elmSize.toNat none)).length ≤
      limit (firstCells elmSize.toNat) := by
  constructor
  · rintro ⟨e, he, hagree⟩
    exact (nodeNew_stands he).allAgree_iff.1 hagree
  · intro hlimit
    have hfirst := (length_le_foldl (List.replicate elmSize.toNat none) ops).trans hlimit
    rw [List.length_replicate] at hfirst
    have hnew : ∃ e, nodeNew malloc memory elmSize = some e := nodeNew_isSome hfirst
    obtain ⟨e, he⟩ := hnew
    exact ⟨e, he, (nodeNew_stands he).allAgree_iff.2 hlimit⟩

/-- A node that is full with its first 2 ^ 29 children takes no further one. -/
theorem not_children_are_list (elmSize : UInt32) (h : elmSize.toNat = 2 ^ 29) (memory : NodeEntry)
    (n : Option NodeId) :
    ¬ ∃ e, nodeNew malloc memory elmSize = some e ∧
      AllAgree malloc e (List.replicate elmSize.toNat none) [.append n] := by
  rintro ⟨e, he, hagree⟩
  have hlimit := (nodeNew_stands he).allAgree_iff.1 hagree
  have hmax : limit (firstCells elmSize.toNat) = 2 ^ 29 := by
    rw [h, firstCells, if_pos (by norm_num), limit, maxCapacity, if_pos (.inr le_rfl)]
    norm_num
  rw [hmax, List.foldl_cons, List.foldl_nil, EntryOp.onList, List.length_append, List.length_replicate,
    h, List.length_singleton] at hlimit
  omega

theorem children_are_list_fullArray :
    ¬ ∃ e, nodeNew (fun _ _ => none) ⟨0, 0, .node none, .node none⟩ 0x20000000 = some e ∧
      AllAgree (fun _ _ => none) e (List.replicate (0x20000000 : UInt32).toNat none) [.append none] :=
  not_children_are_list 0x20000000 (by norm_num [UInt32.toNat_ofNat]) _ none

end NodeEntry

end Moz
