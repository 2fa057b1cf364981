import Moz.Core.Capacity

/-!
# Growable arrays

The operations of `karray.h`. An array is its size, its capacity and the cells that
are allocated; an index is an `int`. An access outside the cells, undefined arithmetic
and a failed `assert` give `none`. An allocation succeeds, and the cells it leaves
unset are any. `DEF_ARRAY_OP` and `DEF_ARRAY_OP_NOPOINTER` differ in what is
compared: `pointer` arrays take the address of an object of the caller, which is
never the address of a cell.
-/

namespace Moz.Core

/-- `(int)n` -/
def asInt (n : ℕ) : ℤ := if n < 2 ^ 31 then n else (n : ℤ) - 2 ^ 32

/-- `(unsigned)z` -/
def asUnsigned (z : ℤ) : ℕ := (z % 2 ^ 32).toNat

theorem asInt_of_lt {n : ℕ} (h : n < 2 ^ 31) : asInt n = n := if_pos h

theorem asUnsigned_of_lt {n : ℕ} (h : n < 2 ^ 32) : asUnsigned n = n := by
  have hmod : (n : ℤ) % 2 ^ 32 = n := Int.emod_eq_of_lt (by omega) (by exact_mod_cast h)
  rw [asUnsigned, hmod, Int.toNat_natCast]

/-- `ARRAY(T)` with the cells of `list`. -/
structure Karray (α : Type) where
  size : ℕ := 0
  capacity : ℕ
  list : List α
  deriving DecidableEq, Repr

namespace Karray

variable {α : Type}

/-- `ARRAY_init`, on what the new cells happen to hold. -/
def init (cells : List α) : Karray α := { capacity := cells.length, list := cells }

/-- `a->list[idx]` -/
def cell (a : Karray α) (idx : ℤ) : Option α := if 0 ≤ idx then a.list[idx.toNat]? else none

/-- `ARRAY_set` -/
def set (a : Karray α) (idx : ℤ) (v : α) : Option (Karray α) :=
  if 0 ≤ idx ∧ idx.toNat < a.list.length then some { a with list := a.list.set idx.toNat v }
  else none

/-- `memmove` of `n` cells. -/
def memmove (a : Karray α) (dst src : ℤ) (n : ℕ) : Option (Karray α) :=
  if 0 ≤ dst ∧ dst.toNat + n ≤ a.list.length ∧ 0 ≤ src ∧ src.toNat + n ≤ a.list.length then
    some { a with
      list := a.list.take dst.toNat ++ (a.list.drop src.toNat).take n ++ a.list.drop (dst.toNat + n) }
  else none

section Growing

variable [Zero α]

/-- `ARRAY_ensureSize`; the new cells are cleared. -/
def ensureSize (a : Karray α) (size : ℕ) : Option (Karray α) :=
  if a.size + size ≤ a.capacity then some a
  else do
    let capacity ← growLoop (a.size + size) growRounds a.capacity
    return { a with
      capacity := capacity
      list := a.list ++ List.replicate (capacity - a.capacity) 0 }

/-- `ARRAY_add` -/
def add (a : Karray α) (v : α) : Option (Karray α) := do
  let a ← a.ensureSize 1
  let idx := asInt a.size
  { a with size := a.size + 1 }.set idx v

end Growing

variable [DecidableEq α]

/-- The first index at which `v == ARRAY_get(a, i)`. -/
def indexOf (pointer : Bool) (a : Karray α) (v : α) : Option ℕ :=
  (List.range (asInt a.size).toNat).find? fun i => !pointer && a.cell i == some v

/-- `ARRAY_add_once` -/
def addOnce [Zero α] (pointer : Bool) (a : Karray α) (v : α) : Option (Karray α) :=
  match a.indexOf pointer v with
  | some _ => some a
  | none => a.add v

/-- `ARRAY_remove` -/
def remove (a : Karray α) (idx : ℤ) : Option (Karray α) :=
  if a.size = 0 then none
  else do
    let a ← a.memmove idx (idx + 1) (asUnsigned (a.size - idx - 1))
    return { a with size := a.size - 1 }

/-- `ARRAY_remove_element` -/
def removeElement (pointer : Bool) (a : Karray α) (o : α) : Option (Karray α) :=
  if a.size = 0 then none
  else
    match a.indexOf pointer o with
    | some i => a.remove i
    | none => some a

/-- `ARRAY_insert` -/
def insert [Zero α] (a : Karray α) (idx : ℤ) (v : α) : Option (Karray α) :=
  if ¬ (idx ≤ asInt a.size ∧ 0 ≤ idx) then none
  else if asInt a.size = idx then a.add v
  else do
    let a ← a.ensureSize 1
    let a ← a.memmove (idx + 1) idx (asUnsigned (a.size - idx))
    { a with size := a.size + 1 }.set idx v

/-- `ARRAY_pop`, with the element. -/
def pop (a : Karray α) : Option (Karray α × α) := do
  let size := asUnsigned (a.size - 1)
  let v ← a.cell (asInt size)
  return ({ a with size := size }, v)

/-- `FOR_EACH_ARRAY` from a cell to the end, for a number of rounds. -/
def forEach (a : Karray α) : ℕ → ℤ → Option (List α)
  | 0, _ => none
  | rounds + 1, x =>
    if x = a.size then some []
    else do
      let v ← a.cell x
      let rest ← forEach a rounds (x + 1)
      return v :: rest

/-- The loop of `FOR_EACH_ARRAY_R` from a cell to the one before the first. -/
def forEachR (a : Karray α) : ℕ → ℤ → Option (List α)
  | 0, _ => none
  | rounds + 1, x =>
    if x = -1 then some []
    else do
      let v ← a.cell x
      let rest ← forEachR a rounds (x - 1)
      return v :: rest

def forEachArray (a : Karray α) (rounds : ℕ) : Option (List α) := a.forEach rounds 0

def forEachArrayR (a : Karray α) (rounds : ℕ) : Option (List α) :=
  if a.size = 0 then some [] else a.forEachR rounds (a.size - 1)

/-- What the macros keep: the size is within the cells. -/
structure Valid (a : Karray α) : Prop where
  length : a.list.length = a.capacity
  size : a.size ≤ a.capacity
  unsigned : a.capacity < 2 ^ 32

def contents (a : Karray α) : List α := a.list.take a.size

structure Ensured (a a' : Karray α) (size : ℕ) : Prop where
  room : a.size + size ≤ a'.capacity
  size : a'.size = a.size
  valid : a'.Valid
  contents : a'.contents = a.contents

section Ensuring

variable [Zero α] {a a' : Karray α} {size : ℕ}

omit [DecidableEq α] in
theorem Valid.ensured (ha : a.Valid) (h : a.ensureSize size = some a') : a.Ensured a' size := by
  unfold ensureSize at h
  split_ifs at h with hroom
  · cases h
    exact ⟨hroom, rfl, ha, rfl⟩
  · rw [Option.bind_eq_bind, Option.bind_eq_some_iff] at h
    obtain ⟨capacity, hgrow, ha'⟩ := h
    cases ha'
    obtain ⟨hneed, hle⟩ := growLoop_le hgrow
    obtain ⟨-, hmore, -⟩ := growLoop_reach hgrow
    refine ⟨hneed, rfl, ⟨?_, ?_, ?_⟩, ?_⟩
    · simp only [List.length_append, List.length_replicate, ha.length]
      omega
    · exact ha.size.trans hmore
    · have := ha.unsigned
      dsimp only
      omega
    · exact List.take_append_of_le_length (ha.length ▸ ha.size)

omit [DecidableEq α] in
/-- The request was within reach, and the same stays within reach. -/
theorem ensureSize_reach (h : a.ensureSize size = some a') :
    a.size + size ≤ maxCapacity a.capacity ∧ maxCapacity a'.capacity = maxCapacity a.capacity := by
  unfold ensureSize at h
  split_ifs at h with hroom
  · cases h
    exact ⟨hroom.trans (le_maxCapacity _), rfl⟩
  · rw [Option.bind_eq_bind, Option.bind_eq_some_iff] at h
    obtain ⟨capacity, hgrow, ha'⟩ := h
    cases ha'
    obtain ⟨hneed, -, hreach⟩ := growLoop_reach hgrow
    exact ⟨hneed, hreach⟩

omit [DecidableEq α] in
theorem ensureSize_isSome (h : a.size + size ≤ maxCapacity a.capacity) :
    ∃ a', a.ensureSize size = some a' := by
  unfold ensureSize
  split_ifs
  · exact ⟨a, rfl⟩
  · obtain ⟨capacity, hgrow⟩ := growLoop_iff.2 h
    rw [hgrow]
    exact ⟨_, rfl⟩

omit [DecidableEq α] in
/-- Room can be had exactly if the growing capacities reach it. -/
theorem ensureSize_iff (ha : a.Valid) : (∃ a', a.ensureSize size = some a' ∧ a.Ensured a' size) ↔
    a.size + size ≤ maxCapacity a.capacity := by
  constructor
  · rintro ⟨a', ha', -⟩
    exact (ensureSize_reach ha').1
  · intro h
    obtain ⟨a', ha'⟩ := ensureSize_isSome h
    exact ⟨a', ha', ha.ensured ha'⟩

end Ensuring

omit [DecidableEq α] in
theorem valid_init {cells : List α} (h : cells.length < 2 ^ 32) : (init cells).Valid :=
  ⟨rfl, Nat.zero_le _, h⟩

theorem ensureSize_iff_twoCells :
    (∃ a', (init [7, 8]).ensureSize 3 = some a' ∧ (init [7, 8]).Ensured a' 3) ↔
      0 + 3 ≤ maxCapacity 2 :=
  ensureSize_iff (valid_init (by decide))

/-- An array that begins with no cells never gets any. -/
theorem ensureSize_noCells : ¬ ∃ a', (init ([] : List ℕ)).ensureSize 1 = some a' := by
  rintro ⟨a', ha'⟩
  exact absurd (ensureSize_reach ha').1 (by decide)

end Karray

end Moz.Core
