import Moz.Core.Karray

/-!
# Arrays are lists

Each operation of `karray.h` does to the elements what the operation of its name
does to a list, under a condition on the array and the arguments that is exact.
-/

namespace Moz.Core

inductive ArrayCall (α : Type)
  | add (v : α)
  | addOnce (v : α)
  | insert (idx : ℤ) (v : α)
  | remove (idx : ℤ)
  | removeElement (o : α)
  | set (idx : ℤ) (v : α)
  | pop
  | ensureSize (size : ℕ)
  deriving DecidableEq, Repr

namespace ArrayCall

variable {α : Type} [DecidableEq α]

def run [Zero α] (pointer : Bool) (a : Karray α) : ArrayCall α → Option (Karray α)
  | add v => a.add v
  | addOnce v => a.addOnce pointer v
  | insert idx v => a.insert idx v
  | remove idx => a.remove idx
  | removeElement o => a.removeElement pointer o
  | set idx v => a.set idx v
  | pop => a.pop.map Prod.fst
  | ensureSize size => a.ensureSize size

def onList (l : List α) : ArrayCall α → List α
  | add v => l ++ [v]
  | addOnce v => if v ∈ l then l else l ++ [v]
  | insert idx v => l.insertIdx idx.toNat v
  | remove idx => l.eraseIdx idx.toNat
  | removeElement o => l.erase o
  | set idx v => l.set idx.toNat v
  | pop => l.dropLast
  | ensureSize _ => l

/-- The assertions hold, and an index is an `int` and one of the array. -/
def Indexed (a : Karray α) : ArrayCall α → Prop
  | insert idx _ => 0 ≤ idx ∧ idx ≤ asInt a.size
  | remove idx | set idx _ => 0 ≤ idx ∧ idx < a.size ∧ idx < 2 ^ 31
  | removeElement _ | pop => 0 < a.size
  | add _ | addOnce _ | ensureSize _ => True

/-- There is room for one more, and its index is an `int`. -/
def HasRoom (a : Karray α) : Prop := a.size + 1 ≤ maxCapacity a.capacity ∧ a.size < 2 ^ 31

/-- The condition under which a call does what its name says. -/
def Sound (pointer : Bool) (a : Karray α) : ArrayCall α → Prop
  | add _ | insert _ _ => HasRoom a
  | addOnce v => if v ∈ a.contents then pointer = false ∧ a.size < 2 ^ 31 else HasRoom a
  | removeElement o => o ∈ a.contents → pointer = false ∧ a.size < 2 ^ 31
  | pop => a.size ≤ 2 ^ 31
  | ensureSize size => a.size + size ≤ maxCapacity a.capacity
  | remove _ | set _ _ => True

end ArrayCall

namespace Karray

variable {α : Type}

structure Holds (a : Karray α) (l : List α) : Prop where
  valid : a.Valid
  contents : a.contents = l

theorem Valid.holds {a : Karray α} (h : a.Valid) : a.Holds a.contents := ⟨h, rfl⟩

/-- The cells are the elements and what is behind them. -/
theorem Holds.cells {a : Karray α} {l : List α} (h : a.Holds l) :
    ∃ rest, a.list = l ++ rest ∧ a.size = l.length ∧ l.length + rest.length = a.capacity := by
  have hlen : a.size ≤ a.list.length := h.valid.length ▸ h.valid.size
  refine ⟨a.list.drop a.size, ?_, ?_, ?_⟩
  · rw [← h.contents, Karray.contents, List.take_append_drop]
  · rw [← h.contents, Karray.contents, List.length_take_of_le hlen]
  · rw [← h.contents, Karray.contents, List.length_take_of_le hlen, List.length_drop, ← h.valid.length]
    omega

theorem holds_mk {capacity : ℕ} (l rest : List α) (hlen : l.length + rest.length = capacity)
    (hlt : capacity < 2 ^ 32) : Holds ⟨l.length, capacity, l ++ rest⟩ l := by
  refine ⟨⟨?_, ?_, hlt⟩, ?_⟩
  · simpa using hlen
  · dsimp only
    omega
  · exact List.take_left

variable {a a' : Karray α} {l rest : List α}

theorem cell_left (h : a.Holds l) {i : ℕ} (hi : i < l.length) : a.cell i = some l[i] := by
  obtain ⟨rest, hlist, -, -⟩ := h.cells
  have hcell : a.cell i = a.list[i]? := if_pos (by omega)
  rw [hcell, hlist, List.getElem?_append_left hi, List.getElem?_eq_getElem hi]

theorem forEach_holds (h : a.Holds l) (front back : List α) (hl : l = front ++ back) :
    a.forEach (back.length + 1) front.length = some back := by
  obtain ⟨-, -, hsize, -⟩ := h.cells
  induction back generalizing front with
  | nil => exact if_pos (by simp [hsize, hl])
  | cons v back ih =>
    have hrest := ih (front ++ [v]) (by simp [hl])
    have hcell := cell_left h (i := front.length) (by simp [hl])
    have hne : (front.length : ℤ) ≠ a.size := by
      rw [hsize, hl, List.length_append, List.length_cons]
      omega
    rw [List.length_append, List.length_singleton, Nat.cast_add, Nat.cast_one] at hrest
    rw [List.length_cons, forEach, if_neg hne, hcell, hrest]
    simp [hl]

theorem forEachR_holds (h : a.Holds l) (front back : List α) (hl : l = front ++ back) :
    a.forEachR (front.length + 1) (front.length - 1) = some front.reverse := by
  induction front using List.reverseRecOn generalizing back with
  | nil => rfl
  | append_singleton front v ih =>
    have hrest := ih (v :: back) (by simp [hl])
    have hcell := cell_left h (i := front.length) (by simp [hl])
    have hidx : ((front ++ [v]).length : ℤ) - 1 = front.length := by simp
    have hne : (front.length : ℤ) ≠ -1 := by omega
    rw [hidx, List.length_append, List.length_singleton, forEachR, if_neg hne, hcell, hrest]
    simp [hl]

/-- `FOR_EACH_ARRAY` visits the elements in order, and `FOR_EACH_ARRAY_R` in reverse order. -/
structure Visits (a : Karray α) (l : List α) : Prop where
  forward : ∃ rounds, a.forEachArray rounds = some l
  backward : ∃ rounds, a.forEachArrayR rounds = some l.reverse

theorem Holds.visits (h : a.Holds l) : a.Visits l := by
  obtain ⟨-, -, hsize, -⟩ := h.cells
  constructor
  · exact ⟨l.length + 1, forEach_holds h [] l rfl⟩
  · refine ⟨l.length + 1, ?_⟩
    rw [forEachArrayR, hsize]
    split_ifs with hempty
    · rw [List.eq_nil_of_length_eq_zero hempty]
      rfl
    · exact forEachR_holds h l [] (by simp)

theorem set_holds (h : a.Holds l) {i : ℕ} (hi : i < l.length) (v : α) :
    ∃ a', a.set i v = some a' ∧ a'.Holds (l.set i v) := by
  obtain ⟨rest, hlist, hsize, hcap⟩ := h.cells
  have hbound : (0 : ℤ) ≤ i ∧ (i : ℤ).toNat < a.list.length := by
    rw [hlist, List.length_append]
    omega
  have hset : a.list.set i v = l.set i v ++ rest := by rw [hlist, List.set_append_left i v hi]
  refine ⟨_, if_pos hbound, ?_⟩
  have hmk := holds_mk (l.set i v) rest (by simpa using hcap) h.valid.unsigned
  rw [List.length_set, ← hset, ← hsize] at hmk
  exact hmk

theorem Holds.room (h : a.Holds l) (hroom : a.size + 1 ≤ a.capacity) :
    ∃ x rest, a.list = l ++ x :: rest := by
  obtain ⟨rest, hlist, hsize, hcap⟩ := h.cells
  cases rest with
  | nil =>
    rw [List.length_nil] at hcap
    omega
  | cons x rest => exact ⟨x, rest, hlist⟩

theorem ensureSize_holds [Zero α] {size : ℕ} (h : a.Holds l) (ha' : a.ensureSize size = some a') :
    a'.Holds l ∧ a'.size = a.size ∧ a.size + size ≤ a'.capacity :=
  have hensured := h.valid.ensured ha'
  ⟨⟨hensured.valid, hensured.contents.trans h.contents⟩, hensured.size, hensured.room⟩

theorem add_holds [Zero α] (h : a.Holds l) (hroom : ArrayCall.HasRoom a) (v : α) :
    ∃ a', a.add v = some a' ∧ a'.Holds (l ++ [v]) := by
  obtain ⟨a₁, ha₁⟩ := ensureSize_isSome hroom.1
  obtain ⟨h₁, hsize₁, hcap₁⟩ := ensureSize_holds h ha₁
  rw [← hsize₁] at hcap₁
  obtain ⟨x, rest, hlist⟩ := h₁.room hcap₁
  obtain ⟨-, -, hsize, -⟩ := h₁.cells
  have hint : asInt a₁.size = l.length := by rw [← hsize]; exact asInt_of_lt (hsize₁ ▸ hroom.2)
  have hwide : Holds { a₁ with size := a₁.size + 1 } (l ++ [x]) := by
    have hlen : (l ++ [x]).length + rest.length = a₁.capacity := by
      rw [← h₁.valid.length, hlist]
      simp
      omega
    have hmk := holds_mk _ _ hlen h₁.valid.unsigned
    rw [List.append_assoc, List.singleton_append, ← hlist, List.length_append, ← hsize] at hmk
    exact hmk
  obtain ⟨a', ha', hholds⟩ := set_holds hwide (i := l.length) (by simp) v
  refine ⟨a', ?_, ?_⟩
  · rw [add, ha₁, ← ha', ← hint]
    rfl
  · simpa using hholds

theorem hasRoom_of_add [Zero α] {v : α} (h : a.add v = some a') (ha : a.Valid) :
    ArrayCall.HasRoom a := by
  rw [add, Option.bind_eq_bind, Option.bind_eq_some_iff] at h
  obtain ⟨a₁, ha₁, hset⟩ := h
  refine ⟨(ensureSize_reach ha₁).1, ?_⟩
  have hsize := (ha.ensured ha₁).size
  by_contra hlarge
  have hneg : ¬ ((0 : ℤ) ≤ asInt a₁.size ∧ (asInt a₁.size).toNat < a₁.list.length) := by
    have hlt := ha.unsigned
    have hle := ha.size
    rw [hsize, asInt, if_neg (by omega)]
    omega
  dsimp only at hset
  rw [set, if_neg hneg] at hset
  cases hset

theorem add_reach [Zero α] {v : α} (h : a.add v = some a') :
    maxCapacity a'.capacity = maxCapacity a.capacity := by
  rw [add, Option.bind_eq_bind, Option.bind_eq_some_iff] at h
  obtain ⟨a₁, ha₁, hset⟩ := h
  dsimp only at hset
  unfold set at hset
  split_ifs at hset
  cases hset
  exact (ensureSize_reach ha₁).2

theorem memmove_eq (a : Karray α) (dst src n : ℕ) (hdst : dst + n ≤ a.list.length) (hsrc : src + n ≤ a.list.length) :
    a.memmove dst src n = some { a with
      list := a.list.take dst ++ (a.list.drop src).take n ++ a.list.drop (dst + n) } :=
  if_pos ⟨Int.natCast_nonneg dst, hdst, Int.natCast_nonneg src, hsrc⟩

theorem remove_holds (h : a.Holds l) {i : ℕ} (hi : i < l.length) :
    ∃ a', a.remove i = some a' ∧ a'.Holds (l.eraseIdx i) := by
  obtain ⟨rest, hlist, hsize, hcap⟩ := h.cells
  have hlt := h.valid.unsigned
  have hn : asUnsigned (a.size - i - 1) = l.length - (i + 1) := by
    have hcast : (a.size : ℤ) - i - 1 = ((l.length - (i + 1) : ℕ) : ℤ) := by omega
    rw [hcast]
    exact asUnsigned_of_lt (by omega)
  have hlen : a.list.length = a.capacity := h.valid.length
  have hmove := memmove_eq a i (i + 1) (l.length - (i + 1)) (by omega) (by omega)
  have hcells : a.list.take i ++ (a.list.drop (i + 1)).take (l.length - (i + 1)) ++
      a.list.drop (i + (l.length - (i + 1))) =
      l.eraseIdx i ++ a.list.drop (l.length - 1) := by
    have htake : a.list.take i = l.take i := by rw [hlist, List.take_append_of_le_length (by omega)]
    have hdrop : (a.list.drop (i + 1)).take (l.length - (i + 1)) = l.drop (i + 1) := by
      rw [hlist, List.drop_append_of_le_length (by omega), List.take_append_of_le_length (by simp)]
      exact List.take_of_length_le (by simp)
    have hindex : i + (l.length - (i + 1)) = l.length - 1 := by omega
    rw [htake, hdrop, hindex, List.eraseIdx_eq_take_drop_succ]
  have hsize' : a.size - 1 = (l.eraseIdx i).length := by rw [List.length_eraseIdx_of_lt hi, hsize]
  refine ⟨⟨a.size - 1, a.capacity, l.eraseIdx i ++ a.list.drop (l.length - 1)⟩, ?_, ?_⟩
  · have hne : a.size ≠ 0 := by omega
    have hsrc : (i : ℤ) + 1 = (i + 1 : ℕ) := by omega
    rw [remove, if_neg hne, hn, hsrc, hmove, hcells]
    rfl
  · rw [hsize']
    apply holds_mk _ _ _ hlt
    rw [← hsize', List.length_drop, hlen]
    omega

theorem insertIdx_eq_take_drop {i : ℕ} (hi : i ≤ l.length) (v : α) :
    l.insertIdx i v = l.take i ++ v :: l.drop i := by
  induction l generalizing i with
  | nil =>
    obtain rfl : i = 0 := Nat.le_zero.1 hi
    rfl
  | cons x l ih =>
    cases i with
    | zero => rfl
    | succ i =>
      rw [List.insertIdx_succ_cons, ih (Nat.le_of_succ_le_succ hi)]
      rfl

theorem insert_holds [Zero α] (h : a.Holds l) (hroom : ArrayCall.HasRoom a) {i : ℕ}
    (hi : i ≤ l.length) (v : α) : ∃ a', a.insert i v = some a' ∧ a'.Holds (l.insertIdx i v) := by
  obtain ⟨-, -, hsize, -⟩ := h.cells
  have hint : asInt a.size = l.length := by rw [← hsize]; exact asInt_of_lt hroom.2
  have hassert : ¬ ¬ ((i : ℤ) ≤ asInt a.size ∧ (0 : ℤ) ≤ i) := by
    rw [hint]
    omega
  rw [insert, if_neg hassert, hint]
  rcases Nat.lt_or_ge i l.length with hlt | hge
  · obtain ⟨a₁, ha₁⟩ := ensureSize_isSome hroom.1
    obtain ⟨h₁, hsize₁, hcap₁⟩ := ensureSize_holds h ha₁
    rw [← hsize₁] at hcap₁
    obtain ⟨x, rest, hlist⟩ := h₁.room hcap₁
    obtain ⟨-, -, hlength, -⟩ := h₁.cells
    have hlen := h₁.valid.length
    have hn : asUnsigned (a₁.size - i) = l.length - i := by
      have hcast : (a₁.size : ℤ) - i = ((l.length - i : ℕ) : ℤ) := by omega
      rw [hcast]
      exact asUnsigned_of_lt (by have := h₁.valid.unsigned; omega)
    have hmove := memmove_eq a₁ (i + 1) i (l.length - i) (by omega) (by omega)
    have hcells : a₁.list.take (i + 1) ++ (a₁.list.drop i).take (l.length - i) ++
        a₁.list.drop (i + 1 + (l.length - i)) = l.take (i + 1) ++ l.drop i ++ rest := by
      have htake : a₁.list.take (i + 1) = l.take (i + 1) := by
        rw [hlist, List.take_append_of_le_length (by omega)]
      have hmiddle : (a₁.list.drop i).take (l.length - i) = l.drop i := by
        rw [hlist, List.drop_append_of_le_length (by omega), List.take_append_of_le_length (by simp)]
        exact List.take_of_length_le (by simp)
      have hindex : i + 1 + (l.length - i) = l.length + 1 := by omega
      rw [htake, hmiddle, hindex, hlist, List.drop_append]
      simp
    have hwide : Holds ⟨a₁.size + 1, a₁.capacity, l.take (i + 1) ++ l.drop i ++ rest⟩
        (l.take (i + 1) ++ l.drop i) := by
      have hwidth : (l.take (i + 1) ++ l.drop i).length = a₁.size + 1 := by
        rw [List.length_append, List.length_take_of_le (by omega), List.length_drop]
        omega
      rw [← hwidth]
      apply holds_mk _ _ _ h₁.valid.unsigned
      rw [hwidth, ← hlen, hlist, List.length_append, List.length_cons]
      omega
    obtain ⟨a', ha', hholds⟩ := set_holds hwide (i := i)
      (by rw [List.length_append, List.length_take_of_le (by omega)]; omega) v
    have hset : (l.take (i + 1) ++ l.drop i).set i v = l.insertIdx i v := by
      rw [List.take_succ_eq_append_getElem hlt, List.append_assoc, List.set_append_right _ _ (by simp)]
      simp [insertIdx_eq_take_drop hi, hi]
    refine ⟨a', ?_, hset ▸ hholds⟩
    have hne : (l.length : ℤ) ≠ i := by omega
    have hdst : (i : ℤ) + 1 = (i + 1 : ℕ) := by omega
    rw [if_neg hne, ha₁]
    show (a₁.memmove (i + 1) i (asUnsigned (a₁.size - i))).bind _ = _
    rw [hn, hdst, hmove, hcells]
    exact ha'
  · have heq : i = l.length := by omega
    rw [if_pos (by omega), heq, List.insertIdx_length_self]
    exact add_holds h hroom v

section Searching

variable [DecidableEq α] {pointer : Bool}

theorem indexOf_pointer (a : Karray α) (v : α) : a.indexOf true v = none := by
  rw [indexOf, List.find?_eq_none]
  intro i _
  simp

theorem indexOf_of_large (h : 2 ^ 31 ≤ a.size) (hlt : a.size < 2 ^ 32) (v : α) :
    a.indexOf pointer v = none := by
  have hint : (asInt a.size).toNat = 0 := by
    rw [asInt, if_neg (by omega)]
    omega
  rw [indexOf, hint]
  rfl

/-- The search of the macros is the search in the list. -/
theorem indexOf_eq (h : a.Holds l) (hsmall : a.size < 2 ^ 31) (v : α) :
    a.indexOf false v = l.idxOf? v := by
  obtain ⟨-, -, hsize, -⟩ := h.cells
  have hint : (asInt a.size).toNat = l.length := by rw [asInt_of_lt hsmall, hsize, Int.toNat_natCast]
  have htest : ∀ i (hi : i < l.length), a.cell i = some v ↔ l[i] = v := by
    intro i hi
    rw [cell_left h hi]
    simp
  apply Option.ext
  intro i
  rw [indexOf, hint, List.find?_range_eq_some, List.mem_range, List.idxOf?_eq_some_iff]
  constructor
  · rintro ⟨hi, hlt, hfirst⟩
    refine ⟨hlt, by simpa [htest i hlt] using hi, fun j hj => ?_⟩
    simpa [htest j (hj.trans hlt)] using hfirst j hj
  · rintro ⟨hlt, hi, hfirst⟩
    refine ⟨by simpa [htest i hlt] using hi, hlt, fun j hj => ?_⟩
    simpa [htest j (hj.trans hlt)] using hfirst j hj

end Searching

end Karray

namespace ArrayCall

variable {α : Type} [DecidableEq α] [Zero α] {pointer : Bool} {a a' : Karray α} {call : ArrayCall α}

def Follows (pointer : Bool) (a : Karray α) (call : ArrayCall α) : Prop :=
  ∃ a', call.run pointer a = some a' ∧ a'.Holds (call.onList a.contents)

theorem follows_add (pointer : Bool) (ha : a.Valid) (v : α) : Follows pointer a (add v) ↔ HasRoom a := by
  constructor
  · rintro ⟨a', ha', -⟩
    exact Karray.hasRoom_of_add ha' ha
  · intro h
    exact Karray.add_holds ha.holds h v

omit [Zero α] in
theorem indexOf_ne_none (ha : a.Valid) {v : α} {i : ℕ} (h : a.indexOf pointer v = some i) :
    pointer = false ∧ a.size < 2 ^ 31 ∧ a.contents.idxOf? v = some i := by
  have hpointer : pointer = false := by
    cases pointer with
    | false => rfl
    | true =>
      rw [Karray.indexOf_pointer] at h
      cases h
  have hsmall : a.size < 2 ^ 31 := by
    by_contra hlarge
    rw [Karray.indexOf_of_large (by omega) (ha.size.trans_lt ha.unsigned)] at h
    cases h
  rw [hpointer, Karray.indexOf_eq ha.holds hsmall] at h
  exact ⟨hpointer, hsmall, h⟩

theorem follows_addOnce (ha : a.Valid) (v : α) :
    Follows pointer a (addOnce v) ↔ (addOnce v).Sound pointer a := by
  have hlist : (addOnce v).onList a.contents = if v ∈ a.contents then a.contents
      else a.contents ++ [v] := rfl
  cases hindex : a.indexOf pointer v with
  | some i =>
    obtain ⟨hpointer, hsmall, hi⟩ := indexOf_ne_none ha hindex
    have hmem : v ∈ a.contents := List.isSome_idxOf?.1 (Option.isSome_of_eq_some hi)
    have hrun : (addOnce v).run pointer a = some a := by rw [run, Karray.addOnce, hindex]
    rw [Sound, if_pos hmem]
    constructor
    · exact fun _ => ⟨hpointer, hsmall⟩
    · intro _
      refine ⟨a, hrun, ?_⟩
      rw [hlist, if_pos hmem]
      exact ha.holds
  | none =>
    have hrun : (addOnce v).run pointer a = a.add v := by rw [run, Karray.addOnce, hindex]
    rw [Sound, Follows, hrun, hlist]
    split_ifs with hmem
    · -- an equal element was not found, and is added once more
      constructor
      · rintro ⟨a', ha', hholds⟩
        obtain ⟨a'', ha'', hholds'⟩ := Karray.add_holds ha.holds (Karray.hasRoom_of_add ha' ha) v
        have hsame : a'' = a' := Option.some.inj (ha''.symm.trans ha')
        have hlength := congrArg List.length (hholds.contents.symm.trans (hsame ▸ hholds'.contents))
        simp at hlength
      · rintro ⟨rfl, hsmall⟩
        rw [Karray.indexOf_eq ha.holds hsmall, List.idxOf?_eq_none_iff] at hindex
        exact absurd hmem hindex
    · exact follows_add pointer ha v

theorem follows_insert (ha : a.Valid) {idx : ℤ} (v : α) (hidx : (insert idx v).Indexed a) :
    Follows pointer a (insert idx v) ↔ HasRoom a := by
  obtain ⟨hnonneg, hle⟩ := hidx
  obtain ⟨i, rfl⟩ := Int.eq_ofNat_of_zero_le hnonneg
  obtain ⟨-, -, hsize, -⟩ := ha.holds.cells
  have hsmall : a.size < 2 ^ 31 := by
    by_contra hlarge
    rw [asInt, if_neg hlarge] at hle
    have := ha.size.trans_lt ha.unsigned
    omega
  rw [asInt_of_lt hsmall] at hle
  constructor
  · rintro ⟨a', ha', -⟩
    rw [run, Karray.insert, asInt_of_lt hsmall, if_neg (by omega)] at ha'
    split_ifs at ha' with hend
    · exact Karray.hasRoom_of_add ha' ha
    · rw [Option.bind_eq_bind, Option.bind_eq_some_iff] at ha'
      obtain ⟨a₁, ha₁, -⟩ := ha'
      exact ⟨(Karray.ensureSize_reach ha₁).1, hsmall⟩
  · intro h
    exact Karray.insert_holds ha.holds h (by omega) v

theorem follows_removeElement (ha : a.Valid) (o : α) (hidx : (removeElement o).Indexed a) :
    Follows pointer a (removeElement o) ↔ (removeElement o).Sound pointer a := by
  have hne : ¬ a.size = 0 := Nat.pos_iff_ne_zero.1 hidx
  have hlist : (removeElement o).onList a.contents = a.contents.erase o := rfl
  cases hindex : a.indexOf pointer o with
  | some i =>
    obtain ⟨hpointer, hsmall, hi⟩ := indexOf_ne_none ha hindex
    have hrun : (removeElement o).run pointer a = a.remove i := by
      rw [run, Karray.removeElement, if_neg hne, hindex]
    constructor
    · exact fun _ _ => ⟨hpointer, hsmall⟩
    · intro _
      obtain ⟨hlt, -⟩ := List.idxOf?_eq_some_iff.1 hi
      have herase : a.contents.erase o = a.contents.eraseIdx i := by rw [List.erase_eq_eraseIdx, hi]
      rw [Follows, hrun, hlist, herase]
      exact Karray.remove_holds ha.holds hlt
  | none =>
    have hrun : (removeElement o).run pointer a = some a := by
      rw [run, Karray.removeElement, if_neg hne, hindex]
    rw [Follows, hrun, hlist]
    constructor
    · rintro ⟨a', ha', hholds⟩ hmem
      cases ha'
      have hlength := congrArg List.length hholds.contents
      rw [List.length_erase_of_mem hmem] at hlength
      have hpos := List.length_pos_of_mem hmem
      omega
    · intro hsound
      have hmem : o ∉ a.contents := by
        intro hmem
        obtain ⟨rfl, hsmall⟩ := hsound hmem
        rw [Karray.indexOf_eq ha.holds hsmall, List.idxOf?_eq_none_iff] at hindex
        exact hindex hmem
      refine ⟨a, rfl, ?_⟩
      rw [List.erase_of_not_mem hmem]
      exact ha.holds

theorem follows_pop (ha : a.Valid) (hidx : (pop : ArrayCall α).Indexed a) :
    Follows pointer a pop ↔ a.size ≤ 2 ^ 31 := by
  have hpos : 0 < a.size := hidx
  have hlt := ha.size.trans_lt ha.unsigned
  obtain ⟨rest, hlist, hsize, hcap⟩ := ha.holds.cells
  have hlast : asUnsigned ((a.size : ℤ) - 1) = a.size - 1 := by
    have hcast : (a.size : ℤ) - 1 = ((a.size - 1 : ℕ) : ℤ) := by omega
    rw [hcast]
    exact asUnsigned_of_lt (by omega)
  have hrun : pop.run pointer a = (a.cell (asInt (a.size - 1))).map fun _ => { a with size := a.size - 1 } := by
    rw [run, Karray.pop, hlast]
    cases a.cell (asInt (a.size - 1)) <;> rfl
  rw [Follows, hrun]
  constructor
  · rintro ⟨a', ha', -⟩
    by_contra hlarge
    have hneg : ¬ (0 : ℤ) ≤ asInt (a.size - 1) := by
      rw [asInt, if_neg (by omega)]
      omega
    rw [Karray.cell, if_neg hneg] at ha'
    cases ha'
  · intro hsmall
    have hcell := Karray.cell_left ha.holds (i := a.size - 1) (by omega)
    rw [asInt_of_lt (by omega), hcell]
    refine ⟨_, rfl, ⟨ha.length, (Nat.sub_le a.size 1).trans ha.size, ha.unsigned⟩, ?_⟩
    show a.list.take (a.size - 1) = a.contents.dropLast
    rw [List.dropLast_eq_take, ← hsize, Karray.contents, List.take_take, min_eq_left (by omega)]

/-- A call follows its name exactly under its condition. -/
theorem follows_iff (pointer : Bool) (ha : a.Valid) (hidx : call.Indexed a) :
    Follows pointer a call ↔ call.Sound pointer a := by
  obtain ⟨-, -, hsize, -⟩ := ha.holds.cells
  cases call with
  | add v => exact follows_add pointer ha v
  | addOnce v => exact follows_addOnce ha v
  | insert idx v => exact follows_insert ha v hidx
  | remove idx =>
    obtain ⟨hnonneg, hlt, -⟩ := hidx
    obtain ⟨i, rfl⟩ := Int.eq_ofNat_of_zero_le hnonneg
    exact iff_of_true (Karray.remove_holds ha.holds (by omega)) trivial
  | removeElement o => exact follows_removeElement ha o hidx
  | set idx v =>
    obtain ⟨hnonneg, hlt, -⟩ := hidx
    obtain ⟨i, rfl⟩ := Int.eq_ofNat_of_zero_le hnonneg
    exact iff_of_true (Karray.set_holds ha.holds (by omega) v) trivial
  | pop => exact follows_pop ha hidx
  | ensureSize size =>
    constructor
    · rintro ⟨a', ha', -⟩
      exact (Karray.ensureSize_reach ha').1
    · intro h
      obtain ⟨a', ha'⟩ := Karray.ensureSize_isSome h
      exact ⟨a', ha', (Karray.ensureSize_holds ha.holds ha').1⟩

/-- Each call has allowed indices in the array the calls before it lead to. -/
def AllIndexed (pointer : Bool) : Karray α → List (ArrayCall α) → Prop
  | _, [] => True
  | a, call :: calls => call.Indexed a ∧ ∀ a', call.run pointer a = some a' → AllIndexed pointer a' calls

/-- Each call meets its condition in the array the calls before it lead to. -/
def AllSound (pointer : Bool) : Karray α → List (ArrayCall α) → Prop
  | _, [] => True
  | a, call :: calls => call.Sound pointer a ∧ ∀ a', call.run pointer a = some a' → AllSound pointer a' calls

/-- The array is the list at the beginning and after each call. -/
def AllFollow (pointer : Bool) : Karray α → List α → List (ArrayCall α) → Prop
  | a, l, [] => a.Holds l ∧ a.Visits l
  | a, l, call :: calls => (a.Holds l ∧ a.Visits l) ∧
      ∃ a', call.run pointer a = some a' ∧ AllFollow pointer a' (call.onList l) calls

theorem AllFollow.holds {l : List α} {calls : List (ArrayCall α)} (h : AllFollow pointer a l calls) :
    a.Holds l := by
  cases calls with
  | nil => exact h.1
  | cons call calls => exact h.1.1

theorem allFollow_iff {l : List α} {calls : List (ArrayCall α)} (ha : a.Holds l)
    (hidx : AllIndexed pointer a calls) : AllFollow pointer a l calls ↔ AllSound pointer a calls := by
  induction calls generalizing a l with
  | nil => exact iff_of_true ⟨ha, ha.visits⟩ trivial
  | cons call calls ih =>
    obtain ⟨hindexed, hrest⟩ := hidx
    have hcall := follows_iff pointer ha.valid hindexed
    rw [Follows, ha.contents] at hcall
    constructor
    · rintro ⟨-, a', ha', hfollow⟩
      refine ⟨hcall.1 ⟨a', ha', hfollow.holds⟩, fun a'' ha'' => ?_⟩
      have hsame : a' = a'' := Option.some.inj (ha'.symm.trans ha'')
      exact hsame ▸ (ih hfollow.holds (hrest a' ha')).1 hfollow
    · rintro ⟨hsound, hall⟩
      obtain ⟨a', ha', hholds⟩ := hcall.2 hsound
      exact ⟨⟨ha, ha.visits⟩, a', ha', (ih hholds (hrest a' ha')).2 (hall a' ha')⟩

/-- An array follows the list through a sequence of calls exactly if each call meets its condition
when it is made. -/
theorem arrays_are_lists (pointer : Bool) (cells : List α) (calls : List (ArrayCall α))
    (hlt : cells.length < 2 ^ 32) (hidx : AllIndexed pointer (.init cells) calls) :
    AllFollow pointer (.init cells) [] calls ↔ AllSound pointer (.init cells) calls :=
  allFollow_iff ⟨Karray.valid_init hlt, rfl⟩ hidx

theorem arrays_are_lists_threeCells :
    AllFollow false (.init [9, 9, 9]) [] [add 1, insert 0 2, removeElement 1, pop] ↔
      AllSound false (.init [9, 9, 9]) [add 1, insert 0 2, removeElement 1, pop] := by
  apply arrays_are_lists
  · decide
  · refine ⟨trivial, fun a₁ ha₁ => ⟨?_, fun a₂ ha₂ => ⟨?_, fun a₃ ha₃ => ⟨?_, fun _ _ => trivial⟩⟩⟩⟩
    all_goals cases ha₁
    · exact ⟨by decide, by decide⟩
    all_goals cases ha₂
    · exact (by decide : 0 < 2)
    all_goals cases ha₃
    · exact (by decide : 0 < 1)

/-- An array of no cells does not take an element. -/
theorem add_noCells : ¬ AllFollow false (.init ([] : List ℕ)) [] [add 7] := by
  rintro ⟨-, a', ha', -⟩
  have hroom := Karray.hasRoom_of_add ha' (Karray.valid_init (by decide))
  exact absurd hroom.1 (by decide)

end ArrayCall

end Moz.Core
