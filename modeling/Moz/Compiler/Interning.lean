import Moz.Compiler.Lowering
import Moz.Lib.Interning

/-!
# The constants of the compiler

`moz_compiler_add_string`, `moz_compiler_add_tag` and `moz_compiler_add_set` intern
their constant in a pool of its kind. Strings are compared with `strncmp`, which
stops at a zero byte, and an id has 16 bits.
-/

namespace Moz.Compiler

open Interning (intern internAll)

/-- The test of `moz_compiler_add_string_id`. -/
def sameName (s t : List UInt8) : Bool := s.length == t.length && strncmpEq s t

theorem strncmpEq_symm {s t : List UInt8} (h : strncmpEq s t) : strncmpEq t s := by
  induction s generalizing t with
  | nil => cases t <;> rfl
  | cons x s ih =>
    cases t with
    | nil => rfl
    | cons y t =>
      simp only [strncmpEq, Bool.and_eq_true, beq_iff_eq, Bool.or_eq_true] at h ⊢
      obtain ⟨rfl, h⟩ := h
      exact ⟨rfl, h.imp_right ih⟩

theorem sameName_similarity : Interning.Similarity sameName where
  refl s := by simp [sameName, strncmpEq_refl]
  symm {s t} h := by
    simp only [sameName, Bool.and_eq_true, beq_iff_eq] at h ⊢
    exact ⟨h.1.symm, strncmpEq_symm h.2⟩

/-- `strncmp` finds no difference up to a zero byte, if there is one. -/
theorem sameName_iff {s t : List UInt8} : sameName s t ↔
    s = t ∨ s.length = t.length ∧ ∃ pre, pre ++ [0] <+: s ∧ pre ++ [0] <+: t := by
  unfold sameName
  rw [Bool.and_eq_true, beq_iff_eq]
  induction s generalizing t with
  | nil => cases t <;> simp [strncmpEq]
  | cons x s ih =>
    cases t with
    | nil => simp
    | cons y t =>
      rw [strncmpEq, Bool.and_eq_true, Bool.or_eq_true, beq_iff_eq, beq_iff_eq, List.length_cons,
        List.length_cons, Nat.add_right_cancel_iff]
      constructor
      · rintro ⟨hlength, rfl, hzero | h⟩
        · subst hzero
          exact .inr ⟨hlength, [], by simp, by simp⟩
        · obtain rfl | ⟨-, pre, hs, ht⟩ := ih.1 ⟨hlength, h⟩
          · exact .inl rfl
          · exact .inr ⟨hlength, x :: pre, List.cons_prefix_cons.2 ⟨rfl, hs⟩,
              List.cons_prefix_cons.2 ⟨rfl, ht⟩⟩
      · rintro (heq | ⟨hlength, pre, hs, ht⟩)
        · obtain ⟨rfl, rfl⟩ := List.cons.inj heq
          exact ⟨rfl, rfl, .inr (strncmpEq_refl s)⟩
        · cases pre with
          | nil =>
            obtain ⟨rfl, -⟩ := List.cons_prefix_cons.1 hs
            obtain ⟨rfl, -⟩ := List.cons_prefix_cons.1 ht
            exact ⟨hlength, rfl, .inl rfl⟩
          | cons a pre =>
            obtain ⟨rfl, hs'⟩ := List.cons_prefix_cons.1 hs
            obtain ⟨rfl, ht'⟩ := List.cons_prefix_cons.1 ht
            exact ⟨hlength, rfl, .inr (ih.2 (.inr ⟨hlength, pre, hs', ht'⟩)).2⟩

inductive Pool
  | strs
  | tags
  | sets
  deriving DecidableEq, Repr

@[reducible] def Pool.Value : Pool → Type
  | .strs | .tags => List UInt8
  | .sets => Bitset

instance (k : Pool) : DecidableEq k.Value := match k with
  | .strs => inferInstanceAs (DecidableEq (List UInt8))
  | .tags => inferInstanceAs (DecidableEq (List UInt8))
  | .sets => inferInstanceAs (DecidableEq Bitset)

def Pool.same : (k : Pool) → k.Value → k.Value → Bool
  | .strs | .tags => sameName
  | .sets => fun x y => x == y

theorem Pool.same_similarity (k : Pool) : Interning.Similarity k.same := by
  cases k with
  | strs => exact sameName_similarity
  | tags => exact sameName_similarity
  | sets =>
    exact {
      refl := fun a => beq_self_eq_true (a : Bitset)
      symm := fun {a b} h => beq_iff_eq.2 (beq_iff_eq.1 h).symm }

def MozCompiler.pool (C : MozCompiler) : (k : Pool) → List k.Value
  | .strs => C.strs
  | .tags => C.tags
  | .sets => C.sets

structure Constant where
  pool : Pool
  value : pool.Value

def MozCompiler.addConstant (C : MozCompiler) : Constant → MozCompiler × UInt16
  | ⟨.strs, str⟩ => mozCompilerAddString C str
  | ⟨.tags, name⟩ => mozCompilerAddTag C name
  | ⟨.sets, set⟩ => mozCompilerAddSet C set

/-- A history of calls: the compiler after it, and the constants with their ids. -/
def MozCompiler.addConstants : MozCompiler → List Constant → MozCompiler × List (Constant × UInt16)
  | C, [] => (C, [])
  | C, c :: cs =>
    let (C, id) := C.addConstant c
    let (C, ids) := C.addConstants cs
    (C, (c, id) :: ids)

/-- The value of a constant that belongs to the pool `k`. -/
def Constant.value? (k : Pool) (c : Constant) : Option k.Value :=
  if h : c.pool = k then some (h ▸ c.value) else none

theorem addConstant_spec (C : MozCompiler) (c : Constant) (k : Pool) :
    (∀ v, c.value? k = some v → (C.addConstant c).1.pool k = (intern k.same (C.pool k) v).1 ∧
      (C.addConstant c).2 = UInt16.ofNat (intern k.same (C.pool k) v).2) ∧
    (c.value? k = none → (C.addConstant c).1.pool k = C.pool k) := by
  obtain ⟨pool, value⟩ := c
  by_cases h : pool = k
  · subst h
    have hvalue : Constant.value? pool ⟨pool, value⟩ = some value := dif_pos rfl
    rw [hvalue]
    refine ⟨?_, fun hnone => by cases hnone⟩
    rintro v ⟨⟩
    cases pool with
    | strs => exact ⟨rfl, rfl⟩
    | tags => exact ⟨rfl, rfl⟩
    | sets =>
      simp only [MozCompiler.addConstant, mozCompilerAddSet, intern, MozCompiler.pool, Pool.same]
      cases C.sets.findIdx? fun x => x == value <;> exact ⟨rfl, rfl⟩
  · have hvalue : Constant.value? k ⟨pool, value⟩ = none := dif_neg h
    rw [hvalue]
    refine ⟨fun v hv => (by cases hv), fun _ => ?_⟩
    cases pool with
    | strs => cases k <;> first | exact absurd rfl h | rfl
    | tags => cases k <;> first | exact absurd rfl h | rfl
    | sets =>
      simp only [MozCompiler.addConstant, mozCompilerAddSet]
      cases C.sets.findIdx? fun x => x == value <;>
        cases k <;> first | exact absurd rfl h | rfl

theorem value?_eq_some {k : Pool} {c : Constant} {v : k.Value} :
    c.value? k = some v ↔ c = ⟨k, v⟩ := by
  obtain ⟨pool, value⟩ := c
  constructor
  · intro h
    unfold Constant.value? at h
    split_ifs at h with hpool
    subst hpool
    rw [← Option.some.inj h]
  · intro h
    obtain ⟨rfl, h⟩ := Constant.mk.inj h
    obtain rfl := eq_of_heq h
    exact dif_pos rfl

theorem addConstants_spec (cs : List Constant) (C : MozCompiler) (k : Pool) :
    (C.addConstants cs).1.pool k = (internAll k.same (C.pool k) (cs.filterMap (·.value? k))).1 ∧
      (C.addConstants cs).2.filterMap (fun x => (x.1.value? k).map (·, x.2)) =
        (internAll k.same (C.pool k) (cs.filterMap (·.value? k))).2.map
          fun x => (x.1, UInt16.ofNat x.2) := by
  induction cs generalizing C with
  | nil => exact ⟨rfl, rfl⟩
  | cons c cs ih =>
    obtain ⟨hsome, hnone⟩ := addConstant_spec C c k
    obtain ⟨hpool, hids⟩ := ih (C.addConstant c).1
    have hcons : C.addConstants (c :: cs) = (((C.addConstant c).1.addConstants cs).1,
        (c, (C.addConstant c).2) :: ((C.addConstant c).1.addConstants cs).2) := rfl
    rw [hcons]
    cases hvalue : c.value? k with
    | none =>
      rw [hnone hvalue] at hpool hids
      rw [List.filterMap_cons_none hvalue, List.filterMap_cons_none (by simp [hvalue])]
      exact ⟨hpool, hids⟩
    | some v =>
      obtain ⟨hnext, hid⟩ := hsome v hvalue
      rw [hnext] at hpool hids
      rw [List.filterMap_cons_some hvalue, Interning.internAll_cons]
      refine ⟨hpool, ?_⟩
      rw [List.filterMap_cons_some (by simp [hvalue]; rfl), hids, List.map_cons, hid]

/-- Each id selects its constant in the end, and of one kind equal constants are those with equal
ids. -/
def Interned (C : MozCompiler) (cs : List Constant) : Prop :=
  (∀ x ∈ (C.addConstants cs).2,
    ((C.addConstants cs).1.pool x.1.pool)[x.2.toNat]? = some x.1.value) ∧
  ∀ x ∈ (C.addConstants cs).2, ∀ y ∈ (C.addConstants cs).2, x.1.pool = y.1.pool →
    (x.1 = y.1 ↔ x.2 = y.2)

/-- Different names of one length differ before a zero byte that both have. -/
def NamesDiffer (names : List (List UInt8)) : Prop :=
  ∀ s ∈ names, ∀ t ∈ names, s.length = t.length →
    (∃ pre, pre ++ [0] <+: s ∧ pre ++ [0] <+: t) → s = t

/-- The comparison tells the strings and the tags apart, and there are ids for all constants. -/
structure Distinguished (cs : List Constant) : Prop where
  strs : NamesDiffer (cs.filterMap (·.value? .strs))
  tags : NamesDiffer (cs.filterMap (·.value? .tags))
  few : ∀ k : Pool, (cs.filterMap (·.value? k)).dedup.length ≤ 2 ^ 16

theorem separated_sameName {names : List (List UInt8)} :
    Interning.Separated sameName names ↔ NamesDiffer names := by
  constructor
  · intro h s hs t ht hlength hpre
    exact h s hs t ht (sameName_iff.2 (.inr ⟨hlength, hpre⟩))
  · intro h s hs t ht hsame
    obtain heq | ⟨hlength, hpre⟩ := sameName_iff.1 hsame
    · exact heq
    · exact h s hs t ht hlength hpre

theorem distinguished_iff {cs : List Constant} : Distinguished cs ↔
    ∀ k : Pool, Interning.Separated k.same (cs.filterMap (·.value? k)) ∧
      (cs.filterMap (·.value? k)).dedup.length ≤ 2 ^ 16 := by
  constructor
  · intro h k
    refine ⟨?_, h.few k⟩
    cases k with
    | strs => exact separated_sameName.2 h.strs
    | tags => exact separated_sameName.2 h.tags
    | sets => exact fun a _ b _ hab => beq_iff_eq.1 hab
  · intro h
    exact {
      strs := separated_sameName.1 (h .strs).1
      tags := separated_sameName.1 (h .tags).1
      few := fun k => (h k).2 }

theorem interned_iff_faithful {C : MozCompiler} (hC : ∀ k, C.pool k = []) {cs : List Constant} :
    Interned C cs ↔
      ∀ k : Pool, Interning.Faithful k.same (2 ^ 16) (cs.filterMap (·.value? k)) := by
  have hmem : ∀ (k : Pool) (v : k.Value) (id : UInt16), (⟨k, v⟩, id) ∈ (C.addConstants cs).2 ↔
      ∃ n, (v, n) ∈ (internAll k.same [] (cs.filterMap (·.value? k))).2 ∧ UInt16.ofNat n = id := by
    intro k v id
    obtain ⟨-, hids⟩ := addConstants_spec cs C k
    rw [hC k] at hids
    have hfilter : (⟨k, v⟩, id) ∈ (C.addConstants cs).2 ↔ (v, id) ∈
        (C.addConstants cs).2.filterMap fun x => (x.1.value? k).map (·, x.2) := by
      rw [List.mem_filterMap]
      constructor
      · intro h
        exact ⟨_, h, by rw [value?_eq_some.2 rfl]; rfl⟩
      · rintro ⟨⟨c, id'⟩, hx, hvalue⟩
        obtain ⟨v', hv', heq⟩ := Option.map_eq_some_iff.1 hvalue
        obtain ⟨rfl, rfl⟩ := Prod.mk.inj heq
        rwa [← value?_eq_some.1 hv']
    rw [hfilter, hids, List.mem_map]
    constructor
    · rintro ⟨⟨v', n⟩, hx, heq⟩
      obtain ⟨rfl, rfl⟩ := Prod.mk.inj heq
      exact ⟨n, hx, rfl⟩
    · rintro ⟨n, hx, rfl⟩
      exact ⟨_, hx, rfl⟩
  have hpool : ∀ k : Pool, (C.addConstants cs).1.pool k =
      (internAll k.same [] (cs.filterMap (·.value? k))).1 := by
    intro k
    rw [(addConstants_spec cs C k).1, hC k]
  have hid : ∀ n : ℕ, (UInt16.ofNat n).toNat = n % 2 ^ 16 := fun n => UInt16.toNat_ofNat'
  constructor
  · rintro ⟨hentry, hids⟩ k
    constructor
    · rintro ⟨v, n⟩ hx
      have hget := hentry _ ((hmem k v _).2 ⟨n, hx, rfl⟩)
      rwa [hid, hpool k] at hget
    · rintro ⟨v, n⟩ hx ⟨v', n'⟩ hx'
      have hiff := hids _ ((hmem k v _).2 ⟨n, hx, rfl⟩) _ ((hmem k v' _).2 ⟨n', hx', rfl⟩) rfl
      rw [← UInt16.toNat_inj, hid, hid] at hiff
      rw [← hiff]
      constructor
      · rintro rfl
        rfl
      · intro heq
        exact eq_of_heq (Constant.mk.inj heq).2
  · intro h
    constructor
    · rintro ⟨⟨k, v⟩, id⟩ hx
      obtain ⟨n, hn, rfl⟩ := (hmem k v id).1 hx
      have hget := (h k).1 _ hn
      rw [hid, hpool k]
      exact hget
    · rintro ⟨⟨k, v⟩, id⟩ hx ⟨⟨k', v'⟩, id'⟩ hx' hk
      obtain rfl : k = k' := hk
      obtain ⟨n, hn, rfl⟩ := (hmem k v id).1 hx
      obtain ⟨n', hn', rfl⟩ := (hmem k v' id').1 hx'
      have hiff := (h k).2 _ hn _ hn'
      rw [← UInt16.toNat_inj, hid, hid, ← hiff]
      constructor
      · intro heq
        exact eq_of_heq (Constant.mk.inj heq).2
      · rintro rfl
        rfl

theorem interned_iff {C : MozCompiler} (hC : ∀ k, C.pool k = []) (cs : List Constant) :
    Interned C cs ↔ Distinguished cs := by
  rw [interned_iff_faithful hC, distinguished_iff]
  exact forall_congr' fun k => Interning.faithful_iff k.same_similarity (by decide)

def freshCompiler : MozCompiler := { decls := [] }

theorem freshCompiler_pool (k : Pool) : freshCompiler.pool k = [] := by cases k <;> rfl

theorem interned_iff_fresh : Interned freshCompiler [⟨.strs, [97]⟩, ⟨.sets, 1⟩, ⟨.strs, [97]⟩] ↔
    Distinguished [⟨.strs, [97]⟩, ⟨.sets, 1⟩, ⟨.strs, [97]⟩] :=
  interned_iff freshCompiler_pool _

/-- Two strings that differ only behind a zero byte. -/
theorem not_interned : ¬ Interned freshCompiler [⟨.strs, [0, 97]⟩, ⟨.strs, [0, 98]⟩] := by
  intro h
  have hentry := h.1 (⟨.strs, [0, 98]⟩, 0) (List.mem_cons_of_mem _ List.mem_cons_self)
  have hstrs : ([[0, 97]] : List (List UInt8))[0]? = some [0, 98] := hentry
  cases hstrs

end Moz.Compiler
