import Mathlib.Data.Finset.Card
import Mathlib.Data.List.Dedup

/-!
# Interning

A value is looked up in a pool by an equivalence test and added at the end when there
is no entry for it. Its number is the index of the entry, of which only the remainder
by a bound is kept. The numbers tell the values apart, and lead back to them, exactly
when the test does and the values are not more than the bound.
-/

namespace Moz.Interning

variable {α : Type}

/-- The pool when `a` is in it, and the number of `a`. -/
def intern (same : α → α → Bool) (pool : List α) (a : α) : List α × ℕ :=
  match pool.findIdx? fun x => same x a with
  | some i => (pool, i)
  | none => (pool ++ [a], pool.length)

/-- The pool when the values are in it, and each of them with its number. -/
def internAll (same : α → α → Bool) : List α → List α → List α × List (α × ℕ)
  | pool, [] => (pool, [])
  | pool, a :: as =>
    let (pool, n) := intern same pool a
    let (pool, ns) := internAll same pool as
    (pool, (a, n) :: ns)

structure Similarity (same : α → α → Bool) : Prop where
  refl : ∀ a, same a a
  symm : ∀ {a b}, same a b → same b a

section Laws

variable {same : α → α → Bool} {pool : List α} {a b : α} {as : List α} {n : ℕ}

theorem internAll_cons (pool : List α) (a : α) (as : List α) :
    internAll same pool (a :: as) = ((internAll same (intern same pool a).1 as).1,
      (a, (intern same pool a).2) :: (internAll same (intern same pool a).1 as).2) := rfl

theorem intern_cases (pool : List α) (a : α) :
    (∃ n b, pool[n]? = some b ∧ same b a ∧ intern same pool a = (pool, n)) ∨
      (∀ b ∈ pool, ¬ same b a) ∧ intern same pool a = (pool ++ [a], pool.length) := by
  unfold intern
  cases h : pool.findIdx? fun x => same x a with
  | some n =>
    obtain ⟨hn, hsame, -⟩ := List.findIdx?_eq_some_iff_getElem.1 h
    exact .inl ⟨n, _, List.getElem?_eq_getElem hn, hsame, rfl⟩
  | none =>
    right
    refine ⟨?_, rfl⟩
    intro b hb
    have hnot := List.findIdx?_eq_none_iff.1 h b hb
    simpa using hnot

theorem intern_isPrefix (pool : List α) (a : α) : pool <+: (intern same pool a).1 := by
  obtain ⟨n, b, -, -, heq⟩ | ⟨-, heq⟩ := @intern_cases α same pool a <;> rw [heq]
  exact List.prefix_append _ _

theorem internAll_isPrefix (as : List α) (pool : List α) :
    pool <+: (internAll same pool as).1 := by
  induction as generalizing pool with
  | nil => exact List.prefix_rfl
  | cons a as ih => exact (intern_isPrefix pool a).trans (ih _)

theorem internAll_pairwise (as : List α) {pool : List α}
    (h : pool.Pairwise fun a b => ¬ same a b) :
    (internAll same pool as).1.Pairwise fun a b => ¬ same a b := by
  induction as generalizing pool with
  | nil => exact h
  | cons a as ih =>
    rw [internAll_cons]
    apply ih
    obtain ⟨n, b, -, -, heq⟩ | ⟨hnew, heq⟩ := @intern_cases α same pool a
    · rwa [heq]
    · rw [heq]
      refine List.pairwise_append.2 ⟨h, List.pairwise_singleton _ _, ?_⟩
      intro b hb c hc
      rw [List.mem_singleton.1 hc]
      exact hnew b hb

theorem mem_of_mem_internAll {as pool : List α} (h : b ∈ (internAll same pool as).1) :
    b ∈ pool ∨ b ∈ as := by
  induction as generalizing pool with
  | nil => exact .inl h
  | cons a as ih =>
    rw [internAll_cons] at h
    obtain h | h := ih h
    · obtain ⟨n, b', -, -, heq⟩ | ⟨-, heq⟩ := @intern_cases α same pool a
      · rw [heq] at h
        exact .inl h
      · rw [heq] at h
        obtain h | h := List.mem_append.1 h
        · exact .inl h
        · exact .inr (List.mem_singleton.1 h ▸ List.mem_cons_self)
    · exact .inr (List.mem_cons_of_mem _ h)

/-- A number leads to an entry that is the same as its value. -/
theorem internAll_entry (hsame : Similarity same) {as pool : List α}
    (h : (a, n) ∈ (internAll same pool as).2) :
    a ∈ as ∧ ∃ b, (internAll same pool as).1[n]? = some b ∧ same b a := by
  induction as generalizing pool with
  | nil => cases h
  | cons a' as ih =>
    obtain h | h := List.mem_cons.1 h
    · obtain ⟨rfl, rfl⟩ := Prod.mk.inj h
      refine ⟨List.mem_cons_self, ?_⟩
      obtain ⟨post, hpost⟩ := @internAll_isPrefix α same as (intern same pool a).1
      have hentry : ∃ b, (intern same pool a).1[(intern same pool a).2]? = some b ∧ same b a := by
        obtain ⟨n, b, hn, hb, heq⟩ | ⟨-, heq⟩ := @intern_cases α same pool a
        · rw [heq]
          exact ⟨b, hn, hb⟩
        · rw [heq]
          exact ⟨a, List.getElem?_concat_length, hsame.refl a⟩
      obtain ⟨b, hget, hb⟩ := hentry
      refine ⟨b, ?_, hb⟩
      show (internAll same (intern same pool a).1 as).1[(intern same pool a).2]? = some b
      rw [← hpost, List.getElem?_append_left (List.getElem?_eq_some_iff.1 hget).1, hget]
    · obtain ⟨hmem, hentry⟩ := ih h
      exact ⟨List.mem_cons_of_mem _ hmem, hentry⟩

theorem exists_number {as : List α} (h : a ∈ as) (pool : List α) :
    ∃ n, (a, n) ∈ (internAll same pool as).2 := by
  induction as generalizing pool with
  | nil => cases h
  | cons a' as ih =>
    obtain rfl | h := List.mem_cons.1 h
    · exact ⟨_, List.mem_cons_self⟩
    · obtain ⟨n, hn⟩ := ih h (intern same pool a').1
      exact ⟨n, List.mem_cons_of_mem _ hn⟩

/-- The number of a new entry is the number of a value. -/
theorem exists_value {as pool : List α} (hn : pool.length ≤ n)
    (hlt : n < (internAll same pool as).1.length) : ∃ a, (a, n) ∈ (internAll same pool as).2 := by
  induction as generalizing pool with
  | nil => exact absurd hlt (Nat.not_lt.2 hn)
  | cons a as ih =>
    by_cases hnext : (intern same pool a).1.length ≤ n
    · obtain ⟨a', ha'⟩ := ih hnext hlt
      exact ⟨a', List.mem_cons_of_mem _ ha'⟩
    · refine ⟨a, ?_⟩
      obtain ⟨n', b, -, -, heq⟩ | ⟨-, heq⟩ := @intern_cases α same pool a
      · rw [heq] at hnext
        exact absurd hn hnext
      · have hlast : n = (intern same pool a).2 := by
          rw [heq, List.length_append, List.length_singleton] at hnext
          rw [heq]
          exact Nat.le_antisymm (by omega) hn
        rw [hlast]
        exact List.mem_cons_self

theorem eq_of_same (hsame : Similarity same) {pool : List α} (h : pool.Pairwise fun a b => ¬ same a b)
    (ha : a ∈ pool) (hb : b ∈ pool) (hab : same a b) : a = b := by
  induction h with
  | nil => cases ha
  | cons hhead _ ih =>
    obtain rfl | ha' := List.mem_cons.1 ha
    · obtain rfl | hb' := List.mem_cons.1 hb
      · rfl
      · exact absurd hab (hhead b hb')
    · obtain rfl | hb' := List.mem_cons.1 hb
      · exact absurd (hsame.symm hab) (hhead a ha')
      · exact ih ha' hb'

end Laws

section Bound

variable [DecidableEq α] {same : α → α → Bool} {as : List α} {bound : ℕ}

/-- Each number leads to its value, and equal values are those with equal numbers. -/
def Faithful (same : α → α → Bool) (bound : ℕ) (as : List α) : Prop :=
  (∀ x ∈ (internAll same [] as).2, (internAll same [] as).1[x.2 % bound]? = some x.1) ∧
    ∀ x ∈ (internAll same [] as).2, ∀ y ∈ (internAll same [] as).2,
      x.1 = y.1 ↔ x.2 % bound = y.2 % bound

def Separated (same : α → α → Bool) (as : List α) : Prop := ∀ a ∈ as, ∀ b ∈ as, same a b → a = b

theorem faithful_iff (hsame : Similarity same) (hbound : 0 < bound) :
    Faithful same bound as ↔ Separated same as ∧ as.dedup.length ≤ bound := by
  have hpairwise := @internAll_pairwise α same as [] List.Pairwise.nil
  have hnodup : (internAll same [] as).1.Nodup :=
    hpairwise.imp fun {a b} hnot (heq : a = b) => hnot (heq ▸ hsame.refl a)
  have hsub : ∀ b ∈ (internAll same [] as).1, b ∈ as := by
    intro b hb
    obtain hb | hb := mem_of_mem_internAll hb
    · cases hb
    · exact hb
  have hlength : (∀ a ∈ as, a ∈ (internAll same [] as).1) →
      (internAll same [] as).1.length = as.dedup.length := by
    intro hsub'
    rw [← List.toFinset_card_of_nodup hnodup, ← List.card_toFinset]
    congr 1
    ext a
    rw [List.mem_toFinset, List.mem_toFinset]
    exact ⟨hsub a, hsub' a⟩
  constructor
  · rintro ⟨hentry, -⟩
    have hmem : ∀ a ∈ as, a ∈ (internAll same [] as).1 := by
      intro a ha
      obtain ⟨n, hn⟩ := @exists_number α same a as ha []
      exact List.mem_of_getElem? (hentry _ hn)
    constructor
    · intro a ha b hb hab
      exact eq_of_same hsame hpairwise (hmem a ha) (hmem b hb) hab
    · rw [← hlength hmem]
      by_contra hlong
      have hlt : bound < (internAll same [] as).1.length := Nat.lt_of_not_le hlong
      obtain ⟨a, ha⟩ := @exists_value α same bound as [] (Nat.zero_le _) hlt
      have hself := hentry _ ha
      obtain ⟨-, b, hget, hb⟩ := internAll_entry hsame ha
      have hab : b = a := eq_of_same hsame hpairwise (List.mem_of_getElem? hget)
        (List.mem_of_getElem? hself) hb
      rw [Nat.mod_self] at hself
      subst hab
      have hzero := hnodup.getElem_inj_iff.1 <|
        (List.getElem?_eq_some_iff.1 hself).2.trans (List.getElem?_eq_some_iff.1 hget).2.symm
      omega
  · rintro ⟨hseparated, hfew⟩
    have hentry : ∀ x ∈ (internAll same [] as).2, (internAll same [] as).1[x.2]? = some x.1 := by
      rintro ⟨a, n⟩ hx
      obtain ⟨ha, b, hget, hb⟩ := internAll_entry hsame hx
      have hbs := hsub b (List.mem_of_getElem? hget)
      rwa [← hseparated b hbs a ha hb]
    have hmem : ∀ a ∈ as, a ∈ (internAll same [] as).1 := by
      intro a ha
      obtain ⟨n, hn⟩ := @exists_number α same a as ha []
      exact List.mem_of_getElem? (hentry _ hn)
    have hmod : ∀ x ∈ (internAll same [] as).2, x.2 % bound = x.2 := by
      intro x hx
      have hlt := (List.getElem?_eq_some_iff.1 (hentry x hx)).1
      rw [hlength hmem] at hlt
      exact Nat.mod_eq_of_lt (hlt.trans_le hfew)
    constructor
    · intro x hx
      rw [hmod x hx]
      exact hentry x hx
    · intro x hx y hy
      rw [hmod x hx, hmod y hy]
      have hx' := hentry x hx
      have hy' := hentry y hy
      constructor
      · intro heq
        rw [← heq] at hy'
        exact hnodup.getElem_inj_iff.1 <|
          (List.getElem?_eq_some_iff.1 hx').2.trans (List.getElem?_eq_some_iff.1 hy').2.symm
      · intro heq
        rw [heq] at hx'
        exact Option.some.inj (hx'.symm.trans hy')

end Bound

end Moz.Interning
