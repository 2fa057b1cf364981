import Mathlib.Algebra.BigOperators.Group.Finset.Basic
import Mathlib.Tactic

/-!
# Reference counts

Objects hold references to other objects in their children, and the rest of the
program holds references too: its `owners`, with multiplicity. Counts are right
when the count of every live object is the number of references to it, and only
live objects are referenced. Each step of a counting program moves references
between owners and children, so every rule below keeps or changes the one sum
`owners + held live children`.
-/

namespace Moz.RefCount

variable {ι : Type}

def held (live : Finset ι) (children : ι → List ι) : Multiset ι :=
  ∑ m ∈ live, (children m : Multiset ι)

variable {live : Finset ι} {children children' : ι → List ι}

theorem held_congr (h : ∀ m ∈ live, children' m = children m) :
    held live children' = held live children :=
  Finset.sum_congr rfl fun m hm => by rw [h m hm]

theorem mem_held {n : ι} : n ∈ held live children ↔ ∃ m ∈ live, n ∈ children m := by
  simp [held, Multiset.mem_sum]

variable [DecidableEq ι]

/-- Every count is the number of references, and a reference is to a live object. -/
structure Owned (live : Finset ι) (children : ι → List ι) (refc : ι → ℤ)
    (owners : Multiset ι) : Prop where
  count : ∀ n ∈ live, refc n = ((owners + held live children).count n : ℤ)
  mem_live : ∀ n ∈ owners + held live children, n ∈ live

variable {refc refc' : ι → ℤ} {owners : Multiset ι} {n m : ι}

theorem held_erase (hn : n ∈ live) :
    held live children = (children n : Multiset ι) + held (live.erase n) children := by
  rw [held, held, Finset.add_sum_erase live (fun m => (children m : Multiset ι)) hn]

theorem held_insert (hn : n ∉ live) :
    held (insert n live) children = (children n : Multiset ι) + held live children := by
  rw [held, held, Finset.sum_insert hn]

namespace Owned

theorem mem_of_owner (h : Owned live children refc owners) (hn : n ∈ owners) : n ∈ live :=
  h.mem_live n (Multiset.mem_add.2 (.inl hn))

theorem mem_of_child (h : Owned live children refc owners) (hm : m ∈ live)
    (hn : n ∈ children m) : n ∈ live :=
  h.mem_live n (Multiset.mem_add.2 (.inr (mem_held.2 ⟨m, hm, hn⟩)))

theorem nonneg (h : Owned live children refc owners) (hn : n ∈ live) : 0 ≤ refc n := by
  rw [h.count n hn]
  exact Int.natCast_nonneg _

theorem pos_of_owner (h : Owned live children refc owners) (hn : n ∈ owners) : 0 < refc n := by
  rw [h.count n (h.mem_of_owner hn)]
  have hpos := Multiset.count_pos.2 (Multiset.mem_add.2 (.inl hn) :
    n ∈ owners + held live children)
  exact_mod_cast hpos

theorem not_child_of_refc_eq_zero (h : Owned live children refc owners) (hn : n ∈ live)
    (h0 : refc n = 0) (hm : m ∈ live) : n ∉ children m := by
  intro hc
  have hcount := h.count n hn
  have hpos := Multiset.count_pos.2 (Multiset.mem_add.2 (.inr (mem_held.2 ⟨m, hm, hc⟩)) :
    n ∈ owners + held live children)
  omega

theorem congr (h : Owned live children refc owners)
    (hc : ∀ m ∈ live, children' m = children m) (hr : ∀ m ∈ live, refc' m = refc m) :
    Owned live children' refc' owners where
  count m hm := by rw [hr m hm, held_congr hc, h.count m hm]
  mem_live m hm := h.mem_live m (by rwa [held_congr hc] at hm)

theorem retain (h : Owned live children refc owners) (hn : n ∈ live)
    (hself : refc' n = refc n + 1) (hother : ∀ m, m ≠ n → refc' m = refc m) :
    Owned live children refc' (n ::ₘ owners) where
  count m hm := by
    rw [Multiset.cons_add]
    by_cases hmn : m = n
    · subst hmn
      rw [hself, h.count m hm, Multiset.count_cons_self]
      push_cast
      rfl
    · rw [hother m hmn, h.count m hm, Multiset.count_cons_of_ne hmn]
  mem_live m hm := by
    rw [Multiset.cons_add, Multiset.mem_cons] at hm
    rcases hm with rfl | hm
    · exact hn
    · exact h.mem_live m hm

theorem release (h : Owned live children refc (n ::ₘ owners))
    (hself : refc' n = refc n - 1) (hother : ∀ m, m ≠ n → refc' m = refc m) :
    Owned live children refc' owners where
  count m hm := by
    have hcount := h.count m hm
    rw [Multiset.cons_add] at hcount
    by_cases hmn : m = n
    · subst hmn
      rw [Multiset.count_cons_self] at hcount
      push_cast at hcount
      omega
    · rw [Multiset.count_cons_of_ne hmn] at hcount
      rw [hother m hmn, hcount]
  mem_live m hm := h.mem_live m (by
    rw [Multiset.cons_add]
    exact Multiset.mem_cons_of_mem hm)

/-- An object nobody refers to dies; its references are then its killer's. -/
theorem kill (h : Owned live children refc owners) (hn : n ∈ live) (h0 : refc n = 0) :
    Owned (live.erase n) children refc ((children n : Multiset ι) + owners) := by
  have htotal : (children n : Multiset ι) + owners + held (live.erase n) children =
      owners + held live children := by
    rw [held_erase hn, ← add_assoc, add_comm (children n : Multiset ι) owners]
  constructor
  · intro m hm
    rw [htotal, h.count m (Finset.mem_of_mem_erase hm)]
  · intro m hm
    rw [htotal] at hm
    refine Finset.mem_erase.2 ⟨?_, h.mem_live m hm⟩
    rintro rfl
    have hcount := h.count m hn
    have hpos := Multiset.count_pos.2 hm
    omega

/-- A new object has no children and no references to it. -/
theorem alloc (h : Owned live children refc owners) (hn : n ∉ live) (hc : children' n = [])
    (hr : refc' n = 0) (hco : ∀ m, m ≠ n → children' m = children m)
    (hro : ∀ m, m ≠ n → refc' m = refc m) :
    Owned (insert n live) children' refc' owners := by
  have hne : ∀ m ∈ live, m ≠ n := by
    rintro m hm rfl
    exact hn hm
  have htotal : held (insert n live) children' = held live children := by
    rw [held_insert hn, hc, held_congr fun m hm => hco m (hne m hm)]
    simp
  constructor
  · intro m hm
    rw [htotal]
    rcases Finset.mem_insert.1 hm with rfl | hm
    · rw [hr, Multiset.count_eq_zero_of_notMem fun hmem => hn (h.mem_live m hmem)]
      rfl
    · rw [hro m (hne m hm), h.count m hm]
  · intro m hm
    rw [htotal] at hm
    exact Finset.mem_insert_of_mem (h.mem_live m hm)

/-- A live object gives the references `old` away for the references `new`, which are counted. What
is new among the live objects refers to nothing. -/
theorem edit {live' : Finset ι} (old new rest : List ι) (h : Owned live children refc owners)
    (hm : m ∈ live) (hsub : live ⊆ live') (hold : (children m).Perm (old ++ rest))
    (hnew : (children' m).Perm (new ++ rest))
    (hco : ∀ k ∈ live, k ≠ m → children' k = children k)
    (hfresh : ∀ k ∈ live', k ∉ live → children' k = [] ∧ refc k = 0)
    (hrefc : ∀ k ∈ live', refc' k = refc k + new.count k) (hmem : ∀ k ∈ new, k ∈ live') :
    Owned live' children' refc' ((old : Multiset ι) + owners) := by
  have hheld' : held live' children' = held live children' := by
    symm
    apply Finset.sum_subset hsub
    intro k hk hk'
    rw [(hfresh k hk hk').1]
    rfl
  have herase : held (live.erase m) children' = held (live.erase m) children :=
    held_congr fun k hk => hco k (Finset.mem_of_mem_erase hk) (Finset.ne_of_mem_erase hk)
  have htotal : (old : Multiset ι) + owners + held live' children' =
      (new : Multiset ι) + (owners + held live children) := by
    have hheld : held live children = _ := held_erase hm
    have hold' := Multiset.coe_eq_coe.2 hold
    have hnew' := Multiset.coe_eq_coe.2 hnew
    rw [hheld', held_erase hm, herase, hheld, hold', hnew', ← Multiset.coe_add, ← Multiset.coe_add]
    abel
  constructor
  · intro k hk
    rw [htotal, Multiset.count_add, hrefc k hk, Multiset.coe_count]
    by_cases hlive : k ∈ live
    · rw [h.count k hlive]
      push_cast
      ring
    · rw [(hfresh k hk hlive).2,
        Multiset.count_eq_zero_of_notMem fun hmem => hlive (h.mem_live k hmem)]
      push_cast
      ring
  · intro k hk
    rw [htotal] at hk
    rcases Multiset.mem_add.1 hk with hk | hk
    · exact hmem k hk
    · exact hsub (h.mem_live k hk)

/-- An owner hands its reference over to a live object. -/
theorem store (h : Owned live children refc (n ::ₘ owners)) (hm : m ∈ live)
    (hc : (children' m).Perm (n :: children m)) (hco : ∀ k, k ≠ m → children' k = children k) :
    Owned live children' refc owners := by
  have herase : held (live.erase m) children' = held (live.erase m) children :=
    held_congr fun k hk => hco k (Finset.ne_of_mem_erase hk)
  have hperm : (children' m : Multiset ι) = n ::ₘ (children m : Multiset ι) :=
    Multiset.coe_eq_coe.2 hc
  have htotal : owners + held live children' = (n ::ₘ owners) + held live children := by
    have hheld : held live children = _ := held_erase hm
    rw [held_erase hm, herase, hperm, hheld]
    simp only [Multiset.cons_add, Multiset.add_cons]
  constructor
  · intro k hk
    rw [htotal, h.count k hk]
  · intro k hk
    rw [htotal] at hk
    exact h.mem_live k hk

theorem take (h : Owned live children refc owners) (hm : m ∈ live)
    (hc : (children m).Perm (n :: children' m)) (hco : ∀ k, k ≠ m → children' k = children k) :
    Owned live children' refc (n ::ₘ owners) := by
  have herase : held (live.erase m) children' = held (live.erase m) children :=
    held_congr fun k hk => hco k (Finset.ne_of_mem_erase hk)
  have hperm : (children m : Multiset ι) = n ::ₘ (children' m : Multiset ι) :=
    Multiset.coe_eq_coe.2 hc
  have htotal : (n ::ₘ owners) + held live children' = owners + held live children := by
    have hheld : held live children = _ := held_erase hm
    rw [held_erase hm, herase, hheld, hperm]
    simp only [Multiset.cons_add, Multiset.add_cons]
  constructor
  · intro k hk
    rw [htotal, h.count k hk]
  · intro k hk
    rw [htotal] at hk
    exact h.mem_live k hk

end Owned

end Moz.RefCount
