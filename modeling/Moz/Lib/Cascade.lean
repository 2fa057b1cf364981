import Moz.Lib.RefCount

/-!
# What releases take with them

When references are released, the objects whose counts they use up are released
from in turn. Whatever the counts are, right or not, the objects that die are the
least set that is closed under this: an object dies if the references that are
released and those that dying objects hold use its count up.
-/

namespace Moz.RefCount

variable {ι : Type}

theorem held_mono {children : ι → List ι} {D D' : Finset ι} (h : D ⊆ D') :
    held D children ≤ held D' children :=
  Finset.sum_le_sum_of_subset h

variable [DecidableEq ι]

/-- The count of the object is used up by what is released and what dying objects hold. -/
inductive Dies (refc : ι → ℤ) (children : ι → List ι) (released : Multiset ι) : ι → Prop
  | intro (x : ι) (D : Finset ι) (hD : ∀ m ∈ D, Dies refc children released m) (hpos : 0 < refc x)
    (hcount : refc x ≤ (released + held D children).count x) : Dies refc children released x

variable {refc : ι → ℤ} {children : ι → List ι} {released released' : Multiset ι}
  {D D' : Finset ι} {x m : ι}

theorem count_held_mono (h : D ⊆ D') : (held D children).count x ≤ (held D' children).count x :=
  Multiset.count_le_of_le x (held_mono h)

namespace Dies

theorem pos (h : Dies refc children released x) : 0 < refc x := by
  cases h with
  | intro _ _ _ hpos _ => exact hpos

theorem mono (h : Dies refc children released x) (hle : released ≤ released') :
    Dies refc children released' x := by
  induction h with
  | intro x D _ hpos hcount ih =>
    have hmore := Multiset.count_le_of_le x (add_le_add_left hle (held D children))
    exact .intro x D ih hpos (hcount.trans (by exact_mod_cast hmore))

/-- The set of objects that die is settled: it is closed under dying. -/
theorem iff_mem (hD : ∀ m ∈ D, Dies refc children released m)
    (hleft : ∀ y ∉ D, 0 < refc y → ((released + held D children).count y : ℤ) < refc y) :
    Dies refc children released x ↔ x ∈ D := by
  constructor
  · intro h
    induction h with
    | intro x D' _ hpos hcount ih =>
      by_contra hx
      have hmore : (held D' children).count x ≤ (held D children).count x := count_held_mono ih
      have hless := hleft x hx hpos
      rw [Multiset.count_add] at hcount hless
      omega
  · exact hD x

variable {live : Finset ι} {children' : ι → List ι} {owners : Multiset ι} {kept : ι → Prop}

/-- What the other owners keep does not die, where the counts are right but for some objects that
are kept and are about to hold other references. -/
theorem not_kept (h : Dies refc children released x)
    (howned : Owned live children' refc (released + owners))
    (hlive : ∀ y, 0 < refc y → y ∈ live) (hsame : ∀ y, ¬kept y → children y = children' y)
    (hkept : ∀ y, kept y → y ∈ owners ∨ ∃ m ∈ live, kept m ∧ y ∈ children' m) : ¬kept x := by
  induction h with
  | intro x D hD hpos hcount ih =>
    intro hx
    have htotal := howned.count x (hlive x hpos)
    have hsub : D ⊆ live := fun m hm => hlive m (hD m hm).pos
    rw [held_congr fun m hm => hsame m (ih m hm)] at hcount
    simp only [Multiset.count_add] at hcount htotal
    rcases hkept x hx with howner | ⟨m, hm, hmkept, hchild⟩
    · have hone := Multiset.count_pos.2 howner
      have hmore : (held D children').count x ≤ (held live children').count x :=
        count_held_mono hsub
      omega
    · have hnew : m ∉ D := fun hmem => ih m hmem hmkept
      have hone : 0 < (children' m : Multiset ι).count x := Multiset.count_pos.2 hchild
      have hmore : (held (insert m D) children').count x ≤ (held live children').count x :=
        count_held_mono (Finset.insert_subset hm hsub)
      rw [held_insert hnew, Multiset.count_add] at hmore
      omega

end Dies

variable (refc children released) (U : Finset ι)

/-- Those objects of `U` whose counts are used up when those of `D` die. -/
def dyingStep (D : Finset ι) : Finset ι :=
  U.filter fun x => 0 < refc x ∧ refc x ≤ (released + held D children).count x

def dying : ℕ → Finset ι
  | 0 => ∅
  | rounds + 1 => dyingStep refc children released U (dying rounds)

variable {refc children released U}

theorem dies_of_mem_dying {rounds : ℕ} (h : x ∈ dying refc children released U rounds) :
    Dies refc children released x := by
  induction rounds generalizing x with
  | zero => exact absurd h (Finset.notMem_empty x)
  | succ rounds ih =>
    obtain ⟨-, hpos, hcount⟩ := Finset.mem_filter.1 h
    exact .intro x _ (fun m hm => ih hm) hpos hcount

theorem dies_iff_mem_dying {rounds : ℕ} (hU : ∀ y, 0 < refc y → y ∈ U)
    (hdone : dying refc children released U (rounds + 1) ⊆ dying refc children released U rounds) :
    Dies refc children released x ↔ x ∈ dying refc children released U rounds := by
  apply Dies.iff_mem
  · exact fun m hm => dies_of_mem_dying hm
  · intro y hy hpos
    by_contra hcount
    exact hy (hdone (Finset.mem_filter.2 ⟨hU y hpos, hpos, not_lt.1 hcount⟩))

end Moz.RefCount
