import Mathlib.Logic.Relation
import Moz.Lib.RefCount

/-!
# References without cycles

An object is doomed when it has no owner and every live object that refers to it
is doomed too. Where every live object has a reference, nothing live is doomed.
Where every reference goes from a higher layer to a lower one, what the owners do
not lead to is doomed, so that the live objects are those the owners lead to.
Releases leave exactly these.
-/

namespace Moz.RefCount

variable {ι : Type}

/-- No owner holds the object, and only doomed objects refer to it. -/
inductive Doomed (live : Finset ι) (children : ι → List ι) (owners : Multiset ι) : ι → Prop
  | intro (x : ι) (howner : x ∉ owners)
    (hparents : ∀ m ∈ live, x ∈ children m → Doomed live children owners m) :
    Doomed live children owners x

def Refers (live : Finset ι) (children : ι → List ι) (m x : ι) : Prop :=
  m ∈ live ∧ x ∈ children m

/-- A chain of references leads from one object to another. -/
def Leads (live : Finset ι) (children : ι → List ι) : ι → ι → Prop :=
  Relation.ReflTransGen (Refers live children)

/-- Objects lie in layers, and references go to lower ones. -/
def Layered (live : Finset ι) (children : ι → List ι) : Prop :=
  ∃ layer : ι → ℕ, ∀ m ∈ live, ∀ n ∈ children m, layer n < layer m

variable {live live' : Finset ι} {children children' : ι → List ι} {owners : Multiset ι}
  {m n x : ι}

namespace Layered

theorem empty (children : ι → List ι) : Layered ∅ children :=
  ⟨fun _ => 0, fun _ hm => absurd hm (Finset.notMem_empty _)⟩

theorem mono (h : Layered live children)
    (hsame : ∀ m ∈ live', m ∈ live ∧ children' m = children m) : Layered live' children' := by
  obtain ⟨layer, hlayer⟩ := h
  refine ⟨layer, fun m hm n hn => ?_⟩
  rw [(hsame m hm).2] at hn
  exact hlayer m (hsame m hm).1 n hn

/-- An object that nobody refers to may get any children but itself. -/
theorem edit [DecidableEq ι] (h : Layered live children) (hself : n ∉ children' n)
    (hother : ∀ m ∈ live', m ≠ n → m ∈ live ∧ children' m = children m ∧ n ∉ children m) :
    Layered live' children' := by
  obtain ⟨layer, hlayer⟩ := h
  refine ⟨Function.update layer n (((children' n).map layer).sum + 1), fun m hm x hx => ?_⟩
  by_cases hmn : m = n
  · subst hmn
    have hxm : x ≠ m := by
      rintro rfl
      exact hself hx
    rw [Function.update_self, Function.update_of_ne hxm]
    exact Nat.lt_succ_of_le (List.single_le_sum (fun _ _ => Nat.zero_le _) _
      (List.mem_map_of_mem hx))
  · obtain ⟨hlive, hchildren, hn⟩ := hother m hm hmn
    rw [hchildren] at hx
    have hxn : x ≠ n := by
      rintro rfl
      exact hn hx
    rw [Function.update_of_ne hmn, Function.update_of_ne hxn]
    exact hlayer m hlive x hx

theorem doomed_of_not_leads (h : Layered live children)
    (hleads : ∀ m ∈ owners, ¬Leads live children m x) : Doomed live children owners x := by
  obtain ⟨layer, hlayer⟩ := h
  obtain ⟨top, htop⟩ : ∃ top, ∀ m ∈ live, layer m ≤ top :=
    ⟨live.sup layer, fun m hm => Finset.le_sup hm⟩
  -- the layers above `x` run out at `top`
  have hrank : ∃ k, top ≤ layer x + k := ⟨top, Nat.le_add_left top (layer x)⟩
  obtain ⟨k, hk⟩ := hrank
  induction k generalizing x with
  | zero =>
    apply Doomed.intro
    · exact fun hx => hleads x hx .refl
    · intro m hm hx
      have := hlayer m hm x hx
      have := htop m hm
      omega
  | succ k ih =>
    apply Doomed.intro
    · exact fun hx => hleads x hx .refl
    · intro m hm hx
      apply ih
      · exact fun o ho hom => hleads o ho (hom.tail ⟨hm, hx⟩)
      · have := hlayer m hm x hx
        omega

end Layered

theorem Leads.mono (h : Leads live children m x)
    (hsame : ∀ m ∈ live, m ∈ live' ∧ children' m = children m) : Leads live' children' m x := by
  induction h with
  | refl => exact .refl
  | tail _ hlast ih =>
    obtain ⟨hm, hx⟩ := hlast
    apply ih.tail
    refine ⟨(hsame _ hm).1, ?_⟩
    rwa [(hsame _ hm).2]

variable [DecidableEq ι] {refc refc' : ι → ℤ}

namespace Owned

/-- A live object that is referred to is not doomed if that is so of all of them. -/
theorem not_doomed (h : Owned live children refc owners) (hpos : ∀ y ∈ live, 0 < refc y)
    (hx : x ∈ live) : ¬Doomed live children owners x := by
  intro hdoomed
  induction hdoomed with
  | intro x howner _ ih =>
    have hcount := h.count x hx
    have hmem : x ∈ owners + held live children := by
      apply Multiset.count_pos.1
      have := hpos x hx
      omega
    rcases Multiset.mem_add.1 hmem with hmem | hmem
    · exact howner hmem
    · obtain ⟨m, hm, hchild⟩ := mem_held.1 hmem
      exact ih m hm hchild hm

theorem live_of_leads (h : Owned live' children' refc owners) (hm : m ∈ live')
    (hsame : ∀ k ∈ live', k ∈ live → children' k = children k) (hleads : Leads live children m x) :
    x ∈ live' := by
  induction hleads with
  | refl => exact hm
  | tail _ hlast ih =>
    apply h.mem_of_child ih
    rw [hsame _ ih hlast.1]
    exact hlast.2

theorem exists_leads (h : Owned live children refc owners) (hlayered : Layered live children)
    (hpos : ∀ y ∈ live, 0 < refc y) (hx : x ∈ live) : ∃ m ∈ owners, Leads live children m x := by
  by_contra hnot
  push Not at hnot
  exact h.not_doomed hpos hx (hlayered.doomed_of_not_leads hnot)

end Owned

end Moz.RefCount
