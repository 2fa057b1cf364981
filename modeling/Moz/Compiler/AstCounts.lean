import Moz.Compiler.AstOptimize

/-!
# Counts while the optimiser is at work

The optimiser goes down from the body of a production, and while it is at an
expression its callers hold the slots that lead there. A rewrite changes what one
object on that path refers to. The references the object is to get are counted
first, then those it loses are released, and no release sweeps anything on the
path; in the end the object is as the rewrite has it.
-/

namespace Moz.Compiler

open RefCount

namespace AstHeap

variable (H : AstHeap)

def live : Finset Ptr := H.universe.filter fun p => (H.content p).isSome

variable {H}

theorem Bounded.mem_live (h : H.Bounded) {p : Ptr} : p ∈ H.live ↔ (H.content p).isSome := by
  rw [live, Finset.mem_filter]
  exact ⟨fun hp => hp.2, fun hp => ⟨h.mem_universe hp, hp⟩⟩

theorem isSome_of_mem_children {p q : Ptr} (h : q ∈ H.children p) : (H.content p).isSome := by
  rw [Option.isSome_iff_ne_none]
  intro hnone
  rw [children_eq_nil hnone] at h
  cases h

end AstHeap

/-- The counts are right for these owners, when the objects hold these references. -/
structure Counted (H : AstHeap) (children : Ptr → List Ptr) (owners : Multiset Ptr) : Prop where
  bounded : H.Bounded
  owned : Owned H.live children H.refc owners

/-- What is kept is as it was, and so is everything that is still there. -/
structure Spared (kept : Ptr → Prop) (H H' : AstHeap) : Prop where
  kept : ∀ p, kept p → H'.content p = H.content p
  left : ∀ p, (H'.content p).isSome → H'.content p = H.content p

namespace Counted

variable {H H' : AstHeap} {children children' : Ptr → List Ptr} {owners : Multiset Ptr} {o p : Ptr}
  {kept : Ptr → Prop}

theorem isSome_of_owner (h : Counted H children owners) (hp : p ∈ owners) :
    (H.content p).isSome :=
  h.bounded.mem_live.1 (h.owned.mem_of_owner hp)

theorem isSome_of_child (h : Counted H children owners) {m : Ptr} (hm : (H.content m).isSome)
    (hp : p ∈ children m) : (H.content p).isSome :=
  h.bounded.mem_live.1 (h.owned.mem_of_child (h.bounded.mem_live.2 hm) hp)

theorem congr (h : Counted H children owners)
    (hchildren : ∀ p, (H.content p).isSome → children' p = children p) :
    Counted H children' owners where
  bounded := h.bounded
  owned := h.owned.congr (fun p hp => hchildren p (h.bounded.mem_live.1 hp)) fun _ _ => rfl

section Release

variable {released : Multiset Ptr} (h : Counted H children (released + owners))
  (hsame : ∀ p, ¬kept p → H.children p = children p)
  (hkept : ∀ p, kept p → p ∈ owners ∨ ∃ m ∈ H.live, kept m ∧ p ∈ children m)

include h hsame hkept

theorem not_kept (hdies : H.Dies released p) : ¬kept p := by
  apply RefCount.Dies.not_kept hdies h.owned _ hsame hkept
  exact fun q hq => h.bounded.mem_live.2 (AstHeap.isSome_of_refc_pos hq)

theorem held_eq {D : Finset Ptr} (hD : ∀ m ∈ D, H.Dies released m) :
    held D H.children = held D children ∧ D ⊆ H.live := by
  constructor
  · exact (held_congr fun m hm => hsame m (h.not_kept hsame hkept (hD m hm)))
  · exact fun m hm => h.bounded.mem_live.2 (AstHeap.isSome_of_refc_pos (hD m hm).pos)

theorem fault_eq {f : Fault} (hw : Wrong H released f) : f = .null := by
  rcases hw with ⟨hf, -⟩ | ⟨D, hD, p, hp, hcount⟩
  · exact hf
  obtain ⟨hheld, hsub⟩ := h.held_eq hsame hkept hD
  rw [hheld] at hp hcount
  have hmore : (held D children).count p ≤ (held H.live children).count p := count_held_mono hsub
  have hle : released + held D children ≤ released + owners + held H.live children :=
    add_le_add (Multiset.le_add_right _ _) (held_mono hsub)
  have htotal := h.owned.count p (h.owned.mem_live p (Multiset.mem_of_le hle hp))
  simp only [Multiset.count_add] at htotal hcount
  omega

theorem released_spec {opened : Finset Ptr} (hrel : Releasing H H' released opened opened 0) :
    Counted H' children owners ∧ Spared kept H H' := by
  obtain ⟨hheld, hsub⟩ := h.held_eq hsame hkept hrel.dies
  have hcontent : ∀ p, (H'.content p).isSome ↔ (H.content p).isSome ∧ p ∉ opened := by
    intro p
    rw [hrel.content]
    by_cases hp : p ∈ opened
    · simp [hp]
    · simp [hp]
  have hleft : ∀ p, (H'.content p).isSome → H'.content p = H.content p := by
    intro p hp
    rw [hrel.content, if_neg ((hcontent p).1 hp).2]
  have hbounded : H'.Bounded := by
    intro p hp
    rw [hrel.next]
    exact h.bounded p ((hcontent p).1 hp).1
  have hlive : H'.live = H.live \ opened := by
    ext p
    rw [hbounded.mem_live, hcontent, Finset.mem_sdiff, h.bounded.mem_live]
  have hsplit : held H.live children = held H'.live children + held opened children := by
    rw [hlive]
    exact (Finset.sum_sdiff hsub).symm
  have hcount : ∀ p ∈ H.live, (H.refc p : ℤ) = ((released + held opened children).count p : ℤ) +
      ((owners + held H'.live children).count p : ℤ) := by
    intro p hp
    rw [h.owned.count p hp, hsplit]
    simp only [Multiset.count_add]
    push_cast
    ring
  refine ⟨⟨hbounded, ⟨?_, ?_⟩⟩, ⟨?_, hleft⟩⟩
  · intro p hp
    rw [hlive, Finset.mem_sdiff] at hp
    have hrefc := hrel.refc p hp.2
    have htotal := hcount p hp.1
    rw [hheld, Multiset.count_zero] at hrefc
    push_cast at hrefc
    omega
  · intro p hp
    have hp' : p ∈ H.live := by
      apply h.owned.mem_live
      rw [hsplit, add_assoc, ← add_assoc owners]
      exact Multiset.mem_add.2 (.inr (Multiset.mem_add.2 (.inl hp)))
    rw [hlive, Finset.mem_sdiff]
    refine ⟨hp', fun hopened => ?_⟩
    have hreached := hrel.reached p hopened
    have htotal := hcount p hp'
    have hpos := Multiset.count_pos.2 hp
    rw [hheld, Multiset.count_zero] at hreached
    push_cast at hreached
    omega
  · intro p hp
    rw [hrel.content, if_neg fun hopened => h.not_kept hsame hkept (hrel.dies p hopened) hp]

end Release

/-- A release keeps the counts right and leaves what is kept alone. -/
theorem release (ndebug : Bool) (h : Counted H children (o ::ₘ owners))
    (hsame : ∀ p, ¬kept p → H.children p = children p)
    (hkept : ∀ p, kept p → p ∈ owners ∨ ∃ m ∈ H.live, kept m ∧ p ∈ children m) :
    (∀ f, mozRcRelease ndebug H o = .error f → f = .null) ∧
      ∀ H', mozRcRelease ndebug H o = .ok H' → Counted H' children owners ∧ Spared kept H H' := by
  have hrun := @mozRcRelease_spec ndebug _ _ h.bounded _ _ _ ((Releasing.start H).add o)
  have hcounted : Counted H children (o ::ₘ 0 + owners) := by
    rwa [Multiset.cons_add, zero_add]
  constructor
  · intro f hf
    rw [hf] at hrun
    exact hcounted.fault_eq hsame hkept hrun
  · intro H' hH'
    rw [hH'] at hrun
    obtain ⟨opened, hrel, -⟩ := hrun
    exact hcounted.released_spec hsame hkept hrel

end Counted

end Moz.Compiler
