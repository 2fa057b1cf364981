import Moz.Node.Ownership

/-!
# Replacing a child

`Node_set` gives back the child it replaces while the slot still holds it. The node
that is changed therefore has to survive the release: it does when it is reached
from an owner, or from a node nobody refers to, since the counts of these nodes do
not come down to zero.
-/

namespace Moz

open RefCount

def Heap.live (H : Heap) : Finset NodeId := (Finset.range H.next).filter fun n => n ∉ H.freeList

namespace Heap

variable {H : Heap} {n : NodeId}

theorem mem_live : n ∈ H.live ↔ n < H.next ∧ n ∉ H.freeList := by
  simp [live]

theorem covered_live (H : Heap) : H.Covered H.live := by
  intro n hn
  rw [mem_live]
  tauto

end Heap

theorem HeapOwned.live_eq {H : Heap} {live : Finset NodeId} {owners : Multiset NodeId}
    (h : HeapOwned H live owners) (hcovered : H.Covered live) : live = H.live := by
  ext n
  rw [Heap.mem_live]
  constructor
  · intro hn
    exact ⟨h.bound n hn, fun hfree => (h.free n hfree).1 hn⟩
  · rintro ⟨hlt, hfree⟩
    exact (hcovered n hlt).resolve_right hfree

/-- The pool is in order with these references from outside. -/
def Heap.Balanced (H : Heap) (owners : Multiset NodeId) : Prop := HeapOwned H H.live owners

theorem HeapOwned.balanced {H : Heap} {live : Finset NodeId} {owners : Multiset NodeId}
    (h : HeapOwned H live owners) (hcovered : H.Covered live) : H.Balanced owners := by
  unfold Heap.Balanced
  rw [← h.live_eq hcovered]
  exact h

section Release

variable {H H' : Heap} {o x n : NodeId} {fuel : ℕ}

/-- A relation that holds of each release holds of the loop over the children. -/
theorem nodeSweepChildren_rel {r : Heap → Heap → Prop} {release : Heap → NodeId → Option Heap}
    (hrefl : ∀ H, r H H) (htrans : ∀ H₁ H₂ H₃, r H₁ H₂ → r H₂ H₃ → r H₁ H₃)
    (hrelease : ∀ H o H', release H o = some H' → r H H') (entry : List (Option NodeId)) :
    ∀ H H', nodeSweepChildren release H entry = some H' → r H H' := by
  induction entry with
  | nil =>
    intro H H' hrun
    cases hrun
    exact hrefl H
  | cons c entry ih =>
    intro H H' hrun
    simp only [nodeSweepChildren, List.foldlM_cons, Option.bind_eq_bind,
      Option.bind_eq_some_iff] at hrun
    obtain ⟨H₁, hc, hrest⟩ := hrun
    apply htrans H H₁ H' _ (ih H₁ H' hrest)
    cases c with
    | none =>
      cases hc
      exact hrefl H
    | some c => exact hrelease H c H₁ hc

/-- A relation that holds of every decrement and of every node that is freed holds of a release. -/
theorem nodeReleaseFuel_rel {r : Heap → Heap → Prop} (hrefl : ∀ H, r H H)
    (htrans : ∀ H₁ H₂ H₃, r H₁ H₂ → r H₂ H₃ → r H₁ H₃) (hunref : ∀ H o, r H (nodeUnref H o))
    (hfree : ∀ H o, r H (nodeFree H o)) (fuel : ℕ) :
    ∀ {H H' : Heap} {o : NodeId}, nodeReleaseFuel fuel H o = some H' → r H H' := by
  induction fuel with
  | zero =>
    intro H H' o hrun
    cases hrun
  | succ fuel ih =>
    intro H H' o hrun
    have hsweep := fun entry H H' => @nodeSweepChildren_rel r (nodeReleaseFuel fuel) hrefl htrans
      (fun H o H' hrun => ih hrun) entry H H'
    simp only [nodeReleaseFuel] at hrun
    split_ifs at hrun
    · simp only [Option.bind_eq_bind, Option.bind_eq_some_iff] at hrun
      obtain ⟨H₁, hchildren, hrun⟩ := hrun
      cases hrun
      exact htrans _ _ _ (hunref H o) (htrans _ _ _ (hsweep _ _ _ hchildren) (hfree H₁ o))
    · cases hrun
      exact hunref H o

/-- Child arrays stay, in freed nodes too, and what is free stays free. -/
structure Lasts (H H' : Heap) : Prop where
  entry : ∀ n, (H'.mem n).entry = (H.mem n).entry
  free : H.freeList ⊆ H'.freeList

theorem nodeReleaseFuel_lasts (h : nodeReleaseFuel fuel H o = some H') : Lasts H H' := by
  refine nodeReleaseFuel_rel (fun H => ⟨fun _ => rfl, List.Subset.refl _⟩) ?_ ?_ ?_ fuel h
  · intro H₁ H₂ H₃ h h'
    exact ⟨fun n => (h'.entry n).trans (h.entry n), List.Subset.trans h.free h'.free⟩
  · intro H o
    exact ⟨nodeUnref_entry H o, List.Subset.refl _⟩
  · intro H o
    constructor
    · intro n
      by_cases hn : n = o
      · subst hn
        simp [nodeFree, Heap.set]
      · simp [nodeFree, Heap.set, hn]
    · exact List.subset_cons_self o H.freeList

/-- No count comes down to zero and stays there: the node is freed. -/
def Heap.Drains (H H' : Heap) : Prop := ∀ n, H'.refc n = 0 → H.refc n = 0

theorem Heap.Drains.trans {H₁ H₂ H₃ : Heap} (h : H₁.Drains H₂) (h' : H₂.Drains H₃) :
    H₁.Drains H₃ := fun n hn => h n (h' n hn)

theorem nodeReleaseFuel_drains (fuel : ℕ) : ∀ {H H' : Heap} {o : NodeId},
    nodeReleaseFuel fuel H o = some H' → H.Drains H' := by
  induction fuel with
  | zero =>
    intro H H' o hrun
    cases hrun
  | succ fuel ih =>
    intro H H' o hrun
    have hsweep := fun entry H H' => @nodeSweepChildren_rel Heap.Drains (nodeReleaseFuel fuel)
      (fun H n hn => hn) (fun H₁ H₂ H₃ => Heap.Drains.trans) (fun H o H' hrun => ih hrun) entry H H'
    have hother : ∀ n, n ≠ o → (nodeUnref H o).refc n = H.refc n := by
      intro n hn
      rw [Heap.refc, nodeUnref_mem_of_ne H hn, ← Heap.refc]
    simp only [nodeReleaseFuel] at hrun
    split_ifs at hrun with hzero
    · simp only [Option.bind_eq_bind, Option.bind_eq_some_iff] at hrun
      obtain ⟨H₁, hchildren, hrun⟩ := hrun
      cases hrun
      intro n hn
      by_cases hno : n = o
      · subst hno
        simp [nodeFree, Heap.refc, Heap.set] at hn
      · have hn₁ : H₁.refc n = 0 := by
          simpa [nodeFree, Heap.refc, Heap.set, hno] using hn
        rw [← hother n hno]
        exact hsweep _ _ _ hchildren n hn₁
    · cases hrun
      intro n hn
      by_cases hno : n = o
      · subst hno
        exact absurd hn hzero
      · rwa [hother n hno] at hn

/-- The pool with another child array in `o`. -/
def Heap.setEntry (H : Heap) (o : NodeId) (entry : List (Option NodeId)) : Heap :=
  H.set o { H.mem o with entry := entry }

@[simp] theorem Heap.setEntry_refc (H : Heap) (o : NodeId) (entry : List (Option NodeId))
    (n : NodeId) : (H.setEntry o entry).refc n = H.refc n := by
  by_cases hn : n = o
  · subst hn
    simp [Heap.setEntry, Heap.refc]
  · simp [Heap.setEntry, Heap.refc, Heap.set, hn]

@[simp] theorem Heap.setEntry_self (H : Heap) (o : NodeId) (entry : List (Option NodeId)) :
    ((H.setEntry o entry).mem o).entry = entry := by
  simp [Heap.setEntry]

theorem Heap.setEntry_mem_of_ne (H : Heap) (entry : List (Option NodeId)) (hn : n ≠ o) :
    (H.setEntry o entry).mem n = H.mem n := H.set_mem_of_ne _ hn

theorem Heap.setEntry_setEntry (H : Heap) (o : NodeId) (entry entry' : List (Option NodeId)) :
    (H.setEntry o entry).setEntry o entry' = H.setEntry o entry' := by
  unfold Heap.setEntry
  rw [Heap.set_mem_self, Heap.set_set]

theorem Heap.setEntry_eq (H : Heap) {entry : List (Option NodeId)} (h : (H.mem o).entry = entry) :
    H.setEntry o entry = H := by
  unfold Heap.setEntry
  apply H.set_self
  rw [← h]

theorem nodeUnref_setEntry (H : Heap) (o x : NodeId) (entry : List (Option NodeId)) :
    nodeUnref (H.setEntry o entry) x = (nodeUnref H x).setEntry o entry := by
  unfold nodeUnref Heap.setEntry Heap.set
  congr 1
  funext n
  by_cases hn : n = o <;> by_cases hx : n = x <;> simp [hn, hx] <;> grind

theorem nodeFree_setEntry (H : Heap) {o x : NodeId} (entry : List (Option NodeId)) (hx : x ≠ o) :
    nodeFree (H.setEntry o entry) x = (nodeFree H x).setEntry o entry := by
  simp only [nodeFree, Heap.setEntry, Heap.set, Heap.mk.injEq, and_true]
  funext n
  by_cases hn : n = o <;> by_cases hx : n = x <;> simp [hn, hx] <;> grind

/-- A release that does not free `o` runs alike whatever the children of `o` are. -/
theorem nodeReleaseFuel_setEntry (entry : List (Option NodeId)) (fuel : ℕ) :
    ∀ {H H' : Heap} {x : NodeId}, nodeReleaseFuel fuel (H.setEntry o entry) x = some H' →
      o ∉ H'.freeList → nodeReleaseFuel fuel H x = some (H'.setEntry o (H.mem o).entry) := by
  induction fuel with
  | zero =>
    intro H H' x hrun
    cases hrun
  | succ fuel ih =>
    have hsweep : ∀ (children : List (Option NodeId)) {H H' : Heap},
        nodeSweepChildren (nodeReleaseFuel fuel) (H.setEntry o entry) children = some H' →
        o ∉ H'.freeList → nodeSweepChildren (nodeReleaseFuel fuel) H children =
          some (H'.setEntry o (H.mem o).entry) ∧ (H'.mem o).entry = entry := by
      intro children
      induction children with
      | nil =>
        intro H H' hrun ho
        cases hrun
        rw [Heap.setEntry_setEntry, Heap.setEntry_eq H rfl]
        exact ⟨rfl, H.setEntry_self o entry⟩
      | cons c children ihc =>
        intro H H' hrun ho
        cases c with
        | none => exact ihc hrun ho
        | some c =>
          simp only [nodeSweepChildren, List.foldlM_cons, Option.bind_eq_bind,
            Option.bind_eq_some_iff] at hrun
          obtain ⟨H₁, hc, hrest⟩ := hrun
          have hlasts := nodeReleaseFuel_lasts hc
          have hrest' : nodeSweepChildren (nodeReleaseFuel fuel) H₁ children = some H' := hrest
          have hfree : H₁.freeList ⊆ H'.freeList :=
            @nodeSweepChildren_rel (fun H H' => H.freeList ⊆ H'.freeList) _
              (fun H => List.Subset.refl H.freeList) (fun _ _ _ => List.Subset.trans)
              (fun _ _ _ h => (nodeReleaseFuel_lasts h).free) children H₁ H' hrest'
          have hentry : (H₁.mem o).entry = entry := by
            rw [hlasts.entry, Heap.setEntry_self]
          have hc' := ih hc fun hmem => ho (hfree hmem)
          have hback : (H₁.setEntry o (H.mem o).entry).setEntry o entry = H₁ := by
            rw [Heap.setEntry_setEntry, Heap.setEntry_eq H₁ hentry]
          rw [← hback] at hrest'
          obtain ⟨hrun', hentry'⟩ := ihc hrest' ho
          rw [Heap.setEntry_self] at hrun'
          refine ⟨?_, hentry'⟩
          simp only [nodeSweepChildren, List.foldlM_cons, Option.bind_eq_bind, hc',
            Option.bind_some]
          exact hrun'
    intro H H' x hrun ho
    simp only [nodeReleaseFuel, nodeUnref_setEntry] at hrun ⊢
    have hrefc : (((nodeUnref H x).setEntry o entry).mem x).refc = ((nodeUnref H x).mem x).refc :=
      Heap.setEntry_refc _ o entry x
    have hsame : ((nodeUnref H x).mem o).entry = (H.mem o).entry := nodeUnref_entry H x o
    rw [hrefc] at hrun
    split_ifs at hrun ⊢
    · simp only [Option.bind_eq_bind, Option.bind_eq_some_iff] at hrun
      obtain ⟨H₁, hchildren, hfree⟩ := hrun
      cases hfree
      have hx : x ≠ o := by
        rintro rfl
        exact ho List.mem_cons_self
      have ho₁ : o ∉ H₁.freeList := fun hmem => ho (List.mem_cons_of_mem x hmem)
      rw [Heap.setEntry_mem_of_ne _ _ hx] at hchildren
      rw [(hsweep _ hchildren ho₁).1, hsame]
      simp [nodeFree_setEntry _ _ hx]
    · cases hrun
      rw [Heap.setEntry_setEntry, ← hsame, Heap.setEntry_eq _ rfl]
      rfl

theorem nodeRelease_drains (h : nodeRelease H o = some H') : H.Drains H' :=
  nodeReleaseFuel_drains _ h

theorem releaseEach_drains {α : Type} {step : Heap → α → Option Heap} {ref : α → Option NodeId}
    (hnone : ∀ H a, ref a = none → step H a = some H)
    (hsome : ∀ H a o, ref a = some o → step H a = nodeRelease H o) (entries : List α) :
    ∀ {H H' : Heap}, entries.foldlM step H = some H' → H.Drains H' := by
  induction entries with
  | nil =>
    intro H H' hrun
    cases hrun
    exact fun n hn => hn
  | cons a entries ih =>
    intro H H' hrun
    simp only [List.foldlM_cons, Option.bind_eq_bind, Option.bind_eq_some_iff] at hrun
    obtain ⟨H₁, hstep, hrest⟩ := hrun
    refine Heap.Drains.trans ?_ (ih hrest)
    cases href : ref a with
    | none =>
      rw [hnone H a href] at hstep
      cases hstep
      exact fun n hn => hn
    | some o =>
      rw [hsome H a o href] at hstep
      exact nodeRelease_drains hstep

end Release

section Held

variable {H H' : Heap} {live live' : Finset NodeId} {owners owners' : Multiset NodeId}
  {o n : NodeId}

/-- A node that an owner reaches, or a live node that nobody refers to. -/
inductive Heap.Held (H : Heap) (live : Finset NodeId) (owners : Multiset NodeId) : NodeId → Prop
  | owner {n : NodeId} (h : n ∈ owners) : Held H live owners n
  | fresh {n : NodeId} (hn : n ∈ live) (h : H.refc n = 0) : Held H live owners n
  | child {m n : NodeId} (hm : Held H live owners m) (h : n ∈ H.children m) : Held H live owners n

theorem HeapOwned.live_of_held (h : HeapOwned H live owners') (howners : owners ≤ owners')
    (hheld : H.Held live owners n) : n ∈ live := by
  induction hheld with
  | owner hn => exact h.mem_of_owner (Multiset.mem_of_le howners hn)
  | fresh hn _ => exact hn
  | child _ hn ih => exact h.owned.mem_of_child ih hn

/-- What is held stays held when counts and children of the nodes that stay live are kept. -/
theorem Heap.Held.congr (hheld : H.Held live owners n) {live' : Finset NodeId}
    (hlive : ∀ m, H.Held live owners m → m ∈ live')
    (hrefc : ∀ m ∈ live', H.refc m = 0 → H'.refc m = 0)
    (hchildren : ∀ m ∈ live', H'.children m = H.children m) : H'.Held live' owners n := by
  induction hheld with
  | owner hn => exact .owner hn
  | fresh hn h0 =>
    have hn' := hlive _ (.fresh hn h0)
    exact .fresh hn' (hrefc _ hn' h0)
  | child hm hn ih =>
    apply Heap.Held.child ih
    rwa [hchildren _ (hlive _ hm)]

theorem nodeUnref_refc_of_ne (H : Heap) (h : n ≠ o) : (nodeUnref H o).refc n = H.refc n := by
  rw [Heap.refc, nodeUnref_mem_of_ne H h, ← Heap.refc]

theorem nodeUnref_children (H : Heap) (o n : NodeId) :
    (nodeUnref H o).children n = H.children n := by
  rw [Heap.children, nodeUnref_entry, ← Heap.children]

theorem nodeFree_mem_of_ne (H : Heap) (h : n ≠ o) : (nodeFree H o).mem n = H.mem n :=
  H.set_mem_of_ne _ h

theorem HeapOwned.ne_of_held (h : HeapOwned H live (o ::ₘ owners')) (howners : owners ≤ owners')
    (h0 : (nodeUnref H o).refc o = 0) (hheld : H.Held live owners n) : n ≠ o := by
  rintro rfl
  have hdec := h.decrement
  have hlive : n ∈ live := h.mem_of_owner (Multiset.mem_cons_self n owners')
  cases hheld with
  | owner hn =>
    have hpos := hdec.owned.pos_of_owner (Multiset.mem_of_le howners hn)
    omega
  | fresh _ h0' =>
    have hpos := h.owned.pos_of_owner (Multiset.mem_cons_self n owners')
    omega
  | child hm hn =>
    have hm' := h.live_of_held (howners.trans (Multiset.le_cons_self owners' n)) hm
    apply hdec.owned.not_child_of_refc_eq_zero hlive h0 hm'
    rwa [nodeUnref_children]

/-- Nodes that are held do not notice the release of somebody else's reference. -/
theorem nodeReleaseFuel_held (fuel : ℕ) : ∀ {H H' : Heap} {live : Finset NodeId}
    {owners owners' : Multiset NodeId} {o n : NodeId}, HeapOwned H live (o ::ₘ owners') →
    owners ≤ owners' → live.card < fuel → nodeReleaseFuel fuel H o = some H' →
    H.Held live owners n → ∃ live', HeapOwned H' live' owners' ∧ Swept H H' live live' ∧
      H'.Held live' owners n := by
  induction fuel with
  | zero =>
    intro H H' live owners owners' o n _ _ hcard
    exact absurd hcard (Nat.not_lt_zero _)
  | succ fuel ih =>
    -- the loop over the children releases one reference after the other
    have hsweep : ∀ (entry : List (Option NodeId)) {H H' : Heap} {live : Finset NodeId}
        {owners owners' : Multiset NodeId} {n : NodeId},
        HeapOwned H live ((entry.reduceOption : Multiset NodeId) + owners') → owners ≤ owners' →
        live.card < fuel → nodeSweepChildren (nodeReleaseFuel fuel) H entry = some H' →
        H.Held live owners n → ∃ live', HeapOwned H' live' owners' ∧ Swept H H' live live' ∧
          H'.Held live' owners n := by
      intro entry
      induction entry with
      | nil =>
        intro H H' live owners owners' n h _ _ hrun hheld
        cases hrun
        exact ⟨live, by simpa using h, .refl H live, hheld⟩
      | cons c entry ihe =>
        intro H H' live owners owners' n h howners hcard hrun hheld
        cases c with
        | none => exact ihe (by simpa using h) howners hcard hrun hheld
        | some c =>
          rw [List.reduceOption_cons_of_some, ← Multiset.cons_coe, Multiset.cons_add] at h
          simp only [nodeSweepChildren, List.foldlM_cons, Option.bind_eq_bind,
            Option.bind_eq_some_iff] at hrun
          obtain ⟨H₁, hc, hrest⟩ := hrun
          obtain ⟨live₁, h₁, hswept₁, hheld₁⟩ :=
            ih h (howners.trans (Multiset.le_add_left owners' _)) hcard hc hheld
          have hcard₁ := (Finset.card_le_card hswept₁.subset).trans_lt hcard
          obtain ⟨live', h', hswept, hheld'⟩ := ihe h₁ howners hcard₁ hrest hheld₁
          exact ⟨live', h', hswept₁.trans hswept, hheld'⟩
    intro H H' live owners owners' o n h howners hcard hrun hheld
    obtain ⟨H'', live', hrun', h', hswept⟩ := nodeReleaseFuel_spec (fuel + 1) H live owners' o h hcard
    obtain rfl : H'' = H' := Option.some.inj (hrun'.symm.trans hrun)
    refine ⟨live', h', hswept, ?_⟩
    have hlive : o ∈ live := h.mem_of_owner (Multiset.mem_cons_self o owners')
    have hpos : 0 < H.refc o := h.owned.pos_of_owner (Multiset.mem_cons_self o owners')
    have hle := howners.trans (Multiset.le_cons_self owners' o)
    simp only [nodeReleaseFuel] at hrun
    split_ifs at hrun with h0
    · simp only [Option.bind_eq_bind, Option.bind_eq_some_iff] at hrun
      obtain ⟨H₂, hchildren, hfree⟩ := hrun
      cases hfree
      have hne := fun m (hm : H.Held live owners m) => h.ne_of_held howners h0 hm
      have hheld₁ : (nodeUnref H o).Held (live.erase o) owners n := by
        apply hheld.congr
        · intro m hm
          exact Finset.mem_erase.2 ⟨hne m hm, h.live_of_held hle hm⟩
        · intro m hm hm0
          rwa [nodeUnref_refc_of_ne H (Finset.ne_of_mem_erase hm)]
        · intro m _
          exact nodeUnref_children H o m
      have hcard' : (live.erase o).card < fuel := by
        have := Finset.card_erase_lt_of_mem hlive
        omega
      obtain ⟨live₂, h₂, hswept₂, hheld₂⟩ :=
        hsweep _ (h.decrement.kill hlive h0) howners hcard' hchildren hheld₁
      have ho₂ : o ∉ live₂ := fun hmem => Finset.notMem_erase o live (hswept₂.subset hmem)
      apply hheld₂.congr
      · intro m hm
        have hm₂ := h₂.live_of_held howners hm
        have hmo : m ≠ o := ne_of_mem_of_not_mem hm₂ ho₂
        by_contra hm'
        have hmfree : m ∈ (nodeFree H₂ o).freeList :=
          (hswept.freeList m).2 (.inr ⟨Finset.mem_of_mem_erase (hswept₂.subset hm₂), hm'⟩)
        rcases List.mem_cons.1 hmfree with rfl | hmfree
        · exact hmo rfl
        · exact (h₂.free m hmfree).1 hm₂
      · intro m hm hm0
        have hmo : m ≠ o := by
          rintro rfl
          exact (h'.free m List.mem_cons_self).1 hm
        rw [Heap.refc, nodeFree_mem_of_ne H₂ hmo]
        exact hm0
      · intro m hm
        have hmo : m ≠ o := by
          rintro rfl
          exact (h'.free m List.mem_cons_self).1 hm
        rw [Heap.children, nodeFree_mem_of_ne H₂ hmo, ← Heap.children]
    · cases hrun
      apply hheld.congr
      · intro m hm
        have hm' := h.live_of_held hle hm
        by_contra hnot
        have hmfree := (hswept.freeList m).2 (.inr ⟨hm', hnot⟩)
        exact (h.free m hmfree).1 hm'
      · intro m _ hm0
        have hmo : m ≠ o := by
          rintro rfl
          omega
        rwa [nodeUnref_refc_of_ne H hmo]
      · intro m _
        exact nodeUnref_children H o m

end Held

section Moves

variable {H H₁ H' : Heap} {owners owners' : Multiset NodeId} {o n : NodeId}

theorem Heap.Balanced.nonneg (h : H.Balanced owners) (hn : n ∈ H.live) : 0 ≤ H.refc n :=
  h.owned.nonneg hn

/-- The pool is in order after an operation, which has freed only nodes with references and has
left none of them without. -/
structure Heap.Moves (H H' : Heap) (owners' : Multiset NodeId) : Prop where
  balanced : H'.Balanced owners'
  next : H.next ≤ H'.next
  freed : ∀ n ∈ H.live, n ∉ H'.live → 0 < H.refc n
  kept : ∀ n ∈ H.live, n ∈ H'.live → H'.refc n = 0 → H.refc n = 0

/-- Nodes and references are only added, and those with a first reference have it to the end. -/
structure Heap.Grows (H H' : Heap) (owners' : Multiset NodeId) : Prop where
  live : H.live ⊆ H'.live
  next : H.next ≤ H'.next
  kept : ∀ n ∈ H.live, H'.refc n = 0 → H.refc n = 0
  fresh : ∀ n ∈ H.live, H.refc n = 0 → H'.refc n = 0 ∨ n ∈ owners'

theorem Heap.Balanced.moves (h : H.Balanced owners) : H.Moves H owners where
  balanced := h
  next := le_rfl
  freed _ hn hn' := absurd hn hn'
  kept _ _ _ h0 := h0

theorem Heap.Grows.moves (hgrows : H.Grows H₁ owners') (h : H.Balanced owners)
    (hmoves : H₁.Moves H' owners') : H.Moves H' owners' where
  balanced := hmoves.balanced
  next := hgrows.next.trans hmoves.next
  freed n hn hn' := by
    have hpos := hmoves.freed n (hgrows.live hn) hn'
    have hnonneg := h.nonneg hn
    by_contra hnot
    rcases hgrows.fresh n hn (by omega) with h0 | hmem
    · omega
    · exact hn' (hmoves.balanced.mem_of_owner hmem)
  kept n hn hn' h0 := hgrows.kept n hn (hmoves.kept n (hgrows.live hn) hn' h0)

theorem nodeRetain_refc_self (H : Heap) (n : NodeId) :
    (nodeRetain H n).refc n = H.refc n + 1 := by
  simp [nodeRetain, Heap.refc]

theorem nodeRetain_refc_of_ne (H : Heap) (hn : n ≠ o) : (nodeRetain H o).refc n = H.refc n := by
  rw [nodeRetain, Heap.refc, H.set_mem_of_ne _ hn, ← Heap.refc]

theorem Heap.Balanced.retain (h : H.Balanced owners) (hn : n ∈ H.live) :
    (nodeRetain H n).Balanced (n ::ₘ owners) := HeapOwned.retain h hn

theorem Heap.Balanced.grows_retain (h : H.Balanced owners) (hmem : n ∈ owners') :
    H.Grows (nodeRetain H n) owners' where
  live := subset_rfl
  next := le_rfl
  kept m hm h0 := by
    by_cases hmn : m = n
    · subst hmn
      rw [nodeRetain_refc_self] at h0
      have := h.nonneg hm
      omega
    · rwa [nodeRetain_refc_of_ne H hmn] at h0
  fresh m _ h0 := by
    by_cases hmn : m = n
    · rw [hmn]
      exact .inr hmem
    · rw [nodeRetain_refc_of_ne H hmn]
      exact .inl h0

theorem Heap.Moves.retain (h : H.Moves H' owners') (hn : n ∈ H'.live) :
    H.Moves (nodeRetain H' n) (n ::ₘ owners') where
  balanced := h.balanced.retain hn
  next := h.next
  freed := h.freed
  kept m hm hm' h0 := by
    apply h.kept m hm hm'
    by_cases hmn : m = n
    · subst hmn
      rw [nodeRetain_refc_self] at h0
      have := h.balanced.nonneg hn
      omega
    · rwa [nodeRetain_refc_of_ne H' hmn] at h0

/-- Releases free the nodes that are no longer counted. -/
theorem HeapOwned.moves_of_swept {live' : Finset NodeId} (h' : HeapOwned H' live' owners')
    (hswept : Swept H H' H.live live') (hdrains : H.Drains H') : H.Moves H' owners' where
  balanced := h'.balanced (hswept.covered H.covered_live)
  next := hswept.next.ge
  freed n hn hn' := by
    rw [← h'.live_eq (hswept.covered H.covered_live)] at hn'
    exact hswept.freed n hn hn'
  kept n _ _ h0 := hdrains n h0

/-- An owner gives its reference back; what is held stays live. -/
theorem Heap.Balanced.release (h : H.Balanced (o ::ₘ owners)) : ∃ H', nodeRelease H o = some H' ∧
    H.Moves H' owners ∧ H.Drains H' ∧ H'.live ⊆ H.live ∧
    (∀ n, H.Held H.live owners n → n ∈ H'.live) := by
  obtain ⟨H', live', hrun, h', hswept⟩ := nodeRelease_spec h
  have hdrains := nodeReleaseFuel_drains _ hrun
  have hlive := h'.live_eq (hswept.covered H.covered_live)
  have hmoves := h'.moves_of_swept hswept hdrains
  refine ⟨H', hrun, hmoves, hdrains, ?_, ?_⟩
  · rw [← hlive]
    exact hswept.subset
  · intro n hn
    have hcard : H.live.card < H.next + 1 := by
      have hsub := Finset.card_le_card (Finset.filter_subset (fun n => n ∉ H.freeList)
        (Finset.range H.next))
      rw [Finset.card_range] at hsub
      exact Nat.lt_succ_of_le hsub
    obtain ⟨live₂, h₂, hswept₂, hheld⟩ := nodeReleaseFuel_held _ h le_rfl hcard hrun hn
    rw [← h₂.live_eq (hswept₂.covered H.covered_live)]
    exact h₂.live_of_held le_rfl hheld

end Moves

section Children

variable {H H' : Heap} {live : Finset NodeId} {owners owners' : Multiset NodeId} {o n v : NodeId}
  {entry : List (Option NodeId)} {index : ℕ} {labelId : UInt16}

theorem Heap.setEntry_children_of_ne (H : Heap) (entry : List (Option NodeId)) (hn : n ≠ o) :
    (H.setEntry o entry).children n = H.children n := by
  rw [Heap.children, H.setEntry_mem_of_ne entry hn, ← Heap.children]

theorem Heap.setEntry_children_self (H : Heap) (o : NodeId) (entry : List (Option NodeId)) :
    (H.setEntry o entry).children o = entry.reduceOption := by
  rw [Heap.children, H.setEntry_self]

/-- An owner hands its reference over to a child array. -/
theorem HeapOwned.storeEntry (h : HeapOwned H live (n ::ₘ owners)) (ho : o ∈ live)
    (hperm : entry.reduceOption.Perm (n :: H.children o)) :
    HeapOwned (H.setEntry o entry) live owners where
  owned := by
    rw [← H.setEntry_children_self o entry] at hperm
    have hstore : Owned live (H.setEntry o entry).children H.refc owners :=
      h.owned.store ho hperm fun k hk => H.setEntry_children_of_ne entry hk
    exact hstore.congr (fun _ _ => rfl) fun m _ => H.setEntry_refc o entry m
  nodup := h.nodup
  free := h.free
  bound := h.bound

theorem HeapOwned.takeEntry (h : HeapOwned H live owners) (ho : o ∈ live)
    (hperm : (H.children o).Perm (n :: entry.reduceOption)) :
    HeapOwned (H.setEntry o entry) live (n ::ₘ owners) where
  owned := by
    rw [← H.setEntry_children_self o entry] at hperm
    have htake : Owned live (H.setEntry o entry).children H.refc (n ::ₘ owners) :=
      h.owned.take ho hperm fun k hk => H.setEntry_children_of_ne entry hk
    exact htake.congr (fun _ _ => rfl) fun m _ => H.setEntry_refc o entry m
  nodup := h.nodup
  free := h.free
  bound := h.bound

theorem Heap.Moves.congr (h : H.Moves H' owners) {H'' : Heap} (hbalanced : H''.Balanced owners')
    (hlive : H''.live = H'.live) (hnext : H''.next = H'.next)
    (hrefc : ∀ n, H''.refc n = H'.refc n) : H.Moves H'' owners' where
  balanced := hbalanced
  next := h.next.trans hnext.ge
  freed n hn hn' := by
    rw [hlive] at hn'
    exact h.freed n hn hn'
  kept n hn hn' h0 := by
    rw [hlive] at hn'
    rw [hrefc] at h0
    exact h.kept n hn hn' h0

theorem Heap.Balanced.moves_retain (h : H.Balanced owners) (hn : n ∈ H.live) :
    H.Moves (nodeRetain H n) (n ::ₘ owners) := h.moves.retain hn

theorem Heap.Balanced.append (h : H.Balanced owners) (ho : o ∈ H.live) {child : Option NodeId}
    (hn : ∀ n, child = some n → n ∈ H.live) : H.Moves (nodeAppend H o child) owners := by
  cases child with
  | none =>
    have hentry : nodeAppend H o none = H.setEntry o ((H.mem o).entry ++ [none]) := rfl
    rw [hentry]
    refine h.moves.congr ⟨h.owned.congr ?_ ?_, h.nodup, h.free, h.bound⟩ rfl rfl
      (H.setEntry_refc o _)
    · intro m _
      by_cases hmo : m = o
      · subst hmo
        rw [Heap.setEntry_children_self, List.reduceOption_append]
        simp [Heap.children]
      · rw [H.setEntry_children_of_ne _ hmo]
    · intro m _
      exact H.setEntry_refc o _ m
  | some n =>
    have hretain := h.moves_retain (hn n rfl)
    have hentry : nodeAppend H o (some n) =
        (nodeRetain H n).setEntry o (((nodeRetain H n).mem o).entry ++ [some n]) := rfl
    rw [hentry]
    refine hretain.congr ?_ rfl rfl (Heap.setEntry_refc _ o _)
    apply HeapOwned.storeEntry hretain.balanced ho
    rw [List.reduceOption_append, ← Heap.children]
    exact List.perm_append_singleton n _

/-- A node that is held is held in other ways than by its own children. -/
theorem Heap.Held.hollow (hheld : H.Held live owners v) :
    ((nodeRetain H n).setEntry o entry).Held live (n ::ₘ owners) o ∨
      ((nodeRetain H n).setEntry o entry).Held live (n ::ₘ owners) v := by
  induction hheld with
  | owner hm => exact .inr (.owner (Multiset.mem_cons_of_mem hm))
  | @fresh m hm h0 =>
    right
    by_cases hmn : m = n
    · rw [hmn]
      exact .owner (Multiset.mem_cons_self n owners)
    · apply Heap.Held.fresh hm
      rwa [Heap.setEntry_refc, nodeRetain_refc_of_ne H hmn]
  | @child m k _ hk ih =>
    rcases ih with ho | hm
    · exact .inl ho
    · by_cases hmo : m = o
      · rw [hmo] at hm
        exact .inl hm
      · right
        apply hm.child
        rw [Heap.setEntry_children_of_ne _ _ hmo]
        by_cases hmn : m = n
        · subst hmn
          simpa [nodeRetain, Heap.children] using hk
        · rw [Heap.children, nodeRetain, H.set_mem_of_ne _ hmn, ← Heap.children]
          exact hk

theorem perm_reduceOption_take {α : Type} {l : List (Option α)} {index : ℕ} {a : α}
    (h : l[index]? = some (some a)) :
    l.reduceOption.Perm (a :: (l.set index none).reduceOption) := by
  obtain ⟨hlt, hget⟩ := List.getElem?_eq_some_iff.1 h
  have hnull : (l.set index none)[index]? = some none := by
    rw [List.getElem?_set_self hlt]
  have hback : (l.set index none).set index (some a) = l := by
    rw [List.set_set, ← hget, List.set_getElem_self]
  have hperm := perm_reduceOption_set a hnull
  rwa [hback] at hperm

theorem Heap.Moves.fillSlot (h : H.Moves H' (n ::ₘ owners)) (ho : o ∈ H'.live) (hne : o ≠ n)
    (hslot : nodeGet H' o index = none) : H.Moves (H'.fillSlot o index labelId n) owners :=
  h.congr (HeapOwned.fillSlot h.balanced ho hne hslot) rfl rfl (Heap.fillSlot_refc H' hne)

theorem Heap.set_comm (H : Heap) (hne : o ≠ n) (node node' : Node) :
    (H.set o node).set n node' = (H.set n node').set o node := by
  unfold Heap.set
  congr 1
  funext m
  by_cases hm : m = o
  · rw [hm]
    simp [hne]
  · simp [hm]

theorem Heap.fillSlot_setEntry (H : Heap) (hne : o ≠ n)
    (hentry : entry.set index none = (H.mem o).entry) (hlt : index < entry.length) :
    (H.setEntry o entry).fillSlot o index labelId n = H.fillSlot o index labelId n := by
  have hlength : (H.mem o).entry.length = entry.length := by
    rw [← hentry, List.length_set]
  have hn : (H.setEntry o entry).mem n = H.mem n := H.setEntry_mem_of_ne entry hne.symm
  have hzero : index + 1 - entry.length = 0 := by omega
  unfold Heap.fillSlot nodeLength
  rw [hn, Heap.setEntry, H.set_comm hne, Heap.set_set, Heap.set_mem_self, hlength, ← hentry]
  simp [hzero]

/-- Setting a child in a node that is held, or at a place where there is none. -/
theorem Heap.Balanced.set (h : H.Balanced owners) (ho : o ∈ H.live) (hn : n ∈ H.live)
    (hne : o ≠ n) (index : ℕ) (labelId : UInt16)
    (hheld : nodeGet H o index = none ∨ H.Held H.live owners o) :
    ∃ H', nodeSet H o index labelId n = some H' ∧ H.Moves H' owners := by
  have hretain := h.moves_retain hn
  have ho₁ : (nodeRetain H n).mem o = H.mem o := H.set_mem_of_ne _ hne
  rw [nodeSet_eq H hne]
  cases hget : nodeGet H o index with
  | none =>
    refine ⟨_, rfl, hretain.fillSlot ho hne ?_⟩
    rw [nodeGet, ho₁]
    exact hget
  | some v =>
    have hentry : (H.mem o).entry[index]? = some (some v) := by
      unfold nodeGet at hget
      cases hindex : (H.mem o).entry[index]? with
      | none => simp [hindex] at hget
      | some child => simpa [hindex] using hget
    obtain ⟨hlt, -⟩ := List.getElem?_eq_some_iff.1 hentry
    -- the slot is empty in the books: its reference is the one that is released
    have htake : ((nodeRetain H n).setEntry o ((H.mem o).entry.set index none)).Balanced
        (v ::ₘ n ::ₘ owners) := by
      apply HeapOwned.takeEntry hretain.balanced ho
      rw [Heap.children, ho₁]
      exact perm_reduceOption_take hentry
    obtain ⟨H₂, hrun, hmoves, -, -, hstays⟩ := htake.release
    have hlive : o ∈ H₂.live := by
      apply hstays
      have hheld' := hheld.resolve_left (by simp [hget])
      rcases hheld'.hollow with h' | h' <;> exact h'
    have hback := nodeReleaseFuel_setEntry _ _ hrun (Heap.mem_live.1 hlive).2
    have hentry₂ : (H₂.mem o).entry = (H.mem o).entry.set index none := by
      rw [(nodeReleaseFuel_lasts hrun).entry, Heap.setEntry_self]
    have hfill : (H₂.setEntry o ((nodeRetain H n).mem o).entry).fillSlot o index labelId n =
        H₂.fillSlot o index labelId n := by
      rw [ho₁]
      exact H₂.fillSlot_setEntry hne hentry₂.symm hlt
    refine ⟨H₂.fillSlot o index labelId n, ?_, ?_⟩
    · have hrun' : nodeRelease (nodeRetain H n) v = _ := hback
      rw [← hfill]
      simp only [hrun', Option.map_some]
    · apply Heap.Moves.fillSlot _ hlive hne
      · rw [nodeGet, hentry₂, List.getElem?_set_self hlt]
        rfl
      · have hgrows : H.Grows ((nodeRetain H n).setEntry o ((H.mem o).entry.set index none))
            (n ::ₘ owners) := by
          have hgrows' : H.Grows (nodeRetain H n) (n ::ₘ owners) :=
            h.grows_retain (Multiset.mem_cons_self n owners)
          constructor
          · exact hgrows'.live
          · exact le_rfl
          · intro m hm h0
            rw [Heap.setEntry_refc] at h0
            exact hgrows'.kept m hm h0
          · intro m hm h0
            rw [Heap.setEntry_refc]
            exact hgrows'.fresh m hm h0
        exact hgrows.moves h hmoves

end Children

end Moz
