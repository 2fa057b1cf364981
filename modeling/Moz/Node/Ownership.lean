import Moz.Node.Heap

/-!
# Who owns a node

The counts of the pool are right for a set of live nodes and a multiset of owners
outside the pool. Releasing a reference keeps the counts right, keeps every node
that is still referenced as it was, and returns the others to the free list.
-/

namespace Moz

open RefCount

/-- The counts are right, and the free list holds no live node. -/
structure HeapOwned (H : Heap) (live : Finset NodeId) (owners : Multiset NodeId) : Prop where
  owned : Owned live H.children H.refc owners
  nodup : H.freeList.Nodup
  free : ∀ n ∈ H.freeList, n ∉ live ∧ n < H.next
  bound : ∀ n ∈ live, n < H.next

def Heap.Covered (H : Heap) (live : Finset NodeId) : Prop :=
  ∀ n < H.next, n ∈ live ∨ n ∈ H.freeList

/-- What releases do: the nodes of `live'` stay, the others of `live` become free. -/
structure Swept (H H' : Heap) (live live' : Finset NodeId) : Prop where
  subset : live' ⊆ live
  keeps : ∀ n ∈ live', H'.mem n = { H.mem n with refc := H'.refc n }
  le : ∀ n ∈ live', H'.refc n ≤ H.refc n
  freed : ∀ n ∈ live, n ∉ live' → 0 < H.refc n
  freeList : ∀ n, n ∈ H'.freeList ↔ n ∈ H.freeList ∨ n ∈ live ∧ n ∉ live'
  next : H'.next = H.next

namespace Swept

theorem refl (H : Heap) (live : Finset NodeId) : Swept H H live live where
  subset := subset_rfl
  keeps _ _ := rfl
  le _ _ := le_rfl
  freed _ hn hn' := absurd hn hn'
  freeList n := by tauto
  next := rfl

theorem trans {H₁ H₂ H₃ : Heap} {L₁ L₂ L₃ : Finset NodeId} (h : Swept H₁ H₂ L₁ L₂)
    (h' : Swept H₂ H₃ L₂ L₃) : Swept H₁ H₃ L₁ L₃ where
  subset := h'.subset.trans h.subset
  keeps n hn := by rw [h'.keeps n hn, h.keeps n (h'.subset hn)]
  le n hn := (h'.le n hn).trans (h.le n (h'.subset hn))
  freed n hn hn' := by
    by_cases hmid : n ∈ L₂
    · exact (h'.freed n hmid hn').trans_le (h.le n hmid)
    · exact h.freed n hn hmid
  freeList n := by
    have hsub := @h.subset n
    have hsub' := @h'.subset n
    rw [h'.freeList, h.freeList]
    tauto
  next := h'.next.trans h.next

theorem entry {H H' : Heap} {live live' : Finset NodeId} (h : Swept H H' live live')
    {n : NodeId} (hn : n ∈ live') : (H'.mem n).entry = (H.mem n).entry := by
  rw [h.keeps n hn]

theorem covered {H H' : Heap} {live live' : Finset NodeId} (h : Swept H H' live live')
    (hc : H.Covered live) : H'.Covered live' := by
  intro n hn
  rw [h.next] at hn
  rw [h.freeList]
  have hcn := hc n hn
  tauto

end Swept

namespace HeapOwned

variable {H : Heap} {live : Finset NodeId} {owners : Multiset NodeId}

theorem mem_of_owner (h : HeapOwned H live owners) {n : NodeId} (hn : n ∈ owners) : n ∈ live :=
  h.owned.mem_of_owner hn

theorem mem_of_entry (h : HeapOwned H live owners) {m n : NodeId} (hm : m ∈ live)
    (hn : some n ∈ (H.mem m).entry) : n ∈ live :=
  h.owned.mem_of_child hm (List.reduceOption_mem_iff.2 hn)

/-- A node whose count is zero stands in no child array. -/
theorem not_mem_entry (h : HeapOwned H live owners) {m n : NodeId} (hn : n ∈ live)
    (h0 : H.refc n = 0) (hm : m ∈ live) : some n ∉ (H.mem m).entry := fun hmem =>
  h.owned.not_child_of_refc_eq_zero hn h0 hm (List.reduceOption_mem_iff.2 hmem)

theorem retain (h : HeapOwned H live owners) {n : NodeId} (hn : n ∈ live) :
    HeapOwned (nodeRetain H n) live (n ::ₘ owners) where
  owned := by
    have hset : ∀ m, m ≠ n → (nodeRetain H n).mem m = H.mem m := fun m hm =>
      H.set_mem_of_ne _ hm
    have hchildren : ∀ m ∈ live, (nodeRetain H n).children m = H.children m := by
      intro m _
      by_cases hmn : m = n
      · subst hmn
        simp [Heap.children, nodeRetain]
      · rw [Heap.children, hset m hmn, ← Heap.children]
    refine (h.owned.retain hn ?_ ?_).congr hchildren (fun m _ => rfl)
    · simp [Heap.refc, nodeRetain]
    · intro m hm
      rw [Heap.refc, hset m hm, ← Heap.refc]
  nodup := h.nodup
  free := h.free
  bound := h.bound

end HeapOwned

section Release

variable {H : Heap} {live : Finset NodeId} {owners : Multiset NodeId}

theorem nodeUnref_mem_of_ne (H : Heap) {o n : NodeId} (h : n ≠ o) :
    (nodeUnref H o).mem n = H.mem n := H.set_mem_of_ne _ h

theorem nodeUnref_entry (H : Heap) (o n : NodeId) :
    ((nodeUnref H o).mem n).entry = (H.mem n).entry := by
  by_cases h : n = o
  · subst h
    simp [nodeUnref]
  · rw [nodeUnref_mem_of_ne H h]

/-- The count of `o` has been taken down, nothing has been swept yet. -/
theorem HeapOwned.decrement {o : NodeId} (h : HeapOwned H live (o ::ₘ owners)) :
    HeapOwned (nodeUnref H o) live owners := by
  refine ⟨(h.owned.release ?_ ?_).congr ?_ (fun m _ => rfl), h.nodup, h.free, h.bound⟩
  · simp [Heap.refc, nodeUnref]
  · intro m hm
    simp [Heap.refc, nodeUnref, H.set_mem_of_ne _ hm]
  · intro m _
    rw [Heap.children, nodeUnref_entry, ← Heap.children]

theorem Swept.decrement (H : Heap) (live : Finset NodeId) (o : NodeId) :
    Swept H (nodeUnref H o) live live where
  subset := subset_rfl
  keeps n _ := by
    by_cases hno : n = o
    · subst hno
      simp [Heap.refc, nodeUnref]
    · simp [Heap.refc, nodeUnref, H.set_mem_of_ne _ hno]
  le n _ := by
    by_cases hno : n = o
    · subst hno
      simp [Heap.refc, nodeUnref]
    · simp [Heap.refc, nodeUnref, H.set_mem_of_ne _ hno]
  freed _ hn hn' := absurd hn hn'
  freeList n := by
    show n ∈ H.freeList ↔ _
    tauto
  next := rfl

/-- The loop over the children releases one reference each. -/
theorem nodeSweepChildren_spec {release : Heap → NodeId → Option Heap} {bound : ℕ}
    (hrelease : ∀ H live owners o, HeapOwned H live (o ::ₘ owners) → live.card < bound →
      ∃ H' live', release H o = some H' ∧ HeapOwned H' live' owners ∧ Swept H H' live live')
    (entry : List (Option NodeId)) {H : Heap} {live : Finset NodeId} {owners : Multiset NodeId}
    (h : HeapOwned H live ((entry.reduceOption : Multiset NodeId) + owners))
    (hcard : live.card < bound) :
    ∃ H' live', nodeSweepChildren release H entry = some H' ∧ HeapOwned H' live' owners ∧
      Swept H H' live live' := by
  induction entry generalizing H live with
  | nil =>
    refine ⟨H, live, rfl, ?_, .refl H live⟩
    simpa using h
  | cons c entry ih =>
    cases c with
    | none =>
      obtain ⟨H', live', hrun, hok, hswept⟩ := ih (by simpa using h) hcard
      exact ⟨H', live', by simpa [nodeSweepChildren] using hrun, hok, hswept⟩
    | some c =>
      rw [List.reduceOption_cons_of_some, ← Multiset.cons_coe, Multiset.cons_add] at h
      obtain ⟨H₁, live₁, hrun₁, hok₁, hswept₁⟩ := hrelease H live _ c h hcard
      have hcard₁ := (Finset.card_le_card hswept₁.subset).trans_lt hcard
      obtain ⟨H', live', hrun, hok, hswept⟩ := ih hok₁ hcard₁
      refine ⟨H', live', ?_, hok, hswept₁.trans hswept⟩
      simpa [nodeSweepChildren, hrun₁] using hrun

/-- A node nobody refers to any more dies, and its children are owned by who sweeps it. -/
theorem HeapOwned.kill {o : NodeId} (h : HeapOwned H live owners) (ho : o ∈ live)
    (h0 : H.refc o = 0) :
    HeapOwned H (live.erase o) (((H.mem o).entry.reduceOption : Multiset NodeId) + owners) where
  owned := h.owned.kill ho h0
  nodup := h.nodup
  free n hn := ⟨fun hmem => (h.free n hn).1 (Finset.mem_of_mem_erase hmem), (h.free n hn).2⟩
  bound n hn := h.bound n (Finset.mem_of_mem_erase hn)

theorem HeapOwned.nodeFree {o : NodeId} (h : HeapOwned H live owners) (ho : o ∉ live)
    (hfree : o ∉ H.freeList) (hlt : o < H.next) : HeapOwned (nodeFree H o) live owners := by
  have hmem : ∀ n ∈ live, (Moz.nodeFree H o).mem n = H.mem n := by
    intro n hn
    exact H.set_mem_of_ne _ (ne_of_mem_of_not_mem hn ho)
  constructor
  · apply h.owned.congr
    · intro n hn
      rw [Heap.children, hmem n hn, ← Heap.children]
    · intro n hn
      rw [Heap.refc, hmem n hn, ← Heap.refc]
  · exact List.nodup_cons.2 ⟨hfree, h.nodup⟩
  · intro n hn
    rcases List.mem_cons.1 hn with rfl | hn
    · exact ⟨ho, hlt⟩
    · exact h.free n hn
  · exact h.bound

/-- Fuel above the number of live nodes is enough for a release. -/
theorem nodeReleaseFuel_spec (fuel : ℕ) : ∀ (H : Heap) (live : Finset NodeId)
    (owners : Multiset NodeId) (o : NodeId), HeapOwned H live (o ::ₘ owners) →
    live.card < fuel →
    ∃ H' live', nodeReleaseFuel fuel H o = some H' ∧ HeapOwned H' live' owners ∧
      Swept H H' live live' := by
  induction fuel with
  | zero =>
    intro H live owners o _ hcard
    exact absurd hcard (Nat.not_lt_zero _)
  | succ fuel ih =>
    intro H live owners o h hcard
    have hlive : o ∈ live := h.mem_of_owner (Multiset.mem_cons_self o owners)
    have hpos : 0 < H.refc o := h.owned.pos_of_owner (Multiset.mem_cons_self o owners)
    have hdec := h.decrement
    have hsweptDec := Swept.decrement H live o
    have hstep : nodeReleaseFuel (fuel + 1) H o =
        if ((nodeUnref H o).mem o).refc = 0 then
          (nodeSweepChildren (nodeReleaseFuel fuel) (nodeUnref H o)
            ((nodeUnref H o).mem o).entry).map (nodeFree · o)
        else some (nodeUnref H o) := by
      rw [nodeReleaseFuel]
      split_ifs
      · cases nodeSweepChildren (nodeReleaseFuel fuel) (nodeUnref H o)
          ((nodeUnref H o).mem o).entry <;> rfl
      · rfl
    have hother := fun {n : NodeId} (hn : n ≠ o) => nodeUnref_mem_of_ne H hn
    generalize nodeUnref H o = H₁ at hdec hsweptDec hstep hother
    rw [hstep]
    split_ifs with h0
    · -- the last reference is gone: the children are released on behalf of `o`
      have hcard' : (live.erase o).card < fuel := by
        have := Finset.card_erase_lt_of_mem hlive
        omega
      obtain ⟨H₂, live₂, hrun, hok, hswept⟩ :=
        nodeSweepChildren_spec ih (H₁.mem o).entry (hdec.kill hlive h0) hcard'
      have ho₂ : o ∉ live₂ := fun hmem => Finset.notMem_erase o live (hswept.subset hmem)
      have hofree : o ∉ H₂.freeList := by
        rw [hswept.freeList]
        rintro (hfree | ⟨hmem, -⟩)
        · exact (hdec.free o hfree).1 hlive
        · exact Finset.notMem_erase o live hmem
      have hmem : ∀ n ∈ live₂, (nodeFree H₂ o).mem n = H₂.mem n := by
        intro n hn
        exact H₂.set_mem_of_ne _ (ne_of_mem_of_not_mem hn ho₂)
      refine ⟨nodeFree H₂ o, live₂, by rw [hrun, Option.map_some], ?_, ?_⟩
      · apply hok.nodeFree ho₂ hofree
        rw [hswept.next]
        exact hdec.bound o hlive
      · constructor
        · exact hswept.subset.trans (Finset.erase_subset o live)
        · intro n hn
          have hne : n ≠ o := ne_of_mem_of_not_mem hn ho₂
          rw [Heap.refc, hmem n hn, hswept.keeps n hn, hother hne]
        · intro n hn
          have hne : n ≠ o := ne_of_mem_of_not_mem hn ho₂
          have hle := hswept.le n hn
          rw [Heap.refc, hmem n hn, ← Heap.refc]
          rwa [H₁.refc_def, hother hne] at hle
        · intro n hn hn'
          by_cases hno : n = o
          · rwa [hno]
          · have hfreed := hswept.freed n (Finset.mem_erase.2 ⟨hno, hn⟩) hn'
            rwa [H₁.refc_def, hother hno] at hfreed
        · intro n
          have hcases : n ∈ (nodeFree H₂ o).freeList ↔ n = o ∨ n ∈ H₂.freeList := by
            simp [nodeFree]
          rw [hcases, hswept.freeList, Finset.mem_erase, hsweptDec.freeList]
          by_cases hno : n = o
          · subst hno
            tauto
          · tauto
        · exact hswept.next.trans hsweptDec.next
    · exact ⟨H₁, live, rfl, hdec, hsweptDec⟩

theorem nodeRelease_spec {o : NodeId} (h : HeapOwned H live (o ::ₘ owners)) :
    ∃ H' live', nodeRelease H o = some H' ∧ HeapOwned H' live' owners ∧
      Swept H H' live live' := by
  refine nodeReleaseFuel_spec (H.next + 1) H live owners o h ?_
  have hsub : live ⊆ Finset.range H.next := fun n hn => Finset.mem_range.2 (h.bound n hn)
  have hcard := Finset.card_le_card hsub
  rw [Finset.card_range] at hcard
  omega

/-- A loop over a list gives back the references that its entries hold. -/
theorem releaseEach_spec {α : Type} {step : Heap → α → Option Heap} {ref : α → Option NodeId}
    (hnone : ∀ H a, ref a = none → step H a = some H)
    (hsome : ∀ H a o, ref a = some o → step H a = nodeRelease H o) (entries : List α) :
    ∀ {H : Heap} {live : Finset NodeId} {owners : Multiset NodeId},
    HeapOwned H live ((entries.filterMap ref : List NodeId) + owners) →
    ∃ H' live', entries.foldlM step H = some H' ∧ HeapOwned H' live' owners ∧
      Swept H H' live live' := by
  induction entries with
  | nil =>
    intro H live owners h
    exact ⟨H, live, rfl, by simpa using h, .refl H live⟩
  | cons a entries ih =>
    intro H live owners h
    cases href : ref a with
    | none =>
      rw [List.filterMap_cons_none href] at h
      obtain ⟨H', live', hrun, hok, hswept⟩ := ih h
      exact ⟨H', live', by simp [hnone H a href, hrun], hok, hswept⟩
    | some o =>
      rw [List.filterMap_cons_some href, ← Multiset.cons_coe, Multiset.cons_add] at h
      obtain ⟨H₁, live₁, hrun₁, hok₁, hswept₁⟩ := nodeRelease_spec h
      obtain ⟨H', live', hrun, hok, hswept⟩ := ih hok₁
      exact ⟨H', live', by simp [hsome H a o href, hrun₁, hrun], hok, hswept₁.trans hswept⟩

end Release

section Build

variable {H : Heap} {live : Finset NodeId} {owners : Multiset NodeId}

/-- `nodeAlloc` takes a node that is not live and leaves the memory alone. -/
theorem nodeAlloc_spec (h : HeapOwned H live owners) :
    (nodeAlloc H).2 ∉ live ∧ (nodeAlloc H).2 ∉ (nodeAlloc H).1.freeList ∧
      (nodeAlloc H).2 < (nodeAlloc H).1.next ∧ (nodeAlloc H).1.mem = H.mem ∧
      (∀ n ∈ (nodeAlloc H).1.freeList, n ∈ H.freeList) ∧
      (nodeAlloc H).1.freeList.Nodup ∧ H.next ≤ (nodeAlloc H).1.next ∧
      (∀ n, n ∈ live ∨ n ∈ H.freeList → n = (nodeAlloc H).2 ∨ n ∈ live ∨
        n ∈ (nodeAlloc H).1.freeList) ∧
      (∀ n < (nodeAlloc H).1.next, n = (nodeAlloc H).2 ∨ n < H.next) := by
  unfold nodeAlloc
  cases hfree : H.freeList with
  | nil =>
    have hlive : H.next ∉ live := fun hmem => (h.bound _ hmem).false
    refine ⟨hlive, by simp, by simp, rfl, by simp, by simp, by simp, ?_, ?_⟩
    · intro n hn
      simpa [hfree] using Or.inr hn
    · intro n hn
      exact (Nat.lt_succ_iff_lt_or_eq.1 hn).symm
  | cons o freeList =>
    have hnodup := h.nodup
    have hmem := h.free o (by simp [hfree])
    rw [hfree, List.nodup_cons] at hnodup
    refine ⟨hmem.1, hnodup.1, hmem.2, rfl, fun n hn => by simp [show n ∈ freeList from hn],
      hnodup.2, le_rfl, ?_, ?_⟩
    · intro n hn
      rw [List.mem_cons] at hn
      show n = o ∨ n ∈ live ∨ n ∈ freeList
      tauto
    · intro n hn
      exact .inr hn

/-- A new node is live, has no references to it and no children, and nothing else changes. -/
theorem nodeNew_spec (h : HeapOwned H live owners) (tag : Option (List UInt8)) (str : ℕ)
    (len : UInt32) (elmSize : ℕ) (value : Option (List UInt8)) :
    ∃ H' o, nodeNew H tag str len elmSize value = (H', o) ∧ o ∉ live ∧
      HeapOwned H' (insert o live) owners ∧ (∀ n, n ≠ o → H'.mem n = H.mem n) ∧
      H'.mem o = nodeInit (H.mem o).labelId tag str len elmSize value ∧
      (H.Covered live → H'.Covered (insert o live)) := by
  obtain ⟨hlive, hnotfree, hlt, hmem, hsub, hnodup, hnext, hcover, hused⟩ := nodeAlloc_spec h
  have hdef : nodeNew H tag str len elmSize value =
      ((nodeAlloc H).1.set (nodeAlloc H).2
        (nodeInit (H.mem (nodeAlloc H).2).labelId tag str len elmSize value), (nodeAlloc H).2) := by
    rw [← hmem]
    rfl
  rw [hdef]
  generalize (nodeAlloc H).2 = o at *
  generalize (nodeAlloc H).1 = H₁ at *
  have hother : ∀ node n, n ≠ o → (H₁.set o node).mem n = H.mem n := fun node n hn => by
    rw [Heap.set_mem_of_ne _ _ hn, hmem]
  refine ⟨_, _, rfl, hlive, ⟨h.owned.alloc hlive ?_ ?_ ?_ ?_, hnodup, ?_, ?_⟩, hother _, ?_, ?_⟩
  · simp [Heap.children, nodeInit, List.reduceOption_replicate_none]
  · simp [Heap.refc, nodeInit]
  · intro m hm
    rw [Heap.children, hother _ m hm, ← Heap.children]
  · intro m hm
    rw [Heap.refc, hother _ m hm, ← Heap.refc]
  · intro n hn
    have hfree := h.free n (hsub n hn)
    refine ⟨fun hins => ?_, hfree.2.trans_le hnext⟩
    rcases Finset.mem_insert.1 hins with rfl | hin
    · exact hnotfree hn
    · exact hfree.1 hin
  · intro n hn
    rcases Finset.mem_insert.1 hn with rfl | hn
    · exact hlt
    · exact (h.bound n hn).trans_le hnext
  · rw [Heap.set_mem_self]
  · intro hc n hn
    rcases hused n hn with rfl | hlt'
    · exact .inl (Finset.mem_insert_self _ _)
    · rcases hcover n (hc n hlt') with rfl | hin | hin
      · exact .inl (Finset.mem_insert_self _ _)
      · exact .inl (Finset.mem_insert_of_mem hin)
      · exact .inr hin

theorem perm_reduceOption_set {α : Type} {l : List (Option α)} {index : ℕ} (a : α)
    (h : l[index]? = some none) : (l.set index (some a)).reduceOption.Perm (a :: l.reduceOption) := by
  induction l generalizing index with
  | nil => simp at h
  | cons x l ih =>
    cases index with
    | zero =>
      obtain rfl : x = none := by simpa using h
      simp
    | succ index =>
      have hperm := ih (by simpa using h)
      cases x with
      | none => simpa using hperm
      | some x =>
        simp only [List.set_cons_succ, List.reduceOption_cons_of_some]
        exact (hperm.cons x).trans (List.Perm.swap a x _)

theorem nodeAppendNull_eq (H : Heap) (o : NodeId) (k : ℕ) : nodeAppendNull H o k =
    H.set o { H.mem o with entry := (H.mem o).entry ++ List.replicate k none } := by
  induction k generalizing H with
  | zero =>
    rw [List.replicate_zero, List.append_nil]
    exact (H.set_self rfl).symm
  | succ k ih =>
    rw [nodeAppendNull, ih, nodeAppend, Heap.set_mem_self, Heap.set_set, List.append_assoc,
      List.singleton_append, ← List.replicate_succ]

/-- What `Node_set` does once the child it replaces is released. -/
def Heap.fillSlot (H : Heap) (o : NodeId) (index : ℕ) (labelId : UInt16) (n : NodeId) : Heap :=
  (H.set n { H.mem n with labelId := labelId }).set o { H.mem o with
    entry := ((H.mem o).entry ++ List.replicate (index + 1 - nodeLength H o) none).set index
      (some n) }

theorem nodeSet_eq (H : Heap) {o n : NodeId} (hne : o ≠ n) (index : ℕ) (labelId : UInt16) :
    nodeSet H o index labelId n = (match nodeGet H o index with
      | some v => nodeRelease (nodeRetain H n) v
      | none => some (nodeRetain H n)).map (Heap.fillSlot · o index labelId n) := by
  have hfill : ∀ H₁ : Heap, some ((nodeAppendNull (H₁.set n { H₁.mem n with labelId := labelId }) o
      (index + 1 - nodeLength (H₁.set n { H₁.mem n with labelId := labelId }) o)).set o
      { (nodeAppendNull (H₁.set n { H₁.mem n with labelId := labelId }) o
          (index + 1 - nodeLength (H₁.set n { H₁.mem n with labelId := labelId }) o)).mem o with
        entry := ((nodeAppendNull (H₁.set n { H₁.mem n with labelId := labelId }) o
          (index + 1 - nodeLength (H₁.set n { H₁.mem n with labelId := labelId }) o)).mem o).entry.set
            index (some n) }) = some (H₁.fillSlot o index labelId n) := by
    intro H₁
    rw [nodeAppendNull_eq, Heap.set_mem_self, Heap.set_set, nodeLength,
      Heap.set_mem_of_ne _ _ hne]
    rfl
  unfold nodeSet
  cases nodeGet H o index with
  | none => exact hfill _
  | some v =>
    cases hrun : nodeRelease (nodeRetain H n) v with
    | none => simp [hrun]
    | some H' =>
      simp only [hrun, Option.bind_eq_bind, Option.bind_some, Option.map_some]
      exact hfill H'

namespace Heap

variable {o n m : NodeId} {index : ℕ} {labelId : UInt16}

theorem fillSlot_mem_self (H : Heap) (o : NodeId) (index : ℕ) (labelId : UInt16) (n : NodeId) :
    (H.fillSlot o index labelId n).mem o = { H.mem o with
      entry := ((H.mem o).entry ++ List.replicate (index + 1 - nodeLength H o) none).set index
        (some n) } := by
  rw [fillSlot, set_mem_self]

theorem fillSlot_mem_child (H : Heap) (hne : o ≠ n) :
    (H.fillSlot o index labelId n).mem n = { H.mem n with labelId := labelId } := by
  rw [fillSlot, set_mem_of_ne _ _ hne.symm, set_mem_self]

theorem fillSlot_mem_of_ne (H : Heap) (hmo : m ≠ o) (hmn : m ≠ n) :
    (H.fillSlot o index labelId n).mem m = H.mem m := by
  rw [fillSlot, set_mem_of_ne _ _ hmo, set_mem_of_ne _ _ hmn]

theorem fillSlot_refc (H : Heap) (hne : o ≠ n) (m : NodeId) :
    (H.fillSlot o index labelId n).refc m = H.refc m := by
  by_cases hmo : m = o
  · subst hmo
    rw [refc, fillSlot_mem_self, refc]
  · by_cases hmn : m = n
    · subst hmn
      rw [refc, fillSlot_mem_child H hne, refc]
    · rw [refc, fillSlot_mem_of_ne H hmo hmn, refc]

theorem fillSlot_children_of_ne (H : Heap) (hne : o ≠ n) (hmo : m ≠ o) :
    (H.fillSlot o index labelId n).children m = H.children m := by
  by_cases hmn : m = n
  · subst hmn
    rw [children, fillSlot_mem_child H hne, children]
  · rw [children, fillSlot_mem_of_ne H hmo hmn, children]

end Heap

/-- The reference of an owner becomes the one of an empty slot. -/
theorem HeapOwned.fillSlot {o n : NodeId} {index : ℕ} {labelId : UInt16}
    (h : HeapOwned H live (n ::ₘ owners)) (ho : o ∈ live) (hne : o ≠ n)
    (hslot : nodeGet H o index = none) : HeapOwned (H.fillSlot o index labelId n) live owners where
  owned := by
    have hnull : ((H.mem o).entry ++ List.replicate (index + 1 - nodeLength H o) none)[index]? =
        some none := by
      by_cases hlt : index < (H.mem o).entry.length
      · rw [List.getElem?_append_left hlt]
        rw [nodeGet, List.getElem?_eq_getElem hlt] at hslot
        rw [List.getElem?_eq_getElem hlt]
        exact congrArg some hslot
      · rw [List.getElem?_append_right (Nat.le_of_not_lt hlt), List.getElem?_replicate, nodeLength,
          if_pos (by omega)]
    have hperm : ((H.fillSlot o index labelId n).children o).Perm (n :: H.children o) := by
      rw [Heap.children, Heap.fillSlot_mem_self]
      apply (perm_reduceOption_set n hnull).trans
      rw [List.reduceOption_append, List.reduceOption_replicate_none, List.append_nil,
        ← Heap.children]
    have hstore : Owned live (H.fillSlot o index labelId n).children H.refc owners :=
      h.owned.store ho hperm fun k hk => Heap.fillSlot_children_of_ne H hne hk
    exact hstore.congr (fun _ _ => rfl) fun m _ => Heap.fillSlot_refc H hne m
  nodup := h.nodup
  free := h.free
  bound := h.bound

/-- Filling an empty slot of `o` with `n`: the new reference is the slot's. -/
theorem nodeSet_spec (h : HeapOwned H live owners) {o n : NodeId} (ho : o ∈ live) (hn : n ∈ live)
    (hne : o ≠ n) {index : ℕ} (hslot : (H.mem o).entry[index]? = some none) (labelId : UInt16) :
    ∃ H', nodeSet H o index labelId n = some H' ∧ HeapOwned H' live owners ∧
      H'.mem o = { H.mem o with entry := (H.mem o).entry.set index (some n) } ∧
      H'.mem n = { H.mem n with refc := (H.mem n).refc + 1, labelId := labelId } ∧
      (∀ m, m ≠ o → m ≠ n → H'.mem m = H.mem m) ∧
      H'.freeList = H.freeList ∧ H'.next = H.next := by
  obtain ⟨hlt, -⟩ := List.getElem?_eq_some_iff.1 hslot
  have hget : nodeGet H o index = none := by simp [nodeGet, hslot]
  have ho₁ : (nodeRetain H n).mem o = H.mem o := H.set_mem_of_ne _ hne
  have hget₁ : nodeGet (nodeRetain H n) o index = none := by
    rw [nodeGet, ho₁]
    exact hget
  have hlength : index + 1 - nodeLength (nodeRetain H n) o = 0 := by
    rw [nodeLength, ho₁]
    omega
  refine ⟨_, by rw [nodeSet_eq H hne, hget, Option.map_some], (h.retain hn).fillSlot ho hne hget₁,
    ?_, ?_, ?_, rfl, rfl⟩
  · rw [Heap.fillSlot_mem_self, hlength, ho₁, List.replicate_zero, List.append_nil]
  · rw [Heap.fillSlot_mem_child _ hne]
    simp [nodeRetain]
  · intro m hmo hmn
    rw [Heap.fillSlot_mem_of_ne _ hmo hmn]
    exact H.set_mem_of_ne _ hmn

end Build

end Moz
