import Moz.Lib.Simulation
import Moz.Node.Ownership

/-!
# A pool above freed nodes

After `NodeManager_reset` the pool hands out nodes of new pages. `Heap.above` is a pool
whose nodes are numbered from `base` on; the numbers below are those of freed nodes, whose
memory holds anything. The operations do on it what they do on the pool that is numbered
from zero, and leave the freed nodes alone. A release has more fuel there; it never needs it.
-/

namespace Moz

open Simulation (rel_bind)

def Node.above (base : ℕ) (node : Node) : Node :=
  { node with entry := node.entry.map (Option.map (· + base)) }

def Heap.above (base : ℕ) (freed : NodeId → Node) (H : Heap) : Heap where
  mem n := if n < base then freed n else (H.mem (n - base)).above base
  freeList := H.freeList.map (· + base)
  next := H.next + base

/-- The memory below `base` holds something else. -/
def Heap.refill (base : ℕ) (freed : NodeId → Node) (H : Heap) : Heap :=
  { H with mem := fun n => if n < base then freed n else H.mem n }

/-- What is free or referenced has been handed out. -/
structure Heap.Bounded (H : Heap) : Prop where
  free : ∀ o ∈ H.freeList, o < H.next
  refc : ∀ n, 0 < (H.mem n).refc → n < H.next

/-- `H'` is the pool `H` above freed nodes. At least `low` nodes have been handed out. -/
structure Heap.Follows (base : ℕ) (freed : NodeId → Node) (low : ℕ) (H H' : Heap) : Prop where
  eq : H' = H.above base freed
  bounded : H.Bounded
  low : low ≤ H.next

section Above

variable {base low : ℕ} {freed freed' : NodeId → Node} {H H' H₁ : Heap} {o n : NodeId} {node : Node}

theorem above_mem (H : Heap) (n : NodeId) :
    (H.above base freed).mem (n + base) = (H.mem n).above base := by
  simp [Heap.above]

theorem Node.above_entry (node : Node) :
    (node.above base).entry = node.entry.map (Option.map (· + base)) := rfl

theorem Node.above_refc (node : Node) : (node.above base).refc = node.refc := rfl

theorem above_set (H : Heap) (o : NodeId) (node : Node) :
    (H.set o node).above base freed = (H.above base freed).set (o + base) (node.above base) := by
  have hmem : ((H.set o node).above base freed).mem =
      ((H.above base freed).set (o + base) (node.above base)).mem := by
    funext n
    simp only [Heap.above, Heap.set]
    grind
  exact congrArg (fun mem => (⟨mem, H.freeList.map (· + base), H.next + base⟩ : Heap)) hmem

theorem above_refill (H : Heap) :
    (H.above base freed).refill base freed' = H.above base freed' := by
  have hmem : ((H.above base freed).refill base freed').mem = (H.above base freed').mem := by
    funext n
    simp only [Heap.above, Heap.refill]
    split_ifs <;> rfl
  exact congrArg (fun mem => (⟨mem, H.freeList.map (· + base), H.next + base⟩ : Heap)) hmem

theorem bounded_empty : ({} : Heap).Bounded where
  free _ h := absurd h List.not_mem_nil
  refc _ h := absurd h (lt_irrefl _)

theorem Heap.Bounded.set (h : H.Bounded) (ho : o < H.next) (node : Node) : (H.set o node).Bounded where
  free := h.free
  refc n hn := by
    by_cases hno : n = o
    · rwa [hno]
    · rw [H.set_mem_of_ne node hno] at hn
      exact h.refc n hn

theorem Heap.Bounded.lower (h : H.Bounded) (hle : node.refc ≤ (H.mem o).refc) :
    (H.set o node).Bounded where
  free := h.free
  refc n hn := by
    by_cases hno : n = o
    · rw [hno, H.set_mem_self] at hn
      rw [hno]
      exact h.refc o (by omega)
    · rw [H.set_mem_of_ne node hno] at hn
      exact h.refc n hn

def Heap.referenced (H : Heap) : Finset NodeId :=
  (Finset.range H.next).filter fun n => 0 < (H.mem n).refc

theorem Heap.Bounded.mem_referenced (h : H.Bounded) : n ∈ H.referenced ↔ 0 < (H.mem n).refc := by
  rw [referenced, Finset.mem_filter, Finset.mem_range]
  exact ⟨fun hn => hn.2, fun hn => ⟨h.refc n hn, hn⟩⟩

theorem Heap.card_referenced_le (H : Heap) : H.referenced.card ≤ H.next := by
  have hcard := Finset.card_filter_le (Finset.range H.next) fun n => 0 < (H.mem n).refc
  rwa [Finset.card_range] at hcard

/-- No count has gone up, and no node was handed out. -/
structure Heap.Lowered (H H' : Heap) : Prop where
  bounded : H'.Bounded
  next : H'.next = H.next
  refc : ∀ n, (H'.mem n).refc ≤ (H.mem n).refc

theorem Heap.Bounded.lowered (h : H.Bounded) : H.Lowered H := ⟨h, rfl, fun _ => le_rfl⟩

theorem Heap.Lowered.trans (h : H.Lowered H₁) (h' : H₁.Lowered H') : H.Lowered H' :=
  ⟨h'.bounded, h'.next.trans h.next, fun n => (h'.refc n).trans (h.refc n)⟩

theorem Heap.Lowered.set (h : H.Bounded) (hle : node.refc ≤ (H.mem o).refc) :
    H.Lowered (H.set o node) where
  bounded := h.lower hle
  next := rfl
  refc n := by
    by_cases hno : n = o
    · rwa [hno, H.set_mem_self]
    · rw [H.set_mem_of_ne node hno]

theorem Heap.Lowered.nodeFree (h : H.Lowered H') (hbounded : H.Bounded) (hpos : 0 < (H.mem o).refc) :
    H.Lowered (nodeFree H' o) := by
  have ho : o < H'.next := by
    rw [h.next]
    exact hbounded.refc o hpos
  constructor
  · constructor
    · intro n hn
      rcases List.mem_cons.1 hn with rfl | hn
      · exact ho
      · exact h.bounded.free n hn
    · exact (h.bounded.set ho _).refc
  · exact h.next
  · intro n
    show ((H'.set o _).mem n).refc ≤ _
    by_cases hno : n = o
    · rw [hno, H'.set_mem_self]
      exact (show (-1 : ℤ) ≤ 0 by decide).trans hpos.le
    · rw [H'.set_mem_of_ne _ hno]
      exact h.refc n

theorem nodeSweepChildren_total {k : ℕ}
    (hrelease : ∀ (H : Heap) (o : NodeId), H.Bounded → H.referenced.card ≤ k → ∃ H',
      (∀ fuel, k < fuel → nodeReleaseFuel fuel H o = some H') ∧ H.Lowered H')
    (entry : List (Option NodeId)) : ∀ H : Heap, H.Bounded → H.referenced.card ≤ k → ∃ H',
      (∀ fuel, k < fuel → nodeSweepChildren (nodeReleaseFuel fuel) H entry = some H') ∧
        H.Lowered H' := by
  induction entry with
  | nil =>
    intro H h _
    exact ⟨H, fun _ _ => rfl, h.lowered⟩
  | cons c entry ih =>
    intro H h hcard
    cases c with
    | none => exact ih H h hcard
    | some c =>
      obtain ⟨H₁, hrun, hlowered⟩ := hrelease H c h hcard
      have hsub : H₁.referenced ⊆ H.referenced := by
        intro n hn
        rw [hlowered.bounded.mem_referenced] at hn
        exact h.mem_referenced.2 (hn.trans_le (hlowered.refc n))
      obtain ⟨H', hrest, hlowered'⟩ :=
        ih H₁ hlowered.bounded ((Finset.card_le_card hsub).trans hcard)
      refine ⟨H', fun fuel hfuel => ?_, hlowered.trans hlowered'⟩
      rw [nodeSweepChildren, List.foldlM_cons]
      dsimp only
      rw [hrun fuel hfuel]
      exact hrest fuel hfuel

theorem nodeUnref_lowered (h : H.Bounded) (o : NodeId) : H.Lowered (nodeUnref H o) := by
  apply Heap.Lowered.set h
  show (H.mem o).refc - 1 ≤ (H.mem o).refc
  omega

/-- The last reference to a node leaves fewer nodes with references. -/
theorem nodeUnref_referenced (h : H.Bounded) (hzero : ((nodeUnref H o).mem o).refc = 0) :
    0 < (H.mem o).refc ∧ (nodeUnref H o).referenced.card < H.referenced.card := by
  have hlowered := nodeUnref_lowered h o
  have hpos : 0 < (H.mem o).refc := by
    rw [nodeUnref, H.set_mem_self] at hzero
    dsimp only at hzero
    omega
  refine ⟨hpos, Finset.card_lt_card (Finset.ssubset_iff_of_subset ?_ |>.2 ⟨o, ?_, ?_⟩)⟩
  · intro n hn
    rw [hlowered.bounded.mem_referenced] at hn
    exact h.mem_referenced.2 (hn.trans_le (hlowered.refc n))
  · exact h.mem_referenced.2 hpos
  · rw [hlowered.bounded.mem_referenced, hzero]
    exact lt_irrefl 0

/-- A release ends once there is more fuel than referenced nodes; more changes nothing. -/
theorem nodeReleaseFuel_total (k : ℕ) : ∀ (H : Heap) (o : NodeId), H.Bounded →
    H.referenced.card ≤ k → ∃ H',
      (∀ fuel, k < fuel → nodeReleaseFuel fuel H o = some H') ∧ H.Lowered H' := by
  induction k with
  | zero =>
    intro H o h hcard
    have hzero : ¬ ((nodeUnref H o).mem o).refc = 0 := by
      intro hzero
      have := (nodeUnref_referenced h hzero).2
      omega
    refine ⟨nodeUnref H o, fun fuel hfuel => ?_, nodeUnref_lowered h o⟩
    obtain ⟨fuel, rfl⟩ := Nat.exists_eq_succ_of_ne_zero (Nat.pos_iff_ne_zero.1 hfuel)
    exact if_neg hzero
  | succ k ih =>
    intro H o h hcard
    by_cases hzero : ((nodeUnref H o).mem o).refc = 0
    · -- the children are released with one unit less, and one node less is referenced
      obtain ⟨hpos, hless⟩ := nodeUnref_referenced h hzero
      have hlowered := nodeUnref_lowered h o
      obtain ⟨H₁, hrun, hlowered₁⟩ := nodeSweepChildren_total ih ((nodeUnref H o).mem o).entry
        (nodeUnref H o) hlowered.bounded (by omega)
      refine ⟨nodeFree H₁ o, fun fuel hfuel => ?_, (hlowered.trans hlowered₁).nodeFree h hpos⟩
      obtain ⟨fuel, rfl⟩ := Nat.exists_eq_succ_of_ne_zero (by omega : fuel ≠ 0)
      simp only [nodeReleaseFuel]
      rw [if_pos hzero, hrun fuel (by omega)]
      rfl
    · refine ⟨nodeUnref H o, fun fuel hfuel => ?_, nodeUnref_lowered h o⟩
      obtain ⟨fuel, rfl⟩ := Nat.exists_eq_succ_of_ne_zero (by omega : fuel ≠ 0)
      exact if_neg hzero

theorem nodeRelease_total (h : H.Bounded) (o : NodeId) : ∃ H',
    (∀ fuel, H.next < fuel → nodeReleaseFuel fuel H o = some H') ∧ H.Lowered H' :=
  nodeReleaseFuel_total H.next H o h H.card_referenced_le

theorem Heap.Follows.of_above (h : H.Bounded) : Heap.Follows base freed H.next H (H.above base freed) :=
  ⟨rfl, h, le_rfl⟩

theorem Heap.Follows.weaken {low' : ℕ} (h : Heap.Follows base freed low H H') (hle : low' ≤ low) :
    Heap.Follows base freed low' H H' := ⟨h.eq, h.bounded, hle.trans h.low⟩

theorem Heap.Follows.mem (h : Heap.Follows base freed low H H') (n : NodeId) :
    H'.mem (n + base) = (H.mem n).above base := by
  rw [h.eq, above_mem]

theorem Heap.Follows.set (h : Heap.Follows base freed low H H') (ho : o < low) (node : Node) :
    Heap.Follows base freed low (H.set o node) (H'.set (o + base) (node.above base)) where
  eq := by rw [h.eq, above_set]
  bounded := h.bounded.set (ho.trans_le h.low) node
  low := h.low

theorem nodeRetain_follows (h : Heap.Follows base freed low H H') (ho : o < low) :
    Heap.Follows base freed low (nodeRetain H o) (nodeRetain H' (o + base)) := by
  rw [nodeRetain, nodeRetain, h.mem]
  exact h.set ho { H.mem o with refc := (H.mem o).refc + 1 }

theorem nodeUnref_above (H : Heap) (o : NodeId) :
    nodeUnref (H.above base freed) (o + base) = (nodeUnref H o).above base freed := by
  rw [nodeUnref, nodeUnref, above_mem, above_set]
  rfl

theorem nodeFree_above (H : Heap) (o : NodeId) :
    nodeFree (H.above base freed) (o + base) = (nodeFree H o).above base freed := by
  rw [nodeFree, above_mem]
  exact congrArg (fun H' : Heap => { H' with freeList := (o :: H.freeList).map (· + base) })
    (above_set H o { H.mem o with refc := -1 }).symm

/-- With the same fuel a release does the same above freed nodes. -/
theorem nodeReleaseFuel_above (fuel : ℕ) : ∀ (H : Heap) (o : NodeId),
    nodeReleaseFuel fuel (H.above base freed) (o + base) =
      (nodeReleaseFuel fuel H o).map (Heap.above base freed) := by
  induction fuel with
  | zero =>
    intro H o
    rfl
  | succ fuel ih =>
    intro H o
    have hsweep : ∀ (entry : List (Option NodeId)) (H : Heap),
        nodeSweepChildren (nodeReleaseFuel fuel) (H.above base freed)
            (entry.map (Option.map (· + base))) =
          (nodeSweepChildren (nodeReleaseFuel fuel) H entry).map (Heap.above base freed) := by
      intro entry
      induction entry with
      | nil =>
        intro H
        rfl
      | cons c entry ihe =>
        intro H
        unfold nodeSweepChildren at ihe ⊢
        rw [List.map_cons, List.foldlM_cons, List.foldlM_cons]
        cases c with
        | none => exact ihe H
        | some c =>
          dsimp only [Option.map_some]
          rw [ih]
          cases nodeReleaseFuel fuel H c with
          | none => rfl
          | some H₁ => exact ihe H₁
    simp only [nodeReleaseFuel]
    rw [nodeUnref_above, above_mem, Node.above_refc, Node.above_entry, hsweep]
    by_cases hzero : ((nodeUnref H o).mem o).refc = 0
    · rw [if_pos hzero, if_pos hzero]
      cases nodeSweepChildren (nodeReleaseFuel fuel) (nodeUnref H o) ((nodeUnref H o).mem o).entry with
      | none => rfl
      | some H₁ => exact congrArg some (nodeFree_above H₁ o)
    · rw [if_neg hzero, if_neg hzero]
      rfl

theorem nodeRelease_follows (h : Heap.Follows base freed low H H') (o : NodeId) :
    Option.Rel (Heap.Follows base freed low) (nodeRelease H o) (nodeRelease H' (o + base)) := by
  obtain ⟨H₁, hrun, hlowered⟩ := nodeRelease_total h.bounded o
  have hrun' : nodeRelease H' (o + base) = some (H₁.above base freed) := by
    rw [h.eq, nodeRelease, nodeReleaseFuel_above, hrun]
    · rfl
    · exact Nat.lt_succ_of_le (Nat.le_add_right H.next base)
  rw [nodeRelease, hrun (H.next + 1) (Nat.lt_succ_self _), hrun']
  exact .some ⟨rfl, hlowered.bounded, h.low.trans hlowered.next.ge⟩

theorem nodeAlloc_above (H : Heap) : nodeAlloc (H.above base freed) =
    ((nodeAlloc H).1.above base freed, (nodeAlloc H).2 + base) := by
  obtain ⟨mem, freeList, next⟩ := H
  cases freeList with
  | nil =>
    simp only [nodeAlloc, Heap.above, List.map_nil]
    rw [Nat.add_right_comm]
  | cons o freeList => rfl

theorem nodeAlloc_bounded (h : H.Bounded) :
    (nodeAlloc H).1.Bounded ∧ (nodeAlloc H).2 < (nodeAlloc H).1.next ∧
      H.next ≤ (nodeAlloc H).1.next := by
  obtain ⟨mem, freeList, next⟩ := H
  cases freeList with
  | nil =>
    refine ⟨⟨fun _ ho => absurd ho List.not_mem_nil, fun n hn => ?_⟩, Nat.lt_succ_self next,
      Nat.le_succ next⟩
    exact (h.refc n hn).trans (Nat.lt_succ_self next)
  | cons o freeList =>
    exact ⟨⟨fun n hn => h.free n (List.mem_cons_of_mem _ hn), h.refc⟩, h.free o List.mem_cons_self,
      le_rfl⟩

theorem nodeNew_follows (h : Heap.Follows base freed low H H') (tag : Option (List UInt8)) (str : ℕ)
    (len : UInt32) (elmSize : ℕ) (value : Option (List UInt8)) :
    ∃ H₁ H₁' o, nodeNew H tag str len elmSize value = (H₁, o) ∧
      nodeNew H' tag str len elmSize value = (H₁', o + base) ∧ o < H₁.next ∧
        Heap.Follows base freed low H₁ H₁' := by
  obtain ⟨hbounded, hlt, hle⟩ := nodeAlloc_bounded h.bounded
  have halloc := @nodeAlloc_above base freed H
  rcases hpair : nodeAlloc H with ⟨H₀, o⟩
  rw [hpair] at hbounded hlt hle halloc
  have hinit : (nodeInit (H₀.mem o).labelId tag str len elmSize value).above base =
      nodeInit (H₀.mem o).labelId tag str len elmSize value := by
    simp [nodeInit, Node.above]
  refine ⟨H₀.set o (nodeInit (H₀.mem o).labelId tag str len elmSize value), _, o, ?_, ?_, hlt, rfl,
    hbounded.set hlt _, h.low.trans hle⟩
  · rw [nodeNew, hpair]
  · rw [h.eq, nodeNew, halloc, above_set, hinit]
    dsimp only
    rw [above_mem]
    rfl

theorem nodeAppendNull_follows (ho : o < low) (k : ℕ) : ∀ {H H' : Heap},
    Heap.Follows base freed low H H' →
      Heap.Follows base freed low (nodeAppendNull H o k) (nodeAppendNull H' (o + base) k) := by
  induction k with
  | zero => exact fun h => h
  | succ k ih =>
    intro H H' h
    apply ih
    have happend := h.set ho { H.mem o with entry := (H.mem o).entry ++ [none] }
    rw [Node.above, List.map_append] at happend
    rw [nodeAppend, nodeAppend, h.mem]
    exact happend

theorem nodeLength_follows (h : Heap.Follows base freed low H H') (o : NodeId) :
    nodeLength H' (o + base) = nodeLength H o := by
  rw [nodeLength, h.mem, Node.above_entry, List.length_map, nodeLength]

theorem setEntry_follows (h : Heap.Follows base freed low H H') (ho : o < low) (index : ℕ)
    (n : NodeId) : Heap.Follows base freed low
      (H.set o { H.mem o with entry := (H.mem o).entry.set index (some n) })
      (H'.set (o + base)
        { H'.mem (o + base) with
          entry := (H'.mem (o + base)).entry.set index (some (n + base)) }) := by
  have hset := h.set ho { H.mem o with entry := (H.mem o).entry.set index (some n) }
  rw [Node.above, List.map_set] at hset
  rw [h.mem]
  exact hset

theorem nodeSet_follows (h : Heap.Follows base freed low H H') (ho : o < low) (hn : n < low)
    (index : ℕ) (labelId : UInt16) : Option.Rel (Heap.Follows base freed low)
      (nodeSet H o index labelId n) (nodeSet H' (o + base) index labelId (n + base)) := by
  have hget : nodeGet H' (o + base) index = (nodeGet H o index).map (· + base) := by
    rw [nodeGet, nodeGet, h.mem]
    show ((List.map (Option.map (· + base)) (H.mem o).entry)[index]?).getD none = _
    rw [List.getElem?_map]
    cases (H.mem o).entry[index]? <;> rfl
  unfold nodeSet
  rw [hget]
  -- what follows the release of the child that is replaced
  have hstore : ∀ {H H' : Heap}, Heap.Follows base freed low H H' →
      Option.Rel (Heap.Follows base freed low)
        (some (let H₁ := H.set n { H.mem n with labelId := labelId }
          let H₂ := nodeAppendNull H₁ o (index + 1 - nodeLength H₁ o)
          H₂.set o { H₂.mem o with entry := (H₂.mem o).entry.set index (some n) }))
        (some (let H₁ := H'.set (n + base) { H'.mem (n + base) with labelId := labelId }
          let H₂ := nodeAppendNull H₁ (o + base) (index + 1 - nodeLength H₁ (o + base))
          H₂.set (o + base)
            { H₂.mem (o + base) with
              entry := (H₂.mem (o + base)).entry.set index (some (n + base)) })) := by
    intro H H' h
    have hlabel := h.set hn { H.mem n with labelId := labelId }
    have hsame : { H'.mem (n + base) with labelId := labelId } =
        Node.above base { H.mem n with labelId := labelId } := by
      rw [h.mem]
      rfl
    dsimp only
    rw [hsame, nodeLength_follows hlabel]
    exact .some (setEntry_follows (nodeAppendNull_follows ho _ hlabel) ho index n)
  have hretain := nodeRetain_follows h hn
  cases nodeGet H o index with
  | none => exact hstore hretain
  | some v => exact rel_bind (nodeRelease_follows hretain v) fun _ _ h => hstore h

end Above

end Moz
