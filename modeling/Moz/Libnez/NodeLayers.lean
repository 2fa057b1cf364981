import Moz.Lib.Layered
import Moz.Libnez.NodeOwners

/-!
# Trees in the node pool

The operations of `ast.c` give children to new nodes only. A pool in which every
node in use has a reference, and no node lies below itself, stays one; the nodes
that are in use before and after an operation keep their children.
-/

namespace Moz

open RefCount

/-- Every node in use but `top` is referred to, and none lies below itself. -/
structure Heap.TidyBut (H : Heap) (top : Option NodeId) : Prop where
  referenced : ∀ n ∈ H.live, some n ≠ top → 0 < H.refc n
  layered : Layered H.live H.children

/-- Every node in use is referred to, and none lies below itself. -/
def Heap.Tidy (H : Heap) : Prop := H.TidyBut none

/-- What an operation leaves alone: the children of the nodes that stay. -/
structure Heap.Evolves (H H' : Heap) : Prop where
  children : ∀ n ∈ H.live, n ∈ H'.live → H'.children n = H.children n
  tidy : H.Tidy → H'.Tidy

/-- Nodes are built on those there are; the new ones have references, but for `top`. -/
structure Heap.Stacks (H H' : Heap) (top : Option NodeId) : Prop where
  live : H.live ⊆ H'.live
  children : ∀ n ∈ H.live, H'.children n = H.children n
  refc : ∀ n ∈ H.live, H.refc n ≤ H'.refc n
  fresh : ∀ n ∈ H'.live, n ∉ H.live → some n ≠ top → 0 < H'.refc n
  layered : Layered H.live H.children → Layered H'.live H'.children

section Stacks

variable {H H₁ H' : Heap} {owners : Multiset NodeId} {top : Option NodeId} {o n : NodeId}

theorem Heap.Evolves.refl (H : Heap) : H.Evolves H where
  children _ _ _ := rfl
  tidy h := h

theorem Heap.Evolves.trans (h : H.Evolves H₁) (h' : H₁.Evolves H')
    (hmid : ∀ n ∈ H.live, n ∈ H'.live → n ∈ H₁.live) : H.Evolves H' where
  children n hn hn' := (h'.children n (hmid n hn hn') hn').trans (h.children n hn (hmid n hn hn'))
  tidy ht := h'.tidy (h.tidy ht)

theorem Heap.Stacks.refl (H : Heap) : H.Stacks H none where
  live := subset_rfl
  children _ _ := rfl
  refc _ _ := le_rfl
  fresh _ hn hn' := absurd hn hn'
  layered h := h

theorem Heap.Stacks.trans (h : H.Stacks H₁ none) (h' : H₁.Stacks H' top) : H.Stacks H' top where
  live := h.live.trans h'.live
  children n hn := (h'.children n (h.live hn)).trans (h.children n hn)
  refc n hn := (h.refc n hn).trans (h'.refc n (h.live hn))
  fresh n hn hn' htop := by
    by_cases hmid : n ∈ H₁.live
    · exact (h.fresh n hmid hn' nofun).trans_le (h'.refc n hmid)
    · exact h'.fresh n hn hmid htop
  layered hl := h'.layered (h.layered hl)

theorem Heap.Stacks.tidyBut (h : H.Stacks H' top) (ht : H.Tidy) : H'.TidyBut top where
  referenced n hn htop := by
    by_cases hold : n ∈ H.live
    · exact (ht.referenced n hold nofun).trans_le (h.refc n hold)
    · exact h.fresh n hn hold htop
  layered := h.layered ht.layered

theorem Heap.Stacks.evolves (h : H.Stacks H' none) : H.Evolves H' where
  children n hn _ := h.children n hn
  tidy := h.tidyBut

theorem nodeRetain_children (H : Heap) (o n : NodeId) :
    (nodeRetain H o).children n = H.children n := by
  by_cases hn : n = o
  · subst hn
    simp [Heap.children, nodeRetain]
  · rw [Heap.children, nodeRetain, H.set_mem_of_ne _ hn, ← Heap.children]

theorem le_nodeRetain_refc (H : Heap) (o n : NodeId) : H.refc n ≤ (nodeRetain H o).refc n := by
  by_cases hn : n = o
  · rw [hn, nodeRetain_refc_self]
    omega
  · rw [nodeRetain_refc_of_ne H hn]

theorem Heap.Stacks.retain (h : H.Stacks H' (some o)) (h0 : 0 ≤ H'.refc o) :
    H.Stacks (nodeRetain H' o) none where
  live := h.live
  children n hn := (nodeRetain_children H' o n).trans (h.children n hn)
  refc n hn := (h.refc n hn).trans (le_nodeRetain_refc H' o n)
  fresh n hn hn' _ := by
    by_cases hno : n = o
    · rw [hno, nodeRetain_refc_self]
      omega
    · rw [nodeRetain_refc_of_ne H' hno]
      exact h.fresh n hn hn' fun heq => hno (Option.some.inj heq)
  layered hl := (h.layered hl).mono fun m hm => ⟨hm, nodeRetain_children H' o m⟩

theorem Heap.TidyBut.retain (h : H.TidyBut (some o)) (h0 : 0 ≤ H.refc o) : (nodeRetain H o).Tidy where
  referenced n hn _ := by
    by_cases hno : n = o
    · rw [hno, nodeRetain_refc_self]
      omega
    · rw [nodeRetain_refc_of_ne H hno]
      exact h.referenced n hn fun heq => hno (Option.some.inj heq)
  layered := h.layered.mono fun m hm => ⟨hm, nodeRetain_children H o m⟩

theorem Heap.Stacks.retained (H : Heap) (o : NodeId) : H.Stacks (nodeRetain H o) none where
  live := subset_rfl
  children n _ := nodeRetain_children H o n
  refc n _ := le_nodeRetain_refc H o n
  fresh _ hn hn' := absurd hn hn'
  layered hl := hl.mono fun m hm => ⟨hm, nodeRetain_children H o m⟩

/-- Filling the slots of a node changes no other node's children and takes no reference away. -/
theorem constructLeftLoop_others {logs : List AstLog} {tail newnode : ℕ}
    (hlogs : logRefs logs ≤ owners) (fuel : ℕ) : ∀ {H H' : Heap} {cur n : ℕ},
    constructLeftLoop logs tail newnode fuel H cur n = some H' → H.Balanced owners →
    newnode ∈ H.live → H.refc newnode = 0 → (∀ k, n ≤ k → nodeGet H newnode k = none) →
    H'.live = H.live ∧ (∀ m, m ≠ newnode → H'.children m = H.children m) ∧
      ∀ m, H.refc m ≤ H'.refc m := by
  induction fuel with
  | zero =>
    intro H H' cur n hrun
    cases hrun
  | succ fuel ih =>
    intro H H' cur n hrun h hlive h0 hslots
    rw [constructLeftLoop] at hrun
    split_ifs at hrun with htail
    · cases hrun
      exact ⟨rfl, fun _ _ => rfl, fun _ => le_rfl⟩
    · cases hcur : logs[cur]? with
      | none =>
        rw [hcur] at hrun
        exact ih hrun h hlive h0 hslots
      | some log =>
        rw [hcur] at hrun
        cases log with
        | tag | pop | replace | push | leftFold | new | capture => exact ih hrun h hlive h0 hslots
        | link labelId child shift =>
          cases child with
          | none => exact ih hrun h hlive h0 fun k hk => hslots k (by omega)
          | some child =>
            have hmem : child ∈ owners := by
              apply Multiset.mem_of_le hlogs
              rw [logRefs, Multiset.mem_coe, List.mem_filterMap]
              exact ⟨_, List.mem_of_getElem? hcur, rfl⟩
            have hne : newnode ≠ child := by
              rintro rfl
              have := h.owned.pos_of_owner hmem
              omega
            obtain ⟨H₁, hset, h₁, -, hlive₁, hrefc, hslots₁⟩ :=
              @nodeSet_empty _ _ _ _ h hlive hmem hne _ labelId hslots
            have hfill : H₁ = (nodeRetain H child).fillSlot newnode n labelId child := by
              rw [nodeSet_eq H hne, hslots n le_rfl, Option.map_some] at hset
              exact (Option.some.inj hset).symm
            simp only [hset, Option.bind_eq_bind, Option.bind_some] at hrun
            obtain ⟨hlive', hchildren, hle⟩ := ih hrun h₁ hlive₁ (hrefc.trans h0) hslots₁
            refine ⟨?_, fun m hm => ?_, fun m => ?_⟩
            · rw [hlive', hfill]
              rfl
            · rw [hchildren m hm, hfill, Heap.fillSlot_children_of_ne _ hne hm,
                nodeRetain_children]
            · apply (le_nodeRetain_refc H child m).trans
              rw [← Heap.fillSlot_refc (nodeRetain H child) hne m, ← hfill]
              exact hle m

end Stacks

section Create

variable {H H' : Heap} {ast ast' : AstMachine} {owners ext : Multiset NodeId} {o : NodeId}

theorem constructLeft_stacks {L : CreateNode} {tail : ℕ}
    (hrun : constructLeft ast L tail = some (ast', o))
    (h : ast.heap.Balanced (logRefs ast.logs + ext)) : ast.heap.Stacks ast'.heap (some o) := by
  obtain ⟨-, hbalanced, -, hfresh, hlive, h0⟩ := constructLeft_builds hrun h
  obtain ⟨H₁, o₁, hnew, hfresh₁, howned₁, hother₁, ho₁, hcovered₁⟩ := nodeNew_spec h L.tag L.spos
    (UInt32.ofInt ((L.epos : ℤ) - L.spos)) L.objSize L.value
  have hlive₁ := howned₁.live_eq (hcovered₁ ast.heap.covered_live)
  -- the nodes that are there already keep their children and lose no reference
  have hafter : o₁ = o ∧ ast'.heap.live = H₁.live ∧
      (∀ m, m ≠ o₁ → ast'.heap.children m = H₁.children m) ∧ ∀ m, H₁.refc m ≤ ast'.heap.refc m := by
    simp only [constructLeft, hnew] at hrun
    split_ifs at hrun
    · cases hrun
      exact ⟨rfl, rfl, fun _ _ => rfl, fun _ => le_rfl⟩
    · simp only [Option.bind_eq_bind, Option.bind_eq_some_iff] at hrun
      obtain ⟨H', hloop, hrun⟩ := hrun
      cases hrun
      have hslots : ∀ k, 0 ≤ k → nodeGet H₁ o k = none := by
        intro k _
        rw [nodeGet, ho₁, nodeInit, List.getElem?_replicate]
        split_ifs <;> rfl
      have hzero : H₁.refc o = 0 := by
        rw [Heap.refc, ho₁]
        rfl
      refine ⟨rfl, constructLeftLoop_others (Multiset.le_add_right _ ext) _ hloop
        (howned₁.balanced (hcovered₁ ast.heap.covered_live)) ?_ hzero hslots⟩
      rw [← hlive₁]
      exact Finset.mem_insert_self _ _
  obtain ⟨rfl, hlive', hchildren, hrefc⟩ := hafter
  have hold : ∀ m ∈ ast.heap.live, m ≠ o₁ := fun m hm => ne_of_mem_of_not_mem hm hfresh₁
  have hsame : ∀ m ∈ ast.heap.live, ast'.heap.children m = ast.heap.children m := by
    intro m hm
    rw [hchildren m (hold m hm), Heap.children, hother₁ m (hold m hm), ← Heap.children]
  have hcases : ∀ m ∈ ast'.heap.live, m ≠ o₁ → m ∈ ast.heap.live := by
    intro m hm hmo
    rw [hlive', ← hlive₁] at hm
    exact Finset.mem_of_mem_insert_of_ne hm hmo
  constructor
  · rw [hlive', ← hlive₁]
    exact Finset.subset_insert _ _
  · exact hsame
  · intro m hm
    apply le_trans _ (hrefc m)
    rw [H₁.refc_def, hother₁ m (hold m hm), ← Heap.refc]
  · intro m hm hm' hmo
    exact absurd (hcases m hm fun heq => hmo (congrArg some heq)) hm'
  · intro hl
    have hnot : ∀ m ∈ ast'.heap.live, o₁ ∉ ast'.heap.children m := fun m hm =>
      hbalanced.owned.not_child_of_refc_eq_zero hlive h0 hm
    apply hl.edit (hnot o₁ hlive)
    intro m hm hmo
    have hm' := hcases m hm hmo
    refine ⟨hm', hsame m hm', ?_⟩
    rw [← hsame m hm']
    exact hnot m hm

/-- `ast_create_node` has come to the end of the log, after what `r` says, and builds its node. -/
def EndsOpen (ext : Multiset NodeId) (r : AstMachine → AstMachine → Prop) (pushed : Option ℕ)
    (ast ast' : AstMachine) (o : NodeId) : Prop :=
  ∃ ast₁ L tail, r ast ast₁ ∧ ast₁.heap.Balanced (logRefs ast₁.logs + ext) ∧
    constructLeft ast₁ L tail = some (ast', o) ∧ ∀ k, pushed = some k → ast'.logs[k]? = some .push

/-- A relation that holds whenever a group or a fold is closed holds of `ast_create_node` up to the
node that it returns. -/
theorem astCreateNodeLoop_rel {r : AstMachine → AstMachine → Prop} (hrefl : ∀ ast, r ast ast)
    (htrans : ∀ {ast₁ ast₂ ast₃}, r ast₁ ast₂ → r ast₂ ast₃ → r ast₁ ast₃)
    (hclose : ∀ {ast ast₁ : AstMachine} {L : CreateNode} {tail k shift : ℕ} {o : NodeId}
      {log : AstLog} {labelId : UInt16}, ast.heap.Balanced (logRefs ast.logs + ext) →
      ast.logs[k]? = some log → log.nodeRef = none → constructLeft ast L tail = some (ast₁, o) →
      r ast (AstMachine.setLog { ast₁ with heap := nodeRetain ast₁.heap o } k
        (.link labelId (some o) shift))) (fuel : ℕ) :
    ∀ {ast ast' : AstMachine} {pushed : Option ℕ} {cur : ℕ} {L : CreateNode} {o : NodeId},
    astCreateNodeLoop fuel ast pushed cur L = some (ast', o) →
    ast.heap.Balanced (logRefs ast.logs + ext) →
    (∀ k, pushed = some k → k < cur ∧ ast.logs[k]? = some .push) →
    r ast ast' ∨ EndsOpen ext r pushed ast ast' o := by
  induction fuel with
  | zero =>
    intro ast ast' pushed cur L o hrun
    cases hrun
  | succ fuel ih =>
    intro ast ast' pushed cur L o hrun h hpushed
    have hlater : ∀ {k' : ℕ}, cur < k' → ∀ k, pushed = some k →
        k < k' ∧ ast.logs[k]? = some .push :=
      fun hlt k hk => ⟨(hpushed k hk).1.trans hlt, (hpushed k hk).2⟩
    -- what comes after a step that is in the relation
    have hthen : ∀ {ast₁ : AstMachine}, r ast ast₁ →
        r ast₁ ast' ∨ EndsOpen ext r pushed ast₁ ast' o →
        r ast ast' ∨ EndsOpen ext r pushed ast ast' o := by
      rintro ast₁ hstep (hrest | ⟨ast₂, L', tail, hrest, h₂⟩)
      · exact .inl (htrans hstep hrest)
      · exact .inr ⟨ast₂, L', tail, htrans hstep hrest, h₂⟩
    rw [astCreateNodeLoop] at hrun
    cases hcur : ast.logs[cur]? with
    | none =>
      rw [hcur] at hrun
      refine .inr ⟨ast, L, _, hrefl ast, h, hrun, fun k hk => ?_⟩
      obtain ⟨hsame, -⟩ := constructLeft_builds hrun h
      rw [hsame]
      exact (hpushed k hk).2
    | some log =>
      rw [hcur] at hrun
      cases log with
      | new | capture | tag | replace => exact ih hrun h (hlater (Nat.lt_succ_self cur))
      | link labelId node shift => exact ih hrun h (hlater (by omega))
      | leftFold pos labelId =>
        simp only [Option.bind_eq_bind, Option.bind_eq_some_iff] at hrun
        obtain ⟨⟨ast₁, tmp⟩, hconstruct, hrun⟩ := hrun
        have hstep := @hclose _ _ _ _ _ 0 _ _ labelId h hcur rfl hconstruct
        generalize hast₂ : AstMachine.setLog { ast₁ with heap := nodeRetain ast₁.heap tmp } cur
          (.link labelId (some tmp) 0) = ast₂ at hrun
        rw [hast₂] at hstep
        obtain ⟨h₂, -, hlogs, -⟩ := constructLeft_link hconstruct h hcur rfl hast₂.symm
        apply hthen hstep
        apply ih hrun h₂
        intro k hk
        obtain ⟨hlt, hpush⟩ := hpushed k hk
        rw [hlogs, List.getElem?_set_ne (by omega)]
        exact ⟨by omega, hpush⟩
      | pop labelId =>
        simp only [Option.bind_eq_bind, Option.bind_eq_some_iff] at hrun
        obtain ⟨k, hk, ⟨ast₁, tmp⟩, hconstruct, hrun⟩ := hrun
        obtain ⟨rfl, rfl⟩ := Prod.mk.inj (Option.some.inj hrun)
        exact .inl (hclose h (hpushed k hk).2 rfl hconstruct)
      | push =>
        simp only [Option.bind_eq_bind, Option.bind_eq_some_iff] at hrun
        obtain ⟨⟨ast₁, tmp⟩, hgroup, hrun⟩ := hrun
        have hself : ∀ k, some cur = some k → k < cur + 1 ∧ ast.logs[k]? = some .push := by
          rintro k ⟨⟩
          exact ⟨Nat.lt_succ_self cur, hcur⟩
        obtain ⟨hcreates, -⟩ := astCreateNodeLoop_creates fuel hgroup h hself
        cases hlink : ast₁.logs[cur]? with
        | none =>
          rw [hlink] at hrun
          cases hrun
        | some log =>
          rw [hlink] at hrun
          cases log with
          | tag | pop | replace | push | leftFold | new | capture => cases hrun
          | link labelId node shift =>
            rcases ih hgroup h hself with hstep | ⟨_, _, _, -, -, -, hopen⟩
            · apply hthen hstep
              apply ih hrun hcreates.balanced
              intro k hk
              obtain ⟨hlt, hpush⟩ := hpushed k hk
              refine ⟨by omega, ?_⟩
              rw [hcreates.before k (by omega) fun heq => hlt.ne' (Option.some.inj heq)]
              exact hpush
            · -- the group was not closed, so its entry is no link
              rw [hopen cur rfl] at hlink
              cases hlink

/-- `ast_create_node` builds on the pool, and only the node it returns has no reference. -/
theorem astCreateNode_stacks {cur : ℕ} (hrun : astCreateNode ast cur none = some (ast', o))
    (h : ast.heap.Balanced (logRefs ast.logs + ext)) : ast.heap.Stacks ast'.heap (some o) := by
  have hrel := @astCreateNodeLoop_rel ext (fun ast ast' => ast.heap.Stacks ast'.heap none)
    (fun ast => .refl ast.heap) (fun h h' => h.trans h') ?_ _ _ _ _ _ _ _ hrun h (by rintro k ⟨⟩)
  · rcases hrel with hstacks | ⟨ast₁, L, tail, hstacks, h₁, hconstruct, -⟩
    · exact { hstacks with fresh := fun n hn hn' _ => hstacks.fresh n hn hn' nofun }
    · exact hstacks.trans (constructLeft_stacks hconstruct h₁)
  · intro ast ast₁ L tail k shift tmp log labelId hbalanced _ _ hconstruct
    obtain ⟨-, -, -, -, -, h0⟩ := constructLeft_builds hconstruct hbalanced
    exact (constructLeft_stacks hconstruct hbalanced).retain h0.ge

end Create

section Releases

variable {H H' : Heap} {ast ast₁ ast' : AstMachine} {owners ext : Multiset NodeId}
  {top : Option NodeId} {o : NodeId}

/-- Nodes are released, and the others keep their children. -/
structure Heap.Sheds (H H' : Heap) : Prop where
  live : H'.live ⊆ H.live
  children : ∀ n ∈ H'.live, H'.children n = H.children n
  drains : H.Drains H'

theorem HeapOwned.sheds {live' : Finset NodeId} (h : HeapOwned H' live' owners)
    (hswept : Swept H H' H.live live') (hdrains : H.Drains H') : H.Sheds H' := by
  have hlive := h.live_eq (hswept.covered H.covered_live)
  rw [hlive] at hswept
  exact ⟨hswept.subset, fun n hn => congrArg List.reduceOption (hswept.entry hn), hdrains⟩

theorem Heap.Sheds.tidyBut (h : H.Sheds H') (ht : H.TidyBut top) (hbalanced : H'.Balanced owners) :
    H'.TidyBut top where
  referenced n hn htop := by
    have hpos := ht.referenced n (h.live hn) htop
    have hnonneg := hbalanced.nonneg hn
    by_contra hnot
    have := h.drains n (by omega)
    omega
  layered := ht.layered.mono fun m hm => ⟨h.live hm, h.children m hm⟩

theorem Heap.Sheds.evolves (h : H.Sheds H') (hbalanced : H'.Balanced owners) : H.Evolves H' where
  children n _ hn := h.children n hn
  tidy ht := h.tidyBut ht hbalanced

theorem nodeRelease_sheds (h : H.Balanced (o ::ₘ owners)) (hrun : nodeRelease H o = some H') :
    H.Sheds H' := by
  obtain ⟨H'', live', hrun', hok, hswept⟩ := nodeRelease_spec h
  rw [hrun] at hrun'
  cases hrun'
  exact hok.sheds hswept (nodeRelease_drains hrun)

theorem astRollbackTx_sheds {tx : ℕ} (h : ast.heap.Balanced (logRefs ast.logs + ext))
    (hrun : astRollbackTx ast tx = some ast') : ast.heap.Sheds ast'.heap := by
  obtain ⟨H', live', hback, hok, hswept⟩ := astRollbackTx_spec h (astRollbackTx_logs hrun).1
  rw [hrun] at hback
  cases hback
  obtain ⟨_, -, hrun⟩ := Option.bind_eq_some_iff.1 hrun
  obtain ⟨H'', hentries, hsame⟩ := Option.bind_eq_some_iff.1 hrun
  cases hsame
  exact hok.sheds hswept (releaseEach_drains astRollbackEntry_of_none astRollbackEntry_of_some _ hentries)

/-- A node is created, the log is rolled back, and the node gets its reference. -/
theorem create_rollback_evolves {cur tx : ℕ} (h : ast.heap.Balanced (logRefs ast.logs + ext))
    (hcreate : astCreateNode ast cur none = some (ast₁, o))
    (hback : astRollbackTx ast₁ tx = some ast') : ast.heap.Evolves (nodeRetain ast'.heap o) := by
  obtain ⟨hcreates, -, h0⟩ := astCreateNode_creates hcreate h
  obtain ⟨hlive, -, hmoves⟩ := create_rollback_moves h hcreate hback
  have hstacks := astCreateNode_stacks hcreate h
  have hsheds := astRollbackTx_sheds hcreates.balanced hback
  have hbalanced := (astRollbackTx_moves hcreates.balanced hback).2.2.balanced
  constructor
  · intro n hn hn'
    rw [nodeRetain_children, hsheds.children n hn', hstacks.children n hn]
  · intro ht
    exact (hsheds.tidyBut (hstacks.tidyBut ht) hbalanced).retain (hbalanced.nonneg hlive)

theorem astCommitTx_evolves {labelId : UInt16} {tx : ℕ}
    (h : ast.heap.Balanced (logRefs ast.logs + ext))
    (hrun : astCommitTx ast labelId tx = some ast') : ast.heap.Evolves ast'.heap := by
  simp only [astCommitTx, Option.bind_eq_bind, Option.bind_eq_some_iff] at hrun
  obtain ⟨⟨ast₁, o⟩, hcreate, ast₂, hback, hrun⟩ := hrun
  cases hrun
  exact create_rollback_evolves h hcreate hback

end Releases

end Moz
