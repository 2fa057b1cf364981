import Moz.Libnez.LogRuns

/-!
# The last linked node

`last_linked` is not a reference: the node it points to lives on the entries, table
slots and callers that lead to it. What a call leaves of these decides whether
`TMemo` finds the node alive.
-/

namespace Moz

open RefCount

def astGetLastLinkedNode (ast : AstMachine) : Option NodeId := ast.lastLinked

/-- `ast_get_last_linked_node` returns `NULL` or a node with references. -/
def Holders.LastLinkedAlive (S : Holders) : Prop :=
  ∀ n, astGetLastLinkedNode S.ast = some n → n ∈ S.ast.heap.live ∧ 0 < S.ast.heap.refc n

/-- The reference of the slot that a memo entry is stored in. -/
def Memo.slotRefs (m : Memo) (pos : UInt64) (memoId : UInt32) : Multiset NodeId :=
  match m.ary[m.index pos memoId]? with
  | some e => e.refs
  | none => 0

namespace NodeOp

/-- The calls that set `last_linked`. -/
def links : NodeOp → Prop
  | .logLink _ _ | .commit _ _ => True
  | _ => False

/-- The references from outside the pool that a call leaves in place or takes. -/
def kept (S : Holders) : NodeOp → Multiset NodeId
  | .retain n => n ::ₘ S.owners
  | .release n => logRefs S.ast.logs + (S.memo.refs + S.callers.erase n)
  | .rollback tx => logRefs (S.ast.logs.take tx) + (S.memo.refs + S.callers)
  | .memoSet pos memoId result _ _ => logRefs S.ast.logs +
      (result.toList + (S.memo.refs - S.memo.slotRefs pos memoId) + S.callers)
  | .memoFail pos memoId => logRefs S.ast.logs +
      (S.memo.refs - S.memo.slotRefs pos memoId + S.callers)
  | .memoDispose => logRefs S.ast.logs + S.callers
  | _ => S.owners

/-- The last linked node is replaced, or something that stays leads to it. -/
def spares (S : Holders) (op : NodeOp) : Prop :=
  op.links ∨ ∀ n, astGetLastLinkedNode S.ast = some n →
    ∃ m ∈ op.kept S, Leads S.ast.heap.live S.ast.heap.children m n

end NodeOp

section LastLinked

variable {S S' : Holders} {op : NodeOp} {m : Memo} {H H' : Heap} {e : MemoEntry}

/-- The references of a table in which one entry is replaced. -/
theorem Memo.refs_set_eq {index : ℕ} (h : m.ary[index]? = some e) (e' : MemoEntry) :
    Memo.refs { m with ary := m.ary.set index e' } = e'.refs + (m.refs - e.refs) := by
  have hle : e.refs ≤ m.refs := by
    have hempty : MemoEntry.refs {} = 0 := rfl
    have hset := Memo.refs_set h {}
    rw [hempty, zero_add] at hset
    rw [← hset]
    exact Multiset.le_add_right _ _
  rw [← add_tsub_assoc_of_le hle, ← Memo.refs_set h e', add_tsub_cancel_left]

theorem Memo.slotRefs_of_get {pos : UInt64} {memoId : UInt32}
    (h : m.ary[m.index pos memoId]? = some e) : m.slotRefs pos memoId = e.refs := by
  rw [Memo.slotRefs, h]

theorem memoRelease_live {owners : Multiset NodeId} (h : H.Balanced (e.refs + owners))
    (hrun : memoRelease H e = some H') : H'.live ⊆ H.live :=
  (memoRelease_sheds h hrun).live

/-- A slot that is overwritten when the reference of the new entry is there already. -/
theorem memoReplace_live {index : ℕ} {e' : MemoEntry} {ext : Multiset NodeId}
    (hget : m.ary[index]? = some e) (h : H.Balanced (e'.refs + (m.refs + ext)))
    (hrun : memoRelease H e = some H') : H'.live ⊆ H.live := by
  rw [← add_assoc, ← Memo.refs_set hget e', add_assoc] at h
  exact memoRelease_live h hrun

/-- A call that does not link keeps the pointer, gives back what it does not keep, and makes no
nodes. -/
theorem NodeOp.run_kept (h : S.ast.heap.Balanced S.owners) (hvalid : op.valid S)
    (hparsing : op.parsing) (hlinks : ¬op.links) (hrun : op.run S = some S') :
    S'.ast.lastLinked = S.ast.lastLinked ∧ S'.owners = op.kept S ∧
      S'.ast.heap.live ⊆ S.ast.heap.live := by
  have hmemo : ∀ (refs callers logs : Multiset NodeId),
      logs + (refs + callers) = refs + (logs + callers) := by
    intro refs callers logs
    abel
  -- an entry of the log without a reference
  have hlog : ∀ log : AstLog, log.nodeRef = none →
      logRefs (S.ast.logs ++ [log]) + (S.memo.refs + S.callers) = S.owners := by
    intro log hnone
    have hzero : logRefs [log] = 0 := by simp [logRefs, hnone]
    rw [logRefs_append, hzero, add_zero, Holders.owners]
  cases op with
  | new | set | append | getParsedNode => cases hparsing
  | logLink | commit => exact absurd trivial hlinks
  | logNew | logCapture | logTag | logReplace | logSwap | logPush | logPop =>
    cases hrun
    exact ⟨rfl, hlog _ rfl, subset_rfl⟩
  | retain n =>
    cases hrun
    refine ⟨rfl, ?_, subset_rfl⟩
    show logRefs S.ast.logs + (S.memo.refs + n ::ₘ S.callers) = n ::ₘ S.owners
    rw [Multiset.add_cons, Multiset.add_cons, Holders.owners]
  | release n =>
    simp only [NodeOp.run, Option.bind_eq_bind, Option.bind_eq_some_iff] at hrun
    obtain ⟨heap, hrelease, hrun⟩ := hrun
    cases hrun
    have howners : S.owners =
        n ::ₘ (logRefs S.ast.logs + (S.memo.refs + S.callers.erase n)) := by
      rw [Holders.owners, ← Multiset.add_cons, ← Multiset.add_cons, Multiset.cons_erase hvalid]
    rw [howners] at h
    exact ⟨rfl, rfl, (nodeRelease_sheds h hrelease).live⟩
  | rollback tx =>
    simp only [NodeOp.run, Option.bind_eq_bind, Option.bind_eq_some_iff] at hrun
    obtain ⟨ast, hback, hrun⟩ := hrun
    cases hrun
    obtain ⟨htx, hlogs⟩ := astRollbackTx_logs hback
    obtain ⟨H', live', hback', -⟩ := astRollbackTx_spec h htx
    rw [hback] at hback'
    refine ⟨?_, ?_, (astRollbackTx_sheds h hback).live⟩
    · rw [Option.some.inj hback']
    · show logRefs ast.logs + _ = _
      rw [hlogs]
      rfl
  | memoSet pos memoId result consumed state =>
    simp only [NodeOp.run, Option.bind_eq_bind, Option.bind_eq_some_iff] at hrun
    obtain ⟨⟨memo, heap⟩, hset, hrun⟩ := hrun
    cases hrun
    rw [Holders.owners, hmemo] at h
    cases result with
    | none =>
      simp only [Moz.memoSet, Option.bind_eq_bind, Option.bind_eq_some_iff] at hset
      obtain ⟨e, hget, H₁, hrelease, hset⟩ := hset
      cases hset
      have h' : S.ast.heap.Balanced (MemoEntry.refs ⟨S.memo.hash pos memoId, .null, consumed,
          state⟩ + (S.memo.refs + (logRefs S.ast.logs + S.callers))) := by
        rwa [MemoEntry.refs_of_no_result (by rintro n ⟨⟩), zero_add]
      refine ⟨rfl, ?_, memoReplace_live hget h' hrelease⟩
      show logRefs S.ast.logs + (Memo.refs _ + S.callers) = logRefs S.ast.logs + _
      rw [Memo.refs_set_eq hget, MemoEntry.refs_of_no_result (by rintro n ⟨⟩),
        Memo.slotRefs_of_get hget]
      rfl
    | some n =>
      simp only [Moz.memoSet, Option.bind_eq_bind, Option.bind_eq_some_iff] at hset
      obtain ⟨e, hget, H₁, hrelease, hset⟩ := hset
      cases hset
      have h' : (nodeRetain S.ast.heap n).Balanced (MemoEntry.refs ⟨S.memo.hash pos memoId,
          .result n, consumed, state⟩ + (S.memo.refs + (logRefs S.ast.logs + S.callers))) := by
        rw [MemoEntry.refs_of_result rfl, Multiset.singleton_add]
        exact h.retain (hvalid n rfl)
      have hlive : heap.live ⊆ (nodeRetain S.ast.heap n).live := memoReplace_live hget h' hrelease
      refine ⟨rfl, ?_, hlive⟩
      show logRefs S.ast.logs + (Memo.refs _ + S.callers) = logRefs S.ast.logs + _
      rw [Memo.refs_set_eq hget, MemoEntry.refs_of_result rfl, Memo.slotRefs_of_get hget]
      rfl
  | memoFail pos memoId =>
    simp only [NodeOp.run, Option.bind_eq_bind, Option.bind_eq_some_iff] at hrun
    obtain ⟨⟨memo, heap⟩, hfail, hrun⟩ := hrun
    cases hrun
    rw [Holders.owners, hmemo] at h
    simp only [Moz.memoFail, Option.bind_eq_bind, Option.bind_eq_some_iff] at hfail
    obtain ⟨e, hget, H₁, hrelease, hfail⟩ := hfail
    cases hfail
    have h' : S.ast.heap.Balanced (MemoEntry.refs
        ⟨S.memo.hash pos memoId, .failed, e.consumed, e.state⟩ +
          (S.memo.refs + (logRefs S.ast.logs + S.callers))) := by
      rwa [MemoEntry.refs_of_no_result (by rintro n ⟨⟩), zero_add]
    refine ⟨rfl, ?_, memoReplace_live hget h' hrelease⟩
    show logRefs S.ast.logs + (Memo.refs _ + S.callers) = logRefs S.ast.logs + _
    rw [Memo.refs_set_eq hget, MemoEntry.refs_of_no_result (by rintro n ⟨⟩), zero_add,
      Memo.slotRefs_of_get hget]
  | memoDispose =>
    simp only [NodeOp.run, Option.bind_eq_bind, Option.bind_eq_some_iff] at hrun
    obtain ⟨heap, hdispose, hrun⟩ := hrun
    cases hrun
    rw [Holders.owners, hmemo] at h
    obtain ⟨H'', live', hrun', hok, hswept⟩ :=
      releaseEach_spec memoRelease_of_none memoRelease_of_some S.memo.ary h
    have hsheds := hok.sheds hswept
      (releaseEach_drains memoRelease_of_none memoRelease_of_some _ hrun')
    rw [Moz.memoDispose, hrun'] at hdispose
    cases hdispose
    refine ⟨rfl, ?_, hsheds.live⟩
    have hempty : Memo.refs {} = 0 := rfl
    show logRefs S.ast.logs + (Memo.refs {} + S.callers) = logRefs S.ast.logs + S.callers
    rw [hempty, zero_add]

/-- A call that links leaves an entry with the node it points to. -/
theorem NodeOp.run_links (hlinks : op.links) (hrun : op.run S = some S') :
    ∀ n, astGetLastLinkedNode S'.ast = some n → n ∈ S'.owners := by
  intro n hn
  apply Multiset.mem_add.2 (.inl _)
  cases op with
  | logLink labelId node =>
    cases hrun
    cases node with
    | none => cases hn
    | some k =>
      cases hn
      show n ∈ logRefs (S.ast.logs ++ [.link labelId (some n) 0])
      rw [logRefs_link]
      exact Multiset.mem_cons_self _ _
  | commit labelId tx =>
    simp only [NodeOp.run, Option.bind_eq_bind, Option.bind_eq_some_iff] at hrun
    obtain ⟨ast, hcommit, hrun⟩ := hrun
    cases hrun
    simp only [astCommitTx, Option.bind_eq_bind, Option.bind_eq_some_iff] at hcommit
    obtain ⟨⟨ast₁, o⟩, -, ast₂, -, hcommit⟩ := hcommit
    cases hcommit
    cases hn
    show o ∈ logRefs (ast₂.logs ++ [.link labelId (some o) 0])
    rw [logRefs_link]
    exact Multiset.mem_cons_self _ _
  | new | set | append | retain | release | logNew | logCapture | logTag | logReplace | logSwap
  | logPush | logPop | rollback | getParsedNode | memoSet | memoFail | memoDispose => cases hlinks

/-- A call leaves the last linked node alive exactly when it spares it. -/
theorem NodeOp.alive_iff (h : S.ast.heap.Balanced S.owners) (ht : S.ast.heap.Tidy)
    (hvalid : op.valid S) (hparsing : op.parsing) (hrun : op.run S = some S') :
    S'.LastLinkedAlive ↔ op.spares S := by
  obtain ⟨hcareful, hclient⟩ := hparsing.careful S
  have h' := (NodeOp.run_moves h hvalid hcareful hrun).balanced
  have hevolves := NodeOp.run_evolves h hvalid hcareful hclient hrun
  have ht' := hevolves.tidy ht
  by_cases hlinks : op.links
  · refine iff_of_true (fun n hn => ?_) (.inl hlinks)
    have howner := NodeOp.run_links hlinks hrun n hn
    exact ⟨h'.mem_of_owner howner, h'.owned.pos_of_owner howner⟩
  · obtain ⟨hlast, howners, hlive⟩ := NodeOp.run_kept h hvalid hparsing hlinks hrun
    have hsame : ∀ k ∈ S'.ast.heap.live, k ∈ S.ast.heap.live ∧
        S.ast.heap.children k = S'.ast.heap.children k :=
      fun k hk => ⟨hlive hk, (hevolves.children k (hlive hk) hk).symm⟩
    constructor
    · intro halive
      refine .inr fun n hn => ?_
      obtain ⟨m, hm, hleads⟩ := h'.owned.exists_leads ht'.layered
        (fun y hy => ht'.referenced y hy nofun) (halive n (hlast.trans hn)).1
      rw [howners] at hm
      exact ⟨m, hm, hleads.mono hsame⟩
    · rintro (hlinks' | hspares) n hn
      · exact absurd hlinks' hlinks
      · obtain ⟨m, hm, hleads⟩ := hspares n (hlast.symm.trans hn)
        rw [← howners] at hm
        have hn' := h'.owned.live_of_leads (h'.mem_of_owner hm)
          (fun k hk _ => (hsame k hk).2.symm) hleads
        exact ⟨hn', ht'.referenced n hn' nofun⟩

def NodeOp.sparing (S : Holders) (op : NodeOp) : Prop := op.parsing ∧ op.spares S

/-- As long as every call spares it the last linked node is alive, and the first call that does
not frees it. -/
theorem last_linked_alive {w n : UInt32}
    (hrun : Holders.Run NodeOp.sparing (Holders.init w n) S) :
    S.LastLinkedAlive ∧ ∀ (op : NodeOp) (S' : Holders), op.parsing → op.valid S →
      op.run S = some S' → (S'.LastLinkedAlive ↔ op.spares S) := by
  have hreached : ∀ {T}, Holders.Run NodeOp.sparing (Holders.init w n) T → Holders.Reached w n T :=
    fun hrun => (hrun.mono fun _ _ hsparing => hsparing.1).reached
  refine ⟨?_, ?_⟩
  · induction hrun with
    | start => exact fun _ hn => by cases hn
    | step hbefore hvalid hsparing hstep =>
      have h := hreached hbefore
      exact (NodeOp.alive_iff h.balanced h.tidy hvalid hsparing.1 hstep).2 hsparing.2
  · intro op S' hparsing hvalid hstep
    have h := hreached hrun
    exact NodeOp.alive_iff h.balanced h.tidy hvalid hparsing hstep

theorem committed_run : ∃ S, Holders.Run NodeOp.sparing (Holders.init 1 2) S ∧
    astGetLastLinkedNode S.ast = some 0 ∧ S.ast.logs = [.link 1 (some 0) 0] ∧
      ∃ S', (NodeOp.rollback 0).run S = some S' ∧ astGetLastLinkedNode S'.ast = some 0 ∧
        S'.ast.heap.freeList = [0] := by
  have hnew := @Holders.Run.step NodeOp.sparing (Holders.init 1 2) _ _ (.logNew 0) .start trivial
    ⟨trivial, .inr fun _ hn => by cases hn⟩ rfl
  exact ⟨_, @Holders.Run.step NodeOp.sparing _ _ _ (.commit 1 0) hnew trivial
    ⟨trivial, .inl trivial⟩ rfl, rfl, rfl, _, rfl, rfl, rfl⟩

/-- The node of the entry is alive, until the entry is rolled back. -/
theorem last_linked_alive_committed : ∃ S S', astGetLastLinkedNode S.ast = some 0 ∧
    S.LastLinkedAlive ∧ (NodeOp.rollback 0).run S = some S' ∧
      (S'.LastLinkedAlive ↔ (NodeOp.rollback 0).spares S) := by
  obtain ⟨S, hrun, hlast, -, S', hback, -⟩ := committed_run
  obtain ⟨halive, hiff⟩ := last_linked_alive hrun
  exact ⟨S, S', hlast, halive, hback, hiff (.rollback 0) S' trivial trivial hback⟩

/-- After the rollback `last_linked` points to a free node. -/
theorem last_linked_freed : ∃ S, Holders.Run (fun _ op => op.parsing) (Holders.init 1 2) S ∧
    astGetLastLinkedNode S.ast = some 0 ∧ 0 ∈ S.ast.heap.freeList ∧ ¬S.LastLinkedAlive := by
  obtain ⟨S, hrun, -, -, S', hback, hlast', hfree⟩ := committed_run
  have hmem : 0 ∈ S'.ast.heap.freeList := by simp [hfree]
  refine ⟨S', @Holders.Run.step _ _ S S' (.rollback 0) (hrun.mono fun _ _ h => h.1) trivial trivial
    hback, hlast', hmem, fun halive => ?_⟩
  exact (Heap.mem_live.1 (halive 0 hlast').1).2 hmem

end LastLinked

end Moz
