import Moz.Libnez.NodeLayers

/-!
# Transactions of a whole parse

`ast_save_tx` and a later `ast_rollback_tx` enclose anything that a parse does to
the log, commits and rollbacks included. The rollback brings back the log, and of
the nodes exactly those stay that were there, or that others have kept.
-/

namespace Moz

open RefCount

/-- The calls of a parse and of the owners of trees. `Node_new`, `Node_set` and `Node_append` are
called by these only. -/
def NodeOp.client : NodeOp → Prop
  | .new _ _ _ _ _ | .set _ _ _ _ | .append _ _ => False
  | .retain _ | .release _ | .logNew _ | .logCapture _ | .logTag _ | .logReplace _ | .logSwap _ _
  | .logPush | .logPop _ | .logLink _ _ | .commit _ _ | .rollback _ | .getParsedNode
  | .memoSet _ _ _ _ _ | .memoFail _ _ | .memoDispose => True

def NodeOp.parsing : NodeOp → Prop
  | .new _ _ _ _ _ | .set _ _ _ _ | .append _ _ | .getParsedNode => False
  | .retain _ | .release _ | .logNew _ | .logCapture _ | .logTag _ | .logReplace _ | .logSwap _ _
  | .logPush | .logPop _ | .logLink _ _ | .commit _ _ | .rollback _ | .memoSet _ _ _ _ _
  | .memoFail _ _ | .memoDispose => True

section Evolve

variable {H H' : Heap} {ast ast' : AstMachine} {m m' : Memo} {e e' : MemoEntry}
  {owners ext : Multiset NodeId} {S S' S₀ : Holders} {op : NodeOp}

theorem Heap.Sheds.refl (H : Heap) : H.Sheds H where
  live := subset_rfl
  children _ _ := rfl
  drains _ h := h

theorem memoRelease_sheds (h : H.Balanced (e.refs + owners)) (hrun : memoRelease H e = some H') :
    H.Sheds H' := by
  unfold MemoEntry.refs at h
  cases he : e.nodeRef with
  | none =>
    rw [memoRelease_of_none H e he] at hrun
    cases hrun
    exact .refl H
  | some n =>
    rw [memoRelease_of_some H e n he] at hrun
    rw [he] at h
    have hbalanced : H.Balanced (n ::ₘ owners) := by simpa using h
    exact nodeRelease_sheds hbalanced hrun

/-- An entry of the memo table is replaced by one whose reference is there already. -/
theorem memoReplace_evolves {index : ℕ} (hget : m.ary[index]? = some e)
    (h : H.Balanced (e'.refs + (m.refs + ext))) (hrun : memoRelease H e = some H') :
    H.Evolves H' := by
  have hbalanced := (memoRelease_moves hget h hrun).balanced
  rw [← add_assoc, ← Memo.refs_set hget e', add_assoc] at h
  exact (memoRelease_sheds h hrun).evolves hbalanced

theorem memoSet_evolves {pos : UInt64} {memoId consumed state : UInt32} {result : Option NodeId}
    (h : H.Balanced (m.refs + ext)) (hresult : ∀ n, result = some n → n ∈ H.live)
    (hrun : memoSet m H pos memoId result consumed state = some (m', H')) : H.Evolves H' := by
  have hbalanced := (memoSet_moves h hresult hrun).balanced
  cases result with
  | none =>
    simp only [memoSet, Option.bind_eq_bind, Option.bind_eq_some_iff] at hrun
    obtain ⟨e, hget, H₁, hrelease, hrun⟩ := hrun
    cases hrun
    have h' : H.Balanced (MemoEntry.refs ⟨m.hash pos memoId, .null, consumed, state⟩ +
        (m.refs + ext)) := by
      rwa [MemoEntry.refs_of_no_result (by rintro n ⟨⟩), zero_add]
    exact memoReplace_evolves hget h' hrelease
  | some n =>
    simp only [memoSet, Option.bind_eq_bind, Option.bind_eq_some_iff] at hrun
    obtain ⟨e, hget, H₁, hrelease, hrun⟩ := hrun
    cases hrun
    have h' : (nodeRetain H n).Balanced
        (MemoEntry.refs ⟨m.hash pos memoId, .result n, consumed, state⟩ + (m.refs + ext)) := by
      rw [MemoEntry.refs_of_result rfl, Multiset.singleton_add]
      exact h.retain (hresult n rfl)
    exact (Heap.Stacks.retained H n).evolves.trans (memoReplace_evolves hget h' hrelease)
      fun k hk _ => hk

theorem memoFail_evolves {pos : UInt64} {memoId : UInt32} (h : H.Balanced (m.refs + ext))
    (hrun : memoFail m H pos memoId = some (m', H')) : H.Evolves H' := by
  simp only [memoFail, Option.bind_eq_bind, Option.bind_eq_some_iff] at hrun
  obtain ⟨e, hget, H₁, hrelease, hrun⟩ := hrun
  cases hrun
  have h' : H.Balanced (MemoEntry.refs { e with hash := m.hash pos memoId, result := .failed } +
      (m.refs + ext)) := by
    rwa [MemoEntry.refs_of_no_result (by rintro n ⟨⟩), zero_add]
  exact memoReplace_evolves hget h' hrelease

theorem memoDispose_evolves (h : H.Balanced (m.refs + ext)) (hrun : memoDispose m H = some H') :
    H.Evolves H' := by
  obtain ⟨H'', live', hrun', hok, hswept⟩ :=
    releaseEach_spec memoRelease_of_none memoRelease_of_some m.ary h
  have hsheds := hok.sheds hswept (releaseEach_drains memoRelease_of_none memoRelease_of_some _ hrun')
  rw [memoDispose, hrun'] at hrun
  cases hrun
  exact hsheds.evolves (hok.balanced (hswept.covered H.covered_live))

theorem astGetParsedNode_evolves {parsed : Option NodeId}
    (h : ast.heap.Balanced (logRefs ast.logs + ext)) (hparsed : ast.parsed = none)
    (hrun : astGetParsedNode ast = some (ast', parsed)) : ast.heap.Evolves ast'.heap := by
  rw [astGetParsedNode, hparsed] at hrun
  simp only at hrun
  split_ifs at hrun with hnil
  · cases hrun
    exact .refl ast.heap
  · simp only [Option.bind_eq_bind, Option.bind_eq_some_iff] at hrun
    obtain ⟨cur, -, ⟨ast₁, o⟩, hcreate, ast₂, hback, hrun⟩ := hrun
    cases hrun
    exact create_rollback_evolves h hcreate hback

theorem NodeOp.run_evolves (h : S.ast.heap.Balanced S.owners) (hvalid : op.valid S)
    (hcareful : op.careful S) (hclient : op.client) (hrun : op.run S = some S') :
    S.ast.heap.Evolves S'.ast.heap := by
  have hmemo : S.owners = S.memo.refs + (logRefs S.ast.logs + S.callers) := add_left_comm _ _ _
  cases op with
  | new | set | append => cases hclient
  | logNew | logCapture | logTag | logReplace | logSwap | logPush | logPop =>
    cases hrun
    exact .refl S.ast.heap
  | retain n =>
    cases hrun
    exact (Heap.Stacks.retained S.ast.heap n).evolves
  | release n =>
    have hbalanced := (NodeOp.run_moves h hvalid hcareful hrun).balanced
    simp only [NodeOp.run, Option.bind_eq_bind, Option.bind_eq_some_iff] at hrun
    obtain ⟨heap, hrelease, hrun⟩ := hrun
    cases hrun
    have howners : S.owners =
        n ::ₘ (logRefs S.ast.logs + (S.memo.refs + S.callers.erase n)) := by
      rw [Holders.owners, ← Multiset.add_cons, ← Multiset.add_cons, Multiset.cons_erase hvalid]
    rw [howners] at h
    exact (nodeRelease_sheds h hrelease).evolves hbalanced
  | logLink labelId node =>
    cases hrun
    cases node with
    | none => exact .refl S.ast.heap
    | some n => exact (Heap.Stacks.retained S.ast.heap n).evolves
  | commit labelId tx =>
    simp only [NodeOp.run, Option.bind_eq_bind, Option.bind_eq_some_iff] at hrun
    obtain ⟨ast, hcommit, hrun⟩ := hrun
    cases hrun
    exact astCommitTx_evolves h hcommit
  | rollback tx =>
    have hbalanced := (NodeOp.run_moves h hvalid hcareful hrun).balanced
    simp only [NodeOp.run, Option.bind_eq_bind, Option.bind_eq_some_iff] at hrun
    obtain ⟨ast, hback, hrun⟩ := hrun
    cases hrun
    exact (astRollbackTx_sheds h hback).evolves hbalanced
  | getParsedNode =>
    simp only [NodeOp.run, Option.bind_eq_bind, Option.bind_eq_some_iff] at hrun
    obtain ⟨⟨ast, parsed⟩, hparsed, hrun⟩ := hrun
    cases hrun
    exact astGetParsedNode_evolves h hcareful hparsed
  | memoSet pos memoId result consumed state =>
    simp only [NodeOp.run, Option.bind_eq_bind, Option.bind_eq_some_iff] at hrun
    obtain ⟨⟨memo, heap⟩, hset, hrun⟩ := hrun
    cases hrun
    rw [hmemo] at h
    exact memoSet_evolves h hvalid hset
  | memoFail pos memoId =>
    simp only [NodeOp.run, Option.bind_eq_bind, Option.bind_eq_some_iff] at hrun
    obtain ⟨⟨memo, heap⟩, hfail, hrun⟩ := hrun
    cases hrun
    rw [hmemo] at h
    exact memoFail_evolves h hfail
  | memoDispose =>
    simp only [NodeOp.run, Option.bind_eq_bind, Option.bind_eq_some_iff] at hrun
    obtain ⟨heap, hdispose, hrun⟩ := hrun
    cases hrun
    rw [hmemo] at h
    exact memoDispose_evolves h hdispose

theorem Holders.init_tidy (w n : UInt32) : (Holders.init w n).ast.heap.Tidy where
  referenced m hm _ := absurd (Heap.mem_live.1 hm).1 (Nat.not_lt_zero m)
  layered := .empty _

/-- A state that a program can come to which calls `ast_get_parsed_node` only once. -/
def Holders.Reached (w n : UInt32) (S : Holders) : Prop :=
  Holders.Run (fun S op => op.careful S ∧ op.client) (Holders.init w n) S

theorem Holders.Reached.balanced {w n : UInt32} (h : Holders.Reached w n S) :
    S.ast.heap.Balanced S.owners :=
  (h.mono fun _ _ hmeets => hmeets.1).balanced (Holders.init_balanced w n)

theorem Holders.Reached.tidy {w n : UInt32} (h : Holders.Reached w n S) : S.ast.heap.Tidy := by
  induction h with
  | start => exact Holders.init_tidy w n
  | step h hvalid hmeets hrun ih =>
    have hbalanced := Holders.Reached.balanced h
    exact (NodeOp.run_evolves hbalanced hvalid hmeets.1 hmeets.2 hrun).tidy ih

theorem NodeOp.parsing.careful (h : op.parsing) (S : Holders) : op.careful S ∧ op.client := by
  cases op with
  | new | set | append | getParsedNode => cases h
  | _ => exact ⟨trivial, trivial⟩

theorem Holders.Run.reached {w n : UInt32}
    (h : Holders.Run (fun _ op => op.parsing) (Holders.init w n) S) : Holders.Reached w n S :=
  h.mono fun S _ hparsing => hparsing.careful S

end Evolve

/-- The calls of a transaction that was saved at `tx` when the callers had the references `callers`:
it does not go back behind `tx`, and others give back only what they have taken since. -/
def NodeOp.during (tx : ℕ) (callers : Multiset NodeId) (S : Holders) : NodeOp → Prop
  | .logNew _ | .logCapture _ | .logTag _ | .logReplace _ | .logSwap _ _ | .logPush | .logPop _
  | .logLink _ _ | .retain _ => True
  | .commit _ tx' | .rollback tx' => tx ≤ tx'
  | .release n => n ∈ S.callers - callers
  | .new _ _ _ _ _ | .set _ _ _ _ | .append _ _ | .getParsedNode | .memoSet _ _ _ _ _
  | .memoFail _ _ | .memoDispose => False

/-- Since the save in `S₀` the log has been changed behind its end only, and the nodes that were
in use are as they were. -/
structure Transaction (S₀ S : Holders) : Prop where
  balanced : S.ast.heap.Balanced S.owners
  tidy : S.ast.heap.Tidy
  logs : S.ast.logs.take S₀.ast.logs.length = S₀.ast.logs
  memo : S.memo = S₀.memo
  callers : S₀.callers ≤ S.callers
  live : S₀.ast.heap.live ⊆ S.ast.heap.live
  children : ∀ n ∈ S₀.ast.heap.live, S.ast.heap.children n = S₀.ast.heap.children n

section Transactions

variable {S S' S₀ : Holders} {op : NodeOp}

theorem logRefs_take_le (logs : List AstLog) (tx : ℕ) : logRefs (logs.take tx) ≤ logRefs logs := by
  conv_rhs => rw [← List.take_append_drop tx logs, logRefs_append]
  exact Multiset.le_add_right _ _

/-- The log, the memo table and the callers after a call of a transaction. -/
theorem NodeOp.during_keeps (htx : S.ast.logs.take S₀.ast.logs.length = S₀.ast.logs)
    (hcallers : S₀.callers ≤ S.callers)
    (hduring : op.during S₀.ast.logs.length S₀.callers S) (hrun : op.run S = some S') :
    S'.ast.logs.take S₀.ast.logs.length = S₀.ast.logs ∧ S'.memo = S.memo ∧
      S₀.callers ≤ S'.callers := by
  have hlength : S₀.ast.logs.length ≤ S.ast.logs.length := by
    rw [← htx, List.length_take]
    exact Nat.min_le_right _ _
  -- entries are added behind `logs`, which has kept the saved ones
  have happend : ∀ (logs : List AstLog) (tx : ℕ), S₀.ast.logs.length ≤ tx →
      ((S.ast.logs.take tx ++ logs).take S₀.ast.logs.length) = S₀.ast.logs := by
    intro logs tx hle
    rw [List.take_append_of_le_length (by rw [List.length_take]; omega), List.take_take,
      Nat.min_eq_left hle, htx]
  have hpush : ∀ log, ((S.ast.logs ++ [log]).take S₀.ast.logs.length) = S₀.ast.logs := by
    intro log
    rw [List.take_append_of_le_length hlength, htx]
  cases op with
  | new | set | append | getParsedNode | memoSet | memoFail | memoDispose => cases hduring
  | logNew | logCapture | logTag | logReplace | logSwap | logPush | logPop | logLink =>
    cases hrun
    exact ⟨hpush _, rfl, hcallers⟩
  | retain n =>
    cases hrun
    exact ⟨htx, rfl, hcallers.trans (Multiset.le_cons_self _ n)⟩
  | release n =>
    simp only [NodeOp.run, Option.bind_eq_bind, Option.bind_eq_some_iff] at hrun
    obtain ⟨heap, -, hrun⟩ := hrun
    cases hrun
    refine ⟨htx, rfl, ?_⟩
    have hmem : n ∈ S.callers - S₀.callers := hduring
    rw [Multiset.le_iff_count]
    intro k
    have hle := Multiset.le_iff_count.1 hcallers k
    by_cases hkn : k = n
    · have hpos := Multiset.count_pos.2 hmem
      rw [Multiset.count_sub] at hpos
      rw [hkn, Multiset.count_erase_self]
      omega
    · rwa [Multiset.count_erase_of_ne hkn]
  | commit labelId tx =>
    simp only [NodeOp.run, Option.bind_eq_bind, Option.bind_eq_some_iff] at hrun
    obtain ⟨ast, hcommit, hrun⟩ := hrun
    cases hrun
    obtain ⟨-, n, hlogs⟩ := astCommitTx_logs hcommit
    show ast.logs.take _ = _ ∧ _
    rw [hlogs]
    exact ⟨happend _ tx hduring, rfl, hcallers⟩
  | rollback tx =>
    simp only [NodeOp.run, Option.bind_eq_bind, Option.bind_eq_some_iff] at hrun
    obtain ⟨ast, hback, hrun⟩ := hrun
    cases hrun
    have hlogs : ast.logs = S.ast.logs.take tx ++ [] := by
      rw [(astRollbackTx_logs hback).2, List.append_nil]
    show ast.logs.take _ = _ ∧ _
    rw [hlogs]
    exact ⟨happend _ tx hduring, rfl, hcallers⟩

namespace Transaction

theorem start (h : S₀.ast.heap.Balanced S₀.owners) (ht : S₀.ast.heap.Tidy) : Transaction S₀ S₀ where
  balanced := h
  tidy := ht
  logs := List.take_length
  memo := rfl
  callers := le_rfl
  live := subset_rfl
  children _ _ := rfl

theorem owners_le (hlogs : S.ast.logs.take S₀.ast.logs.length = S₀.ast.logs)
    (hmemo : S.memo = S₀.memo) (hcallers : S₀.callers ≤ S.callers) : S₀.owners ≤ S.owners := by
  unfold Holders.owners
  rw [hmemo]
  apply add_le_add
  · rw [← hlogs]
    exact logRefs_take_le _ _
  · exact add_le_add le_rfl hcallers

theorem live_of_evolves (h : Transaction S₀ S) (ht : S₀.ast.heap.Tidy)
    (h₀ : S₀.ast.heap.Balanced S₀.owners) (howners : S₀.owners ≤ S'.owners)
    (hbalanced : S'.ast.heap.Balanced S'.owners) (hevolves : S.ast.heap.Evolves S'.ast.heap) :
    S₀.ast.heap.live ⊆ S'.ast.heap.live := by
  intro n hn
  obtain ⟨m, hm, hleads⟩ :=
    h₀.owned.exists_leads ht.layered (fun y hy => ht.referenced y hy nofun) hn
  apply hbalanced.owned.live_of_leads (hbalanced.mem_of_owner (Multiset.mem_of_le howners hm)) _ hleads
  intro k hk' hk
  rw [hevolves.children k (h.live hk) hk', h.children k hk]

theorem step (h : Transaction S₀ S) (h₀ : S₀.ast.heap.Balanced S₀.owners)
    (ht : S₀.ast.heap.Tidy) (hvalid : op.valid S)
    (hduring : op.during S₀.ast.logs.length S₀.callers S) (hrun : op.run S = some S') :
    Transaction S₀ S' := by
  have hallowed : op.careful S ∧ op.client := by
    cases op with
    | new | set | append | getParsedNode | memoSet | memoFail | memoDispose => cases hduring
    | _ => exact ⟨trivial, trivial⟩
  have hbalanced := (NodeOp.run_moves h.balanced hvalid hallowed.1 hrun).balanced
  have hevolves := NodeOp.run_evolves h.balanced hvalid hallowed.1 hallowed.2 hrun
  obtain ⟨hlogs, hmemo, hcallers⟩ := NodeOp.during_keeps h.logs h.callers hduring hrun
  have hlive := h.live_of_evolves ht h₀ (owners_le hlogs (hmemo.trans h.memo) hcallers) hbalanced
    hevolves
  refine ⟨hbalanced, hevolves.tidy h.tidy, hlogs, hmemo.trans h.memo, hcallers, hlive, ?_⟩
  intro n hn
  rw [hevolves.children n (h.live hn) (hlive hn), h.children n hn]

theorem run (h₀ : S₀.ast.heap.Balanced S₀.owners) (ht : S₀.ast.heap.Tidy)
    (hrun : Holders.Run (NodeOp.during S₀.ast.logs.length S₀.callers) S₀ S) : Transaction S₀ S := by
  induction hrun with
  | start => exact .start h₀ ht
  | step _ hvalid hduring hstep ih => exact ih.step h₀ ht hvalid hduring hstep

/-- The nodes of the save lead to none of the later ones. -/
theorem live_of_leads {m k : NodeId} (h : Transaction S₀ S)
    (h₀ : S₀.ast.heap.Balanced S₀.owners) (hm : m ∈ S₀.ast.heap.live)
    (hleads : Leads S.ast.heap.live S.ast.heap.children m k) : k ∈ S₀.ast.heap.live := by
  induction hleads with
  | refl => exact hm
  | tail _ hlast ih =>
    apply h₀.owned.mem_of_child ih
    rw [← h.children _ ih]
    exact hlast.2

/-- What is there after the rollback is what was there at the save, and what others keep. -/
theorem owners_of_rollback (h : Transaction S₀ S) (hlogs : S.ast.logs = S₀.ast.logs) :
    S.owners = S₀.owners + (S.callers - S₀.callers) := by
  have hcallers : S.callers = S₀.callers + (S.callers - S₀.callers) :=
    (add_tsub_cancel_of_le h.callers).symm
  rw [Holders.owners, hlogs, h.memo, hcallers, Holders.owners, add_tsub_cancel_left, add_assoc,
    add_assoc]

theorem refc_of_rollback {k : NodeId} (h : Transaction S₀ S)
    (h₀ : S₀.ast.heap.Balanced S₀.owners) (hlogs : S.ast.logs = S₀.ast.logs)
    (hk : k ∈ S₀.ast.heap.live) :
    S.ast.heap.refc k = S₀.ast.heap.refc k + ((S.callers - S₀.callers) +
      held (S.ast.heap.live \ S₀.ast.heap.live) S.ast.heap.children).count k := by
  have hheld : held S.ast.heap.live S.ast.heap.children =
      held (S.ast.heap.live \ S₀.ast.heap.live) S.ast.heap.children +
        held S₀.ast.heap.live S₀.ast.heap.children := by
    rw [held_congr fun m hm => (h.children m hm).symm]
    exact (Finset.sum_sdiff h.live).symm
  have hcount := h.balanced.owned.count k (h.live hk)
  have hcount₀ := h₀.owned.count k hk
  rw [hcount, hcount₀, hheld, h.owners_of_rollback hlogs]
  simp only [Multiset.count_add]
  push_cast
  ring

theorem free_of_rollback {k : NodeId} (h : Transaction S₀ S)
    (h₀ : S₀.ast.heap.Balanced S₀.owners) (hlogs : S.ast.logs = S₀.ast.logs)
    (hnext : k < S.ast.heap.next) (hk : k ∉ S₀.ast.heap.live) :
    k ∈ S.ast.heap.freeList ↔ ∀ m ∈ S.callers - S₀.callers,
      ¬Leads S.ast.heap.live S.ast.heap.children m k := by
  constructor
  · intro hfree m hm hleads
    have howner : m ∈ S.owners := by
      rw [h.owners_of_rollback hlogs]
      exact Multiset.mem_add.2 (.inr hm)
    have hlive := h.balanced.owned.live_of_leads (h.balanced.mem_of_owner howner)
      (fun _ _ _ => rfl) hleads
    exact (h.balanced.free k hfree).1 hlive
  · intro hnot
    by_contra hfree
    have hlive : k ∈ S.ast.heap.live := Heap.mem_live.2 ⟨hnext, hfree⟩
    obtain ⟨m, hm, hleads⟩ := h.balanced.owned.exists_leads h.tidy.layered
      (fun y hy => h.tidy.referenced y hy nofun) hlive
    rw [h.owners_of_rollback hlogs] at hm
    rcases Multiset.mem_add.1 hm with hold | hnew
    · exact hk (h.live_of_leads h₀ (h₀.mem_of_owner hold) hleads)
    · exact hnot m hnew hleads

end Transaction

/-- A rollback to the save brings back the log and the counts, but for the references that others
have taken since, and the nodes that these do not lead to return to the pool. -/
theorem rollback_restores {w n : UInt32} (hreached : Holders.Reached w n S₀)
    (hrun : Holders.Run (NodeOp.during (astSaveTx S₀.ast) S₀.callers) S₀ S) :
    ∃ S', (NodeOp.rollback (astSaveTx S₀.ast)).run S = some S' ∧
      S'.ast.logs = S₀.ast.logs ∧
      (∀ k ∈ S₀.ast.heap.live, k ∈ S'.ast.heap.live ∧
        S'.ast.heap.refc k = S₀.ast.heap.refc k + ((S.callers - S₀.callers) +
          held (S'.ast.heap.live \ S₀.ast.heap.live) S'.ast.heap.children).count k) ∧
      (∀ k < S'.ast.heap.next, k ∉ S₀.ast.heap.live →
        (k ∈ S'.ast.heap.freeList ↔ ∀ m ∈ S.callers - S₀.callers,
          ¬Leads S'.ast.heap.live S'.ast.heap.children m k)) ∧
      (S.callers = S₀.callers →
        (∀ k ∈ S₀.ast.heap.live, S'.ast.heap.refc k = S₀.ast.heap.refc k) ∧
        ∀ k < S'.ast.heap.next, k ∉ S₀.ast.heap.live → k ∈ S'.ast.heap.freeList) := by
  have h₀ := hreached.balanced
  have htransaction := Transaction.run h₀ hreached.tidy hrun
  have htx : S₀.ast.logs.length ≤ S.ast.logs.length := by
    rw [← htransaction.logs, List.length_take]
    exact Nat.min_le_right _ _
  obtain ⟨H', live', hback, -⟩ := astRollbackTx_spec htransaction.balanced htx
  have hrollback : (NodeOp.rollback (astSaveTx S₀.ast)).run S =
      some { S with ast := { S.ast with heap := H', logs := S.ast.logs.take S₀.ast.logs.length } } := by
    simp only [NodeOp.run, astSaveTx, hback, Option.bind_eq_bind, Option.bind_some]
    rfl
  have h' := @Transaction.step _ _ _ (.rollback (astSaveTx S₀.ast)) htransaction h₀ hreached.tidy
    trivial le_rfl hrollback
  refine ⟨_, hrollback, htransaction.logs, ?_, ?_, ?_⟩
  · exact fun k hk => ⟨h'.live hk, h'.refc_of_rollback h₀ htransaction.logs hk⟩
  · exact fun k hnext hk => h'.free_of_rollback h₀ htransaction.logs hnext hk
  · intro hcallers
    have hkept : S.callers - S₀.callers = 0 := by rw [hcallers, tsub_self]
    have hfree : ∀ k < H'.next, k ∉ S₀.ast.heap.live → k ∈ H'.freeList := by
      intro k hnext hk
      apply (h'.free_of_rollback h₀ htransaction.logs hnext hk).2
      show ∀ m ∈ S.callers - S₀.callers, _
      rw [hkept]
      exact fun m hm => absurd hm (Multiset.notMem_zero m)
    refine ⟨fun k hk => ?_, hfree⟩
    have hlive : H'.live \ S₀.ast.heap.live = ∅ := by
      rw [Finset.sdiff_eq_empty_iff_subset]
      intro m hm
      by_contra hnot
      exact (Heap.mem_live.1 hm).2 (hfree m (Heap.mem_live.1 hm).1 hnot)
    have hrefc := h'.refc_of_rollback h₀ htransaction.logs hk
    dsimp only at hrefc ⊢
    rw [hrefc, hkept, hlive]
    simp [held]

/-- A tree that is built and linked behind an entry is gone after the rollback. -/
theorem rollback_restores_entry : ∃ S S' : Holders,
    S.ast.logs = [.new 7, .link 1 (some 0) 0] ∧ S.ast.heap.refc 0 = 1 ∧
      (NodeOp.rollback 1).run S = some S' ∧ S'.ast.logs = [.new 7] ∧
        ∀ k < S'.ast.heap.next, k ∈ S'.ast.heap.freeList := by
  let S₀ : Holders := { Holders.init 1 2 with ast := { logs := [.new 7] } }
  have hsave : Holders.Reached 1 2 S₀ :=
    @Holders.Run.step _ _ (Holders.init 1 2) _ (.logNew 7) .start trivial ⟨trivial, trivial⟩ rfl
  have hnew := @Holders.Run.step (NodeOp.during 1 0) S₀ S₀ _ (.logNew 8) .start trivial trivial rfl
  have hcommit := @Holders.Run.step _ _ _ _ (.commit 1 1) hnew trivial le_rfl rfl
  obtain ⟨S', hrun, hlogs, -, -, hpool⟩ := rollback_restores hsave hcommit
  refine ⟨_, S', ?_, ?_, hrun, hlogs, ?_⟩
  · rfl
  · rfl
  · intro k hk
    exact (hpool rfl).2 k hk (by simp [S₀, Heap.mem_live])

end Transactions

end Moz
