import Moz.Libnez.LogRuns
import Moz.Libnez.Unlabel

/-!
# Reading the tree out of the log

`ast_get_parsed_node` takes the first `New` of the log for the start of a segment.
Where the log is a segment from there on the tree of the segment is returned;
a log without a `New`, or with brackets that do not match, is not expected.
-/

namespace Moz

open RefCount

/-- From its first `New` on the log is a segment whose links are roots of trees; this is the tree
it describes. A log that links a node with an empty slot among its children describes none, as no
`Tree` stands for such a node. -/
def AstMachine.Describes (ast : AstMachine) (items : List Item) (t : Tree) : Prop :=
  ∃ (pre : List AstLog) (pos : ℕ) (T : NodeId → Tree), (∀ log ∈ pre, ∀ p, log ≠ .new p) ∧
    ast.logs = pre ++ segmentLogs pos items ∧
      (∀ e ∈ itemsLinks items, IsTree ast.heap e.2 (T e.2)) ∧ t = segmentTree T pos items

/-- No node is or becomes a child under two labels. -/
structure AstMachine.LabelsAgree (ast : AstMachine) (items : List Item) : Prop where
  once : ∀ e ∈ itemsLinks items, ∀ e' ∈ itemsLinks items, e.2 = e'.2 → e.1 = e'.1
  child : ∀ m ∈ ast.heap.live, ∀ e ∈ itemsLinks items, some e.2 ∈ (ast.heap.mem m).entry →
    (ast.heap.mem e.2).labelId = e.1

/-- `ast_get_parsed_node` ends with an empty log that has given its references back, and returns
the tree of the log, or `NULL` where there is none, now and when it is called again. The label of a
node is the one it was linked under last. -/
def Holders.ParsedNodeSafe (S : Holders) : Prop :=
  ∃ ast parsed, astGetParsedNode S.ast = some (ast, parsed) ∧ ast.logs = [] ∧
    ast.heap.Balanced (S.memo.refs + (parsed.toList + S.callers)) ∧
    (∀ n ∈ ast.heap.live, 0 < ast.heap.refc n) ∧
    astGetParsedNode ast = some (ast, parsed) ∧
    ((∀ items t, ¬S.ast.Describes items t) → parsed = none) ∧
    ∀ items t, S.ast.Describes items t → ∃ n, parsed = some n ∧
      IsTree ast.heap.unlabel n t.unlabel ∧ (S.ast.LabelsAgree items → IsTree ast.heap n t)

section ParsedNode

variable {S S' : Holders} {ast ast₁ ast' : AstMachine} {ext : Multiset NodeId} {pre : List AstLog}
  {pos : ℕ} {items : List Item} {T : NodeId → Tree} {o : NodeId} {t : Tree}

theorem astFirstNew_append (hpre : ∀ log ∈ pre, ∀ p, log ≠ .new p) (logs : List AstLog) :
    ∀ cur, astFirstNew (pre ++ .new pos :: logs) cur = some (cur + pre.length) := by
  induction pre with
  | nil =>
    intro cur
    rfl
  | cons log pre ih =>
    intro cur
    have hrest := ih (fun log hlog => hpre log (List.mem_cons_of_mem _ hlog)) (cur + 1)
    rw [List.length_cons, ← Nat.add_assoc, Nat.add_right_comm, ← hrest, List.cons_append]
    cases log with
    | new p => exact absurd rfl (hpre _ List.mem_cons_self p)
    | tag | pop | replace | push | leftFold | link | capture => rfl

/-- The segment is built, whatever labels the nodes get. -/
theorem astCreateNode_shape (h : ast.heap.Balanced (logRefs ast.logs + ext))
    (hlogs : ast.logs = pre ++ segmentLogs pos items)
    (htrees : ∀ e ∈ itemsLinks items, IsTree ast.heap e.2 (T e.2)) :
    ∃ ast₁ o, astCreateNode ast pre.length none = some (ast₁, o) ∧
      IsTree ast₁.heap.unlabel o (segmentTree T pos items).unlabel := by
  have hunlabel : ast.unlabel.logs = pre.map AstLog.unlabel ++ segmentLogs pos (itemsUnlabel items) := by
    rw [segmentLogs_unlabel, ← List.map_append, ← hlogs]
    rfl
  let c : Census := ⟨ast.heap.live, ast.heap.live, fun _ => 0, subset_rfl⟩
  have hok : MachineOk ast.unlabel c ext := by
    have howned : HeapOwned ast.heap.unlabel ast.heap.live
        (logRefs (ast.logs.map AstLog.unlabel) + ext) := by
      rw [logRefs_unlabel]
      exact HeapOwned.unlabel_iff.2 h
    exact ⟨howned, fun m hm n hn => ⟨howned.mem_of_entry hm hn, rfl⟩⟩
  have hlive : ∀ e ∈ itemsLinks items, e.2 ∈ ast.heap.live := by
    intro e he
    apply h.mem_of_owner (Multiset.mem_add.2 (.inl _))
    rw [hlogs, logRefs_append, Multiset.mem_add]
    exact .inr (mem_logRefs_of_links (.new pos :: items) e he)
  have hlinkable : ∀ e ∈ itemsLinks (itemsUnlabel items),
      Linkable ast.unlabel.heap c e.1 e.2 (T e.2).unlabel := by
    intro e he
    rw [itemsUnlabel_links] at he
    obtain ⟨e', he', rfl⟩ := List.mem_map.1 he
    exact ⟨hlive e' he', rfl, (htrees e' he').unlabel⟩
  obtain ⟨ast₁', o, -, hcreate, -, -, -, -, htree, -⟩ :=
    astCreateNode_spec (T := fun n => (T n).unlabel) hok hunlabel hlinkable
  rw [List.length_map, astCreateNode_unlabel] at hcreate
  obtain ⟨⟨ast₁, o'⟩, hreal, hpair⟩ := Option.map_eq_some_iff.1 hcreate
  cases hpair
  rw [segmentTree_unlabel] at htree
  exact ⟨ast₁, _, hreal, htree⟩

/-- With labels that agree the tree that is built has them. -/
theorem astCreateNode_labels (h : ast.heap.Balanced (logRefs ast.logs + ext))
    (hlogs : ast.logs = pre ++ segmentLogs pos items)
    (htrees : ∀ e ∈ itemsLinks items, IsTree ast.heap e.2 (T e.2))
    (hlabels : ast.LabelsAgree items)
    (hcreate : astCreateNode ast pre.length none = some (ast₁, o)) :
    IsTree ast₁.heap o (segmentTree T pos items) := by
  have hok : MachineOk ast ⟨ast.heap.live, ast.heap.live, linkLabel ast.heap (itemsLinks items),
      subset_rfl⟩ ext := by
    refine ⟨h, fun m hm n hn => ⟨HeapOwned.mem_of_entry h hm hn, (linkLabel_of_child ?_).symm⟩⟩
    rintro e he rfl
    exact hlabels.child m hm e he hn
  have hlive : ∀ e ∈ itemsLinks items, e.2 ∈ ast.heap.live := by
    intro e he
    apply h.mem_of_owner (Multiset.mem_add.2 (.inl _))
    rw [hlogs, logRefs_append, Multiset.mem_add]
    exact .inr (mem_logRefs_of_links (.new pos :: items) e he)
  obtain ⟨ast₁', o', -, hcreate', -, -, -, -, htree, -⟩ := astCreateNode_spec hok hlogs
    fun e he => ⟨hlive e he, linkLabel_of_mem hlabels.once he, htrees e he⟩
  rw [hcreate] at hcreate'
  cases hcreate'
  exact htree

/-- What the log is rolled back to leaves the tree of the node that was built. -/
theorem rollback_isTree (h : ast₁.heap.Balanced (logRefs ast₁.logs + ext))
    (ho : o ∈ ast₁.heap.live) (h0 : ast₁.heap.refc o = 0) :
    ∃ ast₂, astRollbackTx ast₁ 0 = some ast₂ ∧ ast₂.logs = [] ∧
      (∀ t, IsTree ast₁.heap o t → IsTree (nodeRetain ast₂.heap o) o t) ∧
      ∀ t, IsTree ast₁.heap.unlabel o t → IsTree (nodeRetain ast₂.heap o).unlabel o t := by
  obtain ⟨H₂, live₂, hback, hok₂, hswept⟩ := astRollbackTx_spec h (Nat.zero_le _)
  have ho₂ : o ∈ live₂ := by
    by_contra hfreed
    have := hswept.freed o ho hfreed
    omega
  refine ⟨_, hback, rfl, ?_, ?_⟩
  · intro t ht
    exact isTree_nodeRetain hok₂ o ho₂ (hswept.isTree hok₂ ho₂ ht)
  · intro t ht
    rw [nodeRetain_unlabel]
    have hok₂' := HeapOwned.unlabel_iff.2 hok₂
    exact isTree_nodeRetain hok₂' o ho₂ (hswept.unlabel.isTree hok₂' ho₂ ht)

/-- The call on a log that is not empty returns a node, if it returns. -/
theorem astGetParsedNode_ne_nil (hparsed : ast.parsed = none) (hne : ast.logs ≠ [])
    {parsed : Option NodeId} (hrun : astGetParsedNode ast = some (ast', parsed)) :
    parsed ≠ none := by
  rw [astGetParsedNode, hparsed] at hrun
  simp only [if_neg hne, Option.bind_eq_bind, Option.bind_eq_some_iff] at hrun
  obtain ⟨cur, -, ⟨ast₁, o⟩, -, ast₂, -, hrun⟩ := hrun
  cases hrun
  exact Option.some_ne_none o

theorem NodeOp.parsing.parsed {op : NodeOp} (hparsing : op.parsing)
    (h : S.ast.heap.Balanced S.owners) (hrun : op.run S = some S') :
    S'.ast.parsed = S.ast.parsed := by
  cases op with
  | new | set | append | getParsedNode => cases hparsing
  | retain | logNew | logCapture | logTag | logReplace | logSwap | logPush | logPop | logLink =>
    cases hrun
    rfl
  | release | memoSet | memoFail | memoDispose =>
    simp only [NodeOp.run, Option.bind_eq_bind, Option.bind_eq_some_iff] at hrun
    obtain ⟨_, -, hrun⟩ := hrun
    cases hrun
    rfl
  | commit labelId tx =>
    simp only [NodeOp.run, astCommitTx, Option.bind_eq_bind, Option.bind_eq_some_iff] at hrun
    obtain ⟨ast, ⟨⟨ast₁, o⟩, hcreate, ast₂, hback, hcommit⟩, hrun⟩ := hrun
    cases hrun
    cases hcommit
    obtain ⟨hcreates, -⟩ := astCreateNode_creates hcreate h
    exact (astRollbackTx_moves hcreates.balanced hback).2.1.trans hcreates.parsed
  | rollback tx =>
    simp only [NodeOp.run, Option.bind_eq_bind, Option.bind_eq_some_iff] at hrun
    obtain ⟨ast, hback, hrun⟩ := hrun
    cases hrun
    exact (astRollbackTx_moves h hback).2.1

theorem Holders.Run.parsed {w n : UInt32}
    (h : Holders.Run (fun _ op => op.parsing) (Holders.init w n) S) : S.ast.parsed = none := by
  induction h with
  | start => rfl
  | step hbefore _ hparsing hrun ih => rw [hparsing.parsed hbefore.reached.balanced hrun, ih]

theorem parsedNodeSafe_of_nil (h : S.ast.heap.Balanced S.owners) (ht : S.ast.heap.Tidy)
    (hparsed : S.ast.parsed = none) (hnil : S.ast.logs = []) : S.ParsedNodeSafe := by
  have hrun : astGetParsedNode S.ast = some (S.ast, none) := by
    rw [astGetParsedNode, hparsed]
    exact if_pos hnil
  have hbalanced : S.ast.heap.Balanced (S.memo.refs + (((none : Option NodeId).toList) + S.callers)) := by
    have hzero : logRefs S.ast.logs = 0 := by rw [hnil, logRefs_nil]
    rw [Holders.owners, hzero, zero_add] at h
    simpa using h
  refine ⟨S.ast, none, hrun, hnil, hbalanced,
    fun n hn => ht.referenced n hn (by simp), hrun,
    fun _ => rfl, ?_⟩
  rintro items t ⟨pre, pos, T, -, hlogs, -⟩
  rw [hnil] at hlogs
  exact absurd hlogs.symm (by simp [segmentLogs])

theorem parsedNodeSafe_of_describes (h : S.ast.heap.Balanced S.owners) (ht : S.ast.heap.Tidy)
    (hparsed : S.ast.parsed = none) (hdescribes : S.ast.Describes items t) : S.ParsedNodeSafe := by
  have h' : S.ast.heap.Balanced (logRefs S.ast.logs + (S.memo.refs + S.callers)) := h
  obtain ⟨pre, pos, T, hpre, hlogs, htrees, -⟩ := hdescribes
  obtain ⟨ast₁, o, hcreate, -⟩ := astCreateNode_shape h' hlogs htrees
  obtain ⟨hcreates, ho, h0⟩ := astCreateNode_creates hcreate h'
  obtain ⟨ast₂, hback, hlogs₂, htree, htree'⟩ := rollback_isTree hcreates.balanced ho h0
  have hne : S.ast.logs ≠ [] := by
    rw [hlogs]
    simp [segmentLogs]
  have hrun : astGetParsedNode S.ast =
      some ({ ast₂ with heap := nodeRetain ast₂.heap o, parsed := some o }, some o) := by
    have hfirst : astFirstNew S.ast.logs 0 = some pre.length := by
      rw [hlogs, segmentLogs, astFirstNew_append hpre, Nat.zero_add]
    rw [astGetParsedNode, hparsed]
    simp only [if_neg hne, hfirst, hcreate, hback, Option.bind_eq_bind, Option.bind_some]
    rfl
  have hmoves := astGetParsedNode_moves h' hparsed hrun
  have hevolves := astGetParsedNode_evolves h' hparsed hrun
  refine ⟨_, some o, hrun, hlogs₂, ?_, ?_, rfl, ?_, ?_⟩
  · have hbalanced := hmoves.balanced
    rw [hlogs₂, logRefs_nil, zero_add, add_left_comm] at hbalanced
    exact hbalanced
  · exact fun n hn => (hevolves.tidy ht).referenced n hn (by simp)
  · intro hnone
    exact absurd ⟨pre, pos, T, hpre, hlogs, htrees, rfl⟩ (hnone items (segmentTree T pos items))
  · -- any segment that the log is from its first `New` on starts where the call has begun
    rintro items' t' ⟨pre', pos', T', hpre', hlogs', htrees', rfl⟩
    have hlength : pre.length = pre'.length := by
      have hfirst : astFirstNew S.ast.logs 0 = some (0 + pre.length) := by
        rw [hlogs, segmentLogs, astFirstNew_append hpre]
      have hfirst' : astFirstNew S.ast.logs 0 = some (0 + pre'.length) := by
        rw [hlogs', segmentLogs, astFirstNew_append hpre']
      rw [hfirst, Nat.zero_add, Nat.zero_add] at hfirst'
      exact Option.some.inj hfirst'
    rw [hlength] at hcreate
    obtain ⟨ast₁', o', hcreate', hshape⟩ := astCreateNode_shape h' hlogs' htrees'
    rw [hcreate] at hcreate'
    cases hcreate'
    refine ⟨o, rfl, htree' _ hshape, fun hlabels => htree _ ?_⟩
    exact astCreateNode_labels h' hlogs' htrees' hlabels hcreate

/-- After a parse `ast_get_parsed_node` is safe exactly on the empty log and on a log that describes
a tree. -/
theorem parsed_node_safe_iff {w n : UInt32}
    (hrun : Holders.Run (fun _ op => op.parsing) (Holders.init w n) S) :
    S.ParsedNodeSafe ↔ S.ast.logs = [] ∨ ∃ items t, S.ast.Describes items t := by
  have h := hrun.reached.balanced
  have ht := hrun.reached.tidy
  have hparsed := hrun.parsed
  constructor
  · rintro ⟨ast, parsed, hget, -, -, -, -, hnull, -⟩
    by_cases hnil : S.ast.logs = []
    · exact .inl hnil
    · refine .inr (by_contra fun hnot => ?_)
      push Not at hnot
      exact astGetParsedNode_ne_nil hparsed hnil hget (hnull hnot)
  · rintro (hnil | ⟨items, t, hdescribes⟩)
    · exact parsedNodeSafe_of_nil h ht hparsed hnil
    · exact parsedNodeSafe_of_describes h ht hparsed hdescribes

/-- A node that is begun and captured is read out. -/
theorem captured_node_safe : ∃ S : Holders, S.ast.logs = [.new 0, .capture 3] ∧ S.ParsedNodeSafe := by
  have hnew := @Holders.Run.step (fun _ op => op.parsing) (Holders.init 1 2) _ _ (.logNew 0) .start
    trivial trivial rfl
  have hcapture := @Holders.Run.step _ _ _ _ (.logCapture 3) hnew trivial trivial rfl
  refine ⟨_, rfl, (parsed_node_safe_iff hcapture).2 (.inr ⟨[.capture 3], _, [], 0, fun _ => .node
    none none 0 0 [], ?_, rfl, ?_, rfl⟩)⟩
  · exact fun log hlog => absurd hlog List.not_mem_nil
  · exact fun e he => absurd he List.not_mem_nil

/-- A log with a committed tree and nothing else has no `New`: `NULL` is retained. -/
theorem committed_node_unsafe : ∃ S, Holders.Run (fun _ op => op.parsing) (Holders.init 1 2) S ∧
    S.ast.logs = [.link 1 (some 0) 0] ∧ astGetParsedNode S.ast = none ∧ ¬S.ParsedNodeSafe := by
  have hnew := @Holders.Run.step (fun _ op => op.parsing) (Holders.init 1 2) _ _ (.logNew 0) .start
    trivial trivial rfl
  refine ⟨_, @Holders.Run.step _ _ _ _ (.commit 1 0) hnew trivial trivial rfl, rfl, rfl, ?_⟩
  rintro ⟨ast, parsed, hrun, -⟩
  cases hrun

end ParsedNode

end Moz
