import Moz.Libnez.AstCommit

/-!
# Transactions on the log

Logging, rolling back and committing keep the counts of the node pool right. A
commit replaces a segment of the log by a link to the root of the segment's tree.
The label of a child is a field of the child, so a node that is linked under two
labels ends up with the last one in both places.
-/

namespace Moz

variable {ast : AstMachine} {live : Finset NodeId} {ext : Multiset NodeId}

/-- The counts are right for the nodes the log links and the references `ext` from outside. -/
def AstMachine.Owned (ast : AstMachine) (live : Finset NodeId) (ext : Multiset NodeId) : Prop :=
  HeapOwned ast.heap live (logRefs ast.logs + ext)

theorem AstMachine.Owned.init : AstMachine.Owned {} ∅ 0 where
  owned := ⟨fun _ h => absurd h (Finset.notMem_empty _), fun _ h => absurd h (by simp [RefCount.held])⟩
  nodup := List.nodup_nil
  free _ h := absurd h List.not_mem_nil
  bound _ h := absurd h (Finset.notMem_empty _)

/-- Entries that link no node do not change who owns what. -/
theorem AstMachine.Owned.astLog (h : ast.Owned live ext) {log : AstLog} (hlog : log.nodeRef = none) :
    (astLog ast log).Owned live ext := by
  have hrefs : logRefs (ast.logs ++ [log]) = logRefs ast.logs := by
    simp [logRefs, hlog]
  show HeapOwned ast.heap live (logRefs (ast.logs ++ [log]) + ext)
  rw [hrefs]
  exact h

theorem AstMachine.Owned.astLogLink (h : ast.Owned live ext) {n : NodeId} (hn : n ∈ live)
    (labelId : UInt16) : (astLogLink ast labelId (some n)).Owned live ext := by
  have hrefs : logRefs (ast.logs ++ [.link labelId (some n) 0]) = n ::ₘ logRefs ast.logs := by
    rw [logRefs_append, add_comm]
    rfl
  show HeapOwned (nodeRetain ast.heap n) live (logRefs (ast.logs ++ [_]) + ext)
  rw [hrefs, Multiset.cons_add]
  exact h.retain hn

theorem astRollbackEntry_of_none (H : Heap) (log : AstLog) (h : log.nodeRef = none) :
    astRollbackEntry H log = some H := by
  cases log with
  | link labelId node shift =>
    cases h
    rfl
  | tag | pop | replace | push | leftFold | new | capture => rfl

theorem astRollbackEntry_of_some (H : Heap) (log : AstLog) (o : NodeId) (h : log.nodeRef = some o) :
    astRollbackEntry H log = nodeRelease H o := by
  cases log with
  | link labelId node shift =>
    cases h
    rfl
  | tag | pop | replace | push | leftFold | new | capture => cases h

/-- The loop of `ast_rollback_tx` gives back what the entries hold. -/
theorem astRollbackEntries_spec (entries : List AstLog)
    {H : Heap} {live : Finset NodeId} {owners : Multiset NodeId}
    (h : HeapOwned H live (logRefs entries + owners)) :
    ∃ H' live', entries.foldlM astRollbackEntry H = some H' ∧ HeapOwned H' live' owners ∧
      Swept H H' live live' :=
  releaseEach_spec astRollbackEntry_of_none astRollbackEntry_of_some entries h

/-- A rollback takes the log back and keeps what the remaining entries hold. -/
theorem astRollbackTx_spec (h : ast.Owned live ext) {tx : ℕ} (htx : tx ≤ ast.logs.length) :
    ∃ H' live', astRollbackTx ast tx = some { ast with heap := H', logs := ast.logs.take tx } ∧
      HeapOwned H' live' (logRefs (ast.logs.take tx) + ext) ∧ Swept ast.heap H' live live' := by
  have hsplit : logRefs ast.logs = logRefs (ast.logs.drop tx) + logRefs (ast.logs.take tx) := by
    rw [add_comm, ← logRefs_append, List.take_append_drop]
  rw [AstMachine.Owned, hsplit, add_assoc] at h
  obtain ⟨H', live', hrun, hok, hswept⟩ := astRollbackEntries_spec _ h
  refine ⟨H', live', ?_, hok, hswept⟩
  rw [astRollbackTx, guard, if_pos htx, hrun]
  rfl

/-- What is still live after releases has the tree it had. -/
theorem Swept.isTree {H H' : Heap} {live live' : Finset NodeId} {owners : Multiset NodeId}
    (h : Swept H H' live live') (hok : HeapOwned H' live' owners) {n : NodeId} {t : Tree}
    (hn : n ∈ live') (ht : IsTree H n t) : IsTree H' n t := by
  refine @IsTree.congr H H' live' ?_ ?_ ?_ t n hn ht
  · intro m hm k hk
    rw [← h.entry hm] at hk
    exact hok.mem_of_entry hm hk
  · intro m hm
    rw [h.keeps m hm]
    exact ⟨rfl, rfl, rfl, rfl, rfl⟩
  · intro m hm k hk
    rw [← h.entry hm] at hk
    rw [h.keeps k (hok.mem_of_entry hm hk)]

mutual

theorem mem_logRefs_of_link : ∀ (item : Item), ∀ e ∈ item.links, e.2 ∈ logRefs item.logs
  | .link labelId node, e, he => by
    rw [List.mem_singleton.1 he]
    simp [Item.logs, logRefs, AstLog.nodeRef]
  | .group pos items labelId, e, he => by
    have hrec := mem_logRefs_of_links items e he
    have hlogs : (Item.group pos items labelId).logs =
        [.push, .new pos] ++ (itemsLogs items ++ [.pop labelId]) := rfl
    rw [hlogs, logRefs_append, logRefs_append]
    exact Multiset.mem_add.2 (.inr (Multiset.mem_add.2 (.inl hrec)))
  | .new _, _, he => by cases he
  | .capture _, _, he => by cases he
  | .tag _, _, he => by cases he
  | .replace _, _, he => by cases he
  | .leftFold _ _, _, he => by cases he

theorem mem_logRefs_of_links : ∀ (items : List Item), ∀ e ∈ itemsLinks items,
    e.2 ∈ logRefs (itemsLogs items)
  | [], _, he => by cases he
  | item :: items, e, he => by
    rw [itemsLogs, logRefs_append, Multiset.mem_add]
    rcases List.mem_append.1 he with he | he
    · exact .inl (mem_logRefs_of_link item e he)
    · exact .inr (mem_logRefs_of_links items e he)

end

/-- `ast_create_node` on a segment at the end of the log builds the tree of the segment. -/
theorem astCreateNode_spec {T : NodeId → Tree} {c : Census} {pre : List AstLog} {pos : ℕ}
    {items : List Item} (hok : MachineOk ast c ext) (hlogs : ast.logs = pre ++ segmentLogs pos items)
    (hlinks : ∀ e ∈ itemsLinks items, Linkable ast.heap c e.1 e.2 (T e.2)) :
    ∃ ast' o live', astCreateNode ast pre.length none = some (ast', o) ∧
      ast'.Owned live' ext ∧ o ∈ live' ∧ ast'.heap.refc o = 0 ∧
      ast'.logs.take pre.length = pre ∧ IsTree ast'.heap o (segmentTree T pos items) ∧
      ∀ n ∈ c.kept, ∀ t, IsTree ast.heap n t → IsTree ast'.heap n t := by
  have hentries : HasEntries ast.logs pre.length ([.new pos] ++ itemsLogs items) := by
    intro k _
    rw [hlogs, List.getElem?_append_right (Nat.le_add_right _ _), Nat.add_sub_cancel_left]
    rfl
  have hstart : ReadOk ast c pre.length { head := pre.length, spos := pos, epos := pos }
      (.start pos) := ⟨rfl, rfl, rfl, rfl, [], .nil _, rfl, .nil⟩
  have hend : pre.length + ([AstLog.new pos] ++ itemsLogs items).length =
      ast.logs.length - 1 + 1 := by
    rw [hlogs]
    simp only [segmentLogs, List.length_append, List.length_cons, List.length_nil]
    omega
  have hpos : 1 ≤ ast.logs.length := by
    rw [hlogs]
    simp only [segmentLogs, List.length_append, List.length_cons]
    omega
  obtain ⟨ast', c', L, fuel, hrun, hok', hread, hext, hlen, hkeep, hfuel⟩ :=
    ((Reads.new pos).append (itemsReads T items)) ext ast c none pre.length
      (ast.logs.length + 1) _ _ hok hstart hentries hlinks (by omega)
  rw [hend] at hrun hread hfuel
  rw [← hlen] at hread
  obtain ⟨heap, o, hclose, -, howned, hlab, hzero, hsame, htree⟩ :=
    constructLeft_spec hok' hread (Nat.sub_le _ _)
  refine ⟨{ ast' with heap := heap }, o, insert o c'.live, ?_, howned,
    Finset.mem_insert_self _ _, hzero, ?_, htree, ?_⟩
  · have hpos : ((ast.logs[pre.length]?).map AstLog.getPos).getD 0 = pos := by
      rw [hentries.cons.1]
      rfl
    rw [astCreateNode, hpos, hrun]
    cases fuel with
    | zero => omega
    | succ fuel =>
      have hnone : ast'.logs[ast.logs.length - 1 + 1]? = none :=
        List.getElem?_eq_none (by omega)
      rw [astCreateNodeLoop, hnone]
      exact hclose
  · refine List.ext_getElem? fun k => ?_
    show (ast'.logs.take pre.length)[k]? = pre[k]?
    by_cases hk : k < pre.length
    · rw [List.getElem?_take_of_lt hk, hkeep k (.inl hk), hlogs, List.getElem?_append_left hk]
    · rw [List.getElem?_eq_none (by rw [List.length_take]; omega),
        List.getElem?_eq_none (Nat.le_of_not_lt hk)]
  · intro n hn t ht
    exact ht.preserved hok.label hlab (hext.kept.trans (Finset.subset_insert _ _))
      (fun m hm => hext.lab m (c.sub hm))
      (fun m hm => (hext.same m (c.sub hm)).trans (hsame m (hext.live (c.sub hm)))) hn

/-- The labels the linked nodes get, and for other nodes the labels they have. -/
def linkLabel (H : Heap) (links : List (UInt16 × NodeId)) (n : NodeId) : UInt16 :=
  ((links.find? fun e => e.2 = n).map Prod.fst).getD (H.mem n).labelId

theorem linkLabel_of_mem {H : Heap} {links : List (UInt16 × NodeId)}
    (honce : ∀ e ∈ links, ∀ e' ∈ links, e.2 = e'.2 → e.1 = e'.1) {e : UInt16 × NodeId}
    (he : e ∈ links) : linkLabel H links e.2 = e.1 := by
  cases hfind : links.find? fun e' => e'.2 = e.2 with
  | none => simpa using List.find?_eq_none.1 hfind e he
  | some e' =>
    have heq : e'.2 = e.2 := by simpa using List.find?_some hfind
    rw [linkLabel, hfind]
    exact honce e' (List.mem_of_find?_eq_some hfind) e he heq

theorem linkLabel_of_child {H : Heap} {links : List (UInt16 × NodeId)} {n : NodeId}
    (hchild : ∀ e ∈ links, e.2 = n → (H.mem n).labelId = e.1) :
    linkLabel H links n = (H.mem n).labelId := by
  cases hfind : links.find? fun e => e.2 = n with
  | none => rw [linkLabel, hfind]; rfl
  | some e =>
    have heq : e.2 = n := by simpa using List.find?_some hfind
    rw [linkLabel, hfind]
    exact (hchild e (List.mem_of_find?_eq_some hfind) heq).symm

/-- `m` is in the tree of `n`. -/
def Heap.Below (H : Heap) (n m : NodeId) : Prop :=
  Relation.ReflTransGen (fun m k => some k ∈ (H.mem m).entry) n m

/-- Where a linked node is already a child in the tree of `n`, it is so under the label that it is
linked under. -/
def Heap.LabelsAgree (H : Heap) (links : List (UInt16 × NodeId)) (n : NodeId) : Prop :=
  ∀ m, H.Below n m → ∀ e ∈ links, some e.2 ∈ (H.mem m).entry → (H.mem e.2).labelId = e.1

/-- The commit keeps the trees of a set of nodes that has all their children and the linked nodes. -/
theorem astCommitTx_kept (T : NodeId → Tree) {pre : List AstLog} {pos : ℕ} {items : List Item}
    (labelId : UInt16) (howned : ast.Owned live ext)
    (hlogs : ast.logs = pre ++ segmentLogs pos items)
    (htrees : ∀ e ∈ itemsLinks items, IsTree ast.heap e.2 (T e.2))
    (honce : ∀ e ∈ itemsLinks items, ∀ e' ∈ itemsLinks items, e.2 = e'.2 → e.1 = e'.1)
    {kept : Finset NodeId} (hsub : kept ⊆ live) (hlinked : ∀ e ∈ itemsLinks items, e.2 ∈ kept)
    (hclosed : ∀ m ∈ kept, ∀ n, some n ∈ (ast.heap.mem m).entry → n ∈ kept)
    (hagree : ∀ m ∈ kept, ast.heap.LabelsAgree (itemsLinks items) m) :
    ∃ ast' n live', astCommitTx ast labelId pre.length = some ast' ∧
      ast'.logs = pre ++ [.link labelId (some n) 0] ∧
      IsTree ast'.heap n (segmentTree T pos items) ∧ ast'.Owned live' ext ∧
      ∀ m ∈ logRefs pre + ext, m ∈ kept → ∀ t, IsTree ast.heap m t → IsTree ast'.heap m t := by
  let c : Census := ⟨live, kept, linkLabel ast.heap (itemsLinks items), hsub⟩
  have hok : MachineOk ast c ext := by
    refine ⟨howned, fun m hm n hn => ⟨hclosed m hm n hn, (linkLabel_of_child ?_).symm⟩⟩
    rintro e he rfl
    exact hagree m hm m .refl e he hn
  obtain ⟨ast₁, o, live₁, hcreate, howned₁, ho, hzero, htake, htree, hold⟩ :=
    astCreateNode_spec hok hlogs fun e he => ⟨hlinked e he, linkLabel_of_mem honce he, htrees e he⟩
  have hlength : pre.length ≤ ast₁.logs.length := by
    rw [← htake, List.length_take]
    omega
  obtain ⟨H₂, live₂, hback, hok₂, hswept⟩ := astRollbackTx_spec howned₁ hlength
  rw [htake] at hback hok₂
  -- nobody refers to the new root, so the rollback does not free it
  have ho₂ : o ∈ live₂ := by
    by_contra hfreed
    have := hswept.freed o ho hfreed
    omega
  have howned₂ : AstMachine.Owned { ast₁ with heap := H₂, logs := pre } live₂ ext := hok₂
  have hcommit : astCommitTx ast labelId pre.length =
      some (astLogLink { ast₁ with heap := H₂, logs := pre } labelId (some o)) := by
    rw [astCommitTx, hcreate]
    simp only [Option.bind_eq_bind, Option.bind_some, hback]
    rfl
  refine ⟨_, o, live₂, hcommit, rfl, ?_, howned₂.astLogLink ho₂ labelId, ?_⟩
  · exact isTree_nodeRetain hok₂ o ho₂ (hswept.isTree hok₂ ho₂ htree)
  · intro m hm hkept t ht
    have hm₂ : m ∈ live₂ := hok₂.mem_of_owner hm
    exact isTree_nodeRetain hok₂ o hm₂ (hswept.isTree hok₂ hm₂ (hold m hkept t ht))

open Classical in
noncomputable def belowAny (H : Heap) (live roots : Finset NodeId) : Finset NodeId :=
  live.filter fun m => ∃ n ∈ roots, H.Below n m

theorem mem_belowAny {H : Heap} {roots : Finset NodeId} {m : NodeId} :
    m ∈ belowAny H live roots ↔ m ∈ live ∧ ∃ n ∈ roots, H.Below n m := by
  classical simp [belowAny]

/-- A pool with one node, which is a leaf of length 1 and referenced once. -/
def leafHeap : Heap where
  mem n := if n = 0 then { refc := 1, len := 1 } else {}
  next := 1

theorem leafHeap_entry (n : NodeId) : (leafHeap.mem n).entry = [] := by
  by_cases hn : n = 0 <;> simp [leafHeap, hn]

theorem leafHeap_owned : HeapOwned leafHeap {0} {0} where
  owned := by
    have hheld : RefCount.held {0} leafHeap.children = 0 := by
      simp [RefCount.held, Heap.children, leafHeap]
    constructor
    · intro n hn
      rw [hheld, Finset.mem_singleton.1 hn]
      rfl
    · intro n hn
      simpa [hheld] using hn
  nodup := List.nodup_nil
  free _ h := absurd h List.not_mem_nil
  bound n hn := by
    rw [Finset.mem_singleton.1 hn]
    exact Nat.one_pos

def foldItems : List Item := [.link 1 0, .group 1 [.capture 2, .tag none] 3, .leftFold 0 4]

/-- A leaf is committed under label 1 and then, as after a memo hit, linked under label 2. -/
def linkedTwice : Option AstMachine := do
  let ast ← astCommitTx (astLogCapture (astLogNew (astLogNew {} 0) 0) 1) 1 1
  return astLogLink ast 2 (some 0)

theorem constructLeft_logs {ast ast' : AstMachine} {L : CreateNode} {tail : ℕ} {o : NodeId}
    (h : constructLeft ast L tail = some (ast', o)) : ast'.logs = ast.logs := by
  unfold constructLeft at h
  simp only [Option.bind_eq_bind] at h
  split_ifs at h
  · cases h
    rfl
  · obtain ⟨heap, -, h⟩ := Option.bind_eq_some_iff.1 h
    cases h
    rfl

/-- The entries before `lo` are those of the other log, which is as long. -/
structure SameBelow (lo : ℕ) (logs logs' : List AstLog) : Prop where
  length : logs'.length = logs.length
  below : ∀ k < lo, logs'[k]? = logs[k]?

theorem SameBelow.refl (lo : ℕ) (logs : List AstLog) : SameBelow lo logs logs := ⟨rfl, fun _ _ => rfl⟩

theorem SameBelow.trans {lo : ℕ} {logs logs' logs'' : List AstLog} (h : SameBelow lo logs logs')
    (h' : SameBelow lo logs' logs'') : SameBelow lo logs logs'' :=
  ⟨h'.length.trans h.length, fun k hk => (h'.below k hk).trans (h.below k hk)⟩

theorem SameBelow.set {lo cur : ℕ} (logs : List AstLog) (log : AstLog) (h : lo ≤ cur) :
    SameBelow lo logs (logs.set cur log) :=
  ⟨List.length_set, fun k hk => List.getElem?_set_ne (by omega)⟩

theorem SameBelow.take {lo : ℕ} {logs logs' : List AstLog} (h : SameBelow lo logs logs') :
    logs'.take lo = logs.take lo := by
  refine List.ext_getElem? fun k => ?_
  by_cases hk : k < lo
  · rw [List.getElem?_take_of_lt hk, List.getElem?_take_of_lt hk, h.below k hk]
  · rw [List.getElem?_eq_none (by rw [List.length_take]; omega),
      List.getElem?_eq_none (by rw [List.length_take]; omega)]

/-- The loop of `ast_create_node` only rewrites entries from where it starts on. -/
theorem astCreateNodeLoop_logs {lo : ℕ} (fuel : ℕ) : ∀ {ast ast' : AstMachine} {pushed : Option ℕ}
    {cur : ℕ} {L : CreateNode} {o : NodeId},
    astCreateNodeLoop fuel ast pushed cur L = some (ast', o) → lo ≤ cur →
    (∀ p ∈ pushed, lo ≤ p) → SameBelow lo ast.logs ast'.logs := by
  induction fuel with
  | zero =>
    intro ast ast' pushed cur L o h
    cases h
  | succ fuel ih =>
    intro ast ast' pushed cur L o h hcur hpushed
    rw [astCreateNodeLoop] at h
    split at h
    · rw [constructLeft_logs h]
      exact .refl lo _
    · exact ih h (by omega) hpushed
    · exact ih h (by omega) hpushed
    · exact ih h (by omega) hpushed
    · exact ih h (by omega) hpushed
    · -- `LeftFold` overwrites its own entry
      obtain ⟨⟨ast₁, tmp⟩, hclose, h⟩ := Option.bind_eq_some_iff.1 h
      rw [← constructLeft_logs hclose]
      exact (SameBelow.set ast₁.logs _ hcur).trans (ih h (by omega) hpushed)
    · -- `Pop` overwrites the entry of its `Push`
      obtain ⟨p, hp, h⟩ := Option.bind_eq_some_iff.1 h
      obtain ⟨⟨ast₁, tmp⟩, hclose, h⟩ := Option.bind_eq_some_iff.1 h
      cases h
      rw [← constructLeft_logs hclose]
      exact SameBelow.set ast₁.logs _ (hpushed p hp)
    · obtain ⟨⟨ast₁, tmp⟩, hcall, h⟩ := Option.bind_eq_some_iff.1 h
      have hinner := ih hcall (by omega) (by simpa using hcur)
      simp only at h
      split at h
      · exact hinner.trans (ih h (by omega) hpushed)
      · cases h
    · exact ih h (by omega) hpushed

theorem astRollbackTx_logs {ast ast' : AstMachine} {tx : ℕ} (h : astRollbackTx ast tx = some ast') :
    tx ≤ ast.logs.length ∧ ast'.logs = ast.logs.take tx := by
  obtain ⟨_, hguard, h⟩ := Option.bind_eq_some_iff.1 h
  obtain ⟨heap, -, h⟩ := Option.bind_eq_some_iff.1 h
  cases h
  unfold guard at hguard
  split_ifs at hguard with htx
  · exact ⟨htx, rfl⟩

/-- A commit keeps the entries before the segment and appends one link, whatever the log is. -/
theorem astCommitTx_logs {ast ast' : AstMachine} {labelId : UInt16} {tx : ℕ}
    (h : astCommitTx ast labelId tx = some ast') :
    tx ≤ ast.logs.length ∧ ∃ n, ast'.logs = ast.logs.take tx ++ [.link labelId (some n) 0] := by
  obtain ⟨⟨ast₁, node⟩, hcreate, h⟩ := Option.bind_eq_some_iff.1 h
  obtain ⟨ast₂, hback, h⟩ := Option.bind_eq_some_iff.1 h
  cases h
  have hsame : SameBelow tx ast.logs ast₁.logs :=
    astCreateNodeLoop_logs _ hcreate le_rfl (by simp)
  obtain ⟨htx, hlogs⟩ := astRollbackTx_logs hback
  refine ⟨hsame.length ▸ htx, node, ?_⟩
  rw [← hsame.take, ← hlogs]
  rfl

end Moz
