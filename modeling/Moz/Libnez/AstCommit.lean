import Moz.Libnez.AstTree
import Moz.Node.Ownership

/-!
# Committing builds the tree of the log

`ast_create_node` rewrites the log while it reads it: a `Push` or a `LeftFold`
becomes the link of the node built for it. The links between `head` and `cur`,
found by skipping the rewritten groups, are at every moment the children read so
far; this and the ownership of the nodes is what each entry of the log preserves.
-/

namespace Moz

open RefCount

def AstLog.nodeRef : AstLog → Option NodeId
  | .link _ node _ => node
  | _ => none

def logRefs (logs : List AstLog) : Multiset NodeId := (logs.filterMap AstLog.nodeRef : List NodeId)

@[simp] theorem logRefs_nil : logRefs [] = 0 := rfl

theorem logRefs_cons (log : AstLog) (logs : List AstLog) :
    logRefs (log :: logs) = logRefs [log] + logRefs logs := by
  rw [logRefs, logRefs, logRefs, Multiset.coe_add, ← List.filterMap_append, List.singleton_append]

theorem logRefs_append (logs logs' : List AstLog) :
    logRefs (logs ++ logs') = logRefs logs + logRefs logs' := by
  rw [logRefs, logRefs, logRefs, List.filterMap_append, Multiset.coe_add]

/-- Overwriting an entry without a node by a link to `n` adds one reference. -/
theorem logRefs_set {logs : List AstLog} {cur : ℕ} {log : AstLog} (h : logs[cur]? = some log)
    (hlog : log.nodeRef = none) (labelId : UInt16) (n : NodeId) (shift : ℕ) :
    logRefs (logs.set cur (.link labelId (some n) shift)) = n ::ₘ logRefs logs := by
  obtain ⟨hlt, hget⟩ := List.getElem?_eq_some_iff.1 h
  have hsplit : logs = logs.take cur ++ log :: logs.drop (cur + 1) := by
    rw [← hget, ← List.drop_eq_getElem_cons hlt, List.take_append_drop]
  have hset : logs.set cur (.link labelId (some n) shift) =
      logs.take cur ++ .link labelId (some n) shift :: logs.drop (cur + 1) :=
    List.set_eq_take_append_cons_drop.trans (if_pos hlt)
  have hone : logRefs [.link labelId (some n) shift] = {n} := rfl
  have hzero : logRefs [log] = 0 := by simp [logRefs, hlog]
  rw [hset, logRefs_append, logRefs_cons, hone]
  conv_rhs => rw [hsplit, logRefs_append, logRefs_cons, hzero]
  rw [← Multiset.singleton_add]
  abel

/-- Following the log from `i` to `j`, over the entries each link spans, finds these links. -/
inductive Scan (logs : List AstLog) : ℕ → ℕ → List (UInt16 × NodeId) → Prop
  | nil (i : ℕ) : Scan logs i i []
  | skip {i j : ℕ} {ls : List (UInt16 × NodeId)} {log : AstLog} (h : logs[i]? = some log)
      (hlog : ∀ labelId node shift, log ≠ .link labelId node shift)
      (hs : Scan logs (i + 1) j ls) : Scan logs i j ls
  | link {i j : ℕ} {ls : List (UInt16 × NodeId)} {labelId : UInt16} {n : NodeId} {shift : ℕ}
      (h : logs[i]? = some (.link labelId (some n) shift))
      (hs : Scan logs (i + shift + 1) j ls) : Scan logs i j ((labelId, n) :: ls)

namespace Scan

variable {logs logs' : List AstLog} {i j : ℕ} {ls : List (UInt16 × NodeId)}

theorem le (h : Scan logs i j ls) : i ≤ j := by
  induction h with
  | nil => exact le_rfl
  | skip _ _ _ ih => omega
  | link _ _ ih => omega

theorem congr (h : Scan logs i j ls) (hlogs : ∀ k < j, logs'[k]? = logs[k]?) :
    Scan logs' i j ls := by
  induction h with
  | nil i => exact .nil i
  | skip hget hlog hs ih =>
    have := hs.le
    exact .skip ((hlogs _ (by omega)).trans hget) hlog (ih hlogs)
  | link hget hs ih =>
    have := hs.le
    exact .link ((hlogs _ (by omega)).trans hget) (ih hlogs)

theorem concat_skip (h : Scan logs i j ls) {log : AstLog} (hget : logs[j]? = some log)
    (hlog : ∀ labelId node shift, log ≠ .link labelId node shift) : Scan logs i (j + 1) ls := by
  induction h with
  | nil i => exact .skip hget hlog (.nil _)
  | skip hget' hlog' _ ih => exact .skip hget' hlog' (ih hget)
  | link hget' _ ih => exact .link hget' (ih hget)

theorem concat_link (h : Scan logs i j ls) {labelId : UInt16} {n : NodeId} {shift : ℕ}
    (hget : logs[j]? = some (.link labelId (some n) shift)) :
    Scan logs i (j + shift + 1) (ls ++ [(labelId, n)]) := by
  induction h with
  | nil i => exact .link hget (.nil _)
  | skip hget' hlog' _ ih => exact .skip hget' hlog' (ih hget)
  | link hget' _ ih => exact .link hget' (ih hget)

end Scan

def Node.withEntry (node : Node) (entry : List (Option NodeId)) : Node := { node with entry := entry }

theorem Node.withEntry_withEntry (node : Node) (entry entry' : List (Option NodeId)) :
    (node.withEntry entry).withEntry entry' = node.withEntry entry' := rfl

theorem Node.withEntry_self (node : Node) : node.withEntry node.entry = node := rfl

/-- The data of a node, its count and its label apart, is the same in both heaps. -/
def SameData (H H' : Heap) (m : NodeId) : Prop :=
  (H'.mem m).tag = (H.mem m).tag ∧ (H'.mem m).value = (H.mem m).value ∧
    (H'.mem m).pos = (H.mem m).pos ∧ (H'.mem m).len = (H.mem m).len ∧
    (H'.mem m).entry = (H.mem m).entry

theorem SameData.refl (H : Heap) (m : NodeId) : SameData H H m := ⟨rfl, rfl, rfl, rfl, rfl⟩

theorem SameData.trans {H H' H'' : Heap} {m : NodeId} (h : SameData H H' m)
    (h' : SameData H' H'' m) : SameData H H'' m := by
  obtain ⟨h1, h2, h3, h4, h5⟩ := h
  obtain ⟨g1, g2, g3, g4, g5⟩ := h'
  exact ⟨g1.trans h1, g2.trans h2, g3.trans h3, g4.trans h4, g5.trans h5⟩

/-- Every child of these nodes is one of them and has the label `lab` gives it. -/
def LabelOk (H : Heap) (kept : Finset NodeId) (lab : NodeId → UInt16) : Prop :=
  ∀ m ∈ kept, ∀ n, some n ∈ (H.mem m).entry → n ∈ kept ∧ (H.mem n).labelId = lab n

/-- Trees of these nodes are kept when the nodes and the labels of their children are. -/
theorem IsTree.preserved {H H' : Heap} {kept kept' : Finset NodeId} {lab lab' : NodeId → UInt16}
    (hlab : LabelOk H kept lab) (hlab' : LabelOk H' kept' lab') (hsub : kept ⊆ kept')
    (heq : ∀ m ∈ kept, lab' m = lab m) (hsame : ∀ m ∈ kept, SameData H H' m) {n : NodeId} {t : Tree}
    (hn : n ∈ kept) (h : IsTree H n t) : IsTree H' n t := by
  refine IsTree.congr (fun m hm k hk => (hlab m hm k hk).1) hsame ?_ t n hn h
  intro m hm k hk
  have hk' : some k ∈ (H'.mem m).entry := by
    rw [(hsame m hm).2.2.2.2]
    exact hk
  rw [(hlab m hm k hk).2, (hlab' m (hsub hm) k hk').2, heq k (hlab m hm k hk).1]

/-- The loop of `constructLeft` fills the empty slots of `o` with the links it finds. -/
theorem constructLeftLoop_spec {logs : List AstLog} {tail o : ℕ} {live kept : Finset NodeId}
    {owners : Multiset NodeId} {lab : NodeId → UInt16} {ls : List (UInt16 × NodeId)} :
    ∀ {cur fuel n : ℕ} {H : Heap} {done : List (Option NodeId)},
    Scan logs cur (tail + 1) ls → tail + 2 ≤ cur + fuel → HeapOwned H live owners → o ∈ live →
    (H.mem o).entry = done ++ List.replicate ls.length none → done.length = n →
    (∀ e ∈ ls, e.2 ∈ live ∧ e.2 ∈ kept ∧ e.2 ≠ o ∧ lab e.2 = e.1) → LabelOk H kept lab →
    ∃ H', constructLeftLoop logs tail o fuel H cur n = some H' ∧ HeapOwned H' live owners ∧
      LabelOk H' kept lab ∧
      H'.mem o = (H.mem o).withEntry (done ++ ls.map fun e => some e.2) ∧
      ∀ m, m ≠ o → SameData H H' m := by
  intro cur fuel n H done hscan
  generalize hend : tail + 1 = stop at hscan
  induction hscan generalizing fuel n H done with
  | nil i =>
    intro hfuel howned ho hentry hn hls hlab
    cases fuel with
    | zero => omega
    | succ fuel =>
      refine ⟨H, ?_, howned, hlab, ?_, fun m _ => .refl H m⟩
      · rw [constructLeftLoop, if_pos (by omega)]
      · simp only [List.length_nil, List.replicate_zero] at hentry
        rw [List.map_nil, ← hentry, Node.withEntry_self]
  | @skip i j ls log hget hlog hs ih =>
    intro hfuel howned ho hentry hn hls hlab
    have hle := hs.le
    cases fuel with
    | zero => omega
    | succ fuel =>
      have hfuel' : tail + 2 ≤ i + 1 + fuel := by omega
      obtain ⟨H', hrun, hrest⟩ := ih hend hfuel' howned ho hentry hn hls hlab
      refine ⟨H', ?_, hrest⟩
      rw [constructLeftLoop, if_neg (by omega), hget, ← hrun]
      split
      · rename_i hlink
        exact absurd (Option.some.inj hlink) (hlog _ _ _)
      · rfl
  | @link i j ls labelId c shift hget hs ih =>
    intro hfuel howned ho hentry hn hls hlab
    have hle := hs.le
    obtain ⟨hc, hcKept, hco, hlabc⟩ := hls (labelId, c) (by simp)
    cases fuel with
    | zero => omega
    | succ fuel =>
      have hslot : (H.mem o).entry[n]? = some none := by
        rw [hentry, List.getElem?_append_right (by omega)]
        simp [hn]
      obtain ⟨H₁, hset, howned₁, ho₁, hc₁, hm₁, -, -⟩ :=
        nodeSet_spec howned ho hc hco.symm hslot labelId
      replace ho₁ : H₁.mem o = (H.mem o).withEntry ((H.mem o).entry.set n (some c)) := ho₁
      have hentry₁ : (H₁.mem o).entry =
          (done ++ [some c]) ++ List.replicate ls.length none := by
        rw [ho₁]
        show (H.mem o).entry.set n (some c) = _
        rw [hentry, ← hn, List.set_append_right _ _ le_rfl, Nat.sub_self, List.length_cons,
          List.replicate_succ, List.set_cons_zero, List.append_assoc, List.singleton_append]
      have hlabel₁ : ∀ k, (H₁.mem k).labelId = if k = c then labelId else (H.mem k).labelId := by
        intro k
        by_cases hkc : k = c
        · rw [if_pos hkc, hkc, hc₁]
        · rw [if_neg hkc]
          by_cases hko : k = o
          · rw [hko, ho₁]
            rfl
          · rw [hm₁ k hko hkc]
      have hsame₁ : ∀ m, m ≠ o → SameData H H₁ m := by
        intro m hmo
        by_cases hmc : m = c
        · subst hmc
          rw [SameData, hc₁]
          exact ⟨rfl, rfl, rfl, rfl, rfl⟩
        · rw [SameData, hm₁ m hmo hmc]
          exact ⟨rfl, rfl, rfl, rfl, rfl⟩
      have hlab₁ : LabelOk H₁ kept lab := by
        intro m hm k hk
        rw [hlabel₁]
        split_ifs with hkc
        · rw [hkc, hlabc]
          exact ⟨hcKept, rfl⟩
        · by_cases hmo : m = o
          · rw [hmo, ho₁] at hk
            rcases List.mem_or_eq_of_mem_set hk with hk' | hk'
            · exact hlab o (hmo ▸ hm) k hk'
            · exact absurd (Option.some.inj hk') hkc
          · rw [(hsame₁ m hmo).2.2.2.2] at hk
            exact hlab m hm k hk
      have hfuel' : tail + 2 ≤ i + shift + 1 + fuel := by omega
      have hn₁ : (done ++ [some c]).length = n + 1 := by simp [hn]
      obtain ⟨H', hrun, howned', hlab', ho', hsame'⟩ :=
        ih hend hfuel' howned₁ ho hentry₁ hn₁
          (fun e he => hls e (List.mem_cons_of_mem _ he)) hlab₁
      refine ⟨H', ?_, howned', hlab', ?_, ?_⟩
      · rw [constructLeftLoop, if_neg (by omega), hget]
        simp only [hset, Option.bind_eq_bind, Option.bind_some]
        exact hrun
      · rw [ho', ho₁, Node.withEntry_withEntry, List.append_assoc, List.map_cons,
          List.singleton_append]
      · intro m hmo
        exact (hsame₁ m hmo).trans (hsame' m hmo)

/-- The live nodes, those of them whose trees are kept, and the label that each node gets where it
is or becomes a child. -/
structure Census where
  live : Finset NodeId
  kept : Finset NodeId
  lab : NodeId → UInt16
  sub : kept ⊆ live

/-- The counts are right with `ext` the references from outside, and children have their labels. -/
structure MachineOk (ast : AstMachine) (c : Census) (ext : Multiset NodeId) : Prop where
  owned : HeapOwned ast.heap c.live (logRefs ast.logs + ext)
  label : LabelOk ast.heap c.kept c.lab

/-- A later state of the pool: the nodes that were live are as they were. -/
structure Extends (H H' : Heap) (c c' : Census) : Prop where
  live : c.live ⊆ c'.live
  kept : c.kept ⊆ c'.kept
  lab : ∀ n ∈ c.live, c'.lab n = c.lab n
  same : ∀ n ∈ c.live, SameData H H' n

theorem Extends.refl (H : Heap) (c : Census) : Extends H H c c where
  live := subset_rfl
  kept := subset_rfl
  lab _ _ := rfl
  same n _ := .refl H n

theorem Extends.trans {H₁ H₂ H₃ : Heap} {c₁ c₂ c₃ : Census} (h : Extends H₁ H₂ c₁ c₂)
    (h' : Extends H₂ H₃ c₂ c₃) : Extends H₁ H₃ c₁ c₃ where
  live := h.live.trans h'.live
  kept := h.kept.trans h'.kept
  lab n hn := (h'.lab n (h.live hn)).trans (h.lab n hn)
  same n hn := (h.same n hn).trans (h'.same n (h.live hn))

/-- The tree of node `n` is kept, its label as a child is `labelId`, and it is the root of `t`. -/
structure Linkable (H : Heap) (c : Census) (labelId : UInt16) (n : NodeId) (t : Tree) : Prop where
  kept : n ∈ c.kept
  lab : c.lab n = labelId
  tree : IsTree H n t

theorem Linkable.extends {ast ast' : AstMachine} {c c' : Census} {ext ext' : Multiset NodeId}
    {labelId : UInt16} {n : NodeId} {t : Tree} (h : Linkable ast.heap c labelId n t)
    (hok : MachineOk ast c ext) (hok' : MachineOk ast' c' ext')
    (hext : Extends ast.heap ast'.heap c c') : Linkable ast'.heap c' labelId n t where
  kept := hext.kept h.kept
  lab := (hext.lab n (c.sub h.kept)).trans h.lab
  tree := h.tree.preserved hok.label hok'.label hext.kept (fun m hm => hext.lab m (c.sub hm))
    (fun m hm => hext.same m (c.sub hm)) h.kept

/-- The local variables at entry `cur` are those of the reading `r`. -/
structure ReadOk (ast : AstMachine) (c : Census) (cur : ℕ) (L : CreateNode) (r : Reading) :
    Prop where
  spos : L.spos = r.spos
  epos : L.epos = r.epos
  tag : L.tag = r.tag
  value : L.value = r.value
  children : ∃ ls, Scan ast.logs L.head cur ls ∧ L.objSize = ls.length ∧
    List.Forall₂ (fun e t => e.1 = t.1 ∧ Linkable ast.heap c e.1 e.2 t.2) ls r.children

theorem ReadOk.skip {ast : AstMachine} {c : Census} {cur : ℕ} {L : CreateNode} {r : Reading}
    (h : ReadOk ast c cur L r) {log : AstLog} (hget : ast.logs[cur]? = some log)
    (hlog : ∀ labelId node shift, log ≠ .link labelId node shift) :
    ReadOk ast c (cur + 1) L r := by
  obtain ⟨ls, hscan, hrest⟩ := h.children
  exact ⟨h.spos, h.epos, h.tag, h.value, ls, hscan.concat_skip hget hlog, hrest⟩

theorem linkable_of_mem {H : Heap} {c : Census} {ls : List (UInt16 × NodeId)}
    {children : List (UInt16 × Tree)} {e : UInt16 × NodeId}
    (h : List.Forall₂ (fun e t => e.1 = t.1 ∧ Linkable H c e.1 e.2 t.2) ls children)
    (he : e ∈ ls) : ∃ t, Linkable H c e.1 e.2 t := by
  induction h with
  | nil => cases he
  | cons hlink _ ih =>
    rcases List.mem_cons.1 he with rfl | he
    · exact ⟨_, hlink.2⟩
    · exact ih he

/-- What has been read stays read when the log and the nodes it is made of are kept. -/
theorem ReadOk.extends {ast ast' : AstMachine} {c c' : Census} {ext ext' : Multiset NodeId}
    {cur : ℕ} {L : CreateNode} {r : Reading} (h : ReadOk ast c cur L r) (hok : MachineOk ast c ext)
    (hok' : MachineOk ast' c' ext') (hext : Extends ast.heap ast'.heap c c')
    (hlogs : ∀ k < cur, ast'.logs[k]? = ast.logs[k]?) : ReadOk ast' c' cur L r := by
  obtain ⟨ls, hscan, hsize, hlinks⟩ := h.children
  refine ⟨h.spos, h.epos, h.tag, h.value, ls, hscan.congr hlogs, hsize, hlinks.imp ?_⟩
  intro e t he
  exact ⟨he.1, he.2.extends hok hok' hext⟩

theorem ReadOk.link {ast : AstMachine} {c : Census} {cur shift : ℕ} {L : CreateNode}
    {r : Reading} {labelId : UInt16} {n : NodeId} {t : Tree} (h : ReadOk ast c cur L r)
    (hget : ast.logs[cur]? = some (.link labelId (some n) shift))
    (hlink : Linkable ast.heap c labelId n t) :
    ReadOk ast c (cur + shift + 1) { L with objSize := L.objSize + 1 }
      { r with children := r.children ++ [(labelId, t)] } := by
  obtain ⟨ls, hscan, hsize, hlinks⟩ := h.children
  refine ⟨h.spos, h.epos, h.tag, h.value, ls ++ [(labelId, n)], hscan.concat_link hget, ?_, ?_⟩
  · simp [hsize]
  · exact List.rel_append hlinks (.cons ⟨rfl, hlink⟩ .nil)

/-- The child array `constructLeft` fills is the forest read so far. -/
theorem isForest_of_linkable {H H' : Heap} {c : Census} {ls : List (UInt16 × NodeId)}
    {children : List (UInt16 × Tree)}
    (h : List.Forall₂ (fun e t => e.1 = t.1 ∧ Linkable H c e.1 e.2 t.2) ls children)
    (hlab : ∀ e ∈ ls, (H'.mem e.2).labelId = c.lab e.2)
    (htree : ∀ n ∈ c.kept, ∀ t, IsTree H n t → IsTree H' n t) :
    IsForest H' (ls.map fun e => some e.2) children := by
  induction h with
  | nil =>
    rw [List.map_nil, IsForest]
    trivial
  | @cons e t ls children he _ ih =>
    obtain ⟨labelId, t⟩ := t
    obtain ⟨heq, hlink⟩ := he
    rw [List.map_cons, IsForest]
    refine ⟨?_, htree _ hlink.kept _ hlink.tree, ih fun e' he' => hlab e' (by simp [he'])⟩
    rw [hlab e (by simp), hlink.lab, heq]

/-- `constructLeft` builds the node that has been read. -/
theorem constructLeft_spec {ast : AstMachine} {c : Census} {ext : Multiset NodeId} {tail : ℕ}
    {L : CreateNode} {r : Reading} (hok : MachineOk ast c ext)
    (hread : ReadOk ast c (tail + 1) L r) (htail : tail ≤ ast.logs.length) :
    ∃ heap o, constructLeft ast L tail = some ({ ast with heap := heap }, o) ∧ o ∉ c.live ∧
      HeapOwned heap (insert o c.live) (logRefs ast.logs + ext) ∧
      LabelOk heap (insert o c.kept) c.lab ∧ heap.refc o = 0 ∧
      (∀ m ∈ c.live, SameData ast.heap heap m) ∧ IsTree heap o r.tree := by
  obtain ⟨ls, hscan, hsize, hlinks⟩ := hread.children
  obtain ⟨H₁, o, hnew, hfresh, howned₁, hother, ho, -⟩ := nodeNew_spec hok.owned L.tag L.spos
    (UInt32.ofInt ((L.epos : ℤ) - L.spos)) L.objSize L.value
  have hlive : ∀ m ∈ c.live, m ≠ o := fun m hm => ne_of_mem_of_not_mem hm hfresh
  have hmem : o ∈ insert o c.live := Finset.mem_insert_self o c.live
  have hentry : (H₁.mem o).entry = [] ++ List.replicate ls.length none := by
    rw [ho, ← hsize]
    rfl
  have hsame : ∀ m ∈ c.live, SameData ast.heap H₁ m := by
    intro m hm
    rw [SameData, hother m (hlive m hm)]
    exact ⟨rfl, rfl, rfl, rfl, rfl⟩
  have hlab₁ : LabelOk H₁ (insert o c.kept) c.lab := by
    intro m hm k hk
    rcases Finset.mem_insert.1 hm with rfl | hm
    · rw [hentry, List.nil_append] at hk
      exact absurd (List.eq_of_mem_replicate hk) (by simp)
    · rw [hother m (hlive m (c.sub hm))] at hk
      obtain ⟨hk', hlabel⟩ := hok.label m hm k hk
      rw [hother k (hlive k (c.sub hk'))]
      exact ⟨Finset.mem_insert_of_mem hk', hlabel⟩
  have hlinkLive : ∀ e ∈ ls,
      e.2 ∈ insert o c.live ∧ e.2 ∈ insert o c.kept ∧ e.2 ≠ o ∧ c.lab e.2 = e.1 := by
    intro e he
    obtain ⟨t, hlink⟩ := linkable_of_mem hlinks he
    exact ⟨Finset.mem_insert_of_mem (c.sub hlink.kept), Finset.mem_insert_of_mem hlink.kept,
      hlive _ (c.sub hlink.kept), hlink.lab⟩
  -- the loop runs exactly when there is a child
  obtain ⟨heap, hrun, howned, hlab, hnode, hkeep⟩ : ∃ heap,
      constructLeft ast L tail = some ({ ast with heap := heap }, o) ∧
      HeapOwned heap (insert o c.live) (logRefs ast.logs + ext) ∧
      LabelOk heap (insert o c.kept) c.lab ∧
      heap.mem o = (H₁.mem o).withEntry (ls.map fun e => some e.2) ∧
      ∀ m, m ≠ o → SameData H₁ heap m := by
    by_cases hzero : L.objSize = 0
    · have hnil : ls = [] := List.length_eq_zero_iff.1 (hsize.symm.trans hzero)
      refine ⟨H₁, ?_, howned₁, hlab₁, ?_, fun m _ => .refl H₁ m⟩
      · rw [constructLeft, hnew]
        simp [hzero]
      · rw [hnil] at hentry ⊢
        exact (Node.withEntry_self _).symm.trans (congrArg _ hentry)
    · obtain ⟨heap, hloop, howned, hlab, hnode, hkeep⟩ :=
        constructLeftLoop_spec hscan
          (by omega : tail + 2 ≤ L.head + (ast.logs.length + 2)) howned₁ hmem hentry rfl
          hlinkLive hlab₁
      refine ⟨heap, ?_, howned, hlab, hnode, hkeep⟩
      rw [List.length_nil] at hloop
      rw [constructLeft, hnew]
      simp [hzero, hloop]
  have hsame' : ∀ m ∈ c.live, SameData ast.heap heap m := fun m hm =>
    (hsame m hm).trans (hkeep m (hlive m hm))
  have hchild : (heap.mem o).entry = ls.map fun e => some e.2 := by
    rw [hnode]
    rfl
  refine ⟨heap, o, hrun, hfresh, howned, hlab, ?_, hsame', ?_⟩
  · rw [Heap.refc, hnode, ho]
    rfl
  · rw [Reading.tree, IsTree, hchild]
    have hdata : (heap.mem o).tag = L.tag ∧ (heap.mem o).value = L.value ∧
        (heap.mem o).pos = L.spos ∧
        (heap.mem o).len = UInt32.ofInt ((L.epos : ℤ) - L.spos) := by
      rw [hnode, ho]
      exact ⟨rfl, rfl, rfl, rfl⟩
    obtain ⟨htag, hvalue, hpos, hlen⟩ := hdata
    refine ⟨htag.trans hread.tag, hvalue.trans hread.value, hpos.trans hread.spos, ?_, ?_⟩
    · rw [hlen, hread.epos, hread.spos]
    · refine isForest_of_linkable hlinks ?_ ?_
      · intro e he
        refine (hlab o (Finset.mem_insert_self o c.kept) e.2 ?_).2
        rw [hchild]
        exact List.mem_map.2 ⟨e, he, rfl⟩
      · intro n hn t ht
        exact ht.preserved hok.label hlab (Finset.subset_insert _ _) (fun _ _ => rfl)
          (fun m hm => hsame' m (c.sub hm)) hn

theorem nodeRetain_mem (H : Heap) (o m : NodeId) :
    SameData H (nodeRetain H o) m ∧ ((nodeRetain H o).mem m).labelId = (H.mem m).labelId := by
  by_cases hmo : m = o
  · subst hmo
    rw [SameData, nodeRetain, Heap.set_mem_self]
    exact ⟨⟨rfl, rfl, rfl, rfl, rfl⟩, rfl⟩
  · rw [SameData, nodeRetain, Heap.set_mem_of_ne _ _ hmo]
    exact ⟨⟨rfl, rfl, rfl, rfl, rfl⟩, rfl⟩

theorem isTree_nodeRetain {H : Heap} {live : Finset NodeId} {owners : Multiset NodeId}
    (hok : HeapOwned H live owners)
    (o : NodeId) {n : NodeId} {t : Tree} (hn : n ∈ live) (ht : IsTree H n t) :
    IsTree (nodeRetain H o) n t :=
  IsTree.congr (fun _ hm _ hk => hok.mem_of_entry hm hk) (fun m _ => (nodeRetain_mem H o m).1)
    (fun _ _ k _ => (nodeRetain_mem H o k).2) t n hn ht

/-- The node that has been read is built, retained, and linked at entry `k` of the log. -/
theorem closeNode_spec {ast : AstMachine} {c : Census} {ext : Multiset NodeId} {tail k : ℕ}
    {L : CreateNode} {r : Reading} {log : AstLog} (hok : MachineOk ast c ext)
    (hread : ReadOk ast c (tail + 1) L r) (htail : tail ≤ ast.logs.length)
    (hget : ast.logs[k]? = some log) (hlog : log.nodeRef = none) (labelId : UInt16) (shift : ℕ) :
    ∃ heap o c', constructLeft ast L tail = some ({ ast with heap := heap }, o) ∧
      MachineOk (({ ast with heap := nodeRetain heap o } : AstMachine).setLog k
        (.link labelId (some o) shift)) c' ext ∧
      Extends ast.heap (nodeRetain heap o) c c' ∧
      Linkable (nodeRetain heap o) c' labelId o r.tree := by
  obtain ⟨heap, o, hrun, hfresh, howned, hlab, hzero, hsame, htree⟩ :=
    constructLeft_spec hok hread htail
  have hmem : o ∈ insert o c.live := Finset.mem_insert_self o c.live
  have hkept : ∀ n ∈ c.live, Function.update c.lab o labelId n = c.lab n := fun n hn =>
    Function.update_of_ne (ne_of_mem_of_not_mem hn hfresh) _ _
  have hlab' : LabelOk (nodeRetain heap o) (insert o c.kept)
      (Function.update c.lab o labelId) := by
    intro m hm n hn
    rw [(nodeRetain_mem heap o m).1.2.2.2.2] at hn
    have hno : n ≠ o := by
      rintro rfl
      exact howned.not_mem_entry hmem hzero (Finset.insert_subset_insert _ c.sub hm) hn
    rw [(nodeRetain_mem heap o n).2, Function.update_of_ne hno]
    exact hlab m hm n hn
  refine ⟨heap, o, ⟨insert o c.live, insert o c.kept, Function.update c.lab o labelId,
    Finset.insert_subset_insert o c.sub⟩, hrun, ⟨?_, hlab'⟩, ⟨Finset.subset_insert _ _,
    Finset.subset_insert _ _, hkept, ?_⟩, ⟨Finset.mem_insert_self _ _, Function.update_self _ _ _, ?_⟩⟩
  · show HeapOwned (nodeRetain heap o) _ (logRefs (ast.logs.set k _) + ext)
    rw [logRefs_set hget hlog, Multiset.cons_add]
    exact howned.retain hmem
  · intro n hn
    exact (hsame n hn).trans (nodeRetain_mem heap o n).1
  · exact isTree_nodeRetain howned o hmem htree

/-- The entries from `cur` on are these. -/
def HasEntries (logs : List AstLog) (cur : ℕ) (entries : List AstLog) : Prop :=
  ∀ k < entries.length, logs[cur + k]? = entries[k]?

namespace HasEntries

variable {logs logs' entries entries' : List AstLog} {cur : ℕ} {log : AstLog}

theorem append (h : HasEntries logs cur (entries ++ entries')) :
    HasEntries logs cur entries ∧ HasEntries logs (cur + entries.length) entries' := by
  constructor
  · intro k hk
    rw [h k (by rw [List.length_append]; omega), List.getElem?_append_left hk]
  · intro k hk
    rw [Nat.add_assoc, h _ (by rw [List.length_append]; omega),
      List.getElem?_append_right (Nat.le_add_right _ _), Nat.add_sub_cancel_left]

theorem cons (h : HasEntries logs cur (log :: entries)) :
    logs[cur]? = some log ∧ HasEntries logs (cur + 1) entries := by
  constructor
  · exact h 0 (by simp)
  · intro k hk
    rw [Nat.add_assoc, Nat.add_comm 1 k, h (k + 1) (by simpa using hk), List.getElem?_cons_succ]

theorem congr (h : HasEntries logs cur entries) (hlogs : ∀ k, cur ≤ k → logs'[k]? = logs[k]?) :
    HasEntries logs' cur entries := by
  intro k hk
  rw [hlogs _ (Nat.le_add_right _ _), h k hk]

end HasEntries

/-- In the loop of `ast_create_node`, the entries with these links turn a reading `r` into `f r`. -/
def Reads (T : NodeId → Tree) (entries : List AstLog) (links : List (UInt16 × NodeId))
    (f : Reading → Reading) : Prop :=
  ∀ (ext : Multiset NodeId) (ast : AstMachine) (c : Census) (pushed : Option ℕ) (cur fuel : ℕ)
    (L : CreateNode) (r : Reading), MachineOk ast c ext → ReadOk ast c cur L r →
    HasEntries ast.logs cur entries → (∀ e ∈ links, Linkable ast.heap c e.1 e.2 (T e.2)) →
    ast.logs.length < cur + fuel →
    ∃ ast' c' L' fuel', astCreateNodeLoop fuel ast pushed cur L =
        astCreateNodeLoop fuel' ast' pushed (cur + entries.length) L' ∧
      MachineOk ast' c' ext ∧ ReadOk ast' c' (cur + entries.length) L' (f r) ∧
      Extends ast.heap ast'.heap c c' ∧ ast'.logs.length = ast.logs.length ∧
      (∀ k, k < cur ∨ cur + entries.length ≤ k → ast'.logs[k]? = ast.logs[k]?) ∧
      ast.logs.length < cur + entries.length + fuel'

namespace Reads

variable {T : NodeId → Tree}

theorem nil : Reads T [] [] id := by
  intro ext ast c pushed cur fuel L r hok hread _ _ hfuel
  exact ⟨ast, c, L, fuel, rfl, hok, hread, .refl _ _, rfl, fun _ _ => rfl, hfuel⟩

theorem append {entries entries' : List AstLog} {links links' : List (UInt16 × NodeId)}
    {f f' : Reading → Reading} (h : Reads T entries links f) (h' : Reads T entries' links' f') :
    Reads T (entries ++ entries') (links ++ links') (f' ∘ f) := by
  intro ext ast c pushed cur fuel L r hok hread hentries hlinks hfuel
  obtain ⟨hfirst, hsecond⟩ := hentries.append
  obtain ⟨ast₁, c₁, L₁, fuel₁, hrun₁, hok₁, hread₁, hext₁, hlen₁, hlogs₁, hfuel₁⟩ :=
    h ext ast c pushed cur fuel L r hok hread hfirst
      (fun e he => hlinks e (List.mem_append_left _ he)) hfuel
  obtain ⟨ast₂, c₂, L₂, fuel₂, hrun₂, hok₂, hread₂, hext₂, hlen₂, hlogs₂, hfuel₂⟩ :=
    h' ext ast₁ c₁ pushed (cur + entries.length) fuel₁ L₁ (f r) hok₁ hread₁
      (hsecond.congr fun k hk => hlogs₁ k (.inr hk))
      (fun e he => (hlinks e (List.mem_append_right _ he)).extends hok hok₁ hext₁)
      (by rwa [hlen₁])
  have hlength : cur + (entries ++ entries').length = cur + entries.length + entries'.length := by
    rw [List.length_append, Nat.add_assoc]
  rw [hlength]
  refine ⟨ast₂, c₂, L₂, fuel₂, hrun₁.trans hrun₂, hok₂, hread₂, hext₁.trans hext₂,
    hlen₂.trans hlen₁, ?_, hlen₁ ▸ hfuel₂⟩
  intro k hk
  rw [hlogs₂ k (by omega), hlogs₁ k (by omega)]

theorem local_step {log : AstLog} {f : Reading → Reading}
    (step : ℕ → CreateNode → CreateNode)
    (hrun : ∀ fuel ast pushed cur L, ast.logs[cur]? = some log →
      astCreateNodeLoop (fuel + 1) ast pushed cur L =
        astCreateNodeLoop fuel ast pushed (cur + 1) (step cur L))
    (hread : ∀ ast c cur L r, ast.logs[cur]? = some log → ReadOk ast c cur L r →
      ReadOk ast c (cur + 1) (step cur L) (f r)) : Reads T [log] [] f := by
  intro ext ast c pushed cur fuel L r hok hr hentries _ hfuel
  obtain ⟨hget, -⟩ := hentries.cons
  obtain ⟨hlt, -⟩ := List.getElem?_eq_some_iff.1 hget
  cases fuel with
  | zero => omega
  | succ fuel =>
    refine ⟨ast, c, step cur L, fuel, hrun fuel ast pushed cur L hget, hok,
      hread ast c cur L r hget hr, .refl _ _, rfl, fun _ _ => rfl, ?_⟩
    rw [List.length_singleton]
    omega

theorem new (pos : ℕ) : Reads T [.new pos] [] fun _ => .start pos := by
  refine local_step (fun cur _ => { head := cur, spos := pos, epos := pos }) ?_ ?_
  · intro fuel ast pushed cur L hget
    rw [astCreateNodeLoop, hget]
  · intro ast c cur L r hget _
    exact ⟨rfl, rfl, rfl, rfl, [], .skip hget (by simp) (.nil _), rfl, .nil⟩

theorem capture (pos : ℕ) : Reads T [.capture pos] [] fun r => { r with epos := pos } := by
  refine local_step (fun _ L => { L with epos := pos }) ?_ ?_
  · intro fuel ast pushed cur L hget
    rw [astCreateNodeLoop, hget]
  · intro ast c cur L r hget hread
    have hskip := hread.skip hget (by simp)
    exact ⟨hskip.spos, rfl, hskip.tag, hskip.value, hskip.children⟩

theorem tag (tag : Option (List UInt8)) : Reads T [.tag tag] [] fun r => { r with tag := tag } := by
  refine local_step (fun _ L => { L with tag := tag }) ?_ ?_
  · intro fuel ast pushed cur L hget
    rw [astCreateNodeLoop, hget]
  · intro ast c cur L r hget hread
    have hskip := hread.skip hget (by simp)
    exact ⟨hskip.spos, hskip.epos, rfl, hskip.value, hskip.children⟩

theorem replace (str : Option (List UInt8)) :
    Reads T [.replace str] [] fun r => { r with value := str } := by
  refine local_step (fun _ L => { L with value := str }) ?_ ?_
  · intro fuel ast pushed cur L hget
    rw [astCreateNodeLoop, hget]
  · intro ast c cur L r hget hread
    have hskip := hread.skip hget (by simp)
    exact ⟨hskip.spos, hskip.epos, hskip.tag, rfl, hskip.children⟩

theorem link (labelId : UInt16) (n : NodeId) :
    Reads T [.link labelId (some n) 0] [(labelId, n)]
      fun r => { r with children := r.children ++ [(labelId, T n)] } := by
  intro ext ast c pushed cur fuel L r hok hread hentries hlinks hfuel
  obtain ⟨hget, -⟩ := hentries.cons
  obtain ⟨hlt, -⟩ := List.getElem?_eq_some_iff.1 hget
  cases fuel with
  | zero => omega
  | succ fuel =>
    refine ⟨ast, c, { L with objSize := L.objSize + 1 }, fuel, ?_, hok, ?_, .refl _ _, rfl,
      fun _ _ => rfl, ?_⟩
    · rw [astCreateNodeLoop, hget]
      rfl
    · exact hread.link hget (hlinks (labelId, n) (by simp))
    · rw [List.length_singleton]
      omega

theorem leftFold (pos : ℕ) (labelId : UInt16) :
    Reads T [.leftFold pos labelId] []
      fun r => { spos := pos, epos := r.epos, children := [(labelId, r.tree)] } := by
  intro ext ast c pushed cur fuel L r hok hread hentries _ hfuel
  obtain ⟨hget, -⟩ := hentries.cons
  obtain ⟨hlt, -⟩ := List.getElem?_eq_some_iff.1 hget
  cases fuel with
  | zero => omega
  | succ fuel =>
    obtain ⟨heap, o, c', hrun, hok', hext, hlink⟩ :=
      closeNode_spec hok (hread.skip hget (by simp)) hlt.le hget rfl labelId 0
    refine ⟨_, c', { L with head := cur, spos := pos, objSize := 1, tag := none, value := none },
      fuel, ?_, hok', ⟨rfl, hread.epos, rfl, rfl, ?_⟩, hext, List.length_set, ?_, ?_⟩
    · rw [astCreateNodeLoop, hget]
      simp only [hrun, Option.bind_eq_bind, Option.bind_some]
      rfl
    · have hscan : Scan (ast.logs.set cur (.link labelId (some o) 0)) cur (cur + 0 + 1)
          [(labelId, o)] := .link (List.getElem?_set_self hlt) (.nil _)
      exact ⟨[(labelId, o)], hscan, rfl, .cons ⟨rfl, hlink⟩ .nil⟩
    · intro k hk
      exact List.getElem?_set_ne (by simp at hk; omega)
    · rw [List.length_singleton]
      omega

/-- The recursive call for a `Push` returns at the `Pop`, with the `Push` turned into a link. -/
theorem group (pos : ℕ) (labelId : UInt16) {entries : List AstLog}
    {links : List (UInt16 × NodeId)} {f : Reading → Reading} (h : Reads T entries links f) :
    Reads T (.push :: .new pos :: entries ++ [.pop labelId]) links fun r =>
      { r with children := r.children ++ [(labelId, (f (.start pos)).tree)] } := by
  intro ext ast c pushed cur fuel L r hok hread hentries hlinks hfuel
  obtain ⟨hpush, hrest⟩ : ast.logs[cur]? = some .push ∧
      HasEntries ast.logs (cur + 1) (([.new pos] ++ entries) ++ [.pop labelId]) := hentries.cons
  obtain ⟨hbody, hpop⟩ := hrest.append
  obtain ⟨hpop, -⟩ := hpop.cons
  obtain ⟨hnew, -⟩ := HasEntries.cons hbody
  have hlength : cur + (AstLog.push :: .new pos :: entries ++ [AstLog.pop labelId]).length =
      cur + 1 + ([AstLog.new pos] ++ entries).length + 1 := by
    simp only [List.length_append, List.length_cons, List.length_nil]
    omega
  rw [hlength]
  obtain ⟨hlt, -⟩ := List.getElem?_eq_some_iff.1 hpop
  generalize hj : cur + 1 + ([AstLog.new pos] ++ entries).length = j at *
  have hcur : cur < j := by omega
  cases fuel with
  | zero => omega
  | succ fuel =>
    have hstart : ReadOk ast c (cur + 1) { head := cur + 1, spos := pos, epos := pos }
        (.start pos) := ⟨rfl, rfl, rfl, rfl, [], .nil _, rfl, .nil⟩
    have hinner := ((new pos).append h) ext ast c (some cur) (cur + 1) fuel _ _ hok hstart hbody
      hlinks (by omega)
    rw [hj] at hinner
    obtain ⟨ast₁, c₁, L₁, fuel₁, hrun₁, hok₁, hread₁, hext₁, hlen₁, hlogs₁, hfuel₁⟩ := hinner
    have hpush₁ : ast₁.logs[cur]? = some .push := (hlogs₁ cur (.inl (by omega))).trans hpush
    have hpop₁ : ast₁.logs[j]? = some (.pop labelId) := (hlogs₁ j (.inr le_rfl)).trans hpop
    obtain ⟨heap, o, c₂, hclose, hok₂, hext₂, hlink⟩ := closeNode_spec hok₁
      (hread₁.skip hpop₁ (by simp)) (by omega) hpush₁ rfl labelId (j - cur)
    have hcall : astCreateNodeLoop fuel ast (some cur) (cur + 1)
        { head := cur + 1, spos := pos, epos := pos } =
        some (({ ast₁ with heap := nodeRetain heap o } : AstMachine).setLog cur
          (.link labelId (some o) (j - cur)), o) := by
      rw [hrun₁]
      cases fuel₁ with
      | zero => omega
      | succ fuel₁ =>
        rw [astCreateNodeLoop, hpop₁]
        simp only [hclose, Option.bind_eq_bind, Option.bind_some]
        rfl
    have hlogs₂ : ∀ k, k ≠ cur → (({ ast₁ with heap := nodeRetain heap o } : AstMachine).setLog cur
        (.link labelId (some o) (j - cur))).logs[k]? = ast₁.logs[k]? := fun k hk =>
      List.getElem?_set_ne hk.symm
    have hset : (({ ast₁ with heap := nodeRetain heap o } : AstMachine).setLog cur
        (.link labelId (some o) (j - cur))).logs[cur]? = some (.link labelId (some o) (j - cur)) :=
      List.getElem?_set_self (List.getElem?_eq_some_iff.1 hpush₁).1
    have hlen₂ : (({ ast₁ with heap := nodeRetain heap o } : AstMachine).setLog cur
        (.link labelId (some o) (j - cur))).logs.length = ast₁.logs.length := List.length_set
    have hheap : (({ ast₁ with heap := nodeRetain heap o } : AstMachine).setLog cur
        (.link labelId (some o) (j - cur))).heap = nodeRetain heap o := rfl
    generalize ({ ast₁ with heap := nodeRetain heap o } : AstMachine).setLog cur
        (.link labelId (some o) (j - cur)) = ast₂ at *
    rw [← hheap] at hext₂ hlink
    have hext := hext₁.trans hext₂
    have hread₂ : ReadOk ast₂ c₂ cur L r := hread.extends hok hok₂ hext fun k hk => by
      rw [hlogs₂ k (by omega), hlogs₁ k (.inl (by omega))]
    have hend := hread₂.link hset hlink
    have hshift : cur + (j - cur) + 1 = j + 1 := by omega
    rw [hshift] at hend
    refine ⟨ast₂, c₂, { L with objSize := L.objSize + 1 }, fuel, ?_, hok₂, hend, hext,
      hlen₂.trans hlen₁, ?_, by omega⟩
    · rw [astCreateNodeLoop, hpush]
      simp only [hnew, Option.map_some, AstLog.getPos, Option.getD_some, hcall, hset,
        Option.bind_eq_bind, Option.bind_some, hshift]
    · intro k hk
      rw [hlogs₂ k (by omega), hlogs₁ k (by omega)]

end Reads

mutual

theorem Item.reads (T : NodeId → Tree) : ∀ item : Item, Reads T item.logs item.links (item.read T)
  | .new pos => Reads.new pos
  | .capture pos => Reads.capture pos
  | .tag tag => Reads.tag tag
  | .replace str => Reads.replace str
  | .link labelId node => Reads.link labelId node
  | .leftFold pos labelId => Reads.leftFold pos labelId
  | .group pos items labelId => Reads.group pos labelId (itemsReads T items)

theorem itemsReads (T : NodeId → Tree) : ∀ items : List Item,
    Reads T (itemsLogs items) (itemsLinks items) (itemsRead T items)
  | [] => Reads.nil
  | item :: items => (Item.reads T item).append (itemsReads T items)

end

end Moz
