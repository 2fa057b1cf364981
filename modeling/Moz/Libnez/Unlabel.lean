import Moz.Libnez.AstTransaction

/-!
# Labels are not read

A child's label is written by `Node_set` and read by none of the operations on the
pool and the log. Without its labels a machine does the same steps, so a node that
is linked under several labels does not disturb the shape of the trees.
-/

namespace Moz

open RefCount

def Node.unlabel (node : Node) : Node := { node with labelId := 0 }

def Heap.unlabel (H : Heap) : Heap := { H with mem := fun n => (H.mem n).unlabel }

def AstLog.unlabel : AstLog → AstLog
  | .pop _ => .pop 0
  | .leftFold pos _ => .leftFold pos 0
  | .link _ node shift => .link 0 node shift
  | log => log

def AstMachine.unlabel (ast : AstMachine) : AstMachine :=
  { ast with logs := ast.logs.map AstLog.unlabel, heap := ast.heap.unlabel }

mutual

def Tree.unlabel : Tree → Tree
  | .node tag value pos len children => .node tag value pos len (forestUnlabel children)

def forestUnlabel : List (UInt16 × Tree) → List (UInt16 × Tree)
  | [] => []
  | (_, t) :: children => (0, t.unlabel) :: forestUnlabel children

end

mutual

def Item.unlabel : Item → Item
  | .link _ node => .link 0 node
  | .leftFold pos _ => .leftFold pos 0
  | .group pos items _ => .group pos (itemsUnlabel items) 0
  | .new pos => .new pos
  | .capture pos => .capture pos
  | .tag tag => .tag tag
  | .replace str => .replace str

def itemsUnlabel : List Item → List Item
  | [] => []
  | item :: items => item.unlabel :: itemsUnlabel items

end

section Pool

variable {H H' : Heap} {o n : NodeId} {live live' : Finset NodeId} {owners : Multiset NodeId}

@[simp] theorem Heap.unlabel_mem (H : Heap) (n : NodeId) : H.unlabel.mem n = (H.mem n).unlabel := rfl

@[simp] theorem Node.unlabel_entry (node : Node) : node.unlabel.entry = node.entry := rfl

@[simp] theorem Node.unlabel_refc (node : Node) : node.unlabel.refc = node.refc := rfl

theorem Heap.set_unlabel (H : Heap) (o : NodeId) (node : Node) :
    (H.set o node).unlabel = H.unlabel.set o node.unlabel := by
  unfold Heap.set Heap.unlabel
  congr 1
  funext n
  dsimp only
  split_ifs <;> rfl

theorem nodeRetain_unlabel (H : Heap) (o : NodeId) :
    (nodeRetain H o).unlabel = nodeRetain H.unlabel o := H.set_unlabel _ _

theorem nodeUnref_unlabel (H : Heap) (o : NodeId) :
    (nodeUnref H o).unlabel = nodeUnref H.unlabel o := H.set_unlabel _ _

theorem nodeFree_unlabel (H : Heap) (o : NodeId) :
    (nodeFree H o).unlabel = nodeFree H.unlabel o :=
  congrArg (fun H' : Heap => { H' with freeList := o :: H.freeList }) (H.set_unlabel o _)

theorem nodeAlloc_unlabel (H : Heap) :
    nodeAlloc H.unlabel = ((nodeAlloc H).1.unlabel, (nodeAlloc H).2) := by
  obtain ⟨mem, freeList, next⟩ := H
  cases freeList with
  | nil => rfl
  | cons o freeList => rfl

theorem nodeNew_unlabel (H : Heap) (tag : Option (List UInt8)) (str : ℕ) (len : UInt32)
    (elmSize : ℕ) (value : Option (List UInt8)) : nodeNew H.unlabel tag str len elmSize value =
      ((nodeNew H tag str len elmSize value).1.unlabel,
        (nodeNew H tag str len elmSize value).2) := by
  unfold nodeNew
  rw [nodeAlloc_unlabel]
  dsimp only
  rw [Heap.set_unlabel]
  rfl

/-- The loop over the children does the same without labels when each release does. -/
theorem nodeSweepChildren_unlabel {release : Heap → NodeId → Option Heap}
    (hrelease : ∀ H o, release H.unlabel o = (release H o).map Heap.unlabel)
    (entry : List (Option NodeId)) : ∀ H : Heap, nodeSweepChildren release H.unlabel entry =
      (nodeSweepChildren release H entry).map Heap.unlabel := by
  induction entry with
  | nil =>
    intro H
    rfl
  | cons c entry ih =>
    intro H
    unfold nodeSweepChildren at ih ⊢
    rw [List.foldlM_cons, List.foldlM_cons]
    cases c with
    | none => exact ih H
    | some c =>
      dsimp only
      rw [hrelease]
      cases release H c with
      | none => rfl
      | some H' => exact ih H'

theorem nodeReleaseFuel_unlabel (fuel : ℕ) : ∀ (H : Heap) (o : NodeId),
    nodeReleaseFuel fuel H.unlabel o = (nodeReleaseFuel fuel H o).map Heap.unlabel := by
  induction fuel with
  | zero =>
    intro H o
    rfl
  | succ fuel ih =>
    intro H o
    simp only [nodeReleaseFuel]
    rw [← nodeUnref_unlabel, Heap.unlabel_mem, Node.unlabel_refc, Node.unlabel_entry,
      nodeSweepChildren_unlabel ih]
    split_ifs with hzero
    · cases nodeSweepChildren (nodeReleaseFuel fuel) (nodeUnref H o) ((nodeUnref H o).mem o).entry with
      | none => rfl
      | some H' => exact congrArg some (nodeFree_unlabel H' o).symm
    · rfl

theorem nodeRelease_unlabel (H : Heap) (o : NodeId) :
    nodeRelease H.unlabel o = (nodeRelease H o).map Heap.unlabel :=
  nodeReleaseFuel_unlabel (H.next + 1) H o

theorem nodeAppendNull_unlabel (o : NodeId) (k : ℕ) : ∀ H : Heap,
    nodeAppendNull H.unlabel o k = (nodeAppendNull H o k).unlabel := by
  induction k with
  | zero =>
    intro H
    rfl
  | succ k ih =>
    intro H
    have happend : nodeAppend H.unlabel o none = (nodeAppend H o none).unlabel :=
      (H.set_unlabel o { H.mem o with entry := (H.mem o).entry ++ [none] }).symm
    rw [nodeAppendNull, happend, ih, nodeAppendNull]

theorem nodeSet_unlabel (H : Heap) (o : NodeId) (index : ℕ) (labelId : UInt16) (n : NodeId) :
    nodeSet H.unlabel o index 0 n = (nodeSet H o index labelId n).map Heap.unlabel := by
  -- what follows the release of the child that is replaced
  have hstore : ∀ H : Heap,
      (let H₁ := H.unlabel.set n { H.unlabel.mem n with labelId := 0 }
       let H₂ := nodeAppendNull H₁ o (index + 1 - nodeLength H₁ o)
       H₂.set o { H₂.mem o with entry := (H₂.mem o).entry.set index (some n) }) =
      (let H₁ := H.set n { H.mem n with labelId := labelId }
       let H₂ := nodeAppendNull H₁ o (index + 1 - nodeLength H₁ o)
       H₂.set o { H₂.mem o with entry := (H₂.mem o).entry.set index (some n) }).unlabel := by
    intro H
    have hlabel : H.unlabel.set n { H.unlabel.mem n with labelId := 0 } =
        (H.set n { H.mem n with labelId := labelId }).unlabel :=
      (H.set_unlabel n { H.mem n with labelId := labelId }).symm
    dsimp only
    rw [hlabel]
    generalize H.set n { H.mem n with labelId := labelId } = H₁
    have hlength : nodeLength H₁.unlabel o = nodeLength H₁ o := rfl
    rw [hlength, nodeAppendNull_unlabel]
    generalize nodeAppendNull H₁ o (index + 1 - nodeLength H₁ o) = H₂
    exact (H₂.set_unlabel o { H₂.mem o with entry := (H₂.mem o).entry.set index (some n) }).symm
  have hget : nodeGet H.unlabel o index = nodeGet H o index := rfl
  unfold nodeSet
  rw [hget, ← nodeRetain_unlabel]
  cases nodeGet H o index with
  | none => exact congrArg some (hstore (nodeRetain H n))
  | some v =>
    dsimp only
    rw [nodeRelease_unlabel]
    cases nodeRelease (nodeRetain H n) v with
    | none => rfl
    | some H' => exact congrArg some (hstore H')

theorem HeapOwned.unlabel_iff : HeapOwned H.unlabel live owners ↔ HeapOwned H live owners :=
  ⟨fun h => ⟨h.owned, h.nodup, h.free, h.bound⟩, fun h => ⟨h.owned, h.nodup, h.free, h.bound⟩⟩

theorem Swept.unlabel (h : Swept H H' live live') : Swept H.unlabel H'.unlabel live live' where
  subset := h.subset
  keeps n hn := by
    rw [Heap.unlabel_mem, h.keeps n hn]
    rfl
  le := h.le
  freed := h.freed
  freeList := h.freeList
  next := h.next

end Pool

section Create

@[simp] theorem AstLog.unlabel_getPos (log : AstLog) : log.unlabel.getPos = log.getPos := by
  cases log <;> rfl

@[simp] theorem AstLog.unlabel_nodeRef (log : AstLog) : log.unlabel.nodeRef = log.nodeRef := by
  cases log <;> rfl

theorem logRefs_unlabel (logs : List AstLog) : logRefs (logs.map AstLog.unlabel) = logRefs logs := by
  have hcomp : AstLog.nodeRef ∘ AstLog.unlabel = AstLog.nodeRef := funext AstLog.unlabel_nodeRef
  rw [logRefs, List.filterMap_map, hcomp, logRefs]

theorem constructLeftLoop_unlabel (logs : List AstLog) (tail newnode fuel : ℕ) :
    ∀ (H : Heap) (cur n : ℕ),
      constructLeftLoop (logs.map AstLog.unlabel) tail newnode fuel H.unlabel cur n =
        (constructLeftLoop logs tail newnode fuel H cur n).map Heap.unlabel := by
  induction fuel with
  | zero =>
    intro H cur n
    rfl
  | succ fuel ih =>
    intro H cur n
    rw [constructLeftLoop, constructLeftLoop]
    split_ifs with htail
    · rfl
    · rw [List.getElem?_map]
      cases logs[cur]? with
      | none => exact ih H (cur + 1) n
      | some log =>
        cases log with
        | tag | pop | replace | push | leftFold | new | capture => exact ih H (cur + 1) n
        | link labelId child shift =>
          cases child with
          | none => exact ih H (cur + shift + 1) (n + 1)
          | some child =>
            simp only [Option.map_some, AstLog.unlabel]
            rw [nodeSet_unlabel H newnode n labelId child]
            cases nodeSet H newnode n labelId child with
            | none => rfl
            | some H' => exact ih H' (cur + shift + 1) (n + 1)

/-- What `ast_create_node` returns, without labels. -/
def unlabelResult (r : AstMachine × NodeId) : AstMachine × NodeId := (r.1.unlabel, r.2)

theorem constructLeft_unlabel (ast : AstMachine) (L : CreateNode) (tail : ℕ) :
    constructLeft ast.unlabel L tail = (constructLeft ast L tail).map unlabelResult := by
  unfold constructLeft
  have hheap : ast.unlabel.heap = ast.heap.unlabel := rfl
  have hlogs : ast.unlabel.logs = ast.logs.map AstLog.unlabel := rfl
  dsimp only
  rw [hheap, nodeNew_unlabel, hlogs, List.length_map]
  dsimp only
  split_ifs
  · rfl
  · rw [constructLeftLoop_unlabel]
    cases constructLeftLoop ast.logs tail _ _ _ L.head 0 with
    | none => rfl
    | some H' => rfl

theorem setLog_unlabel (ast : AstMachine) (cur : ℕ) (log : AstLog) :
    (ast.setLog cur log).unlabel = ast.unlabel.setLog cur log.unlabel := by
  unfold AstMachine.setLog AstMachine.unlabel
  dsimp only
  rw [List.map_set]

/-- The node that is closed is linked at the entry `k`. -/
theorem closeNode_unlabel (ast : AstMachine) (tmp : NodeId) (k : ℕ) (labelId : UInt16) (shift : ℕ) :
    AstMachine.setLog { ast.unlabel with heap := nodeRetain ast.unlabel.heap tmp } k
        (.link 0 (some tmp) shift) =
      (AstMachine.setLog { ast with heap := nodeRetain ast.heap tmp } k
        (.link labelId (some tmp) shift)).unlabel := by
  rw [setLog_unlabel]
  show AstMachine.setLog { ast.unlabel with heap := nodeRetain ast.heap.unlabel tmp } k _ = _
  rw [← nodeRetain_unlabel]
  rfl

theorem astCreateNodeLoop_unlabel (fuel : ℕ) : ∀ (ast : AstMachine) (pushed : Option ℕ) (cur : ℕ)
    (L : CreateNode), astCreateNodeLoop fuel ast.unlabel pushed cur L =
      (astCreateNodeLoop fuel ast pushed cur L).map unlabelResult := by
  induction fuel with
  | zero =>
    intro ast pushed cur L
    rfl
  | succ fuel ih =>
    intro ast pushed cur L
    have hget : ∀ (ast : AstMachine) (k : ℕ),
        ast.unlabel.logs[k]? = (ast.logs[k]?).map AstLog.unlabel :=
      fun ast k => List.getElem?_map
    have hlength : ast.unlabel.logs.length = ast.logs.length := List.length_map _
    rw [astCreateNodeLoop, astCreateNodeLoop, hget]
    cases hcur : ast.logs[cur]? with
    | none =>
      rw [Option.map_none, hlength]
      exact constructLeft_unlabel ast L _
    | some log =>
      cases log with
      | new | capture | tag | replace | link => exact ih _ _ _ _
      | leftFold pos labelId =>
        simp only [Option.map_some, AstLog.unlabel]
        rw [constructLeft_unlabel]
        cases constructLeft ast L cur with
        | none => rfl
        | some r =>
          simp only [Option.map_some, unlabelResult, Option.bind_eq_bind, Option.bind_some]
          rw [closeNode_unlabel r.1 r.2 cur labelId 0]
          exact ih _ _ _ _
      | pop labelId =>
        simp only [Option.map_some, AstLog.unlabel]
        cases pushed with
        | none => rfl
        | some k =>
          rw [constructLeft_unlabel]
          cases constructLeft ast L cur with
          | none => rfl
          | some r =>
            simp only [Option.map_some, unlabelResult, Option.bind_eq_bind, Option.bind_some]
            rw [closeNode_unlabel r.1 r.2 k labelId (cur - k)]
            rfl
      | push =>
        simp only [Option.map_some, AstLog.unlabel]
        rw [hget, Option.map_map]
        have hpos : AstLog.getPos ∘ AstLog.unlabel = AstLog.getPos := funext AstLog.unlabel_getPos
        rw [hpos, ih]
        cases astCreateNodeLoop fuel ast (some cur) (cur + 1) _ with
        | none => rfl
        | some r =>
          simp only [Option.map_some, unlabelResult, Option.bind_eq_bind, Option.bind_some]
          rw [hget]
          cases r.1.logs[cur]? with
          | none => rfl
          | some log =>
            cases log with
            | link => exact ih _ _ _ _
            | new | capture | tag | replace | leftFold | pop | push => rfl

/-- `ast_create_node` does the same without labels. -/
theorem astCreateNode_unlabel (ast : AstMachine) (cur : ℕ) (pushed : Option ℕ) :
    astCreateNode ast.unlabel cur pushed = (astCreateNode ast cur pushed).map unlabelResult := by
  have hpos : AstLog.getPos ∘ AstLog.unlabel = AstLog.getPos := funext AstLog.unlabel_getPos
  unfold astCreateNode
  have hget : ast.unlabel.logs[cur]? = (ast.logs[cur]?).map AstLog.unlabel := List.getElem?_map
  have hlength : ast.unlabel.logs.length = ast.logs.length := List.length_map _
  rw [hget, hlength, Option.map_map, hpos]
  exact astCreateNodeLoop_unlabel _ ast pushed cur _

end Create

section Trees

variable {H : Heap}

mutual

theorem IsTree.unlabel : ∀ {n : NodeId} (t : Tree), IsTree H n t → IsTree H.unlabel n t.unlabel
  | n, .node tag value pos len children, h => by
    rw [IsTree] at h
    rw [Tree.unlabel, IsTree]
    exact ⟨h.1, h.2.1, h.2.2.1, h.2.2.2.1, IsForest.unlabel children h.2.2.2.2⟩

theorem IsForest.unlabel : ∀ {entry : List (Option NodeId)} (children : List (UInt16 × Tree)),
    IsForest H entry children → IsForest H.unlabel entry (forestUnlabel children)
  | [], [], _ => by
    rw [forestUnlabel, IsForest]
    trivial
  | some n :: entry, (labelId, t) :: children, h => by
    rw [IsForest] at h
    rw [forestUnlabel, IsForest]
    exact ⟨rfl, IsTree.unlabel t h.2.1, IsForest.unlabel children h.2.2⟩
  | none :: entry, (labelId, t) :: children, h => by
    rw [IsForest] at h
    · exact h.elim
    all_goals simp
  | [], (labelId, t) :: children, h => by
    rw [IsForest] at h
    · exact h.elim
    all_goals simp
  | c :: entry, [], h => by
    rw [IsForest] at h
    · exact h.elim
    all_goals simp

end

mutual

theorem Item.unlabel_logs : ∀ item : Item, item.unlabel.logs = item.logs.map AstLog.unlabel
  | .new _ | .capture _ | .tag _ | .replace _ | .link _ _ | .leftFold _ _ => rfl
  | .group pos items labelId => by
    simp only [Item.unlabel, Item.logs, List.map_append, List.map_cons, List.map_nil,
      AstLog.unlabel, itemsUnlabel_logs items]

theorem itemsUnlabel_logs : ∀ items : List Item,
    itemsLogs (itemsUnlabel items) = (itemsLogs items).map AstLog.unlabel
  | [] => rfl
  | item :: items => by
    rw [itemsUnlabel, itemsLogs, itemsLogs, List.map_append, Item.unlabel_logs item,
      itemsUnlabel_logs items]

end

theorem segmentLogs_unlabel (pos : ℕ) (items : List Item) :
    segmentLogs pos (itemsUnlabel items) = (segmentLogs pos items).map AstLog.unlabel := by
  rw [segmentLogs, segmentLogs, List.map_cons, itemsUnlabel_logs]
  rfl

mutual

theorem Item.unlabel_links : ∀ item : Item,
    item.unlabel.links = item.links.map fun e => (0, e.2)
  | .new _ | .capture _ | .tag _ | .replace _ | .link _ _ | .leftFold _ _ => rfl
  | .group pos items labelId => by
    rw [Item.unlabel, Item.links, Item.links, itemsUnlabel_links items]

theorem itemsUnlabel_links : ∀ items : List Item,
    itemsLinks (itemsUnlabel items) = (itemsLinks items).map fun e => (0, e.2)
  | [] => rfl
  | item :: items => by
    rw [itemsUnlabel, itemsLinks, itemsLinks, List.map_append, Item.unlabel_links item,
      itemsUnlabel_links items]

end

def Reading.unlabel (r : Reading) : Reading := { r with children := forestUnlabel r.children }

theorem forestUnlabel_append (children children' : List (UInt16 × Tree)) :
    forestUnlabel (children ++ children') = forestUnlabel children ++ forestUnlabel children' := by
  induction children with
  | nil => rfl
  | cons child children ih =>
    rw [List.cons_append, forestUnlabel, ih, forestUnlabel, List.cons_append]

theorem Reading.unlabel_tree (r : Reading) : r.unlabel.tree = r.tree.unlabel := by
  rw [Reading.tree, Reading.tree, Tree.unlabel]
  rfl

mutual

theorem Item.unlabel_read (T : NodeId → Tree) : ∀ (item : Item) (r : Reading),
    item.unlabel.read (fun n => (T n).unlabel) r.unlabel = (item.read T r).unlabel
  | .new _, _ | .capture _, _ | .tag _, _ | .replace _, _ => rfl
  | .link labelId node, r => by
    simp only [Item.unlabel, Item.read, Reading.unlabel, forestUnlabel_append, forestUnlabel]
  | .leftFold pos labelId, r => by
    rw [Item.unlabel, Item.read, Item.read, Reading.unlabel_tree]
    rfl
  | .group pos items labelId, r => by
    have hstart : Reading.unlabel (.start pos) = .start pos := rfl
    have hinner := itemsUnlabel_read T items (.start pos)
    rw [hstart] at hinner
    simp only [Item.unlabel, Item.read, hinner, Reading.unlabel_tree]
    simp only [Reading.unlabel, forestUnlabel_append, forestUnlabel]

theorem itemsUnlabel_read (T : NodeId → Tree) : ∀ (items : List Item) (r : Reading),
    itemsRead (fun n => (T n).unlabel) (itemsUnlabel items) r.unlabel =
      (itemsRead T items r).unlabel
  | [], _ => rfl
  | item :: items, r => by
    rw [itemsUnlabel, itemsRead, itemsRead, Item.unlabel_read T item, itemsUnlabel_read T items]

end

theorem segmentTree_unlabel (T : NodeId → Tree) (pos : ℕ) (items : List Item) :
    segmentTree (fun n => (T n).unlabel) pos (itemsUnlabel items) =
      (segmentTree T pos items).unlabel := by
  rw [segmentTree, segmentTree, ← Reading.unlabel_tree, ← itemsUnlabel_read]
  rfl

end Trees

end Moz
