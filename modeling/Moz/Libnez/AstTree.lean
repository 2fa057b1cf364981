import Moz.Libnez.Ast

/-!
# Log segments and the trees they describe

A segment is a `New` followed by items. Reading its items from left to right gives
the tree the segment stands for; `IsTree` says that a node of the pool is the root
of a given tree. The label of a child is kept in the child.
-/

namespace Moz

/-- A syntax tree; each child comes with the label it is linked under. -/
inductive Tree
  | node (tag value : Option (List UInt8)) (pos : ℕ) (len : UInt32)
      (children : List (UInt16 × Tree))

/-- An item of a well-formed segment. A group is `Push (New pos) items (Pop labelId)`. -/
inductive Item
  | new (pos : ℕ)
  | capture (pos : ℕ)
  | tag (tag : Option (List UInt8))
  | replace (str : Option (List UInt8))
  | link (labelId : UInt16) (node : NodeId)
  | leftFold (pos : ℕ) (labelId : UInt16)
  | group (pos : ℕ) (items : List Item) (labelId : UInt16)

mutual

def Item.logs : Item → List AstLog
  | .new pos => [.new pos]
  | .capture pos => [.capture pos]
  | .tag tag => [.tag tag]
  | .replace str => [.replace str]
  | .link labelId node => [.link labelId (some node) 0]
  | .leftFold pos labelId => [.leftFold pos labelId]
  | .group pos items labelId => .push :: .new pos :: itemsLogs items ++ [.pop labelId]

def itemsLogs : List Item → List AstLog
  | [] => []
  | item :: items => item.logs ++ itemsLogs items

end

/-- The log entries of the segment that starts at `pos`. -/
def segmentLogs (pos : ℕ) (items : List Item) : List AstLog := .new pos :: itemsLogs items

mutual

/-- The links of an item, those inside its groups included. -/
def Item.links : Item → List (UInt16 × NodeId)
  | .link labelId node => [(labelId, node)]
  | .group _ items _ => itemsLinks items
  | _ => []

def itemsLinks : List Item → List (UInt16 × NodeId)
  | [] => []
  | item :: items => item.links ++ itemsLinks items

end

structure Reading where
  spos : ℕ
  epos : ℕ
  tag : Option (List UInt8) := none
  value : Option (List UInt8) := none
  children : List (UInt16 × Tree) := []

/-- A reading that has just seen `New pos`. -/
def Reading.start (pos : ℕ) : Reading := { spos := pos, epos := pos }

def Reading.tree (r : Reading) : Tree :=
  .node r.tag r.value r.spos (UInt32.ofInt ((r.epos : ℤ) - r.spos)) r.children

mutual

/-- Reading one item, where `T` gives the trees of the linked nodes. -/
def Item.read (T : NodeId → Tree) : Item → Reading → Reading
  | .new pos, _ => .start pos
  | .capture pos, r => { r with epos := pos }
  | .tag tag, r => { r with tag := tag }
  | .replace str, r => { r with value := str }
  | .link labelId node, r => { r with children := r.children ++ [(labelId, T node)] }
  | .leftFold pos labelId, r =>
    { spos := pos, epos := r.epos, children := [(labelId, r.tree)] }
  | .group pos items labelId, r =>
    { r with children := r.children ++ [(labelId, (itemsRead T items (.start pos)).tree)] }

def itemsRead (T : NodeId → Tree) : List Item → Reading → Reading
  | [], r => r
  | item :: items, r => itemsRead T items (item.read T r)

end

def segmentTree (T : NodeId → Tree) (pos : ℕ) (items : List Item) : Tree :=
  (itemsRead T items (.start pos)).tree

mutual

/-- Node `n` of the pool is the root of the given tree. -/
def IsTree (H : Heap) : NodeId → Tree → Prop
  | n, .node tag value pos len children =>
    (H.mem n).tag = tag ∧ (H.mem n).value = value ∧ (H.mem n).pos = pos ∧ (H.mem n).len = len ∧
      IsForest H (H.mem n).entry children

/-- The child array holds the roots of the given trees, in order and under their labels. -/
def IsForest (H : Heap) : List (Option NodeId) → List (UInt16 × Tree) → Prop
  | [], [] => True
  | some n :: entry, (labelId, t) :: children =>
    (H.mem n).labelId = labelId ∧ IsTree H n t ∧ IsForest H entry children
  | _, _ => False

end

mutual

/-- A tree only depends on the nodes below its root, counts apart. -/
theorem IsTree.congr {H H' : Heap} {K : Finset NodeId}
    (hclosed : ∀ m ∈ K, ∀ n, some n ∈ (H.mem m).entry → n ∈ K)
    (hsame : ∀ m ∈ K, (H'.mem m).tag = (H.mem m).tag ∧ (H'.mem m).value = (H.mem m).value ∧
      (H'.mem m).pos = (H.mem m).pos ∧ (H'.mem m).len = (H.mem m).len ∧
      (H'.mem m).entry = (H.mem m).entry)
    (hlabel : ∀ m ∈ K, ∀ n, some n ∈ (H.mem m).entry → (H'.mem n).labelId = (H.mem n).labelId) :
    ∀ (t : Tree) (n : NodeId), n ∈ K → IsTree H n t → IsTree H' n t
  | .node tag value pos len children, n, hn, h => by
    obtain ⟨htag, hvalue, hpos, hlen, hentry⟩ := hsame n hn
    rw [IsTree] at h ⊢
    rw [htag, hvalue, hpos, hlen, hentry]
    refine ⟨h.1, h.2.1, h.2.2.1, h.2.2.2.1, ?_⟩
    exact IsForest.congr hclosed hsame hlabel children _ (hclosed n hn) (hlabel n hn) h.2.2.2.2

theorem IsForest.congr {H H' : Heap} {K : Finset NodeId}
    (hclosed : ∀ m ∈ K, ∀ n, some n ∈ (H.mem m).entry → n ∈ K)
    (hsame : ∀ m ∈ K, (H'.mem m).tag = (H.mem m).tag ∧ (H'.mem m).value = (H.mem m).value ∧
      (H'.mem m).pos = (H.mem m).pos ∧ (H'.mem m).len = (H.mem m).len ∧
      (H'.mem m).entry = (H.mem m).entry)
    (hlabel : ∀ m ∈ K, ∀ n, some n ∈ (H.mem m).entry → (H'.mem n).labelId = (H.mem n).labelId) :
    ∀ (children : List (UInt16 × Tree)) (entry : List (Option NodeId)),
      (∀ n, some n ∈ entry → n ∈ K) →
      (∀ n, some n ∈ entry → (H'.mem n).labelId = (H.mem n).labelId) →
      IsForest H entry children → IsForest H' entry children
  | [], [], _, _, _ => by
    rw [IsForest]
    trivial
  | (labelId, t) :: children, some n :: entry, hmem, hlab, h => by
    rw [IsForest] at h ⊢
    refine ⟨?_, ?_, ?_⟩
    · rw [hlab n (by simp), h.1]
    · exact IsTree.congr hclosed hsame hlabel t n (hmem n (by simp)) h.2.1
    · exact IsForest.congr hclosed hsame hlabel children entry
        (fun m hm => hmem m (by simp [hm])) (fun m hm => hlab m (by simp [hm])) h.2.2
  | _ :: _, [], _, _, h => by simp [IsForest] at h
  | [], _ :: _, _, _, h => by simp [IsForest] at h
  | _ :: _, none :: _, _, _, h => by simp [IsForest] at h

end

end Moz
