import Mathlib.Data.List.ReduceOption
import Moz.Lib.RefCount

/-!
# Nodes and the node pool

`node.c` with reference counts. The pool is a memory indexed by node id, the free
list, and the id at which the nodes begin that no page has handed out yet; a page
is taken node by node when the free list is empty. A child array is a list of
nullable pointers in both of its representations. `Node_sweep` recurses on fuel;
`nodeRelease` is given more fuel than there are nodes.
-/

namespace Moz

abbrev NodeId := ℕ

/-- `struct Node`. A `const char *` is `NULL` or the bytes it points to. -/
structure Node where
  refc : ℤ := 0
  tag : Option (List UInt8) := none
  pos : ℕ := 0
  value : Option (List UInt8) := none
  len : UInt32 := 0
  labelId : UInt16 := 0
  entry : List (Option NodeId) := []
  deriving DecidableEq, Repr

structure Heap where
  mem : NodeId → Node := fun _ => {}
  freeList : List NodeId := []
  next : NodeId := 0

namespace Heap

def set (H : Heap) (o : NodeId) (node : Node) : Heap :=
  { H with mem := fun n => if n = o then node else H.mem n }

def refc (H : Heap) (o : NodeId) : ℤ := (H.mem o).refc

theorem refc_def (H : Heap) (o : NodeId) : H.refc o = (H.mem o).refc := rfl

def children (H : Heap) (o : NodeId) : List NodeId := (H.mem o).entry.reduceOption

@[simp] theorem set_mem_self (H : Heap) (o : NodeId) (node : Node) :
    (H.set o node).mem o = node := by
  simp [set]

theorem set_mem_of_ne (H : Heap) {o n : NodeId} (node : Node) (h : n ≠ o) :
    (H.set o node).mem n = H.mem n := by
  simp [set, h]

theorem set_self (H : Heap) {o : NodeId} {node : Node} (h : H.mem o = node) : H.set o node = H := by
  have hmem : (fun n => if n = o then node else H.mem n) = H.mem := by
    funext n
    by_cases hn : n = o
    · rw [if_pos hn, hn, h]
    · rw [if_neg hn]
  rw [set, hmem]

theorem set_set (H : Heap) (o : NodeId) (node node' : Node) :
    (H.set o node).set o node' = H.set o node' := by
  have hmem : (fun n => if n = o then node' else (H.set o node).mem n) =
      fun n => if n = o then node' else H.mem n := by
    funext n
    by_cases hn : n = o
    · rw [if_pos hn, if_pos hn]
    · rw [if_neg hn, if_neg hn, set_mem_of_ne H node hn]
  rw [set, hmem]
  rfl

end Heap

def nodeAlloc (H : Heap) : Heap × NodeId :=
  match H.freeList with
  | o :: freeList => ({ H with freeList := freeList }, o)
  | [] => ({ H with next := H.next + 1 }, H.next)

/-- The fields `Node_new` writes; the label stays what the memory held before. -/
def nodeInit (labelId : UInt16) (tag : Option (List UInt8)) (str : ℕ) (len : UInt32)
    (elmSize : ℕ) (value : Option (List UInt8)) : Node where
  refc := 0
  tag := tag
  pos := str
  value := value
  len := len
  labelId := labelId
  entry := List.replicate elmSize none

def nodeNew (H : Heap) (tag : Option (List UInt8)) (str : ℕ) (len : UInt32) (elmSize : ℕ)
    (value : Option (List UInt8)) : Heap × NodeId :=
  let (H, o) := nodeAlloc H
  (H.set o (nodeInit (H.mem o).labelId tag str len elmSize value), o)

def nodeLength (H : Heap) (o : NodeId) : ℕ := (H.mem o).entry.length

def nodeGet (H : Heap) (o : NodeId) (index : ℕ) : Option NodeId :=
  ((H.mem o).entry[index]?).getD none

/-- `NODE_GC_RETAIN`. -/
def nodeRetain (H : Heap) (o : NodeId) : Heap :=
  H.set o { H.mem o with refc := (H.mem o).refc + 1 }

/-- The decrement of `NODE_GC_RELEASE`. -/
def nodeUnref (H : Heap) (o : NodeId) : Heap :=
  H.set o { H.mem o with refc := (H.mem o).refc - 1 }

def nodeFree (H : Heap) (o : NodeId) : Heap :=
  { H.set o { H.mem o with refc := -1 } with freeList := o :: H.freeList }

/-- The loop of `Node_sweep` over the children, with the release it calls. -/
def nodeSweepChildren (release : Heap → NodeId → Option Heap) (H : Heap)
    (entry : List (Option NodeId)) : Option Heap :=
  entry.foldlM (fun H node =>
    match node with
    | some node => release H node
    | none => some H) H

/-- `NODE_GC_RELEASE` with `Node_sweep` in place. -/
def nodeReleaseFuel : ℕ → Heap → NodeId → Option Heap
  | 0, _, _ => none
  | fuel + 1, H, o => do
    let H := nodeUnref H o
    if (H.mem o).refc = 0 then
      let H ← nodeSweepChildren (nodeReleaseFuel fuel) H (H.mem o).entry
      return nodeFree H o
    else
      return H

def nodeRelease (H : Heap) (o : NodeId) : Option Heap := nodeReleaseFuel (H.next + 1) H o

def nodeAppend (H : Heap) (o : NodeId) (n : Option NodeId) : Heap :=
  let H := match n with
    | some n => nodeRetain H n
    | none => H
  H.set o { H.mem o with entry := (H.mem o).entry ++ [n] }

/-- The loop of `Node_set` that appends `NULL` up to `index`. -/
def nodeAppendNull (H : Heap) (o : NodeId) : ℕ → Heap
  | 0 => H
  | k + 1 => nodeAppendNull (nodeAppend H o none) o k

def nodeSet (H : Heap) (o : NodeId) (index : ℕ) (labelId : UInt16) (n : NodeId) :
    Option Heap := do
  let v := nodeGet H o index
  let H := nodeRetain H n
  let H ← match v with
    | some v => nodeRelease H v
    | none => some H
  let H := H.set n { H.mem n with labelId := labelId }
  let H := nodeAppendNull H o (index + 1 - nodeLength H o)
  return H.set o { H.mem o with entry := (H.mem o).entry.set index (some n) }

end Moz
