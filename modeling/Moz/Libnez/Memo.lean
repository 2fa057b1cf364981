import Moz.Core.Capacity
import Moz.Node.Heap

/-!
# The memo table

`memo.c` with `MOZVM_MEMO_TYPE_ELASTIC`. The union of `result` and `failed` is a
value that is null, a node, or the mark `MEMO_ENTRY_FAILED`. Positions are input
addresses.
-/

namespace Moz

/-- The union of `MemoEntry_t`. -/
inductive MemoResult
  | null
  | result (node : NodeId)
  | failed
  deriving DecidableEq, Repr

/-- `MemoEntry_t`. -/
structure MemoEntry where
  hash : UInt64 := 0
  result : MemoResult := .null
  consumed : UInt32 := 0
  state : UInt32 := 0
  deriving DecidableEq, Repr

/-- `struct memo`. -/
structure Memo where
  ary : List MemoEntry := []
  shift : UInt32 := 0
  mask : UInt32 := 0
  deriving DecidableEq, Repr

/-- The logarithm rounded up, for two or more. -/
def ceilLog2 (n : UInt32) : UInt32 := UInt32.ofNat (n - 1).toNat.size

/-- The table that `memo_init` makes where it is defined. -/
def memoTable (w n : UInt32) : Memo where
  ary := List.replicate (w * (1 <<< ceilLog2 n)).toNat {}
  mask := w * (1 <<< ceilLog2 n) - 1
  shift := ceilLog2 n + 1

/-- `memo_elastic_init`, undefined where `LOG2` or the shift is. -/
def memoElasticInit (w n : UInt32) : Option Memo := do
  let log ← Core.LOG2 n.toNat
  let one ← Core.shiftOne log
  let len := w * UInt32.ofNat one
  return { ary := List.replicate len.toNat {}, mask := len - 1, shift := UInt32.ofNat log + 1 }

/-- The hash of `memo_elastic_*`. -/
def Memo.hash (m : Memo) (pos : UInt64) (memoId : UInt32) : UInt64 :=
  (pos <<< m.shift.toUInt64) ||| memoId.toUInt64

/-- The index of `memo_elastic_*`. -/
def Memo.index (m : Memo) (pos : UInt64) (memoId : UInt32) : ℕ :=
  ((m.hash pos memoId) &&& m.mask.toUInt64).toUInt32.toNat

def memoRelease (heap : Heap) (e : MemoEntry) : Option Heap :=
  match e.result with
  | .result node => nodeRelease heap node
  | .null | .failed => some heap

def memoSet (m : Memo) (heap : Heap) (pos : UInt64) (memoId : UInt32) (result : Option NodeId)
    (consumed state : UInt32) : Option (Memo × Heap) := do
  let heap := match result with
    | some node => nodeRetain heap node
    | none => heap
  let e ← m.ary[m.index pos memoId]?
  let heap ← memoRelease heap e
  let e := { e with
    hash := m.hash pos memoId
    consumed := consumed
    state := state
    result := match result with
      | some node => .result node
      | none => .null }
  return ({ m with ary := m.ary.set (m.index pos memoId) e }, heap)

def memoFail (m : Memo) (heap : Heap) (pos : UInt64) (memoId : UInt32) :
    Option (Memo × Heap) := do
  let old ← m.ary[m.index pos memoId]?
  let heap ← memoRelease heap old
  let e := { old with hash := m.hash pos memoId, result := .failed }
  return ({ m with ary := m.ary.set (m.index pos memoId) e }, heap)

/-- `memo_dispose`, of which the pool is left. -/
def memoDispose (m : Memo) (heap : Heap) : Option Heap := m.ary.foldlM memoRelease heap

/-- `memo_get`; a miss is `none`. -/
def memoGet (m : Memo) (pos : UInt64) (memoId : UInt32) (state : UInt8) : Option MemoEntry := do
  let e ← m.ary[m.index pos memoId]?
  if e.hash = m.hash pos memoId ∧ e.state = state.toUInt32 then some e else none

end Moz
