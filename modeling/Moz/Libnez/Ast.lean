import Moz.Node.Heap

/-!
# The AST machine

`ast.c`. A log entry is its `AstLogType` with the members of the unions that the
type makes meaningful; only links carry a distance other than zero. The loops of
`ast_create_node` and `constructLeft` run over indices of the log and are given
one unit of fuel for each entry.
-/

namespace Moz

/-- `AstLog`. -/
inductive AstLog
  | tag (tag : Option (List UInt8))
  | pop (labelId : UInt16)
  | replace (str : Option (List UInt8))
  | push
  | leftFold (pos : ℕ) (labelId : UInt16)
  | new (pos : ℕ)
  | link (labelId : UInt16) (node : Option NodeId) (shift : ℕ)
  | capture (pos : ℕ)
  deriving DecidableEq, Repr

/-- `AstMachine`, together with the node pool. -/
structure AstMachine where
  logs : List AstLog := []
  lastLinked : Option NodeId := none
  parsed : Option NodeId := none
  heap : Heap := {}

def astLog (ast : AstMachine) (log : AstLog) : AstMachine := { ast with logs := ast.logs ++ [log] }

def astLogNew (ast : AstMachine) (pos : ℕ) : AstMachine := astLog ast (.new pos)

def astLogCapture (ast : AstMachine) (pos : ℕ) : AstMachine := astLog ast (.capture pos)

def astLogTag (ast : AstMachine) (tag : Option (List UInt8)) : AstMachine := astLog ast (.tag tag)

def astLogReplace (ast : AstMachine) (str : Option (List UInt8)) : AstMachine :=
  astLog ast (.replace str)

def astLogSwap (ast : AstMachine) (pos : ℕ) (labelId : UInt16) : AstMachine :=
  astLog ast (.leftFold pos labelId)

def astLogPush (ast : AstMachine) : AstMachine := astLog ast .push

def astLogPop (ast : AstMachine) (labelId : UInt16) : AstMachine := astLog ast (.pop labelId)

def astLogLink (ast : AstMachine) (labelId : UInt16) (node : Option NodeId) : AstMachine :=
  let heap := match node with
    | some node => nodeRetain ast.heap node
    | none => ast.heap
  { astLog { ast with heap := heap } (.link labelId node 0) with lastLinked := node }

def astSaveTx (ast : AstMachine) : ℕ := ast.logs.length

/-- One entry of the loop of `ast_rollback_tx`. -/
def astRollbackEntry (heap : Heap) : AstLog → Option Heap
  | .link _ (some o) _ => nodeRelease heap o
  | _ => some heap

/-- `ast_rollback_tx`; a log that is shorter than `tx` would get back stale entries. -/
def astRollbackTx (ast : AstMachine) (tx : ℕ) : Option AstMachine := do
  guard (tx ≤ ast.logs.length)
  let heap ← (ast.logs.drop tx).foldlM astRollbackEntry ast.heap
  return { ast with heap := heap, logs := ast.logs.take tx }

/-- The loop of `constructLeft` over the entries from `cur` to `tail`. -/
def constructLeftLoop (logs : List AstLog) (tail : ℕ) (newnode : NodeId) :
    ℕ → Heap → ℕ → ℕ → Option Heap
  | 0, _, _, _ => none
  | fuel + 1, heap, cur, n =>
    if tail < cur then some heap
    else
      match logs[cur]? with
      | some (.link labelId child shift) => do
        let heap ← match child with
          | some child => nodeSet heap newnode n labelId child
          | none => some heap
        constructLeftLoop logs tail newnode fuel heap (cur + shift + 1) (n + 1)
      | _ => constructLeftLoop logs tail newnode fuel heap (cur + 1) n

/-- The local variables of `ast_create_node` that the loop changes, `cur` apart. -/
structure CreateNode where
  head : ℕ
  spos : ℕ
  epos : ℕ
  objSize : ℕ := 0
  tag : Option (List UInt8) := none
  value : Option (List UInt8) := none

/-- `constructLeft` on the local variables `L` of `ast_create_node`. -/
def constructLeft (ast : AstMachine) (L : CreateNode) (tail : ℕ) : Option (AstMachine × NodeId) := do
  let len := UInt32.ofInt ((L.epos : ℤ) - L.spos)
  let (heap, newnode) := nodeNew ast.heap L.tag L.spos len L.objSize L.value
  if L.objSize = 0 then
    return ({ ast with heap := heap }, newnode)
  else
    let heap ← constructLeftLoop ast.logs tail newnode (ast.logs.length + 2) heap L.head 0
    return ({ ast with heap := heap }, newnode)

/-- `GetPos`: the position of an entry, which the callers take from a `New`. -/
def AstLog.getPos : AstLog → ℕ
  | .new pos | .capture pos | .leftFold pos _ => pos
  | _ => 0

/-- `*cur = log`. -/
def AstMachine.setLog (ast : AstMachine) (cur : ℕ) (log : AstLog) : AstMachine :=
  { ast with logs := ast.logs.set cur log }

/-- The loop of `ast_create_node`; `pushed` is the index of the `Push` it was called for. -/
def astCreateNodeLoop : ℕ → AstMachine → Option ℕ → ℕ → CreateNode → Option (AstMachine × NodeId)
  | 0, _, _, _, _ => none
  | fuel + 1, ast, pushed, cur, L =>
    match ast.logs[cur]? with
    | none => constructLeft ast L (ast.logs.length - 1)
    | some (.new pos) =>
      astCreateNodeLoop fuel ast pushed (cur + 1) { head := cur, spos := pos, epos := pos }
    | some (.capture pos) => astCreateNodeLoop fuel ast pushed (cur + 1) { L with epos := pos }
    | some (.tag tag) => astCreateNodeLoop fuel ast pushed (cur + 1) { L with tag := tag }
    | some (.replace str) => astCreateNodeLoop fuel ast pushed (cur + 1) { L with value := str }
    | some (.leftFold pos labelId) => do
      let (ast, tmp) ← constructLeft ast L cur
      let ast := { ast with heap := nodeRetain ast.heap tmp }
      let ast := ast.setLog cur (.link labelId (some tmp) 0)
      astCreateNodeLoop fuel ast pushed (cur + 1)
        { L with head := cur, spos := pos, objSize := 1, tag := none, value := none }
    | some (.pop labelId) => do
      let pushed ← pushed
      let (ast, tmp) ← constructLeft ast L cur
      let ast := { ast with heap := nodeRetain ast.heap tmp }
      return (ast.setLog pushed (.link labelId (some tmp) (cur - pushed)), tmp)
    | some .push => do
      let pos := ((ast.logs[cur + 1]?).map AstLog.getPos).getD 0
      let (ast, _) ← astCreateNodeLoop fuel ast (some cur) (cur + 1)
        { head := cur + 1, spos := pos, epos := pos }
      match ast.logs[cur]? with
      | some (.link _ _ shift) =>
        astCreateNodeLoop fuel ast pushed (cur + shift + 1) { L with objSize := L.objSize + 1 }
      | _ => none
    | some (.link _ _ shift) =>
      astCreateNodeLoop fuel ast pushed (cur + shift + 1) { L with objSize := L.objSize + 1 }

def astCreateNode (ast : AstMachine) (cur : ℕ) (pushed : Option ℕ) :
    Option (AstMachine × NodeId) :=
  let pos := ((ast.logs[cur]?).map AstLog.getPos).getD 0
  astCreateNodeLoop (ast.logs.length + 1) ast pushed cur { head := cur, spos := pos, epos := pos }

def astCommitTx (ast : AstMachine) (labelId : UInt16) (tx : ℕ) : Option AstMachine := do
  let (ast, node) ← astCreateNode ast tx none
  let ast ← astRollbackTx ast tx
  return astLogLink ast labelId (some node)

/-- The loop of `ast_get_parsed_node` that looks for the first `New`. -/
def astFirstNew : List AstLog → ℕ → Option ℕ
  | [], _ => none
  | .new _ :: _, cur => some cur
  | _ :: logs, cur => astFirstNew logs (cur + 1)

/-- `ast_get_parsed_node`; retaining `NULL` when no entry is a `New` fails. -/
def astGetParsedNode (ast : AstMachine) : Option (AstMachine × Option NodeId) :=
  match ast.parsed with
  | some parsed => some (ast, some parsed)
  | none =>
    if ast.logs = [] then some (ast, none)
    else do
      let cur ← astFirstNew ast.logs 0
      let (ast, parsed) ← astCreateNode ast cur none
      let ast ← astRollbackTx ast 0
      let ast := { ast with heap := nodeRetain ast.heap parsed, parsed := some parsed }
      return (ast, some parsed)

end Moz
