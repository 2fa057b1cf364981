import Moz.Compiler.Lowering

/-!
# The CFG simplifier

`simplify_cfg`, `remove_indirect_jump_handler` and the worklist that drives them.
A worklist is the array of `worklist.h`: `push` adds a block once at the end and
`pop` takes the last one. The loops run on fuel, one unit for each `pop` and one
for each round of `moz_ir_optimize`.
-/

namespace Moz.Compiler

abbrev WorkList := List BlockId

def workListPush (W : WorkList) (bb : BlockId) : WorkList := arrayAddOnce W bb

def blockGetTerminator (C : MozCompiler) (bb : BlockId) : Option Ir :=
  (C.blockGetLast bb).filter fun ir => ir.op.isTerminator

/-- The instruction a block ends with, when it is an `IJump`. -/
def blockGetJump (C : MozCompiler) (bb : BlockId) : Option Ir :=
  (blockGetTerminator C bb).filter fun ir => ir.op matches .iJump _

def removeFromParent (C : MozCompiler) (inst : Ir) : MozCompiler :=
  C.blockRemove inst.parent inst

/-- `((IJump_t *)term)->v.target = succ`, for a jump that stands in `bb`. -/
def setJumpTarget (C : MozCompiler) (bb : BlockId) (term : Ir) (succ : BlockId) : MozCompiler :=
  C.setBlock bb { C.mem bb with
    insts := (C.mem bb).insts.map fun x => if x.addr = term.addr then { x with op := .iJump succ } else x }

/-- `ARRAY_size(bb->insts) = 0; ARRAY_remove_element(C->blocks, bb)`. -/
def dropBlock (C : MozCompiler) (bb : BlockId) : MozCompiler :=
  { C.setBlock bb { C.mem bb with insts := [] } with blocks := C.blocks.erase bb }

/-- What a loop over `bb->preds` carries: the compiler, the worklist and `modified`. -/
abbrev MergeState := MozCompiler × WorkList × ℕ

/-- One round of the loop that copies the body of `bb` before the jump of `pred`. -/
def mergeJumpIntoPred (bb succ : BlockId) (inst : Ir) (st : MergeState) (pred : BlockId) :
    MergeState :=
  let (C, W, modified) := st
  if pred = bb then st
  else
    match blockGetJump C pred with
    | none => st
    | some term =>
      let C := (C.mem bb).insts.foldl
        (fun C x => if x.addr = inst.addr then C else C.blockInsertBefore pred term x) C
      let C := setJumpTarget C pred term succ
      let C := C.blockSetType pred (C.mem bb).type
      let C := C.blockUnlink pred bb
      let C := C.blockLink pred succ
      (C, workListPush W pred, modified + 1)

/-- One round of the loop that copies the exit block `bb` in place of the jump of `pred`. -/
def mergeExitIntoPred (bb : BlockId) (st : MergeState) (pred : BlockId) : MergeState :=
  let (C, W, modified) := st
  match blockGetJump C pred with
  | none => st
  | some term =>
    let C := (C.mem bb).insts.foldl (fun C x => C.blockInsertBefore pred term x) C
    let C := removeFromParent C term
    let C := C.blockSetType pred (C.mem bb).type
    let C := C.blockUnlink pred bb
    (C, workListPush W pred, modified + 1)

/-- The blocks `simplify_cfg` skips. -/
def BlockType.isSpecial (t : BlockType) : Bool := t.entry || t.fail || t.loopHead || t.handler

/-- `simplify_cfg`; the last component is its result. -/
def simplifyCfg (C : MozCompiler) (W : WorkList) (bb : BlockId) : MozCompiler × WorkList × Bool :=
  let blk := C.mem bb
  if blk.insts = [] then (C, W, false)
  else if blk.type.isSpecial then (C, W, false)
  else if bb ∈ blk.preds then (C, W, false)
  else
    match blockGetTerminator C bb with
    | none => (C, W, false)
    | some inst =>
      match blk.succs, inst.op with
      | [succ], .iJump _ =>
        let (C, W, modified) := blk.preds.reverse.foldl (mergeJumpIntoPred bb succ inst) (C, W, 0)
        let C :=
          if modified = blk.preds.length then
            dropBlock (removeFromParent (C.blockUnlink bb succ) inst) bb
          else C
        if 0 < modified then (C, workListPush W succ, true) else (C, W, false)
      | _, .iRet =>
        let (C, W, modified) := blk.preds.reverse.foldl (mergeExitIntoPred bb) (C, W, 0)
        let C := if modified = blk.preds.length then { C with blocks := C.blocks.erase bb } else C
        (C, W, decide (0 < modified))
      | _, _ => (C, W, false)

/-- `(*x)->fail = succ` for every instruction of a listed block whose fail edge is `bb`. -/
def redirectFail (C : MozCompiler) (bb succ : BlockId) : MozCompiler :=
  { C with mem := fun b =>
      if b ∈ C.blocks then
        { C.mem b with
          insts := (C.mem b).insts.map fun x => if x.fail = bb then { x with fail := succ } else x }
      else C.mem b }

/-- `remove_indirect_jump_handler`; the last component is its result. -/
def removeIndirectJumpHandler (C : MozCompiler) (W : WorkList) (bb : BlockId) :
    MozCompiler × WorkList × Bool :=
  let blk := C.mem bb
  match blk.succs, blk.preds, blk.insts with
  | [succ], [], [inst@{ op := .iJump _, .. }] =>
    if (C.mem succ).preds.length ≠ 1 then (C, W, false)
    else
      let C := dropBlock (removeFromParent (C.blockUnlink bb succ) inst) bb
      (redirectFail C bb succ, workListPush W succ, true)
  | _, _, _ => (C, W, false)

/-- `WORK_LIST_apply` from a filled worklist: whether any call changed something. -/
def workListApply (func : MozCompiler → WorkList → BlockId → MozCompiler × WorkList × Bool) :
    ℕ → MozCompiler → WorkList → Bool → Option (MozCompiler × Bool)
  | 0, _, _, _ => none
  | fuel + 1, C, W, modified =>
    match W.getLast? with
    | none => some (C, modified)
    | some bb =>
      let (C, W, m) := func C W.dropLast bb
      workListApply func fuel C W (modified || m)

def addAllBlocks (C : MozCompiler) : WorkList := C.blocks.foldl workListPush []

def addHandlerBlock (C : MozCompiler) : WorkList :=
  (C.blocks.filter fun bb => (C.mem bb).type.handler).foldl workListPush []

def mozIrOptimize : ℕ → MozCompiler → Option MozCompiler
  | 0, _ => none
  | fuel + 1, C => do
    let (C, m₁) ← workListApply simplifyCfg fuel C (addAllBlocks C) false
    let (C, m₂) ← workListApply removeIndirectJumpHandler fuel C (addHandlerBlock C) false
    if m₁ || m₂ then mozIrOptimize fuel C else some C

end Moz.Compiler
