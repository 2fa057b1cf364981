import Moz.Compiler.Ir

/-!
# Basic blocks and the compiler state

`moz_compiler_t` together with the memory its blocks live in. `mem` is indexed by
block id, `blocks` is `C->blocks`; the two static counters `max_block_id` and
`_MAX_IR_ID` are fields. Two occurrences of an instruction are the same object
exactly when their addresses agree, and the edits below are those of `block.c`.
-/

namespace Moz.Compiler

/-- `enum block_type`: the flags a block has collected. -/
structure BlockType where
  dflt : Bool := false
  entry : Bool := false
  exit : Bool := false
  fail : Bool := false
  handler : Bool := false
  loopHead : Bool := false
  deriving DecidableEq, Repr

namespace BlockType

def blockDefault : BlockType := { dflt := true }
def blockEntry : BlockType := { entry := true }
def blockExit : BlockType := { exit := true }
def blockFail : BlockType := { fail := true }
def blockHandler : BlockType := { handler := true }
def blockLoopHead : BlockType := { loopHead := true }

/-- `type |= other`. -/
def union (a b : BlockType) : BlockType where
  dflt := a.dflt || b.dflt
  entry := a.entry || b.entry
  exit := a.exit || b.exit
  fail := a.fail || b.fail
  handler := a.handler || b.handler
  loopHead := a.loopHead || b.loopHead

end BlockType

/-- `block_t`, without the id that addresses it. -/
structure Block where
  type : BlockType := {}
  insts : List Ir := []
  preds : List BlockId := []
  succs : List BlockId := []
  deriving DecidableEq, Repr

/-- `decl_t`: the reference count, the body and the entry block. -/
structure Decl where
  refc : ℕ := 1
  body : Expr
  inst : Option BlockId := none

/-- `moz_compiler_t`. -/
structure MozCompiler where
  decls : List Decl
  blocks : List BlockId := []
  strs : List (List UInt8) := []
  tags : List (List UInt8) := []
  sets : List Bitset := []
  mem : BlockId → Block := fun _ => {}
  maxBlockId : ℕ := 0
  maxIrId : ℕ := 0

def arrayAddOnce {α : Type} [DecidableEq α] (a : List α) (v : α) : List α :=
  if v ∈ a then a else a ++ [v]

namespace MozCompiler

/-- Overwrite the block `bb` points to. -/
def setBlock (C : MozCompiler) (bb : BlockId) (block : Block) : MozCompiler :=
  { C with mem := fun b => if b = bb then block else C.mem b }

def blockSetType (C : MozCompiler) (bb : BlockId) (type : BlockType) : MozCompiler :=
  C.setBlock bb { C.mem bb with type := (C.mem bb).type.union type }

def blockNew (C : MozCompiler) (type : BlockType) : MozCompiler × BlockId :=
  let bb := C.maxBlockId
  ({ C with maxBlockId := bb + 1 }.setBlock bb { type := type }, bb)

def blockLink (C : MozCompiler) (pred succ : BlockId) : MozCompiler :=
  let C := C.setBlock pred
    { C.mem pred with succs := arrayAddOnce (C.mem pred).succs succ }
  C.setBlock succ { C.mem succ with preds := arrayAddOnce (C.mem succ).preds pred }

def blockUnlink (C : MozCompiler) (pred succ : BlockId) : MozCompiler :=
  let C := C.setBlock pred { C.mem pred with succs := (C.mem pred).succs.erase succ }
  C.setBlock succ { C.mem succ with preds := (C.mem succ).preds.erase pred }

def blockAppend (C : MozCompiler) (bb : BlockId) (inst : Ir) : MozCompiler :=
  C.setBlock bb { C.mem bb with insts := (C.mem bb).insts ++ [{ inst with parent := bb }] }

def blockRemove (C : MozCompiler) (bb : BlockId) (inst : Ir) : MozCompiler :=
  C.setBlock bb { C.mem bb with insts := (C.mem bb).insts.eraseP (·.addr == inst.addr) }

def blockInsertBefore (C : MozCompiler) (bb : BlockId) (target inst : Ir) : MozCompiler :=
  let idx := (C.mem bb).insts.findIdx (·.addr == target.addr)
  C.setBlock bb { C.mem bb with insts := (C.mem bb).insts.insertIdx idx inst }

def blockGetLast (C : MozCompiler) (bb : BlockId) : Option Ir := (C.mem bb).insts.getLast?

end MozCompiler

end Moz.Compiler
