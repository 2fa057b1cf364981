import Moz.Compiler.Expression

/-!
# IR instructions

`IR_t` objects are values that carry their address, so that two occurrences of one
object are two values with one address. `Op` is the instruction type with the fields
of its own struct; the kinds that no lowering function creates and that have no
encoder (`TODO`) are left out. `opcode` is the position in `FOR_EACH_IR`.
-/

namespace Moz.Compiler

/-- A `block_t *`: the id the block was created with. -/
abbrev BlockId := ℕ

/-- `ir_type_t` together with the fields of the instruction's own struct. -/
inductive Op
  | iLabel
  | iJump (target : BlockId)
  | iInvoke (decl : ℕ)
  | iPLoad
  | iPStore
  | iRet
  | iFail
  | iAny
  | iByte (byte : UInt8)
  | iStr (strId : UInt16)
  | iSet (setId : UInt16)
  | iNAny
  | iNByte (byte : UInt8)
  | iNStr (strId : UInt16)
  | iNSet (setId : UInt16)
  | iRByte (byte : UInt8)
  | iRAny
  | iRStr (strId : UInt16)
  | iRSet (setId : UInt16)
  | iOByte (byte : UInt8)
  | iOStr (strId : UInt16)
  | iOSet (setId : UInt16)
  | iTPush
  | iTPop (tagId : UInt16)
  | iTNew (shift : Int8)
  | iTCapture (shift : Int8)
  | iTTag (tagId : UInt16)
  deriving DecidableEq, Repr

/-- `ir->type` as the byte that `moz_ir_encode` writes. -/
def Op.opcode : Op → UInt8
  | iLabel => 0
  | iJump _ => 2
  | iInvoke _ => 4
  | iPLoad => 5
  | iPStore => 6
  | iRet => 7
  | iFail => 8
  | iAny => 9
  | iByte _ => 10
  | iStr _ => 11
  | iSet _ => 12
  | iNAny => 15
  | iNByte _ => 16
  | iNStr _ => 17
  | iNSet _ => 18
  | iRByte _ => 19
  | iRAny => 20
  | iRStr _ => 21
  | iRSet _ => 22
  | iOByte _ => 25
  | iOStr _ => 26
  | iOSet _ => 27
  | iTPush => 36
  | iTPop _ => 37
  | iTNew _ => 39
  | iTCapture _ => 40
  | iTTag _ => 41

/-- `IR_t`: the common header with the instruction's own fields, and which allocation made it. -/
structure Ir where
  addr : ℕ
  id : UInt32
  parent : BlockId
  fail : BlockId
  op : Op
  deriving DecidableEq, Repr

/-- The instruction types `block_get_terminator` accepts. -/
def Op.isTerminator : Op → Bool
  | iJump _ | iRet | iFail => true
  | _ => false

end Moz.Compiler
