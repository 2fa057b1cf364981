import Moz.Compiler.Optimize
import Moz.Lib.LittleEndian

/-!
# Encoding and linking

`moz_ir_encode`, the linker and `moz_vm2_module_compile`. The writer's buffer is a
byte list. `address_head` and `address_tail` are indexed by IR id, so a later
occurrence of an object overwrites the entries of an earlier one. A label whose
block has no first instruction to read the id of makes the encoder fail.
-/

namespace Moz.Compiler

open LittleEndian

/-- `mozlinker_t`. -/
structure Linker where
  addressHead : UInt32 → ℕ := fun _ => 0
  addressTail : UInt32 → ℕ := fun _ => 0
  labels : List ℕ := []
  targets : List UInt32 := []

/-- `moz_bytecode_writer_t`, without the compiler it points to. -/
structure BytecodeWriter where
  linker : Linker := {}
  writer : List UInt8 := []

namespace BytecodeWriter

def write8 (W : BytecodeWriter) (v : UInt8) : BytecodeWriter :=
  { W with writer := W.writer ++ [v] }

def write16 (W : BytecodeWriter) (v : UInt16) : BytecodeWriter :=
  { W with writer := W.writer ++ encode 2 v.toNat }

def write32 (W : BytecodeWriter) (v : UInt32) : BytecodeWriter :=
  { W with writer := W.writer ++ encode 4 v.toNat }

end BytecodeWriter

/-- `mozlinker_add_label`: the caller's id holds the place of the offset. -/
def mozlinkerAddLabel (C : MozCompiler) (W : BytecodeWriter) (target : BlockId)
    (calleeId : UInt32) : Option BytecodeWriter :=
  match (C.mem target).insts with
  | [] => none
  | first :: _ =>
    let linker := { W.linker with
      labels := W.linker.labels ++ [W.writer.length]
      targets := W.linker.targets ++ [first.id] }
    some ({ W with linker := linker }.write32 calleeId)

/-- The block `v.decl->inst` names. -/
def declInst (C : MozCompiler) (decl : ℕ) : Option BlockId := do
  let decl ← C.decls[decl]?
  decl.inst

/-- `moz_*_encode`: the operands of one instruction. -/
def mozOpEncode (C : MozCompiler) (W : BytecodeWriter) (ir : Ir) : Option BytecodeWriter :=
  match ir.op with
  | .iLabel | .iPLoad | .iPStore | .iRet | .iFail | .iRAny | .iTPush => some W
  | .iJump target => mozlinkerAddLabel C W target ir.id
  | .iInvoke decl => do
    let W ← mozlinkerAddLabel C W ir.fail ir.id
    let inst ← declInst C decl
    mozlinkerAddLabel C W inst ir.id
  | .iAny | .iNAny => mozlinkerAddLabel C W ir.fail ir.id
  | .iByte byte | .iNByte byte => do
    let W ← mozlinkerAddLabel C W ir.fail ir.id
    return W.write8 byte
  | .iStr id | .iSet id | .iNStr id | .iNSet id => do
    let W ← mozlinkerAddLabel C W ir.fail ir.id
    return W.write16 id
  | .iRByte byte | .iOByte byte => some (W.write8 byte)
  | .iRStr id | .iRSet id | .iOStr id | .iOSet id | .iTPop id | .iTTag id => some (W.write16 id)
  | .iTNew _ | .iTCapture _ => some (W.write8 0)

def mozIrEncode (C : MozCompiler) (W : BytecodeWriter) (ir : Ir) : Option BytecodeWriter := do
  let pos := W.writer.length
  let W ← mozOpEncode C (W.write8 ir.op.opcode) ir
  let linker := { W.linker with
    addressHead := fun id => if id = ir.id then pos else W.linker.addressHead id
    addressTail := fun id => if id = ir.id then W.writer.length else W.linker.addressTail id }
  return { W with linker := linker }

/-- One round of `mozlinker_resolve`. -/
def mozlinkerResolveLabel (linker : Linker) (code : List UInt8) (label : ℕ × UInt32) :
    List UInt8 :=
  let (labelOffset, targetId) := label
  let callerId := UInt32.ofNat (readAt code labelOffset 4)
  patch code labelOffset
    (encodeInt32 ((linker.addressHead targetId : ℤ) - linker.addressTail callerId))

def mozlinkerResolve (linker : Linker) (code : List UInt8) : List UInt8 :=
  (linker.labels.zip linker.targets).foldl (mozlinkerResolveLabel linker) code

/-- The instructions `moz_vm2_module_compile` encodes, in order. -/
def MozCompiler.layout (C : MozCompiler) : List Ir := C.blocks.flatMap fun bb => (C.mem bb).insts

/-- `moz_vm2_module_compile`: the bytes of the code. -/
def mozVm2ModuleCompile (C : MozCompiler) : Option (List UInt8) := do
  let W ← C.layout.foldlM (mozIrEncode C) {}
  return mozlinkerResolve W.linker W.writer

end Moz.Compiler
