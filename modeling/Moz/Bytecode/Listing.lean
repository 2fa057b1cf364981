import Moz.Bytecode.File
import Moz.Vm1.Relocation

/-!
# Executing the instructions of a file

A machine that runs the list of instructions itself: an address is the index of an
instruction, and `First` chooses its target by the byte at the position. It does
what VM1 does for each instruction, but an address is only taken where one was put.
-/

namespace Moz.Bytecode

open Vm1 (Inst Machine Outcome exec failImpl FrameTyped)

/-- The operand for the target `k`. -/
def distance (k : ℕ) (next : ℤ) : ℤ := k - next

/-- The instruction of VM1 when the operands end at `next` and `byte` is at the position. A memo id
has 16 bits, as `memo_size` has. -/
def vmInst (next : ℤ) (byte : UInt8) : (op : MozOpcode) → op.shape.Operands → Inst
  | .nop, _ => .nop
  | .fail, _ => .fail
  | .alt, k => .alt (distance k next)
  | .succ, _ => .succ
  | .jump, k => .jump (distance k next)
  | .call, (n, _, k) => .call (distance n next) (distance k next)
  | .ret, _ => .ret 0
  | .pos, _ => .pos
  | .back, _ => .back
  | .skip, _ => .skip
  | .byte, ch => .byte ch
  | .any, _ => .any
  | .str, id => .str (UInt16.ofNat id)
  | .set, id => .set (UInt16.ofNat id)
  | .nByte, ch => .nByte ch
  | .nAny, _ => .nAny
  | .nStr, id => .nStr (UInt16.ofNat id)
  | .nSet, id => .nSet (UInt16.ofNat id)
  | .oByte, ch => .oByte ch
  | .oAny, _ => .oAny
  | .oStr, id => .oStr (UInt16.ofNat id)
  | .oSet, id => .oSet (UInt16.ofNat id)
  | .rByte, ch => .rByte ch
  | .rAny, _ => .rAny
  | .rStr, id => .rStr (UInt16.ofNat id)
  | .rSet, id => .rSet (UInt16.ofNat id)
  | .consume, shift => .consume shift.toInt8
  | .first, ks => .jump (distance (ks.getD byte.toNat 0) next)
  | .lookup, (state, memoId, k) => .lookup state (UInt16.ofNat memoId) (distance k next)
  | .memo, (state, memoId) => .memo state (UInt16.ofNat memoId)
  | .memoFail, (state, memoId) => .memoFail state (UInt16.ofNat memoId)
  | .tPush, _ => .tPush
  | .tPop, id => .tPop (UInt16.ofNat id)
  | .tLeftFold, (shift, id) => .tLeftFold shift.toInt8 (UInt16.ofNat id)
  | .tNew, shift => .tNew shift.toInt8
  | .tCapture, shift => .tCapture shift.toInt8
  | .tTag, id => .tTag (UInt16.ofNat id)
  | .tReplace, id => .tReplace (UInt16.ofNat id)
  | .tStart, _ => .tStart
  | .tCommit, id => .tCommit (UInt16.ofNat id)
  | .tLookup, (state, memoId, k, id) =>
    .tLookup state (UInt16.ofNat id) (UInt16.ofNat memoId) (distance k next)
  | .tMemo, (state, memoId) => .tMemo state (UInt16.ofNat memoId)
  | .sOpen, _ => .sOpen
  | .sClose, _ => .sClose
  | .sMask, id => .sMask (UInt16.ofNat id)
  | .sDef, id => .sDef (UInt16.ofNat id)
  | .sIsDef, (tbl, id) => .sIsDef (UInt16.ofNat tbl) (UInt16.ofNat id)
  | .sExists, id => .sExists (UInt16.ofNat id)
  | .sMatch, id => .sMatch (UInt16.ofNat id)
  | .sIs, id => .sIs (UInt16.ofNat id)
  | .sIsa, id => .sIsa (UInt16.ofNat id)
  | .exit, status => .exit status.toInt8
  | .label, _ => .label

/-- Where execution goes on behind an instruction at the index `k`. -/
def FileInst.after (i : FileInst) (k : ℤ) : ℤ :=
  match i.nextTarget with
  | some target => target
  | none => k + 1

/-- The address of the first `Exit` behind the program; the second one is two bytes behind it. -/
def listStub : ℤ := -4

def listFetch (insts : List FileInst) (byte : UInt8) (pc : ℤ) : Option (Inst × ℤ) :=
  if 0 ≤ pc then
    (insts[pc.toNat]?).map fun i => (vmInst (i.after pc) byte i.op i.operands, i.after pc)
  else if pc = listStub then some (.exit 0, listStub + 2)
  else if pc = listStub + 2 then some (.exit 1, listStub + 4)
  else none

/-- A machine and the cells of its stack that hold an address. -/
structure Marked where
  machine : Machine
  marks : ℕ → Bool

/-- One instruction of the list, with the failure it may go to. -/
inductive ListStep (insts : List FileInst) (R : Runtime) : Marked → Marked → Prop
  | next {m m' : Machine} {t : ℕ → Bool} {inst : Inst} {stop : ℤ}
      (hfetch : listFetch insts (R.byteAt m.current) m.pc = some (inst, stop))
      (hexec : exec R { m with pc := stop } inst = some (.next m')) (htyped : inst.Typed t m) :
      ListStep insts R ⟨m, t⟩ ⟨m', inst.marks t m⟩
  | fail {m m₁ m' : Machine} {t : ℕ → Bool} {inst : Inst} {stop : ℤ}
      (hfetch : listFetch insts (R.byteAt m.current) m.pc = some (inst, stop))
      (hexec : exec R { m with pc := stop } inst = some (.failed m₁)) (htyped : inst.Typed t m)
      (hframe : FrameTyped t m₁) (hfail : failImpl m₁ = some m') :
      ListStep insts R ⟨m, t⟩ ⟨m', t⟩

/-- The machine is at an `Exit`. -/
def ListExit (insts : List FileInst) (R : Runtime) (m : Machine) (status : Int8) : Prop :=
  ∃ stop, listFetch insts (R.byteAt m.current) m.pc = some (.exit status, stop)

end Moz.Bytecode
