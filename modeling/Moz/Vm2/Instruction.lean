import Moz.Runtime
import Moz.Libnez.Ast
import Moz.Libnez.Memo
import Moz.Lib.LittleEndian

/-!
# Instructions of VM2

`Inst` has one constructor for each `DEF` of `vm2.vmdef`, with its operands in
order; a `mozaddr_t` is the signed distance from the end of the instruction.
`decode` reads an instruction as the generated `vm2_core.c` does, and `opcode` is
the position in `FOR_EACH_IR`. The definitions after it are the tests of the
matching instructions.
-/

namespace Moz.Vm2

open LittleEndian Compiler

inductive Inst
  | iLabel
  | iExit (status : Int8)
  | iJump (jump : ℤ)
  | iTableJump (tblId : UInt16)
  | iInvoke (fail funcaddr : ℤ)
  | iPLoad
  | iPStore
  | iRet
  | iFail
  | iAny (fail : ℤ)
  | iByte (fail : ℤ) (ch : UInt8)
  | iStr (fail : ℤ) (strId : UInt16)
  | iSet (fail : ℤ) (setId : UInt16)
  | iUByte (fail : ℤ)
  | iUSet (fail : ℤ)
  | iNAny (fail : ℤ)
  | iNByte (fail : ℤ) (ch : UInt8)
  | iNStr (fail : ℤ) (strId : UInt16)
  | iNSet (fail : ℤ) (setId : UInt16)
  | iRByte (ch : UInt8)
  | iRAny
  | iRStr (strId : UInt16)
  | iRSet (setId : UInt16)
  | iRUByte
  | iRUSet
  | iOByte (ch : UInt8)
  | iOStr (strId : UInt16)
  | iOSet (setId : UInt16)
  | iOUByte
  | iOUSet
  | iLookup (memoId : UInt16) (skip : ℤ)
  | iMemo (memoId : UInt16)
  | iMemoFail (fail : ℤ) (memoId : UInt16)
  | iTStart
  | iTCommit (tagId : UInt16)
  | iTAbort
  | iTPush
  | iTPop (tagId : UInt16)
  | iTFoldL (shift : Int8) (tagId : UInt16)
  | iTNew (shift : Int8)
  | iTCapture (shift : Int8)
  | iTTag (tagId : UInt16)
  | iTReplace (strId : UInt16)
  | iTLookup (tagId : UInt16) (memoId : UInt16) (skip : ℤ)
  | iTMemo (memoId : UInt16)
  | iSOpen
  | iSClose
  | iSMask (tagId : UInt16)
  | iSDef (tagId : UInt16)
  | iSIsDef (fail : ℤ) (tagId : UInt16) (strId : UInt16)
  | iSExists (fail : ℤ) (tagId : UInt16)
  | iSMatch (fail : ℤ) (tagId : UInt16)
  | iSIs (fail : ℤ) (tagId : UInt16)
  | iSIsa (fail : ℤ) (tagId : UInt16)
  deriving DecidableEq, Repr

/-- `read_uint8_t` and `read_int8_t`. -/
def read8 (code : List UInt8) (pc : ℕ) : UInt8 := UInt8.ofNat (readAt code pc 1)

/-- `read_uint16_t`, `read_STRING_t`, `read_BITSET_t` and `read_TAG_t`. -/
def read16 (code : List UInt8) (pc : ℕ) : UInt16 := UInt16.ofNat (readAt code pc 2)

/-- The instruction whose opcode is at `pc`, and the place after its operands. -/
def decode (code : List UInt8) (pc : ℕ) : Option (Inst × ℕ) :=
  let u8 := read8 code
  let i8 := fun p => (read8 code p).toInt8
  let u16 := read16 code
  let addr := readInt32 code
  match (code[pc]?).map UInt8.toNat with
  | some 0 => some (.iLabel, pc + 1)
  | some 1 => some (.iExit (i8 (pc + 1)), pc + 2)
  | some 2 => some (.iJump (addr (pc + 1)), pc + 5)
  | some 3 => some (.iTableJump (u16 (pc + 1)), pc + 3)
  | some 4 => some (.iInvoke (addr (pc + 1)) (addr (pc + 5)), pc + 9)
  | some 5 => some (.iPLoad, pc + 1)
  | some 6 => some (.iPStore, pc + 1)
  | some 7 => some (.iRet, pc + 1)
  | some 8 => some (.iFail, pc + 1)
  | some 9 => some (.iAny (addr (pc + 1)), pc + 5)
  | some 10 => some (.iByte (addr (pc + 1)) (u8 (pc + 5)), pc + 6)
  | some 11 => some (.iStr (addr (pc + 1)) (u16 (pc + 5)), pc + 7)
  | some 12 => some (.iSet (addr (pc + 1)) (u16 (pc + 5)), pc + 7)
  | some 13 => some (.iUByte (addr (pc + 1)), pc + 5)
  | some 14 => some (.iUSet (addr (pc + 1)), pc + 5)
  | some 15 => some (.iNAny (addr (pc + 1)), pc + 5)
  | some 16 => some (.iNByte (addr (pc + 1)) (u8 (pc + 5)), pc + 6)
  | some 17 => some (.iNStr (addr (pc + 1)) (u16 (pc + 5)), pc + 7)
  | some 18 => some (.iNSet (addr (pc + 1)) (u16 (pc + 5)), pc + 7)
  | some 19 => some (.iRByte (u8 (pc + 1)), pc + 2)
  | some 20 => some (.iRAny, pc + 1)
  | some 21 => some (.iRStr (u16 (pc + 1)), pc + 3)
  | some 22 => some (.iRSet (u16 (pc + 1)), pc + 3)
  | some 23 => some (.iRUByte, pc + 1)
  | some 24 => some (.iRUSet, pc + 1)
  | some 25 => some (.iOByte (u8 (pc + 1)), pc + 2)
  | some 26 => some (.iOStr (u16 (pc + 1)), pc + 3)
  | some 27 => some (.iOSet (u16 (pc + 1)), pc + 3)
  | some 28 => some (.iOUByte, pc + 1)
  | some 29 => some (.iOUSet, pc + 1)
  | some 30 => some (.iLookup (u16 (pc + 1)) (addr (pc + 3)), pc + 7)
  | some 31 => some (.iMemo (u16 (pc + 1)), pc + 3)
  | some 32 => some (.iMemoFail (addr (pc + 1)) (u16 (pc + 5)), pc + 7)
  | some 33 => some (.iTStart, pc + 1)
  | some 34 => some (.iTCommit (u16 (pc + 1)), pc + 3)
  | some 35 => some (.iTAbort, pc + 1)
  | some 36 => some (.iTPush, pc + 1)
  | some 37 => some (.iTPop (u16 (pc + 1)), pc + 3)
  | some 38 => some (.iTFoldL (i8 (pc + 1)) (u16 (pc + 2)), pc + 4)
  | some 39 => some (.iTNew (i8 (pc + 1)), pc + 2)
  | some 40 => some (.iTCapture (i8 (pc + 1)), pc + 2)
  | some 41 => some (.iTTag (u16 (pc + 1)), pc + 3)
  | some 42 => some (.iTReplace (u16 (pc + 1)), pc + 3)
  | some 43 => some (.iTLookup (u16 (pc + 1)) (u16 (pc + 3)) (addr (pc + 5)), pc + 9)
  | some 44 => some (.iTMemo (u16 (pc + 1)), pc + 3)
  | some 45 => some (.iSOpen, pc + 1)
  | some 46 => some (.iSClose, pc + 1)
  | some 47 => some (.iSMask (u16 (pc + 1)), pc + 3)
  | some 48 => some (.iSDef (u16 (pc + 1)), pc + 3)
  | some 49 => some (.iSIsDef (addr (pc + 1)) (u16 (pc + 5)) (u16 (pc + 7)), pc + 9)
  | some 50 => some (.iSExists (addr (pc + 1)) (u16 (pc + 5)), pc + 7)
  | some 51 => some (.iSMatch (addr (pc + 1)) (u16 (pc + 5)), pc + 7)
  | some 52 => some (.iSIs (addr (pc + 1)) (u16 (pc + 5)), pc + 7)
  | some 53 => some (.iSIsa (addr (pc + 1)) (u16 (pc + 5)), pc + 7)
  | _ => none

def Inst.labels (R : Runtime) : Inst → List ℤ
  | .iJump jump => [jump]
  | .iTableJump tblId => ((R.jumps3[tblId.toNat]?).map JumpTable3.jumps).getD []
  | .iInvoke fail funcaddr => [fail, funcaddr]
  | .iAny fail | .iByte fail _ | .iStr fail _ | .iSet fail _ | .iUByte fail | .iUSet fail
  | .iNAny fail | .iNByte fail _ | .iNStr fail _ | .iNSet fail _ | .iMemoFail fail _
  | .iSIsDef fail _ _ | .iSExists fail _ | .iSMatch fail _ | .iSIs fail _
  | .iSIsa fail _ => [fail]
  | .iLookup _ skip | .iTLookup _ _ skip => [skip]
  | .iLabel | .iExit _ | .iPLoad | .iPStore | .iRet | .iFail | .iRByte _ | .iRAny | .iRStr _
  | .iRSet _ | .iRUByte | .iRUSet | .iOByte _ | .iOStr _ | .iOSet _ | .iOUByte | .iOUSet
  | .iMemo _ | .iTStart | .iTCommit _ | .iTAbort | .iTPush | .iTPop _ | .iTFoldL _ _ | .iTNew _
  | .iTCapture _ | .iTTag _ | .iTReplace _ | .iTMemo _ | .iSOpen | .iSClose | .iSMask _
  | .iSDef _ => []

variable (R : Runtime)

def byteTest (ch : UInt8) (current : ℕ) : Option (Bool × ℕ) := some (R.byteAt current == ch, 1)

def anyTest (current : ℕ) : Option (Bool × ℕ) := some (!R.eos current, 1)

def strTest (strId : UInt16) (current : ℕ) : Option (Bool × ℕ) :=
  (R.strs[strId.toNat]?).map fun str => (R.startsWith current str, str.length)

def setTest (setId : UInt16) (current : ℕ) : Option (Bool × ℕ) :=
  (R.sets[setId.toNat]?).map fun set => (bitsetGet set (R.byteAt current), 1)

/-- `CURRENT + shift`. -/
def shifted (current : ℕ) (shift : Int8) : ℕ := ((current : ℤ) + shift.toInt).toNat

end Moz.Vm2
