import Moz.Runtime
import Moz.Libnez.Ast
import Moz.Libnez.Memo
import Moz.Lib.LittleEndian

/-!
# Instructions of VM1

`Inst` has one constructor for each `DEF` of `vm1/instruction.def`, with its
operands in order (`Call` without the nonterminal, which is read only for the
JIT); a `mozaddr_t` is the signed distance from the end of the instruction.
`decode` reads an instruction as the generated `vm_core.c` does. The definitions
after it are the matching instructions, which compare a plain `char`.
-/

namespace Moz.Vm1

open LittleEndian Compiler

inductive Inst
  | nop
  | fail
  | alt (failjump : ℤ)
  | succ
  | jump (jump : ℤ)
  | call (next jump : ℤ)
  | ret (dummy : ℤ)
  | pos
  | back
  | skip
  | byte (ch : UInt8)
  | any
  | str (strId : UInt16)
  | set (setId : UInt16)
  | nByte (ch : UInt8)
  | nAny
  | nStr (strId : UInt16)
  | nSet (setId : UInt16)
  | oByte (ch : UInt8)
  | oAny
  | oStr (strId : UInt16)
  | oSet (setId : UInt16)
  | rByte (ch : UInt8)
  | rAny
  | rStr (strId : UInt16)
  | rSet (setId : UInt16)
  | consume (shift : Int8)
  | first (tblId : UInt16)
  | lookup (state : UInt8) (memoId : UInt16) (skip : ℤ)
  | memo (state : UInt8) (memoId : UInt16)
  | memoFail (state : UInt8) (memoId : UInt16)
  | tPush
  | tPop (tagId : UInt16)
  | tLeftFold (shift : Int8) (tagId : UInt16)
  | tNew (shift : Int8)
  | tCapture (shift : Int8)
  | tTag (tagId : UInt16)
  | tReplace (strId : UInt16)
  | tStart
  | tCommit (tagId : UInt16)
  | tAbort
  | tLookup (state : UInt8) (tagId : UInt16) (memoId : UInt16) (skip : ℤ)
  | tMemo (state : UInt8) (memoId : UInt16)
  | sOpen
  | sClose
  | sMask (tagId : UInt16)
  | sDef (tagId : UInt16)
  | sIsDef (tagId : UInt16) (strId : UInt16)
  | sExists (tagId : UInt16)
  | sMatch (tagId : UInt16)
  | sIs (tagId : UInt16)
  | sIsa (tagId : UInt16)
  | sDefNum
  | sCount
  | exit (status : Int8)
  | tblJump1 (tblId : UInt16)
  | tblJump2 (tblId : UInt16)
  | tblJump3 (tblId : UInt16)
  | label
  deriving DecidableEq, Repr

/-- `read_uint8_t` and `read_int8_t`. -/
def read8 (code : List UInt8) (pc : ℕ) : UInt8 := UInt8.ofNat (readAt code pc 1)

/-- `read_uint16_t`, `read_STRING_t`, `read_BITSET_t`, `read_TAG_t` and `read_JMPTBL_t`. -/
def read16 (code : List UInt8) (pc : ℕ) : UInt16 := UInt16.ofNat (readAt code pc 2)

/-- The instruction whose opcode is at `pc`, and the place after its operands. -/
def decode (code : List UInt8) (pc : ℕ) : Option (Inst × ℕ) :=
  let u8 := read8 code
  let i8 := fun p => (read8 code p).toInt8
  let u16 := read16 code
  let addr := readInt32 code
  match (code[pc]?).map UInt8.toNat with
  | some 0 => some (.nop, pc + 1)
  | some 1 => some (.fail, pc + 1)
  | some 2 => some (.alt (addr (pc + 1)), pc + 5)
  | some 3 => some (.succ, pc + 1)
  | some 4 => some (.jump (addr (pc + 1)), pc + 5)
  | some 5 => some (.call (addr (pc + 1)) (addr (pc + 5)), pc + 9)
  | some 6 => some (.ret (addr (pc + 1)), pc + 5)
  | some 7 => some (.pos, pc + 1)
  | some 8 => some (.back, pc + 1)
  | some 9 => some (.skip, pc + 1)
  | some 10 => some (.byte (u8 (pc + 1)), pc + 2)
  | some 11 => some (.any, pc + 1)
  | some 12 => some (.str (u16 (pc + 1)), pc + 3)
  | some 13 => some (.set (u16 (pc + 1)), pc + 3)
  | some 14 => some (.nByte (u8 (pc + 1)), pc + 2)
  | some 15 => some (.nAny, pc + 1)
  | some 16 => some (.nStr (u16 (pc + 1)), pc + 3)
  | some 17 => some (.nSet (u16 (pc + 1)), pc + 3)
  | some 18 => some (.oByte (u8 (pc + 1)), pc + 2)
  | some 19 => some (.oAny, pc + 1)
  | some 20 => some (.oStr (u16 (pc + 1)), pc + 3)
  | some 21 => some (.oSet (u16 (pc + 1)), pc + 3)
  | some 22 => some (.rByte (u8 (pc + 1)), pc + 2)
  | some 23 => some (.rAny, pc + 1)
  | some 24 => some (.rStr (u16 (pc + 1)), pc + 3)
  | some 25 => some (.rSet (u16 (pc + 1)), pc + 3)
  | some 26 => some (.consume (i8 (pc + 1)), pc + 2)
  | some 27 => some (.first (u16 (pc + 1)), pc + 3)
  | some 28 => some (.lookup (u8 (pc + 1)) (u16 (pc + 2)) (addr (pc + 4)), pc + 8)
  | some 29 => some (.memo (u8 (pc + 1)) (u16 (pc + 2)), pc + 4)
  | some 30 => some (.memoFail (u8 (pc + 1)) (u16 (pc + 2)), pc + 4)
  | some 31 => some (.tPush, pc + 1)
  | some 32 => some (.tPop (u16 (pc + 1)), pc + 3)
  | some 33 => some (.tLeftFold (i8 (pc + 1)) (u16 (pc + 2)), pc + 4)
  | some 34 => some (.tNew (i8 (pc + 1)), pc + 2)
  | some 35 => some (.tCapture (i8 (pc + 1)), pc + 2)
  | some 36 => some (.tTag (u16 (pc + 1)), pc + 3)
  | some 37 => some (.tReplace (u16 (pc + 1)), pc + 3)
  | some 38 => some (.tStart, pc + 1)
  | some 39 => some (.tCommit (u16 (pc + 1)), pc + 3)
  | some 40 => some (.tAbort, pc + 1)
  | some 41 => some (.tLookup (u8 (pc + 1)) (u16 (pc + 2)) (u16 (pc + 4)) (addr (pc + 6)), pc + 10)
  | some 42 => some (.tMemo (u8 (pc + 1)) (u16 (pc + 2)), pc + 4)
  | some 43 => some (.sOpen, pc + 1)
  | some 44 => some (.sClose, pc + 1)
  | some 45 => some (.sMask (u16 (pc + 1)), pc + 3)
  | some 46 => some (.sDef (u16 (pc + 1)), pc + 3)
  | some 47 => some (.sIsDef (u16 (pc + 1)) (u16 (pc + 3)), pc + 5)
  | some 48 => some (.sExists (u16 (pc + 1)), pc + 3)
  | some 49 => some (.sMatch (u16 (pc + 1)), pc + 3)
  | some 50 => some (.sIs (u16 (pc + 1)), pc + 3)
  | some 51 => some (.sIsa (u16 (pc + 1)), pc + 3)
  | some 52 => some (.sDefNum, pc + 1)
  | some 53 => some (.sCount, pc + 1)
  | some 54 => some (.exit (i8 (pc + 1)), pc + 2)
  | some 55 => some (.tblJump1 (u16 (pc + 1)), pc + 3)
  | some 56 => some (.tblJump2 (u16 (pc + 1)), pc + 3)
  | some 57 => some (.tblJump3 (u16 (pc + 1)), pc + 3)
  | some 58 => some (.label, pc + 1)
  | _ => none

variable (R : Runtime)

/-- `bitset_get` at a plain `char`: a negative one indexes outside the set. -/
def bitsetGetChar (current : ℕ) (set : Bitset) : Option Bool :=
  let ch := R.charAt current
  if 0 ≤ ch then some (bitsetGet set (UInt8.ofNat ch.toNat)) else none

def byteTest (ch : UInt8) (current : ℕ) : Option (Bool × ℕ) :=
  some (decide (R.charAt current = ch.toNat), 1)

def anyTest (current : ℕ) : Option (Bool × ℕ) := some (!R.eos current, 1)

def strTest (strId : UInt16) (current : ℕ) : Option (Bool × ℕ) :=
  (R.strs[strId.toNat]?).map fun str => (R.startsWith current str, str.length)

def setTest (setId : UInt16) (current : ℕ) : Option (Bool × ℕ) := do
  let set ← R.sets[setId.toNat]?
  let found ← bitsetGetChar R current set
  return (found, 1)

/-- `GET_POS() + shift`. -/
def shifted (current : ℕ) (shift : Int8) : ℕ := ((current : ℤ) + shift.toInt).toNat

/-- `jmpTable[(unsigned)*GET_CURRENT()]`. -/
def first (current : ℕ) (tblId : UInt16) : Option ℤ := do
  let jmpTable ← R.jumps[tblId.toNat]?
  if 0 ≤ R.charAt current then jmpTable[(R.charAt current).toNat]? else none

end Moz.Vm1
