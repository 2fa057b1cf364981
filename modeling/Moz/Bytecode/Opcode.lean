import Mathlib.Data.Nat.Notation
import Mathlib.Tactic.Common

/-!
# Opcodes of VM1

The enumeration of `vm1/instruction.h` and the sizes that the generated
`mozvm1_opcode_size` computes from `vm1/instruction.def`. The values are those of
the bytecode file; `Label` is 127 there, out of the order of `OP_EACH`.
-/

namespace Moz.Bytecode

/-- `enum MozOpcode`. -/
inductive MozOpcode
  | nop | fail | alt | succ | jump | call | ret | pos | back | skip
  | byte | any | str | set | nByte | nAny | nStr | nSet | oByte | oAny | oStr | oSet
  | rByte | rAny | rStr | rSet | consume | first | lookup | memo | memoFail
  | tPush | tPop | tLeftFold | tNew | tCapture | tTag | tReplace | tStart | tCommit | tAbort
  | tLookup | tMemo | sOpen | sClose | sMask | sDef | sIsDef | sExists | sMatch | sIs | sIsa
  | sDefNum | sCount | exit | tblJump1 | tblJump2 | tblJump3 | label
  deriving DecidableEq, Repr

namespace MozOpcode

def toByte : MozOpcode → UInt8
  | nop => 0
  | fail => 1
  | alt => 2
  | succ => 3
  | jump => 4
  | call => 5
  | ret => 6
  | pos => 7
  | back => 8
  | skip => 9
  | byte => 10
  | any => 11
  | str => 12
  | set => 13
  | nByte => 14
  | nAny => 15
  | nStr => 16
  | nSet => 17
  | oByte => 18
  | oAny => 19
  | oStr => 20
  | oSet => 21
  | rByte => 22
  | rAny => 23
  | rStr => 24
  | rSet => 25
  | consume => 26
  | first => 27
  | lookup => 28
  | memo => 29
  | memoFail => 30
  | tPush => 31
  | tPop => 32
  | tLeftFold => 33
  | tNew => 34
  | tCapture => 35
  | tTag => 36
  | tReplace => 37
  | tStart => 38
  | tCommit => 39
  | tAbort => 40
  | tLookup => 41
  | tMemo => 42
  | sOpen => 43
  | sClose => 44
  | sMask => 45
  | sDef => 46
  | sIsDef => 47
  | sExists => 48
  | sMatch => 49
  | sIs => 50
  | sIsa => 51
  | sDefNum => 52
  | sCount => 53
  | exit => 54
  | tblJump1 => 55
  | tblJump2 => 56
  | tblJump3 => 57
  | label => 127

/-- `OP_EACH`. -/
def all : List MozOpcode :=
  [nop, fail, alt, succ, jump, call, ret, pos, back, skip, byte, any, str, set, nByte, nAny, nStr,
    nSet, oByte, oAny, oStr, oSet, rByte, rAny, rStr, rSet, consume, first, lookup, memo, memoFail,
    tPush, tPop, tLeftFold, tNew, tCapture, tTag, tReplace, tStart, tCommit, tAbort, tLookup, tMemo,
    sOpen, sClose, sMask, sDef, sIsDef, sExists, sMatch, sIs, sIsa, sDefNum, sCount, exit, tblJump1,
    tblJump2, tblJump3, label]

def ofByte (b : UInt8) : Option MozOpcode := all.find? fun op => op.toByte = b

theorem ofByte_toByte (op : MozOpcode) : ofByte op.toByte = some op := by
  cases op <;> decide

/-- The bytes after the opcode; `Call` has no nonterminal here. -/
def operandSize : MozOpcode → ℕ
  | alt | jump | ret => 4
  | call => 8
  | byte | nByte | oByte | rByte | consume | tNew | tCapture | exit => 1
  | str | nStr | oStr | rStr | set | nSet | oSet | rSet | first | tPop | tTag | tReplace | tCommit
  | sMask | sDef | sExists | sMatch | sIs | sIsa | tblJump1 | tblJump2 | tblJump3 => 2
  | tLeftFold | memo | memoFail | tMemo => 3
  | sIsDef => 4
  | lookup => 7
  | tLookup => 9
  | nop | fail | succ | pos | back | skip | any | nAny | oAny | rAny | tPush | tStart | tAbort
  | sOpen | sClose | sDefNum | sCount | label => 0

end MozOpcode

/-- `mozvm1_opcode_size`; other opcodes give -1. -/
def mozvm1OpcodeSize (opcode : UInt8) : Option ℕ :=
  (MozOpcode.ofByte opcode).map fun op => op.operandSize + 1

end Moz.Bytecode
