import Moz.Bytecode.Load

/-!
# The format of bytecode files

A file is a header with the pools and a list of instructions, whose jump operands
are indices of the list. `encode` writes it in the order in which the loader reads
it.
-/

namespace Moz.Bytecode

inductive Shape
  | plain | ret | addr | jump | call | char | str | set | tag | tbl | fold | first | lookup | memo | tLookup
  | isDef | label | absent
  deriving DecidableEq, Repr

def MozOpcode.shape : MozOpcode → Shape
  | nop | fail | succ | pos | back | skip | any | nAny | oAny | rAny | tPush | tStart | sOpen
  | sClose => .plain
  | ret => .ret
  | alt => .addr
  | jump => .jump
  | call => .call
  | byte | nByte | oByte | rByte | consume | tNew | tCapture | exit => .char
  | str | nStr | oStr | rStr | tReplace => .str
  | set | nSet | oSet | rSet => .set
  | tPop | tTag | tCommit => .tag
  | sMask | sDef | sExists | sMatch | sIs | sIsa => .tbl
  | tLeftFold => .fold
  | first => .first
  | lookup => .lookup
  | memo | memoFail | tMemo => .memo
  | tLookup => .tLookup
  | sIsDef => .isDef
  | label => .label
  | tAbort | sDefNum | sCount | tblJump1 | tblJump2 | tblJump3 => .absent

@[reducible] def Shape.Operands : Shape → Type
  | .plain | .ret => Unit
  | .addr | .jump => ℕ
  | .call => ℕ × ℕ × ℕ
  | .char => UInt8
  | .str | .set | .tag | .tbl | .label => ℕ
  | .fold => UInt8 × ℕ
  | .first => List ℕ
  | .lookup => UInt8 × ℕ × ℕ
  | .memo => UInt8 × ℕ
  | .tLookup => UInt8 × ℕ × ℕ × ℕ
  | .isDef => ℕ × ℕ
  | .absent => Empty

/-- An instruction of a file; `next` is the target of an instruction with the jump flag. -/
structure FileInst where
  op : MozOpcode
  operands : op.shape.Operands
  next : Option ℕ

def word16 (n : ℕ) : List UInt8 := [UInt8.ofNat (n / 256), UInt8.ofNat n]

def word24 (n : ℕ) : List UInt8 := [UInt8.ofNat (n / 65536), UInt8.ofNat (n / 256), UInt8.ofNat n]

def word32 (n : ℕ) : List UInt8 := word16 (n / 65536) ++ word16 n

def encodeOperands : (s : Shape) → s.Operands → List UInt8
  | .plain, _ | .ret, _ => []
  | .addr, target | .jump, target => word24 target
  | .call, (next, prod, jump) => word24 next ++ word16 prod ++ word24 jump
  | .char, ch => [ch]
  | .str, id | .set, id | .tag, id | .tbl, id | .label, id => word16 id
  | .fold, (shift, id) => shift :: word16 id
  | .first, table => table.flatMap word24
  | .lookup, (state, memoId, skip) => state :: word32 memoId ++ word24 skip
  | .memo, (state, memoId) => state :: word32 memoId
  | .tLookup, (state, memoId, skip, id) => state :: word32 memoId ++ word24 skip ++ word16 id
  | .isDef, (tbl, id) => word16 tbl ++ word16 id

namespace FileInst

variable (i : FileInst)

/-- The target of the jump flag; `Jump` and `Call` read their own target instead. -/
def nextTarget : Option ℕ := if i.op = .jump ∨ i.op = .call then none else i.next

/-- The opcode with the jump flag, the operands, and the target of the flag. -/
def encode : List UInt8 :=
  (if i.next = none then i.op.toByte else i.op.toByte ||| 0x80) ::
    encodeOperands i.op.shape i.operands ++ (i.nextTarget.map word24).getD []

end FileInst

/-- The ids are in range, the target of a `Jump` satisfies `code` and the other targets `target`. -/
def OperandsOk (C : Constants) (target code : ℕ → Prop) : (s : Shape) → s.Operands → Prop
  | .plain, _ | .ret, _ => True
  | .addr, k => target k
  | .jump, k => code k
  | .call, (next, prod, jump) => target next ∧ prod < 2 ^ 16 ∧ target jump
  | .char, _ => True
  | .str, id => id < C.strs.length
  | .set, id => id < C.sets.length
  | .tag, id => id < C.tags.length
  | .tbl, id => id < C.tables.length
  | .label, id => id < C.prods.length
  | .fold, (_, id) => id < C.tags.length
  | .first, table => table.length = 257 ∧ ∀ k ∈ table, target k
  | .lookup, (_, memoId, skip) => memoId < 2 ^ 32 ∧ target skip
  | .memo, (_, memoId) => memoId < 2 ^ 32
  | .tLookup, (_, memoId, skip, id) => memoId < 2 ^ 32 ∧ target skip ∧ id < C.tags.length
  | .isDef, (tbl, id) => tbl < C.tables.length ∧ id < C.strs.length

/-- Operands and target of an instruction are in range; a `First` needs `opt`. -/
structure InstOk (opt : Bool) (C : Constants) (target code : ℕ → Prop) (i : FileInst) : Prop where
  operands : OperandsOk C target code i.op.shape i.operands
  next : ∀ k, i.nextTarget = some k → code k
  first : i.op = .first → opt

/-- Something is loaded for the instruction: `Nop` and `Label` are left out when `opt` is set. -/
def FileInst.Written (opt : Bool) (i : FileInst) : Prop :=
  ¬ (opt ∧ (i.op = .nop ∨ i.op = .label)) ∨ i.nextTarget ≠ none

structure BytecodeFile where
  version : UInt8 := 0
  instSize : ℕ
  memoSize : ℕ := 0
  jmptblSize : ℕ := 0
  prods : List (List UInt8) := []
  sets : List (List ℕ) := []
  strs : List (List UInt8) := []
  tags : List (List UInt8) := []
  tables : List (List UInt8) := []
  insts : List FileInst := []

/-- A string with its length before it and a byte after it. -/
def encodeString (s : List UInt8) : List UInt8 := word16 s.length ++ s ++ [0]

def encodePool {α : Type} (encode : α → List UInt8) (pool : List α) : List UInt8 :=
  word16 pool.length ++ pool.flatMap encode

namespace BytecodeFile

variable (F : BytecodeFile)

def header : List UInt8 :=
  [78, 69, 90, F.version] ++ word16 F.instSize ++ word16 F.memoSize ++ word16 F.jmptblSize ++
    encodePool encodeString F.prods

def pools : List UInt8 :=
  encodePool (fun set => set.flatMap word32) F.sets ++ encodePool encodeString F.strs ++
    encodePool encodeString F.tags ++ encodePool encodeString F.tables

def encode : List UInt8 := F.header ++ F.pools ++ F.insts.flatMap FileInst.encode

def constants : Constants where
  memoSize := F.memoSize
  prods := F.prods.map fun name => { name := name }
  sets := F.sets.map wordsSet
  strs := F.strs
  tags := F.tags
  tables := F.tables

/-- The sizes and strings fit their length words, and a set has eight words. -/
structure PoolsOk : Prop where
  instSize : F.instSize < 2 ^ 16
  memoSize : F.memoSize < 2 ^ 16
  jmptblSize : F.jmptblSize < 2 ^ 16
  prods : F.prods.length < 2 ^ 16 ∧ ∀ s ∈ F.prods, s.length < 2 ^ 16
  sets : F.sets.length < 2 ^ 16 ∧ ∀ set ∈ F.sets, set.length = 8 ∧ ∀ w ∈ set, w < 2 ^ 32
  strs : F.strs.length < 2 ^ 16 ∧ ∀ s ∈ F.strs, s.length < 2 ^ 16
  tags : F.tags.length < 2 ^ 16 ∧ ∀ s ∈ F.tags, s.length < 2 ^ 16
  tables : F.tables.length < 2 ^ 16 ∧ ∀ s ∈ F.tables, s.length < 2 ^ 16

def IsIndex (k : ℕ) : Prop := k < F.insts.length

/-- Something is loaded for the instruction `k` or for one after it. -/
def IsCode (opt : Bool) (k : ℕ) : Prop := ∃ n ≥ k, ∃ i, F.insts[n]? = some i ∧ i.Written opt

/-- Loading the file with the flag `opt` makes no access that is out of range. -/
structure WellFormed (opt : Bool) : Prop extends F.PoolsOk where
  size : F.insts.length ≤ F.instSize
  production : F.insts ≠ [] → F.prods ≠ []
  insts : ∀ i ∈ F.insts, InstOk opt F.constants F.IsIndex (F.IsCode opt) i

end BytecodeFile

end Moz.Bytecode
