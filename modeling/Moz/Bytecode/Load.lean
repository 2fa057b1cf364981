import Moz.Lib.LittleEndian
import Moz.Bytecode.Opcode
import Moz.Runtime

/-!
# Loading a bytecode file

`loader.c` in the default configuration. Every access that the C program makes
without a check is one that can go wrong here: it ends the load with the kind of
the access. The file's words are big-endian, those of the emitted buffer are
little-endian. The two loops of `mozvm_loader_load` get a bound on their rounds.
-/

namespace Moz.Bytecode

open LittleEndian Compiler

inductive LoadError
  /-- `exit` after a verify error -/
  | verify
  /-- a byte of the file at or beyond its length is read -/
  | read
  /-- `L->table` is written at or beyond `inst_size` -/
  | table
  /-- a pool is indexed with an id that is out of range -/
  | pool
  /-- `L->table` is indexed with an operand at which it has no entry -/
  | jump
  /-- an opcode or operand beyond the emitted buffer is read -/
  | opcode
  /-- `int3` -/
  | trap
  /-- the rounds are used up -/
  | rounds
  deriving DecidableEq, Repr

/-- `input_stream_t`; `end` is the length of the data. -/
structure InputStream where
  data : List UInt8
  pos : ℕ

def skip (is : InputStream) (shift : ℕ) : InputStream := { is with pos := is.pos + shift }

def peek (is : InputStream) : Except LoadError UInt8 :=
  match is.data[is.pos]? with
  | some b => .ok b
  | none => .error .read

def read8 (is : InputStream) : Except LoadError (UInt8 × InputStream) := do
  let b ← peek is
  return (b, skip is 1)

/-- `d1 << 8 | d2`; the two do not overlap. -/
def read16 (is : InputStream) : Except LoadError (ℕ × InputStream) := do
  let (d1, is) ← read8 is
  let (d2, is) ← read8 is
  return (d1.toNat * 256 + d2.toNat, is)

def read24 (is : InputStream) : Except LoadError (ℕ × InputStream) := do
  let (d1, is) ← read8 is
  let (d2, is) ← read8 is
  let (d3, is) ← read8 is
  return (d1.toNat * 65536 + d2.toNat * 256 + d3.toNat, is)

def read32 (is : InputStream) : Except LoadError (ℕ × InputStream) := do
  let (d1, is) ← read16 is
  let (d2, is) ← read16 is
  return (d1 * 65536 + d2, is)

/-- A loop that reads `n` times. -/
def readTimes {α : Type} (read : InputStream → Except LoadError (α × InputStream)) :
    ℕ → InputStream → Except LoadError (List α × InputStream)
  | 0, is => .ok ([], is)
  | n + 1, is => do
    let (a, is) ← read is
    let (as, is) ← readTimes read n is
    return (a :: as, is)

/-- A name or string: its length, `pstring_alloc` of its bytes, and a byte that is skipped. -/
def readString (is : InputStream) : Except LoadError (List UInt8 × InputStream) := do
  let (len, is) ← read16 is
  if is.pos + len ≤ is.data.length then return (slice is.data is.pos len, skip is (len + 1))
  else throw .read

def bitsetSet (set : Bitset) (index : ℕ) : Bitset := set ||| BitVec.twoPow 256 index

/-- The loop over the bits of one word `v` of a set. -/
def setWord (set : Bitset) (j v : ℕ) : Bitset :=
  (List.range 32).foldl (fun set k => if v.testBit k then bitsetSet set (k + 32 * j) else set) set

def wordsSet (words : List ℕ) : Bitset :=
  (List.range 8).foldl (fun set j => setWord set j (words.getD j 0)) 0

def readSet (is : InputStream) : Except LoadError (Bitset × InputStream) := do
  let (words, is) ← readTimes read32 8 is
  return (wordsSet words, is)

def jumpTable1Init (targets table : List ℤ) : JumpTable1 where
  b0 := (List.range 256).foldl (fun b i =>
    if targets.getD 1 0 = table.getD i 0 then bitsetSet b i else b) 0
  jumps := (List.range 2).map fun i => targets.getD i 0

/-- The bits of `jump_table2_init` and `jump_table3_init`: byte `i` belongs to each set that one of
its targets belongs to. -/
def jumpTableBits (targets table : List ℤ) (members : List ℕ) : Bitset :=
  (List.range 256).foldl (fun b i =>
    if members.any fun k => targets.getD k 0 = table.getD i 0 then bitsetSet b i else b) 0

def jumpTable2Init (targets table : List ℤ) : JumpTable2 where
  b0 := jumpTableBits targets table [3, 1]
  b1 := jumpTableBits targets table [3, 2]
  jumps := (List.range 4).map fun i => targets.getD i 0

def jumpTable3Init (targets table : List ℤ) : JumpTable3 where
  b0 := jumpTableBits targets table [7, 5, 3, 1]
  b1 := jumpTableBits targets table [7, 6, 3, 2]
  b2 := jumpTableBits targets table [7, 6, 5, 4]
  jumps := (List.range 8).map fun i => targets.getD i 0

/-- `moz_production_t`; the offsets become addresses in `mozvm_loader_freeze`. -/
structure Production where
  name : List UInt8
  begin : Option ℕ := none
  stop : Option ℕ := none
  deriving Repr

/-- The constants of `mozvm_constant_t`. -/
structure Constants where
  memoSize : ℕ := 0
  prods : List Production := []
  sets : List Bitset := []
  strs : List (List UInt8) := []
  tags : List (List UInt8) := []
  tables : List (List UInt8) := []
  jumps : List (List ℤ) := []
  jumps1 : List JumpTable1 := []
  jumps2 : List JumpTable2 := []
  jumps3 : List JumpTable3 := []

/-- `mozvm_loader_t`: the next id of a jump table is the number of tables, and `table` holds the
entries that are written, of `instSize`. -/
structure Loader where
  instSize : ℕ := 0
  table : List ℕ := []
  buf : List UInt8 := []
  C : Constants := {}

namespace Loader

def write8 (L : Loader) (v : UInt8) : Loader := { L with buf := L.buf ++ [v] }

def write16 (L : Loader) (v : ℕ) : Loader := { L with buf := L.buf ++ encode 2 v }

def writeAddr (L : Loader) (addr : ℕ) : Loader := { L with buf := L.buf ++ encodeInt32 addr }

def writeOpcode (L : Loader) (op : MozOpcode) : Loader := L.write8 op.toByte

end Loader

/-- What is read of the pool `pool` before its id is written. -/
def checkId {α : Type} (pool : List α) (id : ℕ) : Except LoadError Unit :=
  if id < pool.length then .ok () else .error .pool

/-- The loader after the `switch` of `mozvm_loader_load_inst`. -/
structure LoadInst where
  L : Loader
  is : InputStream
  hasJump : Bool
  prod : ℕ := 0

/-- The targets of a `First` without repetition, in the order in which they come. -/
def distinctTargets (table : List ℤ) : List ℤ :=
  table.foldl (fun target t => if t ∈ target then target else target ++ [t]) []

/-- `CASE_(First)` after the table is read. -/
def loadFirst (L : Loader) (table : List ℤ) (opt : Bool) : Loader :=
  let target := distinctTargets table
  if opt ∧ target.length ≤ 1 then
    let L' := { L with C := { L.C with jumps1 := L.C.jumps1 ++ [jumpTable1Init target table] } }
    (L'.writeOpcode .tblJump1).write16 L.C.jumps1.length
  else if opt ∧ target.length ≤ 4 then
    let L' := { L with C := { L.C with jumps2 := L.C.jumps2 ++ [jumpTable2Init target table] } }
    (L'.writeOpcode .tblJump2).write16 L.C.jumps2.length
  else if opt ∧ target.length ≤ 8 then
    let L' := { L with C := { L.C with jumps3 := L.C.jumps3 ++ [jumpTable3Init target table] } }
    (L'.writeOpcode .tblJump3).write16 L.C.jumps3.length
  else
    let L' := { L with C := { L.C with jumps := L.C.jumps ++ [table.take 256] } }
    (L'.writeOpcode .first).write16 L.C.jumps.length

/-- The `switch` of `mozvm_loader_load_inst`. -/
def loadOperands (L : Loader) (is : InputStream) (hasJump opt : Bool) :
    Option MozOpcode → Except LoadError LoadInst
  | none | some .tblJump1 | some .tblJump2 | some .tblJump3
  | some .nop | some .fail | some .succ | some .pos | some .back | some .skip
  | some .any | some .nAny | some .oAny | some .rAny | some .tPush | some .tStart
  | some .sOpen | some .sClose => return { L := L, is := is, hasJump := hasJump }
  | some .alt => do
    let (failjump, is) ← read24 is
    return { L := L.writeAddr failjump, is := is, hasJump := hasJump }
  | some .jump => do
    let (jump, is) ← read24 is
    return { L := L.writeAddr jump, is := is, hasJump := false }
  | some .call => do
    let (next, is) ← read24 is
    let (_, is) ← read16 is
    let (jump, is) ← read24 is
    return { L := (L.writeAddr next).writeAddr jump, is := is, hasJump := false }
  | some .ret => return { L := L.writeAddr 0, is := is, hasJump := hasJump }
  | some .byte | some .nByte | some .oByte | some .rByte | some .consume | some .tNew
  | some .tCapture | some .exit => do
    let (ch, is) ← read8 is
    return { L := L.write8 ch, is := is, hasJump := hasJump }
  | some .str | some .nStr | some .oStr | some .rStr | some .tReplace => do
    let (strId, is) ← read16 is
    checkId L.C.strs strId
    return { L := L.write16 strId, is := is, hasJump := hasJump }
  | some .set | some .nSet | some .oSet | some .rSet => do
    let (setId, is) ← read16 is
    checkId L.C.sets setId
    return { L := L.write16 setId, is := is, hasJump := hasJump }
  | some .first => do
    let (table, is) ← readTimes read24 257 is
    return { L := loadFirst L (table.map Nat.cast) opt, is := is, hasJump := hasJump }
  | some .lookup => do
    let (state, is) ← read8 is
    let (memoId, is) ← read32 is
    let (skip, is) ← read24 is
    return { L := ((L.write8 state).write16 memoId).writeAddr skip, is := is, hasJump := hasJump }
  | some .memo | some .memoFail | some .tMemo => do
    let (state, is) ← read8 is
    let (memoId, is) ← read32 is
    return { L := (L.write8 state).write16 memoId, is := is, hasJump := hasJump }
  | some .tPop | some .tTag | some .tCommit => do
    let (tagId, is) ← read16 is
    checkId L.C.tags tagId
    return { L := L.write16 tagId, is := is, hasJump := hasJump }
  | some .tLeftFold => do
    let (shift, is) ← read8 is
    let (tagId, is) ← read16 is
    checkId L.C.tags tagId
    return { L := (L.write8 shift).write16 tagId, is := is, hasJump := hasJump }
  | some .tAbort | some .sDefNum | some .sCount => throw .trap
  | some .tLookup => do
    let (state, is) ← read8 is
    let (memoId, is) ← read32 is
    let (skip, is) ← read24 is
    let (tagId, is) ← read16 is
    checkId L.C.tags tagId
    return {
      L := (((L.write8 state).write16 tagId).write16 memoId).writeAddr skip
      is := is
      hasJump := hasJump }
  | some .sIsDef => do
    let (tblId, is) ← read16 is
    let (strId, is) ← read16 is
    checkId L.C.tables tblId
    checkId L.C.strs strId
    return { L := (L.write16 tblId).write16 strId, is := is, hasJump := hasJump }
  | some .sMask | some .sDef | some .sExists | some .sMatch | some .sIs | some .sIsa => do
    let (tblId, is) ← read16 is
    checkId L.C.tables tblId
    return { L := L.write16 tblId, is := is, hasJump := hasJump }
  | some .label => do
    let (label, is) ← read16 is
    return { L := L, is := is, hasJump := hasJump, prod := label }

/-- Opcodes that are not written when the load is optimised. -/
def elided (op : Option MozOpcode) : Bool := op = some .nop ∨ op = some .first ∨ op = some .label

/-- `mozvm_loader_load_inst`. -/
def loadInst (L : Loader) (is : InputStream) (opt : Bool) :
    Except LoadError (Loader × InputStream × ℕ) := do
  let (byte, is) ← read8 is
  let opcode := byte &&& 0x7f
  let op := MozOpcode.ofByte opcode
  let L := if opt ∧ elided op then L else L.write8 opcode
  let loaded ← loadOperands L is (byte &&& 0x80 ≠ 0) opt op
  if loaded.hasJump then
    let (jump, is) ← read24 loaded.is
    return ((loaded.L.writeOpcode .jump).writeAddr jump, is, loaded.prod)
  else return (loaded.L, loaded.is, loaded.prod)

/-- `L->R->C.prods[prod_id]` is updated. -/
def updateProd (L : Loader) (prodId : ℕ) (f : Production → Production) : Except LoadError Loader := do
  checkId L.C.prods prodId
  return { L with C := { L.C with prods := L.C.prods.modify prodId f } }

/-- A round of the first loop of `mozvm_loader_load`. -/
def loadRound (L : Loader) (is : InputStream) (prodId : ℕ) (opt : Bool) :
    Except LoadError (Loader × InputStream × ℕ) := do
  let opcode ← peek is
  let begin := L.buf.length
  if L.instSize ≤ L.table.length then throw .table
  let (L, is, prod) ← loadInst { L with table := L.table ++ [L.buf.length] } is opt
  let (L, prodId) ←
    if opcode = MozOpcode.label.toByte then do
      let L ← updateProd L prod fun p => { p with begin := some begin }
      pure (L, prod)
    else pure (L, prodId)
  let L ← updateProd L prodId fun p => { p with stop := some L.buf.length }
  return (L, is, prodId)

/-- The first loop of `mozvm_loader_load`. -/
def loadLoop (opt : Bool) : ℕ → Loader → InputStream → ℕ → Except LoadError Loader
  | 0, _, _, _ => .error .rounds
  | rounds + 1, L, is, prodId =>
    if is.pos < is.data.length then do
      let (L, is, prodId) ← loadRound L is prodId opt
      loadLoop opt rounds L is prodId
    else .ok L

namespace Loader

/-- `L->table[ref]`. -/
def tableAt (L : Loader) (ref : ℤ) : Except LoadError ℕ :=
  match if 0 ≤ ref then L.table[ref.toNat]? else none with
  | some addr => .ok addr
  | none => .error .jump

def getOpcode (L : Loader) (idx : ℤ) : Except LoadError UInt8 :=
  match if 0 ≤ idx then L.buf[idx.toNat]? else none with
  | some opcode => .ok opcode
  | none => .error .opcode

/-- `*ref = L->table[*ref] - (j + shift)`, where `ref` is `back` bytes before `stop = j + shift`. -/
def patchRef (L : Loader) (stop back : ℕ) : Except LoadError Loader := do
  let addr ← L.tableAt (readInt32 L.buf (stop - back))
  return { L with buf := patch L.buf (stop - back) (encodeInt32 ((addr : ℤ) - stop)) }

def encodeJump (L : Loader) (stop : ℕ) (jump : ℤ) : Except LoadError ℤ :=
  if jump ≠ 0 then do
    let addr ← L.tableAt jump
    return (addr : ℤ) - stop
  else return 2 ^ 31 - 1

end Loader

/-- The table of a pool that the last operand before `stop` names. -/
def tableOperand {α : Type} (L : Loader) (pool : List α) (stop : ℕ) : Except LoadError (ℕ × α) :=
  match pool[readAt L.buf (stop - 2) 2]? with
  | some table => .ok (readAt L.buf (stop - 2) 2, table)
  | none => .error .pool

/-- The `switch` of the second loop of `mozvm_loader_load`. -/
def patchOperands (L : Loader) (j stop : ℕ) : MozOpcode → Except LoadError Loader
  | .jump => do
    let addr ← L.tableAt (readInt32 L.buf (stop - 4))
    let opcode ← L.getOpcode addr
    let L := if opcode = MozOpcode.ret.toByte then
        { L with buf := L.buf.set j MozOpcode.ret.toByte } else L
    L.patchRef stop 4
  | .call => do
    let L ← L.patchRef stop 8
    L.patchRef stop 4
  | .alt | .lookup | .tLookup => L.patchRef stop 4
  | .first => do
    let (tblId, table) ← tableOperand L L.C.jumps stop
    let table ← table.mapM fun t => do
      let addr ← L.tableAt t
      return (addr : ℤ) - stop
    return { L with C := { L.C with jumps := L.C.jumps.set tblId table } }
  | .tblJump1 => do
    let (tblId, table) ← tableOperand L L.C.jumps1 stop
    let jumps ← table.jumps.mapM (L.encodeJump stop)
    return { L with C := { L.C with jumps1 := L.C.jumps1.set tblId { table with jumps := jumps } } }
  | .tblJump2 => do
    let (tblId, table) ← tableOperand L L.C.jumps2 stop
    let jumps ← table.jumps.mapM (L.encodeJump stop)
    return { L with C := { L.C with jumps2 := L.C.jumps2.set tblId { table with jumps := jumps } } }
  | .tblJump3 => do
    let (tblId, table) ← tableOperand L L.C.jumps3 stop
    let jumps ← table.jumps.mapM (L.encodeJump stop)
    return { L with C := { L.C with jumps3 := L.C.jumps3.set tblId { table with jumps := jumps } } }
  | .nop | .fail | .succ | .ret | .pos | .back | .skip | .byte | .any | .str | .set | .nByte
  | .nAny | .nStr | .nSet | .oByte | .oAny | .oStr | .oSet | .rByte | .rAny | .rStr | .rSet
  | .consume | .memo | .memoFail | .tPush | .tPop | .tLeftFold | .tNew | .tCapture | .tTag
  | .tReplace | .tStart | .tCommit | .tAbort | .tMemo | .sOpen | .sClose | .sMask | .sDef | .sIsDef
  | .sExists | .sMatch | .sIs | .sIsa | .sDefNum | .sCount | .exit | .label => return L

/-- A round of the second loop of `mozvm_loader_load`. -/
def patchRound (L : Loader) (j : ℤ) : Except LoadError (Loader × ℤ) := do
  let opcode ← L.getOpcode j
  match MozOpcode.ofByte opcode, mozvm1OpcodeSize opcode with
  | some op, some shift =>
    if L.buf.length < j.toNat + shift then throw .opcode
    let L ← patchOperands L j.toNat (j.toNat + shift) op
    return (L, j + shift)
  | _, _ => return (L, j - 1)

/-- The second loop of `mozvm_loader_load`. -/
def patchLoop : ℕ → Loader → ℤ → Except LoadError Loader
  | 0, _, _ => .error .rounds
  | rounds + 1, L, j =>
    if j < L.buf.length then do
      let (L, j) ← patchRound L j
      patchLoop rounds L j
    else .ok L

/-- `mozvm_loader_load`; either loop gets `rounds` rounds. -/
def mozvmLoaderLoad (rounds : ℕ) (L : Loader) (is : InputStream) (opt : Bool) :
    Except LoadError Loader := do
  let L ← loadLoop opt rounds L is 0
  patchLoop rounds L 0

/-- `checkFileType`; the reads stop at the first byte that differs. -/
def checkFileType (is : InputStream) : Except LoadError (Bool × InputStream) := do
  let (n, is) ← read8 is
  if n ≠ 78 then return (false, is)
  let (e, is) ← read8 is
  if e ≠ 69 then return (false, is)
  let (z, is) ← read8 is
  return (decide (z = 90), is)

/-- `checkVersion`: the version is at least `MOZ_SUPPORTED_NEZ_VERSION`, which is 0. -/
def checkVersion (is : InputStream) : Except LoadError (Bool × InputStream) := do
  let (version, is) ← read8 is
  return (decide (0 ≤ version), is)

def readPool {α : Type} (read : InputStream → Except LoadError (α × InputStream))
    (is : InputStream) : Except LoadError (List α × InputStream) := do
  let (size, is) ← read16 is
  readTimes read size is

/-- The part of `mozvm_loader_load_syntax2` before the instructions. -/
def readHeader (is : InputStream) : Except LoadError (Loader × InputStream) := do
  let (isNez, is) ← checkFileType is
  if !isNez then throw .verify
  let (supported, is) ← checkVersion is
  if !supported then throw .verify
  let (instSize, is) ← read16 is
  let (memoSize, is) ← read16 is
  let (_, is) ← read16 is
  let (prodSize, is) ← read16 is
  let (names, is) ← readTimes readString prodSize is
  let (sets, is) ← readPool readSet is
  let (strs, is) ← readPool readString is
  let (tags, is) ← readPool readString is
  let (tables, is) ← readPool readString is
  return ({ instSize := instSize, C := {
    memoSize := memoSize, prods := names.map fun name => { name := name }, sets := sets,
    strs := strs, tags := tags, tables := tables } }, is)

def mozvmLoaderLoadSyntax (rounds : ℕ) (memory : List UInt8) (opt : Bool) :
    Except LoadError Loader := do
  let (L, is) ← readHeader { data := memory, pos := 0 }
  mozvmLoaderLoad rounds L is opt

end Moz.Bytecode
