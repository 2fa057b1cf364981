import Moz.Vm1.Instruction

/-!
# The virtual machine VM1

`moz_runtime_parse_init` and `moz_runtime_parse` with indirect threading, the
elastic memo table and without the JIT. Addresses and the stack are as for VM2. An
instruction that does `goto L_fail` ends in `failed`, and the step goes on with
`FAIL_IMPL`. A step without a result is one the C program does not define.
-/

namespace Moz.Vm1

/-- `MOZ_DEFAULT_STACK_SIZE`. -/
def stackSize : ℕ := 1024

/-- `FP_MAX`: the cells are `FP_FP`, `FP_POS`, `FP_NEXT`, `FP_AST` and `FP_SYMTBL`. -/
def fpMax : ℕ := 5

/-- The code of a bytecode file and where it is in memory. -/
structure Program where
  code : List UInt8
  base : ℤ
  stub : ℤ
  disjoint : base + code.length ≤ stub ∨ stub + 4 ≤ base

/-- `bytecode_base`. -/
def stubCode : List UInt8 := [54, 0, 54, 1]

/-- `DISPATCH` and the reads of the operands. -/
def Program.fetch (P : Program) (pc : ℤ) : Option (Inst × ℤ) :=
  if P.base ≤ pc ∧ pc < P.base + P.code.length then
    (decode P.code (pc - P.base).toNat).map fun (inst, stop) => (inst, P.base + stop)
  else if P.stub ≤ pc ∧ pc < P.stub + stubCode.length then
    (decode stubCode (pc - P.stub).toNat).map fun (inst, stop) => (inst, P.stub + stop)
  else none

/-- The registers, the stack and the parts of the runtime that change. -/
structure Machine where
  pc : ℤ
  sp : ℕ
  fp : ℕ
  current : ℕ
  head : ℕ
  stack : ℕ → ℤ
  ast : AstMachine
  tbl : Symtable
  memo : Memo

namespace Machine

def jump (m : Machine) (d : ℤ) : Machine := { m with pc := m.pc + d }

def setPos (m : Machine) (pos : ℤ) : Machine := { m with current := pos.toNat }

def push (m : Machine) (x : ℤ) : Option Machine :=
  if m.sp < stackSize then
    some { m with stack := Function.update m.stack m.sp x, sp := m.sp + 1 }
  else none

/-- `POP`: the value, which `top` is before, is dropped. -/
def pop (m : Machine) : Machine := { m with sp := m.sp - 1 }

def top (m : Machine) : ℤ := m.stack (m.sp - 1)

def pushFrame (m : Machine) (pos next ast symtbl : ℤ) : Option Machine :=
  if m.sp + fpMax ≤ stackSize then
    some { m with
      stack := Function.update (Function.update (Function.update (Function.update
        (Function.update m.stack m.sp m.fp) (m.sp + 1) pos) (m.sp + 2) next) (m.sp + 3) ast)
        (m.sp + 4) symtbl
      fp := m.sp
      sp := m.sp + fpMax }
  else none

/-- `DROP_FRAME`, and what `POP_FRAME` does besides reading the cells. -/
def dropFrame (m : Machine) : Machine := { m with sp := m.fp, fp := (m.stack m.fp).toNat }

def framePos (m : Machine) : ℤ := m.stack (m.fp + 1)

def frameNext (m : Machine) : ℤ := m.stack (m.fp + 2)

def frameAst (m : Machine) : ℤ := m.stack (m.fp + 3)

def frameSymtbl (m : Machine) : ℤ := m.stack (m.fp + 4)

/-- `PUSH_FRAME` for the state the machine is in. -/
def pushChoice (m : Machine) (next : ℤ) : Option Machine :=
  m.pushFrame m.current next (astSaveTx m.ast) (symtableSavepoint m.tbl)

/-- The stores of `Skip` through the pointers of `PEEK_FRAME`. -/
def refresh (m : Machine) : Machine :=
  { m with stack := Function.update (Function.update (Function.update m.stack
      (m.fp + 1) m.current) (m.fp + 3) (astSaveTx m.ast)) (m.fp + 4) (symtableSavepoint m.tbl) }

def address (R : Runtime) (pos : ℕ) : UInt64 := R.head + UInt64.ofNat pos

end Machine

def failImpl (m : Machine) : Option Machine := do
  let pos := m.framePos.toNat
  let ast ← astRollbackTx m.ast m.frameAst.toNat
  let tbl ← symtableRollback m.tbl m.frameSymtbl.toNat
  let m' := { m.dropFrame with ast := ast, tbl := tbl, pc := m.frameNext }
  return if pos < m.current then { m' with head := max m.head m.current, current := pos } else m'

/-- What an instruction does: go on, go to `L_fail`, or return from `moz_runtime_parse`. -/
inductive Outcome
  | next (m : Machine)
  | failed (m : Machine)
  | exit (status : Int8) (current : ℕ)

def Machine.effect (m : Machine) : Effect → Option Outcome
  | .next current => some (.next { m with current := current })
  | .fail => some (.failed m)
  | .stuck => none

/-- The end of a `DEF` that only moves `CURRENT`. -/
def Machine.move (m : Machine) (current : Option ℕ) : Option Outcome :=
  current.map fun current => .next { m with current := current }

/-- The end of a `DEF` that only logs. -/
def Machine.log (m : Machine) (ast : AstMachine) : Option Outcome := some (.next { m with ast := ast })

/-- `memo_set` at the position of the frame that is popped. -/
def Machine.memoize (m : Machine) (R : Runtime) (state : UInt8) (memoId : UInt16)
    (node : Option NodeId) : Option Outcome := do
  let pos := m.framePos.toNat
  let length := UInt32.ofInt ((m.current : ℤ) - pos)
  let (memo, heap) ← memoSet m.memo m.ast.heap (Machine.address R pos) memoId.toUInt32 node length
    state.toUInt32
  return .next { m.dropFrame with memo := memo, ast := { m.ast with heap := heap } }

/-- The body of a `DEF`, with `PC` after the operands. -/
def exec (R : Runtime) (m : Machine) : Inst → Option Outcome
  | .nop | .label => some (.next m)
  | .fail => some (.failed m)
  | .alt failjump => do
    let m ← m.pushChoice (m.pc + failjump)
    return .next m
  | .succ => some (.next m.dropFrame)
  | .jump jump => some (.next (m.jump jump))
  | .call next jump => do
    let m ← m.push (m.pc + next)
    return .next (m.jump jump)
  | .ret _ => some (.next { m.pop with pc := m.top })
  | .pos => do
    let m ← m.push m.current
    return .next m
  | .back => some (.next (m.pop.setPos m.top))
  | .skip => if m.framePos = m.current then some (.failed m) else some (.next m.refresh)
  | .byte ch => m.effect (accept (byteTest R ch) m.current)
  | .any => m.effect (accept (anyTest R) m.current)
  | .str strId => m.effect (accept (strTest R strId) m.current)
  | .set setId => m.effect (accept (setTest R setId) m.current)
  | .nByte ch => m.effect (reject (byteTest R ch) m.current)
  | .nAny => m.effect (reject (anyTest R) m.current)
  | .nStr strId => m.effect (reject (strTest R strId) m.current)
  | .nSet setId => m.effect (reject (setTest R setId) m.current)
  | .oByte ch => m.move (acceptOption (byteTest R ch) m.current)
  | .oStr strId => m.move (acceptOption (strTest R strId) m.current)
  | .oSet setId => m.move (acceptOption (setTest R setId) m.current)
  | .rByte ch => m.move (acceptWhile R (byteTest R ch) m.current)
  | .rStr strId => m.move (acceptWhile R (strTest R strId) m.current)
  | .rSet setId => m.move (acceptWhile R (setTest R setId) m.current)
  | .consume shift => m.move (some (shifted m.current shift))
  | .first tblId => do
    let jump ← first R m.current tblId
    return .next (m.jump jump)
  | .lookup state memoId skip =>
    match memoGet m.memo (Machine.address R m.current) memoId.toUInt32 state with
    | some entry =>
      if entry.result = .failed then some (.failed m)
      else some (.next ({ m with current := m.current + entry.consumed.toNat }.jump skip))
    | none => some (.next m)
  | .memo state memoId => m.memoize R state memoId none
  | .memoFail _ memoId => do
    let (memo, heap) ← memoFail m.memo m.ast.heap (Machine.address R m.current) memoId.toUInt32
    return .failed { m with memo := memo, ast := { m.ast with heap := heap } }
  | .tPush => m.log (astLogPush m.ast)
  | .tPop tagId => m.log (astLogPop m.ast tagId)
  | .tLeftFold shift tagId => m.log (astLogSwap m.ast (shifted m.current shift) tagId)
  | .tNew shift => m.log (astLogNew m.ast (shifted m.current shift))
  | .tCapture shift => m.log (astLogCapture m.ast (shifted m.current shift))
  | .tTag tagId => do
    let tag ← R.tags[tagId.toNat]?
    m.log (astLogTag m.ast (some tag))
  | .tReplace strId => do
    let str ← R.strs[strId.toNat]?
    m.log (astLogReplace m.ast (some str))
  | .tStart => do
    let m ← m.push (astSaveTx m.ast)
    return .next m
  | .tCommit tagId => do
    let ast ← astCommitTx m.ast tagId m.top.toNat
    return .next { m.pop with ast := ast }
  | .tLookup state tagId memoId skip =>
    match memoGet m.memo (Machine.address R m.current) memoId.toUInt32 state with
    | some entry =>
      match entry.result with
      | .failed => some (.failed m)
      | .null =>
        some (.next ({ m with
          current := m.current + entry.consumed.toNat
          ast := astLogLink m.ast tagId none }.jump skip))
      | .result node =>
        some (.next ({ m with
          current := m.current + entry.consumed.toNat
          ast := astLogLink m.ast tagId (some node) }.jump skip))
    | none => some (.next m)
  | .tMemo state memoId => m.memoize R state memoId m.ast.lastLinked
  | .sOpen => do
    let m ← m.push (symtableSavepoint m.tbl)
    return .next m
  | .sClose => do
    let tbl ← symtableRollback m.tbl m.top.toNat
    return .next { m.pop with tbl := tbl }
  | .sMask tagId => do
    let m ← m.push (symtableSavepoint m.tbl)
    return .next { m with tbl := symtableAddSymbolMask m.tbl tagId (R.uninit m.tbl) }
  | .sDef tagId =>
    let captured := tokenInit m.top.toNat m.current
    some (.next { m.pop with tbl := symtableAddSymbol R.byteAt m.tbl tagId captured })
  | .sIsDef tagId strId => do
    let symbol ← R.strs[strId.toNat]?
    if symtableContains R.byteAt m.tbl tagId symbol then return .next m
    else return .failed m
  | .sExists tagId =>
    if symtableHasSymbol m.tbl tagId then some (.next m) else some (.failed m)
  | .sMatch tagId =>
    match symtableGetSymbol m.tbl tagId with
    | some t =>
      if tokenEqualString R.byteAt t m.current then
        some (.next { m with current := m.current + t.len.toNat })
      else some (.failed m)
    | none => some (.failed m)
  | .sIs tagId =>
    match symtableGetSymbol m.tbl tagId with
    | some t =>
      let captured := tokenInit m.top.toNat m.current
      if t.bytes R.byteAt = captured.bytes R.byteAt then some (.next m.pop)
      else some (.failed m.pop)
    | none => some (.failed m)
  | .sIsa tagId =>
    let captured := tokenInit m.top.toNat m.current
    if symtableContains R.byteAt m.tbl tagId (captured.bytes R.byteAt) then some (.next m.pop)
    else some (.failed m.pop)
  | .exit status => some (.exit status m.current)
  | .tblJump1 tblId => do
    let tbl ← R.jumps1[tblId.toNat]?
    let jump ← jumpTable1Jump tbl (R.byteAt m.current)
    return .next (m.jump jump)
  | .tblJump2 tblId => do
    let tbl ← R.jumps2[tblId.toNat]?
    let jump ← jumpTable2Jump tbl (R.byteAt m.current)
    return .next (m.jump jump)
  | .tblJump3 tblId => do
    let tbl ← R.jumps3[tblId.toNat]?
    let jump ← jumpTable3Jump tbl (R.byteAt m.current)
    return .next (m.jump jump)
  | .oAny | .rAny | .tAbort | .sDefNum | .sCount => none

/-- One instruction, with the `FAIL_IMPL` it may go to. -/
def step (P : Program) (R : Runtime) (m : Machine) : Option Outcome := do
  let (inst, stop) ← P.fetch m.pc
  match ← exec R { m with pc := stop } inst with
  | .failed m => do
    let m ← failImpl m
    return .next m
  | o => return o

/-- `runtime->stack` after `moz_runtime_init`. -/
def stackBase : ℕ := 15

/-- `moz_runtime_parse_init` for the input position `current`; `head` is left as it is. -/
def parseInit (P : Program) (current head : ℕ) (stack : ℕ → ℤ) (ast : AstMachine) (tbl : Symtable)
    (memo : Memo) : Option Machine := do
  let m : Machine :=
    { pc := P.base, sp := stackBase, fp := stackBase, current := current, head := head,
      stack := stack, ast := ast, tbl := tbl, memo := memo }
  let m ← m.pushChoice (P.stub + 2)
  m.push P.stub

end Moz.Vm1
