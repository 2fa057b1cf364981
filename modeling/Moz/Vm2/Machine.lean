import Moz.Vm2.Instruction

/-!
# The virtual machine VM2

`moz_vm2_runtime_parse`. Addresses of code are integers: the code of the module
lies at `base`, the two `IExit` entries at `stub`. `SP` and `FP` are indices into
`stack_`, whose cells are `long`s. A step without a result is one the C program
does not define: `ABORT`, a constant that does not exist, a cell outside the
stack, or a fetch outside the code.
-/

namespace Moz.Vm2

/-- `MOZ_DEFAULT_STACK_SIZE`. -/
def stackSize : ℕ := 1024

/-- `FP_MAX`: the cells are `FP_FP`, `FP_POS`, `FP_NEXT` and `FP_FAIL`. -/
def fpMax : ℕ := 4

/-- The code of a module and where it is in memory. -/
structure Program where
  code : List UInt8
  base : ℤ
  stub : ℤ
  disjoint : base + code.length ≤ stub ∨ stub + 4 ≤ base

/-- `static const moz_inst_t bytecode[]`. -/
def stubCode : List UInt8 := [1, 0, 1, 1]

/-- `DISPATCH` and the reads of the operands. -/
def Program.fetch (P : Program) (pc : ℤ) : Option (Inst × ℤ) :=
  if P.base ≤ pc ∧ pc < P.base + P.code.length then
    (decode P.code (pc - P.base).toNat).map fun (inst, stop) => (inst, P.base + stop)
  else if P.stub ≤ pc ∧ pc < P.stub + stubCode.length then
    (decode stubCode (pc - P.stub).toNat).map fun (inst, stop) => (inst, P.stub + stop)
  else none

/-- The registers, the stack and the parts of the runtime that change. -/
structure Machine where
  pc : ℤ
  sp : ℕ
  fp : ℕ
  current : ℕ
  stack : ℕ → ℤ
  ast : AstMachine
  tbl : Symtable
  memo : Memo

namespace Machine

def jump (m : Machine) (d : ℤ) : Machine := { m with pc := m.pc + d }

def setPos (m : Machine) (pos : ℤ) : Machine := { m with current := pos.toNat }

def push (m : Machine) (x : ℤ) : Option Machine :=
  if m.sp < stackSize then
    some { m with stack := Function.update m.stack m.sp x, sp := m.sp + 1 }
  else none

/-- `POP`: the value, which `top` is before, is dropped. -/
def pop (m : Machine) : Machine := { m with sp := m.sp - 1 }

def top (m : Machine) : ℤ := m.stack (m.sp - 1)

def pushFrame (m : Machine) (pos next fail : ℤ) : Option Machine :=
  if m.sp + fpMax ≤ stackSize then
    some { m with
      stack := Function.update (Function.update (Function.update (Function.update m.stack
        m.sp m.fp) (m.sp + 1) pos) (m.sp + 2) next) (m.sp + 3) fail
      fp := m.sp
      sp := m.sp + fpMax }
  else none

/-- `POP_FRAME`; the cells of the frame are read before. -/
def popFrame (m : Machine) : Machine := { m with sp := m.fp, fp := (m.stack m.fp).toNat }

def framePos (m : Machine) : ℤ := m.stack (m.fp + 1)

def frameNext (m : Machine) : ℤ := m.stack (m.fp + 2)

def frameFail (m : Machine) : ℤ := m.stack (m.fp + 3)

end Machine

/-- What an instruction does: go on, or return from `moz_vm2_runtime_parse`. -/
inductive Outcome
  | next (m : Machine)
  | exit (status : Int8) (current : ℕ)

/-- The end of a `DEF` with a fail operand. -/
def Machine.effect (m : Machine) (fail : ℤ) : Effect → Option Outcome
  | .next current => some (.next { m with current := current })
  | .fail => some (.next (m.jump fail))
  | .stuck => none

/-- The end of a `DEF` that only moves `CURRENT`. -/
def Machine.move (m : Machine) (current : Option ℕ) : Option Outcome :=
  current.map fun current => .next { m with current := current }

/-- The end of a `DEF` that only logs. -/
def Machine.log (m : Machine) (ast : AstMachine) : Option Outcome := some (.next { m with ast := ast })

/-- The body of a `DEF`, with `PC` after the operands. -/
def exec (R : Runtime) (m : Machine) : Inst → Option Outcome
  | .iLabel => some (.next m)
  | .iExit status => some (.exit status m.current)
  | .iJump jump => some (.next (m.jump jump))
  | .iTableJump tblId => do
    let tbl ← R.jumps3[tblId.toNat]?
    let jump ← jumpTable3Jump tbl (R.byteAt m.current)
    return .next (m.jump jump)
  | .iPLoad => some (.next (m.pop.setPos m.top))
  | .iPStore => do
    let m ← m.push m.current
    return .next m
  | .iInvoke fail funcaddr => do
    let m ← m.pushFrame m.current m.pc fail
    return .next (m.jump funcaddr)
  | .iRet => some (.next { m.popFrame with pc := m.frameNext })
  | .iFail => some (.next { m.popFrame.setPos m.framePos with pc := m.frameFail })
  | .iAny fail => m.effect fail (accept (anyTest R) m.current)
  | .iByte fail ch => m.effect fail (accept (byteTest R ch) m.current)
  | .iStr fail strId => m.effect fail (accept (strTest R strId) m.current)
  | .iSet fail setId => m.effect fail (accept (setTest R setId) m.current)
  | .iNAny fail => m.effect fail (reject (anyTest R) m.current)
  | .iNByte fail ch => m.effect fail (reject (byteTest R ch) m.current)
  | .iNStr fail strId => m.effect fail (reject (strTest R strId) m.current)
  | .iNSet fail setId => m.effect fail (reject (setTest R setId) m.current)
  | .iRAny => m.move (acceptWhile R (anyTest R) m.current)
  | .iRByte ch => m.move (acceptWhile R (byteTest R ch) m.current)
  | .iRStr strId => m.move (acceptWhile R (strTest R strId) m.current)
  | .iRSet setId => m.move (acceptWhile R (setTest R setId) m.current)
  | .iOByte ch => m.move (acceptOption (byteTest R ch) m.current)
  | .iOStr strId => m.move (acceptOption (strTest R strId) m.current)
  | .iOSet setId => m.move (acceptOption (setTest R setId) m.current)
  | .iMemoFail fail memoId => do
    let (memo, heap) ← memoFail m.memo m.ast.heap (R.head + UInt64.ofNat m.current) memoId.toUInt32
    let m := { m with memo := memo, ast := { m.ast with heap := heap } }
    return .next (m.jump fail)
  | .iTStart => do
    let m ← m.push (astSaveTx m.ast)
    return .next m
  | .iTCommit tagId => do
    let ast ← astCommitTx m.ast tagId m.top.toNat
    return .next { m.pop with ast := ast }
  | .iTPush => m.log (astLogPush m.ast)
  | .iTPop tagId => m.log (astLogPop m.ast tagId)
  | .iTFoldL shift tagId => m.log (astLogSwap m.ast (shifted m.current shift) tagId)
  | .iTNew shift => m.log (astLogNew m.ast (shifted m.current shift))
  | .iTCapture shift => m.log (astLogCapture m.ast (shifted m.current shift))
  | .iTTag tagId => do
    let tag ← R.tags[tagId.toNat]?
    m.log (astLogTag m.ast (some tag))
  | .iTReplace strId => do
    let str ← R.strs[strId.toNat]?
    m.log (astLogReplace m.ast (some str))
  | .iSOpen => do
    let m ← m.push (symtableSavepoint m.tbl)
    return .next m
  | .iSClose => do
    let tbl ← symtableRollback m.tbl m.top.toNat
    return .next { m.pop with tbl := tbl }
  | .iSMask tagId => do
    let m ← m.push (symtableSavepoint m.tbl)
    return .next { m with tbl := symtableAddSymbolMask m.tbl tagId (R.uninit m.tbl) }
  | .iSDef tagId =>
    let captured := tokenInit m.top.toNat m.current
    some (.next { m.pop with tbl := symtableAddSymbol R.byteAt m.tbl tagId captured })
  | .iSIsDef fail tagId strId => do
    let symbol ← R.strs[strId.toNat]?
    if symtableContains R.byteAt m.tbl tagId symbol then return .next m
    else return .next (m.jump fail)
  | .iSExists fail tagId =>
    if symtableHasSymbol m.tbl tagId then some (.next m) else some (.next (m.jump fail))
  | .iSMatch fail tagId =>
    match symtableGetSymbol m.tbl tagId with
    | some t =>
      if tokenEqualString R.byteAt t m.current then
        some (.next { m with current := m.current + t.len.toNat })
      else some (.next (m.jump fail))
    | none => some (.next (m.jump fail))
  | .iSIs fail tagId =>
    match symtableGetSymbol m.tbl tagId with
    | some t =>
      let captured := tokenInit m.top.toNat m.current
      if t.bytes R.byteAt = captured.bytes R.byteAt then some (.next m.pop)
      else some (.next (m.pop.jump fail))
    | none => some (.next (m.jump fail))
  | .iSIsa fail tagId =>
    let captured := tokenInit m.top.toNat m.current
    if symtableContains R.byteAt m.tbl tagId (captured.bytes R.byteAt) then some (.next m.pop)
    else some (.next (m.pop.jump fail))
  | .iUByte _ | .iUSet _ | .iRUByte | .iRUSet | .iOUByte | .iOUSet | .iLookup _ _ | .iMemo _
  | .iTAbort | .iTLookup _ _ _ | .iTMemo _ => none

def step (P : Program) (R : Runtime) (m : Machine) : Option Outcome := do
  let (inst, stop) ← P.fetch m.pc
  exec R { m with pc := stop } inst

/-- `SP` and `FP` after `moz_runtime_init`. -/
def stackBase : ℕ := 15

/-- The state in which `moz_vm2_runtime_parse` dispatches the first instruction. -/
def start (P : Program) (stack : ℕ → ℤ) (ast : AstMachine) (tbl : Symtable) (memo : Memo) :
    Option Machine :=
  { pc := P.base, sp := stackBase, fp := stackBase, current := 0, stack := stack, ast := ast,
    tbl := tbl, memo := memo : Machine }.pushFrame 0 P.stub (P.stub + 2)

end Moz.Vm2
