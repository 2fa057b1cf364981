import Moz.Compiler.Exec

/-!
# Where the code of an expression lies

`Placed F hd e l fail l'` says that in the blocks of `F` the instructions `l` are
those of the expression `e` with the fail block `fail`, and that `l'` is the code
that is reached when `e` has matched. `hd` tells whether the block that holds `l`
begins with the `IPStore` of a predicate. A constant is found in the pool of `F`.
-/

namespace Moz.Compiler

/-- The id under which `moz_compiler_add_string` knows a literal. -/
def MozCompiler.strId (C : MozCompiler) (list : List UInt8) : UInt16 :=
  UInt16.ofNat (mozCompilerAddStringId C.strs list).2

def MozCompiler.tagId (C : MozCompiler) (name : List UInt8) : UInt16 :=
  UInt16.ofNat (mozCompilerAddStringId C.tags name).2

def MozCompiler.setId (C : MozCompiler) (set : Bitset) : UInt16 := (mozCompilerAddSet C set).2

namespace Expr

variable (C : MozCompiler)

def notOp : Expr → Option Op
  | .any => some .iNAny
  | .empty | .invoke _ | .byte _ | .str _ | .set _ | .and _ | .choice _ | .fail | .not _
  | .option _ | .sequence _ | .repetition _ | .tcapture | .tpush | .tpop _ | .tnew | .ttag _
  | .todo _ => none

def optionOp : Expr → Option Op
  | .byte ch => some (.iOByte ch)
  | .str text => some (.iOStr (C.strId text))
  | .set bits => some (.iOSet (C.setId bits))
  | .empty | .invoke _ | .any | .and _ | .choice _ | .fail | .not _ | .option _ | .sequence _
  | .repetition _ | .tcapture | .tpush | .tpop _ | .tnew | .ttag _ | .todo _ => none

def roundOp : Expr → Option Op
  | .any => some .iRAny
  | .byte ch => some (.iRByte ch)
  | .str text => some (.iRStr (C.strId text))
  | .set bits => some (.iRSet (C.setId bits))
  | .empty | .invoke _ | .and _ | .choice _ | .fail | .not _ | .option _ | .sequence _
  | .repetition _ | .tcapture | .tpush | .tpop _ | .tnew | .ttag _ | .todo _ => none

def repetitionOp : List Expr → Option Op
  | [expr] => expr.roundOp C
  | [] | _ :: _ :: _ => none

/-- The instruction of an expression that is lowered to one, besides `Invoke` and `Fail`. -/
def op : Expr → Option Op
  | .any => some .iAny
  | .byte ch => some (.iByte ch)
  | .str text => some (.iStr (C.strId text))
  | .set bits => some (.iSet (C.setId bits))
  | .not expr => expr.notOp
  | .option expr => expr.optionOp C
  | .repetition list => repetitionOp C list
  | .tcapture => some (.iTCapture 0)
  | .tpush => some .iTPush
  | .tpop name => some (.iTPop (C.tagId name))
  | .tnew => some (.iTNew 0)
  | .ttag name => some (.iTTag (C.tagId name))
  | .empty | .invoke _ | .and _ | .choice _ | .fail | .sequence _ | .todo _ => none

end Expr

/-- `l` is the instruction `op` with the fail block `fail`, and `l'` after it. -/
def Begins (op : Op) (fail : BlockId) (l l' : List Ir) : Prop :=
  ∃ ir, ir.op = op ∧ ir.fail = fail ∧ l = ir :: l'

/-- `l` goes to another block. -/
def Jumps (l : List Ir) (target : BlockId) : Prop := ∃ fail l', Begins (.iJump target) fail l l'

/-- What stands in the block of a construct before it: nothing, or the `IPStore` of a predicate. -/
def Opened (hd : Bool) (l : List Ir) : Prop :=
  if hd then ∃ fail, Begins .iPStore fail l [] else l = []

variable (F : MozCompiler)

mutual

/-- The code `l` of an expression, up to the code `l'` after a match. -/
inductive Placed : Bool → Expr → List Ir → BlockId → List Ir → Prop
  | empty {hd : Bool} {l : List Ir} {fail : BlockId} : Placed hd .empty l fail l
  | one {hd : Bool} {e : Expr} {op : Op} {l l' : List Ir} {fail : BlockId}
      (hop : e.op F = some op) (hl : Begins op fail l l') : Placed hd e l fail l'
  | invoke {hd : Bool} {d : ℕ} {l l' : List Ir} {fail : BlockId}
      (hl : Begins (.iInvoke d) fail l l') : Placed hd (.invoke d) l fail l'
  | fail {hd : Bool} {l l' : List Ir} {fail : BlockId} (hl : Jumps l fail) :
      Placed hd .fail l fail l'
  | and {hd : Bool} {e : Expr} {l l' body stop : List Ir} {fail head next bodyFail a b : BlockId}
      (hl : Jumps l head) (hstore : Begins .iPStore a (F.insts head) body)
      (hbody : Placed true e body bodyFail stop) (hstop : Jumps stop next)
      (hload : Begins .iPLoad b (F.insts next) l') (hfail : Jumps (F.insts bodyFail) fail) :
      Placed hd (.and e) l fail l'
  | not {hd : Bool} {e : Expr} {l l' body stop : List Ir} {fail head next bodyFail a b : BlockId}
      (he : e.notOp = none) (hl : Jumps l head) (hstore : Begins .iPStore a (F.insts head) body)
      (hbody : Placed true e body bodyFail stop) (hstop : Jumps stop next)
      (hnext : Jumps (F.insts next) fail) (hload : Begins .iPLoad b (F.insts bodyFail) l') :
      Placed hd (.not e) l fail l'
  | option {hd : Bool} {e : Expr} {l stop : List Ir} {fail next : BlockId}
      (he : e.optionOp F = none) (hbody : Placed hd e l next stop) (hstop : Jumps stop next) :
      Placed hd (.option e) l fail (F.insts next)
  | choice {hd : Bool} {list : List Expr} {l : List Ir} {fail first next : BlockId}
      (hl : Jumps l first) (hlist : PlacedChoice list first fail next) :
      Placed hd (.choice list) l fail (F.insts next)
  | sequence {hd : Bool} {list : List Expr} {l stop : List Ir} {fail next : BlockId}
      (hlist : PlacedSequence list l fail stop) (hstop : Jumps stop next) :
      Placed hd (.sequence list) l fail (F.insts next)
  | repetition {hd : Bool} {list : List Expr} {l before stop : List Ir} {fail cur next : BlockId}
      (hop : Expr.repetitionOp F list = none) (hlist : PlacedSequence list l next stop)
      (hstop : Jumps stop cur) (hcur : F.insts cur = before ++ l) (hbefore : Opened hd before) :
      Placed hd (.repetition list) l fail (F.insts next)

inductive PlacedChoice : List Expr → BlockId → BlockId → BlockId → Prop
  | last {x : Expr} {stop : List Ir} {bb fail next : BlockId}
      (hx : Placed false x (F.insts bb) fail stop) (hstop : Jumps stop next) :
      PlacedChoice [x] bb fail next
  | cons {x y : Expr} {list : List Expr} {stop : List Ir} {bb bb' fail next : BlockId}
      (hx : Placed false x (F.insts bb) bb' stop) (hstop : Jumps stop next)
      (hlist : PlacedChoice (y :: list) bb' fail next) : PlacedChoice (x :: y :: list) bb fail next

inductive PlacedSequence : List Expr → List Ir → BlockId → List Ir → Prop
  | nil {l : List Ir} {fail : BlockId} : PlacedSequence [] l fail l
  | cons {x : Expr} {list : List Expr} {l l' stop : List Ir} {bb fail : BlockId}
      (hl : Jumps l bb) (hx : Placed false x (F.insts bb) fail stop)
      (hlist : PlacedSequence list stop fail l') : PlacedSequence (x :: list) l fail l'

end

def PlacedDecl (body : Expr) (entry : BlockId) : Prop :=
  ∃ fail next stop, Placed F false body (F.insts entry) fail stop ∧ Jumps stop next ∧
    (∃ a l, Begins .iRet a (F.insts next) l) ∧ ∃ a l, Begins .iFail a (F.insts fail) l

end Moz.Compiler
