import Moz.Compiler.Emission

/-!
# The general path of a construct

`Not`, `Option` and `Repetition` are one instruction for some operands. For all
others their functions build blocks, which they could for every operand.
-/

namespace Moz.Compiler

/-- `moz_Not_to_ir` after the test for `Any`. -/
def mozNotToBlocks (expr : Expr) (C : MozCompiler) (S : MozState) : MozCompiler × MozState :=
  let (C, head) := mozCompilerCreateBlock C
  let (C, next) := mozCompilerCreateBlock C
  let (C, fail) := mozCompilerCreateBlock C
  let C := mozCompilerLink C S S.cur head
  let state := mozCompilerSetLabel { S with next := fail, fail := next } head
  let C := mozCompilerEmit C state .iPStore
  let (C, state) := mozExprToIr expr C state
  let C := mozCompilerLink C state state.cur state.next
  let state := mozCompilerSetLabel state state.next
  let C := mozCompilerLink C state state.next S.fail
  let curFail := state.fail
  let state := { mozCompilerSetLabel state curFail with fail := S.fail }
  let C := mozCompilerEmit C state .iPLoad
  (C, mozCompilerSetLabel S curFail)

/-- `moz_Option_to_ir` after the `switch`. -/
def mozOptionToBlocks (expr : Expr) (C : MozCompiler) (S : MozState) : MozCompiler × MozState :=
  let (C, fail) := mozCompilerCreateBlock C
  let (C, state) := mozExprToIr expr C { S with next := fail, fail := fail }
  let C := mozCompilerLink C state state.cur state.fail
  (C, mozCompilerSetLabel S state.fail)

/-- `moz_Repetition_to_ir` after the `switch`. -/
def mozRepetitionToBlocks (list : List Expr) (C : MozCompiler) (S : MozState) :
    MozCompiler × MozState :=
  let (C, blocks) := mozCompilerCreateBlocks C list.length
  let blocks := blocks ++ [S.cur]
  let C := C.blockSetType S.cur .blockLoopHead
  let (C, fail) := mozCompilerCreateBlock C
  let state := { S with fail := fail }
  let C := mozCompilerLink C state state.cur (blocks.headD 0)
  let (C, _) := mozRepetitionToIr fail list blocks C state
  (C, mozCompilerSetLabel S fail)

/-- `moz_expr_to_ir` without the single instructions of `Not`, `Option` and `Repetition`; their
operands are lowered as ever. -/
def mozExprToBlocks : Expr → MozCompiler → MozState → MozCompiler × MozState
  | .not expr => mozNotToBlocks expr
  | .option expr => mozOptionToBlocks expr
  | .repetition list => mozRepetitionToBlocks list
  | e => mozExprToIr e

/-- Whether `moz_expr_to_ir` emits a single instruction for a `Not`, `Option` or `Repetition`. -/
def Expr.specialised : Expr → Bool
  | .not .any | .option (.set _) | .option (.byte _) | .option (.str _) | .repetition [.any]
  | .repetition [.set _] | .repetition [.byte _] | .repetition [.str _] => true
  | _ => false

/-- For all other operands there is the general path only. -/
theorem mozExprToIr_of_not_specialised {e : Expr} (he : e.specialised = false) (C : MozCompiler)
    (S : MozState) : mozExprToIr e C S = mozExprToBlocks e C S := by
  cases e with
  | not x =>
    cases x with
    | any => cases he
    | _ => rfl
  | option x =>
    cases x with
    | byte | str | set => cases he
    | _ => rfl
  | repetition list =>
    match list, he with
    | [], _ => rfl
    | x :: _ :: _, _ => cases x <;> rfl
    | [x], he =>
      cases x with
      | any | byte | str | set => cases he
      | _ => rfl
  | _ => rfl

/-- The code of the general path, as `Placed` says it of operands without an instruction. -/
inductive PlacedBlocks (F : MozCompiler) : Bool → Expr → List Ir → BlockId → List Ir → Prop
  | not {hd : Bool} {e : Expr} {l l' body stop : List Ir} {fail head next bodyFail a b : BlockId}
      (hl : Jumps l head) (hstore : Begins .iPStore a (F.insts head) body)
      (hbody : Placed F true e body bodyFail stop) (hstop : Jumps stop next)
      (hnext : Jumps (F.insts next) fail) (hload : Begins .iPLoad b (F.insts bodyFail) l') :
      PlacedBlocks F hd (.not e) l fail l'
  | option {hd : Bool} {e : Expr} {l stop : List Ir} {fail next : BlockId}
      (hbody : Placed F hd e l next stop) (hstop : Jumps stop next) :
      PlacedBlocks F hd (.option e) l fail (F.insts next)
  | repetition {hd : Bool} {list : List Expr} {l before stop : List Ir} {fail cur next : BlockId}
      (hlist : PlacedSequence F list l next stop) (hstop : Jumps stop cur)
      (hcur : F.insts cur = before ++ l) (hbefore : Opened hd before) :
      PlacedBlocks F hd (.repetition list) l fail (F.insts next)

theorem PlacedBlocks.placed {F : MozCompiler} {hd : Bool} {e : Expr} {l l' : List Ir}
    {fail : BlockId} (h : PlacedBlocks F hd e l fail l') (he : e.op F = none) :
    Placed F hd e l fail l' := by
  cases h with
  | not hl hstore hbody hstop hnext hload => exact .not he hl hstore hbody hstop hnext hload
  | option hbody hstop => exact .option he hbody hstop
  | repetition hlist hstop hcur hbefore => exact .repetition he hlist hstop hcur hbefore

structure EmittedBlocks (e : Expr) (C : MozCompiler) (S : MozState)
    (r : MozCompiler × MozState) : Prop where
  grows : Grows [S.cur] C r.1
  cur : r.2.cur = S.cur ∨ C.maxBlockId ≤ r.2.cur
  cur_lt : r.2.cur < r.1.maxBlockId
  state : r.2 = { S with cur := r.2.cur }
  placed : ∀ F hd, Later r.1 F → Opened hd (C.insts S.cur) →
    PlacedBlocks F hd e (F.rest C S.cur) S.fail (F.rest r.1 r.2.cur)

end Moz.Compiler
