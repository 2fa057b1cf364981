import Moz.Compiler.Block

/-!
# Lowering expressions to blocks

The functions of `compiler.c` from `moz_compiler_add_string_id` to
`moz_ast_to_ir`, as state passing over the compiler. A `moz_state_t` is passed by
value; where the source copies it (`moz_state_copy`) the caller's own value is
kept, and where it is modified in place the modified value is returned.
-/

namespace Moz.Compiler

/-- `moz_state_t`. -/
structure MozState where
  head : BlockId
  cur : BlockId
  next : BlockId
  fail : BlockId
  deriving DecidableEq, Repr

/-- `strncmp(s, t, n) == 0` for the `n` bytes of two buffers of one length. -/
def strncmpEq : List UInt8 → List UInt8 → Bool
  | x :: s, y :: t => x == y && (x == 0 || strncmpEq s t)
  | _, _ => true

theorem strncmpEq_refl (s : List UInt8) : strncmpEq s s := by
  induction s with
  | nil => rfl
  | cons x s ih => simp [strncmpEq, ih]

def mozCompilerAddStringId (ary : List (List UInt8)) (name : List UInt8) :
    List (List UInt8) × ℕ :=
  match ary.findIdx? fun x => x.length == name.length && strncmpEq x name with
  | some i => (ary, i)
  | none => (ary ++ [name], ary.length)

/-- The id is a `STRING_t`, so 16 bits of it are kept. -/
def mozCompilerAddString (C : MozCompiler) (str : List UInt8) : MozCompiler × UInt16 :=
  let (strs, id) := mozCompilerAddStringId C.strs str
  ({ C with strs := strs }, UInt16.ofNat id)

def mozCompilerAddTag (C : MozCompiler) (name : List UInt8) : MozCompiler × UInt16 :=
  let (tags, id) := mozCompilerAddStringId C.tags name
  ({ C with tags := tags }, UInt16.ofNat id)

def mozCompilerAddSet (C : MozCompiler) (set : Bitset) : MozCompiler × UInt16 :=
  match C.sets.findIdx? fun x => x == set with
  | some i => (C, UInt16.ofNat i)
  | none => ({ C with sets := C.sets ++ [set] }, UInt16.ofNat C.sets.length)

/-- `_IR_ALLOC`: a fresh object whose fail edge is the state's, which becomes a handler. -/
def irAlloc (C : MozCompiler) (S : MozState) (op : Op) : MozCompiler × Ir :=
  let ir := { addr := C.maxIrId, id := UInt32.ofNat C.maxIrId, parent := 0, fail := S.fail, op := op }
  ({ C with maxIrId := C.maxIrId + 1 }.blockSetType S.fail .blockHandler, ir)

def mozCompilerCreateNamedBlock (C : MozCompiler) (type : BlockType) : MozCompiler × BlockId :=
  let (C, bb) := C.blockNew type
  ({ C with blocks := C.blocks ++ [bb] }, bb)

def mozCompilerCreateBlock (C : MozCompiler) : MozCompiler × BlockId :=
  mozCompilerCreateNamedBlock C .blockDefault

/-- The loops that fill `blocks[0 .. n - 1]` with new blocks. -/
def mozCompilerCreateBlocks (C : MozCompiler) : ℕ → MozCompiler × List BlockId
  | 0 => (C, [])
  | n + 1 =>
    let (C, bb) := mozCompilerCreateBlock C
    let (C, bbs) := mozCompilerCreateBlocks C n
    (C, bb :: bbs)

def mozStateInit (C : MozCompiler) : MozCompiler × MozState :=
  let (C, head) := mozCompilerCreateNamedBlock C .blockEntry
  let (C, next) := mozCompilerCreateNamedBlock C .blockExit
  let (C, fail) := mozCompilerCreateNamedBlock C .blockFail
  (C, { head := head, next := next, fail := fail, cur := head })

def mozCompilerSetLabel (S : MozState) (bb : BlockId) : MozState := { S with cur := bb }

def mozCompilerAdd (C : MozCompiler) (S : MozState) (ir : Ir) : MozCompiler :=
  C.blockAppend S.cur ir

/-- `IR_ALLOC` followed by `moz_compiler_add`. -/
def mozCompilerEmit (C : MozCompiler) (S : MozState) (op : Op) : MozCompiler :=
  let (C, ir) := irAlloc C S op
  mozCompilerAdd C S ir

def mozCompilerLink (C : MozCompiler) (S : MozState) (bb1 bb2 : BlockId) : MozCompiler :=
  (mozCompilerEmit C S (.iJump bb2)).blockLink bb1 bb2

def mozInvokeToIr (C : MozCompiler) (S : MozState) (decl : ℕ) : MozCompiler :=
  mozCompilerEmit C S (.iInvoke decl)

def mozAnyToIr (C : MozCompiler) (S : MozState) : MozCompiler := mozCompilerEmit C S .iAny

def mozByteToIr (C : MozCompiler) (S : MozState) (byte : UInt8) : MozCompiler :=
  mozCompilerEmit C S (.iByte byte)

def mozStrToIr (C : MozCompiler) (S : MozState) (list : List UInt8) : MozCompiler :=
  let (C, strId) := mozCompilerAddString C list
  mozCompilerEmit C S (.iStr strId)

def mozSetToIr (C : MozCompiler) (S : MozState) (set : Bitset) : MozCompiler :=
  let (C, setId) := mozCompilerAddSet C set
  mozCompilerEmit C S (.iSet setId)

/-- `Fail` is a bare jump to the fail block, without a CFG edge. -/
def mozFailToIr (C : MozCompiler) (S : MozState) : MozCompiler :=
  mozCompilerEmit C S (.iJump S.fail)

def mozNotAnyToNAny (C : MozCompiler) (S : MozState) : MozCompiler := mozCompilerEmit C S .iNAny

def mozOptionToOSet (C : MozCompiler) (S : MozState) (set : Bitset) : MozCompiler :=
  let (C, setId) := mozCompilerAddSet C set
  mozCompilerEmit C S (.iOSet setId)

def mozOptionToOStr (C : MozCompiler) (S : MozState) (list : List UInt8) : MozCompiler :=
  let (C, strId) := mozCompilerAddString C list
  mozCompilerEmit C S (.iOStr strId)

def mozOptionToOByte (C : MozCompiler) (S : MozState) (byte : UInt8) : MozCompiler :=
  mozCompilerEmit C S (.iOByte byte)

def mozRepetitionToRAny (C : MozCompiler) (S : MozState) : MozCompiler :=
  mozCompilerEmit C S .iRAny

def mozRepetitionToRSet (C : MozCompiler) (S : MozState) (set : Bitset) : MozCompiler :=
  let (C, setId) := mozCompilerAddSet C set
  mozCompilerEmit C S (.iRSet setId)

def mozRepetitionToRStr (C : MozCompiler) (S : MozState) (list : List UInt8) : MozCompiler :=
  let (C, strId) := mozCompilerAddString C list
  mozCompilerEmit C S (.iRStr strId)

def mozRepetitionToRByte (C : MozCompiler) (S : MozState) (byte : UInt8) : MozCompiler :=
  mozCompilerEmit C S (.iRByte byte)

def mozTcaptureToIr (C : MozCompiler) (S : MozState) : MozCompiler :=
  mozCompilerEmit C S (.iTCapture 0)

def mozTpushToIr (C : MozCompiler) (S : MozState) : MozCompiler := mozCompilerEmit C S .iTPush

def mozTpopToIr (C : MozCompiler) (S : MozState) (name : List UInt8) : MozCompiler :=
  let (C, tagId) := mozCompilerAddTag C name
  mozCompilerEmit C S (.iTPop tagId)

def mozTnewToIr (C : MozCompiler) (S : MozState) : MozCompiler :=
  mozCompilerEmit C S (.iTNew 0)

def mozTtagToIr (C : MozCompiler) (S : MozState) (name : List UInt8) : MozCompiler :=
  let (C, tagId) := mozCompilerAddTag C name
  mozCompilerEmit C S (.iTTag tagId)

mutual

/-- `moz_expr_to_ir`, with the bodies of the recursive `moz_*_to_ir` in place. -/
def mozExprToIr : Expr → MozCompiler → MozState → MozCompiler × MozState
  | .empty, C, S => (C, S)
  | .invoke decl, C, S => (mozInvokeToIr C S decl, S)
  | .any, C, S => (mozAnyToIr C S, S)
  | .byte byte, C, S => (mozByteToIr C S byte, S)
  | .str list, C, S => (mozStrToIr C S list, S)
  | .set set, C, S => (mozSetToIr C S set, S)
  | .fail, C, S => (mozFailToIr C S, S)
  | .and expr, C, S =>
    let (C, head) := mozCompilerCreateBlock C
    let (C, next) := mozCompilerCreateBlock C
    let (C, fail) := mozCompilerCreateBlock C
    let C := mozCompilerLink C S S.cur head
    let state := mozCompilerSetLabel { S with next := next, fail := fail } head
    let C := mozCompilerEmit C state .iPStore
    let (C, state) := mozExprToIr expr C state
    let C := mozCompilerLink C state state.cur state.next
    let state := { mozCompilerSetLabel state state.next with fail := S.fail }
    let C := mozCompilerEmit C state .iPLoad
    let state := mozCompilerSetLabel { state with fail := fail } fail
    let C := mozCompilerLink C state state.fail S.fail
    (C, mozCompilerSetLabel S state.next)
  | .not expr, C, S =>
    match expr with
    | .any => (mozNotAnyToNAny C S, S)
    | _ =>
      let (C, head) := mozCompilerCreateBlock C
      let (C, next) := mozCompilerCreateBlock C
      let (C, fail) := mozCompilerCreateBlock C
      let C := mozCompilerLink C S S.cur head
      let state := mozCompilerSetLabel { S with next := fail, fail := next } head
      let C := mozCompilerEmit C state .iPStore
      let (C, state) := mozExprToIr expr C state
      let C := mozCompilerLink C state state.cur state.next
      let state := mozCompilerSetLabel state state.next
      let C := mozCompilerLink C state state.next S.fail
      let curFail := state.fail
      let state := { mozCompilerSetLabel state curFail with fail := S.fail }
      let C := mozCompilerEmit C state .iPLoad
      (C, mozCompilerSetLabel S curFail)
  | .option expr, C, S =>
    match expr with
    | .set set => (mozOptionToOSet C S set, S)
    | .byte byte => (mozOptionToOByte C S byte, S)
    | .str list => (mozOptionToOStr C S list, S)
    | _ =>
      let (C, fail) := mozCompilerCreateBlock C
      let (C, state) := mozExprToIr expr C { S with next := fail, fail := fail }
      let C := mozCompilerLink C state state.cur state.fail
      (C, mozCompilerSetLabel S state.fail)
  | .choice list, C, S =>
    let (C, blocks) := mozCompilerCreateBlocks C list.length
    let blocks := blocks ++ [S.fail]
    let (C, next) := mozCompilerCreateBlock C
    let C := mozCompilerLink C S S.cur (blocks.headD 0)
    let (C, state) := mozChoiceToIr next list blocks C S
    (C, mozCompilerSetLabel S state.next)
  | .sequence list, C, S =>
    let (C, next) := mozCompilerCreateBlock C
    let (C, blocks) := mozCompilerCreateBlocks C list.length
    let (C, state) := mozSequenceToIr list blocks C { S with next := next }
    let C := mozCompilerLink C state state.cur state.next
    (C, mozCompilerSetLabel S state.next)
  | .repetition list, C, S =>
    match list with
    | [.any] => (mozRepetitionToRAny C S, S)
    | [.set set] => (mozRepetitionToRSet C S set, S)
    | [.byte byte] => (mozRepetitionToRByte C S byte, S)
    | [.str str] => (mozRepetitionToRStr C S str, S)
    | _ =>
      let (C, blocks) := mozCompilerCreateBlocks C list.length
      let blocks := blocks ++ [S.cur]
      let C := C.blockSetType S.cur .blockLoopHead
      let (C, fail) := mozCompilerCreateBlock C
      let state := { S with fail := fail }
      let C := mozCompilerLink C state state.cur (blocks.headD 0)
      let (C, _) := mozRepetitionToIr fail list blocks C state
      (C, mozCompilerSetLabel S fail)
  | .tcapture, C, S => (mozTcaptureToIr C S, S)
  | .tpush, C, S => (mozTpushToIr C S, S)
  | .tpop name, C, S => (mozTpopToIr C S name, S)
  | .tnew, C, S => (mozTnewToIr C S, S)
  | .ttag name, C, S => (mozTtagToIr C S name, S)
  | .todo _, C, S => (C, S)

/-- The loop of `moz_Choice_to_ir`; the list of blocks starts at `blocks[i]`. -/
def mozChoiceToIr (next : BlockId) :
    List Expr → List BlockId → MozCompiler → MozState → MozCompiler × MozState
  | [], _, C, state => (C, state)
  | x :: list, blocks, C, state =>
    let state := { state with next := next, fail := blocks.tail.headD 0 }
    let state := mozCompilerSetLabel state (blocks.headD 0)
    let (C, state) := mozExprToIr x C state
    let C := mozCompilerLink C state state.cur state.next
    mozChoiceToIr next list blocks.tail C state

/-- The loop of `moz_Sequence_to_ir`. -/
def mozSequenceToIr :
    List Expr → List BlockId → MozCompiler → MozState → MozCompiler × MozState
  | [], _, C, state => (C, state)
  | x :: list, blocks, C, state =>
    let C := mozCompilerLink C state state.cur (blocks.headD 0)
    let state := mozCompilerSetLabel state (blocks.headD 0)
    let (C, state) := mozExprToIr x C state
    mozSequenceToIr list blocks.tail C state

/-- The loop of `moz_Repetition_to_ir`. -/
def mozRepetitionToIr (fail : BlockId) :
    List Expr → List BlockId → MozCompiler → MozState → MozCompiler × MozState
  | [], _, C, state => (C, state)
  | x :: list, blocks, C, state =>
    let state := mozCompilerSetLabel state (blocks.headD 0)
    let state := { state with next := blocks.tail.headD 0, fail := fail }
    let (C, state) := mozExprToIr x C state
    let C := mozCompilerLink C state state.cur (blocks.tail.headD 0)
    mozRepetitionToIr fail list blocks.tail C state

end

/-- `moz_decl_to_ir`, without the store of `decl->inst`. -/
def mozBodyToIr (C : MozCompiler) (body : Expr) : MozCompiler × MozState :=
  let (C, S) := mozStateInit C
  let S := mozCompilerSetLabel S S.head
  let (C, S) := mozExprToIr body C S
  let C := mozCompilerLink C S S.cur S.next
  let S := mozCompilerSetLabel S S.next
  let C := mozCompilerEmit C S .iRet
  let S := mozCompilerSetLabel S S.fail
  (mozCompilerEmit C S .iFail, S)

/-- `moz_decl_to_ir` for the production at index `d` of `C->decls`. -/
def mozDeclToIr (C : MozCompiler) (d : ℕ) (decl : Decl) : MozCompiler :=
  let (C, S) := mozBodyToIr C decl.body
  { C with decls := C.decls.set d { decl with inst := some S.head } }

/-- `moz_ast_to_ir`: every production that is still referenced. -/
def mozAstToIr (C : MozCompiler) : MozCompiler :=
  C.decls.zipIdx.foldl
    (fun C (decl, d) => if 0 < decl.refc then mozDeclToIr C d decl else C) C

end Moz.Compiler
