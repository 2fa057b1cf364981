import Moz.Compiler.AstOptimize
import Moz.Compiler.Classes
import Moz.Compiler.Lowering

/-!
# From the parse tree to expressions

`moz_node_to_ast`: the productions are declared, the body of each is built from its
node, and the optimiser runs. A node of the parse tree is its tag, the text it
covers, as the bytes from `pos` on with a length, and its children.
-/

namespace Moz.Compiler

/-- The tags `expression.c` compares with; `other` is any other tag. -/
inductive Tag
  | nonTerminal | any | character | string | class_ | and | choice | empty | fail | not | option
  | sequence | repetition | repetition1 | tcapture | tdetree | tlfold | link | label | new
  | replace | tagging | block | exists_ | if_ | is | isa | local_ | xmatch | xon | def_ | sym
  | list | production | comment | format | name | other
  deriving DecidableEq, Repr

inductive GrammarNode
  | mk (tag : Tag) (pos : List UInt8) (len : ℕ) (children : List GrammarNode)

namespace GrammarNode

def tag : GrammarNode → Tag
  | mk tag _ _ _ => tag

def pos : GrammarNode → List UInt8
  | mk _ pos _ _ => pos

def len : GrammarNode → ℕ
  | mk _ _ len _ => len

def children : GrammarNode → List GrammarNode
  | mk _ _ _ children => children

end GrammarNode

namespace AstM

open Logged (get set raise note lift)

def exprNew (v : Variant) : AstM ExprPtr := do
  note .build
  exprAlloc v

/-- `MOZ_RC_INIT_FIELD(e->expr, expr)` on a new expression. -/
def exprNewUnary (v : ExprPtr → Variant) (expr : ExprPtr) : AstM ExprPtr := do
  note .build
  let e ← exprAlloc (v expr)
  retain expr
  return e

def mozExprNewInvoke (name : List UInt8) (decl : Option DeclPtr) : AstM ExprPtr := do
  note .build
  let e ← exprAlloc (.invoke name decl)
  match decl with
  | some decl => onHeap fun H => mozRcRetain H (.decl decl)
  | none => pure ()
  return e

def exprNewLeaf : Expr → AstM ExprPtr
  | Expr.empty => exprNew .empty
  | Expr.byte byte => exprNew (.byte byte)
  | Expr.str list => exprNew (.str list)
  | Expr.set bits => exprNew (.set bits)
  | _ => raise .range

/-- `ARRAY_add(expr_ptr_t, &e->list, x)` with its `MOZ_RC_RETAIN(x)`. -/
def listAdd (e x : ExprPtr) : AstM Unit := do
  note .build
  writeList e ((← readList e) ++ [x])
  retain x

def findDecl (pos : List UInt8) (len : ℕ) : List DeclPtr → AstM (Option DeclPtr)
  | [] => return none
  | decl :: decls => do
    let obj ← readDecl decl
    if obj.name.length == len && strncmpEq (pos.take len) obj.name then
      return some decl
    else
      findDecl pos len decls

def compileInvoke (pos : List UInt8) (len : ℕ) : AstM ExprPtr := do
  let decl ← findDecl pos len (← get).decls
  mozExprNewInvoke (pos.take len) decl

section Build

variable (ndebug : Bool)

def compileStr (pos : List UInt8) (len : ℕ) : AstM ExprPtr := do
  check ndebug (0 < len)
  exprNewLeaf (Compiler.compileStr pos len)

def compileInvokeOrStr (pos : List UInt8) (len : ℕ) : AstM ExprPtr := do
  match ← findDecl pos len (← get).decls with
  | some _ => compileInvoke pos len
  | none => compileStr ndebug pos len

def compileByte (pos : List UInt8) (len : ℕ) (children : List GrammarNode) : AstM ExprPtr := do
  check ndebug (children.length == 0)
  exprNewLeaf (Compiler.compileByte pos len)

/-- What `compile_Set` reads of a child; a child with another tag leaves its `data` zero. -/
def classNode (child : GrammarNode) : AstM ClassNode :=
  match child.tag with
  | .class_ => return .cls child.pos
  | .list => do
    check ndebug (child.children.length == 2)
    match child.children with
    | left :: right :: _ => return .list left.pos right.pos
    | _ => raise .range
  | _ => do
    check ndebug false
    return .cls []

def classNodes : List GrammarNode → AstM (List ClassNode)
  | [] => return []
  | child :: children => do
    let node ← classNode ndebug child
    let nodes ← classNodes children
    return node :: nodes

def compileSet (children : List GrammarNode) : AstM ExprPtr := do
  match Compiler.compileSet ndebug (← classNodes ndebug children) with
  | .ok expr => exprNewLeaf expr
  | .error .assertFailed => raise .assertion
  | .error .outOfBounds => raise .range

/-- `compile_And`, `compile_Not` and `compile_Option` on the number of children and the first. -/
def compileUnary (v : ExprPtr → Variant) (length : ℕ) (child : AstM ExprPtr) : AstM ExprPtr := do
  check ndebug (length == 1)
  exprNewUnary v (← child)

def compileAnd := compileUnary ndebug .and

def compileNot := compileUnary ndebug .not

def compileOption := compileUnary ndebug .option

/-- `compile_Choice` and `compile_Sequence`, on the loop that compiles the children. -/
def compileElements (v : List ExprPtr → Variant) (list : ExprPtr → AstM Unit) : AstM ExprPtr := do
  let e ← exprNew (v [])
  list e
  return e

def compileChoice := compileElements .choice

def compileSequence := compileElements .sequence

def compileRepetition (length : ℕ) (list : ExprPtr → AstM Unit) : AstM ExprPtr := do
  let e ← exprNew (.repetition [])
  check ndebug (length == 1)
  list e
  return e

def addAll (e : ExprPtr) : List ExprPtr → AstM Unit
  | [] => return ()
  | x :: list => do
    listAdd e x
    addAll e list

def compileRepetition1 (length : ℕ) (list : ExprPtr → AstM Unit) : AstM ExprPtr := do
  let e ← exprNew (.sequence [])
  let rep ← compileRepetition ndebug length list
  addAll e (← readList rep)
  listAdd e rep
  return e

/-- A constructor that asserts that it is not used. -/
def exprNewTodo (v : Variant) : AstM ExprPtr := do
  check ndebug false
  exprNew v

/-- `compile_Tlink` on the label and the action that compiles the child. -/
def compileTlink (label : List UInt8) (child : AstM ExprPtr) : AstM ExprPtr := do
  let seq ← exprNew (.sequence [])
  let push ← exprNew .tpush
  let body ← child
  let pop ← exprNew (.tpop label)
  addAll seq [push, body, pop]
  return seq

def compileTnew (child : AstM ExprPtr) : AstM ExprPtr := do
  let seq ← exprNew (.sequence [])
  let tnew ← exprNew .tnew
  let tcap ← exprNew .tcapture
  let body ← child
  addAll seq [tnew, body, tcap]
  return seq

/-- `compile_Xexists`, `compile_Xis` and `compile_Xisa`: the text of the first child is the name. -/
def compileNamed (v : List UInt8 → Variant) (children : List GrammarNode) : AstM ExprPtr :=
  match children with
  | name :: _ => exprNew (v (name.pos.take name.len))
  | [] => raise .range

/-- `compile_Xlocal` and `compile_Xsymbol`. -/
def compileNameUnary (v : List UInt8 → ExprPtr → Variant) (children : List GrammarNode)
    (child : AstM ExprPtr) : AstM ExprPtr :=
  match children with
  | name :: _ => do exprNewUnary (v (name.pos.take name.len)) (← child)
  | [] => raise .range

mutual

def compileExpression : GrammarNode → AstM ExprPtr
  | .mk tag pos len children =>
    match tag with
    | .nonTerminal => compileInvoke pos len
    | .any => exprNew .any
    | .character => compileByte ndebug pos len children
    | .string => compileInvokeOrStr ndebug pos len
    | .class_ => compileSet ndebug children
    | .and => compileAnd ndebug children.length (compileNode children 0)
    | .choice => compileChoice fun e => compileList e children
    | .empty => exprNew .empty
    | .fail => exprNewTodo ndebug .fail
    | .not => compileNot ndebug children.length (compileNode children 0)
    | .option => compileOption ndebug children.length (compileNode children 0)
    | .sequence => compileSequence fun e => compileList e children
    | .repetition => compileRepetition ndebug children.length fun e => compileList e children
    | .repetition1 => compileRepetition1 ndebug children.length fun e => compileList e children
    | .tcapture => exprNew .tcapture
    | .tdetree => exprNewTodo ndebug .tdetree
    | .tlfold => exprNewTodo ndebug .tlfold
    | .link | .label =>
      if children.length = 1 then compileTlink [] (compileNode children 0)
      else
        match children with
        | label :: _ => compileTlink (label.pos.take label.len) (compileNode children 1)
        | [] => raise .range
    | .new => compileTnew (compileNode children 0)
    | .replace => exprNewTodo ndebug .treplace
    | .tagging => exprNew (.ttag (pos.take len))
    | .block => do exprNewUnary .xblock (← compileNode children 0)
    | .exists_ => compileNamed .xexists children
    | .if_ => exprNewTodo ndebug .xif
    | .is => compileNamed .xis children
    | .isa => compileNamed .xisa children
    | .local_ => compileNameUnary .xlocal children (compileNode children 1)
    | .xmatch => exprNewTodo ndebug .xmatch
    | .xon => exprNewTodo ndebug .xon
    | .def_ | .sym => compileNameUnary .xsymbol children (compileNode children 1)
    | _ => do
      -- the result is `NULL`, and every caller retains it
      check ndebug false
      raise .null

/-- `compile_expression(C, Node_get(node, i))` on the children of a node. -/
def compileNode : List GrammarNode → ℕ → AstM ExprPtr
  | [], _ => raise .range
  | child :: _, 0 => compileExpression child
  | _ :: children, i + 1 => compileNode children i

def compileList (e : ExprPtr) : List GrammarNode → AstM Unit
  | [] => return ()
  | child :: children => do
    let expr ← compileExpression child
    listAdd e expr
    compileList e children

end

/-- `MOZ_RC_INIT_FIELD(decl->body, body)` -/
def initBody (decl : DeclPtr) (body : ExprPtr) : AstM Unit := do
  note .build
  check ndebug (← readDecl decl).body.isNone
  retain body
  writeSlot (.body decl) body

def compileProduction (node : GrammarNode) (decl : DeclPtr) : AstM Unit := do
  initBody ndebug decl (← compileNode ndebug node.children 2)

def mozDeclNew (name : List UInt8) : AstM Unit := do
  note .declare
  let c ← get
  set { c with heap := c.heap.declare name, decls := c.decls ++ [c.heap.next] }

def declareAll : List GrammarNode → AstM Unit
  | [] => return ()
  | child :: children => do
    if child.tag = .production then
      check ndebug (child.children.length == 3)
      match child.children with
      | _ :: name :: _ =>
        check ndebug (name.tag == .name || name.tag == .string)
        mozDeclNew (name.pos.take name.len)
      | _ => raise .range
    declareAll children

def mozAstPrepare (node : GrammarNode) : AstM Unit := do
  declareAll ndebug node.children
  note .declare
  match (← get).decls with
  | decl :: _ => onHeap fun H => mozRcRetain H (.decl decl)
  | [] => return ()

/-- The loop of `moz_node_to_ast`, with the productions from `decl_index` on. -/
def compileProductions : List GrammarNode → List DeclPtr → AstM Unit
  | [], _ => return ()
  | child :: children, decls => do
    if child.tag = .production then
      match decls with
      | decl :: decls => do
        compileProduction ndebug child decl
        compileProductions children decls
      | [] => raise .range
    else
      compileProductions children decls

def mozNodeToAst (fuel passes : ℕ) (node : GrammarNode) : AstM Unit := do
  mozAstPrepare ndebug node
  compileProductions ndebug node.children (← get).decls
  mozAstOptimize ndebug fuel passes

end Build

end AstM

end Moz.Compiler
