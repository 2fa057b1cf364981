import Moz.Compiler.Block
import Moz.Compiler.Meaning

/-!
# Rewriting expressions

The optimiser of `expression.c` on an expression no node of which has a second
reference: a node that is released is swept, and a swept node is cleared, so that
its type reads `Empty` where a local variable still points at it. Instead of
`modified` the functions return the rewrites they made, in order; `modified` is 1
if there is any. The functions are those of a build with `NDEBUG`.
-/

namespace Moz.Compiler

inductive Rewrite
  | inlined (decl : ℕ)
  | collapsed
  | merged (inverted : Bool)
  | flattened
  | joined
  | complemented (byte : UInt8)
  | dropped
  deriving DecidableEq, Repr

def isByteOrSet : Expr → Bool
  | .byte _ => true
  | .set _ => true
  | _ => false

mutual

def isPatternMatchOnly : Expr → Bool
  | .empty => true
  | .any => true
  | .byte _ => true
  | .str _ => true
  | .set _ => true
  | .fail => true
  | .and expr => isPatternMatchOnly expr
  | .not expr => isPatternMatchOnly expr
  | .option expr => isPatternMatchOnly expr
  | .choice list => arePatternMatchOnly list
  | .sequence list => arePatternMatchOnly list
  | .repetition list => arePatternMatchOnly list
  | _ => false

def arePatternMatchOnly : List Expr → Bool
  | [] => true
  | expr :: list => isPatternMatchOnly expr && arePatternMatchOnly list

end

def mozDeclUseOnce (decl : Decl) : Bool := decl.refc == 2

def isSingle : Expr → Bool
  | .empty => true
  | .any => true
  | .byte _ => true
  | .str _ => true
  | .set _ => true
  | .fail => true
  | _ => false

/-- `moz_Invoke_optimize`; a name without a production is left alone. -/
def mozInvokeOptimize (decls : List Decl) (decl : ℕ) : Expr × List Rewrite :=
  match decls[decl]? with
  | none => (.invoke decl, [])
  | some d =>
    if mozDeclUseOnce d || isPatternMatchOnly d.body || isSingle d.body then
      (d.body, [.inlined decl])
    else (.invoke decl, [])

def useByteMapOptimization (list : List Expr) : Bool :=
  list.all fun x =>
    match x with
    | .byte _ => true
    | .set _ => true
    | .not expr => isByteOrSet expr
    | _ => false

def putByte (set : Bitset) (byte : UInt8) : Bitset := set ||| 1#256 <<< byte.toNat

def putSet (set : Bitset) (set' : Bitset) : Bitset := set ||| set'

/-- What the `switch` of `moz_Choice_optimize` puts into the set for a `Byte` or a `Set`. -/
def putOperand (set : Bitset) : Expr → Bitset
  | .byte byte => putByte set byte
  | .set set' => putSet set set'
  | _ => set

/-- A round of the loop of `moz_Choice_optimize`. The operand of a `Not` is put into the set as it
is; what is flipped is a second bitset, which holds only `0`. -/
def putAlternative (set : Bitset) : Expr → Bitset
  | .not expr => putSet (putOperand set expr) (~~~putByte 0 0)
  | expr => putSet (putOperand set expr) 0

def isNot : Expr → Bool
  | .not _ => true
  | _ => false

/-- `moz_Choice_optimize` once the alternatives are optimised. -/
def mozChoiceOptimize (list : List Expr) : Expr × List Rewrite :=
  match list with
  | [child] => (child, [.collapsed])
  | list =>
    if useByteMapOptimization list then
      (.set (list.foldl putAlternative 0), [.merged (list.any isNot)])
    else (.choice list, [])

/-- The `while` loop of `_moz_Sequence_optimize` on a `Str` and what follows it: the string, what
still follows, and the rewrites. A `Byte` is put at the end of the node itself; for a `Str` there is
a new node, and the loop stops at the swept one. -/
def mozSequenceConcat (s1 : List UInt8) : List Expr → List UInt8 × List Expr × List Rewrite
  | .byte byte :: list =>
    let (s1, list, rewrites) := mozSequenceConcat (s1 ++ [byte]) list
    (s1, list, .joined :: rewrites)
  | .str s2 :: list => (s1 ++ s2, list, [.joined])
  | list => (s1, list, [])

mutual

def Expr.size : Expr → ℕ
  | .and expr => expr.size + 1
  | .not expr => expr.size + 1
  | .option expr => expr.size + 1
  | .choice list => listSize list + 1
  | .sequence list => listSize list + 1
  | .repetition list => listSize list + 1
  | _ => 1

def listSize : List Expr → ℕ
  | [] => 0
  | expr :: list => expr.size + listSize list

end

theorem listSize_append (l l' : List Expr) : listSize (l ++ l') = listSize l + listSize l' := by
  induction l with
  | nil => simp [listSize]
  | cons expr l ih => simp [listSize, ih, Nat.add_assoc]

theorem listSize_mozSequenceConcat (s1 : List UInt8) (list : List Expr) :
    listSize (mozSequenceConcat s1 list).2.1 ≤ listSize list := by
  induction s1, list using mozSequenceConcat.induct with
  | case1 s1 byte list _ _ _ _ ih =>
    have hstep : (mozSequenceConcat s1 (.byte byte :: list)).2.1 =
        (mozSequenceConcat (s1 ++ [byte]) list).2.1 := rfl
    rw [hstep]
    exact Nat.le_trans ih (Nat.le_add_left _ _)
  | case2 s1 s2 list => simp [mozSequenceConcat, listSize]
  | case3 s1 list h1 h2 => simp [mozSequenceConcat]

/-- `_moz_Sequence_optimize` from an index on. -/
def mozSequenceLoop : List Expr → List Expr × List Rewrite
  | [] => ([], [])
  | .sequence seq :: list =>
    -- the element now at the index is passed over
    match _h : seq ++ list with
    | [] => ([], [.flattened])
    | child :: list' =>
      let (list, rewrites) := mozSequenceLoop list'
      (child :: list, .flattened :: rewrites)
  | .byte b1 :: .byte b2 :: list =>
    let (list, rewrites) := mozSequenceLoop list
    (.str [b1, b2] :: list, .joined :: rewrites)
  | .str s1 :: list =>
    let (list', rewrites) := mozSequenceLoop (mozSequenceConcat s1 list).2.1
    (.str (mozSequenceConcat s1 list).1 :: list', (mozSequenceConcat s1 list).2.2 ++ rewrites)
  | .not (.byte byte) :: .any :: list =>
    let (list, rewrites) := mozSequenceLoop list
    (.set (~~~putByte (putByte 0 byte) 0) :: list, .complemented byte :: rewrites)
  | child :: list =>
    let (list, rewrites) := mozSequenceLoop list
    (child :: list, rewrites)
termination_by list => listSize list
decreasing_by
  · have hsize := congrArg listSize _h
    simp only [listSize_append, listSize, Expr.size] at hsize ⊢
    omega
  · simp only [listSize, Expr.size]
    omega
  · have := listSize_mozSequenceConcat s1 list
    simp only [listSize, Expr.size]
    omega
  · simp only [listSize, Expr.size]
    omega
  · have hpos : 0 < child.size := by cases child <;> simp [Expr.size]
    simp only [listSize]
    omega

def isEmpty : Expr → Bool
  | .empty => true
  | _ => false

/-- `moz_Sequence_optimize` once the elements are optimised. -/
def mozSequenceOptimize (list : List Expr) : Expr × List Rewrite :=
  let (list, rewrites) := mozSequenceLoop list
  let rewrites := rewrites ++ (list.filter isEmpty).map fun _ => .dropped
  match list.filter fun child => !isEmpty child with
  | [child] => (child, rewrites ++ [.collapsed])
  | list => (.sequence list, rewrites)

mutual

/-- `moz_expr_optimize`: the expression that is left in `*ref`. -/
def mozExprOptimize (decls : List Decl) : Expr → Expr × List Rewrite
  | .invoke decl => mozInvokeOptimize decls decl
  | .and expr =>
    let (expr, rewrites) := mozExprOptimize decls expr
    (.and expr, rewrites)
  | .not expr =>
    let (expr, rewrites) := mozExprOptimize decls expr
    (.not expr, rewrites)
  | .option expr =>
    let (expr, rewrites) := mozExprOptimize decls expr
    (.option expr, rewrites)
  | .choice list =>
    let (list, rewrites) := mozListOptimize decls list
    let (expr, rewrites') := mozChoiceOptimize list
    (expr, rewrites ++ rewrites')
  | .sequence list =>
    let (list, rewrites) := mozListOptimize decls list
    let (expr, rewrites') := mozSequenceOptimize list
    (expr, rewrites ++ rewrites')
  | .repetition list =>
    let (list, rewrites) := mozListOptimize decls list
    (.repetition list, rewrites)
  | expr => (expr, [])

def mozListOptimize (decls : List Decl) : List Expr → List Expr × List Rewrite
  | [] => ([], [])
  | expr :: list =>
    let (expr, rewrites) := mozExprOptimize decls expr
    let (list, rewrites') := mozListOptimize decls list
    (expr :: list, rewrites ++ rewrites')

end

end Moz.Compiler
