import Mathlib.Tactic

/-!
# Expressions and productions

The tree the lowering reads. `ARRAY(expr_ptr_t)` is a list of subtrees, a
`decl_t *` is the index of the production in `C->decls`, and a `bitset_t` is its
256 bits. Names are the bytes of a `name_t`. The twelve constructs whose lowering
is `TODO(e)` carry only their type: nothing else of them is ever read.
-/

namespace Moz.Compiler

/-- `bitset_t`: bit `i` is `bitset_get set i`. -/
abbrev Bitset := BitVec 256

/-- `bitset_get` on a byte index. -/
def bitsetGet (set : Bitset) (index : UInt8) : Bool := set.getLsbD index.toNat

/-- The constructs whose lowering function is `TODO(e)`. -/
inductive TodoType
  | tdetree | tlfold | treplace | xblock | xexists | xif
  | xis | xisa | xon | xmatch | xlocal | xsymbol
  deriving DecidableEq, Repr

/-- `expr_t` and its variants. -/
inductive Expr
  | empty
  | invoke (decl : ℕ)
  | any
  | byte (byte : UInt8)
  | str (list : List UInt8)
  | set (set : Bitset)
  | and (expr : Expr)
  | choice (list : List Expr)
  | fail
  | not (expr : Expr)
  | option (expr : Expr)
  | sequence (list : List Expr)
  | repetition (list : List Expr)
  | tcapture
  | tpush
  | tpop (name : List UInt8)
  | tnew
  | ttag (name : List UInt8)
  | todo (type : TodoType)

end Moz.Compiler
