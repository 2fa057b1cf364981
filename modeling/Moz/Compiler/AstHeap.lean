import Mathlib.Data.List.ReduceOption
import Moz.Compiler.Expression

/-!
# Productions and expressions with their counts

`decl_t` and `expr_t` as `expression.c` builds and rewrites them. A `decl_t *` or
an `expr_t *` is an address; what has been swept is no longer in the heap, so that
reading or writing a field of it is a fault. No address is handed out twice.
-/

namespace Moz.Compiler

abbrev DeclPtr := ℕ

abbrev ExprPtr := ℕ

inductive Ptr
  | decl (decl : DeclPtr)
  | expr (e : ExprPtr)
  deriving DecidableEq, Repr

def Ptr.addr : Ptr → ℕ
  | .decl d => d
  | .expr e => e

/-- `decl_t` without `inst`, which only the lowering uses. -/
structure DeclObj where
  refc : ℤ := 0
  name : List UInt8
  body : Option ExprPtr := none
  deriving DecidableEq, Repr

/-- The type of an `expr_t` and the fields of its variant. -/
inductive Variant
  | empty
  | invoke (name : List UInt8) (decl : Option DeclPtr)
  | any
  | byte (byte : UInt8)
  | str (list : List UInt8)
  | set (set : Bitset)
  | and (expr : ExprPtr)
  | choice (list : List ExprPtr)
  | fail
  | not (expr : ExprPtr)
  | option (expr : ExprPtr)
  | sequence (list : List ExprPtr)
  | repetition (list : List ExprPtr)
  | tcapture
  | tdetree
  | tlfold
  | tpush
  | tpop (name : List UInt8)
  | tnew
  | treplace
  | ttag (name : List UInt8)
  | xblock (expr : ExprPtr)
  | xexists (name : List UInt8)
  | xif
  | xis (name : List UInt8)
  | xisa (name : List UInt8)
  | xon
  | xmatch
  | xlocal (name : List UInt8) (expr : ExprPtr)
  | xsymbol (name : List UInt8) (expr : ExprPtr)
  deriving DecidableEq, Repr

structure ExprObj where
  refc : ℤ := 0
  variant : Variant
  deriving DecidableEq, Repr

/-- What the sweep function of a type releases, in order; `none` is a null pointer. `moz_Expr_sweep`
releases nothing, `moz_Unary_sweep` and `moz_NameUnary_sweep` the operand, `moz_Invoke_sweep` the
production and `moz_List_sweep` the elements. -/
def Variant.refs : Variant → List (Option Ptr)
  | .invoke _ decl => [decl.map .decl]
  | .and expr | .not expr | .option expr | .xblock expr => [some (.expr expr)]
  | .xlocal _ expr | .xsymbol _ expr => [some (.expr expr)]
  | .choice list | .sequence list | .repetition list => list.map fun x => some (.expr x)
  | _ => []

inductive Content
  | decl (name : List UInt8) (body : Option ExprPtr)
  | expr (variant : Variant)
  deriving DecidableEq, Repr

/-- What is released when the object is swept: `moz_decl_sweep` releases the body. -/
def Content.refs : Content → List (Option Ptr)
  | .decl _ body => [body.map .expr]
  | .expr variant => variant.refs

inductive Fault
  /-- a field of a swept object is read or written -/
  | swept
  /-- a null pointer is followed -/
  | null
  /-- an `assert` fails -/
  | assertion
  /-- the array that is walked over is moved, or it is read past its end -/
  | range
  /-- the recursion is too deep -/
  | depth
  deriving DecidableEq, Repr

structure AstHeap where
  decls : DeclPtr → Option DeclObj := fun _ => none
  exprs : ExprPtr → Option ExprObj := fun _ => none
  next : ℕ := 0

namespace AstHeap

variable (H : AstHeap)

def content : Ptr → Option Content
  | .decl decl => (H.decls decl).map fun obj => .decl obj.name obj.body
  | .expr e => (H.exprs e).map fun obj => .expr obj.variant

def refc : Ptr → ℤ
  | .decl decl => ((H.decls decl).map DeclObj.refc).getD 0
  | .expr e => ((H.exprs e).map ExprObj.refc).getD 0

def refs (p : Ptr) : List (Option Ptr) := ((H.content p).map Content.refs).getD []

def setRefc (refc : ℤ) : Ptr → AstHeap
  | .decl decl =>
    { H with decls := fun d => if d = decl then (H.decls d).map ({ · with refc := refc })
                               else H.decls d }
  | .expr e =>
    { H with exprs := fun x => if x = e then (H.exprs x).map ({ · with refc := refc })
                               else H.exprs x }

/-- `VM_FREE` -/
def free : Ptr → AstHeap
  | .decl decl => { H with decls := fun d => if d = decl then none else H.decls d }
  | .expr e => { H with exprs := fun x => if x = e then none else H.exprs x }

def children (p : Ptr) : List Ptr := (H.refs p).reduceOption

variable {H}

@[simp] theorem content_setRefc (refc : ℤ) (p q : Ptr) :
    (H.setRefc refc p).content q = H.content q := by
  cases p <;> cases q <;> simp only [setRefc, content]
  all_goals split_ifs <;> simp [Option.map_map, Function.comp_def]

theorem refs_congr {H' : AstHeap} {p : Ptr} (h : H'.content p = H.content p) :
    H'.refs p = H.refs p := by
  rw [refs, refs, h]

theorem refc_setRefc_self (refc : ℤ) {p : Ptr} (h : (H.content p).isSome) :
    (H.setRefc refc p).refc p = refc := by
  cases p with
  | decl decl =>
    obtain ⟨obj, hobj⟩ := Option.isSome_iff_exists.1 (by simpa [content] using h)
    simp [setRefc, AstHeap.refc, hobj]
  | expr e =>
    obtain ⟨obj, hobj⟩ := Option.isSome_iff_exists.1 (by simpa [content] using h)
    simp [setRefc, AstHeap.refc, hobj]

theorem refc_setRefc_of_ne (refc : ℤ) {p q : Ptr} (h : q ≠ p) :
    (H.setRefc refc p).refc q = H.refc q := by
  cases p <;> cases q <;> simp_all [setRefc, AstHeap.refc]

@[simp] theorem next_setRefc (refc : ℤ) (p : Ptr) : (H.setRefc refc p).next = H.next := by
  cases p <;> rfl

@[simp] theorem content_free_self (p : Ptr) : (H.free p).content p = none := by
  cases p <;> simp [free, content]

theorem content_free_of_ne {p q : Ptr} (h : q ≠ p) : (H.free p).content q = H.content q := by
  cases p <;> cases q <;> simp_all [free, content]

theorem refc_free_of_ne {p q : Ptr} (h : q ≠ p) : (H.free p).refc q = H.refc q := by
  cases p <;> cases q <;> simp_all [free, AstHeap.refc]

@[simp] theorem next_free (p : Ptr) : (H.free p).next = H.next := by
  cases p <;> rfl

end AstHeap

/-- `MOZ_RC_RETAIN` -/
def mozRcRetain (H : AstHeap) (o : Ptr) : Except Fault AstHeap :=
  if (H.content o).isSome then .ok (H.setRefc (H.refc o + 1) o) else .error .swept

def sweepRefs (release : AstHeap → Ptr → Except Fault AstHeap) (H : AstHeap)
    (refs : List (Option Ptr)) : Except Fault AstHeap :=
  refs.foldlM (fun H ref =>
    match ref with
    | some o => release H o
    | none => .error .null) H

/-- `MOZ_RC_RELEASE` with `moz_decl_sweep` or `moz_expr_sweep`. -/
def mozRcReleaseFuel (ndebug : Bool) : ℕ → AstHeap → Ptr → Except Fault AstHeap
  | 0, _, _ => .error .depth
  | fuel + 1, H, o =>
    if (H.content o).isNone then .error .swept
    else if !ndebug && H.refc o ≤ 0 then .error .assertion
    else
      let H := H.setRefc (H.refc o - 1) o
      if H.refc o = 0 then do
        let H ← sweepRefs (mozRcReleaseFuel ndebug fuel) H (H.refs o)
        return H.free o
      else .ok H

def mozRcRelease (ndebug : Bool) (H : AstHeap) (o : Ptr) : Except Fault AstHeap :=
  mozRcReleaseFuel ndebug (2 * H.next + 1) H o

end Moz.Compiler
