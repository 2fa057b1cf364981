import Moz.Compiler.Module
import Moz.Compiler.Placement

/-!
# Constructs that are dropped

`TODO(e)` prints the expression and fails an assertion. With assertions the
compiler is aborted there; a build with `NDEBUG` goes on and has emitted nothing.
Here it is shown which grammars are lowered completely.
-/

namespace Moz.Compiler

mutual

/-- Whether `moz_expr_to_ir` comes to a `TODO`. -/
def Expr.hasTodo : Expr → Bool
  | .empty | .invoke _ | .any | .byte _ | .str _ | .set _ | .fail | .tcapture | .tpush | .tpop _
  | .tnew | .ttag _ => false
  | .and expr | .not expr | .option expr => expr.hasTodo
  | .choice list | .sequence list | .repetition list => hasTodoAny list
  | .todo _ => true

def hasTodoAny : List Expr → Bool
  | [] => false
  | x :: list => x.hasTodo || hasTodoAny list

end

/-- Whether a production that is still referenced comes to a `TODO`. -/
def MozCompiler.reachesTodo (C : MozCompiler) : Bool :=
  C.decls.any fun decl => decide (0 < decl.refc) && decl.body.hasTodo

/-- `moz_ast_to_ir` of a build with or without `NDEBUG`, where an assertion that fails has no
result. -/
def mozAstToIrBuild (ndebug : Bool) (C : MozCompiler) : Option MozCompiler :=
  if !ndebug && C.reachesTodo then none else some (mozAstToIr C)

/-- `moz_compiler_compile`, from the grammar that `moz_node_to_ast` has left in the compiler. -/
def mozCompilerCompile (ndebug : Bool) (fuel : ℕ) (C : MozCompiler) : Option (List UInt8) := do
  let C ← mozAstToIrBuild ndebug C
  let C ← mozIrOptimize fuel C
  mozVm2ModuleCompile C

/-- In `C'` every sub-expression of the productions of `C` stands as the instructions that the
layout of its construct asks for. -/
def Represented (C C' : MozCompiler) : Prop :=
  ∀ (d : ℕ) (decl : Decl), C.decls[d]? = some decl → 0 < decl.refc → ∃ entry,
    C'.decls[d]? = some { decl with inst := some entry } ∧ PlacedDecl C' decl.body entry

section Placed

variable {F : MozCompiler}

theorem Expr.implemented_of_op {e : Expr} {op : Op} (h : e.op F = some op) : e.implemented := by
  cases e with
  | any | byte | str | set | tcapture | tpush | tpop | tnew | ttag => rfl
  | not e =>
    cases e with
    | any => rfl
    | empty | invoke | byte | str | set | and | choice | fail | not | option | sequence
    | repetition | tcapture | tpush | tpop | tnew | ttag | todo => cases h
  | option e =>
    cases e with
    | byte | str | set => rfl
    | empty | invoke | any | and | choice | fail | not | option | sequence | repetition
    | tcapture | tpush | tpop | tnew | ttag | todo => cases h
  | repetition list =>
    match list, h with
    | [x], h =>
      cases x with
      | any | byte | str | set => rfl
      | empty | invoke | and | choice | fail | not | option | sequence | repetition | tcapture
      | tpush | tpop | tnew | ttag | todo => cases h
  | empty | invoke | and | choice | fail | sequence | todo => cases h

mutual

theorem Placed.implemented {hd : Bool} {e : Expr} {l l' : List Ir} {fail : BlockId} :
    Placed F hd e l fail l' → e.implemented
  | .empty => rfl
  | .one hop _ => Expr.implemented_of_op hop
  | .invoke _ => rfl
  | .fail _ => rfl
  | .and _ _ hbody _ _ _ => hbody.implemented
  | .not _ _ _ hbody _ _ _ => hbody.implemented
  | .option _ hbody _ => hbody.implemented
  | .choice _ hlist => by
    obtain ⟨hne, himpl⟩ := hlist.implemented
    simpa [Expr.implemented, hne] using himpl
  | .sequence hlist _ => hlist.implemented
  | .repetition _ hlist _ _ _ => hlist.implemented

theorem PlacedChoice.implemented {list : List Expr} {bb fail next : BlockId} :
    PlacedChoice F list bb fail next → list ≠ [] ∧ implementedAll list
  | .last hx _ => ⟨List.cons_ne_nil _ _, by simp [implementedAll, hx.implemented]⟩
  | .cons hx _ hlist =>
    ⟨List.cons_ne_nil _ _, by rw [implementedAll, hx.implemented, hlist.implemented.2]; rfl⟩

theorem PlacedSequence.implemented {list : List Expr} {l l' : List Ir} {fail : BlockId} :
    PlacedSequence F list l fail l' → implementedAll list
  | .nil => rfl
  | .cons _ hx hlist => by rw [implementedAll, hx.implemented, hlist.implemented]; rfl

end

end Placed

theorem MozCompiler.reachesTodo_iff (C : MozCompiler) :
    C.reachesTodo = true ↔ ∃ decl ∈ C.decls, 0 < decl.refc ∧ decl.body.hasTodo := by
  simp [MozCompiler.reachesTodo]

/-- `File = <def X 'a'>`, without assertions: the module is the one of an empty production. -/
example : mozCompilerCompile true 9 { decls := [{ body := .todo .xsymbol }] } =
    mozCompilerCompile true 9 { decls := [{ body := .empty }] } := by decide +kernel

end Moz.Compiler
