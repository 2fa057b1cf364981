import Moz.Compiler.Rewriting

/-!
# Merging a choice into a set

A choice of bytes and sets becomes the set of their union. A `Not` among the
alternatives consumes nothing and may succeed at the end of the input, which no
set does; a build with assertions stops there.
-/

namespace Moz.Compiler

open Peg (Exp Derives)

/-- `moz_expr_optimize` of a build with or without `NDEBUG`, where the assertion on the merging of
a `Not` has no result. -/
def mozExprOptimizeBuild (ndebug : Bool) (decls : List Decl) (expr : Expr) :
    Option (Expr × List Rewrite) :=
  let (expr, rewrites) := mozExprOptimize decls expr
  if !ndebug && rewrites.contains (.merged true) then none else some (expr, rewrites)

/-- The bytes an alternative other than a `Not` matches. -/
def alternativeTest : Expr → UInt8 → Bool
  | .byte byte => (· == byte)
  | .set set => bitsetGet set
  | _ => fun _ => false

section Alternatives

variable {list : List Expr}

theorem useByteMapOptimization_cons {expr : Expr} :
    useByteMapOptimization (expr :: list) = true ↔
      ((isByteOrSet expr = true ∨ ∃ operand, expr = .not operand ∧ isByteOrSet operand = true) ∧
        useByteMapOptimization list = true) := by
  rw [useByteMapOptimization, List.all_cons, Bool.and_eq_true]
  apply and_congr_left'
  cases expr with
  | not operand => simp [isByteOrSet]
  | _ => simp [isByteOrSet]

theorem peg_alternative {expr : Expr} (h : isByteOrSet expr = true) :
    expr.peg = .one (alternativeTest expr) := by
  cases expr with
  | byte byte => rw [Expr.peg, alternativeTest]
  | set set => rw [Expr.peg, alternativeTest]
  | _ => exact Bool.noConfusion h

/-- Bytes and sets, and what is below a `Not`, have nothing to optimise. -/
theorem mozExprOptimize_byteOrSet (decls : List Decl) {expr : Expr} (h : isByteOrSet expr = true) :
    mozExprOptimize decls expr = (expr, []) := by
  cases expr with
  | byte byte => simp [mozExprOptimize]
  | set set => simp [mozExprOptimize]
  | _ => exact Bool.noConfusion h

theorem mozListOptimize_alternatives (decls : List Decl) (h : useByteMapOptimization list = true) :
    mozListOptimize decls list = (list, []) := by
  induction list with
  | nil => simp [mozListOptimize]
  | cons expr list ih =>
    obtain ⟨hexpr, hlist⟩ := useByteMapOptimization_cons.1 h
    have hsame : mozExprOptimize decls expr = (expr, []) := by
      rcases hexpr with hexpr | ⟨operand, rfl, hoperand⟩
      · exact mozExprOptimize_byteOrSet decls hexpr
      · simp [mozExprOptimize, mozExprOptimize_byteOrSet decls hoperand]
    simp [mozListOptimize, hsame, ih hlist]

/-- Without a `Not`, the choice matches a byte that some alternative matches. -/
theorem pegChoice_one (h : useByteMapOptimization list = true) (hnot : list.any isNot = false) :
    Exp.Equiv (pegChoice list) (.one fun c => list.any fun expr => alternativeTest expr c) := by
  induction list with
  | nil =>
    intro G input p o
    simp [pegChoice, Exp.never]
  | cons expr list ih =>
    obtain ⟨hexpr, hlist⟩ := useByteMapOptimization_cons.1 h
    simp only [List.any_cons, Bool.or_eq_false_iff] at hnot
    have hbyte : isByteOrSet expr = true := by
      rcases hexpr with hexpr | ⟨operand, rfl, -⟩
      · exact hexpr
      · exact absurd hnot.1 (by simp [isNot])
    rw [pegChoice, peg_alternative hbyte]
    exact ((Exp.Equiv.refl _).choice (ih hlist hnot.2)).trans (Exp.choice_one _ _)

/-- At the end of the input a choice with a `Not` succeeds. -/
theorem pegChoice_end (G : Nonterminal → Exp UInt8 Nonterminal) (p : ℕ)
    (h : useByteMapOptimization list = true) (hnot : list.any isNot = true) :
    Derives G [] (pegChoice list) p (some p) := by
  induction list with
  | nil => simp at hnot
  | cons expr list ih =>
    obtain ⟨hexpr, hlist⟩ := useByteMapOptimization_cons.1 h
    have hfail {test : UInt8 → Bool} : Derives G [] (.one test) p none :=
      .oneFail fun c hc => by simp at hc
    rw [pegChoice]
    rcases hexpr with hexpr | ⟨operand, rfl, hoperand⟩
    · have hisNot : isNot expr = false := by
        cases expr with
        | not operand => exact Bool.noConfusion hexpr
        | _ => rfl
      rw [List.any_cons, hisNot, Bool.false_or] at hnot
      rw [peg_alternative hexpr]
      exact .choiceNext hfail (ih hlist hnot)
    · rw [Expr.peg, peg_alternative hoperand]
      exact .choice (.not hfail)

theorem bitsetGet_putByte (set : Bitset) (byte c : UInt8) :
    bitsetGet (putByte set byte) c = (bitsetGet set c || c == byte) := by
  rw [bitsetGet, putByte, getLsbD_setBit set byte.toNat_lt]
  congr 1
  rw [Bool.eq_iff_iff]
  simp [UInt8.toNat_inj]

theorem bitsetGet_putAlternative (set : Bitset) {expr : Expr} (h : isByteOrSet expr = true)
    (c : UInt8) :
    bitsetGet (putAlternative set expr) c = (bitsetGet set c || alternativeTest expr c) := by
  cases expr with
  | byte byte => simp [putAlternative, putSet, putOperand, alternativeTest, bitsetGet_putByte]
  | set set' => simp [putAlternative, putSet, putOperand, alternativeTest, bitsetGet]
  | _ => simp [isByteOrSet] at h

/-- Without a `Not`, the set is the union of the alternatives. -/
theorem bitsetGet_foldl (set : Bitset) (h : useByteMapOptimization list = true)
    (hnot : list.any isNot = false) (c : UInt8) :
    bitsetGet (list.foldl putAlternative set) c =
      (bitsetGet set c || list.any fun expr => alternativeTest expr c) := by
  induction list generalizing set with
  | nil => simp
  | cons expr list ih =>
    obtain ⟨hexpr, hlist⟩ := useByteMapOptimization_cons.1 h
    simp only [List.any_cons, Bool.or_eq_false_iff] at hnot
    have hbyte : isByteOrSet expr = true := by
      rcases hexpr with hexpr | ⟨operand, rfl, -⟩
      · exact hexpr
      · exact absurd hnot.1 (by simp [isNot])
    rw [List.foldl_cons, ih _ hlist hnot.2, bitsetGet_putAlternative set hbyte, List.any_cons,
      Bool.or_assoc]

/-- The set has the results of a choice without a `Not`. -/
theorem merged_equiv (h : useByteMapOptimization list = true) (hnot : list.any isNot = false) :
    Exp.Equiv (Expr.set (list.foldl putAlternative 0)).peg (pegChoice list) := by
  have hset : bitsetGet (list.foldl putAlternative 0) =
      fun c => list.any fun expr => alternativeTest expr c := by
    funext c
    rw [bitsetGet_foldl 0 h hnot c]
    simp [bitsetGet]
  rw [Expr.peg, hset]
  exact (pegChoice_one h hnot).symm

end Alternatives

/-- The optimiser leaves an expression with the results of the choice. -/
def ChoiceKept (ndebug : Bool) (decls : List Decl) (list : List Expr) : Prop :=
  ∃ expr rewrites, mozExprOptimizeBuild ndebug decls (.choice list) = some (expr, rewrites) ∧
    Exp.Equiv expr.peg (Expr.choice list).peg

/-- The set that takes the place of more or fewer than one alternative. -/
theorem mozExprOptimize_merged (decls : List Decl) {list : List Expr}
    (h : useByteMapOptimization list = true) (hone : list.length ≠ 1) :
    mozExprOptimize decls (.choice list) =
      (.set (list.foldl putAlternative 0), [.merged (list.any isNot)]) := by
  have hchoice : mozChoiceOptimize list =
      (.set (list.foldl putAlternative 0), [.merged (list.any isNot)]) := by
    unfold mozChoiceOptimize
    split
    · exact absurd rfl hone
    · rw [if_pos h]
  simp [mozExprOptimize, mozListOptimize_alternatives decls h, hchoice]

theorem choiceKept_one (ndebug : Bool) (decls : List Decl) {child : Expr}
    (h : useByteMapOptimization [child] = true) : ChoiceKept ndebug decls [child] := by
  refine ⟨child, [.collapsed], ?_, ?_⟩
  · have hchildren := mozListOptimize_alternatives decls h
    simp [mozExprOptimizeBuild, mozExprOptimize, hchildren, mozChoiceOptimize]
  · simp only [Expr.peg, pegChoice]
    exact Exp.choice_never.symm

theorem choiceKept_merged (ndebug : Bool) (decls : List Decl) {list : List Expr}
    (h : useByteMapOptimization list = true) (hone : list.length ≠ 1)
    (hnot : list.any isNot = false) : ChoiceKept ndebug decls list := by
  refine ⟨.set (list.foldl putAlternative 0), [.merged false], ?_, ?_⟩
  · simp [mozExprOptimizeBuild, mozExprOptimize_merged decls h hone, hnot]
  · rw [Expr.peg.eq_def (.choice list)]
    exact merged_equiv h hnot

/-- The set fails at the end of the input, the `Not` does not. -/
theorem not_choiceKept (ndebug : Bool) (decls : List Decl) {list : List Expr}
    (h : useByteMapOptimization list = true) (hone : list.length ≠ 1)
    (hnot : list.any isNot = true) : ¬ChoiceKept ndebug decls list := by
  rintro ⟨expr, rewrites, hbuild, hequiv⟩
  simp only [mozExprOptimizeBuild, mozExprOptimize_merged decls h hone] at hbuild
  split at hbuild
  · cases hbuild
  · obtain ⟨rfl, -⟩ := Prod.mk.inj (Option.some.inj hbuild)
    have hend := pegChoice_end (fun _ => .empty) 0 h hnot
    have hset := (hequiv (fun _ => .empty) [] 0 (some 0)).2 (by simpa only [Expr.peg] using hend)
    simp only [Expr.peg] at hset
    cases hset

/-- A choice that may be merged keeps its meaning exactly if nothing in it is a `Not` or there is
nothing to choose from. -/
theorem choiceKept_iff (ndebug : Bool) (decls : List Decl) {list : List Expr}
    (h : useByteMapOptimization list = true) :
    ChoiceKept ndebug decls list ↔ list.any isNot = false ∨ list.length = 1 := by
  by_cases hone : list.length = 1
  · obtain ⟨child, rfl⟩ := List.length_eq_one_iff.1 hone
    simp [choiceKept_one ndebug decls h]
  · cases hnot : list.any isNot with
    | false => simp [choiceKept_merged ndebug decls h hone hnot]
    | true => simp [not_choiceKept ndebug decls h hone hnot, hone]

theorem choiceKept_iff_bytes :
    ChoiceKept true [] [.byte 1, .not (.byte 2)] ↔
      [Expr.byte 1, .not (.byte 2)].any isNot = false ∨ [Expr.byte 1, .not (.byte 2)].length = 1 :=
  choiceKept_iff true [] rfl

/-- A `Not` after a byte is lost. -/
theorem choice_lost : ¬ChoiceKept true [] [.byte 1, .not (.byte 2)] :=
  not_choiceKept true [] rfl (by decide) rfl

end Moz.Compiler
