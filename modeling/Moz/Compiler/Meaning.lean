import Moz.Compiler.Expression
import Moz.Lib.Peg

/-!
# The meaning of expressions

An expression is read as a parsing expression over bytes. A `List_t` is the
sequence or the choice of its elements, a `Repetition` repeats the sequence of
its elements. The tree constructs consume nothing; an expression whose lowering
is `TODO(e)` is left open, as a name of its own.
-/

namespace Moz.Compiler

open Peg (Exp Derives)

inductive Nonterminal
  | decl (decl : ℕ)
  | todo (type : TodoType)
  deriving DecidableEq, Repr

mutual

/-- The parsing expression of an `expr_t`. -/
def Expr.peg : Expr → Exp UInt8 Nonterminal
  | .empty => .empty
  | .invoke decl => .var (.decl decl)
  | .any => .one fun _ => true
  | .byte byte => .one (· == byte)
  | .str list => Exp.word list
  | .set set => .one (bitsetGet set)
  | .and expr => Exp.and expr.peg
  | .choice list => pegChoice list
  | .fail => Exp.never
  | .not expr => .not expr.peg
  | .option expr => Exp.option expr.peg
  | .sequence list => pegSequence list
  | .repetition list => .star (pegSequence list)
  | .tcapture => .empty
  | .tpush => .empty
  | .tpop _ => .empty
  | .tnew => .empty
  | .ttag _ => .empty
  | .todo type => .var (.todo type)

def pegSequence : List Expr → Exp UInt8 Nonterminal
  | [] => .empty
  | expr :: list => .seq expr.peg (pegSequence list)

def pegChoice : List Expr → Exp UInt8 Nonterminal
  | [] => Exp.never
  | expr :: list => .choice expr.peg (pegChoice list)

end

theorem pegSequence_eq (list : List Expr) : pegSequence list = Exp.seqAll (list.map Expr.peg) := by
  induction list with
  | nil => simp [pegSequence, Exp.seqAll]
  | cons expr list ih => simp [pegSequence, Exp.seqAll, ih]

theorem getLsbD_setBit (set : Bitset) {index : ℕ} (h : index < 256) (i : ℕ) :
    (set ||| 1#256 <<< index).getLsbD i = (set.getLsbD i || decide (i = index)) := by
  rw [BitVec.getLsbD_or, BitVec.getLsbD_shiftLeft, BitVec.getLsbD_one]
  congr 1
  rw [Bool.eq_iff_iff]
  simp only [Bool.and_eq_true, decide_eq_true_eq, Bool.not_eq_true']
  simp
  omega

def MatchesWord (e : Expr) (w : List UInt8) : Prop :=
  ∀ (G : Nonterminal → Exp UInt8 Nonterminal) (input : List UInt8) (p : ℕ) (o : Option ℕ),
    Derives G input e.peg p o ↔ o = if w <+: input.drop p then some (p + w.length) else none

theorem matchesWord_iff {e : Expr} {w w' : List UInt8} (h : Exp.Equiv e.peg (Exp.word w)) :
    MatchesWord e w' ↔ w = w' := by
  rw [← Exp.word_inj (N := Nonterminal)]
  constructor
  · intro hmatch G input p o
    rw [← h G input p o, hmatch G input p o, Peg.derives_word]
  · intro hword G input p o
    rw [h G input p o, hword G input p o, Peg.derives_word]

theorem empty_peg : Exp.Equiv Expr.empty.peg (Exp.word []) := by
  intro G input p o
  simp [Expr.peg, Exp.word, Exp.seqAll]

theorem byte_peg (byte : UInt8) : Exp.Equiv (Expr.byte byte).peg (Exp.word [byte]) := by
  intro G input p o
  simp only [Expr.peg]
  exact (Exp.seq_empty G input p o).symm

theorem str_peg (list : List UInt8) : Exp.Equiv (Expr.str list).peg (Exp.word list) := by
  intro G input p o
  simp [Expr.peg]

/-- One byte, if it is one of `S`. -/
def MatchesBytes (e : Expr) (S : UInt8 → Prop) : Prop :=
  ∀ (G : Nonterminal → Exp UInt8 Nonterminal) (input : List UInt8) (p : ℕ) (o : Option ℕ),
    Derives G input e.peg p o ↔
      (∃ b, input[p]? = some b ∧ S b ∧ o = some (p + 1)) ∨
        (∀ b, input[p]? = some b → ¬S b) ∧ o = none

theorem matchesBytes_iff {e : Expr} {test : UInt8 → Bool} (h : e.peg = .one test)
    {S : UInt8 → Prop} : MatchesBytes e S ↔ ∀ b, test b = true ↔ S b := by
  constructor
  · intro hmatch b
    have hb := hmatch (fun _ => .empty) [b] 0 (some 1)
    rw [h, Peg.derives_one] at hb
    simpa using hb
  · intro htest G input p o
    rw [h, Peg.derives_one]
    cases hc : input[p]? with
    | none => simp
    | some c => by_cases hS : S c <;> simp [hS, htest c]

theorem MatchesBytes.unique {e : Expr} {S S' : UInt8 → Prop} (h : MatchesBytes e S)
    (h' : MatchesBytes e S') (b : UInt8) : S b ↔ S' b := by
  have hb := (h (fun _ => .empty) [b] 0 (some 1)).symm.trans (h' (fun _ => .empty) [b] 0 (some 1))
  simpa using hb

end Moz.Compiler
