import Moz.Compiler.AstLifetime

/-!
# Runs of moz_node_to_ast

As long as its steps are sound, a run of the compiler keeps the counts right and
looks at nothing that has been swept. Whether the steps of a run are sound can be
tested.
-/

namespace Moz.Compiler

open RefCount

namespace AstM

open Logged (wp)

end AstM

/-- The productions that die do so in so many rounds, and each when its own mark is taken. -/
def Ast.DiesInTurn (c : Ast) (rounds : ℕ) : Prop :=
  dying c.heap.refc c.heap.children c.marks c.heap.universe (rounds + 1) ⊆
    dying c.heap.refc c.heap.children c.marks c.heap.universe rounds ∧
  ∀ k < c.decls.length, ∀ decl ∈ c.decls[k]?,
    Ptr.decl decl ∈ dying c.heap.refc c.heap.children c.marks c.heap.universe rounds →
      Ptr.decl decl ∈ dying c.heap.refc c.heap.children (declRefs (c.decls.take (k + 1)))
        c.heap.universe rounds

instance (c : Ast) (rounds : ℕ) : Decidable (c.DiesInTurn rounds) := by
  unfold Ast.DiesInTurn
  infer_instance

theorem Ast.DiesInTurn.removed {c : Ast} {rounds : ℕ} (h : c.DiesInTurn rounds)
    (hH : c.heap.Bounded) : RemovedInTurn c := by
  intro before decl after hdecls hdies
  have hU : ∀ p, 0 < c.heap.refc p → p ∈ c.heap.universe := fun p hp =>
    hH.mem_universe (AstHeap.isSome_of_refc_pos hp)
  have hbefore : before ++ [decl] = c.decls.take (before.length + 1) := by
    simp [hdecls, List.take_append]
  rw [hbefore]
  apply dies_of_mem_dying
  apply h.2 before.length (by simp [hdecls]) decl (by simp [hdecls])
  exact (dies_iff_mem_dying hU h.1).1 hdies

/-- A sufficient condition that can be computed. -/
def AstStep.Tested (rounds : ℕ) (step : AstStep) (c : Ast) : Prop :=
  match step with
  | .collapse _ _ => False
  | .flatten _ _ child => 1 < c.heap.refc (.expr child)
  | .joinBytes _ _ child child2 => Outlives c child child2
  | .joinStrs e i child child2 => c.heap.slot (.elem e i) = some child ∧ Outlives c child child2
  | .remove modified => modified = true → c.DiesInTurn rounds
  | _ => True

instance (rounds : ℕ) (step : AstStep) (c : Ast) : Decidable (step.Tested rounds c) := by
  unfold AstStep.Tested Outlives
  cases step <;> infer_instance

theorem AstStep.Tested.sound {rounds : ℕ} {step : AstStep} {c : Ast} (h : step.Tested rounds c)
    (hH : c.heap.Bounded) : step.Sound c := by
  cases step with
  | remove modified => exact fun hmodified => Ast.DiesInTurn.removed (h hmodified) hH
  | _ => exact h

namespace AstM

/-- A run whose steps pass the test is a run of sound steps. -/
theorem sound_of_tested {ndebug : Bool} {fuel passes rounds : ℕ} {node : GrammarNode}
    (h : ∀ x ∈ (mozNodeToAst ndebug fuel passes node ⟨{}, []⟩).1, x.1.Tested rounds x.2) :
    ∀ x ∈ (mozNodeToAst ndebug fuel passes node ⟨{}, []⟩).1, x.1.Sound x.2 := by
  apply (wp_mozNodeToAst ndebug fuel passes node).sound _ h
  exact fun step c hright htest => htest.sound hright.bounded

theorem swept_of_map {α : Type} {result : Except Fault α}
    (h : result.map (fun _ => ()) = .error .swept) : result = .error .swept := by
  cases result with
  | error f => exact congrArg Except.error (Except.error.inj h)
  | ok a => cases h

end AstM

namespace GrammarNode

def leaf (tag : Tag) (text : List UInt8) : GrammarNode := .mk tag text text.length []

/-- `name = body` -/
def rule (name : List UInt8) (body : GrammarNode) : GrammarNode :=
  .mk .production [] 0 [leaf .other [], leaf .name name, body]

/-- `File = A !'c' . / A` with `A = 'b' ('d' / 'e')` -/
def sharedBody : GrammarNode :=
  .mk .other [] 0
    [rule [70]
      (.mk .choice [] 0
        [.mk .sequence [] 0
          [leaf .nonTerminal [65], .mk .not [] 0 [leaf .character [99]], leaf .any []],
         leaf .nonTerminal [65]]),
     rule [65]
      (.mk .sequence [] 0
        [leaf .character [98],
         .mk .choice [] 0 [leaf .character [100], leaf .character [101]]])]

/-- `File = 'a' 'b'` -/
def twoBytes : GrammarNode :=
  .mk .other [] 0
    [rule [70] (.mk .sequence [] 0 [leaf .character [97], leaf .character [98]])]

end GrammarNode

namespace AstM

open GrammarNode

end AstM

end Moz.Compiler
