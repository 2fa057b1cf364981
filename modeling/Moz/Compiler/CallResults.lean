import Moz.Compiler.Pools
import Moz.Compiler.WalkRuns

/-!
# Calls and the results of the grammar

A call of a production has the result of its parsing expression as long as every
attempt of the run that fails is left where it began. Nothing in the blocks sees to
that: an alternative that has failed behind the place where it began leaves `CURRENT`
there for the next one.
-/

namespace Moz.Compiler

open StateTransition Vm2
open Peg (Derives)

/-- The call comes to `IRet` (or `IFail`) with `CURRENT = q`. -/
def CallReturns (C : MozCompiler) (R : Runtime) (d sp p : ℕ) (ast : AstMachine) (matched : Bool)
    (q : ℕ) : Prop :=
  ∃ s s', enter C d sp p ast = some s ∧ Returns C R s matched s' ∧ s'.current = q

/-- The call has the result `o`, and no other one. -/
structure CallFollows (C : MozCompiler) (R : Runtime) (d sp p : ℕ) (ast : AstMachine)
    (o : Option ℕ) : Prop where
  matched : ∀ q, CallReturns C R d sp p ast true q ↔ o = some q
  failed : (∃ q, CallReturns C R d sp p ast false q) ↔ o = none

section Calls

variable {C : MozCompiler} {R : Runtime} {d sp p q q' : ℕ} {ast : AstMachine} {decl : Decl}
  {input : List UInt8} {matched matched' : Bool} {o : Option ℕ}

theorem CallReturns.unique (h : CallReturns C R d sp p ast matched q)
    (h' : CallReturns C R d sp p ast matched' q') : matched = matched' ∧ q = q' := by
  obtain ⟨s, s', henter, hreturns, rfl⟩ := h
  obtain ⟨t, t', henter', hreturns', rfl⟩ := h'
  obtain rfl := Option.some.inj (henter.symm.trans henter')
  obtain ⟨rfl, hmatched⟩ := hreturns.unique hreturns'
  exact ⟨hmatched, rfl⟩

theorem CallReturns.follows {w : Walked} (h : CallReturns C R d sp p ast w.matched w.stop) :
    CallFollows C R d sp p ast w.result := by
  cases w with
  | ok stop cells logs kept =>
    refine ⟨fun q => ⟨fun hq => ?_, fun hq => ?_⟩, ⟨fun hfailed => ?_, fun hnone => ?_⟩⟩
    · exact congrArg some (h.unique hq).2
    · exact Option.some.inj hq ▸ h
    · obtain ⟨q, hq⟩ := hfailed
      cases (h.unique hq).1
    · cases hnone
  | fail stop cells logs =>
    refine ⟨fun q => ⟨fun hq => ?_, fun hq => ?_⟩, iff_of_true ⟨stop, h⟩ rfl⟩
    · cases (h.unique hq).1
    · cases hq

end Calls

/-- `(&'a' . / 'b')*`. -/
def lookaheadDecl : Decl where
  body := .repetition [.choice [.sequence [.and (.byte 97), .any], .byte 98]]

def lookaheadChoice : MozCompiler := { decls := [lookaheadDecl] }

/-- On `ab` the predicate fails in the second round, and both alternatives in the third one. -/
theorem lookaheadChoice_walk : ∃ w : Walked, w.result = some 2 ∧
    Walk ((mozAstToIr lookaheadChoice).reading ((mozAstToIr lookaheadChoice).runtime [97, 98]))
      lookaheadChoice.decls Clean (.expr false lookaheadDecl.body) 0 0 w := by
  set M := (mozAstToIr lookaheadChoice).reading ((mozAstToIr lookaheadChoice).runtime [97, 98])
  have hand : Walk M lookaheadChoice.decls Clean (.expr false (.and (.byte 97))) 0 0
      (.ok 0 [] [] []) := .and (by decide) (.one rfl) rfl rfl
  have hfirst : Walk M lookaheadChoice.decls Clean (.sequence [.and (.byte 97), .any]) 0 0
      (.ok 1 [] [] []) := .cons hand (.cons (.one rfl) .nil)
  have hsecond : Walk M lookaheadChoice.decls Clean (.sequence [.and (.byte 97), .any]) 0 1
      (.fail 1 [1] []) := .consFail (.andFail (by decide) (.oneFail rfl))
  have hthird : Walk M lookaheadChoice.decls Clean (.sequence [.and (.byte 97), .any]) 1 2
      (.fail 2 [2] []) := .consFail (.andFail (by decide) (.oneFail rfl))
  have hstop : Walk M lookaheadChoice.decls Clean (.rounds false [.choice
      [.sequence [.and (.byte 97), .any], .byte 98]]) 1 2 (.ok 2 [2] [] []) :=
    .stop (.consFail (.choice (.alternativeNext (.sequence hthird) rfl
      (.alternativeLast (.oneFail rfl))))) rfl
  refine ⟨_, ?_, .repetition rfl (.round (.cons (.choice (.alternative (.sequence hfirst))) .nil)
    (.round (.cons (.choice (.alternativeNext (.sequence hsecond) rfl
      (.alternative (.one rfl)))) .nil) hstop))⟩
  rfl

theorem lookaheadChoice_fits : (mozAstToIr lookaheadChoice).fits :=
  ⟨by decide, by decide, by decide⟩

theorem lookaheadChoice_solid : ∀ decl ∈ lookaheadChoice.decls, 0 < decl.refc →
    ∀ x, Expr.Within x decl.body → x.solid := by
  intro decl hdecl _ x hx
  obtain rfl := List.mem_singleton.1 hdecl
  cases hx with
  | self => rfl
  | repetition he hx =>
    obtain rfl := List.mem_singleton.1 he
    cases hx with
    | self => rfl
    | choice he hx =>
      simp only [List.mem_cons, List.not_mem_nil, or_false] at he
      obtain rfl | rfl := he
      · cases hx with
        | self => rfl
        | sequence he hx =>
          simp only [List.mem_cons, List.not_mem_nil, or_false] at he
          obtain rfl | rfl := he
          · cases hx with
            | self => rfl
            | and hx =>
              cases hx
              rfl
          · cases hx
            rfl
      · cases hx
        rfl

/-- `. 'c' / 'ad'`. -/
def movedDecl : Decl where
  body := .choice [.sequence [.any, .byte 99], .str [97, 100]]

def movedAlternative : MozCompiler := { decls := [movedDecl] }

theorem movedAlternative_returns : CallReturns (mozAstToIr movedAlternative)
    ((mozAstToIr movedAlternative).runtime [97, 100]) 0 0 0 {} false 1 := by
  obtain ⟨s, hs⟩ : ∃ s, enter (mozAstToIr movedAlternative) 0 0 0 {} = some s := ⟨_, rfl⟩
  obtain ⟨s', hrun, hresult, hcurrent⟩ : ∃ s', (fun o => o.bind (step (mozAstToIr movedAlternative)
      ((mozAstToIr movedAlternative).runtime [97, 100])))^[6] (some s) = some s' ∧
      s'.result = some false ∧ s'.current = 1 := by
    cases hs
    exact ⟨_, rfl, rfl, rfl⟩
  exact ⟨s, s', hs, ⟨Progress.reaches_iterate 6 hrun, hresult⟩, hcurrent⟩

end Moz.Compiler
