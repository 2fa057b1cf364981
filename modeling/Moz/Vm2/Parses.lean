import Moz.Compiler.GraphExec
import Moz.Compiler.Predictive
import Moz.Vm2.Blocks

/-!
# From the grammar to the bytes

A grammar is lowered, its blocks are optimised, encoded and linked, and VM2 runs the
bytes. Each stage keeps the results of the one before: the calls of a predictive
grammar have the results of its parsing expressions, the optimiser keeps the calls,
and VM2 follows the blocks as long as no call fails. Where no `IInvoke` is left in
the code nothing can fail but the outermost call.
-/

namespace Moz.Vm2

open StateTransition Compiler
open Relation (ReflTransGen)
open Peg (Derives)

/-- VM2 comes to this end: it returns with a status and `CURRENT`, or it finds the stack full. -/
def Ends (P : Program) (R : Runtime) (m₀ : Machine) : Option (Int8 × ℕ) → Prop
  | some (status, current) => ∃ m, ReflTransGen (Steps P R) m₀ m ∧
      step P R m = some (.exit status current)
  | none => ∃ m, ReflTransGen (Steps P R) m₀ m ∧ step P R m = none ∧ stackSize < m.sp + fpMax

def CallFree (C : MozCompiler) : Prop := ∀ x ∈ C.layout, ∀ d, x.op ≠ .iInvoke d

section Runs

variable {C : MozCompiler} {P : Program} {R : Runtime} {s s' : State} {m : Machine} {x : Ir}

theorem exec_frames (hx : ∀ d, x.op ≠ .iInvoke d) (hframes : s.frames = [])
    (h : Compiler.exec C R s x = some s') : s'.frames = [] := by
  unfold Compiler.exec at h
  cases hop : x.op with
  | iInvoke d => exact absurd hop (hx d)
  | iRet | iFail =>
    rw [hop, hframes] at h
    cases h
  | iLabel | iJump =>
    rw [hop] at h
    cases h
    exact hframes
  | iPLoad =>
    rw [hop] at h
    dsimp only at h
    split at h
    · cases h
    · cases h
      exact hframes
  | iPStore | iTPush | iTPop | iTNew | iTCapture | iTTag =>
    rw [hop] at h
    obtain ⟨_, -, h⟩ := Option.bind_eq_some_iff.1 h
    cases h
    exact hframes
  | _ =>
    rw [hop] at h
    dsimp only at h
    split at h
    · cases h
      exact hframes
    · cases h
      exact hframes
    · cases h

theorem Alike.follows (hC : LinkedModule C P) (hfree : CallFree C)
    (hrun : Reaches (Compiler.step C R) s s') (h : Alike C P s m) (hframes : s.frames = []) :
    ∃ m', ReflTransGen (Steps P R) m m' ∧ Alike C P s' m' ∧ s'.frames = [] := by
  induction hrun with
  | refl => exact ⟨m, .refl, h, hframes⟩
  | @tail t s' _ hstep ih =>
    obtain ⟨m₁, hm₁, halike, hnil⟩ := ih
    obtain ⟨n, hn, -⟩ := halike.code
    have hmem : ∀ x l, t.code = x :: l → x ∈ C.layout := by
      intro x l hcode
      rw [hcode] at hn
      exact List.mem_of_getElem? hn.head
    have hok : NotFailing t := by
      intro x l hcode hop
      rw [Option.mem_def, Compiler.step_eq hcode, Compiler.exec, hop] at hstep
      dsimp only at hstep
      rw [hnil] at hstep
      cases hstep
    obtain ⟨m₂, hm₂, halike₂⟩ := halike.step hC hstep hok
    refine ⟨m₂, hm₁.tail hm₂, halike₂, ?_⟩
    cases hcode : t.code with
    | nil =>
      rw [Option.mem_def, Compiler.step, hcode] at hstep
      cases hstep
    | cons x l =>
      rw [Option.mem_def, Compiler.step_eq hcode] at hstep
      exact exec_frames (s := { t with code := l }) (hfree x (hmem x l hcode)) hnil hstep

/-- The call of the first production is the run of VM2. -/
theorem ends_of_answers (hC : LinkedModule C P) (hfree : CallFree C) {d : ℕ}
    (hentry : declInst C d = C.blocks.head?) {stack : ℕ → ℤ} {ast : AstMachine} {tbl : Symtable}
    {memo : Memo} {m₀ : Machine} (hstart : start P stack ast tbl memo = some m₀)
    {r : Option (Bool × ℕ × AstMachine)} (h : Answers C R d (stackBase + fpMax) 0 ast r) :
    Ends P R m₀ (r.map fun r => if r.1 then (0, r.2.1) else (1, 0)) := by
  obtain ⟨s, henter, s', hrun, hout⟩ := h
  have hframes : s.frames = [] := by
    obtain ⟨decl, -, henter⟩ := Option.bind_eq_some_iff.1 henter
    obtain ⟨entry, -, henter⟩ := Option.bind_eq_some_iff.1 henter
    cases henter
    rfl
  obtain ⟨m, hm, halike, -⟩ := (Alike.start hC hentry hstart henter).follows hC hfree hrun hframes
  cases r with
  | none => exact ⟨m, hm, halike.full hC hout⟩
  | some r =>
    obtain ⟨matched, q, ast'⟩ := r
    obtain ⟨hresult, hcurrent, -⟩ := hout
    obtain ⟨m', hstep, -, hexit⟩ := halike.exit (R := R) hC hresult
    rw [hcurrent] at hexit
    cases matched with
    | true => exact ⟨m', hm.tail hstep, hexit⟩
    | false => exact ⟨m', hm.tail hstep, hexit⟩

end Runs

/-- A predictive grammar is lowered, and optimised in any order that removes no entry block. If the
blocks are linked well and no call is left in them, VM2 comes to the result of the parsing expression,
whatever is on its stack, or finds the stack full. -/
theorem parses_of_derives {C : MozCompiler} (hC : PredictiveModule C) (hblocks : C.blocks = [])
    (hmem : ∀ b, C.mem b = {}) (hproper : ∀ decl ∈ C.decls, 0 < decl.refc → decl.body.proper = true)
    {s : OptState} (hrun : OptRun Spares (mozAstToIr C) s) {P : Program}
    (hlinked : LinkedModule s.C P) (hfree : CallFree s.C) {d : ℕ} {decl : Decl}
    (hentry : declInst s.C d = s.C.blocks.head?) (hdecl : C.decls[d]? = some decl)
    (hrefc : 0 < decl.refc) {input : List UInt8} {o : Option ℕ}
    (h : Derives (grammar C.decls) input decl.body.peg 0 o) {stack : ℕ → ℤ} {ast : AstMachine}
    {tbl : Symtable} {memo : Memo} {m₀ : Machine} (hstart : start P stack ast tbl memo = some m₀) :
    Ends P (s.C.runtime input) m₀ (some (if o.isSome then 0 else 1, o.getD 0)) ∨
      Ends P (s.C.runtime input) m₀ none := by
  obtain ⟨hintact, hcalled⟩ := mozAstToIr_intact hblocks hmem hC.fresh hproper
  have hsame := (hrun.runs hintact hcalled).2.answers
  have hends : ∀ r, Answers (mozAstToIr C) ((mozAstToIr C).runtime input) d (stackBase + fpMax) 0 ast r →
      Ends P (s.C.runtime input) m₀ (r.map fun r => if r.1 then (0, r.2.1) else (1, 0)) := by
    intro r hr
    rw [← hrun.runtime input] at hr
    exact ends_of_answers hlinked hfree hentry hstart ((hsame _ d _ 0 ast r).1 hr)
  obtain ⟨s₀, henter, ⟨s', hreturns, hcurrent⟩ | ⟨u, hu, hfull⟩⟩ :=
    enter_of_hasRun hC.implemented hdecl hrefc (hC.hasRun hdecl hrefc (Nat.zero_le _) h)
      (stackBase + fpMax) ast
  · have hend := hends (some (o.isSome, s'.current, s'.ast))
      ⟨s₀, henter, s', hreturns.1, hreturns.2, rfl, rfl⟩
    cases o with
    | none => exact .inl hend
    | some q =>
      rw [hcurrent q rfl] at hend
      exact .inl hend
  · exact .inr (hends none ⟨s₀, henter, u, hu, hfull⟩)

theorem oneByte_predictive : PredictiveModule oneByte where
  implemented decl hdecl _ := by
    obtain rfl := List.mem_singleton.1 hdecl
    rfl
  fresh decl hdecl := by
    obtain rfl := List.mem_singleton.1 hdecl
    rfl
  calls decl hdecl _ d hd := by
    obtain rfl := List.mem_singleton.1 hdecl
    cases hd
  solid decl hdecl _ x hx := by
    obtain rfl := List.mem_singleton.1 hdecl
    cases hx
    rfl
  fits := ⟨by decide, by decide, by decide⟩
  predictive := by decide

/-- The code of `File = 'a'` when the exit block has been merged. -/
def mergedProgram : Program where
  code := [10, 1, 0, 0, 0, 97, 7, 8]
  base := 4
  stub := 0
  disjoint := by decide

/-- The optimised code of `File = 'a'` reads the byte. -/
theorem parses_of_derives_oneByte :
    ∃ t m₀, OptState.step ⟨.simplify, mozAstToIr oneByte, addAllBlocks (mozAstToIr oneByte)⟩ (.take 1) =
        some t ∧ start mergedProgram (fun _ => 0) {} {} {} = some m₀ ∧
      (Ends mergedProgram (t.C.runtime [97]) m₀ (some (0, 1)) ∨
        Ends mergedProgram (t.C.runtime [97]) m₀ none) := by
  have hfacts : (OptState.step ⟨.simplify, mozAstToIr oneByte, addAllBlocks (mozAstToIr oneByte)⟩
      (.take 1)).map (fun t => (mozVm2ModuleCompile t.C, t.C.layout, declInst t.C 0, t.C.blocks.head?,
        t.C.layout.all fun x => (labelTargets t.C x).all fun label =>
          (label.bind (blockAddress t.C)).isSome)) =
      some (some [10, 1, 0, 0, 0, 97, 7, 8], [⟨0, 0, 0, 2, .iByte 97⟩, ⟨2, 2, 1, 2, .iRet⟩,
        ⟨3, 3, 2, 2, .iFail⟩], some 0, some 0, true) := by
    decide +kernel
  obtain ⟨t, hstep, ht⟩ := Option.map_eq_some_iff.1 hfacts
  simp only [Prod.mk.injEq] at ht
  obtain ⟨hcode, hlayout, hinst, hhead, hlabels⟩ := ht
  have hspare : Spares ⟨.simplify, mozAstToIr oneByte, addAllBlocks (mozAstToIr oneByte)⟩ (.take 1) :=
    fun hpass => by cases hpass
  have hrun : OptRun Spares (mozAstToIr oneByte) t := .step .start hspare hstep
  obtain ⟨hintact, -⟩ := mozAstToIr_intact (C := oneByte) rfl (fun _ => rfl) (by decide) (by decide)
  have hlinked : LinkedModule t.C mergedProgram := by
    refine linkedModule_of_nodup hcode (hrun.sound hintact).intact.closed ?_ ?_ ?_ ?_
    · rw [hlayout]
      decide
    · rw [hlayout]
      decide
    · rw [hlayout]
      decide
    · intro x hx label hlabel
      exact List.all_eq_true.1 (List.all_eq_true.1 hlabels x hx) label hlabel
  have hfree : CallFree t.C := by
    intro x hx d hop
    rw [hlayout] at hx
    simp only [List.mem_cons, List.not_mem_nil, or_false] at hx
    obtain rfl | rfl | rfl := hx <;> cases hop
  have hderives : Derives (grammar oneByte.decls) [97] (Expr.byte 97).peg 0 (some 1) :=
    .one rfl (by decide)
  obtain ⟨m₀, hstart⟩ : ∃ m₀, start mergedProgram (fun _ => 0) {} {} {} = some m₀ := ⟨_, rfl⟩
  exact ⟨t, m₀, hstep, hstart, parses_of_derives oneByte_predictive rfl (fun _ => rfl) (by decide)
    hrun hlinked hfree (hinst.trans hhead.symm) rfl Nat.one_pos hderives hstart⟩

end Moz.Vm2
