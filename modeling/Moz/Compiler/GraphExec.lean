import Moz.Compiler.GraphRuns
import Moz.Compiler.Overflow
import Moz.Lib.Simulation

/-!
# The optimiser keeps the runs

A merge puts the code of a block in place of a jump to it, and the removal of a
handler sends its fail edges on to where it jumps. So the code of a block before a
step of the optimiser is the code after it up to jumps that are not taken any more,
and the machine runs through both in step. The calls of the productions have the
same results in every state of every run that removes no entry block.
-/

namespace Moz.Compiler

open StateTransition Vm2
open Simulation (Bisimulation Trace)

/-- A fail edge to `a` and one to `b`: the same, or `a` is a jump to `b`. -/
def FailTo (C C' : MozCompiler) (a b : BlockId) : Prop :=
  b ∈ C'.blocks ∧ (a = b ∨ ∃ x, C.insts a = [x] ∧ x.op = .iJump b)

/-- The code `l` of `C` and the code `l'` of `C'`, which may have fewer jumps. -/
inductive SameCode (C C' : MozCompiler) : List Ir → List Ir → Prop
  | step {x x' : Ir} {l l' : List Ir} (hop : x'.op = x.op) (hnot : x.op.isTerminator = false)
      (hfail : FailTo C C' x.fail x'.fail) (h : SameCode C C' l l') :
      SameCode C C' (x :: l) (x' :: l')
  | leave {x x' : Ir} {l l' : List Ir} (hop : x'.op = x.op) (hleave : x.op = .iRet ∨ x.op = .iFail) :
      SameCode C C' (x :: l) (x' :: l')
  | jump {x x' : Ir} {l l' : List Ir} {target : BlockId} (hop : x.op = .iJump target)
      (hop' : x'.op = .iJump target) (htarget : target ∈ C'.blocks) :
      SameCode C C' (x :: l) (x' :: l')
  | skip {x : Ir} {l l' : List Ir} {target : BlockId} (hop : x.op = .iJump target)
      (h : SameCode C C' (C.insts target) l') : SameCode C C' (x :: l) l'

/-- The graphs of `C` and `C'` run alike. -/
structure SameGraph (C C' : MozCompiler) : Prop where
  decls : C'.decls = C.decls
  code : ∀ b ∈ C'.blocks, SameCode C C' (C.insts b) (C'.insts b)
  entries : ∀ d ∈ C'.decls, ∀ e, d.inst = some e → e ∈ C'.blocks

structure SameFrame (C C' : MozCompiler) (f g : Frame) : Prop where
  pos : g.pos = f.pos
  next : SameCode C C' f.next g.next
  fail : FailTo C C' f.fail g.fail
  sp : g.sp = f.sp
  cells : g.cells = f.cells

structure SameState (C C' : MozCompiler) (s t : State) : Prop where
  code : SameCode C C' s.code t.code
  current : t.current = s.current
  sp : t.sp = s.sp
  cells : t.cells = s.cells
  frames : List.Forall₂ (SameFrame C C') s.frames t.frames
  ast : t.ast = s.ast

/-- What a call has come to: whether it matched, where, and with which log; or a full stack. -/
def State.Out (s : State) : Option (Bool × ℕ × AstMachine) → Prop
  | some r => s.result = some r.1 ∧ s.current = r.2.1 ∧ s.ast = r.2.2
  | none => s.Full

/-- An instruction that is executed: its operands, what it matches, and the state it is executed in,
the code apart. -/
structure Event where
  op : Op
  effect : Effect
  current : ℕ
  sp : ℕ
  cells : List ℕ
  frames : List (ℕ × ℕ × List ℕ)
  ast : AstMachine

/-- A jump is no event. -/
def State.events (R : Runtime) (s : State) : List Event :=
  match s.code with
  | [] => []
  | x :: _ =>
    if x.op.IsJump then []
    else [⟨x.op, x.op.effect R s.current, s.current, s.sp, s.cells,
      s.frames.map fun f => (f.pos, f.sp, f.cells), s.ast⟩]

section Runs

variable {C C' : MozCompiler} {R : Runtime} {s s' t t' : State} {l l' : List Ir} {x x' : Ir}
  {a b : BlockId}

theorem State.events_jump {target : BlockId} (hop : x.op = .iJump target) :
    State.events R { s with code := x :: l } = [] := if_pos ⟨target, hop⟩

theorem map_frames {fs gs : List Frame} (h : List.Forall₂ (SameFrame C C') fs gs) :
    gs.map (fun f => (f.pos, f.sp, f.cells)) = fs.map fun f => (f.pos, f.sp, f.cells) := by
  induction h with
  | nil => rfl
  | cons hframe _ ih => rw [List.map_cons, List.map_cons, ih, hframe.pos, hframe.sp, hframe.cells]

theorem SameState.events (h : SameState C C' s t) (hop : x'.op = x.op) :
    State.events R { s with code := x :: l } = State.events R { t with code := x' :: l' } := by
  simp only [State.events, hop, h.current, h.sp, h.cells, map_frames h.frames, h.ast]

theorem State.Out.stuck {r : Option (Bool × ℕ × AstMachine)} (h : s.Out r) :
    Compiler.step C R s = none := by
  cases r with
  | none => exact (State.Full.stuck h).1
  | some r => exact step_of_result h.1

theorem SameGraph.failTo (h : SameGraph C C') (hfail : FailTo C C' a b) :
    SameCode C C' (C.insts a) (C'.insts b) := by
  obtain ⟨hb, rfl | ⟨x, hx, hop⟩⟩ := hfail
  · exact h.code a hb
  · rw [hx]
    exact .skip hop (h.code b hb)

theorem SameState.at (h : SameState C C' s t) (hcode : SameCode C C' l l') :
    SameState C C' { s with code := l } { t with code := l' } :=
  ⟨hcode, h.current, h.sp, h.cells, h.frames, h.ast⟩

theorem SameGraph.exec (h : SameGraph C C') (hst : SameState C C' s t) (hop : x'.op = x.op)
    (hnot : x.op.isTerminator = false) (hfail : FailTo C C' x.fail x'.fail) :
    Option.Rel (SameState C C') (exec C R s x) (exec C' R t x') := by
  obtain ⟨hcode, hcurrent, hsp, hcells, hframes, hast⟩ := hst
  obtain ⟨scode, scurrent, ssp, scells, sframes, sast⟩ := s
  obtain ⟨tcode, tcurrent, tsp, tcells, tframes, tast⟩ := t
  dsimp only at *
  subst hcurrent hsp hcells hast
  unfold Compiler.exec
  rw [hop]
  cases hx : x.op with
  | iLabel => exact .some ⟨hcode, rfl, rfl, rfl, hframes, rfl⟩
  | iJump | iRet | iFail =>
    rw [hx] at hnot
    cases hnot
  | iInvoke d =>
    dsimp only
    rw [h.decls]
    cases hdecl : C.decls[d]? with
    | none => exact .none
    | some decl =>
      cases hinst : decl.inst with
      | none => simp [hinst]
      | some entry =>
        have hin := h.entries decl (h.decls.symm ▸ List.mem_of_getElem? hdecl) entry hinst
        by_cases hroom : tsp + fpMax ≤ stackSize
        · simp only [Option.bind_eq_bind, Option.bind_some, hinst, guard, hroom, if_true]
          refine .some ⟨h.code entry hin, rfl, rfl, rfl, .cons ?_ hframes, rfl⟩
          exact ⟨rfl, hcode, hfail, rfl, rfl⟩
        · simp [guard, hroom]
  | iPLoad =>
    dsimp only
    cases tcells with
    | nil => exact .none
    | cons cell cells => exact .some ⟨hcode, rfl, rfl, rfl, hframes, rfl⟩
  | iPStore =>
    by_cases hroom : tsp < stackSize
    · simp only [Option.bind_eq_bind, guard, hroom, if_true]
      exact .some ⟨hcode, rfl, rfl, rfl, hframes, rfl⟩
    · simp [guard, hroom]
  | iTPush | iTPop | iTNew | iTCapture | iTTag =>
    dsimp only
    cases hentry : Op.entry R tcurrent _ with
    | none => exact .none
    | some log => exact .some ⟨hcode, rfl, rfl, rfl, hframes, rfl⟩
  | _ =>
    dsimp only
    split
    · exact .some ⟨hcode, rfl, rfl, rfl, hframes, rfl⟩
    · exact .some ⟨h.failTo hfail, rfl, rfl, rfl, hframes, rfl⟩
    · exact .none

theorem SameGraph.leave (h : SameGraph C C') (hcurrent : t.current = s.current) (hast : t.ast = s.ast)
    (hframes : List.Forall₂ (SameFrame C C') s.frames t.frames) (hop : x'.op = x.op)
    (hleave : x.op = .iRet ∨ x.op = .iFail) :
    Option.Rel (SameState C C') (Compiler.exec C R s x) (Compiler.exec C' R t x') := by
  obtain ⟨scode, scurrent, ssp, scells, sframes, sast⟩ := s
  obtain ⟨tcode, tcurrent, tsp, tcells, tframes, tast⟩ := t
  dsimp only at *
  unfold Compiler.exec
  rw [hop]
  obtain hx | hx := hleave
  · rw [hx]
    cases hframes with
    | nil => exact .none
    | cons hframe hrest =>
      exact .some ⟨hframe.next, hcurrent, hframe.sp, hframe.cells, hrest, hast⟩
  · rw [hx]
    cases hframes with
    | nil => exact .none
    | cons hframe hrest =>
      exact .some ⟨h.failTo hframe.fail, hframe.pos, hframe.sp, hframe.cells, hrest, hast⟩

theorem exec_jump {target : BlockId} (h : x.op = .iJump target) :
    Compiler.exec C R s x = some { s with code := C.insts target } := by
  rw [Compiler.exec, h]

theorem result_eq (hframes : List.Forall₂ (SameFrame C C') s.frames t.frames) (hop : x'.op = x.op) :
    State.result { s with code := x :: l } = State.result { t with code := x' :: l' } := by
  unfold State.result
  dsimp only
  cases hs : s.frames with
  | nil =>
    rw [hs] at hframes
    rw [List.forall₂_nil_left_iff.1 hframes]
    dsimp only
    rw [hop]
  | cons f frames =>
    rw [hs] at hframes
    obtain ⟨g, frames', -, -, ht⟩ := List.forall₂_cons_left_iff.1 hframes
    rw [ht]

theorem full_of_full (hsp : t.sp = s.sp) (hop : x'.op = x.op)
    (h : State.Full { s with code := x :: l }) : State.Full { t with code := x' :: l' } := by
  obtain ⟨y, m, hcode, hfull⟩ := h
  obtain ⟨rfl, -⟩ := List.cons.inj hcode
  exact ⟨x', l', rfl, by rwa [hop, hsp]⟩

theorem full_iff (hsp : t.sp = s.sp) (hop : x'.op = x.op) :
    State.Full { s with code := x :: l } ↔ State.Full { t with code := x' :: l' } :=
  ⟨full_of_full hsp hop, full_of_full hsp.symm hop.symm⟩

structure Level (C C' : MozCompiler) (R : Runtime) (s t : State) : Prop where
  step : Option.Rel (SameState C C') (step C R s) (step C' R t)
  events : s.events R = t.events R
  result : s.result = t.result
  full : s.Full ↔ t.Full

theorem SameGraph.level_step (h : SameGraph C C') (hst : SameState C C' s t) (hop : x'.op = x.op)
    (hnot : x.op.isTerminator = false) (hfail : FailTo C C' x.fail x'.fail)
    (hrest : SameCode C C' l l') :
    Level C C' R { s with code := x :: l } { t with code := x' :: l' } := by
  refine ⟨?_, hst.events hop, result_eq hst.frames hop, full_iff hst.sp hop⟩
  rw [step_eq rfl, step_eq rfl]
  exact h.exec (hst.at hrest) hop hnot hfail

theorem SameGraph.level_leave (h : SameGraph C C') (hst : SameState C C' s t) (hop : x'.op = x.op)
    (hleave : x.op = .iRet ∨ x.op = .iFail) :
    Level C C' R { s with code := x :: l } { t with code := x' :: l' } := by
  refine ⟨?_, hst.events hop, result_eq hst.frames hop, full_iff hst.sp hop⟩
  rw [step_eq rfl, step_eq rfl]
  exact h.leave hst.current hst.ast hst.frames hop hleave

theorem step_jump_to {target : BlockId} (hop : x.op = .iJump target) :
    Compiler.step C R { s with code := x :: l } = some { s with code := C.insts target } := by
  rw [step_eq rfl, exec_jump hop]

theorem SameGraph.level_jump (h : SameGraph C C') (hst : SameState C C' s t) {target : BlockId}
    (hop : x.op = .iJump target) (hop' : x'.op = .iJump target) (htarget : target ∈ C'.blocks) :
    Level C C' R { s with code := x :: l } { t with code := x' :: l' } := by
  refine ⟨?_, hst.events (hop'.trans hop.symm), result_eq hst.frames (hop'.trans hop.symm),
    full_iff hst.sp (hop'.trans hop.symm)⟩
  rw [step_jump_to hop, step_jump_to hop']
  exact .some (hst.at (h.code _ htarget))

/-- Both states are at the same instruction, or the one of `C` is at a jump that `C'` does not take. -/
theorem SameGraph.level_or_skip (h : SameGraph C C') (hst : SameState C C' s t)
    (hcode : SameCode C C' l l') :
    Level C C' R { s with code := l } { t with code := l' } ∨
      ∃ x l₁ target, l = x :: l₁ ∧ x.op = .iJump target ∧ SameCode C C' (C.insts target) l' := by
  cases hcode with
  | step hop hnot hfail hrest => exact .inl (h.level_step hst hop hnot hfail hrest)
  | leave hop hleave => exact .inl (h.level_leave hst hop hleave)
  | jump hop hop' htarget => exact .inl (h.level_jump hst hop hop' htarget)
  | skip hop hrest => exact .inr ⟨_, _, _, rfl, hop, hrest⟩

/-- The jumps that `C'` does not take come to an end. -/
theorem SameGraph.settle (h : SameGraph C C') (hst : SameState C C' s t)
    (hcode : SameCode C C' l l') : ∃ l₁, Trace (fun s s' => s' ∈ Compiler.step C R s)
      (State.events R) { s with code := l } [] { s with code := l₁ } ∧
        Level C C' R { s with code := l₁ } { t with code := l' } := by
  induction hcode with
  | step hop hnot hfail hrest => exact ⟨_, .refl _, h.level_step hst hop hnot hfail hrest⟩
  | leave hop hleave => exact ⟨_, .refl _, h.level_leave hst hop hleave⟩
  | jump hop hop' htarget => exact ⟨_, .refl _, h.level_jump hst hop hop' htarget⟩
  | skip hop _ ih =>
    obtain ⟨l₁, hrun, hlevel⟩ := ih
    exact ⟨l₁, .silent (step_jump_to hop) (State.events_jump hop) hrun, hlevel⟩

theorem SameGraph.bisimulation (h : SameGraph C C') (R : Runtime) :
    Bisimulation (fun s s' => s' ∈ Compiler.step C R s) (fun t t' => t' ∈ Compiler.step C' R t)
      (State.events R) (State.events R) State.Out State.Out (SameState C C') where
  forth s s' t hstep hst := by
    obtain hlevel | ⟨x, l, target, hl, hop, hrest⟩ := h.level_or_skip (R := R) hst hst.code
    · have hrel := hlevel.step
      rw [Option.mem_def.1 hstep] at hrel
      cases hrel' : Compiler.step C' R t with
      | none =>
        rw [hrel'] at hrel
        cases hrel
      | some t' =>
        rw [hrel'] at hrel
        cases hrel with
        | some hrel =>
          rw [hlevel.events]
          exact ⟨t', .single hrel', hrel⟩
    · rw [Option.mem_def, step_eq hl, exec_jump hop] at hstep
      cases hstep
      have hsilent : s.events R = [] := by
        rw [State.events, hl]
        exact if_pos ⟨target, hop⟩
      rw [hsilent]
      exact ⟨t, .refl t, hst.at hrest⟩
  back s t t' hstep hst := by
    obtain ⟨l, hrun, hlevel⟩ := h.settle (R := R) hst hst.code
    have hrel := hlevel.step
    rw [Option.mem_def.1 hstep] at hrel
    cases hrel' : Compiler.step C R { s with code := l } with
    | none =>
      rw [hrel'] at hrel
      cases hrel
    | some s' =>
      rw [hrel'] at hrel
      cases hrel with
      | some hrel =>
        have hstep' := hrun.trans (.single hrel')
        rw [List.nil_append, hlevel.events] at hstep'
        exact ⟨s', hstep', hrel⟩
  outForth s t r hout hst := by
    obtain hlevel | ⟨x, l, target, hl, hop, hrest⟩ := h.level_or_skip (R := R) hst hst.code
    · refine ⟨t, .refl t, ?_⟩
      cases r with
      | none => exact hlevel.full.1 hout
      | some r =>
        exact ⟨hlevel.result.symm.trans hout.1, hst.current.trans hout.2.1, hst.ast.trans hout.2.2⟩
    · have hstop := hout.stuck (C := C) (R := R)
      rw [step_eq hl, exec_jump hop] at hstop
      cases hstop
  outBack s t r hout hst := by
    obtain ⟨l, hrun, hlevel⟩ := h.settle (R := R) hst hst.code
    refine ⟨_, hrun, ?_⟩
    cases r with
    | none => exact hlevel.full.2 hout
    | some r =>
      exact ⟨hlevel.result.trans hout.1, hst.current.symm.trans hout.2.1,
        hst.ast.symm.trans hout.2.2⟩

end Runs

/-- The call of a production returns: whether it has matched, where, and with which log. Or it finds
the stack full. -/
def Answers (C : MozCompiler) (R : Runtime) (d sp p : ℕ) (ast : AstMachine)
    (r : Option (Bool × ℕ × AstMachine)) : Prop :=
  ∃ s, enter C d sp p ast = some s ∧ ∃ s', Reaches (step C R) s s' ∧ s'.Out r

def SameAnswers (C C' : MozCompiler) : Prop :=
  ∀ (R : Runtime) (d sp p : ℕ) (ast : AstMachine) (r : Option (Bool × ℕ × AstMachine)),
    Answers C R d sp p ast r ↔ Answers C' R d sp p ast r

/-- A run from the call of a production, with these events. -/
def RunsFrom (C : MozCompiler) (R : Runtime) (d sp p : ℕ) (cells : List ℕ) (ast : AstMachine)
    (es : List Event) (s' : State) : Prop :=
  ∃ s, enter C d sp p ast = some s ∧
    Trace (fun s s' => s' ∈ step C R s) (State.events R) { s with cells := cells } es s'

/-- The calls have runs with the same events, and the runs come to the same results. -/
structure SameRuns (C C' : MozCompiler) : Prop where
  trace : ∀ (R : Runtime) (d sp p : ℕ) (cells : List ℕ) (ast : AstMachine) (es : List Event),
    (∃ s', RunsFrom C R d sp p cells ast es s') ↔ ∃ s', RunsFrom C' R d sp p cells ast es s'
  result : ∀ (R : Runtime) (d sp p : ℕ) (cells : List ℕ) (ast : AstMachine) (es : List Event)
    (r : Option (Bool × ℕ × AstMachine)), (∃ s', RunsFrom C R d sp p cells ast es s' ∧ s'.Out r) ↔
      ∃ s', RunsFrom C' R d sp p cells ast es s' ∧ s'.Out r

namespace SameRuns

theorem refl (C : MozCompiler) : SameRuns C C :=
  ⟨fun _ _ _ _ _ _ _ => Iff.rfl, fun _ _ _ _ _ _ _ _ => Iff.rfl⟩

theorem trans {C C' C'' : MozCompiler} (h : SameRuns C C') (h' : SameRuns C' C'') :
    SameRuns C C'' where
  trace R d sp p cells ast es :=
    (h.trace R d sp p cells ast es).trans (h'.trace R d sp p cells ast es)
  result R d sp p cells ast es r :=
    (h.result R d sp p cells ast es r).trans (h'.result R d sp p cells ast es r)

theorem answers_iff {C : MozCompiler} {R : Runtime} {d sp p : ℕ} {ast : AstMachine}
    {r : Option (Bool × ℕ × AstMachine)} : Answers C R d sp p ast r ↔
      ∃ es s', RunsFrom C R d sp p [] ast es s' ∧ s'.Out r := by
  have hcells : ∀ s, enter C d sp p ast = some s → { s with cells := [] } = s := by
    intro s henter
    obtain ⟨decl, -, henter⟩ := Option.bind_eq_some_iff.1 henter
    obtain ⟨entry, -, henter⟩ := Option.bind_eq_some_iff.1 henter
    cases henter
    rfl
  constructor
  · rintro ⟨s, henter, s', hrun, hout⟩
    obtain ⟨es, htrace⟩ := Simulation.exists_trace (State.events R) hrun
    refine ⟨es, s', ⟨s, henter, ?_⟩, hout⟩
    rwa [hcells s henter]
  · rintro ⟨es, s', ⟨s, henter, htrace⟩, hout⟩
    rw [hcells s henter] at htrace
    exact ⟨s, henter, s', htrace.reaches, hout⟩

theorem answers {C C' : MozCompiler} (h : SameRuns C C') : SameAnswers C C' := by
  intro R d sp p ast r
  rw [answers_iff, answers_iff]
  exact exists_congr fun es => h.result R d sp p [] ast es r

end SameRuns

def Called (decls : List Decl) : Prop := ∀ d ∈ decls, ∀ e, d.inst = some e → 0 < d.refc

theorem Intact.entries {C : MozCompiler} (h : Intact C) (hcalled : Called C.decls) :
    ∀ d ∈ C.decls, ∀ e, d.inst = some e → e ∈ C.blocks := by
  intro d hd e hinst
  obtain ⟨e', hinst', he', -⟩ := h.entry_of_live d hd (hcalled d hd e hinst)
  rw [hinst] at hinst'
  cases hinst'
  exact he'

/-- A production is not there in either graph, or its calls begin in states that correspond. -/
theorem SameGraph.enter {C C' : MozCompiler} (h : SameGraph C C') (d sp p : ℕ) (cells : List ℕ)
    (ast : AstMachine) : enter C d sp p ast = none ∧ enter C' d sp p ast = none ∨
      ∃ s t, enter C d sp p ast = some s ∧ enter C' d sp p ast = some t ∧
        SameState C C' { s with cells := cells } { t with cells := cells } := by
  unfold Compiler.enter
  rw [h.decls]
  cases hdecl : C.decls[d]? with
  | none => exact .inl ⟨rfl, rfl⟩
  | some decl =>
    cases hinst : decl.inst with
    | none => exact .inl ⟨by simp [hinst], by simp [hinst]⟩
    | some e =>
      have hin := h.entries decl (h.decls.symm ▸ List.mem_of_getElem? hdecl) e hinst
      simp only [Option.bind_eq_bind, Option.bind_some, hinst, Option.pure_def, Option.some.injEq]
      exact .inr ⟨_, _, rfl, rfl, h.code e hin, rfl, rfl, rfl, .nil, rfl⟩

theorem SameGraph.runs {C C' : MozCompiler} (h : SameGraph C C') : SameRuns C C' := by
  constructor
  · intro R d sp p cells ast es
    obtain ⟨hnone, hnone'⟩ | ⟨s, t, hs, ht, hst⟩ := h.enter d sp p cells ast
    · simp [RunsFrom, hnone, hnone']
    · have hiff := (h.bisimulation R).trace_iff hst es
      simpa [RunsFrom, hs, ht] using hiff
  · intro R d sp p cells ast es r
    obtain ⟨hnone, hnone'⟩ | ⟨s, t, hs, ht, hst⟩ := h.enter d sp p cells ast
    · simp [RunsFrom, hnone, hnone']
    · have hiff := (h.bisimulation R).result_iff hst es r
      simpa [RunsFrom, hs, ht] using hiff

section Edits

variable {C C' : MozCompiler} {b bb pred succ : BlockId} {l l' body body' : List Ir}
  {x t term inst : Ir} {f : Ir → Ir}

theorem SameCode.prepend (hop : ∀ x, (f x).op = x.op) (hopen : ∀ x ∈ body, x.op.isTerminator = false)
    (hfail : ∀ x ∈ body, FailTo C C' x.fail (f x).fail) (h : SameCode C C' l l') :
    SameCode C C' (body ++ l) (body.map f ++ l') := by
  induction body with
  | nil => exact h
  | cons x body ih =>
    refine .step (hop x) (hopen x List.mem_cons_self) (hfail x List.mem_cons_self) ?_
    exact ih (fun y hy => hopen y (.tail x hy)) fun y hy => hfail y (.tail x hy)

theorem SameCode.terminator (hop : t.op = x.op) (hterm : x.op.isTerminator = true)
    (htarget : ∀ s, x.op = .iJump s → s ∈ C'.blocks) : SameCode C C' (x :: l) (t :: l') := by
  cases hx : x.op with
  | iJump target => exact .jump hx (hop.trans hx) (htarget target hx)
  | iRet => exact .leave hop (.inl hx)
  | iFail => exact .leave hop (.inr hx)
  | _ =>
    rw [hx] at hterm
    cases hterm

theorem SameCode.map (hop : ∀ x, (f x).op = x.op) (hclosed : Closed l)
    (hfail : ∀ x ∈ l, FailTo C C' x.fail (f x).fail) (htarget : ∀ s, JumpsTo l s → s ∈ C'.blocks) :
    SameCode C C' l (l.map f) := by
  obtain ⟨body, t, rfl, hterm, hopen⟩ := hclosed
  rw [List.map_append]
  apply SameCode.prepend hop hopen fun x hx => hfail x (List.mem_append_left _ hx)
  refine .terminator (hop t) hterm fun s hs => htarget s ?_
  exact ⟨t, by rw [List.getLast?_concat], hs⟩

theorem SameCode.same (hclosed : Closed l) (hfail : ∀ x ∈ l, x.fail ∈ C'.blocks)
    (htarget : ∀ s, JumpsTo l s → s ∈ C'.blocks) : SameCode C C' l l := by
  have hmap := SameCode.map (C := C) (f := id) (fun _ => rfl) hclosed
    (fun x hx => ⟨hfail x hx, .inl rfl⟩) htarget
  rwa [List.map_id] at hmap

theorem Intact.sameGraph_merge (hC : Intact C) (hC' : Intact C') (hcalled : Called C.decls)
    (hblocks : C'.blocks = C.blocks) (hdecls : C'.decls = C.decls) (hbb : bb ∈ C.blocks)
    (hpred : C.insts pred = body ++ [term]) (hjump : term.op = .iJump bb)
    (hinsts : C.insts bb = body' ++ [inst]) (hother : ∀ b, b ≠ pred → C'.insts b = C.insts b)
    (hmerged : C'.insts pred = body ++ body' ++ [t]) (hop : t.op = inst.op)
    (hin : pred ∈ C.blocks) : SameGraph C C' := by
  have hopen : ∀ {b : BlockId} {body : List Ir} {t : Ir}, b ∈ C.blocks → C.insts b = body ++ [t] →
      (∀ x ∈ body, x.op.isTerminator = false) ∧ t.op.isTerminator = true ∧
        ∀ x ∈ body, FailTo C C' x.fail x.fail := by
    intro b body t hb heq
    obtain ⟨body₁, t₁, heq₁, hterm, hopen⟩ := hC.closed b hb
    obtain ⟨rfl, ht⟩ := List.append_inj' (heq.symm.trans heq₁) rfl
    obtain rfl := List.singleton_inj.1 ht
    refine ⟨hopen, hterm, fun x hx => ⟨?_, .inl rfl⟩⟩
    rw [hblocks]
    refine (hC.fails b hb x ?_).1
    rw [heq₁]
    exact List.mem_append_left _ hx
  refine ⟨hdecls, fun b hb => ?_, hC'.entries (hdecls.symm ▸ hcalled)⟩
  rw [hblocks] at hb
  by_cases heq : b = pred
  · subst heq
    obtain ⟨hopen₁, -, hfail₁⟩ := hopen hin hpred
    obtain ⟨hopen₂, hterm₂, hfail₂⟩ := hopen hbb hinsts
    have htail : SameCode C C' (C.insts bb) (body' ++ [t]) := by
      rw [hinsts]
      have hlast : SameCode C C' [inst] [t] := by
        refine .terminator hop hterm₂ fun s hs => ?_
        rw [hblocks]
        refine (hC.targets bb s ⟨inst, ?_, hs⟩).2
        rw [show (C.mem bb).insts = body' ++ [inst] from hinsts, List.getLast?_concat]
      simpa using SameCode.prepend (f := id) (fun _ => rfl) hopen₂ hfail₂ hlast
    rw [hpred, hmerged, List.append_assoc]
    simpa using SameCode.prepend (f := id) (fun _ => rfl) hopen₁ hfail₁
      (SameCode.skip (l := []) hjump htail)
  · rw [hother b heq]
    exact .same (hC.closed b hb) (fun x hx => hblocks ▸ (hC.fails b hb x hx).1)
      fun s hs => hblocks ▸ (hC.targets b s hs).2

/-- Blocks are taken from the list, and fail edges to them go on. -/
theorem Intact.sameGraph_remove (hC : Intact C) (hC' : Intact C') (hcalled : Called C.decls)
    (hdecls : C'.decls = C.decls) (hblocks : ∀ b ∈ C'.blocks, b ∈ C.blocks)
    (hop : ∀ x, (f x).op = x.op) (hinsts : ∀ b ∈ C'.blocks, C'.insts b = (C.insts b).map f)
    (hfail : ∀ b ∈ C'.blocks, ∀ x ∈ C.insts b, FailTo C C' x.fail (f x).fail) : SameGraph C C' := by
  refine ⟨hdecls, fun b hb => ?_, hC'.entries (hdecls.symm ▸ hcalled)⟩
  rw [hinsts b hb]
  refine .map hop (hC.closed b (hblocks b hb)) (hfail b hb) fun s hs => ?_
  refine (hC'.targets b s ?_).2
  obtain ⟨t, ht, htop⟩ := hs
  refine ⟨f t, ?_, (hop t).trans htop⟩
  rw [show (C'.mem b).insts = (C.insts b).map f from hinsts b hb, List.getLast?_map, ht]
  rfl

end Edits

structure MergedAlike (C₀ : MozCompiler) (W₀ : WorkList) (bb : BlockId) (done : List BlockId)
    (st : MergeState) : Prop extends Merged C₀ W₀ bb done st where
  decls : st.1.decls = C₀.decls
  runs : SameRuns C₀ st.1

section Loops

variable {C₀ : MozCompiler} {bb succ pred : BlockId} {inst : Ir}

theorem merged_jump_runs (hC : Intact C₀) (hcalled : Called C₀.decls) (W₀ : WorkList)
    (hself : bb ∉ (C₀.mem bb).preds) (hnot : (C₀.mem bb).type.isSpecial = false)
    (hsucc : succ ∈ (C₀.mem bb).succs) (hinst : blockGetJump C₀ bb = some inst) :
    MergedAlike C₀ W₀ bb (C₀.mem bb).preds
      ((C₀.mem bb).preds.reverse.foldl (mergeJumpIntoPred bb succ inst) (C₀, W₀, 0)) := by
  have hne : bb ≠ succ := by
    rintro rfl
    exact hself (hC.wired.pred_of_succ _ _ hsucc)
  refine foldl_preds (hC.wired.nodup_preds bb) ?_ ⟨.start hC, rfl, .refl C₀⟩
  rintro done ⟨C, W, modified⟩ p ⟨h, hdecls, hruns⟩ hp hout
  have hpbb : p ≠ bb := fun heq => hself (heq ▸ hp)
  have hpred : p ∈ (C.mem bb).preds := (h.preds p).2 ⟨hp, hout⟩
  obtain ⟨term, hterm⟩ := h.jump_of_pred hpred
  have hjump := blockGetJump_eq_some.2 hterm
  have hsucc' : succ ∈ (C.mem bb).succs := h.same.2.1 ▸ hsucc
  have hedge := h.intact.wired.succ_of_pred p bb hpred
  have hin := h.intact.targets p bb ((h.intact.succs p bb).1 hedge)
  have hinst' : EndsInJump (C.mem bb).insts inst := by
    rw [h.same.1]
    exact blockGetJump_eq_some.1 hinst
  rw [mergeJumpIntoPred_eq hpbb hjump]
  obtain ⟨body, htakes⟩ := takes_jump h.intact hinst' hterm hsucc' hedge
  have hround := h.round hpred hpbb (jump_round inst h.intact.wired hjump hedge hsucc') htakes hne hnot
  refine ⟨hround, htakes.decls.trans hdecls, hruns.trans ?_⟩
  obtain ⟨body₁, body₂, hbody₁, hbody₂, -, hmerged⟩ := jumpMerged_eq succ h.intact.toGraph
    (h.intact.closed p hin.1) hterm (h.intact.closed bb hin.2) hinst'
  have hop : ({ term with op := .iJump succ } : Ir).op = inst.op :=
    (h.intact.succ_eq hinst' hsucc').symm
  refine (h.intact.sameGraph_merge hround.intact (hdecls ▸ hcalled) htakes.blocks htakes.decls hin.2
    hbody₁ (h.intact.succ_eq hterm hedge) hbody₂ (fun b hb => (htakes.other b hb).1) ?_ hop
    hin.1).runs
  rw [← hmerged]
  show ((((rewritten C bb p (jumpMerged C bb succ inst p term)).blockUnlink p bb).blockLink p
    succ).mem p).insts = _
  rw [mem_blockLink, mem_blockUnlink]
  exact (rewritten_fields C bb p _ p).1.trans (if_pos rfl)

theorem merged_exit_runs (hC : Intact C₀) (hcalled : Called C₀.decls) (W₀ : WorkList)
    (hself : bb ∉ (C₀.mem bb).preds) (hnot : (C₀.mem bb).type.isSpecial = false)
    (hlast : (C₀.mem bb).insts.getLast? = some inst) (hret : inst.op = .iRet) :
    MergedAlike C₀ W₀ bb (C₀.mem bb).preds
      ((C₀.mem bb).preds.reverse.foldl (mergeExitIntoPred bb) (C₀, W₀, 0)) := by
  refine foldl_preds (hC.wired.nodup_preds bb) ?_ ⟨.start hC, rfl, .refl C₀⟩
  rintro done ⟨C, W, modified⟩ p ⟨h, hdecls, hruns⟩ hp hout
  have hpbb : p ≠ bb := fun heq => hself (heq ▸ hp)
  have hpred : p ∈ (C.mem bb).preds := (h.preds p).2 ⟨hp, hout⟩
  obtain ⟨term, hterm⟩ := h.jump_of_pred hpred
  have hjump := blockGetJump_eq_some.2 hterm
  have hedge := h.intact.wired.succ_of_pred p bb hpred
  have hin := h.intact.targets p bb ((h.intact.succs p bb).1 hedge)
  have hlast' : (C.mem bb).insts.getLast? = some inst := by
    rw [h.same.1]
    exact hlast
  rw [mergeExitIntoPred_eq hpbb hjump (h.intact.wired.parent p term hterm)]
  obtain ⟨body, htakes⟩ := takes_exit h.intact hlast' hret hterm hedge
  have hround := h.round hpred hpbb (exit_round h.intact.wired hjump hlast' hret) htakes id hnot
  refine ⟨hround, htakes.decls.trans hdecls, hruns.trans ?_⟩
  obtain ⟨body₁, body₂, hbody₁, hbody₂, -, hmerged⟩ := exitMerged_eq h.intact.toGraph
    (h.intact.closed p hin.1) hterm (h.intact.closed bb hin.2) hlast' hret
  refine (h.intact.sameGraph_merge hround.intact (hdecls ▸ hcalled) htakes.blocks htakes.decls hin.2
    hbody₁ (h.intact.succ_eq hterm hedge) hbody₂ (fun b hb => (htakes.other b hb).1) ?_ rfl
    hin.1).runs
  rw [← hmerged]
  show (((rewritten C bb p (exitMerged C bb p term)).blockUnlink p bb).mem p).insts = _
  rw [mem_blockUnlink]
  exact (rewritten_fields C bb p _ p).1.trans (if_pos rfl)

end Loops

section Steps

variable {C C' : MozCompiler} {W : WorkList} {bb succ : BlockId} {inst : Ir}

/-- A block that nothing leads to is taken from the list. -/
theorem Intact.runs_drop (h : Intact C) (h' : Intact C') (hcalled : Called C.decls)
    (hdecls : C'.decls = C.decls) (hblocks : C'.blocks = C.blocks.erase bb)
    (hnot : (C.mem bb).type.isSpecial = false)
    (hinsts : ∀ b, b ≠ bb → C'.insts b = C.insts b) : SameRuns C C' := by
  have herase : ∀ b, b ∈ C'.blocks ↔ b ≠ bb ∧ b ∈ C.blocks := fun b =>
    hblocks ▸ h.nodup.mem_erase_iff
  refine (h.sameGraph_remove h' hcalled hdecls (fun b hb => ((herase b).1 hb).2) (f := id)
    (fun _ => rfl) (fun b hb => ?_) fun b hb x hx => ⟨(herase _).2 ?_, .inl rfl⟩).runs
  · rw [List.map_id]
    exact hinsts b ((herase b).1 hb).1
  · obtain ⟨hin, hspecial⟩ := h.fails b ((herase b).1 hb).2 x hx
    refine ⟨?_, hin⟩
    intro heq
    rw [show x.fail = bb from heq, hnot] at hspecial
    cases hspecial

theorem Intact.jumpResult_runs (h : Intact C) (hcalled : Called C.decls) (W : WorkList)
    (hself : bb ∉ (C.mem bb).preds) (hnot : (C.mem bb).type.isSpecial = false)
    (hsuccs : (C.mem bb).succs = [succ]) (hinst : blockGetJump C bb = some inst) :
    (jumpResult C W bb succ inst).1.decls = C.decls ∧
      SameRuns C (jumpResult C W bb succ inst).1 := by
  have hmerged := merged_jump_runs h hcalled W hself hnot
    (show succ ∈ (C.mem bb).succs by simp [hsuccs]) hinst
  have hparent := h.wired.parent bb inst (blockGetJump_eq_some.1 hinst)
  unfold jumpResult
  dsimp only
  generalize (C.mem bb).preds.reverse.foldl (mergeJumpIntoPred bb succ inst) (C, W, 0) = st at *
  rw [if_pos hmerged.count]
  obtain ⟨-, hsuccs', htype⟩ := hmerged.same
  have hdrop := hmerged.intact.drop hmerged.nil (hsuccs'.trans hsuccs) hparent (htype ▸ hnot)
  have hruns := hmerged.intact.runs_drop hdrop (hmerged.decls ▸ hcalled) rfl rfl (htype ▸ hnot)
    fun b hb => by
      show (_ : Block).insts = _
      rw [mem_removed st.1 succ hparent, mem_blockUnlink]
      exact if_neg hb
  split_ifs
  · exact ⟨hmerged.decls, hmerged.runs.trans hruns⟩
  · exact ⟨hmerged.decls, hmerged.runs.trans hruns⟩

theorem Intact.exitResult_runs (h : Intact C) (hcalled : Called C.decls) (W : WorkList)
    (hself : bb ∉ (C.mem bb).preds) (hnot : (C.mem bb).type.isSpecial = false)
    (hlast : (C.mem bb).insts.getLast? = some inst) (hret : inst.op = .iRet) :
    (exitResult C W bb).1.decls = C.decls ∧ SameRuns C (exitResult C W bb).1 := by
  have hmerged := merged_exit_runs h hcalled W hself hnot hlast hret
  have hsimplified := exitResult_simplified h W hself hnot hlast hret
  have hintact := hsimplified.intact
  unfold exitResult at hintact ⊢
  dsimp only at hintact ⊢
  generalize (C.mem bb).preds.reverse.foldl (mergeExitIntoPred bb) (C, W, 0) = st at *
  rw [if_pos hmerged.count] at hintact ⊢
  obtain ⟨-, -, htype⟩ := hmerged.same
  exact ⟨hmerged.decls, hmerged.runs.trans (hmerged.intact.runs_drop hintact
    (hmerged.decls ▸ hcalled) rfl rfl (htype ▸ hnot) fun _ _ => rfl)⟩

theorem Intact.simplifyCfg_runs (h : Intact C) (hcalled : Called C.decls) (W : WorkList)
    (bb : BlockId) : (simplifyCfg C W bb).1.decls = C.decls ∧
      SameRuns C (simplifyCfg C W bb).1 := by
  obtain heq | ⟨hnot, hself, ⟨succ, inst, hsuccs, hjump, heq⟩ | ⟨inst, hlast, hret, heq⟩⟩ :=
    simplifyCfg_cases C W bb
  · rw [heq]
    exact ⟨rfl, .refl C⟩
  · rw [heq]
    exact h.jumpResult_runs hcalled W hself hnot hsuccs hjump
  · rw [heq]
    exact h.exitResult_runs hcalled W hself hnot hlast hret

/-- `remove_indirect_jump_handler` keeps the calls, unless it removes an entry block. -/
theorem Intact.handler_runs (h : Intact C) (hcalled : Called C.decls) (W : WorkList)
    (hsettled : ∀ b ∈ C.blocks, Settled C b)
    (hspare : Removable C bb → (C.mem bb).type.entry = false) :
    (removeIndirectJumpHandler C W bb).1.decls = C.decls ∧
      SameRuns C (removeIndirectJumpHandler C W bb).1 := by
  have hintact := (h.handled W hsettled hspare).1
  obtain heq | ⟨succ, inst, hsuccs, hpreds, hinsts, ⟨target, hop⟩, -, heq⟩ :=
    removeIndirectJumpHandler_cases C W bb
  · rw [heq]
    exact ⟨rfl, .refl C⟩
  · rw [heq] at hintact ⊢
    have hends : EndsInJump (C.mem bb).insts inst := by
      rw [hinsts]
      exact ⟨rfl, target, hop⟩
    have hparent := h.wired.parent bb inst hends
    have hjump : inst.op = .iJump succ := h.succ_eq hends (by simp [hsuccs])
    have hin := h.targets bb succ ((h.succs bb succ).1 (by simp [hsuccs]))
    have hne : succ ≠ bb := by
      rintro rfl
      have hself := h.wired.pred_of_succ succ succ (by simp [hsuccs])
      rw [hpreds] at hself
      cases hself
    have hF := h.removed hsuccs hparent
    refine ⟨hF.decls, ?_⟩
    generalize redirectFail (dropBlock (removeFromParent (C.blockUnlink bb succ) inst) bb) bb succ =
      F at *
    have herase : ∀ b, b ∈ F.blocks ↔ b ≠ bb ∧ b ∈ C.blocks := fun b =>
      hF.blocks ▸ h.nodup.mem_erase_iff
    have hspec := redirected_spec bb succ
    refine (h.sameGraph_remove hintact hcalled hF.decls (fun b hb => ((herase b).1 hb).2)
      (fun x => (hspec x).1) (fun b hb => ?_) fun b hb x hx => ?_).runs
    · obtain ⟨hbb, hin⟩ := (herase b).1 hb
      exact (hF.insts b).trans ((if_neg hbb).trans (if_pos hin))
    · rw [(hspec x).2.2]
      split_ifs with hfail
      · exact ⟨(herase succ).2 ⟨hne, hin.2⟩, .inr ⟨inst, hfail ▸ hinsts, hjump⟩⟩
      · exact ⟨(herase _).2 ⟨hfail, (h.fails b ((herase b).1 hb).2 x hx).1⟩, .inl rfl⟩

end Steps

/-- In a run that removes no entry block the calls stay the same. -/
theorem OptRun.runs {C : MozCompiler} {s : OptState} (hC : Intact C) (hcalled : Called C.decls)
    (h : OptRun Spares C s) : s.C.decls = C.decls ∧ SameRuns C s.C := by
  induction h with
  | start => exact ⟨rfl, .refl C⟩
  | @step s t a hrun hspare hstep ih =>
    have hsound := hrun.sound hC
    have hcalled' : Called s.C.decls := ih.1 ▸ hcalled
    cases a with
    | next =>
      unfold OptState.step at hstep
      dsimp only at hstep
      split_ifs at hstep
      cases hpass : s.pass <;>
        · rw [hpass] at hstep
          cases hstep
          exact ih
    | take i =>
      obtain ⟨bb, hget, rfl⟩ := OptState.step_take hstep
      cases hpass : s.pass with
      | simplify =>
        obtain ⟨hdecls, hruns⟩ :=
          hsound.intact.simplifyCfg_runs hcalled' (s.W.eraseIdx i) bb
        exact ⟨hdecls.trans ih.1, ih.2.trans hruns⟩
      | handlers =>
        have hall : ∀ b ∈ s.C.blocks, Settled s.C b := fun b hb =>
          (hsound.settled b hb).resolve_right fun ⟨hsimplify, _⟩ => by
            rw [hpass] at hsimplify
            cases hsimplify
        obtain ⟨hdecls, hruns⟩ := hsound.intact.handler_runs hcalled' (s.W.eraseIdx i) hall
          (hspare hpass bb hget)
        exact ⟨hdecls.trans ih.1, ih.2.trans hruns⟩

/-- The strings, the tags and the sets that the instructions name by index. -/
def MozCompiler.constants (C : MozCompiler) :
    List (List UInt8) × List (List UInt8) × List Bitset :=
  (C.strs, C.tags, C.sets)

section Constants

variable {C : MozCompiler} {W : WorkList} {bb pred succ : BlockId} {inst : Ir} {st : MergeState}

theorem runtime_eq_of_constants {C' : MozCompiler} (h : C'.constants = C.constants)
    (input : List UInt8) : C'.runtime input = C.runtime input := by
  obtain ⟨hstrs, h⟩ := Prod.mk.inj h
  obtain ⟨htags, hsets⟩ := Prod.mk.inj h
  rw [MozCompiler.runtime, MozCompiler.runtime, hstrs, htags, hsets]

@[simp] theorem constants_blockUnlink : (C.blockUnlink pred succ).constants = C.constants := rfl

@[simp] theorem constants_blockLink : (C.blockLink pred succ).constants = C.constants := rfl

@[simp] theorem constants_blockSetType (type : BlockType) :
    (C.blockSetType bb type).constants = C.constants := rfl

@[simp] theorem constants_blockInsertBefore (target : Ir) :
    (C.blockInsertBefore bb target inst).constants = C.constants := rfl

@[simp] theorem constants_setJumpTarget (term : Ir) :
    (setJumpTarget C bb term succ).constants = C.constants := rfl

@[simp] theorem constants_removeFromParent :
    (removeFromParent C inst).constants = C.constants := rfl

@[simp] theorem constants_dropBlock : (dropBlock C bb).constants = C.constants := rfl

@[simp] theorem constants_redirectFail : (redirectFail C bb succ).constants = C.constants := rfl

theorem foldl_constants {α : Type} {f : MozCompiler → α → MozCompiler}
    (hf : ∀ C x, (f C x).constants = C.constants) (l : List α) (C : MozCompiler) :
    (l.foldl f C).constants = C.constants := by
  induction l generalizing C with
  | nil => rfl
  | cons x l ih => exact (ih (f C x)).trans (hf C x)

theorem mergeJumpIntoPred_constants (bb succ : BlockId) (inst : Ir) (st : MergeState)
    (pred : BlockId) : (mergeJumpIntoPred bb succ inst st pred).1.constants = st.1.constants := by
  unfold mergeJumpIntoPred
  dsimp only
  split_ifs
  · rfl
  · cases blockGetJump st.1 pred with
    | none => rfl
    | some term =>
      have hcopy : ∀ (C : MozCompiler) (x : Ir), (if x.addr = inst.addr then C
          else C.blockInsertBefore pred term x).constants = C.constants := by
        intro C x
        split_ifs
        · rfl
        · exact constants_blockInsertBefore term
      have hfold := foldl_constants hcopy (st.1.mem bb).insts st.1
      simp [hfold]

theorem mergeExitIntoPred_constants (bb : BlockId) (st : MergeState) (pred : BlockId) :
    (mergeExitIntoPred bb st pred).1.constants = st.1.constants := by
  unfold mergeExitIntoPred
  dsimp only
  cases blockGetJump st.1 pred with
  | none => rfl
  | some term =>
    have hcopy : ∀ (C : MozCompiler) (x : Ir),
        (C.blockInsertBefore pred term x).constants = C.constants := fun _ _ => rfl
    have hfold := foldl_constants hcopy (st.1.mem bb).insts st.1
    simp [hfold]

theorem foldl_merge_constants {f : MergeState → BlockId → MergeState}
    (hf : ∀ st pred, (f st pred).1.constants = st.1.constants) (preds : List BlockId)
    (st : MergeState) : (preds.foldl f st).1.constants = st.1.constants := by
  induction preds generalizing st with
  | nil => rfl
  | cons pred preds ih => exact (ih (f st pred)).trans (hf st pred)

theorem simplifyCfg_constants (C : MozCompiler) (W : WorkList) (bb : BlockId) :
    (simplifyCfg C W bb).1.constants = C.constants := by
  obtain heq | ⟨-, -, ⟨succ, inst, -, -, heq⟩ | ⟨inst, -, -, heq⟩⟩ := simplifyCfg_cases C W bb
  · rw [heq]
  · have hmerge := foldl_merge_constants (mergeJumpIntoPred_constants bb succ inst)
      (C.mem bb).preds.reverse (C, W, 0)
    rw [heq, jumpResult]
    split_ifs <;> simpa using hmerge
  · have hmerge := foldl_merge_constants (mergeExitIntoPred_constants bb)
      (C.mem bb).preds.reverse (C, W, 0)
    rw [heq, exitResult]
    split_ifs
    · exact hmerge
    · exact hmerge

theorem removeIndirectJumpHandler_constants (C : MozCompiler) (W : WorkList) (bb : BlockId) :
    (removeIndirectJumpHandler C W bb).1.constants = C.constants := by
  obtain heq | ⟨succ, inst, -, -, -, -, -, heq⟩ := removeIndirectJumpHandler_cases C W bb
  · rw [heq]
  · simp [heq]

theorem OptRun.runtime {P : OptState → OptAction → Prop} {s : OptState} (h : OptRun P C s)
    (input : List UInt8) : s.C.runtime input = C.runtime input := by
  refine runtime_eq_of_constants ?_ input
  induction h with
  | start => rfl
  | @step s t a _ _ hstep ih =>
    cases a with
    | next =>
      unfold OptState.step at hstep
      dsimp only at hstep
      split_ifs at hstep
      cases hpass : s.pass <;>
        · rw [hpass] at hstep
          cases hstep
          exact ih
    | take i =>
      obtain ⟨bb, -, rfl⟩ := OptState.step_take hstep
      cases hpass : s.pass with
      | simplify => exact (simplifyCfg_constants s.C (s.W.eraseIdx i) bb).trans ih
      | handlers => exact (removeIndirectJumpHandler_constants s.C (s.W.eraseIdx i) bb).trans ih

end Constants

/-- A step that removes the entry block of a production leaves it without an answer. -/
theorem OptSound.silent {s t : OptState} {a : OptAction} (h : OptSound s) (hspare : ¬ Spares s a)
    (hstep : s.step a = some t) : ∃ d decl, t.C.decls[d]? = some decl ∧ 0 < decl.refc ∧
      ∀ R sp p ast r, ¬ Answers t.C R d sp p ast r := by
  cases a with
  | next => exact absurd trivial hspare
  | take i =>
    obtain ⟨bb, hget, rfl⟩ := OptState.step_take hstep
    unfold Spares at hspare
    push Not at hspare
    obtain ⟨hpass, bb', hget', ⟨succ, inst, hsuccs, hpreds, hinsts, hop, hlength⟩, hentry⟩ := hspare
    obtain rfl := Option.some.inj (hget.symm.trans hget')
    have hends : EndsInJump (s.C.mem bb).insts inst := by
      rw [hinsts]
      exact ⟨rfl, hop⟩
    have hbb := (h.intact.targets bb succ ((h.intact.succs bb succ).1 (by simp [hsuccs]))).1
    rw [ne_eq, Bool.not_eq_false] at hentry
    obtain ⟨decl, hdecl, hlive, hinst⟩ := h.intact.live_of_entry bb hbb hentry
    obtain ⟨d, hd⟩ := List.mem_iff_getElem?.1 hdecl
    have hfunc : s.pass.func s.C (s.W.eraseIdx i) bb =
        (redirectFail (dropBlock (removeFromParent (s.C.blockUnlink bb succ) inst) bb) bb succ,
          workListPush (s.W.eraseIdx i) succ, true) := by
      rw [hpass]
      exact removeIndirectJumpHandler_eq hsuccs hpreds hinsts hop hlength
    rw [hfunc]
    refine ⟨d, decl, hd, hlive, ?_⟩
    rintro R sp p ast r ⟨s₀, henter, s', hrun, hout⟩
    have hparent := h.intact.wired.parent bb inst hends
    have hnil : (redirectFail (dropBlock (removeFromParent (s.C.blockUnlink bb succ) inst) bb) bb
        succ).insts bb = [] :=
      ((h.intact.removed hsuccs hparent).insts bb).trans (if_pos rfl)
    have hget : (redirectFail (dropBlock (removeFromParent (s.C.blockUnlink bb succ) inst) bb) bb
        succ).decls[d]? = some decl := hd
    rw [enter, hget, Option.bind_eq_bind, Option.bind_some, hinst, Option.bind_eq_bind,
      Option.bind_some, hnil] at henter
    obtain rfl := Option.some.inj henter
    obtain rfl | ⟨s₁, hstep, -⟩ := hrun.cases_head
    · cases r with
      | none =>
        obtain ⟨x, l, hcode, -⟩ := hout
        cases hcode
      | some r => cases hout.1
    · cases hstep

theorem foldl_mozDeclToIr_called {C : MozCompiler} {E : List BlockId} (list pre : List Decl)
    (hproper : ∀ d ∈ list, 0 < d.refc → d.body.proper = true) (hC : Shaped C E 0)
    (hdecls : C.decls = pre ++ list) (hcalled : Called C.decls) :
    Called ((list.zipIdx pre.length).foldl
      (fun C (decl, d) => if 0 < decl.refc then mozDeclToIr C d decl else C) C).decls := by
  induction list generalizing pre C E with
  | nil => exact hcalled
  | cons decl list ih =>
    have hrest : ∀ d ∈ list, 0 < d.refc → d.body.proper = true := fun d hd =>
      hproper d (List.mem_cons_of_mem _ hd)
    rw [List.zipIdx_cons, List.foldl_cons]
    dsimp only
    split_ifs with hlive
    · obtain ⟨hshaped, hset⟩ := mozDeclToIr_shaped hC pre.length
        (hproper decl List.mem_cons_self hlive)
      have hcalled' : Called (mozDeclToIr C pre.length decl).decls := by
        rw [hset]
        intro d hd e he
        obtain hd | rfl := List.mem_or_eq_of_mem_set hd
        · exact hcalled d hd e he
        · exact hlive
      have hnext := ih (pre ++ [{ decl with inst := some C.maxBlockId }]) hrest hshaped
        (by rw [hset, hdecls]; simp) hcalled'
      rwa [List.length_append] at hnext
    · have hnext := ih (pre ++ [decl]) hrest hC (by rw [hdecls]; simp) hcalled
      rwa [List.length_append] at hnext

/-- The blocks of a grammar that has just been lowered. -/
theorem mozAstToIr_intact {C : MozCompiler} (hblocks : C.blocks = []) (hmem : ∀ b, C.mem b = {})
    (hfresh : ∀ d ∈ C.decls, d.inst = none)
    (hproper : ∀ d ∈ C.decls, 0 < d.refc → d.body.proper = true) :
    Intact (mozAstToIr C) ∧ Called (mozAstToIr C).decls := by
  obtain ⟨E, hshaped, hentered⟩ := mozAstToIr_shaped hmem hblocks hproper
  refine ⟨hshaped.intact hentered (mozAstToIr_wired (wired_start hmem)), ?_⟩
  refine foldl_mozDeclToIr_called C.decls [] hproper (shaped_start hmem hblocks) rfl
    fun d hd e he => ?_
  rw [hfresh d hd] at he
  cases he

/-- However the optimiser takes the blocks, the calls of the grammar keep their results as long as no
entry block is removed, and a step that removes one takes a production away. -/
theorem optimize_answers (C : MozCompiler) (hblocks : C.blocks = []) (hmem : ∀ b, C.mem b = {})
    (hfresh : ∀ d ∈ C.decls, d.inst = none)
    (hproper : ∀ d ∈ C.decls, 0 < d.refc → d.body.proper = true) (s : OptState)
    (hrun : OptRun Spares (mozAstToIr C) s) :
    SameAnswers (mozAstToIr C) s.C ∧
      ∀ a t, s.step a = some t → ¬ Spares s a → ∃ d decl, t.C.decls[d]? = some decl ∧
        0 < decl.refc ∧ ∀ R sp p ast r, ¬ Answers t.C R d sp p ast r := by
  obtain ⟨hintact, hcalled⟩ := mozAstToIr_intact hblocks hmem hfresh hproper
  exact ⟨(hrun.runs hintact hcalled).2.answers, fun a t hstep hspare =>
    (hrun.sound hintact).silent hspare hstep⟩

/-- The exit block of `File = 'a'` is merged into its entry block. -/
theorem optimize_answers_oneByte :
    ∃ t, OptState.step ⟨.simplify, mozAstToIr oneByte, addAllBlocks (mozAstToIr oneByte)⟩ (.take 1) =
      some t ∧ t.C.blocks = [0, 2] ∧ SameAnswers (mozAstToIr oneByte) t.C := by
  have hblocks : (OptState.step ⟨.simplify, mozAstToIr oneByte, addAllBlocks (mozAstToIr oneByte)⟩
      (.take 1)).map (fun t => t.C.blocks) = some [0, 2] := by
    decide +kernel
  obtain ⟨t, hstep, ht⟩ := Option.map_eq_some_iff.1 hblocks
  have hspare : Spares ⟨.simplify, mozAstToIr oneByte, addAllBlocks (mozAstToIr oneByte)⟩ (.take 1) :=
    fun hpass => by cases hpass
  exact ⟨t, hstep, ht, (optimize_answers oneByte rfl (fun _ => rfl) (by decide) (by decide) t
    (.step .start hspare hstep)).1⟩

theorem optimize_keeps_runs (C : MozCompiler) (hblocks : C.blocks = []) (hmem : ∀ b, C.mem b = {})
    (hfresh : ∀ d ∈ C.decls, d.inst = none)
    (hproper : ∀ d ∈ C.decls, 0 < d.refc → d.body.proper = true) (s : OptState)
    (hrun : OptRun Spares (mozAstToIr C) s) : SameRuns (mozAstToIr C) s.C := by
  obtain ⟨hintact, hcalled⟩ := mozAstToIr_intact hblocks hmem hfresh hproper
  exact (hrun.runs hintact hcalled).2

theorem optimize_keeps_runs_lookaheadLoop :
    ∃ s, OptState.sparing ⟨.simplify, mozAstToIr lookaheadLoop,
      addAllBlocks (mozAstToIr lookaheadLoop)⟩ lookaheadActions = some s ∧
    s.C.blocks = [0, 2, 4] ∧ SameRuns (mozAstToIr lookaheadLoop) s.C := by
  obtain ⟨s, hrun, hs, -, hblocks⟩ := lookaheadLoop_run
  exact ⟨s, hs, hblocks, optimize_keeps_runs lookaheadLoop rfl (fun _ => rfl) (by decide)
    (by decide) s hrun⟩

/-- Before it is optimised, a call of `File` comes to its `IAny` after six jumps. -/
theorem nestedLoop_any : ∃ es s', RunsFrom (mozAstToIr nestedLoop)
    ((mozAstToIr nestedLoop).runtime []) 0 0 0 [] {} es s' ∧ es ≠ [] := by
  obtain ⟨s, hs⟩ : ∃ s, enter (mozAstToIr nestedLoop) 0 0 0 {} = some s := ⟨_, rfl⟩
  obtain ⟨s₁, s₂, hrun, hstep, hevents⟩ : ∃ s₁ s₂, (fun o => o.bind (step (mozAstToIr nestedLoop)
      ((mozAstToIr nestedLoop).runtime [])))^[6] (some { s with cells := [] }) = some s₁ ∧
      step (mozAstToIr nestedLoop) ((mozAstToIr nestedLoop).runtime []) s₁ = some s₂ ∧
      State.events ((mozAstToIr nestedLoop).runtime []) s₁ ≠ [] := by
    cases hs
    exact ⟨_, _, rfl, rfl, List.cons_ne_nil _ _⟩
  obtain ⟨es, htrace⟩ := Simulation.exists_trace
    (State.events ((mozAstToIr nestedLoop).runtime [])) (Progress.reaches_iterate 6 hrun)
  exact ⟨_, s₂, ⟨s, hs, htrace.trans (.single hstep)⟩, fun hnil =>
    hevents (List.append_eq_nil_iff.1 hnil).2⟩

/-- Afterwards its calls perform nothing, since the entry block of `File` is gone. -/
theorem nestedLoop_runs : ∃ C, mozIrOptimize 40 (mozAstToIr nestedLoop) = some C ∧
    ¬ SameRuns (mozAstToIr nestedLoop) C := by
  obtain ⟨C, hC, hdecls, -, hnil⟩ := nestedLoop_optimized
  refine ⟨C, hC, fun hruns => ?_⟩
  obtain ⟨es, s', hrun, hne⟩ := nestedLoop_any
  obtain ⟨t', t, henter, htrace⟩ := (hruns.trace _ _ _ _ _ _ _).1 ⟨s', hrun⟩
  obtain ⟨decl, hdecl, henter⟩ := Option.bind_eq_some_iff.1 henter
  obtain ⟨entry, hentry, henter⟩ := Option.bind_eq_some_iff.1 henter
  have hmap : (C.decls.map fun d => (d.refc, d.inst))[0]? = some (decl.refc, decl.inst) := by
    rw [List.getElem?_map, hdecl, Option.map_some]
  rw [hdecls] at hmap
  obtain rfl : 0 = entry := by
    have hinst : some 0 = decl.inst := (Prod.mk.inj (Option.some.inj hmap)).2
    rw [hentry] at hinst
    exact Option.some.inj hinst
  have hcode : t.code = [] := by
    rw [← Option.some.inj henter]
    exact hnil
  cases htrace with
  | refl => exact hne rfl
  | head hstep _ =>
    rw [Option.mem_def, step, hcode] at hstep
    cases hstep

end Moz.Compiler
