import Moz.Compiler.GraphSteps

/-!
# The graph in every run of the optimiser

The passes of `moz_ir_optimize`, where a pass may take the blocks of its worklist in
any order. The graph of any grammar stays consistent as long as the second pass
removes no entry block. It takes up the successor of each handler that it removes,
handler or not, and when that is the entry block of a production, which then nothing
jumps to, and the block is a single jump to a block of its own, it is removed.
-/

namespace Moz.Compiler

/-- What `remove_indirect_jump_handler` asks of the block. -/
def Removable (C : MozCompiler) (bb : BlockId) : Prop :=
  ∃ succ inst, (C.mem bb).succs = [succ] ∧ (C.mem bb).preds = [] ∧ (C.mem bb).insts = [inst] ∧
    inst.op.IsJump ∧ (C.mem succ).preds.length = 1

instance (op : Op) : Decidable op.IsJump :=
  decidable_of_iff (op matches .iJump _) (by cases op <;> simp [Op.IsJump])

instance (C : MozCompiler) (bb : BlockId) : Decidable (Removable C bb) :=
  decidable_of_iff (∃ succ ∈ (C.mem bb).succs, ∃ inst ∈ (C.mem bb).insts,
      (C.mem bb).succs = [succ] ∧ (C.mem bb).preds = [] ∧ (C.mem bb).insts = [inst] ∧
        inst.op.IsJump ∧ (C.mem succ).preds.length = 1) <| by
    constructor
    · rintro ⟨succ, -, inst, -, h⟩
      exact ⟨succ, inst, h⟩
    · rintro ⟨succ, inst, hsuccs, hpreds, hinsts, h⟩
      exact ⟨succ, by simp [hsuccs], inst, by simp [hinsts], hsuccs, hpreds, hinsts, h⟩

section Handlers

variable {C : MozCompiler} {W : WorkList} {bb succ b : BlockId} {inst : Ir}

theorem removeIndirectJumpHandler_eq (hsuccs : (C.mem bb).succs = [succ])
    (hpreds : (C.mem bb).preds = []) (hinsts : (C.mem bb).insts = [inst]) (hop : inst.op.IsJump)
    (hlength : (C.mem succ).preds.length = 1) : removeIndirectJumpHandler C W bb =
      (redirectFail (dropBlock (removeFromParent (C.blockUnlink bb succ) inst) bb) bb succ,
        workListPush W succ, true) := by
  obtain ⟨target, htarget⟩ := hop
  obtain ⟨addr, id, parent, fail, op⟩ := inst
  dsimp only at htarget
  subst htarget
  unfold removeIndirectJumpHandler
  dsimp only
  rw [hsuccs, hpreds, hinsts]
  dsimp only
  rw [if_neg (not_not.2 hlength)]

theorem removed_fields (C : MozCompiler) (succ : BlockId) (hparent : inst.parent = bb)
    (b : BlockId) :
    ((redirectFail (dropBlock (removeFromParent (C.blockUnlink bb succ) inst) bb) bb succ).mem
        b).type = (C.mem b).type ∧
      ((redirectFail (dropBlock (removeFromParent (C.blockUnlink bb succ) inst) bb) bb succ).mem
        b).preds = ((C.blockUnlink bb succ).mem b).preds := by
  rw [(redirectFail_fields _ bb succ b).2.1, preds_redirectFail, mem_removed C succ hparent,
    mem_blockUnlink]
  exact ⟨rfl, rfl⟩

/-- When every block of the list is settled, a step of the second pass that spares the entry blocks
keeps the graph intact and the blocks settled. -/
theorem Intact.handled (h : Intact C) (W : WorkList) (hsettled : ∀ b ∈ C.blocks, Settled C b)
    (hspare : Removable C bb → (C.mem bb).type.entry = false) :
    Intact (removeIndirectJumpHandler C W bb).1 ∧
      ∀ b ∈ (removeIndirectJumpHandler C W bb).1.blocks,
        Settled (removeIndirectJumpHandler C W bb).1 b := by
  obtain heq | ⟨succ, inst, hsuccs, hpreds, hinsts, hop, hlength, heq⟩ :=
    removeIndirectJumpHandler_cases C W bb
  · rw [heq]
    exact ⟨h, hsettled⟩
  · rw [heq]
    have hends : EndsInJump (C.mem bb).insts inst := by
      rw [hinsts]
      exact ⟨rfl, hop⟩
    have hparent := h.wired.parent bb inst hends
    have hmem : bb ∈ (C.mem succ).preds := h.wired.pred_of_succ bb succ (by simp [hsuccs])
    have hin := h.targets bb succ ((h.succs bb succ).1 (by simp [hsuccs]))
    have hspecial : (C.mem succ).type.isSpecial = true := by
      refine (hsettled succ hin.2).resolve_right fun hself => ?_
      obtain ⟨p, hp⟩ := List.length_eq_one_iff.1 hlength
      rw [hp, List.mem_singleton] at hmem hself
      rw [hself, ← hmem, hpreds] at hp
      cases hp
    have hentry := hspare ⟨succ, inst, hsuccs, hpreds, hinsts, hop, hlength⟩
    refine ⟨h.remove hpreds hsuccs hparent hentry fun _ _ _ _ _ => hspecial, fun b hb => ?_⟩
    have hb' : b ∈ C.blocks.erase bb := hb
    obtain ⟨hne, hb'⟩ := h.nodup.mem_erase_iff.1 hb'
    obtain ⟨htype, hpreds'⟩ := removed_fields C succ hparent b
    rcases hsettled b hb' with hkept | hself
    · exact .inl (htype ▸ hkept)
    · right
      rw [hpreds']
      exact (mem_preds_blockUnlink (h.wired.nodup_preds b)).2 ⟨hself, fun heq => hne heq.1⟩

end Handlers

inductive Pass
  | simplify
  | handlers
  deriving DecidableEq, Repr

def Pass.func : Pass → MozCompiler → WorkList → BlockId → MozCompiler × WorkList × Bool
  | simplify => simplifyCfg
  | handlers => removeIndirectJumpHandler

/-- `moz_ir_optimize` between two steps: the pass, the graph and the worklist. -/
structure OptState where
  pass : Pass
  C : MozCompiler
  W : WorkList

/-- The block in some place of the worklist is taken up, or the next pass begins. -/
inductive OptAction
  | take (i : ℕ)
  | next

def OptState.step (s : OptState) : OptAction → Option OptState
  | .take i =>
    match s.W[i]? with
    | none => none
    | some bb =>
      let r := s.pass.func s.C (s.W.eraseIdx i) bb
      some { s with C := r.1, W := r.2.1 }
  | .next =>
    if s.W = [] then
      match s.pass with
      | .simplify => some { s with pass := .handlers, W := addHandlerBlock s.C }
      | .handlers => some { s with pass := .simplify, W := addAllBlocks s.C }
    else none

/-- The states of the runs all of whose steps meet `P`. -/
inductive OptRun (P : OptState → OptAction → Prop) (C : MozCompiler) : OptState → Prop
  | start : OptRun P C ⟨.simplify, C, addAllBlocks C⟩
  | step {s t : OptState} {a : OptAction} : OptRun P C s → P s a → s.step a = some t → OptRun P C t

def Spares (s : OptState) : OptAction → Prop
  | .take i => s.pass = .handlers → ∀ bb, s.W[i]? = some bb → Removable s.C bb →
    (s.C.mem bb).type.entry = false
  | .next => True

instance (s : OptState) (a : OptAction) : Decidable (Spares s a) :=
  match a with
  | .take i =>
    decidable_of_iff (s.pass = .handlers → ∀ bb ∈ s.W[i]?, Removable s.C bb →
      (s.C.mem bb).type.entry = false) (by simp [Spares, Option.mem_def])
  | .next => .isTrue trivial

/-- The actions one after the other, as long as they remove no entry block. -/
def OptState.sparing (s : OptState) : List OptAction → Option OptState
  | [] => some s
  | a :: l => if Spares s a then (s.step a).bind (·.sparing l) else none

def Standing (C : MozCompiler) (b : BlockId) : Prop := b ∈ C.blocks ∧ (C.mem b).insts ≠ []

/-- Each block has one terminator, in the last place; the edges are the jumps; and jumps, fail edges
and productions lead to blocks that stand. -/
structure Consistent (C : MozCompiler) : Prop where
  terminator : ∀ b ∈ C.blocks, (C.mem b).insts ≠ [] → Closed (C.mem b).insts
  edges : ∀ b s, (s ∈ (C.mem b).succs ↔ b ∈ (C.mem s).preds) ∧
    (b ∈ (C.mem s).preds ↔ JumpsTo (C.mem b).insts s)
  jumps : ∀ b ∈ C.blocks, ∀ x ∈ (C.mem b).insts, ∀ s, x.op = .iJump s → Standing C s
  fails : ∀ b ∈ C.blocks, ∀ x ∈ (C.mem b).insts, Standing C x.fail
  entries : ∀ d ∈ C.decls, 0 < d.refc → ∃ e, d.inst = some e ∧ Standing C e

section Runs

variable {C C' : MozCompiler} {W : WorkList} {s t : OptState} {a : OptAction} {b bb : BlockId}
  {P : OptState → OptAction → Prop} {m m' : Bool} {fuel : ℕ}

theorem Intact.standing (h : Intact C) (hb : b ∈ C.blocks) : Standing C b := by
  obtain ⟨body, t, hinsts, -⟩ := h.closed b hb
  exact ⟨hb, by simp [hinsts]⟩

theorem Intact.consistent (h : Intact C) : Consistent C where
  terminator b hb _ := h.closed b hb
  edges b s := by
    have hboth : s ∈ (C.mem b).succs ↔ b ∈ (C.mem s).preds :=
      ⟨h.wired.pred_of_succ b s, h.wired.succ_of_pred b s⟩
    exact ⟨hboth, hboth.symm.trans (h.succs b s)⟩
  jumps b hb x hx s hop := by
    obtain ⟨body, t, hinsts, -, hbody⟩ := h.closed b hb
    rw [hinsts] at hx
    rcases List.mem_append.1 hx with hx | hx
    · have hterm := hbody x hx
      rw [hop] at hterm
      cases hterm
    · refine h.standing (h.targets b s ⟨t, by rw [hinsts, List.getLast?_concat], ?_⟩).2
      rwa [← List.mem_singleton.1 hx]
  fails b hb x hx := h.standing (h.fails b hb x hx).1
  entries d hd hlive := by
    obtain ⟨e, hinst, he, -⟩ := h.entry_of_live d hd hlive
    exact ⟨e, hinst, h.standing he⟩

/-- The invariant of a run. In the first pass a block that is not settled waits in the worklist. -/
structure OptSound (s : OptState) : Prop where
  intact : Intact s.C
  settled : ∀ b ∈ s.C.blocks, Settled s.C b ∨ s.pass = .simplify ∧ b ∈ s.W

theorem mem_foldl_workListPush (l : List BlockId) (W : WorkList) :
    b ∈ l.foldl workListPush W ↔ b ∈ W ∨ b ∈ l := by
  induction l generalizing W with
  | nil => simp
  | cons x l ih =>
    rw [List.foldl_cons, ih, mem_workListPush, List.mem_cons, or_assoc]

theorem mem_addAllBlocks : b ∈ addAllBlocks C ↔ b ∈ C.blocks := by
  unfold addAllBlocks
  rw [mem_foldl_workListPush]
  simp

theorem OptSound.start (h : Intact C) : OptSound ⟨.simplify, C, addAllBlocks C⟩ :=
  ⟨h, fun _ hb => .inr ⟨rfl, mem_addAllBlocks.2 hb⟩⟩

theorem OptRun.sparing {l : List OptAction} (h : OptRun Spares C s) (hs : s.sparing l = some t) :
    OptRun Spares C t := by
  induction l generalizing s with
  | nil =>
    cases hs
    exact h
  | cons a l ih =>
    unfold OptState.sparing at hs
    split_ifs at hs with hspare
    obtain ⟨u, hstep, hs⟩ := Option.bind_eq_some_iff.1 hs
    exact ih (h.step hspare hstep) hs

theorem OptState.step_take {i : ℕ} (h : s.step (.take i) = some t) : ∃ bb, s.W[i]? = some bb ∧
    t = { s with C := (s.pass.func s.C (s.W.eraseIdx i) bb).1
                 W := (s.pass.func s.C (s.W.eraseIdx i) bb).2.1 } := by
  unfold OptState.step at h
  dsimp only at h
  cases hget : s.W[i]? with
  | none =>
    rw [hget] at h
    cases h
  | some bb =>
    rw [hget] at h
    exact ⟨bb, rfl, (Option.some.inj h).symm⟩

theorem OptSound.step (h : OptSound s) (hspare : Spares s a) (hstep : s.step a = some t) : OptSound t := by
  cases a with
  | next =>
    unfold OptState.step at hstep
    dsimp only at hstep
    split_ifs at hstep with hW
    have hall : ∀ b ∈ s.C.blocks, Settled s.C b := by
      intro b hb
      refine (h.settled b hb).resolve_right fun ⟨_, hin⟩ => ?_
      rw [hW] at hin
      cases hin
    cases hpass : s.pass with
    | simplify =>
      rw [hpass] at hstep
      cases hstep
      exact ⟨h.intact, fun b hb => .inl (hall b hb)⟩
    | handlers =>
      rw [hpass] at hstep
      cases hstep
      exact ⟨h.intact, fun b hb => .inl (hall b hb)⟩
  | take i =>
    obtain ⟨bb, hget, rfl⟩ := OptState.step_take hstep
    cases hpass : s.pass with
    | simplify =>
      have hsimplified := h.intact.simplified (s.W.eraseIdx i) bb
      refine ⟨hsimplified.intact, fun b hb => ?_⟩
      by_cases heq : b = bb
      · exact .inl (heq ▸ hsimplified.done (heq ▸ hb))
      · refine (h.settled b (hsimplified.blocks b hb)).imp (hsimplified.settled b hb) ?_
        rintro ⟨-, hW⟩
        obtain ⟨j, hj⟩ := List.getElem?_of_mem hW
        have hne : j ≠ i := by
          rintro rfl
          exact heq (Option.some.inj (hj.symm.trans hget))
        exact ⟨rfl, hsimplified.work b (List.mem_eraseIdx_iff_getElem?.2 ⟨j, hne, hj⟩)⟩
    | handlers =>
      have hall : ∀ b ∈ s.C.blocks, Settled s.C b := fun b hb =>
        (h.settled b hb).resolve_right fun ⟨hsimplify, _⟩ => by
          rw [hpass] at hsimplify
          cases hsimplify
      obtain ⟨hintact, hsettled⟩ := h.intact.handled (s.W.eraseIdx i) hall (hspare hpass bb hget)
      exact ⟨hintact, fun b hb => .inl (hsettled b hb)⟩

/-- The invariant of all runs that spare the entry blocks. -/
theorem OptRun.sound (hC : Intact C) (h : OptRun Spares C s) : OptSound s := by
  induction h with
  | start => exact .start hC
  | step _ hspare hstep ih => exact ih.step hspare hstep

/-- A step that removes an entry block leaves a production without one. -/
theorem OptSound.inconsistent (h : OptSound s) (hspare : ¬ Spares s a) (hstep : s.step a = some t) :
    ¬ Consistent t.C := by
  cases a with
  | next => exact absurd trivial hspare
  | take i =>
    obtain ⟨bb, hget, rfl⟩ := OptState.step_take hstep
    unfold Spares at hspare
    push Not at hspare
    obtain ⟨hpass, bb', hget', ⟨succ, inst, hsuccs, hpreds, hinsts, hop, hlength⟩, hentry⟩ := hspare
    obtain rfl := Option.some.inj (hget.symm.trans hget')
    have hbb := (h.intact.targets bb succ ((h.intact.succs bb succ).1 (by simp [hsuccs]))).1
    rw [ne_eq, Bool.not_eq_false] at hentry
    obtain ⟨d, hd, hlive, hinst⟩ := h.intact.live_of_entry bb hbb hentry
    have hfunc : s.pass.func s.C (s.W.eraseIdx i) bb =
        (redirectFail (dropBlock (removeFromParent (s.C.blockUnlink bb succ) inst) bb) bb succ,
          workListPush (s.W.eraseIdx i) succ, true) := by
      rw [hpass]
      exact removeIndirectJumpHandler_eq hsuccs hpreds hinsts hop hlength
    rw [hfunc]
    intro hconsistent
    obtain ⟨e, he, hstand⟩ := hconsistent.entries d hd hlive
    obtain rfl : bb = e := Option.some.inj (hinst.symm.trans he)
    have hgone : bb ∈ s.C.blocks.erase bb := hstand.1
    exact (h.intact.nodup.mem_erase_iff.1 hgone).1 rfl

theorem workListApply_run {C₀ : MozCompiler} (pass : Pass)
    (hrun : workListApply pass.func fuel C W m = some (C', m'))
    (h : OptRun (fun _ _ => True) C₀ ⟨pass, C, W⟩) :
    OptRun (fun _ _ => True) C₀ ⟨pass, C', []⟩ := by
  induction fuel generalizing C W m with
  | zero => cases hrun
  | succ fuel ih =>
    unfold workListApply at hrun
    cases hlast : W.getLast? with
    | none =>
      rw [hlast] at hrun
      rw [List.getLast?_eq_none_iff.1 hlast] at h
      cases hrun
      exact h
    | some bb =>
      rw [hlast] at hrun
      refine ih hrun (h.step (a := .take (W.length - 1)) trivial ?_)
      unfold OptState.step
      dsimp only
      rw [← List.getLast?_eq_getElem?, hlast, List.eraseIdx_length_sub_one]
      rfl

theorem mozIrOptimize_run {C₀ : MozCompiler} (hrun : mozIrOptimize fuel C = some C')
    (h : OptRun (fun _ _ => True) C₀ ⟨.simplify, C, addAllBlocks C⟩) :
    OptRun (fun _ _ => True) C₀ ⟨.handlers, C', []⟩ := by
  induction fuel generalizing C with
  | zero => cases hrun
  | succ fuel ih =>
    rw [mozIrOptimize, Option.bind_eq_bind, Option.bind_eq_some_iff] at hrun
    obtain ⟨⟨C₁, m₁⟩, hsimplify, hrun⟩ := hrun
    dsimp only at hrun
    rw [Option.bind_eq_some_iff] at hrun
    obtain ⟨⟨C₂, m₂⟩, hremove, hrun⟩ := hrun
    have h₁ := workListApply_run .simplify hsimplify h
    have h₂ := h₁.step (a := .next) (t := ⟨.handlers, C₁, addHandlerBlock C₁⟩) trivial rfl
    have h₃ := workListApply_run .handlers hremove h₂
    dsimp only at hrun
    split_ifs at hrun with hm
    · refine ih hrun (h₃.step (a := .next) trivial rfl)
    · cases hrun
      exact h₃

end Runs

/-- In every run that removes no entry block the graph is consistent in every state, and a step of it
that does remove one breaks that. -/
theorem graph_consistent (C : MozCompiler)
    (hproper : ∀ d ∈ C.decls, 0 < d.refc → d.body.proper = true) (s : OptState)
    (hrun : OptRun Spares (mozAstToIr { C with blocks := [], mem := fun _ => {} }) s) :
    Consistent s.C ∧ ∀ a t, s.step a = some t → (Consistent t.C ↔ Spares s a) := by
  obtain ⟨E, hshaped, hentered⟩ :=
    mozAstToIr_shaped (C := { C with blocks := [], mem := fun _ => {} }) (fun _ => rfl) rfl hproper
  have hwired : Wired (mozAstToIr { C with blocks := [], mem := fun _ => {} }) :=
    mozAstToIr_wired (wired_start fun _ => rfl)
  have hsound := hrun.sound (hshaped.intact hentered hwired)
  refine ⟨hsound.intact.consistent, fun a t hstep => ⟨fun hconsistent => ?_, fun hspare => ?_⟩⟩
  · by_contra hspare
    exact hsound.inconsistent hspare hstep hconsistent
  · exact (hsound.step hspare hstep).intact.consistent

/-- `File = 'a'`. -/
def oneByte : MozCompiler where
  decls := [{ body := .byte 97 }]

/-- `File = (&'a' .)*`. -/
def lookaheadLoop : MozCompiler where
  decls := [{ body := .repetition [.sequence [.and (.byte 97), .any]] }]

/-- The first pass takes every block up and leaves four of them, the second one removes a handler and
takes up its successor, and the first one begins again. -/
def lookaheadActions : List OptAction :=
  [.take 10, .take 9, .take 8, .take 7, .take 6, .take 5, .take 4, .take 3, .take 2, .take 1,
    .take 1, .take 0, .next, .take 2, .take 1, .take 0, .next]

theorem lookaheadLoop_run : ∃ s, OptRun Spares (mozAstToIr lookaheadLoop) s ∧
    OptState.sparing ⟨.simplify, mozAstToIr lookaheadLoop,
      addAllBlocks (mozAstToIr lookaheadLoop)⟩ lookaheadActions = some s ∧
    s.pass = .simplify ∧ s.C.blocks = [0, 2, 4] := by
  have hfacts : (OptState.sparing ⟨.simplify, mozAstToIr lookaheadLoop,
      addAllBlocks (mozAstToIr lookaheadLoop)⟩ lookaheadActions).map
        (fun s => (s.pass, s.C.blocks)) = some (.simplify, [0, 2, 4]) := by
    decide +kernel
  obtain ⟨s, hs, hpair⟩ := Option.map_eq_some_iff.1 hfacts
  exact ⟨s, OptRun.start.sparing hs, hs, Prod.mk.inj hpair⟩

theorem graph_consistent_lookaheadLoop : ∃ s, OptState.sparing ⟨.simplify, mozAstToIr lookaheadLoop,
      addAllBlocks (mozAstToIr lookaheadLoop)⟩ lookaheadActions = some s ∧
    s.pass = .simplify ∧ s.C.blocks = [0, 2, 4] ∧ Consistent s.C := by
  obtain ⟨s, hrun, hs, hpass, hblocks⟩ := lookaheadLoop_run
  exact ⟨s, hs, hpass, hblocks, (graph_consistent lookaheadLoop (by decide) s hrun).1⟩

/-- `File = (''? (. 'a')*)*`. -/
def nestedLoop : MozCompiler where
  decls := [{ body := .repetition [.sequence [.option .empty, .repetition [.sequence [.any,
    .byte 97]]]] }]

/-- The entry block of `File` is removed. -/
theorem nestedLoop_optimized : ∃ C, mozIrOptimize 40 (mozAstToIr nestedLoop) = some C ∧
    C.decls.map (fun d => (d.refc, d.inst)) = [(1, some 0)] ∧ C.blocks = [2, 4, 7, 8] ∧
      (C.mem 0).insts = [] := by
  have hfacts : (mozIrOptimize 40 (mozAstToIr nestedLoop)).map (fun C =>
      (C.decls.map (fun d => (d.refc, d.inst)), C.blocks, (C.mem 0).insts)) =
      some ([(1, some 0)], [2, 4, 7, 8], []) := by
    decide +kernel
  obtain ⟨C, hC, hC'⟩ := Option.map_eq_some_iff.1 hfacts
  obtain ⟨hdecls, hC'⟩ := Prod.mk.inj hC'
  exact ⟨C, hC, hdecls, Prod.mk.inj hC'⟩

theorem nestedLoop_inconsistent :
    ∃ C, mozIrOptimize 40 (mozAstToIr nestedLoop) = some C ∧ ¬ Consistent C := by
  obtain ⟨C, hC, hdecls, hblocks, -⟩ := nestedLoop_optimized
  refine ⟨C, hC, fun hconsistent => ?_⟩
  obtain ⟨d, hd, hpair⟩ := List.mem_map.1 (hdecls ▸ List.mem_cons_self)
  obtain ⟨hrefc, hinst⟩ := Prod.mk.inj hpair
  obtain ⟨e, he, hstand⟩ := hconsistent.entries d hd (hrefc ▸ Nat.zero_lt_one)
  obtain rfl : 0 = e := Option.some.inj (hinst.symm.trans he)
  have hin := hstand.1
  rw [hblocks] at hin
  exact absurd hin (by decide)

end Moz.Compiler
