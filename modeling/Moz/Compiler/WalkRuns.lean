import Moz.Compiler.Rounds
import Moz.Compiler.Walk

/-!
# Walks are the runs of the blocks

`Walk` is defined by recursion on the grammar, the machine runs lists of
instructions. A walk of a form is a run of its code (`Walk.runs`), and whatever a
run that returns does between the code of a form and the end of that code is a
walk of the form (`exists_walk`). So the calls of a production that return are its
walks, no more and no less.
-/

namespace Moz.Compiler

open StateTransition Vm2

namespace Walked

def matched : Walked → Bool
  | ok _ _ _ _ => true
  | fail _ _ _ => false

/-- Where the machine goes on: `l'` is the code after a match, `fail` the code of the fail block. -/
def code (l' fail : List Ir) : Walked → List Ir
  | ok _ _ _ _ => l'
  | Walked.fail _ _ _ => fail

section After

variable (w : Walked) (cells : List ℕ) (logs kept : List AstLog)

@[simp] theorem stop_after : (w.after cells logs kept).stop = w.stop := by cases w <;> rfl

@[simp] theorem cells_after : (w.after cells logs kept).cells = w.cells ++ cells := by
  cases w <;> rfl

@[simp] theorem logs_after : (w.after cells logs kept).logs = logs ++ w.logs := by
  cases w <;> rfl

@[simp] theorem code_after (l' fail : List Ir) :
    (w.after cells logs kept).code l' fail = w.code l' fail := by
  cases w <;> rfl

end After

end Walked

def State.walked (s : State) (w : Walked) (l' fail : List Ir) : State :=
  { s with
    code := w.code l' fail
    current := w.stop
    sp := s.sp + w.cells.length
    cells := w.cells ++ s.cells
    ast := { s.ast with logs := s.ast.logs ++ w.logs } }

theorem State.walked_ok_nil (s : State) (q : ℕ) (kept : List AstLog) (l' fail : List Ir) :
    s.walked (.ok q [] [] kept) l' fail = { s with code := l', current := q } := by
  simp [State.walked, Walked.code, Walked.stop, Walked.cells, Walked.logs]

theorem State.walked_fail_nil (s : State) (q : ℕ) (l' fail : List Ir) :
    s.walked (.fail q [] []) l' fail = { s with code := fail, current := q } := by
  simp [State.walked, Walked.code, Walked.stop, Walked.cells, Walked.logs]

theorem State.walked_walked (s : State) (w w' : Walked) (l l' fail fail' : List Ir)
    (kept : List AstLog) : (s.walked w l fail).walked w' l' fail' =
      s.walked (w'.after w.cells w.logs kept) l' fail' := by
  simp [State.walked, add_assoc, add_comm]

section Steps

variable {F : MozCompiler} {R : Runtime} {s : State} {l l' : List Ir} {op : Op}
  {fail bb : BlockId} {p q : ℕ}

theorem Begins.step (F : MozCompiler) (R : Runtime) (hl : Begins op fail l l') (hcode : s.code = l) :
    ∃ ir, ir.op = op ∧ ir.fail = fail ∧ step F R s = exec F R { s with code := l' } ir := by
  obtain ⟨ir, hop, hfail, rfl⟩ := hl
  exact ⟨ir, hop, hfail, step_eq hcode⟩

theorem step_jump (hl : Jumps l bb) (hcode : s.code = l) :
    step F R s = some { s with code := F.insts bb } := by
  obtain ⟨_, l', hl⟩ := hl
  obtain ⟨ir, hop, -, hstep⟩ := hl.step F R hcode
  rw [hstep]
  simp [exec, hop]

theorem step_next (hl : Begins op fail l l') (hcode : s.code = l)
    (h : op.effect R s.current = .next q) :
    step F R s = some { s with code := l', current := q } := by
  obtain ⟨ir, rfl, -, hstep⟩ := hl.step F R hcode
  rw [hstep]
  exact exec_next h

theorem step_fail (hl : Begins op fail l l') (hcode : s.code = l)
    (h : op.effect R s.current = .fail) : step F R s = some { s with code := F.insts fail } := by
  obtain ⟨ir, rfl, rfl, hstep⟩ := hl.step F R hcode
  rw [hstep]
  exact exec_fail h

theorem step_log {log : AstLog} (hl : Begins op fail l l') (hcode : s.code = l)
    (h : op.entry R s.current = some log) :
    step F R s = some { s with code := l', ast := astLog s.ast log } := by
  obtain ⟨ir, rfl, -, hstep⟩ := hl.step F R hcode
  rw [hstep]
  exact exec_log h

theorem step_pstore (hl : Begins .iPStore fail l l') (hcode : s.code = l) :
    step F R s = if s.sp < stackSize then
      some { s with code := l', sp := s.sp + 1, cells := s.current :: s.cells } else none := by
  obtain ⟨ir, hop, -, hstep⟩ := hl.step F R hcode
  rw [hstep]
  simp only [exec, hop]
  split_ifs with h <;> simp [guard, h]

theorem step_pload {cell : ℕ} {cells : List ℕ} (hl : Begins .iPLoad fail l l') (hcode : s.code = l)
    (hcells : s.cells = cell :: cells) :
    step F R s = some { s with code := l', current := cell, sp := s.sp - 1, cells := cells } := by
  obtain ⟨ir, hop, -, hstep⟩ := hl.step F R hcode
  rw [hstep]
  simp [exec, hop, hcells]

def State.invoked (s : State) (code next : List Ir) (fail : BlockId) : State :=
  { s with
    code := code
    sp := s.sp + fpMax
    cells := []
    frames := ⟨s.current, next, fail, s.sp, s.cells⟩ :: s.frames }

theorem step_invoke {d : ℕ} (hl : Begins (.iInvoke d) fail l l') (hcode : s.code = l) :
    step F R s = (F.decls[d]?.bind Decl.inst).bind fun entry =>
      if s.sp + fpMax ≤ stackSize then some (s.invoked (F.insts entry) l' fail) else none := by
  obtain ⟨ir, hop, rfl, hstep⟩ := hl.step F R hcode
  rw [hstep]
  simp only [exec, hop]
  cases hdecl : F.decls[d]? with
  | none => rfl
  | some callee =>
    cases hinst : callee.inst with
    | none => simp [hinst]
    | some entry =>
      simp only [Option.bind_some, hinst, Option.bind_eq_bind, State.invoked]
      split_ifs with h <;> simp [guard, h]

theorem step_invoked {d : ℕ} {decl : Decl} {entry : BlockId} (hl : Begins (.iInvoke d) fail l l')
    (hcode : s.code = l) (hdecl : F.decls[d]? = some decl) (hinst : decl.inst = some entry)
    (hsp : s.sp + fpMax ≤ stackSize) :
    step F R s = some (s.invoked (F.insts entry) l' fail) := by
  rw [step_invoke hl hcode, hdecl, Option.bind_some, hinst, Option.bind_some, if_pos hsp]

theorem step_ret {frame : Frame} {frames : List Frame} (hl : Begins .iRet fail l l')
    (hcode : s.code = l) (hframes : s.frames = frame :: frames) :
    step F R s = some { s with
      code := frame.next, sp := frame.sp, cells := frame.cells, frames := frames } := by
  obtain ⟨ir, hop, -, hstep⟩ := hl.step F R hcode
  rw [hstep]
  simp [exec, hop, hframes]

theorem step_ifail {frame : Frame} {frames : List Frame} (hl : Begins .iFail fail l l')
    (hcode : s.code = l) (hframes : s.frames = frame :: frames) :
    step F R s = some { s with
      code := F.insts frame.fail, current := frame.pos, sp := frame.sp, cells := frame.cells,
      frames := frames } := by
  obtain ⟨ir, hop, -, hstep⟩ := hl.step F R hcode
  rw [hstep]
  simp [exec, hop, hframes]

end Steps

/-- The code `l` of a form, up to the code `l'` after a match. -/
inductive Laid (F : MozCompiler) : Form → List Ir → BlockId → List Ir → Prop
  | expr {hd : Bool} {e : Expr} {l l' : List Ir} {fail : BlockId} (h : Placed F hd e l fail l') :
      Laid F (.expr hd e) l fail l'
  | sequence {list : List Expr} {l l' : List Ir} {fail : BlockId}
      (h : PlacedSequence F list l fail l') : Laid F (.sequence list) l fail l'
  | choice {list : List Expr} {bb fail next : BlockId} (h : PlacedChoice F list bb fail next) :
      Laid F (.choice list) (F.insts bb) fail (F.insts next)
  | rounds {hd : Bool} {list : List Expr} {l stop : List Ir} {fail next : BlockId}
      (h : Loop F hd list l stop next) : Laid F (.rounds hd list) l fail (F.insts next)

/-- Every production that is referenced has its code, and no other one has an entry block. -/
def Lowered (F : MozCompiler) : Prop :=
  ∀ (d : ℕ) (decl : Decl), F.decls[d]? = some decl →
    if 0 < decl.refc then ∃ entry, decl.inst = some entry ∧ PlacedDecl F decl.body entry
    else decl.inst = none

section Laid

variable {F : MozCompiler} {hd : Bool} {e : Expr} {list : List Expr} {l l' : List Ir}
  {fail : BlockId}

theorem laid_expr : Laid F (.expr hd e) l fail l' ↔ Placed F hd e l fail l' := by
  constructor
  · intro h
    cases h with
    | expr h => exact h
  · exact .expr

theorem laid_sequence : Laid F (.sequence list) l fail l' ↔ PlacedSequence F list l fail l' := by
  constructor
  · intro h
    cases h with
    | sequence h => exact h
  · exact .sequence

theorem laid_choice : Laid F (.choice list) l fail l' ↔
    ∃ bb next, PlacedChoice F list bb fail next ∧ l = F.insts bb ∧ l' = F.insts next := by
  constructor
  · intro h
    cases h with
    | choice h => exact ⟨_, _, h, rfl, rfl⟩
  · rintro ⟨bb, next, h, rfl, rfl⟩
    exact .choice h

theorem laid_rounds : Laid F (.rounds hd list) l fail l' ↔
    ∃ stop next, Loop F hd list l stop next ∧ l' = F.insts next := by
  constructor
  · intro h
    cases h with
    | rounds h => exact ⟨_, _, h, rfl⟩
  · rintro ⟨stop, next, h, rfl⟩
    exact .rounds h

theorem Lowered.entry (hF : Lowered F) {d : ℕ} {decl : Decl} (hdecl : F.decls[d]? = some decl)
    (hrefc : 0 < decl.refc) : ∃ entry, decl.inst = some entry ∧ PlacedDecl F decl.body entry := by
  have hentry := hF d decl hdecl
  rwa [if_pos hrefc] at hentry

end Laid

section Runs

variable {F : MozCompiler} {R : Runtime} {resume : ℕ → ℕ → List AstLog → Prop} {form : Form}
  {sp p : ℕ} {w : Walked} {l l' : List Ir} {hd : Bool} {e : Expr} {op : Op}

/-- An expression with an instruction of its own has no other code. -/
theorem Placed.begins {fail : BlockId} (h : Placed F hd e l fail l') (hop : e.op F = some op) :
    Begins op fail l l' := by
  cases h with
  | one hop' hl =>
    rw [hop] at hop'
    cases hop'
    exact hl
  | not he =>
    rw [Expr.op, he] at hop
    cases hop
  | option he =>
    rw [Expr.op, he] at hop
    cases hop
  | repetition he =>
    rw [Expr.op, he] at hop
    cases hop
  | _ => cases hop

theorem reading_effect {q : ℕ} (h : (F.reading R).effect e p = .next q) :
    ∃ op, e.op F = some op ∧ op.effect R p = .next q := by
  unfold MozCompiler.reading at h
  cases hop : e.op F with
  | none => simp [hop] at h
  | some op => exact ⟨op, rfl, by simpa [hop] using h⟩

theorem reading_fail (h : (F.reading R).effect e p = .fail) :
    ∃ op, e.op F = some op ∧ op.effect R p = .fail := by
  unfold MozCompiler.reading at h
  cases hop : e.op F with
  | none => simp [hop] at h
  | some op => exact ⟨op, rfl, by simpa [hop] using h⟩

theorem reading_entry {log : AstLog} (h : (F.reading R).entry e p = some log) :
    ∃ op, e.op F = some op ∧ op.entry R p = some log := Option.bind_eq_some_iff.1 h

section Predicates

variable {s : State} {body : List Ir} {head a : BlockId}

def State.guarded (s : State) (body : List Ir) : State :=
  { s with code := body, sp := s.sp + 1, cells := s.current :: s.cells }

theorem reaches_store (hl : Jumps l head) (hstore : Begins .iPStore a (F.insts head) body)
    (hcode : s.code = l) (hsp : s.sp < stackSize) :
    Reaches (step F R) s (s.guarded body) := by
  refine .head (step_jump hl hcode) (.single ?_)
  rw [Option.mem_def, step_pstore hstore rfl]
  exact if_pos hsp

theorem State.walked_guarded (s : State) (w : Walked) (body stop f c l' : List Ir) :
    { (s.guarded body).walked w stop f with code := c } =
      s.walked (.fail w.stop (w.cells ++ [s.current]) w.logs) l' c := by
  have hcells : w.cells ++ s.current :: s.cells = w.cells ++ [s.current] ++ s.cells := by simp
  have hsp : s.sp + 1 + w.cells.length = s.sp + (w.cells ++ [s.current]).length := by
    simp only [List.length_append, List.length_singleton]
    omega
  have hleft : { (s.guarded body).walked w stop f with code := c } = { s with
      code := c
      current := w.stop
      sp := s.sp + 1 + w.cells.length
      cells := w.cells ++ s.current :: s.cells
      ast := { s.ast with logs := s.ast.logs ++ w.logs } } := rfl
  rw [hleft, hsp, hcells]
  rfl

theorem State.step_unguard (s : State) {t : ℕ} {cells : List ℕ} (body stop f f' : List Ir)
    (kept : List AstLog) (hload : Begins .iPLoad a l l') (htop : w.cells ++ [s.current] = t :: cells) :
    step F R { (s.guarded body).walked w stop f with code := l } =
      some (s.walked (.ok t cells w.logs kept) l' f') := by
  have hcells : w.cells ++ s.current :: s.cells = t :: (cells ++ s.cells) := by
    rw [← List.cons_append, ← htop, List.append_assoc, List.singleton_append]
  have hlength : w.cells.length + 1 = cells.length + 1 := by
    have hlength := congrArg List.length htop
    simpa using hlength
  have hsp : s.sp + 1 + w.cells.length - 1 = s.sp + cells.length := by omega
  rw [step_pload hload rfl hcells]
  exact congrArg (fun sp => some ({ s with
    code := l'
    current := t
    sp := sp
    cells := cells ++ s.cells
    ast := { s.ast with logs := s.ast.logs ++ w.logs } } : State)) hsp

end Predicates

def RunsAs (F : MozCompiler) (R : Runtime) (form : Form) (sp p : ℕ) (w : Walked) : Prop :=
  ∀ (l l' : List Ir) (fail : BlockId) (s : State), Laid F form l fail l' → s.code = l → s.sp = sp →
    s.current = p → Reaches (step F R) s (s.walked w l' (F.insts fail))

namespace RunsAs

variable {q d : ℕ} {cells : List ℕ} {logs kept : List AstLog} {decl : Decl} {x y : Expr}
  {list : List Expr}

theorem empty : RunsAs F R (.expr hd .empty) sp p (.ok p [] [] []) := by
  rintro l l' fail s hlaid rfl rfl rfl
  rw [State.walked_ok_nil]
  cases laid_expr.1 hlaid with
  | one hop => cases hop
  | empty => exact .refl

theorem one (h : (F.reading R).effect e p = .next q) :
    RunsAs F R (.expr hd e) sp p (.ok q [] [] []) := by
  rintro l l' fail s hlaid hcode rfl rfl
  obtain ⟨op, hop, heffect⟩ := reading_effect h
  rw [State.walked_ok_nil]
  exact .single (step_next ((laid_expr.1 hlaid).begins hop) hcode heffect)

theorem oneFail (h : (F.reading R).effect e p = .fail) :
    RunsAs F R (.expr hd e) sp p (.fail p [] []) := by
  rintro l l' fail s hlaid hcode rfl rfl
  obtain ⟨op, hop, heffect⟩ := reading_fail h
  rw [State.walked_fail_nil]
  exact .single (step_fail ((laid_expr.1 hlaid).begins hop) hcode heffect)

theorem log {log : AstLog} (h : (F.reading R).entry e p = some log) :
    RunsAs F R (.expr hd e) sp p (.ok p [] [log] [log]) := by
  rintro l l' fail s hlaid hcode rfl rfl
  obtain ⟨op, hop, hentry⟩ := reading_entry h
  exact .single (step_log ((laid_expr.1 hlaid).begins hop) hcode hentry)

theorem fail : RunsAs F R (.expr hd .fail) sp p (.fail p [] []) := by
  rintro l l' fail s hlaid hcode rfl rfl
  rw [State.walked_fail_nil]
  cases laid_expr.1 hlaid with
  | one hop => cases hop
  | fail hl => exact .single (step_jump hl hcode)

theorem invoke (hF : Lowered F) (hdecl : F.decls[d]? = some decl) (hrefc : 0 < decl.refc)
    (hsp : sp + fpMax ≤ stackSize)
    (hbody : RunsAs F R (.expr false decl.body) (sp + fpMax) p (.ok q cells logs kept)) :
    RunsAs F R (.expr hd (.invoke d)) sp p (.ok q [] logs kept) := by
  rintro l l' fail s hlaid hcode rfl rfl
  cases laid_expr.1 hlaid with
  | one hop => cases hop
  | invoke hl =>
    obtain ⟨entry, hinst, bodyFail, next, stop, hplaced, hstop, ⟨_, _, hret⟩, -⟩ :=
      hF.entry hdecl hrefc
    have hrun := hbody _ _ _ (s.invoked (F.insts entry) l' fail) (.expr hplaced) rfl rfl rfl
    have hreturn : step F R { (s.invoked (F.insts entry) l' fail).walked (.ok q cells logs kept) stop
        (F.insts bodyFail) with code := F.insts next } =
          some (s.walked (.ok q [] logs kept) l' (F.insts fail)) := by
      rw [step_ret hret rfl rfl]
      rfl
    exact .head (step_invoked hl hcode hdecl hinst hsp)
      (hrun.trans (.head (step_jump hstop rfl) (.single hreturn)))

theorem invokeFail (hF : Lowered F) (hdecl : F.decls[d]? = some decl) (hrefc : 0 < decl.refc)
    (hsp : sp + fpMax ≤ stackSize)
    (hbody : RunsAs F R (.expr false decl.body) (sp + fpMax) p (.fail q cells logs)) :
    RunsAs F R (.expr hd (.invoke d)) sp p (.fail p [] logs) := by
  rintro l l' fail s hlaid hcode rfl rfl
  cases laid_expr.1 hlaid with
  | one hop => cases hop
  | invoke hl =>
    obtain ⟨entry, hinst, bodyFail, next, stop, hplaced, hstop, -, _, _, hfail⟩ :=
      hF.entry hdecl hrefc
    have hrun := hbody _ _ _ (s.invoked (F.insts entry) l' fail) (.expr hplaced) rfl rfl rfl
    have hreturn : step F R ((s.invoked (F.insts entry) l' fail).walked (.fail q cells logs) stop
        (F.insts bodyFail)) = some (s.walked (.fail s.current [] logs) l' (F.insts fail)) := by
      rw [step_ifail hfail rfl rfl]
      rfl
    exact .head (step_invoked hl hcode hdecl hinst hsp) (hrun.trans (.single hreturn))

theorem and {t : ℕ} {cells' : List ℕ} (hsp : sp < stackSize)
    (hbody : RunsAs F R (.expr true e) (sp + 1) p (.ok q cells logs kept))
    (htop : cells ++ [p] = t :: cells') :
    RunsAs F R (.expr hd (.and e)) sp p (.ok t cells' logs kept) := by
  rintro l l' fail s hlaid hcode rfl rfl
  cases laid_expr.1 hlaid with
  | one hop => cases hop
  | @and _ _ _ _ body stop _ _ next bodyFail _ _ hl hstore hplaced hstop hload hfail =>
    have hrun := hbody _ _ _ (s.guarded body) (.expr hplaced) rfl rfl rfl
    have hunguard := s.step_unguard (F := F) (R := R) (w := .ok q cells logs kept) body stop
      (F.insts bodyFail) (F.insts fail) kept hload htop
    exact (reaches_store hl hstore hcode hsp).trans
      (hrun.trans (.head (step_jump hstop rfl) (.single hunguard)))

theorem andFail (hsp : sp < stackSize)
    (hbody : RunsAs F R (.expr true e) (sp + 1) p (.fail q cells logs)) :
    RunsAs F R (.expr hd (.and e)) sp p (.fail q (cells ++ [p]) logs) := by
  rintro l l' fail s hlaid hcode rfl rfl
  cases laid_expr.1 hlaid with
  | one hop => cases hop
  | @and _ _ _ _ body stop _ _ next bodyFail _ _ hl hstore hplaced hstop hload hfail =>
    have hrun := hbody _ _ _ (s.guarded body) (.expr hplaced) rfl rfl rfl
    have hend : step F R ((s.guarded body).walked (.fail q cells logs) stop (F.insts bodyFail)) =
        some (s.walked (.fail q (cells ++ [s.current]) logs) l' (F.insts fail)) :=
      (step_jump hfail rfl).trans (congrArg some (s.walked_guarded (.fail q cells logs) ..))
    exact (reaches_store hl hstore hcode hsp).trans (hrun.trans (.single hend))

theorem not {t : ℕ} {cells' : List ℕ} (he : e.notOp = none) (hsp : sp < stackSize)
    (hbody : RunsAs F R (.expr true e) (sp + 1) p (.fail q cells logs))
    (htop : cells ++ [p] = t :: cells') :
    RunsAs F R (.expr hd (.not e)) sp p (.ok t cells' logs []) := by
  rintro l l' fail s hlaid hcode rfl rfl
  cases laid_expr.1 hlaid with
  | one hop =>
    rw [Expr.op, he] at hop
    cases hop
  | @not _ _ _ _ body stop _ _ next bodyFail _ _ _ hl hstore hplaced hstop hnext hload =>
    have hrun := hbody _ _ _ (s.guarded body) (.expr hplaced) rfl rfl rfl
    have hunguard := s.step_unguard (F := F) (R := R) (w := .fail q cells logs) body stop
      (F.insts bodyFail) (F.insts fail) [] hload htop
    exact (reaches_store hl hstore hcode hsp).trans (hrun.trans (.single hunguard))

theorem notFail (he : e.notOp = none) (hsp : sp < stackSize)
    (hbody : RunsAs F R (.expr true e) (sp + 1) p (.ok q cells logs kept)) :
    RunsAs F R (.expr hd (.not e)) sp p (.fail q (cells ++ [p]) logs) := by
  rintro l l' fail s hlaid hcode rfl rfl
  cases laid_expr.1 hlaid with
  | one hop =>
    rw [Expr.op, he] at hop
    cases hop
  | @not _ _ _ _ body stop _ _ next bodyFail _ _ _ hl hstore hplaced hstop hnext hload =>
    have hrun := hbody _ _ _ (s.guarded body) (.expr hplaced) rfl rfl rfl
    have hend : step F R { (s.guarded body).walked (.ok q cells logs kept) stop
        (F.insts bodyFail) with code := F.insts next } =
          some (s.walked (.fail q (cells ++ [s.current]) logs) l' (F.insts fail)) :=
      (step_jump hnext rfl).trans (congrArg some
        (s.walked_guarded (.ok q cells logs kept) body stop (F.insts bodyFail) ..))
    exact (reaches_store hl hstore hcode hsp).trans
      (hrun.trans (.head (step_jump hstop rfl) (.single hend)))

theorem option (he : e.optionOp { decls := [] } = none)
    (hbody : RunsAs F R (.expr hd e) sp p (.ok q cells logs kept)) :
    RunsAs F R (.expr hd (.option e)) sp p (.ok q cells logs kept) := by
  rintro l l' fail s hlaid hcode hsp hp
  cases laid_expr.1 hlaid with
  | one hop =>
    rw [Expr.op, Expr.optionOp_eq_none F he] at hop
    cases hop
  | option _ hplaced hstop =>
    exact (hbody _ _ _ s (.expr hplaced) hcode hsp hp).tail (step_jump hstop rfl)

theorem optionNone (he : e.optionOp { decls := [] } = none)
    (hbody : RunsAs F R (.expr hd e) sp p (.fail q cells logs)) :
    RunsAs F R (.expr hd (.option e)) sp p (.ok q cells logs []) := by
  rintro l l' fail s hlaid hcode hsp hp
  cases laid_expr.1 hlaid with
  | one hop =>
    rw [Expr.op, Expr.optionOp_eq_none F he] at hop
    cases hop
  | option _ hplaced hstop => exact hbody _ _ _ s (.expr hplaced) hcode hsp hp

theorem choice (hlist : RunsAs F R (.choice list) sp p w) :
    RunsAs F R (.expr hd (.choice list)) sp p w := by
  rintro l l' fail s hlaid hcode hsp hp
  cases laid_expr.1 hlaid with
  | one hop => cases hop
  | choice hl hplaced =>
    exact .head (step_jump hl hcode) (hlist _ _ _ { s with code := _ } (.choice hplaced) rfl hsp hp)

theorem sequence (hlist : RunsAs F R (.sequence list) sp p w) :
    RunsAs F R (.expr hd (.sequence list)) sp p w := by
  rintro l l' fail s hlaid hcode hsp hp
  cases laid_expr.1 hlaid with
  | one hop => cases hop
  | sequence hplaced hstop =>
    have hrun := hlist _ _ _ s (.sequence hplaced) hcode hsp hp
    cases w with
    | ok => exact hrun.tail (step_jump hstop rfl)
    | fail => exact hrun

theorem repetition (he : Expr.repetitionOp { decls := [] } list = none)
    (hlist : RunsAs F R (.rounds hd list) sp p w) :
    RunsAs F R (.expr hd (.repetition list)) sp p w := by
  rintro l l' fail s hlaid hcode hsp hp
  cases laid_expr.1 hlaid with
  | one hop =>
    rw [Expr.op, Expr.repetitionOp_eq_none F he] at hop
    cases hop
  | repetition hop hplaced hstop hcur hbefore =>
    exact hlist _ _ _ s (.rounds ⟨hop, hplaced, _, _, hstop, hcur, hbefore⟩) hcode hsp hp

theorem alternative (hx : RunsAs F R (.expr false x) sp p (.ok q cells logs kept)) :
    RunsAs F R (.choice (x :: list)) sp p (.ok q cells logs kept) := by
  rintro l l' fail s hlaid hcode hsp hp
  obtain ⟨bb, next, hplaced, rfl, rfl⟩ := laid_choice.1 hlaid
  cases hplaced with
  | last hplaced hstop =>
    exact (hx _ _ _ s (.expr hplaced) hcode hsp hp).tail (step_jump hstop rfl)
  | cons hplaced hstop _ =>
    exact (hx _ _ _ s (.expr hplaced) hcode hsp hp).tail (step_jump hstop rfl)

theorem alternativeLast (hx : RunsAs F R (.expr false x) sp p (.fail q cells logs)) :
    RunsAs F R (.choice [x]) sp p (.fail q cells logs) := by
  rintro l l' fail s hlaid hcode hsp hp
  obtain ⟨bb, next, hplaced, rfl, rfl⟩ := laid_choice.1 hlaid
  cases hplaced with
  | last hplaced hstop =>
    have hrun := hx _ _ _ s (.expr hplaced) hcode hsp hp
    exact hrun

theorem alternativeNext (hx : RunsAs F R (.expr false x) sp p (.fail q cells logs))
    (hlist : RunsAs F R (.choice (y :: list)) (sp + cells.length) q w) :
    RunsAs F R (.choice (x :: y :: list)) sp p (w.after cells logs []) := by
  rintro l l' fail s hlaid hcode rfl hp
  obtain ⟨bb, next, hplaced, rfl, rfl⟩ := laid_choice.1 hlaid
  cases hplaced with
  | @cons _ _ _ stop _ bb' _ _ hplaced hstop hrest =>
    have hrun := hx _ _ _ s (.expr hplaced) hcode rfl hp
    have hnext := hlist _ _ _ (s.walked (.fail q cells logs) stop (F.insts bb')) (.choice hrest)
      rfl rfl rfl
    rw [State.walked_walked _ _ _ _ _ _ _ []] at hnext
    exact hrun.trans hnext

theorem nil : RunsAs F R (.sequence []) sp p (.ok p [] [] []) := by
  rintro l l' fail s hlaid rfl rfl rfl
  rw [State.walked_ok_nil]
  cases laid_sequence.1 hlaid
  exact .refl

theorem cons (hx : RunsAs F R (.expr false x) sp p (.ok q cells logs kept))
    (hlist : RunsAs F R (.sequence list) (sp + cells.length) q w) :
    RunsAs F R (.sequence (x :: list)) sp p (w.after cells logs kept) := by
  rintro l l' fail s hlaid hcode rfl hp
  cases laid_sequence.1 hlaid with
  | @cons _ _ _ _ stop bb _ hl hplaced hrest =>
    have hrun := hx _ _ _ { s with code := F.insts bb } (.expr hplaced) rfl rfl hp
    have hnext := hlist _ _ _ (s.walked (.ok q cells logs kept) stop (F.insts fail))
      (.sequence hrest) rfl rfl rfl
    rw [State.walked_walked _ _ _ _ _ _ _ kept] at hnext
    exact .head (step_jump hl hcode) (hrun.trans hnext)

theorem consFail (hx : RunsAs F R (.expr false x) sp p (.fail q cells logs)) :
    RunsAs F R (.sequence (x :: list)) sp p (.fail q cells logs) := by
  rintro l l' fail s hlaid hcode hsp hp
  cases laid_sequence.1 hlaid with
  | @cons _ _ _ _ stop bb _ hl hplaced hrest =>
    have hrun := hx _ _ _ { s with code := F.insts bb } (.expr hplaced) rfl hsp hp
    exact .head (step_jump hl hcode) hrun

theorem stop (hlist : RunsAs F R (.sequence list) sp p (.fail q cells logs)) :
    RunsAs F R (.rounds hd list) sp p (.ok q cells logs []) := by
  rintro l l' fail s hlaid hcode hsp hp
  obtain ⟨stop, next, hloop, rfl⟩ := laid_rounds.1 hlaid
  exact hlist _ _ _ s (.sequence hloop.body) hcode hsp hp

theorem round (hlist : RunsAs F R (.sequence list) sp p (.ok q cells logs kept))
    (hrest : RunsAs F R (.rounds false list) (sp + cells.length) q w) :
    RunsAs F R (.rounds false list) sp p (w.after cells logs kept) := by
  rintro l l' fail s hlaid hcode rfl hp
  obtain ⟨stop, next, hloop, rfl⟩ := laid_rounds.1 hlaid
  have hrun := hlist _ _ _ s (.sequence hloop.body) hcode rfl hp
  obtain ⟨cur, before, hback, hcur, hbefore⟩ := hloop.back
  have hnil : before = [] := hbefore
  rw [hnil, List.nil_append] at hcur
  have hnext := hrest _ _ fail (s.walked (.ok q cells logs kept) l (F.insts next)) (.rounds hloop)
    rfl rfl rfl
  rw [State.walked_walked _ _ _ _ _ _ _ kept] at hnext
  have hjump := step_jump (F := F) (R := R) (s := s.walked (.ok q cells logs kept) stop (F.insts next))
    hback rfl
  rw [hcur] at hjump
  exact hrun.trans (.head hjump hnext)

theorem roundStore (hlist : RunsAs F R (.sequence list) sp p (.ok q cells logs kept))
    (hsp : sp + cells.length < stackSize)
    (hrest : RunsAs F R (.rounds true list) (sp + (q :: cells).length) q w) :
    RunsAs F R (.rounds true list) sp p (w.after (q :: cells) logs kept) := by
  rintro l l' fail s hlaid hcode rfl hp
  obtain ⟨stop, next, hloop, rfl⟩ := laid_rounds.1 hlaid
  have hrun := hlist _ _ _ s (.sequence hloop.body) hcode rfl hp
  obtain ⟨cur, before, hback, hcur, hbefore⟩ := hloop.back
  obtain ⟨a, store, hop, hfail, rfl⟩ : ∃ a, Begins .iPStore a before [] := hbefore
  have hnext := hrest _ _ fail (s.walked (.ok q (q :: cells) logs kept) l (F.insts next))
    (.rounds hloop) rfl rfl rfl
  rw [State.walked_walked _ _ _ _ _ _ _ kept] at hnext
  have hjump := step_jump (F := F) (R := R) (s := s.walked (.ok q cells logs kept) stop (F.insts next))
    hback rfl
  rw [hcur] at hjump
  have hpush : step F R { s.walked (.ok q cells logs kept) stop (F.insts next) with
      code := [store] ++ l } = some (s.walked (.ok q (q :: cells) logs kept) l (F.insts next)) := by
    rw [step_pstore (l := [store] ++ l) ⟨store, hop, hfail, rfl⟩ rfl]
    exact if_pos hsp
  exact hrun.trans (.head hjump (.head hpush hnext))

end RunsAs

theorem Walk.runs (hF : Lowered F) (h : Walk (F.reading R) F.decls resume form sp p w) :
    RunsAs F R form sp p w := by
  induction h with
  | empty => exact .empty
  | one heffect => exact .one heffect
  | oneFail heffect => exact .oneFail heffect
  | log hentry => exact .log hentry
  | fail => exact .fail
  | invoke hdecl hrefc hsp _ ih => exact .invoke hF hdecl hrefc hsp ih
  | invokeFail hdecl hrefc hsp _ ih => exact .invokeFail hF hdecl hrefc hsp ih
  | and hsp _ htop _ ih => exact .and hsp ih htop
  | andFail hsp _ ih => exact .andFail hsp ih
  | not he hsp _ htop _ ih => exact .not he hsp ih htop
  | notFail he hsp _ ih => exact .notFail he hsp ih
  | option he _ ih => exact .option he ih
  | optionNone he _ _ ih => exact .optionNone he ih
  | choice _ ih => exact .choice ih
  | sequence _ ih => exact .sequence ih
  | repetition he _ ih => exact .repetition he ih
  | alternative _ ih => exact .alternative ih
  | alternativeLast _ ih => exact .alternativeLast ih
  | alternativeNext _ _ _ ihx ih => exact .alternativeNext ihx ih
  | nil => exact .nil
  | cons _ _ ihx ih => exact .cons ihx ih
  | consFail _ ih => exact .consFail ih
  | stop _ _ ih => exact .stop ih
  | round _ _ ihx ih => exact .round ihx ih
  | roundStore _ hsp _ ihx ih => exact .roundStore ihx hsp ih

/-- A walk without a condition on the attempts that fail. -/
abbrev AnyWalk (F : MozCompiler) (R : Runtime) (decls : List Decl) : Form → ℕ → ℕ → Walked → Prop :=
  Walk (F.reading R) decls fun _ _ _ => True

/-- Wherever the code of a form begins at this state, it has a walk. -/
def Walks (F : MozCompiler) (R : Runtime) (s : State) : Prop :=
  ∀ (form : Form) (l l' : List Ir) (fail : BlockId), Laid F form l fail l' → s.code = l →
    ∃ w, AnyWalk F R F.decls form s.sp s.current w

def Lives (F : MozCompiler) (R : Runtime) (s : State) : Prop :=
  ∀ u, Reaches (step F R) s u → u.result = none → (step F R u).isSome

theorem Returns.lives {s s' : State} {matched : Bool} (h : Returns F R s matched s') :
    Lives F R s := by
  intro u hu hresult
  obtain rfl | ⟨v, hv, -⟩ := (h.after hu).1.cases_head
  · rw [h.2] at hresult
    cases hresult
  · exact Option.isSome_of_mem hv

theorem Lives.after {s u : State} (h : Lives F R s) (hu : Reaches (step F R) s u) : Lives F R u :=
  fun v hv => h v (hu.trans hv)

/-- At an instruction that is not a return the run goes on. -/
theorem Lives.moves {s : State} (h : Lives F R s) {fail : BlockId} (hl : Begins op fail l l')
    (hcode : s.code = l) (hret : op ≠ .iRet) (hfail : op ≠ .iFail) : (step F R s).isSome := by
  refine h s .refl ?_
  obtain ⟨ir, rfl, -, rfl⟩ := hl
  unfold State.result
  rw [hcode]
  cases s.frames with
  | nil => simp only [if_neg hret, if_neg hfail]
  | cons => rfl

theorem Lives.room {s : State} (h : Lives F R s) {fail : BlockId} (hl : Begins .iPStore fail l l')
    (hcode : s.code = l) : s.sp < stackSize := by
  have hmoves := h.moves hl hcode (by simp) (by simp)
  rw [step_pstore hl hcode] at hmoves
  by_contra hsp
  rw [if_neg hsp] at hmoves
  cases hmoves

/-- The instructions that neither jump nor touch the stack. -/
def Op.reads : Op → Bool
  | .iLabel | .iJump _ | .iInvoke _ | .iPLoad | .iPStore | .iRet | .iFail => false
  | _ => true

theorem Expr.reads_of_op (h : e.op F = some op) : op.reads := by
  cases e with
  | any | byte | str | set | tcapture | tpush | tpop | tnew | ttag =>
    cases h
    rfl
  | empty | invoke | and | choice | fail | sequence | todo => cases h
  | not e =>
    cases e with
    | any =>
      cases h
      rfl
    | _ => cases h
  | option e =>
    cases e with
    | byte | str | set =>
      cases h
      rfl
    | _ => cases h
  | repetition list =>
    match list with
    | [] | _ :: _ :: _ => cases h
    | [e] =>
      cases e with
      | any | byte | str | set =>
        cases h
        rfl
      | _ => cases h

/-- An instruction that reads and goes on has an answer, or an entry. -/
theorem exec_reads {s : State} {ir : Ir} (hop : ir.op = op) (hreads : op.reads)
    (h : (exec F R s ir).isSome) : (∃ q, op.effect R s.current = .next q) ∨
      op.effect R s.current = .fail ∨ ∃ log, op.entry R s.current = some log := by
  subst hop
  cases heffect : ir.op.effect R s.current with
  | next q => exact .inl ⟨q, rfl⟩
  | fail => exact .inr (.inl rfl)
  | stuck =>
    cases hentry : ir.op.entry R s.current with
    | some log => exact .inr (.inr ⟨log, rfl⟩)
    | none =>
      cases hop : ir.op with
      | iLabel | iJump | iInvoke | iPLoad | iPStore | iRet | iFail =>
        rw [hop] at hreads
        cases hreads
      | iTPush | iTPop | iTNew | iTCapture | iTTag =>
        rw [hop] at hentry
        simp [exec, hop, hentry] at h
      | _ =>
        rw [hop] at heffect
        simp [exec, hop, heffect] at h

theorem one_walk {s : State} {fail : BlockId} (hlives : Lives F R s) (hop : e.op F = some op)
    (hl : Begins op fail l l') (hcode : s.code = l) :
    ∃ w, AnyWalk F R F.decls (.expr hd e) s.sp s.current w := by
  have hreads := Expr.reads_of_op hop
  have hmoves := hlives.moves hl hcode (fun h => by rw [h] at hreads; cases hreads)
    (fun h => by rw [h] at hreads; cases hreads)
  obtain ⟨ir, hir, -, hstep⟩ := hl.step F R hcode
  rw [hstep] at hmoves
  obtain ⟨q, h⟩ | h | ⟨log, h⟩ := exec_reads hir hreads hmoves
  · exact ⟨_, .one (by simpa [MozCompiler.reading, hop] using h)⟩
  · exact ⟨_, .oneFail (by simpa [MozCompiler.reading, hop] using h)⟩
  · exact ⟨_, .log (by simpa [MozCompiler.reading, hop] using h)⟩

section Later

variable {s : State} {fail : BlockId} {list : List Expr} (hF : Lowered F) (hlives : Lives F R s)
  (hlater : ∀ u, Reaches₁ (step F R) s u → Walks F R u)

include hlives hlater

theorem invoke_walk {d : ℕ} (hF : Lowered F) (hl : Begins (.iInvoke d) fail l l')
    (hcode : s.code = l) : ∃ w, AnyWalk F R F.decls (.expr hd (.invoke d)) s.sp s.current w := by
  have hmoves := hlives.moves hl hcode (by simp) (by simp)
  rw [step_invoke hl hcode] at hmoves
  cases hdecl : F.decls[d]? with
  | none => simp [hdecl] at hmoves
  | some decl =>
    rw [hdecl, Option.bind_some] at hmoves
    have hrefc : 0 < decl.refc := by
      by_contra hrefc
      have hinst := hF d decl hdecl
      rw [if_neg hrefc] at hinst
      rw [hinst] at hmoves
      cases hmoves
    obtain ⟨entry, hinst, bodyFail, next, stop, hplaced, -⟩ := hF.entry hdecl hrefc
    rw [hinst, Option.bind_some] at hmoves
    have hsp : s.sp + fpMax ≤ stackSize := by
      by_contra hsp
      rw [if_neg hsp] at hmoves
      cases hmoves
    obtain ⟨w, hw⟩ := hlater _ (.single (step_invoked hl hcode hdecl hinst hsp)) _ _ _ _
      (.expr hplaced) rfl
    cases w with
    | ok => exact ⟨_, .invoke hdecl hrefc hsp hw⟩
    | fail => exact ⟨_, .invokeFail hdecl hrefc hsp hw⟩

theorem guarded_walk {head a bodyFail : BlockId} {body stop : List Ir} (hl : Jumps l head)
    (hstore : Begins .iPStore a (F.insts head) body) (hbody : Placed F true e body bodyFail stop)
    (hcode : s.code = l) : s.sp < stackSize ∧
      ∃ w, AnyWalk F R F.decls (.expr true e) (s.sp + 1) s.current w := by
  have hjump : Reaches (step F R) s { s with code := F.insts head } := .single (step_jump hl hcode)
  have hsp : s.sp < stackSize := (hlives.after hjump).room hstore rfl
  have hfirst : Reaches₁ (step F R) s (s.guarded body) := by
    refine Relation.TransGen.head' (step_jump hl hcode) (.single ?_)
    rw [Option.mem_def, step_pstore hstore rfl]
    exact if_pos hsp
  obtain ⟨w, hw⟩ := hlater _ hfirst _ _ _ _ (.expr hbody) rfl
  exact ⟨hsp, w, hw⟩

omit hlives in
theorem cons_walk {x : Expr} {bb : BlockId} {stop : List Ir} (hF : Lowered F) (hl : Jumps l bb)
    (hx : Placed F false x (F.insts bb) fail stop) (hlist : PlacedSequence F list stop fail l')
    (hcode : s.code = l) : ∃ w, AnyWalk F R F.decls (.sequence (x :: list)) s.sp s.current w := by
  have hjump : Reaches₁ (step F R) s { s with code := F.insts bb } := .single (step_jump hl hcode)
  obtain ⟨w, hw⟩ := hlater _ hjump _ _ _ _ (.expr hx) rfl
  cases w with
  | fail q cells logs => exact ⟨_, .consFail hw⟩
  | ok q cells logs kept =>
    have hrun := hw.runs hF _ _ _ { s with code := F.insts bb } (.expr hx) rfl rfl rfl
    obtain ⟨w', hw'⟩ := hlater _ (hjump.trans_left hrun) _ _ _ _ (.sequence hlist) rfl
    exact ⟨_, .cons hw hw'⟩

theorem rounds_walk {stop : List Ir} {next : BlockId} (hF : Lowered F)
    (hloop : Loop F hd list l stop next) (hcode : s.code = l)
    (hlist : ∃ w, AnyWalk F R F.decls (.sequence list) s.sp s.current w) :
    ∃ w, AnyWalk F R F.decls (.rounds hd list) s.sp s.current w := by
  obtain ⟨w, hw⟩ := hlist
  cases w with
  | fail q cells logs => exact ⟨_, .stop hw trivial⟩
  | ok q cells logs kept =>
    have hrun := hw.runs hF _ _ _ s (.sequence hloop.body) hcode rfl rfl
    obtain ⟨cur, before, hback, hcur, hbefore⟩ := hloop.back
    have hjump := step_jump (F := F) (R := R)
      (s := s.walked (.ok q cells logs kept) stop (F.insts next)) hback rfl
    rw [hcur] at hjump
    have hhead := Relation.TransGen.tail' hrun hjump
    cases hd with
    | false =>
      have hnil : before = [] := hbefore
      subst hnil
      obtain ⟨w', hw'⟩ := hlater _ hhead _ _ _ next (.rounds hloop) rfl
      exact ⟨_, .round hw hw'⟩
    | true =>
      obtain ⟨a, store, hop, hfail, rfl⟩ : ∃ a, Begins .iPStore a before [] := hbefore
      have hl : Begins .iPStore a ([store] ++ l) l := ⟨store, hop, hfail, rfl⟩
      have hsp : s.sp + cells.length < stackSize := (hlives.after hhead.to_reflTransGen).room hl rfl
      have hpush : step F R { s.walked (.ok q cells logs kept) stop (F.insts next) with
          code := [store] ++ l } = some (s.walked (.ok q (q :: cells) logs kept) l (F.insts next)) := by
        rw [step_pstore hl rfl]
        exact if_pos hsp
      obtain ⟨w', hw'⟩ := hlater _ (hhead.tail hpush) _ _ _ next (.rounds hloop) rfl
      exact ⟨_, .roundStore hw hsp hw'⟩

end Later

/-- What begins at a state has a walk if all that begins later has one. -/
theorem walks_of_later {s : State} (hF : Lowered F) (hlives : Lives F R s)
    (hlater : ∀ u, Reaches₁ (step F R) s u → Walks F R u) : Walks F R s := by
  intro form
  induction hsize : sizeOf form using Nat.strong_induction_on generalizing form with
  | _ n ih =>
    subst hsize
    intro l l' fail hlaid hcode
    cases form with
    | expr hd e =>
      cases laid_expr.1 hlaid with
      | empty => exact ⟨_, .empty⟩
      | one hop hl => exact one_walk hlives hop hl hcode
      | invoke hl => exact invoke_walk hlives hlater hF hl hcode
      | fail hl => exact ⟨_, .fail⟩
      | and hl hstore hbody hstop hload hfail =>
        obtain ⟨hsp, w, hw⟩ := guarded_walk hlives hlater hl hstore hbody hcode
        cases w with
        | ok q cells logs kept =>
          obtain ⟨t, cells', htop⟩ : ∃ t cells', cells ++ [s.current] = t :: cells' := by
            cases cells with
            | nil => exact ⟨_, _, rfl⟩
            | cons => exact ⟨_, _, rfl⟩
          exact ⟨_, .and hsp hw htop trivial⟩
        | fail => exact ⟨_, .andFail hsp hw⟩
      | not he hl hstore hbody hstop hnext hload =>
        obtain ⟨hsp, w, hw⟩ := guarded_walk hlives hlater hl hstore hbody hcode
        cases w with
        | ok => exact ⟨_, .notFail he hsp hw⟩
        | fail q cells logs =>
          obtain ⟨t, cells', htop⟩ : ∃ t cells', cells ++ [s.current] = t :: cells' := by
            cases cells with
            | nil => exact ⟨_, _, rfl⟩
            | cons => exact ⟨_, _, rfl⟩
          exact ⟨_, .not he hsp hw htop trivial⟩
      | @option _ e _ _ _ _ he hbody hstop =>
        obtain ⟨w, hw⟩ := ih (sizeOf (Form.expr hd e)) (by simp +arith) _ rfl _ _ _ (.expr hbody) hcode
        cases w with
        | ok => exact ⟨_, .option (Expr.optionOp_eq_none _ he) hw⟩
        | fail => exact ⟨_, .optionNone (Expr.optionOp_eq_none _ he) hw trivial⟩
      | choice hl hlist =>
        obtain ⟨w, hw⟩ := hlater { s with code := _ } (.single (step_jump hl hcode)) _ _ _ _
          (.choice hlist) rfl
        exact ⟨w, .choice hw⟩
      | @sequence _ list _ _ _ _ hlist hstop =>
        obtain ⟨w, hw⟩ := ih (sizeOf (Form.sequence list)) (by simp +arith) _ rfl _ _ _
          (.sequence hlist) hcode
        exact ⟨w, .sequence hw⟩
      | @repetition _ list _ _ _ _ _ _ hop hlist hstop hcur hbefore =>
        obtain ⟨w, hw⟩ := ih (sizeOf (Form.rounds hd list)) (by simp +arith) _ rfl _ _ fail
          (.rounds ⟨hop, hlist, _, _, hstop, hcur, hbefore⟩) hcode
        exact ⟨w, .repetition (Expr.repetitionOp_eq_none _ hop) hw⟩
    | sequence list =>
      cases laid_sequence.1 hlaid with
      | nil => exact ⟨_, .nil⟩
      | cons hl hx hlist => exact cons_walk hlater hF hl hx hlist hcode
    | choice list =>
      obtain ⟨bb, next, hplaced, rfl, rfl⟩ := laid_choice.1 hlaid
      cases hplaced with
      | @last x stop _ _ _ hx hstop =>
        obtain ⟨w, hw⟩ := ih (sizeOf (Form.expr false x)) (by simp +arith) _ rfl _ _ _ (.expr hx) hcode
        cases w with
        | ok => exact ⟨_, .alternative hw⟩
        | fail => exact ⟨_, .alternativeLast hw⟩
      | @cons x y list stop _ bb' _ _ hx hstop hlist =>
        obtain ⟨w, hw⟩ := ih (sizeOf (Form.expr false x)) (by simp +arith) _ rfl _ _ _
          (.expr hx) hcode
        cases w with
        | ok => exact ⟨_, .alternative hw⟩
        | fail q cells logs =>
          have hrun := hw.runs hF _ _ _ s (.expr hx) hcode rfl rfl
          have hrest : ∃ w, AnyWalk F R F.decls (.choice (y :: list)) (s.sp + cells.length) q w := by
            obtain heq | hfirst := Relation.reflTransGen_iff_eq_or_transGen.1 hrun
            · have hnext := ih (sizeOf (Form.choice (y :: list))) (by simp +arith) _ rfl _ _ _
                (.choice hlist)
              rw [← heq] at hnext
              exact hnext rfl
            · exact hlater _ hfirst _ _ _ _ (.choice hlist) rfl
          obtain ⟨w', hw'⟩ := hrest
          exact ⟨_, .alternativeNext hw trivial hw'⟩
    | rounds hd list =>
      obtain ⟨stop, next, hloop, rfl⟩ := laid_rounds.1 hlaid
      exact rounds_walk hlives hlater hF hloop hcode
        (ih (sizeOf (Form.sequence list)) (by simp +arith) _ rfl _ _ _ (.sequence hloop.body) hcode)

theorem exists_walk {s s' : State} {matched : Bool} (hF : Lowered F)
    (h : Returns F R s matched s') : Walks F R s := by
  refine Progress.halting_induct (step_of_result h.2) h.1 fun u hu hlater => ?_
  have hreturns : Returns F R u matched s' := ⟨hu, h.2⟩
  exact walks_of_later hF hreturns.lives fun v hv => hlater v hv (hreturns.after hv.to_reflTransGen).1

end Runs

section Calls

variable {C : MozCompiler} {R : Runtime} {d : ℕ} {decl : Decl}

/-- A production that is not referenced is left as it is. -/
theorem mozDeclsToIr_other (list : List Decl) (n : ℕ) (C : MozCompiler)
    (hlist : ∀ i, list[i]? = C.decls[n + i]?)
    (hC : ∀ decl ∈ list, 0 < decl.refc → decl.body.implemented) (C' : MozCompiler)
    (hC' : (list.zipIdx n).foldl (fun C (decl, d) =>
      if 0 < decl.refc then mozDeclToIr C d decl else C) C = C') :
    C'.decls.length = C.decls.length ∧
      ∀ (d : ℕ) (decl : Decl), C.decls[d]? = some decl → ¬ 0 < decl.refc → C'.decls[d]? = some decl := by
  induction list generalizing n C with
  | nil =>
    subst hC'
    exact ⟨rfl, fun d decl h _ => h⟩
  | cons x list ih =>
    have hx : C.decls[n]? = some x := (hlist 0).symm
    have hC₁ : ∀ decl ∈ list, 0 < decl.refc → decl.body.implemented := fun decl hdecl =>
      hC decl (List.mem_cons_of_mem _ hdecl)
    rw [List.zipIdx_cons, List.foldl_cons] at hC'
    dsimp only at hC'
    by_cases hrefc : 0 < x.refc
    · rw [if_pos hrefc] at hC'
      obtain ⟨hgrows, -⟩ := @mozBodyToIr_spec C x.body (hC x (List.mem_cons_self ..) hrefc)
      have hdecls : (mozDeclToIr C n x).decls =
          C.decls.set n { x with inst := some (mozBodyToIr C x.body).2.head } := by
        simp [mozDeclToIr, hgrows.decls]
      have hlater : ∀ i, list[i]? = (mozDeclToIr C n x).decls[n + 1 + i]? := by
        intro i
        rw [hdecls, List.getElem?_set_ne (by omega), add_assoc, add_comm 1 i]
        exact hlist (i + 1)
      obtain ⟨hlength, hother⟩ := ih (n + 1) _ hlater hC₁ hC'
      refine ⟨hlength.trans (by rw [hdecls, List.length_set]), fun d decl h hdead => ?_⟩
      refine hother d decl ?_ hdead
      have hne : n ≠ d := by
        rintro rfl
        rw [hx] at h
        cases h
        exact hdead hrefc
      rw [hdecls, List.getElem?_set_ne hne, h]
    · rw [if_neg hrefc] at hC'
      have hlater : ∀ i, list[i]? = C.decls[n + 1 + i]? := by
        intro i
        rw [add_assoc, add_comm 1 i]
        exact hlist (i + 1)
      exact ih (n + 1) _ hlater hC₁ hC'

theorem mozAstToIr_decls (hC : ∀ decl ∈ C.decls, 0 < decl.refc → decl.body.implemented) {d : ℕ}
    {decl' : Decl} (h : (mozAstToIr C).decls[d]? = some decl') : ∃ decl, C.decls[d]? = some decl ∧
      decl'.body = decl.body ∧ decl'.refc = decl.refc ∧ (¬ 0 < decl.refc → decl' = decl) := by
  obtain ⟨hlength, hother⟩ := mozDeclsToIr_other C.decls 0 C (fun i => by rw [Nat.zero_add]) hC _ rfl
  have hlt : d < (mozAstToIr C).decls.length := (List.getElem?_eq_some_iff.1 h).1
  obtain ⟨decl, hdecl⟩ : ∃ decl, C.decls[d]? = some decl :=
    ⟨_, List.getElem?_eq_getElem (hlength ▸ hlt)⟩
  refine ⟨decl, hdecl, ?_⟩
  by_cases hrefc : 0 < decl.refc
  · obtain ⟨entry, hentry, -⟩ := mozAstToIr_placed hC hdecl hrefc
    rw [hentry] at h
    cases h
    exact ⟨rfl, rfl, fun hdead => absurd hrefc hdead⟩
  · have hsame : (mozAstToIr C).decls[d]? = some decl := hother d decl hdecl hrefc
    rw [hsame] at h
    cases h
    exact ⟨rfl, rfl, fun _ => rfl⟩

theorem mozAstToIr_lowered (hC : ∀ decl ∈ C.decls, 0 < decl.refc → decl.body.implemented)
    (hinst : ∀ decl ∈ C.decls, decl.inst = none) : Lowered (mozAstToIr C) := by
  intro d decl' h
  obtain ⟨decl, hdecl, hbody, hrefc, hsame⟩ := mozAstToIr_decls hC h
  rw [hrefc]
  split_ifs with hlive
  · obtain ⟨entry, hentry, hplaced⟩ := mozAstToIr_placed hC hdecl hlive
    rw [hentry] at h
    cases h
    exact ⟨entry, rfl, hplaced⟩
  · rw [hsame hlive]
    exact hinst decl (List.mem_of_getElem? hdecl)

/-- A walk depends on the bodies of the referenced productions only. -/
theorem Walk.mono {M : Reading} {decls decls' : List Decl}
    {resume resume' : ℕ → ℕ → List AstLog → Prop} {form : Form} {sp p : ℕ} {w : Walked}
    (hdecls : ∀ (d : ℕ) (decl : Decl), decls[d]? = some decl → 0 < decl.refc →
      ∃ decl', decls'[d]? = some decl' ∧ 0 < decl'.refc ∧ decl'.body = decl.body)
    (hresume : ∀ p q logs, resume p q logs → resume' p q logs)
    (h : Walk M decls resume form sp p w) : Walk M decls' resume' form sp p w := by
  induction h with
  | empty => exact .empty
  | one heffect => exact .one heffect
  | oneFail heffect => exact .oneFail heffect
  | log hentry => exact .log hentry
  | fail => exact .fail
  | invoke hdecl hrefc hsp _ ih =>
    obtain ⟨decl', hdecl', hrefc', hbody⟩ := hdecls _ _ hdecl hrefc
    exact .invoke hdecl' hrefc' hsp (hbody ▸ ih)
  | invokeFail hdecl hrefc hsp _ ih =>
    obtain ⟨decl', hdecl', hrefc', hbody⟩ := hdecls _ _ hdecl hrefc
    exact .invokeFail hdecl' hrefc' hsp (hbody ▸ ih)
  | and hsp _ htop hr ih => exact .and hsp ih htop (hresume _ _ _ hr)
  | andFail hsp _ ih => exact .andFail hsp ih
  | not he hsp _ htop hr ih => exact .not he hsp ih htop (hresume _ _ _ hr)
  | notFail he hsp _ ih => exact .notFail he hsp ih
  | option he _ ih => exact .option he ih
  | optionNone he _ hr ih => exact .optionNone he ih (hresume _ _ _ hr)
  | choice _ ih => exact .choice ih
  | sequence _ ih => exact .sequence ih
  | repetition he _ ih => exact .repetition he ih
  | alternative _ ih => exact .alternative ih
  | alternativeLast _ ih => exact .alternativeLast ih
  | alternativeNext _ hr _ ihx ih => exact .alternativeNext ihx (hresume _ _ _ hr) ih
  | nil => exact .nil
  | cons _ _ ihx ih => exact .cons ihx ih
  | consFail _ ih => exact .consFail ih
  | stop _ hr ih => exact .stop ih (hresume _ _ _ hr)
  | round _ _ ihx ih => exact .round ihx ih
  | roundStore _ hsp _ ihx ih => exact .roundStore ihx hsp ih

/-- The walks of a lowered module are those of the productions it was lowered from. -/
theorem mozAstToIr_walk_iff (hC : ∀ decl ∈ C.decls, 0 < decl.refc → decl.body.implemented)
    {M : Reading} {resume : ℕ → ℕ → List AstLog → Prop} {form : Form} {sp p : ℕ} {w : Walked} :
    Walk M (mozAstToIr C).decls resume form sp p w ↔ Walk M C.decls resume form sp p w := by
  constructor
  · apply Walk.mono _ fun _ _ _ h => h
    intro d decl' hdecl' hrefc
    obtain ⟨decl, hdecl, hbody, hsame, -⟩ := mozAstToIr_decls hC hdecl'
    exact ⟨decl, hdecl, hsame ▸ hrefc, hbody.symm⟩
  · apply Walk.mono _ fun _ _ _ h => h
    intro d decl hdecl hrefc
    obtain ⟨entry, hentry, -⟩ := mozAstToIr_placed hC hdecl hrefc
    exact ⟨_, hentry, hrefc, rfl⟩

theorem returns_of_runsAs (hC : ∀ decl ∈ C.decls, 0 < decl.refc → decl.body.implemented)
    (hdecl : C.decls[d]? = some decl) (hrefc : 0 < decl.refc) {sp p : ℕ} (ast : AstMachine)
    {w : Walked} (hw : RunsAs (mozAstToIr C) R (.expr false decl.body) sp p w) :
    ∃ s s', enter (mozAstToIr C) d sp p ast = some s ∧
      Returns (mozAstToIr C) R s w.matched s' ∧ s'.current = w.stop ∧
      s'.ast = { ast with logs := ast.logs ++ w.logs } := by
  obtain ⟨entry, hentry, fail, next, stop, hplaced, hstop, ⟨_, _, hret⟩, _, _, hfail⟩ :=
    mozAstToIr_placed hC hdecl hrefc
  set F := mozAstToIr C with hFeq
  set s : State := { code := F.insts entry, current := p, sp := sp, ast := ast } with hs
  have henter : enter F d sp p ast = some s := by simp [enter, hentry, hs]
  have hrun := hw _ _ _ s (.expr hplaced) rfl rfl rfl
  cases w with
  | ok q cells logs kept =>
    obtain ⟨ir, hop, -, hcode⟩ := hret
    refine ⟨s, _, henter, ⟨hrun.tail (step_jump hstop rfl), ?_⟩, rfl, rfl⟩
    simp [State.result, State.walked, hcode, hop, hs, Walked.matched]
  | fail q cells logs =>
    obtain ⟨ir, hop, -, hcode⟩ := hfail
    refine ⟨s, _, henter, ⟨hrun, ?_⟩, rfl, rfl⟩
    simp [State.result, State.walked, Walked.code, hcode, hop, hs, Walked.matched]

theorem returns_of_walk (hC : ∀ decl ∈ C.decls, 0 < decl.refc → decl.body.implemented)
    (hinst : ∀ decl ∈ C.decls, decl.inst = none) (hdecl : C.decls[d]? = some decl)
    (hrefc : 0 < decl.refc) {sp p : ℕ} (ast : AstMachine) {w : Walked}
    (hw : AnyWalk (mozAstToIr C) R C.decls (.expr false decl.body) sp p w) :
    ∃ s s', enter (mozAstToIr C) d sp p ast = some s ∧
      Returns (mozAstToIr C) R s w.matched s' ∧ s'.current = w.stop ∧
      s'.ast = { ast with logs := ast.logs ++ w.logs } :=
  returns_of_runsAs hC hdecl hrefc ast
    (((mozAstToIr_walk_iff hC).2 hw).runs (mozAstToIr_lowered hC hinst))

/-- The run of a call that returns is a walk of the body. -/
theorem walk_of_returns (hC : ∀ decl ∈ C.decls, 0 < decl.refc → decl.body.implemented)
    (hinst : ∀ decl ∈ C.decls, decl.inst = none) (hdecl : C.decls[d]? = some decl)
    (hrefc : 0 < decl.refc) {sp p : ℕ} {ast : AstMachine} {matched : Bool} {s s' : State}
    (henter : enter (mozAstToIr C) d sp p ast = some s)
    (hreturns : Returns (mozAstToIr C) R s matched s') :
    ∃ w, AnyWalk (mozAstToIr C) R C.decls (.expr false decl.body) sp p w ∧
      w.matched = matched ∧ w.stop = s'.current ∧
      { ast with logs := ast.logs ++ w.logs } = s'.ast := by
  have hF := mozAstToIr_lowered hC hinst
  obtain ⟨entry, hentry, fail, next, stop, hplaced, -⟩ := mozAstToIr_placed hC hdecl hrefc
  have hs : s = { code := (mozAstToIr C).insts entry, current := p, sp := sp, ast := ast } := by
    rw [enter, hentry] at henter
    exact (Option.some.inj henter).symm
  subst hs
  obtain ⟨w, hw⟩ := exists_walk hF hreturns _ _ _ _ (.expr hplaced) rfl
  have hw' := (mozAstToIr_walk_iff hC).1 hw
  obtain ⟨t, t', ht, hreturns', hcurrent, hast⟩ :=
    returns_of_walk hC hinst hdecl hrefc ast hw'
  obtain rfl := Option.some.inj (henter.symm.trans ht)
  obtain ⟨rfl, hmatched⟩ := hreturns'.unique hreturns
  exact ⟨w, hw', hmatched, hcurrent.symm, hast.symm⟩

/-- The calls of a production that return are its walks. -/
theorem returns_iff_walk (hC : ∀ decl ∈ C.decls, 0 < decl.refc → decl.body.implemented)
    (hinst : ∀ decl ∈ C.decls, decl.inst = none) (hdecl : C.decls[d]? = some decl)
    (hrefc : 0 < decl.refc) {sp p q : ℕ} {ast ast' : AstMachine} {matched : Bool} :
    (∃ s s', enter (mozAstToIr C) d sp p ast = some s ∧
        Returns (mozAstToIr C) R s matched s' ∧ s'.current = q ∧ s'.ast = ast') ↔
      ∃ w, AnyWalk (mozAstToIr C) R C.decls (.expr false decl.body) sp p w ∧
        w.matched = matched ∧ w.stop = q ∧ { ast with logs := ast.logs ++ w.logs } = ast' := by
  constructor
  · rintro ⟨s, s', henter, hreturns, rfl, rfl⟩
    exact walk_of_returns hC hinst hdecl hrefc henter hreturns
  · rintro ⟨w, hw, rfl, rfl, rfl⟩
    exact returns_of_walk hC hinst hdecl hrefc ast hw

end Calls

/-- `A <- 'b' / 'a' A`. -/
def chainDecl : Decl := { body := .choice [.byte 98, .sequence [.byte 97, .invoke 0]] }

def chain : MozCompiler := { decls := [chainDecl] }

theorem returns_iff_walk_chain :
    (∃ s s', enter (mozAstToIr chain) 0 0 0 {} = some s ∧
        Returns (mozAstToIr chain) ((mozAstToIr chain).runtime [97, 98]) s true s' ∧
        s'.current = 2 ∧ s'.ast = {}) ↔
      ∃ w, AnyWalk (mozAstToIr chain) ((mozAstToIr chain).runtime [97, 98]) chain.decls
          (.expr false chainDecl.body) 0 0 w ∧ w.matched = true ∧ w.stop = 2 ∧
        { ({} : AstMachine) with logs := ({} : AstMachine).logs ++ w.logs } = {} := by
  have hdecl : chain.decls[0]? = some chainDecl := rfl
  exact returns_iff_walk (by decide) (by decide) hdecl Nat.one_pos

end Moz.Compiler
