import Moz.Compiler.WalkRuns

/-!
# Runs that find the stack full

An `IPStore` or an `IInvoke` without room has no result. `RunsFull` says of a form
that its code comes to such an instruction, whatever lies around it. It holds of a
form when it holds of the part that runs first, or of a later part after the walks
of the parts before it.
-/

namespace Moz.Compiler

open StateTransition Vm2

/-- The next instruction pushes what there is no room for. -/
def State.Full (s : State) : Prop :=
  ∃ x l, s.code = x :: l ∧ (x.op = .iPStore ∧ stackSize ≤ s.sp ∨
    (∃ d, x.op = .iInvoke d) ∧ stackSize < s.sp + fpMax)

def FillsUp (F : MozCompiler) (R : Runtime) (s : State) : Prop :=
  ∃ u, Reaches (step F R) s u ∧ u.Full

def RunsFull (F : MozCompiler) (R : Runtime) (form : Form) (sp p : ℕ) : Prop :=
  ∀ (l l' : List Ir) (fail : BlockId) (s : State), Laid F form l fail l' → s.code = l → s.sp = sp →
    s.current = p → FillsUp F R s

section Full

variable {F : MozCompiler} {R : Runtime} {s t : State} {l l' : List Ir} {fail : BlockId}

theorem State.Full.stuck (h : s.Full) : step F R s = none ∧ s.result = none := by
  obtain ⟨x, l, hcode, ⟨hop, hsp⟩ | ⟨⟨d, hop⟩, hsp⟩⟩ := h
  · have hstep := step_pstore (F := F) (R := R) ⟨x, hop, rfl, rfl⟩ hcode
    rw [if_neg (by omega)] at hstep
    refine ⟨hstep, ?_⟩
    unfold State.result
    rw [hcode]
    cases s.frames <;> simp [hop]
  · have hstep := step_invoke (F := F) (R := R) ⟨x, hop, rfl, rfl⟩ hcode
    simp only [if_neg (Nat.not_le_of_lt hsp), Option.bind_fun_none] at hstep
    refine ⟨hstep, ?_⟩
    unfold State.result
    rw [hcode]
    cases s.frames <;> simp [hop]

theorem FillsUp.after (hrun : Reaches (step F R) s t) (h : FillsUp F R t) : FillsUp F R s := by
  obtain ⟨u, hu, hfull⟩ := h
  exact ⟨u, hrun.trans hu, hfull⟩

theorem FillsUp.store (hl : Begins .iPStore fail l l') (hcode : s.code = l)
    (hsp : ¬ s.sp < stackSize) : FillsUp F R s := by
  obtain ⟨x, hop, -, rfl⟩ := hl
  exact ⟨s, .refl, x, l', hcode, .inl ⟨hop, Nat.le_of_not_lt hsp⟩⟩

theorem FillsUp.invoke {d : ℕ} (hl : Begins (.iInvoke d) fail l l') (hcode : s.code = l)
    (hsp : ¬ s.sp + fpMax ≤ stackSize) : FillsUp F R s := by
  obtain ⟨x, hop, -, rfl⟩ := hl
  exact ⟨s, .refl, x, l', hcode, .inr ⟨⟨d, hop⟩, Nat.lt_of_not_le hsp⟩⟩

end Full

namespace RunsFull

variable {F : MozCompiler} {R : Runtime} {sp p q d : ℕ} {hd : Bool} {e x y : Expr}
  {list : List Expr} {decl : Decl} {cells : List ℕ} {logs kept : List AstLog}

theorem noFrame (hsp : ¬ sp + fpMax ≤ stackSize) : RunsFull F R (.expr hd (.invoke d)) sp p := by
  rintro l l' fail s hlaid hcode rfl rfl
  cases laid_expr.1 hlaid with
  | one hop => cases hop
  | invoke hl => exact .invoke hl hcode hsp

theorem invoke (hF : Lowered F) (hdecl : F.decls[d]? = some decl) (hrefc : 0 < decl.refc)
    (hsp : sp + fpMax ≤ stackSize) (hbody : RunsFull F R (.expr false decl.body) (sp + fpMax) p) :
    RunsFull F R (.expr hd (.invoke d)) sp p := by
  rintro l l' fail s hlaid hcode rfl rfl
  cases laid_expr.1 hlaid with
  | one hop => cases hop
  | invoke hl =>
    obtain ⟨entry, hinst, bodyFail, next, stop, hplaced, -⟩ := hF.entry hdecl hrefc
    have hfull := hbody _ _ _ (s.invoked (F.insts entry) l' fail) (.expr hplaced) rfl rfl rfl
    exact hfull.after (.single (step_invoked hl hcode hdecl hinst hsp))

/-- A predicate stores `CURRENT` before its operand. -/
theorem guarded {head a bodyFail : BlockId} {l body stop : List Ir} {s : State} (hl : Jumps l head)
    (hstore : Begins .iPStore a (F.insts head) body) (hplaced : Placed F true e body bodyFail stop)
    (hcode : s.code = l)
    (h : s.sp < stackSize → RunsFull F R (.expr true e) (s.sp + 1) s.current) : FillsUp F R s := by
  by_cases hsp : s.sp < stackSize
  · have hfull := h hsp _ _ _ (s.guarded body) (.expr hplaced) rfl rfl rfl
    exact hfull.after (reaches_store hl hstore hcode hsp)
  · have hfull : FillsUp F R { s with code := F.insts head } := .store hstore rfl hsp
    exact hfull.after (.single (step_jump hl hcode))

theorem and (h : sp < stackSize → RunsFull F R (.expr true e) (sp + 1) p) :
    RunsFull F R (.expr hd (.and e)) sp p := by
  rintro l l' fail s hlaid hcode rfl rfl
  cases laid_expr.1 hlaid with
  | one hop => cases hop
  | and hl hstore hplaced => exact guarded hl hstore hplaced hcode h

theorem not (he : e.notOp = none) (h : sp < stackSize → RunsFull F R (.expr true e) (sp + 1) p) :
    RunsFull F R (.expr hd (.not e)) sp p := by
  rintro l l' fail s hlaid hcode rfl rfl
  cases laid_expr.1 hlaid with
  | one hop =>
    rw [Expr.op, he] at hop
    cases hop
  | not he hl hstore hplaced => exact guarded hl hstore hplaced hcode h

theorem option (he : e.optionOp { decls := [] } = none) (h : RunsFull F R (.expr hd e) sp p) :
    RunsFull F R (.expr hd (.option e)) sp p := by
  rintro l l' fail s hlaid hcode hsp hp
  cases laid_expr.1 hlaid with
  | one hop =>
    rw [Expr.op, Expr.optionOp_eq_none F he] at hop
    cases hop
  | option _ hplaced => exact h _ _ _ s (.expr hplaced) hcode hsp hp

theorem choice (h : RunsFull F R (.choice list) sp p) :
    RunsFull F R (.expr hd (.choice list)) sp p := by
  rintro l l' fail s hlaid hcode hsp hp
  cases laid_expr.1 hlaid with
  | one hop => cases hop
  | choice hl hplaced =>
    have hfull := h _ _ _ { s with code := _ } (.choice hplaced) rfl hsp hp
    exact hfull.after (.single (step_jump hl hcode))

theorem sequence (h : RunsFull F R (.sequence list) sp p) :
    RunsFull F R (.expr hd (.sequence list)) sp p := by
  rintro l l' fail s hlaid hcode hsp hp
  cases laid_expr.1 hlaid with
  | one hop => cases hop
  | sequence hplaced => exact h _ _ _ s (.sequence hplaced) hcode hsp hp

theorem repetition (he : Expr.repetitionOp { decls := [] } list = none)
    (h : RunsFull F R (.rounds hd list) sp p) : RunsFull F R (.expr hd (.repetition list)) sp p := by
  rintro l l' fail s hlaid hcode hsp hp
  cases laid_expr.1 hlaid with
  | one hop =>
    rw [Expr.op, Expr.repetitionOp_eq_none F he] at hop
    cases hop
  | repetition hop hplaced hstop hcur hbefore =>
    exact h _ _ fail s (.rounds ⟨hop, hplaced, _, _, hstop, hcur, hbefore⟩) hcode hsp hp

theorem alternative (h : RunsFull F R (.expr false x) sp p) :
    RunsFull F R (.choice (x :: list)) sp p := by
  rintro l l' fail s hlaid hcode hsp hp
  obtain ⟨bb, next, hplaced, rfl, rfl⟩ := laid_choice.1 hlaid
  cases hplaced with
  | last hplaced => exact h _ _ _ s (.expr hplaced) hcode hsp hp
  | cons hplaced => exact h _ _ _ s (.expr hplaced) hcode hsp hp

theorem alternativeNext (hx : RunsAs F R (.expr false x) sp p (.fail q cells logs))
    (h : RunsFull F R (.choice (y :: list)) (sp + cells.length) q) :
    RunsFull F R (.choice (x :: y :: list)) sp p := by
  rintro l l' fail s hlaid hcode rfl hp
  obtain ⟨bb, next, hplaced, rfl, rfl⟩ := laid_choice.1 hlaid
  cases hplaced with
  | @cons _ _ _ stop _ bb' _ _ hplaced hstop hrest =>
    have hfull := h _ _ _ (s.walked (.fail q cells logs) stop (F.insts bb')) (.choice hrest) rfl rfl rfl
    exact hfull.after (hx _ _ _ s (.expr hplaced) hcode rfl hp)

theorem head (h : RunsFull F R (.expr false x) sp p) : RunsFull F R (.sequence (x :: list)) sp p := by
  rintro l l' fail s hlaid hcode hsp hp
  cases laid_sequence.1 hlaid with
  | @cons _ _ _ _ stop bb _ hl hplaced hrest =>
    have hfull := h _ _ _ { s with code := F.insts bb } (.expr hplaced) rfl hsp hp
    exact hfull.after (.single (step_jump hl hcode))

theorem tail (hx : RunsAs F R (.expr false x) sp p (.ok q cells logs kept))
    (h : RunsFull F R (.sequence list) (sp + cells.length) q) :
    RunsFull F R (.sequence (x :: list)) sp p := by
  rintro l l' fail s hlaid hcode rfl hp
  cases laid_sequence.1 hlaid with
  | @cons _ _ _ _ stop bb _ hl hplaced hrest =>
    have hrun := hx _ _ _ { s with code := F.insts bb } (.expr hplaced) rfl rfl hp
    have hfull := h _ _ _ (s.walked (.ok q cells logs kept) stop (F.insts fail)) (.sequence hrest)
      rfl rfl rfl
    exact hfull.after (.head (step_jump hl hcode) hrun)

theorem rounds (h : RunsFull F R (.sequence list) sp p) : RunsFull F R (.rounds hd list) sp p := by
  rintro l l' fail s hlaid hcode hsp hp
  obtain ⟨stop, next, hloop, rfl⟩ := laid_rounds.1 hlaid
  exact h _ _ _ s (.sequence hloop.body) hcode hsp hp

theorem round (hlist : RunsAs F R (.sequence list) sp p (.ok q cells logs kept))
    (h : RunsFull F R (.rounds false list) (sp + cells.length) q) :
    RunsFull F R (.rounds false list) sp p := by
  rintro l l' fail s hlaid hcode rfl hp
  obtain ⟨stop, next, hloop, rfl⟩ := laid_rounds.1 hlaid
  have hrun := hlist _ _ _ s (.sequence hloop.body) hcode rfl hp
  obtain ⟨cur, before, hback, hcur, hbefore⟩ := hloop.back
  have hnil : before = [] := hbefore
  rw [hnil, List.nil_append] at hcur
  have hjump := step_jump (F := F) (R := R) (s := s.walked (.ok q cells logs kept) stop (F.insts next))
    hback rfl
  rw [hcur] at hjump
  have hfull := h _ _ fail (s.walked (.ok q cells logs kept) l (F.insts next)) (.rounds hloop)
    rfl rfl rfl
  exact hfull.after (hrun.tail hjump)

theorem roundStore (hlist : RunsAs F R (.sequence list) sp p (.ok q cells logs kept))
    (h : sp + cells.length < stackSize →
      RunsFull F R (.rounds true list) (sp + (q :: cells).length) q) :
    RunsFull F R (.rounds true list) sp p := by
  rintro l l' fail s hlaid hcode rfl hp
  obtain ⟨stop, next, hloop, rfl⟩ := laid_rounds.1 hlaid
  have hrun := hlist _ _ _ s (.sequence hloop.body) hcode rfl hp
  obtain ⟨cur, before, hback, hcur, hbefore⟩ := hloop.back
  obtain ⟨a, store, hop, hfail, rfl⟩ : ∃ a, Begins .iPStore a before [] := hbefore
  have hjump := step_jump (F := F) (R := R) (s := s.walked (.ok q cells logs kept) stop (F.insts next))
    hback rfl
  rw [hcur] at hjump
  by_cases hsp : s.sp + cells.length < stackSize
  · have hpush : step F R { s.walked (.ok q cells logs kept) stop (F.insts next) with
        code := [store] ++ l } = some (s.walked (.ok q (q :: cells) logs kept) l (F.insts next)) := by
      rw [step_pstore (l := [store] ++ l) ⟨store, hop, hfail, rfl⟩ rfl]
      exact if_pos hsp
    have hfull := h hsp _ _ fail (s.walked (.ok q (q :: cells) logs kept) l (F.insts next))
      (.rounds hloop) rfl rfl rfl
    exact hfull.after ((hrun.tail hjump).tail hpush)
  · have hfull : FillsUp F R { s.walked (.ok q cells logs kept) stop (F.insts next) with
        code := [store] ++ l } := .store (l := [store] ++ l) ⟨store, hop, hfail, rfl⟩ rfl hsp
    exact hfull.after (hrun.tail hjump)

end RunsFull

end Moz.Compiler
