import Moz.Compiler.CleanWalks
import Moz.Compiler.Overflow
import Moz.Compiler.Pools

/-!
# Grammars whose walks are clean

Whether the blocks of an expression bring back what they have to can be seen on the
expression: `Expr.habits` says what is common to all walks of an expression, without
looking into the productions it calls. A grammar is predictive if by its habits no
attempt that fails has moved, and no predicate finds a foreign cell. The calls of
its productions have the results of the parsing expressions, all of them and no
others.
-/

namespace Moz.Compiler

open StateTransition Vm2
open Peg (Exp Derives)

structure Habits where
  /-- No walk fails. -/
  total : Bool := false
  /-- A match ends where it began. -/
  still : Bool := false
  /-- So does a failure. -/
  back : Bool := true
  /-- A match leaves no cells on the stack. -/
  level : Bool := true
  /-- Neither does a failure. -/
  levelFail : Bool := true
  /-- Nothing has to be brought back within the form. -/
  clean : Bool := true
  deriving DecidableEq, Repr

namespace Habits

def and (A : Habits) : Habits where
  total := A.total
  still := true
  back := A.back
  level := A.level
  levelFail := A.total
  clean := A.clean && A.level

def not (A : Habits) : Habits where
  still := true
  back := A.still
  level := A.levelFail
  levelFail := false
  clean := A.clean && A.levelFail

def option (A : Habits) : Habits where
  total := true
  still := A.still && A.back
  level := A.level && A.levelFail
  clean := A.clean && A.back

def seq (A B : Habits) : Habits where
  total := A.total && B.total
  still := A.still && B.still
  back := A.back && (B.total || A.still && B.back)
  level := A.level && B.level
  levelFail := A.levelFail && (B.total || A.level && B.levelFail)
  clean := A.clean && B.clean

def choice (A B : Habits) : Habits where
  total := A.total || B.total
  still := A.still && (A.total || B.still)
  back := A.total || B.back
  level := A.level && (A.total || A.levelFail && B.level)
  levelFail := A.total || A.levelFail && B.levelFail
  clean := A.clean && A.back && B.clean

/-- `hd` as for `Placed`: a loop block with an `IPStore` leaves a cell a round. -/
def rounds (hd : Bool) (A : Habits) : Habits where
  total := true
  level := !hd && A.level && A.levelFail
  clean := A.clean && A.back

end Habits

mutual

def Expr.habits (hd : Bool) : Expr → Habits
  | .empty | .tcapture | .tpush | .tpop _ | .tnew | .ttag _ => { total := true, still := true }
  | .invoke _ | .any | .byte _ | .str _ | .set _ | .todo _ => {}
  | .fail => { still := true }
  | .and expr => (expr.habits true).and
  | .not expr => if expr.notOp.isSome then { still := true } else (expr.habits true).not
  | .option expr =>
    if (expr.optionOp { decls := [] }).isSome then { total := true } else (expr.habits hd).option
  | .choice list => habitsChoice list
  | .sequence list => habitsSequence list
  | .repetition list =>
    if (Expr.repetitionOp { decls := [] } list).isSome then { total := true }
    else (habitsSequence list).rounds hd

def habitsSequence : List Expr → Habits
  | [] => { total := true, still := true }
  | x :: list => (x.habits false).seq (habitsSequence list)

def habitsChoice : List Expr → Habits
  | [] => {}
  | [x] => x.habits false
  | x :: y :: list => (x.habits false).choice (habitsChoice (y :: list))

end

def Form.habits : Form → Habits
  | .expr hd e => e.habits hd
  | .sequence list => habitsSequence list
  | .choice list => habitsChoice list
  | .rounds hd list => (habitsSequence list).rounds hd

/-- Every production that is referenced is clean by its habits. -/
def predictive (decls : List Decl) : Bool :=
  decls.all fun decl => decl.refc == 0 || (decl.body.habits false).clean

theorem predictive_decl {decls : List Decl} (h : predictive decls) {d : ℕ} {decl : Decl}
    (hdecl : decls[d]? = some decl) (hrefc : 0 < decl.refc) : (decl.body.habits false).clean := by
  have hmem := List.all_eq_true.1 h decl (List.mem_of_getElem? hdecl)
  simpa [Nat.ne_of_gt hrefc] using hmem

/-- A walk from `p` that ends like this has the habits. -/
def Habits.Holds (H : Habits) (p : ℕ) : Walked → Prop
  | .ok q cells _ _ => (H.still → q = p) ∧ (H.level → cells = [])
  | .fail q cells _ => H.total = false ∧ (H.back → q = p) ∧ (H.levelFail → cells = [])

namespace Habits.Holds

variable {A B : Habits} {hd : Bool} {p q t : ℕ} {cells cells' : List ℕ} {logs kept : List AstLog}
  {w : Walked}

/-- The cell of a predicate is on top when its body leaves no cells. -/
theorem top (hcells : cells = []) (htop : cells ++ [p] = t :: cells') : t = p ∧ cells' = [] := by
  subst hcells
  cases htop
  exact ⟨rfl, rfl⟩

theorem and (h : A.Holds p (.ok q cells logs kept)) (hclean : A.and.clean)
    (htop : cells ++ [p] = t :: cells') : t = p ∧ A.and.Holds p (.ok t cells' logs kept) := by
  have hlevel : A.level := (Bool.and_eq_true _ _ ▸ hclean).2
  obtain ⟨rfl, rfl⟩ := top (h.2 hlevel) htop
  exact ⟨rfl, fun _ => rfl, fun _ => rfl⟩

theorem andFail (h : A.Holds p (.fail q cells logs)) :
    A.and.Holds p (.fail q (cells ++ [p]) logs) := by
  refine ⟨h.1, h.2.1, fun htotal => ?_⟩
  rw [Habits.and, h.1] at htotal
  cases htotal

theorem not (h : A.Holds p (.fail q cells logs)) (hclean : A.not.clean)
    (htop : cells ++ [p] = t :: cells') : t = p ∧ A.not.Holds p (.ok t cells' logs []) := by
  have hlevel : A.levelFail := (Bool.and_eq_true _ _ ▸ hclean).2
  obtain ⟨rfl, rfl⟩ := top (h.2.2 hlevel) htop
  exact ⟨rfl, fun _ => rfl, fun _ => rfl⟩

theorem notFail (h : A.Holds p (.ok q cells logs kept)) :
    A.not.Holds p (.fail q (cells ++ [p]) logs) :=
  ⟨rfl, h.1, fun hlevel => by cases hlevel⟩

theorem option (h : A.Holds p (.ok q cells logs kept)) :
    A.option.Holds p (.ok q cells logs kept) := by
  refine ⟨fun hstill => ?_, fun hlevel => ?_⟩
  · rw [Habits.option, Bool.and_eq_true] at hstill
    exact h.1 hstill.1
  · rw [Habits.option, Bool.and_eq_true] at hlevel
    exact h.2 hlevel.1

theorem optionNone (h : A.Holds p (.fail q cells logs)) (hclean : A.option.clean) :
    q = p ∧ A.option.Holds p (.ok q cells logs []) := by
  rw [Habits.option, Bool.and_eq_true] at hclean
  have hq := h.2.1 hclean.2
  refine ⟨hq, fun _ => hq, fun hlevel => ?_⟩
  rw [Habits.option, Bool.and_eq_true] at hlevel
  exact h.2.2 hlevel.2

theorem seq (hx : A.Holds p (.ok q cells logs kept)) (h : B.Holds q w) :
    (A.seq B).Holds p (w.after cells logs kept) := by
  obtain ⟨hstill, hlevel⟩ := hx
  cases w with
  | ok stop cells' logs' kept' =>
    obtain ⟨hstill', hlevel'⟩ := h
    refine ⟨fun hs => ?_, fun hl => ?_⟩
    · rw [Habits.seq, Bool.and_eq_true] at hs
      exact (hstill' hs.2).trans (hstill hs.1)
    · rw [Habits.seq, Bool.and_eq_true] at hl
      rw [hlevel hl.1, hlevel' hl.2, List.append_nil]
  | fail stop cells' logs' =>
    obtain ⟨htotal, hback, hlevel'⟩ := h
    refine ⟨?_, fun hs => ?_, fun hl => ?_⟩
    · rw [Habits.seq, htotal, Bool.and_false]
    · simp only [Habits.seq, htotal, Bool.false_or, Bool.and_eq_true] at hs
      exact (hback hs.2.2).trans (hstill hs.2.1)
    · simp only [Habits.seq, htotal, Bool.false_or, Bool.and_eq_true] at hl
      rw [hlevel hl.2.1, hlevel' hl.2.2, List.append_nil]

theorem seqFail (hx : A.Holds p (.fail q cells logs)) :
    (A.seq B).Holds p (.fail q cells logs) := by
  obtain ⟨htotal, hback, hlevel⟩ := hx
  refine ⟨?_, fun hs => ?_, fun hl => ?_⟩
  · rw [Habits.seq, htotal, Bool.false_and]
  · rw [Habits.seq, Bool.and_eq_true] at hs
    exact hback hs.1
  · rw [Habits.seq, Bool.and_eq_true] at hl
    exact hlevel hl.1

theorem choice (hx : A.Holds p (.ok q cells logs kept)) :
    (A.choice B).Holds p (.ok q cells logs kept) := by
  refine ⟨fun hs => ?_, fun hl => ?_⟩
  · rw [Habits.choice, Bool.and_eq_true] at hs
    exact hx.1 hs.1
  · rw [Habits.choice, Bool.and_eq_true] at hl
    exact hx.2 hl.1

/-- An alternative that fails has come back, and the next one begins there. -/
theorem choiceNext (hx : A.Holds p (.fail q cells logs)) (hclean : (A.choice B).clean)
    (h : B.Holds q w) : (A.choice B).Holds p (w.after cells logs []) := by
  obtain ⟨htotal, hback, hlevel⟩ := hx
  simp only [Habits.choice, Bool.and_eq_true] at hclean
  obtain rfl := hback hclean.1.2
  cases w with
  | ok stop cells' logs' kept' =>
    refine ⟨fun hs => ?_, fun hl => ?_⟩
    · simp only [Habits.choice, htotal, Bool.false_or, Bool.and_eq_true] at hs
      exact h.1 hs.2
    · simp only [Habits.choice, htotal, Bool.false_or, Bool.and_eq_true] at hl
      rw [hlevel hl.2.1, h.2 hl.2.2, List.append_nil]
  | fail stop cells' logs' =>
    refine ⟨?_, fun hs => ?_, fun hl => ?_⟩
    · rw [Habits.choice, htotal, h.1, Bool.or_false]
    · simp only [Habits.choice, htotal, Bool.false_or] at hs
      exact h.2.1 hs
    · simp only [Habits.choice, htotal, Bool.false_or, Bool.and_eq_true] at hl
      rw [hlevel hl.1, h.2.2 hl.2, List.append_nil]

theorem stop (h : A.Holds p (.fail q cells logs)) (hclean : (A.rounds hd).clean) :
    q = p ∧ (A.rounds hd).Holds p (.ok q cells logs []) := by
  rw [Habits.rounds, Bool.and_eq_true] at hclean
  have hq := h.2.1 hclean.2
  refine ⟨hq, fun _ => hq, fun hlevel => ?_⟩
  rw [Habits.rounds, Bool.and_eq_true] at hlevel
  exact h.2.2 hlevel.2

theorem round (hx : A.Holds p (.ok q cells logs kept)) (h : (A.rounds false).Holds q w) :
    (A.rounds false).Holds p (w.after cells logs kept) := by
  cases w with
  | ok stop cells' logs' kept' =>
    refine ⟨fun hs => (by cases hs), fun hl => ?_⟩
    have hlevel := h.2 hl
    simp only [Habits.rounds, Bool.and_eq_true] at hl
    rw [hx.2 hl.1.2, hlevel, List.append_nil]
  | fail => cases h.1

theorem roundStore (h : (A.rounds true).Holds q w) :
    (A.rounds true).Holds p (w.after (q :: cells) logs kept) := by
  cases w with
  | ok => exact ⟨fun hs => (by cases hs), fun hl => by cases hl⟩
  | fail => cases h.1

end Habits.Holds

section Leaves

variable {F : MozCompiler} {R : Runtime} {e : Expr} {hd : Bool} {p q : ℕ}



theorem holds_of_next (h : (F.reading R).effect e p = .next q) :
    (e.habits hd).Holds p (.ok q [] [] []) := by
  obtain ⟨op, hop, heffect⟩ := reading_effect h
  cases e with
  | any | byte | str | set => exact ⟨fun hs => (by cases hs), fun _ => rfl⟩
  | tcapture | tpush | tpop | tnew | ttag =>
    cases hop
    cases heffect
  | empty | invoke | and | choice | fail | sequence | todo => cases hop
  | not x =>
    cases x with
    | any =>
      cases hop
      refine ⟨fun _ => ?_, fun _ => rfl⟩
      rw [Op.effect, reject] at heffect
      split at heffect
      · cases heffect
      · cases heffect
        rfl
      · cases heffect
    | _ => cases hop
  | option x =>
    cases x with
    | byte | str | set => exact ⟨fun hs => (by cases hs), fun _ => rfl⟩
    | _ => cases hop
  | repetition list =>
    obtain _ | ⟨x, _ | ⟨y, list⟩⟩ := list
    · cases hop
    · cases x with
      | any | byte | str | set => exact ⟨fun hs => (by cases hs), fun _ => rfl⟩
      | _ => cases hop
    · cases hop

theorem holds_of_fail (h : (F.reading R).effect e p = .fail) :
    (e.habits hd).Holds p (.fail p [] []) := by
  obtain ⟨op, hop, heffect⟩ := reading_fail h
  cases e with
  | any | byte | str | set => exact ⟨rfl, fun _ => rfl, fun _ => rfl⟩
  | tcapture | tpush | tpop | tnew | ttag =>
    cases hop
    cases heffect
  | empty | invoke | and | choice | fail | sequence | todo => cases hop
  | not x =>
    cases x with
    | any => exact ⟨rfl, fun _ => rfl, fun _ => rfl⟩
    | _ => cases hop
  | option x =>
    cases x with
    | byte | str | set =>
      cases hop
      exact absurd heffect moved_ne_fail
    | _ => cases hop
  | repetition list =>
    obtain _ | ⟨x, _ | ⟨y, list⟩⟩ := list
    · cases hop
    · cases x with
      | any | byte | str | set =>
        cases hop
        exact absurd heffect moved_ne_fail
      | _ => cases hop
    · cases hop

end Leaves

section Blocks

variable {e x y : Expr} {list : List Expr} {hd : Bool}

theorem habits_not (he : e.notOp = none) : (Expr.not e).habits hd = (e.habits true).not := by
  rw [Expr.habits, he]
  rfl

theorem habits_option (he : e.optionOp { decls := [] } = none) :
    (Expr.option e).habits hd = (e.habits hd).option := by
  rw [Expr.habits, he]
  rfl

theorem habits_repetition (he : Expr.repetitionOp { decls := [] } list = none) :
    (Expr.repetition list).habits hd = (habitsSequence list).rounds hd := by
  rw [Expr.habits, he]
  rfl

theorem clean_seq {A B : Habits} : (A.seq B).clean ↔ A.clean ∧ B.clean := by
  rw [Habits.seq, Bool.and_eq_true]

theorem clean_choice {A B : Habits} : (A.choice B).clean ↔ (A.clean ∧ A.back) ∧ B.clean := by
  simp only [Habits.choice, Bool.and_eq_true]

theorem clean_of_and_eq_true {a b : Bool} (h : (a && b) = true) : a = true :=
  (Bool.and_eq_true _ _ ▸ h).1

theorem clean_alternative (h : (habitsChoice (x :: list)).clean) : (x.habits false).clean := by
  cases list with
  | nil => exact h
  | cons y list => exact (clean_choice.1 h).1.1

end Blocks

section Walks

variable {F : MozCompiler} {R : Runtime} {decls : List Decl}
  {resume : ℕ → ℕ → List AstLog → Prop} {form : Form} {sp p : ℕ} {w : Walked}

/-- The walks of a predictive grammar have the habits, and they are clean. -/
theorem Walk.clean (hdecls : predictive decls) (h : Walk (F.reading R) decls resume form sp p w)
    (hform : form.habits.clean) :
    Walk (F.reading R) decls Clean form sp p w ∧ form.habits.Holds p w := by
  induction h with
  | empty => exact ⟨.empty, fun _ => rfl, fun _ => rfl⟩
  | one heffect => exact ⟨.one heffect, holds_of_next heffect⟩
  | oneFail heffect => exact ⟨.oneFail heffect, holds_of_fail heffect⟩
  | log hentry => exact ⟨.log hentry, fun _ => rfl, fun _ => rfl⟩
  | fail => exact ⟨.fail, rfl, fun _ => rfl, fun _ => rfl⟩
  | invoke hdecl hrefc hsp _ ih =>
    obtain ⟨hwalk, -⟩ := ih (predictive_decl hdecls hdecl hrefc)
    exact ⟨.invoke hdecl hrefc hsp hwalk, fun hs => (by cases hs), fun _ => rfl⟩
  | invokeFail hdecl hrefc hsp _ ih =>
    obtain ⟨hwalk, -⟩ := ih (predictive_decl hdecls hdecl hrefc)
    exact ⟨.invokeFail hdecl hrefc hsp hwalk, rfl, fun _ => rfl, fun _ => rfl⟩
  | and hsp _ htop _ ih =>
    obtain ⟨hwalk, hholds⟩ := ih (clean_of_and_eq_true hform)
    obtain ⟨ht, hand⟩ := hholds.and hform htop
    exact ⟨.and hsp hwalk htop ht, hand⟩
  | andFail hsp _ ih =>
    obtain ⟨hwalk, hholds⟩ := ih (clean_of_and_eq_true hform)
    exact ⟨.andFail hsp hwalk, hholds.andFail⟩
  | not he hsp _ htop _ ih =>
    rw [Form.habits, habits_not he] at hform ⊢
    obtain ⟨hwalk, hholds⟩ := ih (clean_of_and_eq_true hform)
    obtain ⟨ht, hnot⟩ := hholds.not hform htop
    exact ⟨.not he hsp hwalk htop ht, hnot⟩
  | notFail he hsp _ ih =>
    rw [Form.habits, habits_not he] at hform ⊢
    obtain ⟨hwalk, hholds⟩ := ih (clean_of_and_eq_true hform)
    exact ⟨.notFail he hsp hwalk, hholds.notFail⟩
  | option he _ ih =>
    rw [Form.habits, habits_option he] at hform ⊢
    obtain ⟨hwalk, hholds⟩ := ih (clean_of_and_eq_true hform)
    exact ⟨.option he hwalk, hholds.option⟩
  | optionNone he _ _ ih =>
    rw [Form.habits, habits_option he] at hform ⊢
    obtain ⟨hwalk, hholds⟩ := ih (clean_of_and_eq_true hform)
    obtain ⟨hq, hoption⟩ := hholds.optionNone hform
    exact ⟨.optionNone he hwalk hq, hoption⟩
  | choice _ ih =>
    obtain ⟨hwalk, hholds⟩ := ih hform
    exact ⟨.choice hwalk, hholds⟩
  | sequence _ ih =>
    obtain ⟨hwalk, hholds⟩ := ih hform
    exact ⟨.sequence hwalk, hholds⟩
  | repetition he _ ih =>
    rw [Form.habits, habits_repetition he] at hform ⊢
    obtain ⟨hwalk, hholds⟩ := ih hform
    exact ⟨.repetition he hwalk, hholds⟩
  | @alternative x list _ _ _ _ _ _ _ ih =>
    obtain ⟨hwalk, hholds⟩ := ih (clean_alternative hform)
    refine ⟨.alternative hwalk, ?_⟩
    cases list with
    | nil => exact hholds
    | cons y list => exact hholds.choice
  | alternativeLast _ ih =>
    obtain ⟨hwalk, hholds⟩ := ih hform
    exact ⟨.alternativeLast hwalk, hholds⟩
  | alternativeNext _ _ _ ihx ih =>
    obtain ⟨⟨hx, hback⟩, hlist⟩ := clean_choice.1 hform
    obtain ⟨hwalkx, hholdsx⟩ := ihx hx
    obtain ⟨hwalk, hholds⟩ := ih hlist
    exact ⟨.alternativeNext hwalkx (hholdsx.2.1 hback) hwalk, hholdsx.choiceNext hform hholds⟩
  | nil => exact ⟨.nil, fun _ => rfl, fun _ => rfl⟩
  | cons _ _ ihx ih =>
    obtain ⟨hx, hlist⟩ := clean_seq.1 hform
    obtain ⟨hwalkx, hholdsx⟩ := ihx hx
    obtain ⟨hwalk, hholds⟩ := ih hlist
    exact ⟨.cons hwalkx hwalk, hholdsx.seq hholds⟩
  | consFail _ ih =>
    obtain ⟨hwalk, hholds⟩ := ih (clean_seq.1 hform).1
    exact ⟨.consFail hwalk, hholds.seqFail⟩
  | stop _ _ ih =>
    obtain ⟨hwalk, hholds⟩ := ih (clean_of_and_eq_true hform)
    obtain ⟨hq, hstop⟩ := hholds.stop hform
    exact ⟨.stop hwalk hq, hstop⟩
  | round _ _ ihx ih =>
    obtain ⟨hwalkx, hholdsx⟩ := ihx (clean_of_and_eq_true hform)
    obtain ⟨hwalk, hholds⟩ := ih hform
    exact ⟨.round hwalkx hwalk, hholdsx.round hholds⟩
  | roundStore _ hsp _ ihx ih =>
    obtain ⟨hwalkx, -⟩ := ihx (clean_of_and_eq_true hform)
    obtain ⟨hwalk, hholds⟩ := ih hform
    exact ⟨.roundStore hwalkx hsp hwalk, hholds.roundStore⟩

end Walks

/-- The code of the form gets from `p` to this result from any stack height, unless the stack is
full before. -/
def HasRun (F : MozCompiler) (R : Runtime) (form : Form) (p : ℕ) (o : Option ℕ) : Prop :=
  ∃ w : Walked, w.result = o ∧ form.habits.Holds p w ∧
    ∀ sp, RunsAs F R form sp p w ∨ RunsFull F R form sp p

namespace HasRun

variable {F : MozCompiler} {R : Runtime} {form : Form} {p q : ℕ} {o : Option ℕ} {hd : Bool}
  {e x y : Expr} {list : List Expr}

theorem ok (h : HasRun F R form p (some q)) :
    ∃ (cells : List ℕ) (logs kept : List AstLog), form.habits.Holds p (.ok q cells logs kept) ∧
      ∀ sp, RunsAs F R form sp p (.ok q cells logs kept) ∨ RunsFull F R form sp p := by
  obtain ⟨w, hw, hholds, hrun⟩ := h
  cases w with
  | ok stop cells logs kept =>
    cases hw
    exact ⟨cells, logs, kept, hholds, hrun⟩
  | fail => cases hw

theorem failed (h : HasRun F R form p none) :
    ∃ (q : ℕ) (cells : List ℕ) (logs : List AstLog), form.habits.Holds p (.fail q cells logs) ∧
      ∀ sp, RunsAs F R form sp p (.fail q cells logs) ∨ RunsFull F R form sp p := by
  obtain ⟨w, hw, hholds, hrun⟩ := h
  cases w with
  | ok => cases hw
  | fail stop cells logs => exact ⟨stop, cells, logs, hholds, hrun⟩

theorem invoke {d : ℕ} {decl : Decl} (hF : Lowered F) (hdecl : F.decls[d]? = some decl)
    (hrefc : 0 < decl.refc) (h : HasRun F R (.expr false decl.body) p o) :
    HasRun F R (.expr hd (.invoke d)) p o := by
  cases o with
  | some q =>
    obtain ⟨cells, logs, kept, -, hrun⟩ := h.ok
    refine ⟨.ok q [] logs kept, rfl, ⟨fun hs => (by cases hs), fun _ => rfl⟩, fun sp => ?_⟩
    by_cases hsp : sp + fpMax ≤ stackSize
    · exact (hrun (sp + fpMax)).imp (.invoke hF hdecl hrefc hsp) (.invoke hF hdecl hrefc hsp)
    · exact .inr (.noFrame hsp)
  | none =>
    obtain ⟨q, cells, logs, -, hrun⟩ := h.failed
    refine ⟨.fail p [] logs, rfl, ⟨rfl, fun _ => rfl, fun _ => rfl⟩, fun sp => ?_⟩
    by_cases hsp : sp + fpMax ≤ stackSize
    · exact (hrun (sp + fpMax)).imp (.invokeFail hF hdecl hrefc hsp) (.invoke hF hdecl hrefc hsp)
    · exact .inr (.noFrame hsp)

theorem and (hclean : (e.habits true).and.clean) (h : HasRun F R (.expr true e) p (some q)) :
    HasRun F R (.expr hd (.and e)) p (some p) := by
  obtain ⟨cells, logs, kept, hholds, hrun⟩ := h.ok
  have hlevel : (e.habits true).level := (Bool.and_eq_true _ _ ▸ hclean).2
  obtain rfl := hholds.2 hlevel
  refine ⟨.ok p [] logs kept, rfl, ⟨fun _ => rfl, fun _ => rfl⟩, fun sp => ?_⟩
  by_cases hsp : sp < stackSize
  · exact (hrun (sp + 1)).imp (fun h => .and hsp h rfl) fun h => .and fun _ => h
  · exact .inr (.and fun hroom => absurd hroom hsp)

theorem andFail (h : HasRun F R (.expr true e) p none) : HasRun F R (.expr hd (.and e)) p none := by
  obtain ⟨q, cells, logs, hholds, hrun⟩ := h.failed
  refine ⟨.fail q (cells ++ [p]) logs, rfl, hholds.andFail, fun sp => ?_⟩
  by_cases hsp : sp < stackSize
  · exact (hrun (sp + 1)).imp (.andFail hsp) fun h => .and fun _ => h
  · exact .inr (.and fun hroom => absurd hroom hsp)

theorem not (he : e.notOp = none) (hclean : (e.habits true).not.clean)
    (h : HasRun F R (.expr true e) p none) : HasRun F R (.expr hd (.not e)) p (some p) := by
  obtain ⟨q, cells, logs, hholds, hrun⟩ := h.failed
  have hlevel : (e.habits true).levelFail := (Bool.and_eq_true _ _ ▸ hclean).2
  obtain rfl := hholds.2.2 hlevel
  refine ⟨.ok p [] logs [], rfl, ⟨fun _ => rfl, fun _ => rfl⟩, fun sp => ?_⟩
  by_cases hsp : sp < stackSize
  · exact (hrun (sp + 1)).imp (fun h => .not he hsp h rfl) fun h => .not he fun _ => h
  · exact .inr (.not he fun hroom => absurd hroom hsp)

theorem notFail (he : e.notOp = none) (h : HasRun F R (.expr true e) p (some q)) :
    HasRun F R (.expr hd (.not e)) p none := by
  obtain ⟨cells, logs, kept, hholds, hrun⟩ := h.ok
  refine ⟨.fail q (cells ++ [p]) logs, rfl, ?_, fun sp => ?_⟩
  · rw [Form.habits, habits_not he]
    exact hholds.notFail
  · by_cases hsp : sp < stackSize
    · exact (hrun (sp + 1)).imp (.notFail he hsp) fun h => .not he fun _ => h
    · exact .inr (.not he fun hroom => absurd hroom hsp)

theorem option (he : e.optionOp { decls := [] } = none) (h : HasRun F R (.expr hd e) p (some q)) :
    HasRun F R (.expr hd (.option e)) p (some q) := by
  obtain ⟨cells, logs, kept, hholds, hrun⟩ := h.ok
  refine ⟨.ok q cells logs kept, rfl, ?_, fun sp => (hrun sp).imp (.option he) (.option he)⟩
  rw [Form.habits, habits_option he]
  exact hholds.option

theorem optionNone (he : e.optionOp { decls := [] } = none) (hclean : (e.habits hd).option.clean)
    (h : HasRun F R (.expr hd e) p none) : HasRun F R (.expr hd (.option e)) p (some p) := by
  obtain ⟨q, cells, logs, hholds, hrun⟩ := h.failed
  obtain ⟨rfl, hoption⟩ := hholds.optionNone hclean
  refine ⟨.ok q cells logs [], rfl, ?_, fun sp => (hrun sp).imp (.optionNone he) (.option he)⟩
  rw [Form.habits, habits_option he]
  exact hoption

theorem ofChoice (h : HasRun F R (.choice list) p o) :
    HasRun F R (.expr hd (.choice list)) p o := by
  obtain ⟨w, hw, hholds, hrun⟩ := h
  exact ⟨w, hw, hholds, fun sp => (hrun sp).imp .choice .choice⟩

theorem ofSequence (h : HasRun F R (.sequence list) p o) :
    HasRun F R (.expr hd (.sequence list)) p o := by
  obtain ⟨w, hw, hholds, hrun⟩ := h
  exact ⟨w, hw, hholds, fun sp => (hrun sp).imp .sequence .sequence⟩

theorem ofRounds (he : Expr.repetitionOp { decls := [] } list = none)
    (h : HasRun F R (.rounds hd list) p o) : HasRun F R (.expr hd (.repetition list)) p o := by
  obtain ⟨w, hw, hholds, hrun⟩ := h
  refine ⟨w, hw, ?_, fun sp => (hrun sp).imp (.repetition he) (.repetition he)⟩
  rw [Form.habits, habits_repetition he]
  exact hholds

theorem alternative (h : HasRun F R (.expr false x) p (some q)) :
    HasRun F R (.choice (x :: list)) p (some q) := by
  obtain ⟨cells, logs, kept, hholds, hrun⟩ := h.ok
  refine ⟨.ok q cells logs kept, rfl, ?_, fun sp => (hrun sp).imp .alternative .alternative⟩
  cases list with
  | nil => exact hholds
  | cons y list => exact hholds.choice

theorem alternativeLast (h : HasRun F R (.expr false x) p none) :
    HasRun F R (.choice [x]) p none := by
  obtain ⟨q, cells, logs, hholds, hrun⟩ := h.failed
  exact ⟨.fail q cells logs, rfl, hholds, fun sp => (hrun sp).imp .alternativeLast .alternative⟩

theorem alternativeNext (hclean : (habitsChoice (x :: y :: list)).clean)
    (hx : HasRun F R (.expr false x) p none) (h : HasRun F R (.choice (y :: list)) p o) :
    HasRun F R (.choice (x :: y :: list)) p o := by
  obtain ⟨q, cells, logs, hholdsx, hrunx⟩ := hx.failed
  obtain ⟨w, hw, hholds, hrun⟩ := h
  obtain rfl := hholdsx.2.1 (clean_choice.1 hclean).1.2
  refine ⟨w.after cells logs [], by rw [Walked.result_after, hw], hholdsx.choiceNext hclean hholds,
    fun sp => ?_⟩
  obtain hx | hfull := hrunx sp
  · exact (hrun (sp + cells.length)).imp (.alternativeNext hx) (.alternativeNext hx)
  · exact .inr (.alternative hfull)

theorem nil : HasRun F R (.sequence []) p (some p) :=
  ⟨.ok p [] [] [], rfl, ⟨fun _ => rfl, fun _ => rfl⟩, fun _ => .inl .nil⟩

theorem cons (hx : HasRun F R (.expr false x) p (some q)) (h : HasRun F R (.sequence list) q o) :
    HasRun F R (.sequence (x :: list)) p o := by
  obtain ⟨cells, logs, kept, hholdsx, hrunx⟩ := hx.ok
  obtain ⟨w, hw, hholds, hrun⟩ := h
  refine ⟨w.after cells logs kept, by rw [Walked.result_after, hw], hholdsx.seq hholds,
    fun sp => ?_⟩
  obtain hx | hfull := hrunx sp
  · exact (hrun (sp + cells.length)).imp (.cons hx) (.tail hx)
  · exact .inr (.head hfull)

theorem consFail (hx : HasRun F R (.expr false x) p none) :
    HasRun F R (.sequence (x :: list)) p none := by
  obtain ⟨q, cells, logs, hholds, hrun⟩ := hx.failed
  exact ⟨.fail q cells logs, rfl, hholds.seqFail, fun sp => (hrun sp).imp .consFail .head⟩

theorem stop (hclean : ((habitsSequence list).rounds hd).clean)
    (h : HasRun F R (.sequence list) p none) : HasRun F R (.rounds hd list) p (some p) := by
  obtain ⟨q, cells, logs, hholds, hrun⟩ := h.failed
  obtain ⟨rfl, hstop⟩ := hholds.stop hclean
  exact ⟨.ok q cells logs [], rfl, hstop, fun sp => (hrun sp).imp .stop .rounds⟩

theorem round (hx : HasRun F R (.sequence list) p (some q)) (h : HasRun F R (.rounds hd list) q o) :
    HasRun F R (.rounds hd list) p o := by
  obtain ⟨cells, logs, kept, hholdsx, hrunx⟩ := hx.ok
  obtain ⟨w, hw, hholds, hrun⟩ := h
  cases hd with
  | false =>
    refine ⟨w.after cells logs kept, by rw [Walked.result_after, hw], hholdsx.round hholds,
      fun sp => ?_⟩
    obtain hx | hfull := hrunx sp
    · exact (hrun (sp + cells.length)).imp (.round hx) (.round hx)
    · exact .inr (.rounds hfull)
  | true =>
    refine ⟨w.after (q :: cells) logs kept, by rw [Walked.result_after, hw], hholds.roundStore,
      fun sp => ?_⟩
    obtain hx | hfull := hrunx sp
    · by_cases hsp : sp + cells.length < stackSize
      · exact (hrun (sp + (q :: cells).length)).imp (.roundStore hx hsp) fun h =>
          .roundStore hx fun _ => h
      · exact .inr (.roundStore hx fun hroom => absurd hroom hsp)
    · exact .inr (.rounds hfull)

end HasRun

/-- What an expression needs in order to be walked through: a call needs a production that is
referenced, and a choice an alternative. -/
def Expr.Callable (decls : List Decl) : Expr → Prop
  | .invoke d => ∃ decl, decls[d]? = some decl ∧ 0 < decl.refc
  | .choice list => list ≠ []
  | .todo _ => False
  | _ => True

structure Form.Ready (F : MozCompiler) (decls : List Decl) (form : Form) : Prop where
  clean : form.habits.clean
  sound : form.Sound F
  callable : ∀ x, form.Has x → x.Callable decls
  nonempty : form ≠ .choice []

namespace Form.Ready

variable {F : MozCompiler} {decls : List Decl} {form form' : Form} {hd : Bool} {e x y : Expr}
  {list : List Expr}

theorem part (h : form.Ready F decls) (hpart : ∀ x, form'.Has x → form.Has x)
    (hclean : form'.habits.clean) (hne : form' ≠ .choice []) : form'.Ready F decls where
  clean := hclean
  sound x hx := h.sound x (hpart x hx)
  callable x hx := h.callable x (hpart x hx)
  nonempty := hne

theorem and (h : (Form.expr hd (.and e)).Ready F decls) : (Form.expr true e).Ready F decls :=
  h.part (fun _ hx => .and hx) (clean_of_and_eq_true h.clean) (by simp)

theorem clean_not (h : (Form.expr hd (.not e)).Ready F decls) (he : e.notOp = none) :
    (e.habits true).not.clean := by
  have hclean := h.clean
  rwa [Form.habits, habits_not he] at hclean

theorem not (h : (Form.expr hd (.not e)).Ready F decls) (he : e.notOp = none) :
    (Form.expr true e).Ready F decls :=
  h.part (fun _ hx => .not hx) (clean_of_and_eq_true (h.clean_not he)) (by simp)

theorem clean_option (h : (Form.expr hd (.option e)).Ready F decls)
    (he : e.optionOp { decls := [] } = none) : (e.habits hd).option.clean := by
  have hclean := h.clean
  rwa [Form.habits, habits_option he] at hclean

theorem option (h : (Form.expr hd (.option e)).Ready F decls)
    (he : e.optionOp { decls := [] } = none) : (Form.expr hd e).Ready F decls :=
  h.part (fun _ hx => .option hx) (clean_of_and_eq_true (h.clean_option he)) (by simp)

theorem choice (h : (Form.expr hd (.choice list)).Ready F decls) :
    (Form.choice list).Ready F decls := by
  refine h.part (fun x hx => ?_) h.clean fun heq => ?_
  · obtain ⟨e, he, hx⟩ := hx
    exact .choice he hx
  · cases heq
    exact h.callable _ .self rfl

theorem sequence (h : (Form.expr hd (.sequence list)).Ready F decls) :
    (Form.sequence list).Ready F decls := by
  refine h.part (fun x hx => ?_) h.clean (by simp)
  obtain ⟨e, he, hx⟩ := hx
  exact .sequence he hx

theorem repetition (h : (Form.expr hd (.repetition list)).Ready F decls)
    (he : Expr.repetitionOp { decls := [] } list = none) : (Form.rounds hd list).Ready F decls := by
  have hclean := h.clean
  rw [Form.habits, habits_repetition he] at hclean
  refine h.part (fun x hx => ?_) hclean (by simp)
  obtain ⟨e, he, hx⟩ := hx
  exact .repetition he hx

theorem alternative (h : (Form.choice (x :: list)).Ready F decls) :
    (Form.expr false x).Ready F decls :=
  h.part (fun _ hx => ⟨x, List.mem_cons_self, hx⟩) (clean_alternative h.clean) (by simp)

theorem alternatives (h : (Form.choice (x :: y :: list)).Ready F decls) :
    (Form.choice (y :: list)).Ready F decls := by
  refine h.part (fun z hz => ?_) (clean_choice.1 h.clean).2 (by simp)
  obtain ⟨e, he, hz⟩ := hz
  exact ⟨e, .tail _ he, hz⟩

theorem head (h : (Form.sequence (x :: list)).Ready F decls) : (Form.expr false x).Ready F decls :=
  h.part (fun _ hx => ⟨x, List.mem_cons_self, hx⟩) (clean_seq.1 h.clean).1 (by simp)

theorem tail (h : (Form.sequence (x :: list)).Ready F decls) : (Form.sequence list).Ready F decls := by
  refine h.part (fun z hz => ?_) (clean_seq.1 h.clean).2 (by simp)
  obtain ⟨e, he, hz⟩ := hz
  exact ⟨e, .tail _ he, hz⟩

theorem rounds (h : (Form.rounds hd list).Ready F decls) : (Form.sequence list).Ready F decls :=
  h.part (fun _ hx => hx) (clean_of_and_eq_true h.clean) (by simp)

end Form.Ready

section Completeness

variable (F : MozCompiler) (decls : List Decl) (input : List UInt8)

/-- Every form of this parsing expression has a walk with this result. -/
def Serves (a : Exp UInt8 Nonterminal) (p : ℕ) (o : Option ℕ) : Prop :=
  ∀ form : Form, form.peg = a → form.Ready F decls →
    HasRun F (F.runtime input) form p o

variable {F decls input} {a b : Exp UInt8 Nonterminal} {p q : ℕ} {o : Option ℕ} {hd : Bool}
  {e : Expr}

theorem HasRun.leaf (hready : (Form.expr hd e).Ready F decls) (hp : p ≤ input.length) {op : Op}
    (hop : e.op F = some op) (h : Derives (grammar decls) input e.peg p o) :
    HasRun F (F.runtime input) (.expr hd e) p o := by
  obtain ⟨hpeg, -, hentry⟩ | ⟨-, hiff⟩ :=
    hready.sound.agrees (G := grammar decls) hop p hp
  · rw [hpeg] at h
    obtain rfl := Peg.derives_empty.1 h
    obtain ⟨log, hlog⟩ := Option.isSome_iff_exists.1 hentry
    exact ⟨.ok p [] [log] [log], rfl, ⟨fun _ => rfl, fun _ => rfl⟩, fun _ => .inl (.log hlog)⟩
  · have heffect := (hiff o).1 h
    cases o with
    | some q => exact ⟨.ok q [] [] [], rfl, holds_of_next heffect, fun _ => .inl (.one heffect)⟩
    | none => exact ⟨.fail p [] [], rfl, holds_of_fail heffect, fun _ => .inl (.oneFail heffect)⟩

inductive Form.Blocks : Form → Prop
  | empty {hd : Bool} : Form.Blocks (.expr hd .empty)
  | invoke {hd : Bool} {d : ℕ} : Form.Blocks (.expr hd (.invoke d))
  | fail {hd : Bool} : Form.Blocks (.expr hd .fail)
  | and {hd : Bool} {e : Expr} : Form.Blocks (.expr hd (.and e))
  | not {hd : Bool} {e : Expr} (he : e.notOp = none) : Form.Blocks (.expr hd (.not e))
  | option {hd : Bool} {e : Expr} (he : e.optionOp { decls := [] } = none) :
      Form.Blocks (.expr hd (.option e))
  | sequence {list : List Expr} : Form.Blocks (.sequence list)
  | choice {x : Expr} {list : List Expr} : Form.Blocks (.choice (x :: list))
  | rounds {hd : Bool} {list : List Expr} : Form.Blocks (.rounds hd list)

/-- An expression is one instruction, or it is lowered to blocks. -/
theorem Serves.of_blocks (hp : p ≤ input.length) (hderives : Derives (grammar decls) input a p o)
    (h : ∀ form : Form, form.Blocks → form.peg = a → form.Ready F decls →
      HasRun F (F.runtime input) form p o) : Serves F decls input a p o := by
  intro form hpeg hready
  cases form with
  | sequence list => exact h _ .sequence hpeg hready
  | choice list =>
    cases list with
    | nil => exact absurd rfl hready.nonempty
    | cons x list => exact h _ .choice hpeg hready
  | rounds hd list => exact h _ .rounds hpeg hready
  | expr hd e =>
    cases hop : e.op F with
    | some op =>
      have hpeg' : e.peg = a := hpeg
      exact .leaf hready hp hop (hpeg' ▸ hderives)
    | none =>
      cases e with
      | any | byte | str | set | tcapture | tpush | tpop | tnew | ttag => cases hop
      | empty => exact h _ .empty hpeg hready
      | invoke d => exact h _ .invoke hpeg hready
      | fail => exact h _ .fail hpeg hready
      | and e => exact h _ .and hpeg hready
      | not e => exact h _ (.not hop) hpeg hready
      | option e => exact h _ (.option (Expr.optionOp_eq_none _ hop)) hpeg hready
      | sequence list => exact .ofSequence (h _ .sequence hpeg hready.sequence)
      | choice list =>
        have hlist := hready.choice
        cases list with
        | nil => exact absurd rfl hlist.nonempty
        | cons x list => exact .ofChoice (h _ .choice hpeg hlist)
      | repetition list =>
        have hnone : Expr.repetitionOp { decls := [] } list = none :=
          Expr.repetitionOp_eq_none _ hop
        exact .ofRounds hnone (h _ .rounds hpeg (hready.repetition hnone))
      | todo type => exact (hready.callable _ .self).elim

/-- The productions that are referenced have their code in `F`, and can be walked through. -/
structure ReadyDecls (F : MozCompiler) (decls : List Decl) : Prop where
  lowered : Lowered F
  bodies : ∀ (d : ℕ) (decl : Decl), decls[d]? = some decl → 0 < decl.refc →
    ∃ decl', F.decls[d]? = some decl' ∧ 0 < decl'.refc ∧ decl'.body = decl.body
  ready : ∀ (d : ℕ) (decl : Decl), decls[d]? = some decl → 0 < decl.refc →
    (Form.expr false decl.body).Ready F decls

/-- `Serves`, and for a negation which result its operand serves. A predicate `And` is the negation
of a negation, of which it is the inner operand that is walked through. -/
structure ServesBoth (F : MozCompiler) (decls : List Decl) (input : List UInt8)
    (a : Exp UInt8 Nonterminal) (p : ℕ) (o : Option ℕ) : Prop where
  serves : Serves F decls input a p o
  matched : ∀ b, a = .not b → o = none → ∃ q, Serves F decls input b p (some q)
  failed : ∀ b, a = .not b → ∀ q, o = some q → Serves F decls input b p none

theorem Serves.both (h : Serves F decls input a p o) (ha : ∀ b, a ≠ .not b) :
    ServesBoth F decls input a p o :=
  ⟨h, fun b hb => absurd hb (ha b), fun b hb => absurd hb (ha b)⟩

namespace Serves

theorem empty (hp : p ≤ input.length) : Serves F decls input .empty p (some p) := by
  refine .of_blocks hp (.empty p) fun form hblocks hpeg hready => ?_
  cases hblocks with
  | empty => exact ⟨.ok p [] [] [], rfl, ⟨fun _ => rfl, fun _ => rfl⟩, fun _ => .inl .empty⟩
  | @sequence list =>
    cases list with
    | nil => exact .nil
    | cons => cases hpeg
  | _ => cases hpeg

theorem one {test : UInt8 → Bool} (hp : p ≤ input.length)
    (hder : Derives (grammar decls) input (.one test) p o) :
    Serves F decls input (.one test) p o := by
  refine .of_blocks hp hder fun form hblocks hpeg hready => ?_
  cases hblocks with
  | fail =>
    cases hpeg
    obtain rfl := hder.unique (.never p)
    exact ⟨.fail p [] [], rfl, ⟨rfl, fun _ => rfl, fun _ => rfl⟩, fun _ => .inl .fail⟩
  | @sequence list => cases list <;> cases hpeg
  | _ => cases hpeg

theorem var {n : Nonterminal} (hdecls : ReadyDecls F decls) (hp : p ≤ input.length)
    (h : Derives (grammar decls) input (grammar decls n) p o)
    (ih : Serves F decls input (grammar decls n) p o) : Serves F decls input (.var n) p o := by
  refine .of_blocks hp (.var h) fun form hblocks hpeg hready => ?_
  cases hblocks with
  | invoke =>
    cases hpeg
    obtain ⟨decl, hdecl, hrefc⟩ := hready.callable _ .self
    obtain ⟨decl', hdecl', hrefc', hbody⟩ := hdecls.bodies _ decl hdecl hrefc
    have hrun := ih (.expr false decl.body) (grammar_decl hdecl).symm
      (hdecls.ready _ decl hdecl hrefc)
    exact .invoke hdecls.lowered hdecl' hrefc' (hbody ▸ hrun)
  | @sequence list => cases list <;> cases hpeg
  | _ => cases hpeg

theorem seq (hp : p ≤ input.length) (ha : Derives (grammar decls) input a p (some q))
    (hb : Derives (grammar decls) input b q o) (iha : Serves F decls input a p (some q))
    (ihb : Serves F decls input b q o) : Serves F decls input (.seq a b) p o := by
  refine .of_blocks hp (.seq ha hb) fun form hblocks hpeg hready => ?_
  cases hblocks with
  | @sequence list =>
    cases list with
    | nil => cases hpeg
    | cons x list =>
      cases hpeg
      exact .cons (iha _ rfl hready.head) (ihb _ rfl hready.tail)
  | _ => cases hpeg

theorem seqFail (hp : p ≤ input.length) (ha : Derives (grammar decls) input a p none)
    (iha : Serves F decls input a p none) : Serves F decls input (.seq a b) p none := by
  refine .of_blocks hp (.seqFail ha) fun form hblocks hpeg hready => ?_
  cases hblocks with
  | @sequence list =>
    cases list with
    | nil => cases hpeg
    | cons x list =>
      cases hpeg
      exact .consFail (iha _ rfl hready.head)
  | _ => cases hpeg

/-- An option is a choice of its operand or nothing. -/
theorem choice (hp : p ≤ input.length) (ha : Derives (grammar decls) input a p (some q))
    (iha : Serves F decls input a p (some q)) : Serves F decls input (.choice a b) p (some q) := by
  refine .of_blocks hp (.choice ha) fun form hblocks hpeg hready => ?_
  cases hblocks with
  | choice =>
    cases hpeg
    exact .alternative (iha _ rfl hready.alternative)
  | option he =>
    cases hpeg
    exact .option he (iha _ rfl (hready.option he))
  | @sequence list => cases list <;> cases hpeg
  | _ => cases hpeg

theorem choiceNext (hp : p ≤ input.length) (ha : Derives (grammar decls) input a p none)
    (hb : Derives (grammar decls) input b p o) (iha : Serves F decls input a p none)
    (ihb : Serves F decls input b p o) : Serves F decls input (.choice a b) p o := by
  refine .of_blocks hp (.choiceNext ha hb) fun form hblocks hpeg hready => ?_
  cases hblocks with
  | @choice x list =>
    cases hpeg
    have hx := iha _ rfl hready.alternative
    cases list with
    | nil =>
      obtain rfl := hb.unique (.never _)
      exact .alternativeLast hx
    | cons y list => exact .alternativeNext hready.clean hx (ihb _ rfl hready.alternatives)
  | option he =>
    cases hpeg
    obtain rfl := Peg.derives_empty.1 hb
    exact .optionNone he (hready.clean_option he) (iha _ rfl (hready.option he))
  | @sequence list => cases list <;> cases hpeg
  | _ => cases hpeg

theorem star (hp : p ≤ input.length) (ha : Derives (grammar decls) input a p (some q))
    (hrest : Derives (grammar decls) input (.star a) q o) (iha : Serves F decls input a p (some q))
    (ihrest : Serves F decls input (.star a) q o) : Serves F decls input (.star a) p o := by
  refine .of_blocks hp (.star ha hrest) fun form hblocks hpeg hready => ?_
  cases hblocks with
  | rounds =>
    cases hpeg
    exact .round (iha _ rfl hready.rounds) (ihrest _ rfl hready)
  | @sequence list => cases list <;> cases hpeg
  | _ => cases hpeg

theorem starStop (hp : p ≤ input.length) (ha : Derives (grammar decls) input a p none)
    (iha : Serves F decls input a p none) : Serves F decls input (.star a) p (some p) := by
  refine .of_blocks hp (.starStop ha) fun form hblocks hpeg hready => ?_
  cases hblocks with
  | rounds =>
    cases hpeg
    exact .stop hready.clean (iha _ rfl hready.rounds)
  | @sequence list => cases list <;> cases hpeg
  | _ => cases hpeg

end Serves

namespace ServesBoth

theorem not (hp : p ≤ input.length) (ha : Derives (grammar decls) input a p none)
    (h : ServesBoth F decls input a p none) :
    ServesBoth F decls input (.not a) p (some p) := by
  refine ⟨.of_blocks hp (.not ha) fun form hblocks hpeg hready => ?_, fun b hb hnone => ?_,
    fun b hb q _ => ?_⟩
  · cases hblocks with
    | not he =>
      cases hpeg
      exact .not he (hready.clean_not he) (h.serves _ rfl (hready.not he))
    | and =>
      cases hpeg
      obtain ⟨q, hq⟩ := h.matched _ rfl rfl
      exact .and hready.clean (hq _ rfl hready.and)
    | @sequence list => cases list <;> cases hpeg
    | _ => cases hpeg
  · cases hnone
  · cases hb
    exact h.serves

theorem notFail (hp : p ≤ input.length) (ha : Derives (grammar decls) input a p (some q))
    (h : ServesBoth F decls input a p (some q)) :
    ServesBoth F decls input (.not a) p none := by
  refine ⟨.of_blocks hp (.notFail ha) fun form hblocks hpeg hready => ?_, fun b hb _ => ?_,
    fun b hb q hq => ?_⟩
  · cases hblocks with
    | not he =>
      cases hpeg
      exact .notFail he (h.serves _ rfl (hready.not he))
    | and =>
      cases hpeg
      exact .andFail (h.failed _ rfl _ rfl _ rfl hready.and)
    | @sequence list => cases list <;> cases hpeg
    | _ => cases hpeg
  · cases hb
    exact ⟨_, h.serves⟩
  · cases hq

end ServesBoth

/-- Every result of a parsing expression is that of a walk. -/
theorem serves_of_derives (hdecls : ReadyDecls F decls)
    (h : Derives (grammar decls) input a p o) (hp : p ≤ input.length) :
    ServesBoth F decls input a p o := by
  induction h with
  | empty p => exact (Serves.empty hp).both (by simp)
  | one hc htest => exact (Serves.one hp (.one hc htest)).both (by simp)
  | oneFail htest => exact (Serves.one hp (.oneFail htest)).both (by simp)
  | var h ih => exact (Serves.var hdecls hp h (ih hp).serves).both (by simp)
  | seq ha hb iha ihb =>
    exact (Serves.seq hp ha hb (iha hp).serves (ihb (ha.le.2 hp)).serves).both (by simp)
  | seqFail ha iha => exact (Serves.seqFail hp ha (iha hp).serves).both (by simp)
  | choice ha iha => exact (Serves.choice hp ha (iha hp).serves).both (by simp)
  | choiceNext ha hb iha ihb =>
    exact (Serves.choiceNext hp ha hb (iha hp).serves (ihb hp).serves).both (by simp)
  | star ha hrest iha ihrest =>
    exact (Serves.star hp ha hrest (iha hp).serves (ihrest (ha.le.2 hp)).serves).both (by simp)
  | starStop ha iha => exact (Serves.starStop hp ha (iha hp).serves).both (by simp)
  | not ha iha => exact .not hp ha (iha hp)
  | notFail ha iha => exact .notFail hp ha (iha hp)

end Completeness

/-- A module that can be lowered, whose productions are predictive. -/
structure PredictiveModule (C : MozCompiler) : Prop where
  implemented : ∀ decl ∈ C.decls, 0 < decl.refc → decl.body.implemented
  fresh : ∀ decl ∈ C.decls, decl.inst = none
  calls : ∀ decl ∈ C.decls, 0 < decl.refc → ∀ d, Expr.Within (.invoke d) decl.body →
    ∃ decl', C.decls[d]? = some decl' ∧ 0 < decl'.refc
  solid : ∀ decl ∈ C.decls, 0 < decl.refc → ∀ x, Expr.Within x decl.body → x.solid
  fits : (mozAstToIr C).fits
  predictive : predictive C.decls

section Calls

variable {C : MozCompiler} {d : ℕ} {decl : Decl} {input : List UInt8} {p : ℕ} {o : Option ℕ}

theorem implementedAll_mem {list : List Expr} (h : implementedAll list) {e : Expr} (he : e ∈ list) :
    e.implemented := by
  induction list with
  | nil => cases he
  | cons x list ih =>
    rw [implementedAll, Bool.and_eq_true] at h
    obtain rfl | he := List.mem_cons.1 he
    · exact h.1
    · exact ih h.2 he

theorem Expr.Within.implemented {x e : Expr} (h : Expr.Within x e) (he : e.implemented) :
    x.implemented := by
  induction h with
  | self => exact he
  | and _ ih => exact ih he
  | not _ ih => exact ih he
  | option _ ih => exact ih he
  | choice hmem _ ih =>
    rw [Expr.implemented, Bool.and_eq_true] at he
    exact ih (implementedAll_mem he.2 hmem)
  | sequence hmem _ ih => exact ih (implementedAll_mem he hmem)
  | repetition hmem _ ih => exact ih (implementedAll_mem he hmem)

theorem PredictiveModule.ready (h : PredictiveModule C) : ReadyDecls (mozAstToIr C) C.decls := by
  refine ⟨mozAstToIr_lowered h.implemented h.fresh, fun d decl hdecl hrefc => ?_,
    fun d decl hdecl hrefc => ?_⟩
  · obtain ⟨entry, hentry, -⟩ := mozAstToIr_placed h.implemented hdecl hrefc
    exact ⟨_, hentry, hrefc, rfl⟩
  have hmem := List.mem_of_getElem? hdecl
  refine ⟨predictive_decl h.predictive hdecl hrefc, mozAstToIr_sound h.fits h.solid d decl hdecl hrefc,
    fun x hx => ?_, by simp⟩
  cases x with
  | invoke d => exact h.calls decl hmem hrefc d hx
  | choice list =>
    have himplemented := hx.implemented (h.implemented decl hmem hrefc)
    rw [Expr.implemented, Bool.and_eq_true] at himplemented
    rintro rfl
    cases himplemented.1
  | todo => cases hx.implemented (h.implemented decl hmem hrefc)
  | _ => trivial

/-- A call that returns has the result of the parsing expression. -/
theorem derives_of_returns (hC : PredictiveModule C) (hdecl : C.decls[d]? = some decl)
    (hrefc : 0 < decl.refc) (hp : p ≤ input.length) {sp : ℕ} {ast : AstMachine} {s s' : State}
    {matched : Bool} (henter : enter (mozAstToIr C) d sp p ast = some s)
    (h : Returns (mozAstToIr C) ((mozAstToIr C).runtime input) s matched s') :
    Derives (grammar C.decls) input decl.body.peg p (if matched then some s'.current else none) := by
  have hready := hC.ready.ready d decl hdecl hrefc
  obtain ⟨w, hwalk, rfl, hstop, -⟩ := walk_of_returns hC.implemented hC.fresh hdecl hrefc henter h
  obtain ⟨hclean, -⟩ := hwalk.clean hC.predictive hready.clean
  have hderives := hclean.derives (mozAstToIr_sound hC.fits hC.solid) hready.sound hp
  rw [← hstop]
  cases w <;> exact hderives

theorem enter_of_hasRun (hC : ∀ decl ∈ C.decls, 0 < decl.refc → decl.body.implemented)
    (hdecl : C.decls[d]? = some decl) (hrefc : 0 < decl.refc) {R : Runtime}
    (h : HasRun (mozAstToIr C) R (.expr false decl.body) p o) (sp : ℕ) (ast : AstMachine) :
    ∃ s, enter (mozAstToIr C) d sp p ast = some s ∧
      ((∃ s', Returns (mozAstToIr C) R s o.isSome s' ∧ ∀ q, o = some q → s'.current = q) ∨
        FillsUp (mozAstToIr C) R s) := by
  obtain ⟨w, rfl, -, hruns⟩ := h
  obtain hrun | hfull := hruns sp
  · obtain ⟨s, s', henter, hreturns, hcurrent, -⟩ := returns_of_runsAs hC hdecl hrefc ast hrun
    refine ⟨s, henter, .inl ⟨s', ?_, fun q hq => ?_⟩⟩
    · cases w <;> exact hreturns
    · cases w with
      | ok => exact hcurrent.trans (Option.some.inj hq)
      | fail => cases hq
  · obtain ⟨entry, hentry, fail, next, stop, hplaced, -⟩ := mozAstToIr_placed hC hdecl hrefc
    refine ⟨{ code := (mozAstToIr C).insts entry, current := p, sp := sp, ast := ast }, ?_, .inr ?_⟩
    · rw [enter, hentry]
      rfl
    · exact hfull _ _ _ _ (.expr hplaced) rfl rfl rfl

/-- The body of a production has a run to every result of its parsing expression. -/
theorem PredictiveModule.hasRun (hC : PredictiveModule C) (hdecl : C.decls[d]? = some decl)
    (hrefc : 0 < decl.refc) (hp : p ≤ input.length)
    (h : Derives (grammar C.decls) input decl.body.peg p o) :
    HasRun (mozAstToIr C) ((mozAstToIr C).runtime input) (.expr false decl.body) p o :=
  (serves_of_derives hC.ready h hp).serves _ rfl (hC.ready.ready d decl hdecl hrefc)

/-- Every result of the parsing expression is that of a call, unless the stack is full before. -/
theorem returns_of_derives (hC : PredictiveModule C) (hdecl : C.decls[d]? = some decl)
    (hrefc : 0 < decl.refc) (hp : p ≤ input.length)
    (h : Derives (grammar C.decls) input decl.body.peg p o) (sp : ℕ) (ast : AstMachine) :
    ∃ s, enter (mozAstToIr C) d sp p ast = some s ∧
      ((∃ s', Returns (mozAstToIr C) ((mozAstToIr C).runtime input) s o.isSome s' ∧
        ∀ q, o = some q → s'.current = q) ∨
          FillsUp (mozAstToIr C) ((mozAstToIr C).runtime input) s) :=
  enter_of_hasRun hC.implemented hdecl hrefc (hC.hasRun hdecl hrefc hp h) sp ast

end Calls

theorem within_chain {x : Expr} (h : Expr.Within x chainDecl.body) :
    x ∈ [chainDecl.body, .byte 98,
      .sequence [.byte 97, .invoke 0], .byte 97, .invoke 0] := by
  cases h with
  | self => exact List.mem_cons_self
  | choice he h =>
    simp only [List.mem_cons, List.not_mem_nil, or_false] at he
    obtain rfl | rfl := he
    · cases h
      simp
    · cases h with
      | self => simp
      | sequence he h =>
        simp only [List.mem_cons, List.not_mem_nil, or_false] at he
        obtain rfl | rfl := he
        · cases h
          simp
        · cases h
          simp

theorem chain_predictive : PredictiveModule chain where
  implemented decl hdecl _ := by
    obtain rfl := List.mem_singleton.1 hdecl
    rfl
  fresh decl hdecl := by
    obtain rfl := List.mem_singleton.1 hdecl
    rfl
  calls decl hdecl _ d hd := by
    obtain rfl := List.mem_singleton.1 hdecl
    have hmem := within_chain hd
    simp only [chainDecl, List.mem_cons, List.not_mem_nil, or_false, reduceCtorEq, false_or,
      Expr.invoke.injEq] at hmem
    subst hmem
    exact ⟨_, rfl, Nat.one_pos⟩
  solid decl hdecl _ x hx := by
    obtain rfl := List.mem_singleton.1 hdecl
    have hmem := within_chain hx
    simp only [List.mem_cons, List.not_mem_nil, or_false] at hmem
    obtain rfl | rfl | rfl | rfl | rfl := hmem <;> rfl
  fits := ⟨by decide, by decide, by decide⟩
  predictive := by decide

theorem chain_returns : ∃ s s', enter (mozAstToIr chain) 0 0 0 {} = some s ∧
    Returns (mozAstToIr chain) ((mozAstToIr chain).runtime [97, 98]) s true s' ∧ s'.current = 2 := by
  obtain ⟨s, hs⟩ : ∃ s, enter (mozAstToIr chain) 0 0 0 {} = some s := ⟨_, rfl⟩
  obtain ⟨s', hrun, hresult, hcurrent⟩ : ∃ s', (fun o => o.bind (step (mozAstToIr chain)
      ((mozAstToIr chain).runtime [97, 98])))^[14] (some s) = some s' ∧ s'.result = some true ∧
      s'.current = 2 := by
    cases hs
    exact ⟨_, rfl, rfl, rfl⟩
  exact ⟨s, s', hs, ⟨Progress.reaches_iterate 14 hrun, hresult⟩, hcurrent⟩

theorem derives_of_returns_chain :
    Derives (grammar chain.decls) [97, 98] chainDecl.body.peg 0 (some 2) := by
  obtain ⟨s, s', henter, hreturns, hcurrent⟩ := chain_returns
  have hderives := derives_of_returns chain_predictive (d := 0) rfl Nat.one_pos (Nat.zero_le _)
    henter hreturns
  rwa [if_pos rfl, hcurrent] at hderives

theorem chain_derives : Derives (grammar chain.decls) [97, 98]
    chainDecl.body.peg 0 (some 2) := by
  have hfirst : Derives (grammar chain.decls) [97, 98] (.one (· == 98)) 0 none :=
    Peg.derives_one.2 (by decide)
  have hbyte : Derives (grammar chain.decls) [97, 98] (.one (· == 97)) 0 (some 1) :=
    Peg.derives_one.2 (by decide)
  have hlast : Derives (grammar chain.decls) [97, 98] (.one (· == 98)) 1 (some 2) :=
    Peg.derives_one.2 (by decide)
  exact .choiceNext hfirst (.choice (.seq hbyte (.seq (.var (.choice hlast)) (.empty 2))))

theorem returns_of_derives_chain :
    ∃ s, enter (mozAstToIr chain) 0 15 0 {} = some s ∧
      ((∃ s', Returns (mozAstToIr chain) ((mozAstToIr chain).runtime [97, 98]) s true s' ∧
        ∀ q, some 2 = some q → s'.current = q) ∨
          FillsUp (mozAstToIr chain) ((mozAstToIr chain).runtime [97, 98]) s) :=
  returns_of_derives chain_predictive rfl Nat.one_pos (Nat.zero_le _) chain_derives 15 {}

end Moz.Compiler
