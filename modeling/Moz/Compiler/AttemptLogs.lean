import Moz.Compiler.WalkRuns
import Moz.Libnez.AstTree

/-!
# The entries of failed attempts

Nothing takes an entry back off the log when an attempt fails. So a call that matches
leaves the entries of the match that its walk keeps if and only if no attempt that
failed had logged any, and then `Push` and `Pop` are balanced in what it has logged.
-/

namespace Moz.Compiler

open StateTransition Vm2

/-- An attempt is left without an entry in the log. -/
def Unlogged (_ _ : ℕ) (logs : List AstLog) : Prop := logs = []

/-- The log holds what is kept of a match, and nothing of a failure. -/
def Walked.Traceless : Walked → Prop
  | .ok _ _ logs kept => logs = kept
  | .fail _ _ logs => logs = []

/-- What is kept is part of the log. -/
def Walked.Keeps : Walked → Prop
  | .ok _ _ logs kept => kept.Sublist logs
  | .fail _ _ _ => True

section Traces

variable {M : Reading} {decls : List Decl} {resume : ℕ → ℕ → List AstLog → Prop} {form : Form}
  {sp p : ℕ} {w : Walked} {cells : List ℕ} {logs kept : List AstLog}

theorem Walked.Keeps.after (h : w.Keeps) (hkept : kept.Sublist logs) :
    (w.after cells logs kept).Keeps := by
  cases w with
  | ok => exact hkept.append h
  | fail => trivial

theorem Walk.keeps (h : Walk M decls resume form sp p w) : w.Keeps := by
  induction h with
  | empty | one | log | nil => exact .refl _
  | oneFail | fail | invokeFail | andFail | notFail | alternativeLast | consFail => trivial
  | not | optionNone | stop => exact List.nil_sublist _
  | invoke _ _ _ _ ih | and _ _ _ _ ih | option _ _ ih | choice _ ih | sequence _ ih
  | repetition _ _ ih | alternative _ ih => exact ih
  | alternativeNext _ _ _ _ ih => exact ih.after (List.nil_sublist _)
  | cons _ _ ihx ih | round _ _ ihx ih | roundStore _ _ _ ihx ih => exact ih.after ihx

/-- Of two parts in a row each is traceless if the whole is. -/
theorem Walked.Traceless.of_after (h : (w.after cells logs kept).Traceless) (hw : w.Keeps)
    (hkept : kept.Sublist logs) : logs = kept ∧ w.Traceless := by
  cases w with
  | ok stop cells' logs' kept' =>
    have heq : logs ++ logs' = kept ++ kept' := h
    have hlength := congrArg List.length heq
    rw [List.length_append, List.length_append] at hlength
    have hle := hkept.length_le
    have hle' := List.Sublist.length_le hw
    exact List.append_inj heq (by omega)
  | fail stop cells' logs' =>
    obtain ⟨rfl, hlogs⟩ := List.append_eq_nil_iff.1 h
    exact ⟨(List.sublist_nil.1 hkept).symm, hlogs⟩

/-- In a traceless walk no attempt is left with an entry in the log. -/
theorem Walk.unlogged (h : Walk M decls resume form sp p w) (hw : w.Traceless) :
    Walk M decls Unlogged form sp p w := by
  induction h with
  | empty => exact .empty
  | one heffect => exact .one heffect
  | oneFail heffect => exact .oneFail heffect
  | log hentry => exact .log hentry
  | fail => exact .fail
  | invoke hdecl hrefc hsp _ ih => exact .invoke hdecl hrefc hsp (ih hw)
  | invokeFail hdecl hrefc hsp _ ih => exact .invokeFail hdecl hrefc hsp (ih hw)
  | and hsp _ htop _ ih => exact .and hsp (ih hw) htop rfl
  | andFail hsp _ ih => exact .andFail hsp (ih hw)
  | not he hsp _ htop _ ih => exact .not he hsp (ih hw) htop hw
  | notFail he hsp hbody ih =>
    obtain rfl := hw
    exact .notFail he hsp (ih (List.sublist_nil.1 hbody.keeps).symm)
  | option he _ ih => exact .option he (ih hw)
  | optionNone he _ _ ih => exact .optionNone he (ih hw) hw
  | choice _ ih => exact .choice (ih hw)
  | sequence _ ih => exact .sequence (ih hw)
  | repetition he _ ih => exact .repetition he (ih hw)
  | alternative _ ih => exact .alternative (ih hw)
  | alternativeLast _ ih => exact .alternativeLast (ih hw)
  | alternativeNext _ _ hlist ihx ih =>
    obtain ⟨hlogs, hw⟩ := hw.of_after hlist.keeps (List.nil_sublist _)
    exact .alternativeNext (ihx hlogs) hlogs (ih hw)
  | nil => exact .nil
  | cons hx hlist ihx ih =>
    obtain ⟨hlogs, hw⟩ := hw.of_after hlist.keeps hx.keeps
    exact .cons (ihx hlogs) (ih hw)
  | consFail _ ih => exact .consFail (ih hw)
  | stop _ _ ih => exact .stop (ih hw) hw
  | round hlist hrest ihx ih =>
    obtain ⟨hlogs, hw⟩ := hw.of_after hrest.keeps hlist.keeps
    exact .round (ihx hlogs) (ih hw)
  | roundStore hlist hsp hrest ihx ih =>
    obtain ⟨hlogs, hw⟩ := hw.of_after hrest.keeps hlist.keeps
    exact .roundStore (ihx hlogs) hsp (ih hw)

/-- A match in which no attempt is left with an entry in the log. -/
def Walked.Kept : Walked → Prop
  | .ok _ _ logs kept => logs = kept
  | .fail _ _ _ => True

theorem Walked.Kept.after (h : w.Kept) (hlogs : logs = kept) : (w.after cells logs kept).Kept := by
  cases w with
  | ok => exact congrArg₂ (· ++ ·) hlogs h
  | fail => trivial

theorem Walk.allKept (h : Walk M decls Unlogged form sp p w) : w.Kept := by
  induction h with
  | empty | one | log | nil => rfl
  | oneFail | fail | invokeFail | andFail | notFail | alternativeLast | consFail => trivial
  | not _ _ _ _ hresume | optionNone _ _ hresume | stop _ hresume => exact hresume
  | invoke _ _ _ _ ih | and _ _ _ _ ih | option _ _ ih | choice _ ih | sequence _ ih
  | repetition _ _ ih | alternative _ ih => exact ih
  | alternativeNext _ hresume _ _ ih => exact ih.after hresume
  | cons _ _ ihx ih | round _ _ ihx ih | roundStore _ _ _ ihx ih => exact ih.after ihx

end Traces

/-- How many `Push` are open behind the entries, when `n` are before them. -/
def openLinks : List AstLog → ℕ → Option ℕ
  | [], n => some n
  | .push :: logs, n => openLinks logs (n + 1)
  | .pop _ :: logs, n + 1 => openLinks logs n
  | .pop _ :: _, 0 => none
  | _ :: logs, n => openLinks logs n

mutual

/-- How many `Tpush` are open behind an expression. `compile_Tlink` puts `Tpush` and `Tpop` around
an expression, in one `Sequence`. -/
def Expr.opens : Expr → ℕ → Option ℕ
  | .tpush, n => some (n + 1)
  | .tpop _, 0 => none
  | .tpop _, n + 1 => some n
  | .and expr, n | .not expr, n | .option expr, n => if expr.opens 0 = some 0 then some n else none
  | .choice list, n => if closesAll list then some n else none
  | .sequence list, n => opensAll list n
  | .repetition list, n => if opensAll list 0 = some 0 then some n else none
  | .empty, n | .invoke _, n | .any, n | .byte _, n | .str _, n | .set _, n | .fail, n
  | .tcapture, n | .tnew, n | .ttag _, n | .todo _, n => some n

def opensAll : List Expr → ℕ → Option ℕ
  | [], n => some n
  | x :: list, n => (x.opens n).bind fun n => opensAll list n

def closesAll : List Expr → Bool
  | [] => true
  | x :: list => x.opens 0 = some 0 && closesAll list

end

section Balance

variable {F : MozCompiler} {R : Runtime} {decls : List Decl}
  {resume : ℕ → ℕ → List AstLog → Prop} {form : Form} {e : Expr} {sp p k k' : ℕ} {w : Walked}

theorem openLinks_append (logs logs' : List AstLog) (n : ℕ) :
    openLinks (logs ++ logs') n = (openLinks logs n).bind (openLinks logs') := by
  induction logs generalizing n with
  | nil => rfl
  | cons log logs ih =>
    cases log with
    | push => exact ih (n + 1)
    | pop =>
      cases n with
      | zero => rfl
      | succ n => exact ih n
    | tag | replace | leftFold | new | link | capture => exact ih n

/-- `Tpush` and `Tpop` have no effect on the position. -/
theorem opens_of_effect (h : (F.reading R).effect e p ≠ .stuck) (ho : e.opens k = some k') :
    k' = k := by
  cases e with
  | empty | invoke | any | byte | str | set | fail | tcapture | tnew | ttag | todo =>
    exact (Option.some.inj ho).symm
  | and | choice | sequence | tpush | tpop => exact absurd rfl h
  | not | option | repetition =>
    rw [Expr.opens] at ho
    split_ifs at ho
    exact (Option.some.inj ho).symm

theorem opens_of_entry {log : AstLog} (h : (F.reading R).entry e p = some log)
    (ho : e.opens k = some k') (n : ℕ) : openLinks [log] (k + n) = some (k' + n) := by
  obtain ⟨op, hop, hlog⟩ := Option.bind_eq_some_iff.1 h
  cases e with
  | tpush =>
    obtain rfl := Option.some.inj hop
    obtain rfl := Option.some.inj hlog
    obtain rfl := Option.some.inj ho
    rw [Nat.add_right_comm]
    rfl
  | tpop name =>
    obtain rfl := Option.some.inj hop
    obtain rfl := Option.some.inj hlog
    cases k with
    | zero => cases ho
    | succ k =>
      obtain rfl := Option.some.inj ho
      rw [Nat.add_right_comm]
      rfl
  | tcapture | tnew =>
    obtain rfl := Option.some.inj hop
    obtain rfl := Option.some.inj hlog
    obtain rfl := Option.some.inj ho
    rfl
  | ttag name =>
    obtain rfl := Option.some.inj hop
    obtain ⟨tag, -, rfl⟩ := Option.map_eq_some_iff.1 hlog
    obtain rfl := Option.some.inj ho
    rfl
  | any | byte | str | set =>
    obtain rfl := Option.some.inj hop
    cases hlog
  | not e =>
    cases e <;> cases hop
    cases hlog
  | option e =>
    cases e <;> cases hop <;> cases hlog
  | repetition list =>
    match list, hop with
    | [x], hop => cases x <;> cases hop <;> cases hlog
  | empty | invoke | and | choice | fail | sequence | todo => cases hop

/-- How many `Push` the match of a form opens. -/
def Form.Opens : Form → ℕ → ℕ → Prop
  | .expr _ e, k, k' => e.opens k = some k'
  | .sequence list, k, k' => opensAll list k = some k'
  | .choice list, k, k' => closesAll list ∧ k' = k
  | .rounds _ list, k, k' => opensAll list 0 = some 0 ∧ k' = k

def Walked.Opens (k k' : ℕ) : Walked → Prop
  | .ok _ _ _ kept => ∀ n, openLinks kept (k + n) = some (k' + n)
  | .fail _ _ _ => True

theorem Walked.Opens.after {cells : List ℕ} {logs kept : List AstLog} {m : ℕ} (h : w.Opens m k')
    (hkept : ∀ n, openLinks kept (k + n) = some (m + n)) :
    (w.after cells logs kept).Opens k k' := by
  cases w with
  | ok =>
    intro n
    rw [openLinks_append, hkept n]
    exact h n
  | fail => trivial

theorem Walked.Opens.shift (h : w.Opens 0 0) : w.Opens k k := by
  cases w with
  | ok =>
    intro n
    have hn := h (k + n)
    rwa [Nat.zero_add] at hn
  | fail => trivial

theorem Walk.opens (hdecls : ∀ (d : ℕ) (decl : Decl), decls[d]? = some decl → 0 < decl.refc →
      decl.body.opens 0 = some 0) (h : Walk (F.reading R) decls resume form sp p w) :
    ∀ k k', form.Opens k k' → w.Opens k k' := by
  induction h with
  | empty | nil =>
    intro k k' ho n
    obtain rfl := Option.some.inj ho
    rfl
  | one heffect =>
    intro k k' ho n
    obtain rfl := opens_of_effect (by rw [heffect]; exact Effect.noConfusion) ho
    rfl
  | log hentry => exact fun k k' ho n => opens_of_entry hentry ho n
  | oneFail | fail | invokeFail | andFail | notFail | alternativeLast | consFail =>
    exact fun _ _ _ => trivial
  | invoke hdecl hrefc _ _ ih =>
    intro k k' ho
    obtain rfl := Option.some.inj ho
    exact (ih 0 0 (hdecls _ _ hdecl hrefc)).shift
  | and _ _ _ _ ih | option _ _ ih =>
    intro k k' ho
    rw [Form.Opens, Expr.opens] at ho
    split_ifs at ho with hcloses
    obtain rfl := Option.some.inj ho
    exact (ih 0 0 hcloses).shift
  | not | optionNone =>
    intro k k' ho n
    rw [Form.Opens, Expr.opens] at ho
    split_ifs at ho
    obtain rfl := Option.some.inj ho
    rfl
  | choice _ ih | repetition _ _ ih =>
    intro k k' ho
    rw [Form.Opens, Expr.opens] at ho
    split_ifs at ho with hcloses
    exact ih k k' ⟨hcloses, (Option.some.inj ho).symm⟩
  | sequence _ ih =>
    intro k k' ho
    rw [Form.Opens, Expr.opens] at ho
    exact ih k k' ho
  | alternative _ ih =>
    rintro k k' ⟨hcloses, rfl⟩
    rw [closesAll, Bool.and_eq_true, decide_eq_true_eq] at hcloses
    exact (ih 0 0 hcloses.1).shift
  | alternativeNext _ _ _ _ ih =>
    rintro k k' ⟨hcloses, rfl⟩
    rw [closesAll, Bool.and_eq_true] at hcloses
    exact (ih _ _ ⟨hcloses.2, rfl⟩).after fun n => rfl
  | cons _ _ ihx ih =>
    intro k k' ho
    obtain ⟨m, hx, hlist⟩ := Option.bind_eq_some_iff.1 ho
    exact (ih m k' hlist).after (ihx k m hx)
  | stop =>
    rintro k k' ⟨-, rfl⟩ n
    rfl
  | round _ _ ihx ih | roundStore _ _ _ ihx ih =>
    rintro k k' ⟨hcloses, rfl⟩
    exact (ih _ _ ⟨hcloses, rfl⟩).after (ihx 0 0 hcloses).shift

end Balance

/-- The walk of an expression that is one instruction. -/
def Reading.read (M : Reading) (e : Expr) (p : ℕ) : Option Walked :=
  match M.effect e p with
  | .next q => some (.ok q [] [] [])
  | .fail => some (.fail p [] [])
  | .stuck => (M.entry e p).map fun log => .ok p [] [log] [log]

section Uniqueness

variable {F : MozCompiler} {R : Runtime} {decls : List Decl}
  {resume resume' : ℕ → ℕ → List AstLog → Prop} {form : Form} {hd : Bool} {e : Expr} {sp p q : ℕ}
  {w w' : Walked}

theorem effect_of_entry {log : AstLog} (h : (F.reading R).entry e p = some log) :
    (F.reading R).effect e p = .stuck := by
  obtain ⟨op, hop, hlog⟩ := Option.bind_eq_some_iff.1 h
  have heffect : Op.effect R p op = .stuck := by
    cases op <;> first | rfl | cases hlog
  simp only [MozCompiler.reading, hop, Option.map_some, Option.getD_some, heffect]

theorem Walk.read (h : Walk (F.reading R) decls resume (.expr hd e) sp p w)
    (hop : e.op F ≠ none) : (F.reading R).read e p = some w := by
  unfold Reading.read
  cases h with
  | one heffect => rw [heffect]
  | oneFail heffect => rw [heffect]
  | log hentry => rw [effect_of_entry hentry, hentry]; rfl
  | empty | fail | invoke | invokeFail | and | andFail | choice | sequence => exact absurd rfl hop
  | not he | notFail he => exact absurd he hop
  | option he | optionNone he => exact absurd (Expr.optionOp_eq_none F he) hop
  | repetition he => exact absurd (Expr.repetitionOp_eq_none F he) hop

theorem op_of_next (h : (F.reading R).effect e p = .next q) : e.op F ≠ none := by
  intro hop
  simp only [MozCompiler.reading, hop, Option.map_none, Option.getD_none, reduceCtorEq] at h

theorem op_of_fail (h : (F.reading R).effect e p = .fail) : e.op F ≠ none := by
  intro hop
  simp only [MozCompiler.reading, hop, Option.map_none, Option.getD_none, reduceCtorEq] at h

theorem op_of_entry {log : AstLog} (h : (F.reading R).entry e p = some log) : e.op F ≠ none := by
  intro hop
  simp only [MozCompiler.reading, hop, Option.bind_none, reduceCtorEq] at h

theorem Walk.unique_of_op (h : Walk (F.reading R) decls resume (.expr hd e) sp p w)
    (h' : Walk (F.reading R) decls resume' (.expr hd e) sp p w') (hop : e.op F ≠ none) : w = w' :=
  Option.some.inj ((h.read hop).symm.trans (h'.read hop))

/-- A form has one walk at most. -/
theorem Walk.unique (h : Walk (F.reading R) decls resume form sp p w)
    (h' : Walk (F.reading R) decls resume' form sp p w') : w = w' := by
  induction h generalizing w' with
  | one heffect =>
    exact unique_of_op (.one heffect : Walk _ decls resume _ _ _ _) h' (op_of_next heffect)
  | oneFail heffect =>
    exact unique_of_op (.oneFail heffect : Walk _ decls resume _ _ _ _) h' (op_of_fail heffect)
  | log hentry =>
    exact unique_of_op (.log hentry : Walk _ decls resume _ _ _ _) h' (op_of_entry hentry)
  | empty =>
    cases h' with
    | empty => rfl
    | one h | oneFail h | log h => cases h
  | fail =>
    cases h' with
    | fail => rfl
    | one h | oneFail h | log h => cases h
  | invoke hdecl _ _ _ ih =>
    cases h' with
    | invoke hdecl' _ _ hbody =>
      obtain rfl := Option.some.inj (hdecl.symm.trans hdecl')
      cases ih hbody
      rfl
    | invokeFail hdecl' _ _ hbody =>
      obtain rfl := Option.some.inj (hdecl.symm.trans hdecl')
      cases ih hbody
    | one h | oneFail h | log h => cases h
  | invokeFail hdecl _ _ _ ih =>
    cases h' with
    | invoke hdecl' _ _ hbody =>
      obtain rfl := Option.some.inj (hdecl.symm.trans hdecl')
      cases ih hbody
    | invokeFail hdecl' _ _ hbody =>
      obtain rfl := Option.some.inj (hdecl.symm.trans hdecl')
      cases ih hbody
      rfl
    | one h | oneFail h | log h => cases h
  | and _ _ htop _ ih =>
    cases h' with
    | and _ hbody htop' =>
      cases ih hbody
      obtain ⟨rfl, rfl⟩ := List.cons.inj (htop.symm.trans htop')
      rfl
    | andFail _ hbody => cases ih hbody
    | one h | oneFail h | log h => cases h
  | andFail _ _ ih =>
    cases h' with
    | and _ hbody => cases ih hbody
    | andFail _ hbody =>
      cases ih hbody
      rfl
    | one h | oneFail h | log h => cases h
  | not he _ _ htop _ ih =>
    cases h' with
    | not _ _ hbody htop' =>
      cases ih hbody
      obtain ⟨rfl, rfl⟩ := List.cons.inj (htop.symm.trans htop')
      rfl
    | notFail _ _ hbody => cases ih hbody
    | one h => exact absurd he (op_of_next h)
    | oneFail h => exact absurd he (op_of_fail h)
    | log h => exact absurd he (op_of_entry h)
  | notFail he _ _ ih =>
    cases h' with
    | not _ _ hbody => cases ih hbody
    | notFail _ _ hbody =>
      cases ih hbody
      rfl
    | one h => exact absurd he (op_of_next h)
    | oneFail h => exact absurd he (op_of_fail h)
    | log h => exact absurd he (op_of_entry h)
  | option he _ ih =>
    have hop := Expr.optionOp_eq_none F he
    cases h' with
    | option _ hbody => exact ih hbody
    | optionNone _ hbody => cases ih hbody
    | one h => exact absurd hop (op_of_next h)
    | oneFail h => exact absurd hop (op_of_fail h)
    | log h => exact absurd hop (op_of_entry h)
  | optionNone he _ _ ih =>
    have hop := Expr.optionOp_eq_none F he
    cases h' with
    | option _ hbody => cases ih hbody
    | optionNone _ hbody =>
      cases ih hbody
      rfl
    | one h => exact absurd hop (op_of_next h)
    | oneFail h => exact absurd hop (op_of_fail h)
    | log h => exact absurd hop (op_of_entry h)
  | choice _ ih =>
    cases h' with
    | choice hlist => exact ih hlist
    | one h | oneFail h | log h => cases h
  | sequence _ ih =>
    cases h' with
    | sequence hlist => exact ih hlist
    | one h | oneFail h | log h => cases h
  | repetition he _ ih =>
    have hop := Expr.repetitionOp_eq_none F he
    cases h' with
    | repetition _ hlist => exact ih hlist
    | one h => exact absurd hop (op_of_next h)
    | oneFail h => exact absurd hop (op_of_fail h)
    | log h => exact absurd hop (op_of_entry h)
  | alternative _ ih =>
    cases h' with
    | alternative hx => exact ih hx
    | alternativeLast hx | alternativeNext hx => cases ih hx
  | alternativeLast _ ih =>
    cases h' with
    | alternative hx => cases ih hx
    | alternativeLast hx => exact ih hx
  | alternativeNext _ _ _ ihx ih =>
    cases h' with
    | alternative hx => cases ihx hx
    | alternativeNext hx _ hlist =>
      cases ihx hx
      rw [ih hlist]
  | nil =>
    cases h' with
    | nil => rfl
  | cons _ _ ihx ih =>
    cases h' with
    | cons hx hlist =>
      cases ihx hx
      rw [ih hlist]
    | consFail hx => cases ihx hx
  | consFail _ ih =>
    cases h' with
    | cons hx => cases ih hx
    | consFail hx => exact ih hx
  | stop _ _ ih =>
    cases h' with
    | stop hlist =>
      cases ih hlist
      rfl
    | round hlist | roundStore hlist => cases ih hlist
  | round _ _ ihx ih =>
    cases h' with
    | stop hlist => cases ihx hlist
    | round hlist hrest =>
      cases ihx hlist
      rw [ih hrest]
  | roundStore _ _ _ ihx ih =>
    cases h' with
    | stop hlist => cases ihx hlist
    | roundStore hlist _ hrest =>
      cases ihx hlist
      rw [ih hrest]

end Uniqueness

/-- What a call has logged holds the entries of the match only, its `Push` and `Pop` are balanced,
and the tree that is built from it is that of the match. -/
structure LeavesNoTrace (ast : AstMachine) (logs kept : List AstLog) : Prop where
  entries : logs = kept
  balanced : openLinks logs 0 = some 0
  tree : astGetParsedNode { ast with logs := ast.logs ++ logs } =
    astGetParsedNode { ast with logs := ast.logs ++ kept }

section Calls

variable {C : MozCompiler} {R : Runtime} {d sp p : ℕ} {ast : AstMachine} {decl : Decl}
  {s s' : State}

end Calls

/-- `'c' / { @label('a') }`. -/
def recordDecl : Decl where
  body := .choice [.byte 99, .sequence [.tnew, .tpush, .byte 97, .tpop [108], .tcapture]]

def record : MozCompiler := { decls := [recordDecl] }

/-- On `a` the first alternative fails, and the second one logs four entries. -/
theorem record_walk : ∃ w, AnyWalk (mozAstToIr record) ((mozAstToIr record).runtime [97])
      record.decls (.expr false recordDecl.body) 0 0 w ∧
    w = .ok 1 [] [.new 0, .push, .pop 0, .capture 1] [.new 0, .push, .pop 0, .capture 1] := by
  set M := (mozAstToIr record).reading ((mozAstToIr record).runtime [97])
  have hsecond : Walk M record.decls (fun _ _ _ => True)
      (.sequence [.tnew, .tpush, .byte 97, .tpop [108], .tcapture]) 0 0
      (.ok 1 [] [.new 0, .push, .pop 0, .capture 1] [.new 0, .push, .pop 0, .capture 1]) :=
    .cons (.log rfl) (.cons (.log rfl) (.cons (.one rfl) (.cons (.log rfl)
      (.cons (.log rfl) .nil))))
  refine ⟨_, ?_, rfl⟩
  exact .choice (.alternativeNext (.oneFail rfl) trivial (.alternative (.sequence hsecond)))

/-- `{ #X 'b' } / 'a'`. -/
def discardedDecl : Decl where
  body := .choice [.sequence [.tnew, .ttag [88], .byte 98, .tcapture], .byte 97]

def discarded : MozCompiler := { decls := [discardedDecl] }

end Moz.Compiler
