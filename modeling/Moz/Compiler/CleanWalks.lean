import Moz.Compiler.Interning
import Moz.Compiler.Meaning
import Moz.Compiler.Specialised
import Moz.Compiler.WalkRuns

/-!
# Clean walks are derivations

The blocks bring neither `CURRENT` nor the cells back when an attempt fails. A walk
is clean if nothing had to be brought back: each attempt that failed had come to no
other position, and each predicate found its own cell on top. Clean walks have the
results of the parsing expression.
-/

namespace Moz.Compiler

open StateTransition Vm2
open Peg (Exp Derives)

/-- The constant of an expression is in the pools of `F`, under its id. -/
def Expr.Known (F : MozCompiler) : Expr → Prop
  | .str text => F.strs[(F.strId text).toNat]? = some text
  | .set bits => F.sets[(F.setId bits).toNat]? = some bits
  | .ttag name => (F.tags[(F.tagId name).toNat]?).isSome
  | _ => True

/-- The constant of an expression does not match the zero behind the input. -/
def Expr.solid : Expr → Bool
  | .byte ch => ch != 0
  | .str text => text.all (· != 0)
  | .set bits => !bitsetGet bits 0
  | _ => true

section Tests

variable {F : MozCompiler} {input : List UInt8} {G : Nonterminal → Exp UInt8 Nonterminal}
  {x e : Expr} {p : ℕ}

theorem startsWith_iff (R : Runtime) {text : List UInt8} (htext : ∀ c ∈ text, c ≠ 0) :
    R.startsWith p text = true ↔ text <+: R.input.drop p := by
  induction text generalizing p with
  | nil => simp [Runtime.startsWith]
  | cons c text ih =>
    have hc : c ≠ 0 := htext c List.mem_cons_self
    have ih' := ih (p := p + 1) fun d hd => htext d (List.mem_cons_of_mem _ hd)
    rw [Runtime.startsWith, Bool.and_eq_true, beq_iff_eq, ih', Runtime.byteAt]
    cases hget : R.input[p]? with
    | none =>
      have hdrop : R.input.drop p = [] := List.drop_eq_nil_of_le (List.getElem?_eq_none_iff.1 hget)
      simp [hdrop, Ne.symm hc]
    | some d =>
      obtain ⟨hlt, hd⟩ := List.getElem?_eq_some_iff.1 hget
      have hdrop : R.input.drop p = d :: R.input.drop (p + 1) := by
        rw [← hd]
        exact List.drop_eq_getElem_cons hlt
      rw [hdrop, List.cons_prefix_cons, Option.getD_some, eq_comm]

/-- A byte test at the end of the input reads the zero behind it. -/
theorem byteAt_derives (test : UInt8 → Bool) (hzero : test 0 = false) :
    Derives G input (.one test) p
      (if test ((F.runtime input).byteAt p) then some (p + 1) else none) := by
  rw [Peg.derives_one, Runtime.byteAt]
  have hinput : (F.runtime input).input = input := rfl
  rw [hinput]
  cases hget : input[p]? with
  | none => simp [hzero]
  | some c => simp

theorem test_derives (hx : x.tested) (hknown : x.Known F) (hsolid : x.solid)
    (hp : p ≤ input.length) : ∃ found width, x.test F (F.runtime input) p = some (found, width) ∧
      Derives G input x.peg p (if found then some (p + width) else none) := by
  cases x with
  | any =>
    refine ⟨_, 1, rfl, ?_⟩
    rw [Expr.peg, Peg.derives_one]
    by_cases htail : p = input.length
    · subst htail
      have heos : (F.runtime input).eos input.length = true := beq_iff_eq.2 rfl
      simp [heos]
    · have heos : (F.runtime input).eos p = false := beq_eq_false_iff_ne.2 htail
      have hlt : p < input.length := by omega
      simp [heos, hlt]
  | byte ch =>
    have hch : ch ≠ 0 := by simpa [Expr.solid] using hsolid
    exact ⟨_, 1, rfl, byteAt_derives (· == ch) (beq_eq_false_iff_ne.2 hch.symm)⟩
  | str text =>
    have hsolid' : ∀ c ∈ text, c ≠ 0 := by simpa [Expr.solid] using hsolid
    have hget : (F.runtime input).strs[(F.strId text).toNat]? = some text := hknown
    refine ⟨_, text.length, by rw [Expr.test, strTest, hget]; rfl, ?_⟩
    have hstarts : (F.runtime input).startsWith p text = true ↔ text <+: input.drop p :=
      startsWith_iff _ hsolid'
    rw [Expr.peg, Peg.derives_word]
    simp only [hstarts]
  | set bits =>
    have hzero : bitsetGet bits 0 = false := by simpa [Expr.solid] using hsolid
    have hget : (F.runtime input).sets[(F.setId bits).toNat]? = some bits := hknown
    exact ⟨_, 1, by rw [Expr.test, setTest, hget]; rfl, byteAt_derives (bitsetGet bits) hzero⟩
  | _ => cases hx

/-- Only the empty literal takes no byte. -/
theorem test_width (hne : x ≠ .str []) (hknown : x.Known F) {found : Bool} {width : ℕ}
    (h : x.test F (F.runtime input) p = some (found, width)) : 0 < width := by
  cases x with
  | any | byte =>
    cases h
    exact one_pos
  | str text =>
    have hget : (F.runtime input).strs[(F.strId text).toNat]? = some text := hknown
    rw [Expr.test, strTest, hget] at h
    cases h
    exact List.length_pos_iff.2 fun hnil => hne (hnil ▸ rfl)
  | set bits =>
    have hget : (F.runtime input).sets[(F.setId bits).toNat]? = some bits := hknown
    rw [Expr.test, setTest, hget] at h
    cases h
    exact one_pos
  | _ => cases h

/-- A loop that stops has the result of the repetition. -/
theorem acceptLoop_derives (hx : x.tested) (hknown : x.Known F) (hsolid : x.solid) {fuel q : ℕ}
    (hp : p ≤ input.length) (h : acceptLoop (x.test F (F.runtime input)) fuel p = some q) :
    Derives G input (.star (pegSequence [x])) p (some q) := by
  induction fuel generalizing p with
  | zero => cases h
  | succ fuel ih =>
    obtain ⟨found, width, htest, hderives⟩ := test_derives (G := G) hx hknown hsolid hp
    rw [acceptLoop, htest] at h
    cases found with
    | false =>
      cases h
      exact .starStop (.seqFail hderives)
    | true => exact .star (.seq hderives (.empty _)) (ih (hderives.le.2 hp) h)

/-- A loop that takes bytes stops. -/
theorem acceptLoop_isSome (hx : x.tested) (hne : x ≠ .str []) (hknown : x.Known F)
    (hsolid : x.solid) {fuel : ℕ} (hp : p ≤ input.length) (hfuel : input.length < p + fuel) :
    (acceptLoop (x.test F (F.runtime input)) fuel p).isSome := by
  induction fuel generalizing p with
  | zero => omega
  | succ fuel ih =>
    obtain ⟨found, width, htest, hderives⟩ :=
      test_derives (G := fun _ : Nonterminal => Exp.never) hx hknown hsolid hp
    rw [acceptLoop, htest]
    cases found with
    | false => rfl
    | true =>
      have hwidth := test_width hne hknown htest
      exact ih (hderives.le.2 hp) (by omega)

/-- The loop of an instruction has the result of the repetition. -/
theorem acceptWhile_derives (hx : x.tested) (hknown : x.Known F) (hsolid : x.solid)
    (hp : p ≤ input.length) {q : ℕ} :
    acceptWhile (F.runtime input) (x.test F (F.runtime input)) p = some q ↔
      Derives G input (.star (pegSequence [x])) p (some q) := by
  refine ⟨acceptLoop_derives hx hknown hsolid hp, fun h => ?_⟩
  by_cases hne : x = .str []
  · have hempty : Derives G input (pegSequence [x]) p (some p) := by
      rw [hne]
      exact .seq (.empty p) (.empty p)
    exact absurd h hempty.star_diverges
  · have htail : (F.runtime input).tail = input.length := rfl
    have hsome : (acceptWhile (F.runtime input) (x.test F (F.runtime input)) p).isSome :=
      acceptLoop_isSome hx hne hknown hsolid hp (by omega)
    obtain ⟨q', hq'⟩ := Option.isSome_iff_exists.1 hsome
    rw [hq', (acceptLoop_derives hx hknown hsolid hp hq').unique h]

end Tests

def Effect.ofResult : Option ℕ → Effect
  | some q => .next q
  | none => .fail

theorem Effect.ofResult_inj {o o' : Option ℕ} (h : Effect.ofResult o = Effect.ofResult o') : o = o' := by
  cases o <;> cases o' <;> cases h <;> rfl

section Leaves

variable {F : MozCompiler} {input : List UInt8} {G : Nonterminal → Exp UInt8 Nonterminal}
  {x e : Expr} {p : ℕ} {op : Op}

/-- What a construct of one instruction does is the result of its parsing expression. -/
def Agrees (F : MozCompiler) (G : Nonterminal → Exp UInt8 Nonterminal) (input : List UInt8)
    (e : Expr) : Prop :=
  ∀ p ≤ input.length,
    (e.peg = .empty ∧ (F.reading (F.runtime input)).effect e p = .stuck ∧
      ((F.reading (F.runtime input)).entry e p).isSome) ∨
    ((F.reading (F.runtime input)).entry e p = none ∧ ∀ o, Derives G input e.peg p o ↔
      (F.reading (F.runtime input)).effect e p = Effect.ofResult o)

theorem reading_effect_eq (hop : e.op F = some op) (R : Runtime) :
    (F.reading R).effect e p = op.effect R p := by
  simp [MozCompiler.reading, hop]

theorem reading_entry_eq (hop : e.op F = some op) (R : Runtime) :
    (F.reading R).entry e p = op.entry R p := by
  simp [MozCompiler.reading, hop]

theorem Agrees.ofEffect (hop : e.op F = some op) (hentry : ∀ R p, op.entry R p = none)
    (heffect : ∀ p ≤ input.length, ∀ o, Derives G input e.peg p o ↔
      op.effect (F.runtime input) p = Effect.ofResult o) : Agrees F G input e := by
  intro p hp
  refine .inr ⟨by rw [reading_entry_eq hop, hentry], fun o => ?_⟩
  rw [reading_effect_eq hop]
  exact heffect p hp o

/-- A construct that is one test, or decides by one, agrees. -/
theorem Agrees.ofTest (hop : e.op F = some op) (hentry : ∀ R p, op.entry R p = none)
    (heffect : ∀ p ≤ input.length, ∃ o, Derives G input e.peg p o ∧
      op.effect (F.runtime input) p = Effect.ofResult o) : Agrees F G input e := by
  refine .ofEffect hop hentry fun p hp o' => ?_
  obtain ⟨o, hderives, heffect⟩ := heffect p hp
  rw [heffect]
  constructor
  · intro h
    rw [hderives.unique h]
  · intro h
    exact Effect.ofResult_inj h ▸ hderives

theorem Agrees.ofLog (hop : e.op F = some op) (hpeg : e.peg = .empty)
    (heffect : ∀ R p, op.effect R p = .stuck)
    (hentry : ∀ p, (op.entry (F.runtime input) p).isSome) : Agrees F G input e := by
  intro p _
  refine .inl ⟨hpeg, ?_, ?_⟩
  · rw [reading_effect_eq hop, heffect]
  · rw [reading_entry_eq hop]
    exact hentry p

theorem accept_ofResult {test : ℕ → Option (Bool × ℕ)} {found : Bool} {width : ℕ}
    (h : test p = some (found, width)) :
    accept test p = Effect.ofResult (if found then some (p + width) else none) := by
  rw [accept, h]
  cases found <;> rfl

theorem agrees_tested (hx : x.tested) (hknown : x.Known F) (hsolid : x.solid) :
    Agrees F G input x := by
  have htest : ∀ p ≤ input.length, ∃ o, Derives G input x.peg p o ∧
      accept (x.test F (F.runtime input)) p = Effect.ofResult o := by
    intro p hp
    obtain ⟨found, width, htest, hderives⟩ := test_derives (G := G) hx hknown hsolid hp
    exact ⟨_, hderives, accept_ofResult htest⟩
  cases x with
  | any | byte | str | set => exact .ofTest rfl (fun _ _ => rfl) htest
  | _ => cases hx

theorem agrees_notAny : Agrees F G input (.not .any) := by
  refine .ofTest rfl (fun _ _ => rfl) fun p hp => ?_
  obtain ⟨found, width, htest, hderives⟩ :=
    test_derives (F := F) (G := G) (x := .any) rfl trivial rfl hp
  have htest' : anyTest (F.runtime input) p = some (found, width) := htest
  cases found with
  | true => exact ⟨none, .notFail hderives, by simp [Op.effect, reject, htest', Effect.ofResult]⟩
  | false => exact ⟨some p, .not hderives, by simp [Op.effect, reject, htest', Effect.ofResult]⟩

theorem agrees_option (hx : x.tested) (hne : x ≠ .any) (hknown : x.Known F) (hsolid : x.solid) :
    Agrees F G input (.option x) := by
  have heffect : ∀ p ≤ input.length, ∃ o, Derives G input (Expr.option x).peg p o ∧
      moved (acceptOption (x.test F (F.runtime input)) p) = Effect.ofResult o := by
    intro p hp
    obtain ⟨found, width, htest, hderives⟩ := test_derives (G := G) hx hknown hsolid hp
    rw [acceptOption, htest]
    cases found with
    | true => exact ⟨_, hderives.option, rfl⟩
    | false => exact ⟨_, hderives.optionNone, rfl⟩
  cases x with
  | any => exact absurd rfl hne
  | byte | str | set => exact .ofTest rfl (fun _ _ => rfl) heffect
  | _ => cases hx

theorem moved_ne_fail {o : Option ℕ} : moved o ≠ .fail := by
  intro h
  cases o <;> cases h

theorem moved_eq_next {o : Option ℕ} {q : ℕ} : moved o = .next q ↔ o = some q := by
  cases o <;> simp [moved]

theorem agrees_repetition (hx : x.tested) (hknown : x.Known F) (hsolid : x.solid) :
    Agrees F G input (.repetition [x]) := by
  have heffect : ∀ p ≤ input.length, ∀ o, Derives G input (Expr.repetition [x]).peg p o ↔
      moved (acceptWhile (F.runtime input) (x.test F (F.runtime input)) p) = Effect.ofResult o := by
    intro p hp o
    cases o with
    | none => exact iff_of_false Derives.star_ne_none moved_ne_fail
    | some q => exact (acceptWhile_derives hx hknown hsolid hp).symm.trans moved_eq_next.symm
  cases x with
  | any | byte | str | set => exact .ofEffect rfl (fun _ _ => rfl) heffect
  | _ => cases hx

theorem agrees_of_op (h : ∀ x, Expr.Within x e → x.Known F ∧ x.solid) (hop : e.op F = some op) :
    Agrees F G input e := by
  cases e with
  | any | byte | str | set => exact agrees_tested rfl (h _ .self).1 (h _ .self).2
  | tcapture | tpush | tnew =>
    exact .ofLog rfl rfl (fun _ _ => rfl) (fun _ => rfl)
  | tpop => exact .ofLog rfl rfl (fun _ _ => rfl) (fun _ => rfl)
  | ttag name =>
    refine .ofLog rfl rfl (fun _ _ => rfl) fun p => ?_
    rw [Op.entry, Option.isSome_map]
    exact (h _ .self).1
  | empty | invoke | and | choice | fail | sequence | todo => cases hop
  | not x =>
    cases x with
    | any => exact agrees_notAny
    | _ => cases hop
  | option x =>
    obtain ⟨hknown, hsolid⟩ := h x (.option .self)
    cases x with
    | byte | str | set => exact agrees_option rfl (by simp) hknown hsolid
    | _ => cases hop
  | repetition list =>
    match list, hop with
    | [x], hop =>
      obtain ⟨hknown, hsolid⟩ := h x (.repetition (List.mem_singleton_self x) .self)
      cases x with
      | any | byte | str | set => exact agrees_repetition rfl hknown hsolid
      | _ => cases hop

end Leaves

def grammar (decls : List Decl) : Nonterminal → Exp UInt8 Nonterminal
  | .decl d => (decls[d]?.map fun decl => decl.body.peg).getD Exp.never
  | .todo _ => Exp.never

def Form.peg : Form → Exp UInt8 Nonterminal
  | .expr _ e => e.peg
  | .sequence list => pegSequence list
  | .choice list => pegChoice list
  | .rounds _ list => .star (pegSequence list)

def Walked.result : Walked → Option ℕ
  | .ok stop _ _ _ => some stop
  | .fail _ _ _ => none

@[simp] theorem Walked.result_after (w : Walked) (cells : List ℕ) (logs kept : List AstLog) :
    (w.after cells logs kept).result = w.result := by
  cases w <;> rfl

/-- `x` is part of what is walked through. -/
def Form.Has (x : Expr) : Form → Prop
  | .expr _ e => Expr.Within x e
  | .sequence list | .choice list | .rounds _ list => ∃ e ∈ list, Expr.Within x e

/-- All that occurs in a form has its constants in the pools and takes a byte. -/
def Form.Sound (F : MozCompiler) (form : Form) : Prop := ∀ x, form.Has x → x.Known F ∧ x.solid

def SoundDecls (F : MozCompiler) (decls : List Decl) : Prop :=
  ∀ (d : ℕ) (decl : Decl), decls[d]? = some decl → 0 < decl.refc →
    (Form.expr false decl.body).Sound F

def Clean (p q : ℕ) (_ : List AstLog) : Prop := q = p

section Walks

variable {F : MozCompiler} {decls : List Decl} {input : List UInt8} {form : Form} {sp p q : ℕ}
  {w : Walked} {hd : Bool} {e : Expr} {list : List Expr}

theorem Form.Sound.agrees {G : Nonterminal → Exp UInt8 Nonterminal} (h : (Form.expr hd e).Sound F)
    {op : Op} (hop : e.op F = some op) : Agrees F G input e := agrees_of_op h hop

theorem effect_derives (h : (Form.expr hd e).Sound F) (hp : p ≤ input.length) {o : Option ℕ}
    (heffect : (F.reading (F.runtime input)).effect e p = Effect.ofResult o) :
    Derives (grammar decls) input e.peg p o := by
  cases hop : e.op F with
  | none =>
    simp only [MozCompiler.reading, hop] at heffect
    cases o <;> cases heffect
  | some op =>
    obtain ⟨-, hstuck, -⟩ | ⟨-, hiff⟩ := h.agrees (G := grammar decls) hop p hp
    · rw [hstuck] at heffect
      cases o <;> cases heffect
    · exact (hiff o).2 heffect

theorem entry_derives (h : (Form.expr hd e).Sound F) (hp : p ≤ input.length) {log : AstLog}
    (hentry : (F.reading (F.runtime input)).entry e p = some log) :
    Derives (grammar decls) input e.peg p (some p) := by
  obtain ⟨op, hop, -⟩ := reading_entry hentry
  obtain ⟨hpeg, -⟩ | ⟨hnone, -⟩ := h.agrees (G := grammar decls) hop p hp
  · rw [hpeg]
    exact .empty p
  · rw [hnone] at hentry
    cases hentry

theorem grammar_decl {d : ℕ} {decl : Decl} (hdecl : decls[d]? = some decl) :
    grammar decls (.decl d) = decl.body.peg := by
  simp [grammar, hdecl]

/-- A clean walk has the result of the parsing expression. -/
theorem Walk.derives (hdecls : SoundDecls F decls)
    (h : Walk (F.reading (F.runtime input)) decls Clean form sp p w) (hform : form.Sound F)
    (hp : p ≤ input.length) : Derives (grammar decls) input form.peg p w.result := by
  induction h with
  | empty => exact .empty _
  | one heffect => exact effect_derives hform hp (o := some _) heffect
  | oneFail heffect => exact effect_derives hform hp (o := none) heffect
  | log hentry => exact entry_derives hform hp hentry
  | fail => exact .never _
  | invoke hdecl hrefc _ _ ih =>
    have hbody := ih (hdecls _ _ hdecl hrefc) hp
    exact .var ((grammar_decl hdecl).symm ▸ hbody)
  | invokeFail hdecl hrefc _ _ ih =>
    have hbody := ih (hdecls _ _ hdecl hrefc) hp
    exact .var ((grammar_decl hdecl).symm ▸ hbody)
  | and _ _ _ hresume ih =>
    have hbody := ih (fun x hx => hform x (.and hx)) hp
    rw [Walked.result, hresume]
    exact hbody.and
  | andFail _ _ ih => exact (ih (fun x hx => hform x (.and hx)) hp).andFail
  | not _ _ _ _ hresume ih =>
    have hbody := ih (fun x hx => hform x (.not hx)) hp
    rw [Walked.result, hresume]
    exact .not hbody
  | notFail _ _ _ ih => exact .notFail (ih (fun x hx => hform x (.not hx)) hp)
  | option _ _ ih => exact (ih (fun x hx => hform x (.option hx)) hp).option
  | optionNone _ _ hresume ih =>
    have hbody := ih (fun x hx => hform x (.option hx)) hp
    rw [Walked.result, hresume]
    exact hbody.optionNone
  | choice _ ih =>
    exact ih (fun x hx => by obtain ⟨e, he, hx⟩ := hx; exact hform x (.choice he hx)) hp
  | sequence _ ih =>
    exact ih (fun x hx => by obtain ⟨e, he, hx⟩ := hx; exact hform x (.sequence he hx)) hp
  | repetition _ _ ih =>
    exact ih (fun x hx => by obtain ⟨e, he, hx⟩ := hx; exact hform x (.repetition he hx)) hp
  | alternative _ ih =>
    exact .choice (ih (fun x hx => hform x ⟨_, List.mem_cons_self, hx⟩) hp)
  | alternativeLast _ ih =>
    exact .choiceNext (ih (fun x hx => hform x ⟨_, List.mem_cons_self, hx⟩) hp) (.never _)
  | alternativeNext _ hresume _ ihx ih =>
    obtain rfl := hresume
    rw [Walked.result_after]
    exact .choiceNext (ihx (fun x hx => hform x ⟨_, List.mem_cons_self, hx⟩) hp)
      (ih (fun x hx => by obtain ⟨e, he, hx⟩ := hx; exact hform x ⟨e, .tail _ he, hx⟩) hp)
  | nil => exact .empty _
  | cons _ _ ihx ih =>
    have hx := ihx (fun x hx => hform x ⟨_, List.mem_cons_self, hx⟩) hp
    rw [Walked.result_after]
    exact .seq hx (ih (fun x hx => by obtain ⟨e, he, hx⟩ := hx; exact hform x ⟨e, .tail _ he, hx⟩)
      (hx.le.2 hp))
  | consFail _ ih => exact .seqFail (ih (fun x hx => hform x ⟨_, List.mem_cons_self, hx⟩) hp)
  | stop _ hresume ih =>
    have hround := ih hform hp
    rw [Walked.result, hresume]
    exact .starStop hround
  | round _ _ ihx ih =>
    have hround := ihx hform hp
    rw [Walked.result_after]
    exact .star hround (ih hform (hround.le.2 hp))
  | roundStore _ _ _ ihx ih =>
    have hround := ihx hform hp
    rw [Walked.result_after]
    exact .star hround (ih hform (hround.le.2 hp))

end Walks

end Moz.Compiler
