import Moz.Compiler.Coverage
import Moz.Lib.Progress

/-!
# The loops of repetitions

A `Repetition` is one instruction that loops over the input, or a loop of blocks.
Neither looks whether a round has consumed anything. A loop in which every round
that matches goes forward, and not beyond the end of the input, is left; the loop
of `('a'?)*` never is where there is no `a`.
-/

namespace Moz.Compiler

open StateTransition Vm2

/-- What the instruction of a repetition tests before each round. -/
def roundTest (R : Runtime) : Op → Option (ℕ → Option (Bool × ℕ))
  | .iRAny => some (anyTest R)
  | .iRByte ch => some (byteTest R ch)
  | .iRStr strId => some (strTest R strId)
  | .iRSet setId => some (setTest R setId)
  | _ => none

theorem roundTest_of_repetitionOp {F : MozCompiler} {list : List Expr} {op : Op} (R : Runtime)
    (h : Expr.repetitionOp F list = some op) :
    ∃ test, roundTest R op = some test ∧ ∀ p, op.effect R p = moved (acceptWhile R test p) := by
  match list with
  | [] => cases h
  | _ :: _ :: _ => cases h
  | [e] =>
    rw [Expr.repetitionOp] at h
    cases e <;> cases h <;> exact ⟨_, rfl, fun p => rfl⟩

/-- The loop of an instruction ends if every round goes forward within the input. -/
theorem acceptLoop_some {R : Runtime} {test : ℕ → Option (Bool × ℕ)} {current : ℕ} (fuel : ℕ)
    (hcurrent : current ≤ R.tail) (hfuel : R.tail < current + fuel)
    (hsome : ∀ p, (test p).isSome)
    (hadvance : ∀ p width, current ≤ p → p ≤ R.tail → test p = some (true, width) →
      0 < width ∧ p + width ≤ R.tail) :
    ∃ stop, acceptLoop test fuel current = some stop := by
  induction fuel generalizing current with
  | zero => omega
  | succ fuel ih =>
    obtain ⟨⟨found, width⟩, htest⟩ := Option.isSome_iff_exists.1 (hsome current)
    cases found with
    | false => exact ⟨current, by simp [acceptLoop, htest]⟩
    | true =>
      obtain ⟨hwidth, hinside⟩ := hadvance current width le_rfl hcurrent htest
      obtain ⟨stop, hstop⟩ := ih hinside (by omega) fun p width' hp =>
        hadvance p width' (by omega)
      exact ⟨stop, by simp [acceptLoop, htest, hstop]⟩

variable (F : MozCompiler) (R : Runtime)

/-- The loop of a repetition: the code `l` of the body, `stop` after it, and the block `next` that
follows the loop. -/
structure Loop (hd : Bool) (list : List Expr) (l stop : List Ir) (next : BlockId) : Prop where
  op : Expr.repetitionOp F list = none
  body : PlacedSequence F list l next stop
  back : ∃ cur before, Jumps stop cur ∧ F.insts cur = before ++ l ∧ Opened hd before

variable {F R}

theorem Begins.of_eq {op : Op} {fail : BlockId} {l l' rest : List Ir} {ir : Ir}
    (h : Begins op fail l l') (hl : l = ir :: rest) :
    op = ir.op ∧ fail = ir.fail ∧ l' = rest := by
  obtain ⟨ir', rfl, rfl, hcons⟩ := h
  obtain ⟨rfl, rfl⟩ := List.cons.inj (hcons.symm.trans hl)
  exact ⟨rfl, rfl, rfl⟩

theorem Jumps.target {l rest : List Ir} {bb target : BlockId} {ir : Ir} (h : Jumps l bb)
    (hl : l = ir :: rest) (hop : ir.op = .iJump target) : bb = target := by
  obtain ⟨fail, l', hbegins⟩ := h
  exact Op.iJump.inj ((hbegins.of_eq hl).1.trans hop)

theorem Placed.repetition_cases {hd : Bool} {list : List Expr} {l l' : List Ir} {fail : BlockId}
    (h : Placed F hd (.repetition list) l fail l') :
    (∃ op, Expr.repetitionOp F list = some op ∧ Begins op fail l l') ∨
      ∃ stop next, Loop F hd list l stop next ∧ l' = F.insts next := by
  cases h with
  | one hop hl => exact .inl ⟨_, hop, hl⟩
  | repetition hop hlist hstop hcur hbefore =>
    exact .inr ⟨_, _, ⟨hop, hlist, _, _, hstop, hcur, hbefore⟩, rfl⟩

/-- `x` is `e` or occurs in it. -/
inductive Expr.Within (x : Expr) : Expr → Prop
  | self : Expr.Within x x
  | and {e : Expr} (h : Expr.Within x e) : Expr.Within x (.and e)
  | not {e : Expr} (h : Expr.Within x e) : Expr.Within x (.not e)
  | option {e : Expr} (h : Expr.Within x e) : Expr.Within x (.option e)
  | choice {e : Expr} {list : List Expr} (he : e ∈ list) (h : Expr.Within x e) :
      Expr.Within x (.choice list)
  | sequence {e : Expr} {list : List Expr} (he : e ∈ list) (h : Expr.Within x e) :
      Expr.Within x (.sequence list)
  | repetition {e : Expr} {list : List Expr} (he : e ∈ list) (h : Expr.Within x e) :
      Expr.Within x (.repetition list)

theorem PlacedChoice.mem {list : List Expr} {bb fail next : BlockId}
    (h : PlacedChoice F list bb fail next) {e : Expr} (he : e ∈ list) :
    ∃ l fail l', Placed F false e l fail l' := by
  induction list generalizing bb with
  | nil => cases he
  | cons x list ih =>
    cases h with
    | last hx _ =>
      obtain rfl := List.mem_singleton.1 he
      exact ⟨_, _, _, hx⟩
    | cons hx _ hlist =>
      obtain rfl | he := List.mem_cons.1 he
      · exact ⟨_, _, _, hx⟩
      · exact ih hlist he

theorem PlacedSequence.mem {list : List Expr} {l l' : List Ir} {fail : BlockId}
    (h : PlacedSequence F list l fail l') {e : Expr} (he : e ∈ list) :
    ∃ l fail l', Placed F false e l fail l' := by
  induction list generalizing l with
  | nil => cases he
  | cons x list ih =>
    cases h with
    | cons _ hx hlist =>
      obtain rfl | he := List.mem_cons.1 he
      · exact ⟨_, _, _, hx⟩
      · exact ih hlist he

theorem Placed.within {list : List Expr} {e : Expr} (hwithin : Expr.Within (.repetition list) e)
    {hd : Bool} {l l' : List Ir} {fail : BlockId} (h : Placed F hd e l fail l') :
    ∃ hd l fail l', Placed F hd (.repetition list) l fail l' := by
  induction hwithin generalizing hd l l' fail with
  | self => exact ⟨_, _, _, _, h⟩
  | and hx ih =>
    cases h with
    | one hop => cases hop
    | and _ _ hbody => exact ih hbody
  | @not e hx ih =>
    cases h with
    | one hop =>
      exfalso
      -- the operand is a leaf
      cases e <;> first
        | cases hx; done
        | cases hop
    | not _ _ _ hbody => exact ih hbody
  | @option e hx ih =>
    cases h with
    | one hop =>
      exfalso
      -- the operand is a leaf
      cases e <;> first
        | cases hx; done
        | cases hop
    | option _ hbody => exact ih hbody
  | choice he hx ih =>
    cases h with
    | one hop => cases hop
    | choice _ hlist =>
      obtain ⟨_, _, _, hplaced⟩ := hlist.mem he
      exact ih hplaced
  | sequence he hx ih =>
    cases h with
    | one hop => cases hop
    | sequence hlist _ =>
      obtain ⟨_, _, _, hplaced⟩ := hlist.mem he
      exact ih hplaced
  | @repetition e list' he hx ih =>
    cases h with
    | one hop =>
      exfalso
      match list', hop, he with
      | [e'], hop, he =>
        obtain rfl := List.mem_singleton.1 he
        cases e <;> first
          | cases hx; done
          | cases hop
    | repetition _ hlist =>
      obtain ⟨_, _, _, hplaced⟩ := hlist.mem he
      exact ih hplaced

/-- Every repetition of a production has its code among the blocks. -/
theorem mozAstToIr_repetition {C : MozCompiler}
    (hC : ∀ decl ∈ C.decls, 0 < decl.refc → decl.body.implemented) {d : ℕ} {decl : Decl}
    (hd : C.decls[d]? = some decl) (hrefc : 0 < decl.refc) {list : List Expr}
    (hwithin : Expr.Within (.repetition list) decl.body) :
    ∃ hd l fail l', Placed (mozAstToIr C) hd (.repetition list) l fail l' := by
  obtain ⟨entry, -, fail, next, stop, hplaced, -⟩ := mozAstToIr_placed hC hd hrefc
  exact hplaced.within hwithin

/-- After a round the loop is at its head again, at the same position. -/
theorem Loop.again {hd : Bool} {list : List Expr} {l stop : List Ir} {next : BlockId}
    (h : Loop F hd list l stop next) {s : State} (hcode : s.code = stop)
    (hroom : hd = true → s.sp < stackSize) : ∃ s', Reaches (step F R) s s' ∧ s'.code = l ∧
      s'.frames = s.frames ∧ s'.current = s.current := by
  obtain ⟨cur, before, ⟨_, code, ir, hop, -, hir⟩, hcur, hbefore⟩ := h.back
  have hjump : Reaches (step F R) s { s with code := before ++ l } := by
    apply Relation.ReflTransGen.single
    rw [step_eq (hcode.trans hir)]
    simp [exec, hop, hcur]
  cases hd with
  | false =>
    have hnil : before = [] := hbefore
    subst hnil
    exact ⟨_, hjump, rfl, rfl, rfl⟩
  | true =>
    obtain ⟨_, store, hstore, -, rfl⟩ : ∃ fail, Begins .iPStore fail before [] := hbefore
    have hpush : Reaches (step F R) { s with code := [store] ++ l }
        { s with code := l, sp := s.sp + 1, cells := s.current :: s.cells } := by
      apply Relation.ReflTransGen.single
      rw [List.singleton_append, step_eq rfl]
      simp [exec, hstore, guard, hroom rfl]
    exact ⟨_, hjump.trans hpush, rfl, rfl, rfl⟩

section Leaving

variable (F R) (hd : Bool) (list : List Expr) (l l' : List Ir)

/-- In the run from `s` the body ends wherever it begins: a test has an answer, and a round of a
loop comes to the code after the body or to the block after the loop, with room for the cell the
head may store. -/
def BodyEnds (s : State) : Prop :=
  (∀ op test, Expr.repetitionOp F list = some op → roundTest R op = some test →
    ∀ p, (test p).isSome) ∧
  ∀ stop next, Loop F hd list l stop next → ∀ t : State,
    Reaches (step F R) s t → t.code = l → t.frames = s.frames →
      ∃ u, Reaches (step F R) t u ∧ u.frames = s.frames ∧
        (u.code = F.insts next ∨ u.code = stop ∧ (hd = true → u.sp < stackSize))

/-- In the run from `s`, every round that matches ends further on and within the input. -/
def RoundsAdvance (s : State) : Prop :=
  (∀ op test, Expr.repetitionOp F list = some op → roundTest R op = some test →
    ∀ p width, s.current ≤ p → p ≤ R.tail → test p = some (true, width) →
      0 < width ∧ p + width ≤ R.tail) ∧
  ∀ stop next, Loop F hd list l stop next → ∀ t t' : State,
    Reaches (step F R) s t → t.code = l → t.frames = s.frames →
    Reaches (step F R) t t' → t'.code = stop → t'.frames = s.frames →
      t.current < t'.current ∧ t'.current ≤ R.tail

/-- The run from `s` comes to the code after the repetition. -/
def LoopLeft (s : State) : Prop :=
  ∃ s', Reaches (step F R) s s' ∧ s'.code = l' ∧ s'.frames = s.frames

end Leaving

/-- The loop of a repetition is left in every run in which each round that matches goes forward. -/
theorem loop_left {hd : Bool} {list : List Expr} {l l' : List Ir} {fail : BlockId}
    (hplaced : Placed F hd (.repetition list) l fail l') {s : State} (hcode : s.code = l)
    (hcurrent : s.current ≤ R.tail) (hends : BodyEnds F R hd list l s)
    (hadvance : RoundsAdvance F R hd list l s) : LoopLeft F R l' s := by
  obtain ⟨op, hop, ir, hir, -, rfl⟩ | ⟨stop, next, hloop, rfl⟩ := hplaced.repetition_cases
  · obtain ⟨test, htest, heffect⟩ := roundTest_of_repetitionOp R hop
    obtain ⟨q, hq⟩ := acceptLoop_some (R.tail + 2) hcurrent (by omega) (hends.1 op test hop htest)
      (hadvance.1 op test hop htest)
    have hstep : step F R s = some { s with code := l', current := q } := by
      rw [step_eq hcode]
      apply exec_next
      rw [hir, heffect, acceptWhile, hq, moved]
    exact ⟨_, .single hstep, rfl, rfl⟩
  · have hround : ∀ t, Reaches (step F R) s t → t.code = l ∧ t.frames = s.frames →
        (∃ t', Reaches (step F R) t t' ∧ t'.code = F.insts next ∧ t'.frames = s.frames) ∨
          ∃ t', Reaches (step F R) t t' ∧ (t'.code = l ∧ t'.frames = s.frames) ∧
            t.current < t'.current ∧ t'.current ≤ R.tail := by
      rintro t ht ⟨htcode, htframes⟩
      obtain ⟨u, hu, huframes, hexit | ⟨hstop, hroom⟩⟩ := hends.2 stop next hloop t ht htcode htframes
      · exact .inl ⟨u, hu, hexit, huframes⟩
      · obtain ⟨v, hv, hvcode, hvframes, hvcurrent⟩ := hloop.again hstop hroom
        have hforward := hadvance.2 stop next hloop t u ht htcode htframes hu hstop huframes
        rw [← hvcurrent] at hforward
        exact .inr ⟨v, hu.trans hv, ⟨hvcode, hvframes.trans huframes⟩, hforward⟩
    exact Progress.exits State.current R.tail ⟨hcode, rfl⟩ hround

/-- `File = (!'ab' X)*` and `X = 'c' X / 'd'`. -/
def untilAb : MozCompiler where
  decls := [{ body := .repetition [.sequence [.not (.str [97, 98]), .invoke 1]] },
    { body := .choice [.sequence [.byte 99, .invoke 1], .byte 100], refc := 2 }]

def placedIr (addr : ℕ) (parent fail : BlockId) (op : Op) : Ir :=
  { addr := addr, id := UInt32.ofNat addr, parent := parent, fail := fail, op := op }

/-- The head of the loop, what follows each round, and the blocks of `!'ab'` and `X`. -/
theorem untilAb_insts : (mozAstToIr untilAb).insts 0 = [placedIr 0 0 4 (.iJump 3)] ∧
    (mozAstToIr untilAb).insts 3 = [placedIr 1 3 4 (.iJump 6)] ∧
    (mozAstToIr untilAb).insts 4 = [placedIr 12 4 2 (.iJump 1)] ∧
    (mozAstToIr untilAb).insts 5 = [placedIr 11 5 4 (.iJump 0)] ∧
    (mozAstToIr untilAb).insts 6 = [placedIr 2 6 4 (.iJump 8)] ∧
    (mozAstToIr untilAb).insts 7 = [placedIr 9 7 4 (.iInvoke 1), placedIr 10 7 4 (.iJump 5)] ∧
    (mozAstToIr untilAb).insts 8 = [placedIr 3 8 9 .iPStore, placedIr 4 8 9 (.iStr 0),
      placedIr 5 8 9 (.iJump 10)] ∧
    (mozAstToIr untilAb).insts 9 = [placedIr 7 9 4 .iPLoad, placedIr 8 9 4 (.iJump 7)] ∧
    (mozAstToIr untilAb).insts 10 = [placedIr 6 10 9 (.iJump 4)] := by
  decide +kernel

def untilAbBody : List Expr := [.sequence [.not (.str [97, 98]), .invoke 1]]

theorem untilAb_placed : Placed (mozAstToIr untilAb) false (.repetition untilAbBody)
    ((mozAstToIr untilAb).insts 0) 2 ((mozAstToIr untilAb).insts 4) := by
  obtain ⟨h0, h3, h4, h5, h6, h7, h8, h9, h10⟩ := untilAb_insts
  have hstr : Placed (mozAstToIr untilAb) true (.str [97, 98])
      [placedIr 4 8 9 (.iStr 0), placedIr 5 8 9 (.iJump 10)] 9 [placedIr 5 8 9 (.iJump 10)] := by
    refine .one (congrArg some ?_) ⟨_, rfl, rfl, rfl⟩
    decide +kernel
  have hnot : Placed (mozAstToIr untilAb) false (.not (.str [97, 98]))
      ((mozAstToIr untilAb).insts 6) 4 [placedIr 8 9 4 (.iJump 7)] :=
    .not rfl ⟨_, _, _, rfl, rfl, h6⟩ ⟨_, rfl, rfl, h8⟩ hstr ⟨_, _, _, rfl, rfl, rfl⟩
      ⟨_, _, _, rfl, rfl, h10⟩ ⟨_, rfl, rfl, h9⟩
  have hinvoke : Placed (mozAstToIr untilAb) false (.invoke 1) ((mozAstToIr untilAb).insts 7) 4
      [placedIr 10 7 4 (.iJump 5)] := .invoke ⟨_, rfl, rfl, h7⟩
  have hsequence : PlacedSequence (mozAstToIr untilAb) [.not (.str [97, 98]), .invoke 1]
      ((mozAstToIr untilAb).insts 3) 4 [placedIr 10 7 4 (.iJump 5)] :=
    .cons ⟨_, _, _, rfl, rfl, h3⟩ hnot (.cons ⟨_, _, _, rfl, rfl, rfl⟩ hinvoke .nil)
  have hbody : PlacedSequence (mozAstToIr untilAb) untilAbBody ((mozAstToIr untilAb).insts 0) 4
      ((mozAstToIr untilAb).insts 5) :=
    .cons ⟨_, _, _, rfl, rfl, h0⟩ (.sequence hsequence ⟨_, _, _, rfl, rfl, rfl⟩) .nil
  exact .repetition rfl hbody ⟨_, _, _, rfl, rfl, h5⟩ rfl rfl

theorem untilAb_loop {stop : List Ir} {next : BlockId}
    (h : Loop (mozAstToIr untilAb) false untilAbBody ((mozAstToIr untilAb).insts 0) stop next) :
    stop = (mozAstToIr untilAb).insts 5 ∧ next = 4 := by
  obtain ⟨h0, h3, -, -, h6, h7, h8, h9, h10⟩ := untilAb_insts
  cases h.body with
  | cons hl hx hlist =>
    cases hlist
    obtain rfl := hl.target h0 rfl
    cases hx with
    | one hop => cases hop
    | sequence hlist hstop =>
      cases hlist with
      | cons hl hx hlist =>
        obtain rfl := hl.target h3 rfl
        cases hx with
        | one hop => cases hop
        | not _ hl hstore hbody hstop' hnext hload =>
          obtain rfl := hl.target h6 rfl
          obtain ⟨-, -, rfl⟩ := hstore.of_eq h8
          cases hbody with
          | one _ hl =>
            obtain ⟨-, rfl, rfl⟩ := hl.of_eq rfl
            obtain rfl := hstop'.target rfl rfl
            obtain rfl := hnext.target h10 rfl
            obtain ⟨-, -, rfl⟩ := hload.of_eq h9
            cases hlist with
            | cons hl hx hlist =>
              obtain rfl := hl.target rfl rfl
              cases hx with
              | one hop => cases hop
              | invoke hl =>
                obtain ⟨-, -, rfl⟩ := hl.of_eq h7
                cases hlist
                obtain rfl := hstop.target rfl rfl
                exact ⟨rfl, rfl⟩

/-- The start of `File`. -/
def untilAbStart : State :=
  { code := (mozAstToIr untilAb).insts 0, current := 0, sp := 0 }

/-- The run of `File` on `cd`: a round over both bytes, with a call within a call, and one that
finds no `X`. -/
def untilAbRun (s : State) : List State :=
  Progress.trace (step (mozAstToIr untilAb) ((mozAstToIr untilAb).runtime [99, 100])) 50 s

theorem mem_untilAbRun {s t : State} (hlength : (untilAbRun s).length < 50) :
    Reaches (step (mozAstToIr untilAb) ((mozAstToIr untilAb).runtime [99, 100])) s t ↔
      t ∈ untilAbRun s :=
  Progress.reaches_iff_mem_trace hlength

/-- Each round of the run ends, further on and within the input. -/
theorem untilAbRun_rounds : ∀ t ∈ untilAbRun untilAbStart,
    t.code = (mozAstToIr untilAb).insts 0 → t.frames.isEmpty →
      (untilAbRun t).length < 50 ∧
      (∃ u ∈ untilAbRun t, u.frames.isEmpty ∧
        (u.code = (mozAstToIr untilAb).insts 4 ∨ u.code = (mozAstToIr untilAb).insts 5)) ∧
      ∀ u ∈ untilAbRun t, u.code = (mozAstToIr untilAb).insts 5 → u.frames.isEmpty →
        t.current < u.current ∧ u.current ≤ 2 := by
  decide +kernel

theorem loop_left_untilAb : LoopLeft (mozAstToIr untilAb)
    ((mozAstToIr untilAb).runtime [99, 100]) ((mozAstToIr untilAb).insts 4) untilAbStart := by
  have hlength : (untilAbRun untilAbStart).length < 50 := by decide +kernel
  refine loop_left untilAb_placed rfl (Nat.zero_le _) ⟨?_, ?_⟩ ⟨?_, ?_⟩
  · intro op test hop
    cases hop
  · intro stop next hloop t ht hcode hframes
    obtain ⟨rfl, rfl⟩ := untilAb_loop hloop
    obtain ⟨ht', ⟨u, hu, huframes, hucode⟩, -⟩ := untilAbRun_rounds t
      ((mem_untilAbRun hlength).1 ht) hcode (List.isEmpty_iff.2 hframes)
    exact ⟨u, (mem_untilAbRun ht').2 hu, List.isEmpty_iff.1 huframes,
      hucode.imp_right fun h => ⟨h, fun hd => by cases hd⟩⟩
  · intro op test hop
    cases hop
  · intro stop next hloop t u ht hcode hframes hu hucode huframes
    obtain ⟨rfl, rfl⟩ := untilAb_loop hloop
    obtain ⟨ht', -, hforward⟩ := untilAbRun_rounds t ((mem_untilAbRun hlength).1 ht) hcode
      (List.isEmpty_iff.2 hframes)
    exact hforward u ((mem_untilAbRun ht').1 hu) hucode (List.isEmpty_iff.2 huframes)

/-- `File = ('a'?)*`. -/
def zeroMoreOption : MozCompiler where
  decls := [{ body := .repetition [.option (.byte 97)] }]

def toBody : Ir := { addr := 0, id := 0, parent := 0, fail := 4, op := .iJump 3 }

def optionByte : Ir := { addr := 1, id := 1, parent := 3, fail := 4, op := .iOByte 97 }

def toHead : Ir := { addr := 2, id := 2, parent := 3, fail := 4, op := .iJump 0 }

theorem zeroMoreOption_insts : (mozAstToIr zeroMoreOption).insts 0 = [toBody] ∧
    (mozAstToIr zeroMoreOption).insts 3 = [optionByte, toHead] ∧
    (mozAstToIr zeroMoreOption).insts 4 = [{ addr := 3, id := 3, parent := 4, fail := 2, op := .iJump 1 }] := by
  decide +kernel

theorem zeroMoreOption_placed : Placed (mozAstToIr zeroMoreOption) false
    (.repetition [.option (.byte 97)]) [toBody] 2 ((mozAstToIr zeroMoreOption).insts 4) := by
  obtain ⟨hhead, hbody, -⟩ := zeroMoreOption_insts
  have hplaced : PlacedSequence (mozAstToIr zeroMoreOption) [.option (.byte 97)] [toBody] 4
      [toHead] := by
    refine .cons ⟨4, [], toBody, rfl, rfl, rfl⟩ ?_ .nil
    rw [hbody]
    exact .one rfl ⟨optionByte, rfl, rfl, rfl⟩
  exact .repetition rfl hplaced ⟨4, [], toHead, rfl, rfl, rfl⟩ hhead rfl

def Circles (s : State) : Prop :=
  s.current = 0 ∧ (s.code = [toBody] ∨ s.code = [optionByte, toHead] ∨ s.code = [toHead])

theorem circles_step {s s' : State} (h : Circles s)
    (hstep : step (mozAstToIr zeroMoreOption) ((mozAstToIr zeroMoreOption).runtime []) s = some s') :
    Circles s' := by
  obtain ⟨hhead, hbody, -⟩ := zeroMoreOption_insts
  obtain ⟨hcurrent, hcode | hcode | hcode⟩ := h
  · rw [step_eq hcode] at hstep
    obtain rfl := Option.some.inj hstep
    exact ⟨hcurrent, .inr (.inl hbody)⟩
  · rw [step_eq hcode, exec_next (q := 0) (by simp [hcurrent]; rfl)] at hstep
    obtain rfl := Option.some.inj hstep
    exact ⟨rfl, .inr (.inr rfl)⟩
  · rw [step_eq hcode] at hstep
    obtain rfl := Option.some.inj hstep
    exact ⟨hcurrent, .inl hhead⟩

theorem zeroMoreOption_bodyEnds (R : Runtime) (s : State) :
    BodyEnds (mozAstToIr zeroMoreOption) R false [.option (.byte 97)] [toBody] s := by
  obtain ⟨hhead, hbody, -⟩ := zeroMoreOption_insts
  refine ⟨fun op test hop => (nomatch hop), ?_⟩
  rintro stop next hloop t - hcode hframes
  have hstop : stop = [toHead] := by
    cases hloop.body with
    | cons hl hx hlist =>
      cases hlist
      obtain ⟨_, _, ir, hop, -, hir⟩ := hl
      obtain ⟨rfl, -⟩ := List.cons.inj hir
      obtain rfl := Op.iJump.inj hop
      rw [hbody] at hx
      cases hx with
      | one hop hl =>
        obtain ⟨ir, -, -, hcons⟩ := hl
        exact (List.cons.inj hcons).2.symm
      | option he => cases he
  subst hstop
  have hjump : Reaches (step (mozAstToIr zeroMoreOption) R) t
      { t with code := [optionByte, toHead] } := by
    apply Relation.ReflTransGen.single
    rw [step_eq hcode, ← hbody]
    rfl
  obtain ⟨q, hq⟩ : ∃ q, optionByte.op.effect R t.current = .next q := by
    simp only [optionByte, Op.effect, acceptOption, Vm2.byteTest]
    split
    · exact ⟨_, rfl⟩
    · exact ⟨_, rfl⟩
    · next h => cases h
  have hoption : Reaches (step (mozAstToIr zeroMoreOption) R)
      { t with code := [optionByte, toHead] } { t with code := [toHead], current := q } := by
    apply Relation.ReflTransGen.single
    rw [step_eq rfl]
    exact exec_next hq
  exact ⟨_, hjump.trans hoption, hframes, .inr ⟨rfl, fun h => by cases h⟩⟩

/-- The loop is never left, although every round ends. -/
theorem loop_stays :
    ¬∀ (F : MozCompiler) (R : Runtime) (hd : Bool) (list : List Expr) (l l' : List Ir) (fail : BlockId),
      Placed F hd (.repetition list) l fail l' → (∀ R s, BodyEnds F R hd list l s) →
        ∀ s : State, s.code = l → s.current ≤ R.tail → LoopLeft F R l' s := by
  intro h
  obtain ⟨s', hrun, hcode, -⟩ := h _ ((mozAstToIr zeroMoreOption).runtime []) false _ _ _ _
    zeroMoreOption_placed zeroMoreOption_bodyEnds
    { code := [toBody], current := 0, sp := 0 } rfl (Nat.zero_le _)
  have hstart : Circles { code := [toBody], current := 0, sp := 0 } := ⟨rfl, .inl rfl⟩
  have hcircles : Circles s' := Progress.invariant (fun _ _ => circles_step) hstart hrun
  have hstays := hcircles.2
  rw [hcode, zeroMoreOption_insts.2.2] at hstays
  simp [toBody, optionByte, toHead] at hstays

end Moz.Compiler
