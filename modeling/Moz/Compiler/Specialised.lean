import Moz.Compiler.Placement
import Moz.Lib.Progress

/-!
# Single instructions against the general path

An `Option` or a `Repetition` of a test on the input is one instruction, and so is
`Not` of `Any`. Where the blocks of the general path have room on the stack, options
and repetitions come to the same position and to the same block. The blocks of `Not`
do not bring `CURRENT` back when the operand matches, as `INAny` does.
-/

namespace Moz.Compiler

open StateTransition Vm2

/-- `n` matches of a test, one after the other, lead from one position to another. -/
inductive Rounds (test : ℕ → Option (Bool × ℕ)) : ℕ → ℕ → ℕ → Prop
  | zero {p : ℕ} : Rounds test 0 p p
  | succ {n p q width : ℕ} (h : test p = some (true, width))
      (hrest : Rounds test n (p + width) q) : Rounds test (n + 1) p q

/-- The `n` matches end where the test does not match. -/
def Stops (test : ℕ → Option (Bool × ℕ)) (n p q : ℕ) : Prop :=
  Rounds test n p q ∧ ∃ width, test q = some (false, width)

/-- A test of constant width whose answer is the same everywhere behind the input. -/
structure Steady (R : Runtime) (test : ℕ → Option (Bool × ℕ)) (width : ℕ) : Prop where
  width : ∀ p found w, test p = some (found, w) → w = width
  behind : ∀ p q, R.tail < p → R.tail < q → test p = test q

section Rounds

variable {R : Runtime} {test : ℕ → Option (Bool × ℕ)} {m n p q width : ℕ}

theorem Rounds.split (h : Rounds test (m + n) p q) : ∃ r, Rounds test m p r ∧ Rounds test n r q := by
  induction m generalizing p with
  | zero => exact ⟨p, .zero, by rwa [Nat.zero_add] at h⟩
  | succ m ih =>
    rw [Nat.add_right_comm] at h
    cases h with
    | succ hmatch hrest =>
      obtain ⟨r, hm, hn⟩ := ih hrest
      exact ⟨r, .succ hmatch hm, hn⟩

theorem Steady.position (h : Steady R test width) (hrounds : Rounds test n p q) :
    q = p + n * width := by
  induction hrounds with
  | zero => simp
  | succ hmatch _ ih =>
    rw [ih, h.width _ _ _ hmatch]
    ring

theorem stops_succ_iff (h : test p = some (true, width)) :
    Stops test (n + 1) p q ↔ Stops test n (p + width) q := by
  constructor
  · rintro ⟨hrounds, hstop⟩
    cases hrounds with
    | succ hmatch hrest =>
      obtain rfl : width = _ := congrArg Prod.snd (Option.some.inj (h.symm.trans hmatch))
      exact ⟨hrest, hstop⟩
  · rintro ⟨hrounds, hstop⟩
    exact ⟨.succ h hrounds, hstop⟩

theorem Stops.unique (h : Stops test n p q) (h' : Stops test m p q) : n = m := by
  obtain ⟨hrounds, hstop⟩ := h
  induction hrounds generalizing m with
  | zero =>
    obtain ⟨hrounds', -⟩ := h'
    obtain ⟨width, hstop⟩ := hstop
    cases hrounds' with
    | zero => rfl
    | succ hmatch => exact absurd (hstop.symm.trans hmatch) (by simp)
  | succ hmatch _ ih =>
    cases m with
    | zero =>
      obtain ⟨hrounds', width, hstop'⟩ := h'
      cases hrounds'
      exact absurd (hmatch.symm.trans hstop') (by simp)
    | succ m => exact congrArg (· + 1) (ih ((stops_succ_iff hmatch).1 h') hstop)

theorem acceptLoop_iff (fuel : ℕ) :
    acceptLoop test fuel p = some q ↔ ∃ n < fuel, Stops test n p q := by
  induction fuel generalizing p with
  | zero =>
    constructor
    · intro h
      cases h
    · rintro ⟨n, hn, -⟩
      exact absurd hn (Nat.not_lt_zero n)
  | succ fuel ih =>
    cases htest : test p with
    | none =>
      rw [acceptLoop, htest]
      constructor
      · intro h
        cases h
      · rintro ⟨n, -, hrounds, width, hstop⟩
        cases hrounds with
        | zero => exact absurd (htest.symm.trans hstop) (by simp)
        | succ hmatch => exact absurd (htest.symm.trans hmatch) (by simp)
    | some found =>
      obtain ⟨found, width⟩ := found
      cases found with
      | false =>
        rw [acceptLoop, htest]
        constructor
        · intro h
          obtain rfl := Option.some.inj h
          exact ⟨0, Nat.succ_pos _, .zero, width, htest⟩
        · rintro ⟨n, -, hrounds, -⟩
          cases hrounds with
          | zero => rfl
          | succ hmatch => exact absurd (htest.symm.trans hmatch) (by simp)
      | true =>
        rw [acceptLoop, htest]
        refine ih.trans ?_
        constructor
        · rintro ⟨n, hn, hstops⟩
          exact ⟨n + 1, by omega, (stops_succ_iff htest).2 hstops⟩
        · rintro ⟨n, hn, hstops⟩
          cases n with
          | zero =>
            obtain ⟨hrounds, width', hstop⟩ := hstops
            cases hrounds
            exact absurd (htest.symm.trans hstop) (by simp)
          | succ n => exact ⟨n, by omega, (stops_succ_iff htest).1 hstops⟩

/-- A loop that has gone on behind the input does not stop. -/
theorem Steady.stops_lt (h : Steady R test width) (hstops : Stops test n p q) : n < R.tail + 2 := by
  by_contra hn
  obtain ⟨hrounds, w, hstop⟩ := hstops
  obtain ⟨k, rfl⟩ : ∃ k, n = R.tail + 1 + (k + 1) := ⟨n - (R.tail + 2), by omega⟩
  obtain ⟨r, hfirst, hrest⟩ := hrounds.split
  have hr := h.position hfirst
  have hq := h.position hrest
  cases hrest with
  | succ hmatch _ =>
    rcases Nat.eq_zero_or_pos width with hzero | hpos
    · rw [hzero, Nat.mul_zero, Nat.add_zero] at hq
      rw [hq, hmatch] at hstop
      exact absurd hstop (by simp)
    · have hle : R.tail + 1 ≤ (R.tail + 1) * width := Nat.le_mul_of_pos_right _ hpos
      have hbehind := h.behind r q (by omega) (by omega)
      rw [hmatch, hstop] at hbehind
      exact absurd hbehind (by simp)

/-- The loop of an instruction ends where the rounds stop. -/
theorem acceptWhile_iff (h : Steady R test width) :
    acceptWhile R test p = some q ↔ ∃ n, Stops test n p q := by
  rw [acceptWhile, acceptLoop_iff]
  exact ⟨fun ⟨n, _, hstops⟩ => ⟨n, hstops⟩, fun ⟨n, hstops⟩ => ⟨n, h.stops_lt hstops, hstops⟩⟩

end Rounds

def Expr.tested : Expr → Bool
  | .any | .byte _ | .str _ | .set _ => true
  | _ => false

/-- The test of an operand, with the constants of `F`. -/
def Expr.test (F : MozCompiler) (R : Runtime) : Expr → ℕ → Option (Bool × ℕ)
  | .any => anyTest R
  | .byte ch => byteTest R ch
  | .str text => strTest R (F.strId text)
  | .set bits => setTest R (F.setId bits)
  | _ => fun _ => none

def Expr.shortcut (F : MozCompiler) (R : Runtime) (p : ℕ) : Expr → Effect
  | .not x => reject (x.test F R) p
  | .option x => moved (acceptOption (x.test F R) p)
  | .repetition [x] => moved (acceptWhile R (x.test F R) p)
  | _ => .stuck

def Op.tests : Op → Bool
  | iAny | iByte _ | iStr _ | iSet _ | iNAny | iNByte _ | iNStr _ | iNSet _ | iRByte _ | iRAny
  | iRStr _ | iRSet _ | iOByte _ | iOStr _ | iOSet _ => true
  | iLabel | iJump _ | iInvoke _ | iPLoad | iPStore | iRet | iFail | iTPush | iTPop _ | iTNew _
  | iTCapture _ | iTTag _ => false

section Operands

variable {F : MozCompiler} {R : Runtime} {e x : Expr} {hd : Bool} {l l' : List Ir} {fail : BlockId}

theorem Expr.specialised_cases (he : e.specialised) : e = .not .any ∨
    (∃ x, x.tested ∧ e = .option x) ∨ ∃ x, x.tested ∧ e = .repetition [x] := by
  unfold Expr.specialised at he
  split at he
  · exact .inl rfl
  · exact .inr (.inl ⟨_, rfl, rfl⟩)
  · exact .inr (.inl ⟨_, rfl, rfl⟩)
  · exact .inr (.inl ⟨_, rfl, rfl⟩)
  · exact .inr (.inr ⟨_, rfl, rfl⟩)
  · exact .inr (.inr ⟨_, rfl, rfl⟩)
  · exact .inr (.inr ⟨_, rfl, rfl⟩)
  · exact .inr (.inr ⟨_, rfl, rfl⟩)
  · cases he

theorem placed_tested (hx : x.tested) (h : Placed F hd x l fail l') :
    ∃ op, Begins op fail l l' ∧ op.tests ∧
      ∀ R p, op.effect R p = accept (x.test F R) p := by
  cases h with
  | one hop hl =>
    cases x with
    | any | byte | str | set =>
      cases hop
      exact ⟨_, hl, rfl, fun _ _ => rfl⟩
    | _ => cases hx
  | _ => cases hx

theorem placed_specialised (he : e.specialised) (h : Placed F hd e l fail l') :
    ∃ op, Begins op fail l l' ∧ op.tests ∧
      ∀ R p, op.effect R p = e.shortcut F R p := by
  unfold Expr.specialised at he
  split at he
  · cases h with
    | one hop hl =>
      cases hop
      exact ⟨_, hl, rfl, fun _ _ => rfl⟩
    | not he => cases he
  iterate 3
    · cases h with
      | one hop hl =>
        cases hop
        exact ⟨_, hl, rfl, fun _ _ => rfl⟩
      | option he => cases he
  iterate 4
    · cases h with
      | one hop hl =>
        cases hop
        exact ⟨_, hl, rfl, fun _ _ => rfl⟩
      | repetition hop => cases hop
  · cases he

theorem byteAt_behind {p : ℕ} (h : R.tail < p) : R.byteAt p = 0 := by
  have hnone : R.input[p]? = none := List.getElem?_eq_none (Nat.le_of_lt h)
  rw [Runtime.byteAt, hnone]
  rfl

theorem startsWith_behind (text : List UInt8) {p q : ℕ} (hp : R.tail < p) (hq : R.tail < q) :
    R.startsWith p text = R.startsWith q text := by
  induction text generalizing p q with
  | nil => rfl
  | cons c text ih =>
    rw [Runtime.startsWith, Runtime.startsWith, byteAt_behind hp, byteAt_behind hq,
      @ih (p + 1) (q + 1) (by omega) (by omega)]

theorem steady_test (hx : x.tested) : ∃ width, Steady R (x.test F R) width := by
  cases x with
  | any =>
    refine ⟨1, fun p found w h => ?_, fun p q hp hq => ?_⟩
    · exact (congrArg Prod.snd (Option.some.inj h)).symm
    · have heos : R.eos p = R.eos q := by
        rw [Runtime.eos, Runtime.eos, beq_false_of_ne hp.ne', beq_false_of_ne hq.ne']
      rw [Expr.test, anyTest, anyTest, heos]
  | byte ch =>
    refine ⟨1, fun p found w h => ?_, fun p q hp hq => ?_⟩
    · exact (congrArg Prod.snd (Option.some.inj h)).symm
    · rw [Expr.test, byteTest, byteTest, byteAt_behind hp, byteAt_behind hq]
  | str text =>
    cases hstr : R.strs[(F.strId text).toNat]? with
    | none =>
      refine ⟨0, fun p found w h => ?_, fun p q _ _ => ?_⟩
      · rw [Expr.test, strTest, hstr] at h
        cases h
      · rw [Expr.test, strTest, strTest, hstr]
        rfl
    | some str =>
      refine ⟨str.length, fun p found w h => ?_, fun p q hp hq => ?_⟩
      · rw [Expr.test, strTest, hstr] at h
        exact (congrArg Prod.snd (Option.some.inj h)).symm
      · rw [Expr.test, strTest, strTest, hstr, Option.map_some, Option.map_some,
          startsWith_behind str hp hq]
  | set bits =>
    refine ⟨1, fun p found w h => ?_, fun p q hp hq => ?_⟩
    · rw [Expr.test, setTest] at h
      obtain ⟨set, -, hset⟩ := Option.map_eq_some_iff.1 h
      exact (congrArg Prod.snd hset).symm
    · rw [Expr.test, setTest, setTest, byteAt_behind hp, byteAt_behind hq]
  | _ => cases hx

end Operands

/-- In `F` a lowered expression stands as the body of an outermost call: the code after a match
returns and the block it fails to fails, so that a run tells which of them it came to. -/
structure Observed (S : MozState) (r : MozCompiler × MozState) (F : MozCompiler) : Prop where
  later : Later r.1 F
  next : ∃ a l, Begins .iRet a (F.rest r.1 r.2.cur) l
  fail : ∃ a l, Begins .iFail a (F.insts S.fail) l

/-- The state `s` at the code `l` of an outermost call. -/
def State.at (s : State) (l : List Ir) : State := { s with code := l, frames := [] }

/-- The run from `s` at the code `l` comes to the next block (or to the fail block) at `q`. -/
def Leaves (F : MozCompiler) (R : Runtime) (l : List Ir) (s : State) (matched : Bool) (q : ℕ) :
    Prop :=
  ∃ s', Returns F R (s.at l) matched s' ∧ s'.current = q

section Leaving

variable {F : MozCompiler} {R : Runtime} {l l' : List Ir} {s t : State} {matched : Bool} {p q : ℕ}
  {fail bb : BlockId} {op : Op}

theorem leaves_of_reaches (h : Reaches (step F R) (s.at l) (t.at l')) :
    Leaves F R l s matched q ↔ Leaves F R l' t matched q :=
  ⟨fun ⟨s', hs, hq⟩ => ⟨s', hs.after h, hq⟩, fun ⟨s', hs, hq⟩ => ⟨s', hs.head h, hq⟩⟩

theorem leaves_of_result {m : Bool} (h : (s.at l).result = some m) :
    Leaves F R l s matched q ↔ matched = m ∧ q = s.current := by
  have hreturns : Returns F R (s.at l) m (s.at l) := ⟨.refl, h⟩
  constructor
  · rintro ⟨s', hs, rfl⟩
    obtain ⟨rfl, rfl⟩ := hs.unique hreturns
    exact ⟨rfl, rfl⟩
  · rintro ⟨rfl, rfl⟩
    exact ⟨_, hreturns, rfl⟩

theorem leaves_ret (h : ∃ a l', Begins .iRet a l l') :
    Leaves F R l s matched q ↔ matched = true ∧ q = s.current := by
  obtain ⟨a, l', ir, hop, -, rfl⟩ := h
  exact leaves_of_result (if_pos hop)

theorem leaves_fail (h : ∃ a l', Begins .iFail a l l') :
    Leaves F R l s matched q ↔ matched = false ∧ q = s.current := by
  obtain ⟨a, l', ir, hop, -, rfl⟩ := h
  have hne : ir.op ≠ .iRet := by
    rw [hop]
    nofun
  exact leaves_of_result ((if_neg hne).trans (if_pos hop))

theorem not_leaves (h : step F R (s.at l) = none) (hresult : (s.at l).result = none) :
    ¬ Leaves F R l s matched q := by
  rintro ⟨s', ⟨hrun, hend⟩, -⟩
  obtain rfl | ⟨t, ht, -⟩ := hrun.cases_head
  · rw [hresult] at hend
    cases hend
  · rw [Option.mem_def, h] at ht
    cases ht

theorem reaches₁_jump (h : Jumps l bb) : Reaches₁ (step F R) (s.at l) (s.at (F.insts bb)) := by
  obtain ⟨_, _, ir, hop, -, rfl⟩ := h
  refine .single ?_
  rw [Option.mem_def, step_eq rfl, exec, hop]
  rfl

theorem reaches_jump (h : Jumps l bb) : Reaches (step F R) (s.at l) (s.at (F.insts bb)) :=
  (reaches₁_jump h).to_reflTransGen

theorem reaches_next (hl : Begins op fail l l') (h : op.effect R s.current = .next q) :
    Reaches (step F R) (s.at l) ({ s with current := q }.at l') := by
  obtain ⟨ir, rfl, -, rfl⟩ := hl
  exact .single ((step_eq rfl).trans (exec_next h))

theorem reaches_fail (hl : Begins op fail l l') (h : op.effect R s.current = .fail) :
    Reaches (step F R) (s.at l) (s.at (F.insts fail)) := by
  obtain ⟨ir, rfl, rfl, rfl⟩ := hl
  exact .single ((step_eq rfl).trans (exec_fail h))

theorem result_tests (hl : Begins op fail l l') (hop : op.tests) : (s.at l).result = none := by
  obtain ⟨ir, rfl, -, rfl⟩ := hl
  have hret : ir.op ≠ .iRet := by
    intro h
    rw [h] at hop
    cases hop
  have hfail : ir.op ≠ .iFail := by
    intro h
    rw [h] at hop
    cases hop
  exact (if_neg hret).trans (if_neg hfail)

theorem step_stuck (hl : Begins op fail l l') (hop : op.tests)
    (h : op.effect R s.current = .stuck) : step F R (s.at l) = none := by
  obtain ⟨ir, rfl, -, rfl⟩ := hl
  rw [step_eq rfl, exec]
  cases hir : ir.op with
  | iLabel | iJump | iInvoke | iPLoad | iPStore | iRet | iFail | iTPush | iTPop | iTNew
  | iTCapture | iTTag =>
    rw [hir] at hop
    cases hop
  | _ =>
    rw [hir] at h
    dsimp only [State.at]
    rw [h]

theorem leaves_tests (hl : Begins op fail l l') (hop : op.tests) :
    Leaves F R l s matched q ↔
      match op.effect R s.current with
      | .next p => Leaves F R l' { s with current := p } matched q
      | .fail => Leaves F R (F.insts fail) s matched q
      | .stuck => False := by
  cases heffect : op.effect R s.current with
  | next p => exact leaves_of_reaches (reaches_next hl heffect)
  | fail => exact leaves_of_reaches (reaches_fail hl heffect)
  | stuck =>
    exact iff_false_intro (not_leaves (step_stuck hl hop heffect) (result_tests hl hop))

/-- The state after `IPStore`. -/
def State.stored (s : State) : State := { s with sp := s.sp + 1, cells := s.current :: s.cells }

theorem step_store (hl : Begins .iPStore fail l l') :
    step F R (s.at l) = if s.sp < stackSize then some (s.stored.at l') else none := by
  obtain ⟨ir, hop, -, rfl⟩ := hl
  have hstep : step F R (s.at (ir :: l')) = exec F R (s.at l') ir := step_eq rfl
  rw [hstep, exec, hop]
  split_ifs with hroom
  · simp [guard, State.at, State.stored, hroom]
  · simp [guard, State.at, hroom]

theorem leaves_store (hl : Begins .iPStore fail l l') :
    Leaves F R l s matched q ↔ s.sp < stackSize ∧ Leaves F R l' s.stored matched q := by
  have hstep : step F R (s.at l) = if s.sp < stackSize then some (s.stored.at l') else none :=
    step_store hl
  split_ifs at hstep with hroom
  · rw [leaves_of_reaches (.single hstep)]
    exact ⟨fun h => ⟨hroom, h⟩, And.right⟩
  · have hresult : (s.at l).result = none := by
      obtain ⟨ir, hop, -, rfl⟩ := hl
      simp [State.result, State.at, hop]
    exact ⟨fun h => absurd h (not_leaves hstep hresult), fun h => absurd h.1 hroom⟩

theorem leaves_load {cell : ℕ} {cells : List ℕ} (hl : Begins .iPLoad fail l l')
    (hcells : s.cells = cell :: cells) : Leaves F R l s matched q ↔
      Leaves F R l' { s with current := cell, sp := s.sp - 1, cells := cells } matched q := by
  obtain ⟨ir, hop, -, rfl⟩ := hl
  refine leaves_of_reaches (.single ?_)
  rw [Option.mem_def, step_eq rfl, exec, hop]
  dsimp only [State.at]
  rw [hcells]

end Leaving

section Paths

variable {F : MozCompiler} {R : Runtime} {hd : Bool} {e x : Expr} {l l' : List Ir} {s : State}
  {fail : BlockId} {matched : Bool} {q : ℕ}

theorem specialised_leaves (he : e.specialised) (h : Placed F hd e l fail l')
    (hnext : ∃ a l, Begins .iRet a l' l) (hfail : ∃ a l, Begins .iFail a (F.insts fail) l) :
    Leaves F R l s matched q ↔ e.shortcut F R s.current = .next q ∧ matched = true ∨
      e.shortcut F R s.current = .fail ∧ matched = false ∧ q = s.current := by
  obtain ⟨op, hl, hop, heffect⟩ := placed_specialised he h
  rw [leaves_tests hl hop, heffect]
  cases e.shortcut F R s.current with
  | next p =>
    refine (leaves_ret hnext).trans ?_
    rw [Effect.next.injEq]
    constructor
    · rintro ⟨rfl, rfl⟩
      exact .inl ⟨rfl, rfl⟩
    · rintro (⟨rfl, rfl⟩ | ⟨hne, -⟩)
      · exact ⟨rfl, rfl⟩
      · cases hne
  | fail =>
    refine (leaves_fail hfail).trans ?_
    constructor
    · exact fun hleaves => .inr ⟨rfl, hleaves⟩
    · rintro (⟨hne, -⟩ | ⟨-, hleaves⟩)
      · cases hne
      · exact hleaves
  | stuck => exact ⟨False.elim, by rintro (⟨hne, -⟩ | ⟨hne, -⟩) <;> cases hne⟩

theorem optionBlocks_leaves (hx : x.tested) (h : PlacedBlocks F hd (.option x) l fail l')
    (hnext : ∃ a l, Begins .iRet a l' l) : Leaves F R l s matched q ↔
      matched = true ∧ acceptOption (x.test F R) s.current = some q := by
  cases h with
  | option hbody hstop =>
    obtain ⟨op, hl, hop, heffect⟩ := placed_tested hx hbody
    rw [leaves_tests hl hop, heffect, accept, acceptOption]
    match x.test F R s.current with
    | some (true, width) =>
      refine (leaves_of_reaches (reaches_jump hstop)).trans ((leaves_ret hnext).trans ?_)
      rw [Option.some_inj, eq_comm (a := q)]
    | some (false, width) =>
      refine (leaves_ret hnext).trans ?_
      rw [Option.some_inj, eq_comm (a := q)]
    | none => exact ⟨False.elim, fun h => nomatch h.2⟩

/-- The blocks of `Not`: the operand is tried with a cell pushed, and a match is not undone. -/
theorem notBlocks_leaves (h : PlacedBlocks F hd (.not .any) l fail l')
    (hnext : ∃ a l, Begins .iRet a l' l) (hfail : ∃ a l, Begins .iFail a (F.insts fail) l) :
    Leaves F R l s matched q ↔ s.sp < stackSize ∧
      (R.eos s.current = true ∧ matched = true ∧ q = s.current ∨
        R.eos s.current = false ∧ matched = false ∧ q = s.current + 1) := by
  cases h with
  | not hl hstore hbody hstop hstopped hload =>
    obtain ⟨op, htest, hop, heffect⟩ := placed_tested rfl hbody
    rw [leaves_of_reaches (reaches_jump hl), leaves_store hstore, leaves_tests htest hop, heffect]
    refine and_congr_right fun _ => ?_
    show (match accept (anyTest R) s.current with
      | .next p => Leaves F R _ { s.stored with current := p } matched q
      | .fail => Leaves F R _ s.stored matched q
      | .stuck => False) ↔ _
    rw [accept, anyTest]
    cases R.eos s.current with
    | true =>
      refine (leaves_load hload rfl).trans ((leaves_ret hnext).trans ?_)
      simp
    | false =>
      refine (leaves_of_reaches (reaches_jump hstop)).trans
        ((leaves_of_reaches (reaches_jump hstopped)).trans ((leaves_fail hfail).trans ?_))
      simp

theorem PlacedBlocks.repetition_cases (h : PlacedBlocks F hd (.repetition [x]) l fail l') :
    ∃ bb next stop before cur, l' = F.insts next ∧ Jumps l bb ∧
      Placed F false x (F.insts bb) next stop ∧ Jumps stop cur ∧ F.insts cur = before ++ l ∧
      Opened hd before := by
  cases h with
  | repetition hlist hstop hcur hbefore =>
    cases hlist with
    | cons hl hbody hnil =>
      cases hnil
      exact ⟨_, _, _, _, _, rfl, hl, hbody, hstop, hcur, hbefore⟩

/-- The state at the head of the loop after a round: the back edge goes to the block before the
loop, whose `IPStore` is executed again. -/
def State.again (s : State) (hd : Bool) (width : ℕ) : State :=
  if hd then { s with current := s.current + width }.stored
  else { s with current := s.current + width }

@[simp] theorem State.again_current (s : State) (hd : Bool) (width : ℕ) :
    (s.again hd width).current = s.current + width := by
  cases hd <;> rfl

@[simp] theorem State.again_sp (s : State) (hd : Bool) (width : ℕ) :
    (s.again hd width).sp = if hd then s.sp + 1 else s.sp := by
  cases hd <;> rfl

theorem step_opened {before : List Ir} (hbefore : Opened hd before) (width : ℕ) :
    (hd = true ∧ stackSize ≤ s.sp ∧ ∀ matched q,
      ¬ Leaves F R (before ++ l) { s with current := s.current + width } matched q) ∨
    (hd = true → s.sp < stackSize) ∧ Reaches (step F R)
      ({ s with current := s.current + width }.at (before ++ l)) ((s.again hd width).at l) := by
  cases hd with
  | false =>
    obtain rfl : before = [] := hbefore
    exact .inr ⟨nofun, .refl⟩
  | true =>
    obtain ⟨fail, store, hop, hfail, rfl⟩ : ∃ fail, Begins .iPStore fail before [] := hbefore
    have hstore : Begins .iPStore fail ([store] ++ l) l := ⟨store, hop, hfail, rfl⟩
    by_cases hroom : s.sp < stackSize
    · refine .inr ⟨fun _ => hroom, .single ?_⟩
      exact (step_store hstore).trans (if_pos hroom)
    · refine .inl ⟨rfl, Nat.le_of_not_lt hroom, fun matched q hleaves => ?_⟩
      exact hroom ((leaves_store hstore).1 hleaves).1

theorem round_reaches (hx : x.tested) (h : PlacedBlocks F hd (.repetition [x]) l fail l')
    {width : ℕ} (hmatch : x.test F R s.current = some (true, width)) :
    (hd = true ∧ stackSize ≤ s.sp ∧ ∀ matched q, ¬ Leaves F R l s matched q) ∨
      (hd = true → s.sp < stackSize) ∧
        Reaches₁ (step F R) (s.at l) ((s.again hd width).at l) := by
  obtain ⟨bb, next, stop, before, cur, rfl, hl, hbody, hstop, hcur, hbefore⟩ := h.repetition_cases
  obtain ⟨op, htest, hop, heffect⟩ := placed_tested hx hbody
  have hmoved : op.effect R s.current = .next (s.current + width) := by
    rw [heffect, accept, hmatch]
  have hround : Reaches₁ (step F R) (s.at l)
      ({ s with current := s.current + width }.at (before ++ l)) := by
    rw [← hcur]
    exact ((reaches₁_jump hl).trans_left (reaches_next htest hmoved)).trans_left
      (reaches_jump hstop)
  obtain ⟨hd, hfull, hstuck⟩ | ⟨hroom, hopened⟩ := @step_opened F R hd l s before hbefore width
  · refine .inl ⟨hd, hfull, fun matched q => ?_⟩
    rw [leaves_of_reaches hround.to_reflTransGen]
    exact hstuck matched q
  · exact .inr ⟨hroom, hround.trans_left hopened⟩

theorem stopped_leaves (hx : x.tested) (h : PlacedBlocks F hd (.repetition [x]) l fail l')
    (hnext : ∃ a l, Begins .iRet a l' l) :
    (∀ width, x.test F R s.current = some (false, width) →
      (Leaves F R l s matched q ↔ matched = true ∧ q = s.current)) ∧
    (x.test F R s.current = none → ¬ Leaves F R l s matched q) := by
  obtain ⟨bb, next, stop, before, cur, rfl, hl, hbody, hstop, hcur, hbefore⟩ := h.repetition_cases
  obtain ⟨op, htest, hop, heffect⟩ := placed_tested hx hbody
  rw [leaves_of_reaches (reaches_jump hl), leaves_tests htest hop, heffect, accept]
  constructor
  · intro width hfails
    rw [hfails]
    exact leaves_ret hnext
  · intro hnone
    rw [hnone]
    exact id

theorem repetitionBlocks_leaves (hx : x.tested) (h : PlacedBlocks F hd (.repetition [x]) l fail l')
    (hnext : ∃ a l, Begins .iRet a l' l) : Leaves F R l s matched q ↔ matched = true ∧
      ∃ n, Stops (x.test F R) n s.current q ∧ (hd = true → n ≤ stackSize - s.sp) := by
  constructor
  · rintro ⟨s', ⟨hrun, hresult⟩, rfl⟩
    refine @Progress.stopped State _ (fun t => ∃ s : State, t = s.at l)
      (fun t => matched = true ∧ ∃ n, Stops (x.test F R) n t.current s'.current ∧
        (hd = true → n ≤ stackSize - t.sp)) (s.at l) _ (step_of_result hresult) ?_ ⟨s, rfl⟩ hrun
    rintro _ ⟨s, rfl⟩ hrun
    have hleaves : Leaves F R l s matched s'.current := ⟨s', ⟨hrun, hresult⟩, rfl⟩
    have hstopped := @stopped_leaves F R hd x l l' s fail matched s'.current hx h hnext
    match hmatch : x.test F R s.current with
    | none => exact absurd hleaves (hstopped.2 hmatch)
    | some (false, width) =>
      obtain ⟨rfl, hq⟩ := (hstopped.1 width hmatch).1 hleaves
      rw [hq]
      exact .inl ⟨rfl, 0, ⟨.zero, width, hmatch⟩, fun _ => Nat.zero_le _⟩
    | some (true, width) =>
      obtain ⟨-, -, hstuck⟩ | ⟨hroom, hround⟩ := round_reaches hx h hmatch
      · exact absurd hleaves (hstuck _ _)
      · refine .inr ⟨_, hround, ⟨_, rfl⟩, ?_⟩
        rintro ⟨hmatched, n, hstops, hn⟩
        refine ⟨hmatched, n + 1, (stops_succ_iff hmatch).2 ?_, fun hd => ?_⟩
        · simpa [State.at] using hstops
        · have hsp := hn hd
          have hroom := hroom hd
          simp only [State.at, State.again_sp, hd, if_true] at hsp ⊢
          omega
  · rintro ⟨rfl, n, hstops, hroom⟩
    induction n generalizing s with
    | zero =>
      obtain ⟨hrounds, width, hstop⟩ := hstops
      cases hrounds
      exact ((stopped_leaves hx h hnext).1 width hstop).2 ⟨rfl, rfl⟩
    | succ n ih =>
      obtain ⟨hrounds, hstop⟩ := hstops
      cases hrounds with
      | succ hmatch hrest =>
        obtain ⟨hd, hfull, -⟩ | ⟨-, hround⟩ := round_reaches (s := s) hx h hmatch
        · have hn := hroom hd
          omega
        · rw [leaves_of_reaches hround.to_reflTransGen]
          refine ih ⟨?_, hstop⟩ fun hd => ?_
          · rwa [State.again_current]
          · have hn := hroom hd
            rw [State.again_sp, if_pos hd]
            omega

end Paths

section Constants

variable {C F G : MozCompiler} {S : MozState} {e x : Expr} {name : List UInt8}
  {ary pool : List (List UInt8)}

theorem mozCompilerAddStringId_lt :
    (mozCompilerAddStringId ary name).2 < (mozCompilerAddStringId ary name).1.length := by
  unfold mozCompilerAddStringId
  split
  · next i hfind => exact (List.findIdx?_eq_some_iff_getElem.1 hfind).1
  · simp

theorem mozCompilerAddSet_lt {set : Bitset} :
    (mozCompilerAddSet C set).2.toNat < (mozCompilerAddSet C set).1.sets.length := by
  unfold mozCompilerAddSet
  split
  · next i hfind =>
    exact (Nat.mod_le _ _).trans_lt (List.findIdx?_eq_some_iff_getElem.1 hfind).1
  · exact (Nat.mod_le _ _).trans_lt (by simp)

theorem getElem?_of_isPrefix {α : Type} {l l' : List α} {i : ℕ} (h : l <+: l') (hi : i < l.length) :
    l'[i]? = l[i]? := by
  obtain ⟨more, rfl⟩ := h
  exact List.getElem?_append_left hi

theorem startsWith_congr {R R' : Runtime} (h : R.input = R'.input) (p : ℕ) (text : List UInt8) :
    R.startsWith p text = R'.startsWith p text := by
  induction text generalizing p with
  | nil => rfl
  | cons c text ih => rw [Runtime.startsWith, Runtime.startsWith, Runtime.byteAt, Runtime.byteAt, h, ih]

/-- The test of an operand is the same whatever is compiled later. -/
theorem test_congr (hx : x.tested) (hstrs : (mozExprToIr x C S).1.strs <+: F.strs)
    (hstrs' : (mozExprToIr x C S).1.strs <+: G.strs)
    (hsets : (mozExprToIr x C S).1.sets <+: F.sets)
    (hsets' : (mozExprToIr x C S).1.sets <+: G.sets) (input : List UInt8) :
    x.test F (F.runtime input) = x.test G (G.runtime input) := by
  cases x with
  | any | byte => rfl
  | str text =>
    have hlt := (Nat.mod_le _ (2 ^ 16)).trans_lt (@mozCompilerAddStringId_lt text C.strs)
    have hid := strId_later hstrs
    have hid' := strId_later hstrs'
    have hget : F.strs[(F.strId text).toNat]? = G.strs[(G.strId text).toNat]? := by
      rw [hid, hid']
      exact (getElem?_of_isPrefix hstrs hlt).trans (getElem?_of_isPrefix hstrs' hlt).symm
    have hstarts : ∀ p str, (F.runtime input).startsWith p str = (G.runtime input).startsWith p str :=
      fun p str => @startsWith_congr (F.runtime input) (G.runtime input) rfl p str
    funext p
    simp only [Expr.test, strTest, MozCompiler.runtime, hget]
    exact congrArg (Option.map · _) (funext fun str => congrArg (·, str.length) (hstarts p str))
  | set bits =>
    have hlt := @mozCompilerAddSet_lt C bits
    have hid := setId_later hsets
    have hid' := setId_later hsets'
    have hget : F.sets[(F.setId bits).toNat]? = G.sets[(G.setId bits).toNat]? := by
      rw [hid, hid']
      exact (getElem?_of_isPrefix hsets hlt).trans (getElem?_of_isPrefix hsets' hlt).symm
    funext p
    exact congrArg (Option.map fun set => (bitsetGet set ((F.runtime input).byteAt p), 1)) hget
  | _ => cases hx

def SamePools (C C' : MozCompiler) : Prop := C.strs = C'.strs ∧ C.sets = C'.sets

theorem samePools_addSet {C' : MozCompiler} (h : SamePools C C') (set : Bitset) :
    SamePools (mozCompilerAddSet C set).1 (mozCompilerAddSet C' set).1 := by
  unfold mozCompilerAddSet
  rw [← h.2]
  cases C.sets.findIdx? fun x => x == set with
  | some i => exact h
  | none => exact ⟨h.1, congrArg (· ++ [set]) rfl⟩

theorem samePools_addString {C' : MozCompiler} (h : SamePools C C') (text : List UInt8) :
    SamePools (mozCompilerAddString C text).1 (mozCompilerAddString C' text).1 :=
  ⟨congrArg (fun strs => (mozCompilerAddStringId strs text).1) h.1, h.2⟩

theorem samePools_link {C' : MozCompiler} (h : SamePools C C') (S : MozState) (bb1 bb2 : BlockId) :
    SamePools C (mozCompilerLink C' S bb1 bb2) := h

theorem samePools_tested (hx : x.tested) {C' : MozCompiler} (h : SamePools C C')
    (S S' : MozState) : SamePools (mozExprToIr x C S).1 (mozExprToIr x C' S').1 := by
  cases x with
  | any | byte => exact h
  | str text => exact samePools_addString h text
  | set bits => exact samePools_addSet h bits
  | _ => cases hx

theorem pools_option (he : (Expr.option x).specialised) :
    SamePools (mozExprToIr x C S).1 (mozExprToIr (.option x) C S).1 ∧
      SamePools (mozExprToIr x C S).1 (mozExprToBlocks (.option x) C S).1 := by
  have hblocks : x.tested → SamePools (mozExprToIr x C S).1 (mozExprToBlocks (.option x) C S).1 := by
    intro hx
    rw [mozExprToBlocks, mozOptionToBlocks_eq]
    apply samePools_link
    apply samePools_tested hx
    exact ⟨rfl, rfl⟩
  cases x with
  | byte | str | set => exact ⟨⟨rfl, rfl⟩, hblocks rfl⟩
  | _ => cases he

theorem pools_repetition (hx : x.tested) :
    SamePools (mozExprToIr x C S).1 (mozExprToIr (.repetition [x]) C S).1 ∧
      SamePools (mozExprToIr x C S).1 (mozExprToBlocks (.repetition [x]) C S).1 := by
  constructor
  · cases x with
    | any | byte | str | set => exact ⟨rfl, rfl⟩
    | _ => cases hx
  · rw [mozExprToBlocks, mozRepetitionToBlocks_eq]
    dsimp only
    rw [mozRepetitionToIr]
    dsimp only
    rw [mozRepetitionToIr]
    apply samePools_link
    apply samePools_tested hx
    exact ⟨rfl, rfl⟩

end Constants

/-- `next` and `fail` blocks are the same for both paths, and so is the position there. -/
def PathsAgree (C : MozCompiler) (S : MozState) (F G : MozCompiler) (input : List UInt8)
    (s : State) : Prop :=
  ∀ matched q, Leaves F (F.runtime input) (F.rest C S.cur) s matched q ↔
    Leaves G (G.runtime input) (G.rest C S.cur) s matched q

/-- The blocks of `Not` have room for their cell and the operand does not match; those of a
repetition have room for a cell in each round, if they are in the block of a predicate. -/
def Expr.agrees (F : MozCompiler) (R : Runtime) (hd : Bool) (s : State) : Expr → Prop
  | .not _ => s.sp < stackSize ∧ R.eos s.current = true
  | .repetition [x] =>
    hd = true → ∀ n q, Stops (x.test F R) n s.current q → n ≤ stackSize - s.sp
  | _ => True

section Agreement

variable {C F G : MozCompiler} {S : MozState} {e x : Expr} {hd : Bool}

/-- The single instruction of a construct and the blocks of its general path. -/
theorem paths_placed (he : e.specialised) (hcur : S.cur < C.maxBlockId)
    (hopened : Opened hd (C.insts S.cur)) (hF : Observed S (mozExprToIr e C S) F)
    (hG : Observed S (mozExprToBlocks e C S) G) :
    Placed F hd e (F.rest C S.cur) S.fail (F.rest (mozExprToIr e C S).1 (mozExprToIr e C S).2.cur) ∧
      PlacedBlocks G hd e (G.rest C S.cur) S.fail
        (G.rest (mozExprToBlocks e C S).1 (mozExprToBlocks e C S).2.cur) := by
  have htested : ∀ x : Expr, x.tested → x.implemented := by
    intro x hx
    cases x with
    | any | byte | str | set => rfl
    | _ => cases hx
  obtain rfl | ⟨x, hx, rfl⟩ | ⟨x, hx, rfl⟩ := Expr.specialised_cases he
  · exact ⟨(emits (.not .any) rfl C S hcur).placed F hd hF.later hopened,
      ((emits .any rfl).notBlocks C S hcur).placed G hd hG.later hopened⟩
  · exact ⟨(emits (.option x) (htested x hx) C S hcur).placed F hd hF.later hopened,
      ((emits x (htested x hx)).optionBlocks C S hcur).placed G hd hG.later hopened⟩
  · have hlist : implementedAll [x] := by
      rw [implementedAll, htested x hx]
      rfl
    exact ⟨(emits (.repetition [x]) hlist C S hcur).placed F hd hF.later hopened,
      ((emitsRounds [x] hlist).repetitionBlocks C S hcur).placed G hd hG.later hopened⟩

theorem Observed.test_eq (hx : x.tested) (hF : Observed S (mozExprToIr e C S) F)
    (hG : Observed S (mozExprToBlocks e C S) G)
    (hpools : SamePools (mozExprToIr x C S).1 (mozExprToIr e C S).1 ∧
      SamePools (mozExprToIr x C S).1 (mozExprToBlocks e C S).1) (input : List UInt8) :
    x.test F (F.runtime input) = x.test G (G.runtime input) := by
  obtain ⟨⟨hstrs, hsets⟩, hstrs', hsets'⟩ := hpools
  refine @test_congr C F G S x hx ?_ ?_ ?_ ?_ input
  · exact hstrs ▸ hF.later.strs
  · exact hstrs' ▸ hG.later.strs
  · exact hsets ▸ hF.later.sets
  · exact hsets' ▸ hG.later.sets

theorem moved_leaves {o : Option ℕ} {matched : Bool} {p q : ℕ} :
    moved o = .next q ∧ matched = true ∨ moved o = .fail ∧ matched = false ∧ q = p ↔
      matched = true ∧ o = some q := by
  cases o with
  | none => simp [moved]
  | some r => simp [moved, and_comm]

/-- `INAny` agrees with the blocks of `Not` at the end of the input only: elsewhere these fail one
byte further on. -/
theorem notAny_agree_iff (hcur : S.cur < C.maxBlockId) (hopened : Opened hd (C.insts S.cur))
    (hF : Observed S (mozExprToIr (.not .any) C S) F)
    (hG : Observed S (mozExprToBlocks (.not .any) C S) G) (input : List UInt8) (s : State) :
    PathsAgree C S F G input s ↔ s.sp < stackSize ∧ (F.runtime input).eos s.current = true := by
  obtain ⟨hfast, hblocks⟩ := paths_placed rfl hcur hopened hF hG
  have hleaves : ∀ matched q, Leaves F (F.runtime input) (F.rest C S.cur) s matched q ↔ _ :=
    fun _ _ => specialised_leaves rfl hfast hF.next hF.fail
  have hblocks : ∀ matched q, Leaves G (G.runtime input) (G.rest C S.cur) s matched q ↔ _ :=
    fun _ _ => notBlocks_leaves hblocks hG.next hG.fail
  have heos : (G.runtime input).eos s.current = (F.runtime input).eos s.current := rfl
  rw [heos] at hblocks
  have hreject : Expr.shortcut F (F.runtime input) s.current (.not .any) =
      if (F.runtime input).eos s.current then .next s.current else .fail := by
    rw [Expr.shortcut, reject, Expr.test, anyTest]
    cases (F.runtime input).eos s.current <;> rfl
  constructor
  · intro hagree
    cases hend : (F.runtime input).eos s.current with
    | true =>
      rw [hend, if_pos rfl] at hreject
      have hmatch := (hagree true s.current).1 ((hleaves _ _).2 (.inl ⟨hreject, rfl⟩))
      exact ⟨((hblocks _ _).1 hmatch).1, rfl⟩
    | false =>
      rw [hend, if_neg Bool.false_ne_true] at hreject
      have hfail := (hagree false s.current).1 ((hleaves _ _).2 (.inr ⟨hreject, rfl, rfl⟩))
      obtain ⟨-, ⟨htrue, -⟩ | ⟨-, -, hq⟩⟩ := (hblocks _ _).1 hfail
      · exact absurd (hend.symm.trans htrue) Bool.false_ne_true
      · omega
  · rintro ⟨hroom, hend⟩ matched q
    rw [hleaves, hblocks, hreject, hend, if_pos rfl]
    simp [hroom, and_comm, eq_comm]

theorem option_agree (he : (Expr.option x).specialised) (hx : x.tested) (hcur : S.cur < C.maxBlockId)
    (hopened : Opened hd (C.insts S.cur)) (hF : Observed S (mozExprToIr (.option x) C S) F)
    (hG : Observed S (mozExprToBlocks (.option x) C S) G) (input : List UInt8) (s : State) :
    PathsAgree C S F G input s := by
  obtain ⟨hfast, hblocks⟩ := paths_placed he hcur hopened hF hG
  intro matched q
  rw [specialised_leaves he hfast hF.next hF.fail, optionBlocks_leaves hx hblocks hG.next,
    Expr.shortcut, moved_leaves, hF.test_eq hx hG (pools_option he) input]

theorem repetition_agree_iff (he : (Expr.repetition [x]).specialised) (hx : x.tested)
    (hcur : S.cur < C.maxBlockId) (hopened : Opened hd (C.insts S.cur))
    (hF : Observed S (mozExprToIr (.repetition [x]) C S) F)
    (hG : Observed S (mozExprToBlocks (.repetition [x]) C S) G) (input : List UInt8) (s : State) :
    PathsAgree C S F G input s ↔ (hd = true →
      ∀ n q, Stops (x.test F (F.runtime input)) n s.current q → n ≤ stackSize - s.sp) := by
  obtain ⟨hfast, hblocks⟩ := paths_placed he hcur hopened hF hG
  obtain ⟨width, hsteady⟩ := steady_test (F := F) (R := F.runtime input) hx
  have hblocks : ∀ matched q, Leaves G (G.runtime input) (G.rest C S.cur) s matched q ↔ _ :=
    fun _ _ => repetitionBlocks_leaves hx hblocks hG.next
  rw [← hF.test_eq hx hG (pools_repetition hx) input] at hblocks
  have hleaves : ∀ matched q, Leaves F (F.runtime input) (F.rest C S.cur) s matched q ↔
      matched = true ∧ ∃ n, Stops (x.test F (F.runtime input)) n s.current q := by
    intro matched q
    rw [specialised_leaves he hfast hF.next hF.fail, Expr.shortcut, moved_leaves,
      acceptWhile_iff hsteady]
  constructor
  · intro hagree hhd n q hstops
    obtain ⟨-, m, hstops', hroom⟩ :=
      (hblocks _ _).1 ((hagree true q).1 ((hleaves _ _).2 ⟨rfl, n, hstops⟩))
    rw [hstops.unique hstops']
    exact hroom hhd
  · intro hroom matched q
    rw [hleaves, hblocks]
    refine and_congr_right fun _ => exists_congr fun n => ?_
    exact ⟨fun hstops => ⟨hstops, fun hhd => hroom hhd n q hstops⟩, And.left⟩

/-- Where the single instruction of a construct agrees with the blocks of its general path. -/
theorem specialised_agrees_iff (he : e.specialised) (hcur : S.cur < C.maxBlockId)
    (hopened : Opened hd (C.insts S.cur)) (hF : Observed S (mozExprToIr e C S) F)
    (hG : Observed S (mozExprToBlocks e C S) G) (input : List UInt8) (s : State) :
    PathsAgree C S F G input s ↔ e.agrees F (F.runtime input) hd s := by
  obtain rfl | ⟨x, hx, rfl⟩ | ⟨x, hx, rfl⟩ := Expr.specialised_cases he
  · exact notAny_agree_iff hcur hopened hF hG input s
  · exact iff_of_true (option_agree he hx hcur hopened hF hG input s) trivial
  · exact repetition_agree_iff he hx hcur hopened hF hG input s

end Agreement

def fresh : MozCompiler × MozState := mozStateInit { decls := [] }

def closed (S : MozState) (r : MozCompiler × MozState) : MozCompiler :=
  mozCompilerEmit (mozCompilerEmit r.1 r.2 .iRet) { S with cur := S.fail } .iFail

theorem observed_closed {S : MozState} {r : MozCompiler × MozState}
    (h : r.2.cur < r.1.maxBlockId ∧ S.fail < r.1.maxBlockId ∧ S.fail ≠ r.2.cur ∧
      r.1.insts S.fail = []) : Observed S r (closed S r) := by
  obtain ⟨hcur, hfail, hne, hnil⟩ := h
  have hself : Later (closed S r) (closed S r) :=
    ⟨fun _ _ => List.prefix_rfl, List.prefix_rfl, List.prefix_rfl, List.prefix_rfl⟩
  have hlater : Later (mozCompilerEmit r.1 r.2 .iRet) (closed S r) := (grows_emit _ _ _).later hself
  have hret := begins_emit hcur hlater
  have hclose : Begins .iFail S.fail ((closed S r).rest (mozCompilerEmit r.1 r.2 .iRet) S.fail)
      ((closed S r).rest (closed S r) S.fail) :=
    begins_emit (S := { S with cur := S.fail }) hfail hself
  have hempty : (mozCompilerEmit r.1 r.2 .iRet).insts S.fail = [] := by
    rw [insts_emit, if_neg hne, hnil]
  rw [rest_of_nil hempty] at hclose
  exact ⟨(grows_emit _ _ _).later hlater, ⟨_, _, hret⟩, ⟨_, _, hclose⟩⟩

theorem fresh_opened : Opened false (fresh.1.insts fresh.2.cur) := by
  show fresh.1.insts fresh.2.cur = []
  decide +kernel

/-- `'a'*`. -/
def repeated : Expr := .repetition [.byte 97]

theorem repeated_agrees : PathsAgree fresh.1 fresh.2
    (closed fresh.2 (mozExprToIr repeated fresh.1 fresh.2))
    (closed fresh.2 (mozExprToBlocks repeated fresh.1 fresh.2)) [97, 97, 98]
    { code := [], current := 0, sp := 0 } :=
  (specialised_agrees_iff rfl (by decide +kernel) fresh_opened
    (observed_closed (by decide +kernel)) (observed_closed (by decide +kernel)) _ _).2 nofun

/-- Before a byte the two paths of `!.` fail at different positions. -/
theorem notAny_disagrees :
    ¬∀ (e : Expr) (C F G : MozCompiler) (S : MozState) (hd : Bool) (input : List UInt8) (s : State),
      e.specialised → S.cur < C.maxBlockId → Opened hd (C.insts S.cur) →
      Observed S (mozExprToIr e C S) F → Observed S (mozExprToBlocks e C S) G →
        PathsAgree C S F G input s := by
  intro h
  have hF : Observed fresh.2 (mozExprToIr (.not .any) fresh.1 fresh.2)
      (closed fresh.2 (mozExprToIr (.not .any) fresh.1 fresh.2)) :=
    observed_closed (by decide +kernel)
  have hG : Observed fresh.2 (mozExprToBlocks (.not .any) fresh.1 fresh.2)
      (closed fresh.2 (mozExprToBlocks (.not .any) fresh.1 fresh.2)) :=
    observed_closed (by decide +kernel)
  have hcur : fresh.2.cur < fresh.1.maxBlockId := by decide +kernel
  have hagree := h _ _ _ _ _ false [97] { code := [], current := 0, sp := 0 } rfl hcur
    fresh_opened hF hG
  exact absurd ((notAny_agree_iff hcur fresh_opened hF hG _ _).1 hagree).2 (by decide)

end Moz.Compiler
