import Moz.Vm1.Failure
import Moz.Lib.StackUse

/-!
# The stack of VM1

As for VM2: what every instruction does to the stack, and runs followed together
with the items on it. A failure pops the top frame. `Skip` writes to the slots of
the top frame, where nothing is pushed.
-/

namespace Moz.Vm1

open FrameStack

def Machine.regs (m : Machine) : Regs ℤ := ⟨m.sp, m.fp, m.stack⟩

/-- What the instruction does to the stack when it does not fail. -/
def Inst.stackOp (m : Machine) : Inst → StackOp ℤ
  | .alt failjump => .pushFrame
      [(m.current : ℤ), m.pc + failjump, astSaveTx m.ast, symtableSavepoint m.tbl]
  | .succ | .memo _ _ | .tMemo _ _ => .popFrame
  | .call next _ => .push (m.pc + next)
  | .pos => .push m.current
  | .tStart => .push (astSaveTx m.ast)
  | .sOpen | .sMask _ => .push (symtableSavepoint m.tbl)
  | .ret _ | .back | .tCommit _ | .sClose | .sDef _ | .sIs _ | .sIsa _ => .pop
  | .skip => .setSlots [(m.current : ℤ), m.frameNext, astSaveTx m.ast, symtableSavepoint m.tbl]
  | .nop | .fail | .jump _ | .byte _ | .any | .str _ | .set _ | .nByte _ | .nAny | .nStr _
  | .nSet _ | .oByte _ | .oAny | .oStr _ | .oSet _ | .rByte _ | .rAny | .rStr _ | .rSet _
  | .consume _ | .first _ | .lookup _ _ _ | .memoFail _ _ | .tPush | .tPop _ | .tLeftFold _ _
  | .tNew _ | .tCapture _ | .tTag _ | .tReplace _ | .tAbort | .tLookup _ _ _ _ | .sIsDef _ _
  | .sExists _ | .sMatch _ | .sDefNum | .sCount | .exit _ | .tblJump1 _ | .tblJump2 _
  | .tblJump3 _ | .label => .keep

abbrev Does (m m' : Machine) (op : StackOp ℤ) : Prop :=
  op.Does (fun i : ℕ => (i : ℤ)) Int.toNat m.regs m'.regs

/-- The items after `moz_runtime_parse_init`. -/
def startItems (P : Program) (m₀ : Machine) : List (FrameStack.StackItem ℤ) :=
  [.cell P.stub, .frame [(m₀.current : ℤ), P.stub + 2, astSaveTx m₀.ast, symtableSavepoint m₀.tbl]]

/-- A state that is reached from `m₀`, with the items that are then on the stack. -/
inductive StackRun (P : Program) (R : Runtime) (m₀ : Machine) :
    List (FrameStack.StackItem ℤ) → Machine → Prop
  | start : StackRun P R m₀ (startItems P m₀) m₀
  | next {items items' : List (FrameStack.StackItem ℤ)} {m m' : Machine} {inst : Inst} {stop : ℤ}
      (h : StackRun P R m₀ items m) (hfetch : P.fetch m.pc = some (inst, stop))
      (hafter : (inst.stackOp { m with pc := stop }).after items = some items')
      (hexec : exec R { m with pc := stop } inst = some (.next m')) : StackRun P R m₀ items' m'
  | fail {items items' : List (FrameStack.StackItem ℤ)} {m m₁ m' : Machine} {inst : Inst} {stop : ℤ}
      (h : StackRun P R m₀ items m) (hfetch : P.fetch m.pc = some (inst, stop))
      (hafter : StackOp.popFrame.after items = some items')
      (hexec : exec R { m with pc := stop } inst = some (.failed m₁))
      (hfail : failImpl m₁ = some m') : StackRun P R m₀ items' m'

section Instructions

variable {R : Runtime} {m m' : Machine} {inst : Inst}

theorem Does.keep (h : SameStack m m') : Does m m' .keep := ⟨h.sp, h.fp, h.stack⟩

theorem Does.of_push {x : ℤ} (h : m.push x = some m') : Does m m' (.push x) := by
  unfold Machine.push at h
  split_ifs at h
  cases h
  exact ⟨rfl, rfl, rfl⟩

theorem Does.of_pushChoice {next : ℤ} (h : m.pushChoice next = some m') :
    Does m m' (.pushFrame [(m.current : ℤ), next, astSaveTx m.ast, symtableSavepoint m.tbl]) := by
  obtain ⟨hsp, hfp, -, -, hcells, hkeep⟩ := Machine.pushChoice_spec h false
  refine ⟨hsp, hfp, hkeep, hcells.fp, fun i a hi => ?_⟩
  match i with
  | 0 =>
    cases hi
    exact hcells.pos
  | 1 =>
    cases hi
    exact hcells.next
  | 2 =>
    cases hi
    exact hcells.ast
  | 3 =>
    cases hi
    exact hcells.symtbl
  | i + 4 => cases hi

theorem Does.refresh (m : Machine) : Does m m.refresh
    (.setSlots [(m.current : ℤ), m.frameNext, astSaveTx m.ast, symtableSavepoint m.tbl]) := by
  refine ⟨rfl, rfl, fun i hi => ?_, fun i a hi => ?_⟩
  · have hlength : i ≤ m.fp ∨ m.fp + 5 ≤ i := hi
    simp only [Machine.regs, Machine.refresh]
    rw [Function.update_of_ne (by omega), Function.update_of_ne (by omega),
      Function.update_of_ne (by omega)]
  · simp only [Machine.regs, Machine.refresh]
    rcases i with _ | _ | _ | _ | i
    · cases hi
      rw [Function.update_of_ne (by omega), Function.update_of_ne (by omega), add_zero,
        Function.update_self]
    · cases hi
      rw [Function.update_of_ne (by omega), Function.update_of_ne (by omega),
        Function.update_of_ne (by omega)]
      rfl
    · cases hi
      rw [Function.update_of_ne (by omega), Function.update_self]
    · cases hi
      exact Function.update_self ..
    · cases hi

theorem exec_sameStack (h : exec R m inst = some (.next m')) (hinst : inst.plain) :
    SameStack m m' := by
  by_cases hconsume : ∀ shift, inst = .consume shift → 0 ≤ shift.toInt
  · exact (exec_plain h hinst hconsume).1
  · push Not at hconsume
    obtain ⟨shift, rfl, -⟩ := hconsume
    cases h
    exact ⟨rfl, rfl, rfl⟩

/-- What an instruction that does not fail does to the stack. -/
theorem exec_stackOp (h : exec R m inst = some (.next m')) : Does m m' (inst.stackOp m) := by
  cases inst with
  | alt failjump =>
    obtain ⟨_, hpush, h⟩ := Option.bind_eq_some_iff.1 h
    cases h
    exact .of_pushChoice hpush
  | call next jump =>
    obtain ⟨_, hpush, h⟩ := Option.bind_eq_some_iff.1 h
    cases h
    obtain ⟨hsp, hfp, hstack⟩ := Does.of_push hpush
    exact ⟨hsp, hfp, hstack⟩
  | pos | tStart | sOpen =>
    obtain ⟨_, hpush, h⟩ := Option.bind_eq_some_iff.1 h
    cases h
    exact .of_push hpush
  | sMask tagId =>
    obtain ⟨_, hpush, h⟩ := Option.bind_eq_some_iff.1 h
    cases h
    obtain ⟨hsp, hfp, hstack⟩ := Does.of_push hpush
    exact ⟨hsp, hfp, hstack⟩
  | succ | ret | back | sDef =>
    cases h
    exact ⟨rfl, rfl, rfl⟩
  | memo | tMemo | tCommit | sClose =>
    obtain ⟨_, -, h⟩ := Option.bind_eq_some_iff.1 h
    cases h
    exact ⟨rfl, rfl, rfl⟩
  | skip =>
    simp only [exec] at h
    split_ifs at h
    · cases h
    · cases h
      exact .refresh m
  | sIs tagId =>
    simp only [exec] at h
    split at h
    · split_ifs at h
      · cases h
        exact ⟨rfl, rfl, rfl⟩
      · cases h
    · cases h
  | sIsa tagId =>
    simp only [exec] at h
    split_ifs at h
    · cases h
      exact ⟨rfl, rfl, rfl⟩
    · cases h
  | _ => exact .keep (exec_sameStack h rfl)

theorem Does.of_failImpl {m₁ : Machine} (hm₁ : FailsAt m m₁) (h : failImpl m₁ = some m') :
    Does m m' .popFrame := by
  simp only [failImpl] at h
  obtain ⟨ast, -, h⟩ := Option.bind_eq_some_iff.1 h
  obtain ⟨tbl, -, h⟩ := Option.bind_eq_some_iff.1 h
  have hfp := hm₁.fp
  have hstack := hm₁.stack
  cases h
  split_ifs
  · refine ⟨hfp, ?_, hstack⟩
    show (m₁.stack m₁.fp).toNat = (m.stack m.fp).toNat
    rw [hfp, hstack]
  · refine ⟨hfp, ?_, hstack⟩
    show (m₁.stack m₁.fp).toNat = (m.stack m.fp).toNat
    rw [hfp, hstack]

/-- Without room for what it pushes an instruction has no defined result. -/
theorem exec_room {o : Outcome} (h : exec R m inst = some o) :
    (inst.stackOp m).room = 0 ∨ m.sp + (inst.stackOp m).room ≤ stackSize := by
  have hroom : ∀ {x : ℤ} {m' : Machine}, m.push x = some m' → m.sp + 1 ≤ stackSize := by
    intro x m' hpush
    unfold Machine.push at hpush
    split_ifs at hpush with hlt
    exact hlt
  cases inst with
  | call | pos | tStart | sOpen | sMask =>
    obtain ⟨_, hpush, -⟩ := Option.bind_eq_some_iff.1 h
    exact .inr (hroom hpush)
  | alt =>
    obtain ⟨_, hpush, -⟩ := Option.bind_eq_some_iff.1 h
    unfold Machine.pushChoice Machine.pushFrame at hpush
    split_ifs at hpush with hle
    exact .inr hle
  | _ => exact .inl rfl

end Instructions

section Runs

variable {P : Program} {R : Runtime} {m₀ m : Machine} {items : List (FrameStack.StackItem ℤ)}

abbrev StackOk (items : List (FrameStack.StackItem ℤ)) (m : Machine) : Prop :=
  Lies (fun i : ℕ => (i : ℤ)) m.stack stackBase m.sp m.fp items

theorem parseInit_stackOk {current head : ℕ} {stack : ℕ → ℤ} {ast : AstMachine} {tbl : Symtable}
    {memo : Memo} (h : parseInit P current head stack ast tbl memo = some m₀) :
    StackOk (startItems P m₀) m₀ := by
  simp only [parseInit] at h
  obtain ⟨m₁, hframe, hpush⟩ := Option.bind_eq_some_iff.1 h
  have hsame : m₁.current = m₀.current ∧ m₁.ast = m₀.ast ∧ m₁.tbl = m₀.tbl := by
    unfold Machine.push at hpush
    split_ifs at hpush
    cases hpush
    exact ⟨rfl, rfl, rfl⟩
  have hframe' : m₁.current = current ∧ m₁.ast = ast ∧ m₁.tbl = tbl := by
    unfold Machine.pushChoice Machine.pushFrame at hframe
    split_ifs at hframe
    cases hframe
    exact ⟨rfl, rfl, rfl⟩
  have hfirst := Lies.does Int.toNat_natCast Lies.nil (Does.of_pushChoice hframe) rfl
  have hsecond := hfirst.does Int.toNat_natCast (Does.of_push hpush) rfl
  rw [startItems, ← hsame.1, ← hsame.2.1, ← hsame.2.2, hframe'.1, hframe'.2.1, hframe'.2.2]
  exact hsecond

theorem StackRun.stackOk (hstart : StackOk (startItems P m₀) m₀) (h : StackRun P R m₀ items m) :
    StackOk items m := by
  induction h with
  | start => exact hstart
  | next _ _ hafter hexec ih => exact ih.does Int.toNat_natCast (exec_stackOp hexec) hafter
  | fail _ _ hafter hexec hfail ih =>
    exact ih.does Int.toNat_natCast (Does.of_failImpl (exec_failed hexec) hfail) hafter

def stackStep (P : Program) (R : Runtime) (s : List (FrameStack.StackItem ℤ) × Machine) :
    Option (List (FrameStack.StackItem ℤ) × Machine) := do
  let r ← P.fetch s.2.pc
  match ← exec R { s.2 with pc := r.2 } r.1 with
  | .next m =>
    let items ← (r.1.stackOp { s.2 with pc := r.2 }).after s.1
    return (items, m)
  | .failed m =>
    let items ← StackOp.popFrame.after s.1
    let m ← failImpl m
    return (items, m)
  | .exit _ _ => none

def stackSteps (P : Program) (R : Runtime) :
    ℕ → List (FrameStack.StackItem ℤ) × Machine → Option (List (FrameStack.StackItem ℤ) × Machine)
  | 0, s => some s
  | n + 1, s => (stackStep P R s).bind (stackSteps P R n)

theorem StackRun.stackStep {s : List (FrameStack.StackItem ℤ) × Machine}
    (h : StackRun P R m₀ items m) (hs : Vm1.stackStep P R (items, m) = some s) :
    StackRun P R m₀ s.1 s.2 := by
  obtain ⟨⟨inst, stop⟩, hfetch, hs⟩ := Option.bind_eq_some_iff.1 hs
  obtain ⟨o, hexec, hs⟩ := Option.bind_eq_some_iff.1 hs
  cases o with
  | next m' =>
    obtain ⟨items', hafter, hs⟩ := Option.bind_eq_some_iff.1 hs
    cases hs
    exact h.next hfetch hafter hexec
  | failed m₁ =>
    obtain ⟨items', hafter, hs⟩ := Option.bind_eq_some_iff.1 hs
    obtain ⟨m', hfail, hs⟩ := Option.bind_eq_some_iff.1 hs
    cases hs
    exact h.fail hfetch hafter hexec hfail
  | exit => cases hs

theorem StackRun.stackSteps {n : ℕ} {s : List (FrameStack.StackItem ℤ) × Machine}
    (h : StackRun P R m₀ items m) (hs : Vm1.stackSteps P R n (items, m) = some s) :
    StackRun P R m₀ s.1 s.2 := by
  induction n generalizing items m with
  | zero =>
    cases hs
    exact h
  | succ n ih =>
    obtain ⟨⟨items', m'⟩, hstep, hs⟩ := Option.bind_eq_some_iff.1 hs
    exact ih (h.stackStep hstep) hs

end Runs

end Moz.Vm1
