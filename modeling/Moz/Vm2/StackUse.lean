import Moz.Vm2.Control
import Moz.Lib.StackUse

/-!
# The stack of VM2

What every instruction does to the stack, and runs followed together with the
items on it: the frames of the calls, and the cells that were pushed above them.
A run goes on only as long as nothing is popped that is not there, and as long as
its steps meet a condition that the run is about.
-/

namespace Moz.Vm2

open FrameStack

def Machine.regs (m : Machine) : Regs ℤ := ⟨m.sp, m.fp, m.stack⟩

/-- What the instruction does to the stack, in a state with `PC` after the operands. -/
def Inst.stackOp (m : Machine) : Inst → StackOp ℤ
  | .iPLoad | .iTCommit _ | .iSClose | .iSDef _ | .iSIsa _ _ => .pop
  | .iSIs _ tagId => if (symtableGetSymbol m.tbl tagId).isSome then .pop else .keep
  | .iPStore => .push m.current
  | .iTStart => .push (astSaveTx m.ast)
  | .iSOpen | .iSMask _ => .push (symtableSavepoint m.tbl)
  | .iInvoke fail _ => .pushFrame [(m.current : ℤ), m.pc, fail]
  | .iRet | .iFail => .popFrame
  | .iExit _ | .iJump _ | .iTableJump _ | .iMemoFail _ _ | .iUByte _ | .iUSet _
  | .iRUByte | .iRUSet | .iOUByte | .iOUSet | .iLookup _ _ | .iMemo _ | .iTAbort
  | .iTLookup _ _ _ | .iTMemo _ | .iLabel | .iAny _ | .iByte _ _ | .iStr _ _ | .iSet _ _
  | .iNAny _ | .iNByte _ _ | .iNStr _ _ | .iNSet _ _ | .iRByte _ | .iRAny | .iRStr _ | .iRSet _
  | .iOByte _ | .iOStr _ | .iOSet _ | .iTPush | .iTPop _ | .iTFoldL _ _ | .iTNew _ | .iTCapture _
  | .iTTag _ | .iTReplace _ | .iSIsDef _ _ _ | .iSExists _ _ | .iSMatch _ _ => .keep

abbrev Does (m m' : Machine) (op : StackOp ℤ) : Prop :=
  op.Does (fun i : ℕ => (i : ℤ)) Int.toNat m.regs m'.regs

/-- A state that is reached from `m₀` by steps that meet the condition, with the items that are
then on the stack. -/
inductive StackRun (P : Program) (R : Runtime) (meets : Machine → Inst → Prop) (m₀ : Machine) :
    List (StackItem ℤ) → Machine → Prop
  | start : StackRun P R meets m₀ [.frame [0, P.stub, P.stub + 2]] m₀
  | step {items items' : List (StackItem ℤ)} {m m' : Machine} {inst : Inst} {stop : ℤ}
      (h : StackRun P R meets m₀ items m) (hfetch : P.fetch m.pc = some (inst, stop))
      (hmeets : meets m inst) (hafter : (inst.stackOp { m with pc := stop }).after items = some items')
      (hexec : exec R { m with pc := stop } inst = some (.next m')) :
      StackRun P R meets m₀ items' m'

section Instructions

variable {R : Runtime} {m m' : Machine} {inst : Inst}

theorem Does.keep (hsp : m'.sp = m.sp) (hfp : m'.fp = m.fp) (hstack : m'.stack = m.stack) :
    Does m m' .keep :=
  ⟨hsp, hfp, hstack⟩

theorem Does.of_effect {fail : ℤ} {e : Effect} (h : m.effect fail e = some (.next m')) :
    Does m m' .keep := by
  rcases m.effect_cases h with ⟨current, rfl⟩ | rfl
  · exact .keep rfl rfl rfl
  · exact .keep rfl rfl rfl

theorem Does.of_move {current : Option ℕ} (h : m.move current = some (.next m')) :
    Does m m' .keep := by
  obtain ⟨current, rfl⟩ := m.move_cases h
  exact .keep rfl rfl rfl

theorem Does.of_push {x : ℤ} (h : m.push x = some m') : Does m m' (.push x) := by
  obtain ⟨-, rfl⟩ := m.push_cases h
  exact ⟨rfl, rfl, rfl⟩

theorem Does.of_pushFrame {pos next fail : ℤ} (h : m.pushFrame pos next fail = some m') :
    Does m m' (.pushFrame [pos, next, fail]) := by
  obtain ⟨-, hfp, hsp, -, hkeep, hold⟩ := Machine.pushFrame_cases h
  exact ⟨hsp, hfp, hkeep, hold⟩

theorem Does.pop (hsp : m'.sp = m.sp - 1) (hfp : m'.fp = m.fp) (hstack : m'.stack = m.stack) :
    Does m m' .pop :=
  ⟨hsp, hfp, hstack⟩

theorem exec_stackOp (h : exec R m inst = some (.next m')) : Does m m' (inst.stackOp m) := by
  cases inst with
  | iExit | iUByte | iUSet | iRUByte | iRUSet | iOUByte | iOUSet | iLookup | iMemo | iTAbort
  | iTLookup | iTMemo => cases h
  | iInvoke fail funcaddr =>
    simp only [exec, Option.bind_eq_bind, Option.bind_eq_some_iff] at h
    obtain ⟨m₁, hpush, h⟩ := h
    cases h
    obtain ⟨hsp, hfp, hkeep, hold⟩ := Does.of_pushFrame hpush
    exact ⟨hsp, hfp, hkeep, hold⟩
  | iRet | iFail =>
    cases h
    exact ⟨rfl, rfl, rfl⟩
  | iLabel | iJump =>
    cases h
    exact .keep rfl rfl rfl
  | iTableJump =>
    simp only [exec, Option.bind_eq_bind, Option.bind_eq_some_iff] at h
    obtain ⟨_, -, _, -, h⟩ := h
    cases h
    exact .keep rfl rfl rfl
  | iAny | iByte | iStr | iSet | iNAny | iNByte | iNStr | iNSet => exact .of_effect h
  | iRByte | iRAny | iRStr | iRSet | iOByte | iOStr | iOSet => exact .of_move h
  | iTPush | iTPop | iTFoldL | iTNew | iTCapture =>
    cases h
    exact .keep rfl rfl rfl
  | iTTag | iTReplace =>
    simp only [exec, Option.bind_eq_bind, Option.bind_eq_some_iff] at h
    obtain ⟨_, -, h⟩ := h
    cases h
    exact .keep rfl rfl rfl
  | iMemoFail =>
    simp only [exec, Option.bind_eq_bind, Option.bind_eq_some_iff] at h
    obtain ⟨_, -, h⟩ := h
    cases h
    exact .keep rfl rfl rfl
  | iPStore | iTStart | iSOpen =>
    simp only [exec, Option.bind_eq_bind, Option.bind_eq_some_iff] at h
    obtain ⟨_, hpush, h⟩ := h
    cases h
    exact .of_push hpush
  | iSMask tagId =>
    simp only [exec, Option.bind_eq_bind, Option.bind_eq_some_iff] at h
    obtain ⟨m₁, hpush, h⟩ := h
    cases h
    obtain ⟨hsp, hfp, hstack⟩ := Does.of_push hpush
    exact ⟨hsp, hfp, hstack⟩
  | iPLoad | iSDef =>
    cases h
    exact .pop rfl rfl rfl
  | iTCommit | iSClose =>
    simp only [exec, Option.bind_eq_bind, Option.bind_eq_some_iff] at h
    obtain ⟨_, -, h⟩ := h
    cases h
    exact .pop rfl rfl rfl
  | iSIsDef =>
    simp only [exec, Option.bind_eq_bind, Option.bind_eq_some_iff] at h
    obtain ⟨_, -, h⟩ := h
    split_ifs at h
    · cases h
      exact .keep rfl rfl rfl
    · cases h
      exact .keep rfl rfl rfl
  | iSExists =>
    simp only [exec] at h
    split_ifs at h
    · cases h
      exact .keep rfl rfl rfl
    · cases h
      exact .keep rfl rfl rfl
  | iSMatch =>
    simp only [exec] at h
    split at h
    · split_ifs at h
      · cases h
        exact .keep rfl rfl rfl
      · cases h
        exact .keep rfl rfl rfl
    · cases h
      exact .keep rfl rfl rfl
  | iSIs fail tagId =>
    simp only [exec] at h
    split at h
    · rename_i t ht
      have hop : (Inst.iSIs fail tagId).stackOp m = .pop := by simp [Inst.stackOp, ht]
      rw [hop]
      split_ifs at h
      · cases h
        exact .pop rfl rfl rfl
      · cases h
        exact .pop rfl rfl rfl
    · rename_i hnone
      have hop : (Inst.iSIs fail tagId).stackOp m = .keep := by simp [Inst.stackOp, hnone]
      rw [hop]
      cases h
      exact .keep rfl rfl rfl
  | iSIsa =>
    simp only [exec] at h
    split_ifs at h
    · cases h
      exact .pop rfl rfl rfl
    · cases h
      exact .pop rfl rfl rfl

theorem Inst.length_pushFrame {slots : List ℤ} (h : inst.stackOp m = .pushFrame slots) :
    slots.length = 3 := by
  cases inst with
  | iInvoke =>
    cases h
    rfl
  | iSIs =>
    simp only [stackOp] at h
    split_ifs at h
  | _ => cases h

theorem Inst.stackOp_ne_setSlots (inst : Inst) (m : Machine) (slots : List ℤ) :
    inst.stackOp m ≠ .setSlots slots := by
  intro h
  cases inst with
  | iSIs =>
    simp only [stackOp] at h
    split_ifs at h
  | _ => cases h

/-- Without room for what it pushes an instruction has no defined result. -/
theorem exec_room {o : Outcome} (h : exec R m inst = some o) :
    (inst.stackOp m).room = 0 ∨ m.sp + (inst.stackOp m).room ≤ stackSize := by
  cases inst with
  | iPStore | iTStart | iSOpen | iSMask =>
    simp only [exec, Option.bind_eq_bind, Option.bind_eq_some_iff] at h
    obtain ⟨_, hpush, -⟩ := h
    exact .inr (m.push_cases hpush).1
  | iInvoke =>
    simp only [exec, Option.bind_eq_bind, Option.bind_eq_some_iff] at h
    obtain ⟨_, hpush, -⟩ := h
    unfold Machine.pushFrame at hpush
    split_ifs at hpush with hroom
    exact .inr hroom
  | iSIs fail tagId =>
    refine .inl ?_
    simp only [Inst.stackOp]
    split_ifs
    · rfl
    · rfl
  | _ => exact .inl rfl

end Instructions

section Runs

variable {P : Program} {R : Runtime} {meets : Machine → Inst → Prop} {m₀ m : Machine}
  {items : List (StackItem ℤ)}

abbrev StackOk (items : List (StackItem ℤ)) (m : Machine) : Prop :=
  Lies (fun i : ℕ => (i : ℤ)) m.stack stackBase m.sp m.fp items

theorem start_stackOk {stack : ℕ → ℤ} {ast : AstMachine} {tbl : Symtable} {memo : Memo}
    (h : start P stack ast tbl memo = some m₀) :
    StackOk [.frame [0, P.stub, P.stub + 2]] m₀ :=
  Lies.does Int.toNat_natCast Lies.nil (Does.of_pushFrame h) rfl

theorem StackRun.stackOk (hstart : StackOk [.frame [0, P.stub, P.stub + 2]] m₀)
    (h : StackRun P R meets m₀ items m) : StackOk items m := by
  induction h with
  | start => exact hstart
  | step _ _ _ hafter hexec ih => exact ih.does Int.toNat_natCast (exec_stackOp hexec) hafter

theorem StackRun.length_slots (h : StackRun P R meets m₀ items m) {slots : List ℤ}
    (hslots : .frame slots ∈ items) : slots.length = 3 := by
  induction h with
  | start =>
    cases List.mem_singleton.1 hslots
    rfl
  | @step items items' m m' inst stop _ _ _ hafter _ ih =>
    cases hop : inst.stackOp { m with pc := stop } with
    | keep =>
      rw [hop] at hafter
      cases hafter
      exact ih hslots
    | push a =>
      rw [hop] at hafter
      cases hafter
      exact ih (List.mem_of_ne_of_mem (by simp) hslots)
    | pop =>
      rw [hop] at hafter
      match items, hafter with
      | .cell a :: items, hafter =>
        cases hafter
        exact ih (List.mem_cons_of_mem _ hslots)
    | pushFrame slots' =>
      rw [hop] at hafter
      cases hafter
      rcases List.mem_cons.1 hslots with heq | hslots
      · cases heq
        exact inst.length_pushFrame hop
      · exact ih hslots
    | popFrame =>
      rw [hop] at hafter
      exact ih (mem_of_dropFrame hafter hslots)
    | setSlots slots' => exact absurd hop (inst.stackOp_ne_setSlots _ _)

end Runs

end Moz.Vm2
