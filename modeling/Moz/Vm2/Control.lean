import Moz.Compiler.Module
import Moz.Vm2.Machine
import Moz.Lib.FrameStack

/-!
# Control flow of VM2

A run is followed together with the calls it is in: what an `IInvoke` promises to
its `IRet` and its `IFail`. The frames on the stack are those of the calls. Every
instruction but `IInvoke`, `IRet` and `IFail` leaves the frames alone, as long as
it pops nothing but what was pushed above them.
-/

namespace Moz.Vm2

open FrameStack

/-- Whether the run may get to the end of the instruction, at once or by an `IRet`. -/
def Inst.continues : Inst → Bool
  | .iExit _ | .iJump _ | .iTableJump _ | .iRet | .iFail | .iMemoFail _ _ | .iUByte _ | .iUSet _
  | .iRUByte | .iRUSet | .iOUByte | .iOUSet | .iLookup _ _ | .iMemo _ | .iTAbort
  | .iTLookup _ _ _ | .iTMemo _ => false
  | .iLabel | .iInvoke _ _ | .iPLoad | .iPStore | .iAny _ | .iByte _ _ | .iStr _ _ | .iSet _ _
  | .iNAny _ | .iNByte _ _ | .iNStr _ _ | .iNSet _ _ | .iRByte _ | .iRAny | .iRStr _ | .iRSet _
  | .iOByte _ | .iOStr _ | .iOSet _ | .iTStart | .iTCommit _ | .iTPush | .iTPop _ | .iTFoldL _ _
  | .iTNew _ | .iTCapture _ | .iTTag _ | .iTReplace _ | .iSOpen | .iSClose | .iSMask _ | .iSDef _
  | .iSIsDef _ _ _ | .iSExists _ _ | .iSMatch _ _ | .iSIs _ _ | .iSIsa _ _ => true

/-- Whether the instruction executes a `POP`. -/
def Inst.pops (tbl : Symtable) : Inst → Bool
  | .iPLoad | .iTCommit _ | .iSClose | .iSDef _ | .iSIsa _ _ => true
  | .iSIs _ tagId => (symtableGetSymbol tbl tagId).isSome
  | .iExit _ | .iJump _ | .iTableJump _ | .iRet | .iFail | .iMemoFail _ _ | .iUByte _ | .iUSet _
  | .iRUByte | .iRUSet | .iOUByte | .iOUSet | .iLookup _ _ | .iMemo _ | .iTAbort
  | .iTLookup _ _ _ | .iTMemo _ | .iLabel | .iInvoke _ _ | .iPStore | .iAny _ | .iByte _ _
  | .iStr _ _ | .iSet _ _ | .iNAny _ | .iNByte _ _ | .iNStr _ _ | .iNSet _ _ | .iRByte _ | .iRAny
  | .iRStr _ | .iRSet _ | .iOByte _ | .iOStr _ | .iOSet _ | .iTStart | .iTPush | .iTPop _
  | .iTFoldL _ _ | .iTNew _ | .iTCapture _ | .iTTag _ | .iTReplace _ | .iSOpen | .iSMask _
  | .iSIsDef _ _ _ | .iSExists _ _ | .iSMatch _ _ => false

def Inst.framed : Inst → Bool
  | .iInvoke _ _ | .iRet | .iFail => true
  | .iExit _ | .iJump _ | .iTableJump _ | .iMemoFail _ _ | .iUByte _ | .iUSet _
  | .iRUByte | .iRUSet | .iOUByte | .iOUSet | .iLookup _ _ | .iMemo _ | .iTAbort
  | .iTLookup _ _ _ | .iTMemo _ | .iLabel | .iPLoad | .iPStore | .iAny _ | .iByte _ _
  | .iStr _ _ | .iSet _ _ | .iNAny _ | .iNByte _ _ | .iNStr _ _ | .iNSet _ _ | .iRByte _ | .iRAny
  | .iRStr _ | .iRSet _ | .iOByte _ | .iOStr _ | .iOSet _ | .iTStart | .iTCommit _ | .iTPush
  | .iTPop _ | .iTFoldL _ _ | .iTNew _ | .iTCapture _ | .iTTag _ | .iTReplace _ | .iSOpen
  | .iSClose | .iSMask _ | .iSDef _ | .iSIsDef _ _ _ | .iSExists _ _ | .iSMatch _ _ | .iSIs _ _
  | .iSIsa _ _ => false

/-- The code is made of the instructions at `starts`, and every label and every end of an
instruction that is left at its end is one of them. -/
structure LinkedCode (P : Program) (R : Runtime) (starts : List ℕ) : Prop where
  entry : 0 ∈ starts
  inst : ∀ s ∈ starts, ∃ i ∈ decode P.code s, i.2 ≤ P.code.length ∧
    (i.1.continues → i.2 ∈ starts) ∧ ∀ d ∈ i.1.labels R, ∃ t ∈ starts, (i.2 : ℤ) + d = t

def Program.InModule (P : Program) (starts : List ℕ) (pc : ℤ) : Prop :=
  ∃ s ∈ starts, pc = P.base + s

/-- An address of an instruction of the module or of one of the two `IExit`s. -/
def Program.AtInstruction (P : Program) (starts : List ℕ) (pc : ℤ) : Prop :=
  P.InModule starts pc ∨ pc = P.stub ∨ pc = P.stub + 2

structure Plain (R : Runtime) (m : Machine) (inst : Inst) (m' : Machine) : Prop where
  fp : m'.fp = m.fp
  pc : inst.continues ∧ m'.pc = m.pc ∨ ∃ d ∈ inst.labels R, m'.pc = m.pc + d
  sp : m.sp ≤ m'.sp ∨ inst.pops m.tbl ∧ m.sp ≤ m'.sp + 1
  stack : ∀ i < m.sp, m'.stack i = m.stack i

theorem Machine.effect_cases {m m' : Machine} {fail : ℤ} {e : Effect}
    (h : m.effect fail e = some (.next m')) :
    (∃ current, m' = { m with current := current }) ∨ m' = m.jump fail := by
  cases e with
  | next current =>
    cases h
    exact .inl ⟨current, rfl⟩
  | fail =>
    cases h
    exact .inr rfl
  | stuck => cases h

theorem Machine.move_cases {m m' : Machine} {current : Option ℕ}
    (h : m.move current = some (.next m')) : ∃ current, m' = { m with current := current } := by
  cases current with
  | none => cases h
  | some current =>
    cases h
    exact ⟨current, rfl⟩

theorem Machine.push_cases {m m' : Machine} {x : ℤ} (h : m.push x = some m') :
    m.sp < stackSize ∧
      m' = { m with stack := Function.update m.stack m.sp x, sp := m.sp + 1 } := by
  unfold Machine.push at h
  split_ifs at h with hlt
  cases h
  exact ⟨hlt, rfl⟩

namespace Plain

variable {R : Runtime} {m m' : Machine} {inst : Inst}

/-- The registers `SP`, `FP` and the stack are as before. -/
theorem same (hfp : m'.fp = m.fp) (hsp : m'.sp = m.sp) (hstack : m'.stack = m.stack)
    (hpc : inst.continues ∧ m'.pc = m.pc ∨ ∃ d ∈ inst.labels R, m'.pc = m.pc + d) :
    Plain R m inst m' where
  fp := hfp
  pc := hpc
  sp := .inl hsp.ge
  stack i _ := congrFun hstack i

theorem effect {fail : ℤ} {e : Effect} (h : m.effect fail e = some (.next m'))
    (hcontinues : inst.continues) (hfail : fail ∈ inst.labels R) : Plain R m inst m' := by
  rcases m.effect_cases h with ⟨current, rfl⟩ | rfl
  · exact same rfl rfl rfl (.inl ⟨hcontinues, rfl⟩)
  · exact same rfl rfl rfl (.inr ⟨fail, hfail, rfl⟩)

theorem move {current : Option ℕ} (h : m.move current = some (.next m'))
    (hcontinues : inst.continues) : Plain R m inst m' := by
  obtain ⟨current, rfl⟩ := m.move_cases h
  exact same rfl rfl rfl (.inl ⟨hcontinues, rfl⟩)

theorem log {ast : AstMachine} (h : m.log ast = some (.next m')) (hcontinues : inst.continues) :
    Plain R m inst m' := by
  cases h
  exact same rfl rfl rfl (.inl ⟨hcontinues, rfl⟩)

theorem push {x : ℤ} (h : m.push x = some m') (hcontinues : inst.continues) :
    Plain R m inst m' := by
  obtain ⟨-, rfl⟩ := m.push_cases h
  refine ⟨rfl, .inl ⟨hcontinues, rfl⟩, .inl (Nat.le_succ _), fun i hi => ?_⟩
  exact Function.update_of_ne hi.ne _ _

/-- After a `POP`, at the end of the instruction or at a label. -/
theorem pop (hpops : inst.pops m.tbl) (hfp : m'.fp = m.fp) (hsp : m'.sp = m.sp - 1)
    (hstack : m'.stack = m.stack)
    (hpc : inst.continues ∧ m'.pc = m.pc ∨ ∃ d ∈ inst.labels R, m'.pc = m.pc + d) :
    Plain R m inst m' where
  fp := hfp
  pc := hpc
  sp := .inr ⟨hpops, by omega⟩
  stack i _ := congrFun hstack i

end Plain

theorem exec_plain {R : Runtime} {m m' : Machine} {inst : Inst}
    (h : exec R m inst = some (.next m')) (hinst : inst.framed = false) : Plain R m inst m' := by
  cases inst with
  | iInvoke | iRet | iFail => cases hinst
  | iExit | iUByte | iUSet | iRUByte | iRUSet | iOUByte | iOUSet | iLookup | iMemo | iTAbort
  | iTLookup | iTMemo => cases h
  | iLabel =>
    cases h
    exact .same rfl rfl rfl (.inl ⟨rfl, rfl⟩)
  | iJump jump =>
    cases h
    exact .same rfl rfl rfl (.inr ⟨jump, by simp [Inst.labels], rfl⟩)
  | iTableJump tblId =>
    simp only [exec, Option.bind_eq_bind, Option.bind_eq_some_iff] at h
    obtain ⟨tbl, htbl, jump, hjump, h⟩ := h
    cases h
    refine .same rfl rfl rfl (.inr ⟨jump, ?_, rfl⟩)
    simpa [Inst.labels, htbl] using List.mem_of_getElem? hjump
  | iAny fail | iByte fail _ | iStr fail _ | iSet fail _ | iNAny fail | iNByte fail _
  | iNStr fail _ | iNSet fail _ => exact .effect h rfl (by simp [Inst.labels])
  | iRByte | iRAny | iRStr | iRSet | iOByte | iOStr | iOSet => exact .move h rfl
  | iTPush | iTPop | iTFoldL | iTNew | iTCapture => exact .log h rfl
  | iTTag | iTReplace =>
    simp only [exec, Option.bind_eq_bind, Option.bind_eq_some_iff] at h
    obtain ⟨_, -, h⟩ := h
    exact .log h rfl
  | iMemoFail fail memoId =>
    simp only [exec, Option.bind_eq_bind, Option.bind_eq_some_iff] at h
    obtain ⟨_, -, h⟩ := h
    cases h
    exact .same rfl rfl rfl (.inr ⟨fail, by simp [Inst.labels], rfl⟩)
  | iPStore | iTStart | iSOpen =>
    simp only [exec, Option.bind_eq_bind, Option.bind_eq_some_iff] at h
    obtain ⟨_, hpush, h⟩ := h
    cases h
    exact .push hpush rfl
  | iSMask tagId =>
    simp only [exec, Option.bind_eq_bind, Option.bind_eq_some_iff] at h
    obtain ⟨m₁, hpush, h⟩ := h
    cases h
    have hplain : Plain R m (.iSMask tagId) m₁ := .push hpush rfl
    exact ⟨hplain.fp, hplain.pc, hplain.sp, hplain.stack⟩
  | iPLoad | iSDef =>
    cases h
    exact .pop rfl rfl rfl rfl (.inl ⟨rfl, rfl⟩)
  | iTCommit | iSClose =>
    simp only [exec, Option.bind_eq_bind, Option.bind_eq_some_iff] at h
    obtain ⟨_, -, h⟩ := h
    cases h
    exact .pop rfl rfl rfl rfl (.inl ⟨rfl, rfl⟩)
  | iSIsDef fail tagId strId =>
    simp only [exec, Option.bind_eq_bind, Option.bind_eq_some_iff] at h
    obtain ⟨_, -, h⟩ := h
    split_ifs at h
    · cases h
      exact .same rfl rfl rfl (.inl ⟨rfl, rfl⟩)
    · cases h
      exact .same rfl rfl rfl (.inr ⟨fail, by simp [Inst.labels], rfl⟩)
  | iSExists fail tagId =>
    simp only [exec] at h
    split_ifs at h
    · cases h
      exact .same rfl rfl rfl (.inl ⟨rfl, rfl⟩)
    · cases h
      exact .same rfl rfl rfl (.inr ⟨fail, by simp [Inst.labels], rfl⟩)
  | iSMatch fail tagId =>
    simp only [exec] at h
    split at h
    · split_ifs at h
      · cases h
        exact .same rfl rfl rfl (.inl ⟨rfl, rfl⟩)
      · cases h
        exact .same rfl rfl rfl (.inr ⟨fail, by simp [Inst.labels], rfl⟩)
    · cases h
      exact .same rfl rfl rfl (.inr ⟨fail, by simp [Inst.labels], rfl⟩)
  | iSIs fail tagId =>
    simp only [exec] at h
    split at h
    · rename_i t ht
      have hpops : (Inst.iSIs fail tagId).pops m.tbl := by simp [Inst.pops, ht]
      split_ifs at h
      · cases h
        exact .pop hpops rfl rfl rfl (.inl ⟨rfl, rfl⟩)
      · cases h
        exact .pop hpops rfl rfl rfl (.inr ⟨fail, by simp [Inst.labels], rfl⟩)
    · cases h
      exact .same rfl rfl rfl (.inr ⟨fail, by simp [Inst.labels], rfl⟩)
  | iSIsa fail tagId =>
    simp only [exec] at h
    split_ifs at h
    · cases h
      exact .pop rfl rfl rfl rfl (.inl ⟨rfl, rfl⟩)
    · cases h
      exact .pop rfl rfl rfl rfl (.inr ⟨fail, by simp [Inst.labels], rfl⟩)

/-- What is known of a call: the state just before it, the places where `IRet` and `IFail` have to
continue, and the cell `FP_FAIL` of its frame. -/
structure Call where
  sp : ℕ
  fp : ℕ
  current : ℕ
  next : ℤ
  fail : ℤ
  failCell : ℤ
  deriving DecidableEq

/-- The frame that `moz_vm2_runtime_parse` pushes itself. -/
def Call.outermost (P : Program) : Call where
  sp := stackBase
  fp := stackBase
  current := 0
  next := P.stub
  fail := P.stub + 2
  failCell := P.stub + 2

/-- The call of an `IInvoke` that ends at `stop`. -/
def Call.invoke (m : Machine) (stop fail : ℤ) : Call where
  sp := m.sp
  fp := m.fp
  current := m.current
  next := stop
  fail := stop + fail
  failCell := fail

def Call.frame (call : Call) : Frame ℤ where
  base := call.sp
  prev := call.fp
  slots := [(call.current : ℤ), call.next, call.failCell]

/-- The calls after an instruction that ends at `stop`. -/
def callsAfter (m : Machine) (stop : ℤ) (inst : Inst) (calls : List Call) : List Call :=
  match inst with
  | .iInvoke fail _ => .invoke m stop fail :: calls
  | _ => if inst.framed then calls.tail else calls

/-- A state that is reached from `m₀`, and the calls it is in. -/
inductive Run (P : Program) (R : Runtime) (m₀ : Machine) : List Call → Machine → Prop
  | start : Run P R m₀ [.outermost P] m₀
  | step {calls : List Call} {m m' : Machine} {inst : Inst} {stop : ℤ}
      (h : Run P R m₀ calls m) (hfetch : P.fetch m.pc = some (inst, stop))
      (hexec : exec R { m with pc := stop } inst = some (.next m')) :
      Run P R m₀ (callsAfter m stop inst calls) m'

/-- The step from a state is one that keeps control: an `IFail` is the one of the outermost
production, and a `POP` takes what was pushed above the frame. -/
def Kept (P : Program) (calls : List Call) (m : Machine) : Prop :=
  ∀ inst stop, P.fetch m.pc = some (inst, stop) →
    (inst = .iFail → calls = [.outermost P]) ∧ (inst.pops m.tbl → m.fp + fpMax < m.sp)

inductive KeptRun (P : Program) (R : Runtime) (m₀ : Machine) : List Call → Machine → Prop
  | start : KeptRun P R m₀ [.outermost P] m₀
  | step {calls : List Call} {m m' : Machine} {inst : Inst} {stop : ℤ}
      (h : KeptRun P R m₀ calls m) (hkept : Kept P calls m)
      (hfetch : P.fetch m.pc = some (inst, stop))
      (hexec : exec R { m with pc := stop } inst = some (.next m')) :
      KeptRun P R m₀ (callsAfter m stop inst calls) m'

/-- The calls of a run: the outermost one, and calls made and to be left inside the module. -/
inductive CallsOk (P : Program) (starts : List ℕ) : List Call → Prop
  | outermost : CallsOk P starts [.outermost P]
  | invoke {call : Call} {calls : List Call} (hnext : P.InModule starts call.next)
      (hcalls : CallsOk P starts calls) : CallsOk P starts (call :: calls)

/-- What holds in every state of a run that keeps control. -/
structure Controlled (P : Program) (starts : List ℕ) (calls : List Call) (m : Machine) : Prop where
  pc : P.InModule starts m.pc ∧ CallsOk P starts calls ∨ (m.pc = P.stub ∨ m.pc = P.stub + 2) ∧ calls = []
  chain : Chain (fun i => (i : ℤ)) m.stack fpMax m.fp (calls.map Call.frame)
  above : calls ≠ [] → m.fp + fpMax ≤ m.sp

section Fetch

variable {P : Program} {R : Runtime} {starts : List ℕ}

theorem decode_lt {code : List UInt8} {pc : ℕ} {inst : Inst} {stop : ℕ}
    (h : decode code pc = some (inst, stop)) : pc < code.length := by
  by_contra hpc
  have hnone : code[pc]? = none := List.getElem?_eq_none (Nat.le_of_not_lt hpc)
  rw [decode, hnone] at h
  cases h

theorem LinkedCode.fetch (hP : LinkedCode P R starts) {pc : ℤ} (hpc : P.InModule starts pc) :
    ∃ inst stop, P.fetch pc = some (inst, stop) ∧
      (inst.continues → P.InModule starts stop) ∧
      ∀ d ∈ inst.labels R, P.InModule starts (stop + d) := by
  obtain ⟨s, hs, rfl⟩ := hpc
  obtain ⟨⟨inst, stop⟩, hdecode, -, hcontinues, hlabels⟩ := hP.inst s hs
  have hlt := decode_lt hdecode
  refine ⟨inst, P.base + stop, ?_, fun h => ⟨stop, hcontinues h, rfl⟩, ?_⟩
  · have hoffset : (P.base + s - P.base).toNat = s := by omega
    rw [Program.fetch, if_pos ⟨by omega, by omega⟩, hoffset, hdecode]
    rfl
  · intro d hd
    obtain ⟨t, ht, heq⟩ := hlabels d hd
    exact ⟨t, ht, by rw [add_assoc, heq]⟩

theorem Program.fetch_stub (P : Program) :
    P.fetch P.stub = some (.iExit 0, P.stub + 2) ∧
      P.fetch (P.stub + 2) = some (.iExit 1, P.stub + 4) := by
  have hdisjoint := P.disjoint
  have hlength : (stubCode.length : ℤ) = 4 := rfl
  have hzero : decode stubCode 0 = some (.iExit 0, 2) := by decide
  have htwo : decode stubCode 2 = some (.iExit 1, 4) := by decide
  constructor
  · have hoffset : (P.stub - P.stub).toNat = 0 := by omega
    rw [Program.fetch, if_neg (by omega), if_pos (by omega), hoffset, hzero]
    rfl
  · have hoffset : (P.stub + 2 - P.stub).toNat = 2 := by omega
    rw [Program.fetch, if_neg (by omega), if_pos (by omega), hoffset, htwo]
    rfl

end Fetch

section Frames

theorem Machine.pushFrame_cases {m m' : Machine} {pos next fail : ℤ}
    (h : m.pushFrame pos next fail = some m') :
    m'.pc = m.pc ∧ m'.fp = m.sp ∧ m'.sp = m.sp + fpMax ∧ m'.current = m.current ∧
      (∀ i < m.sp, m'.stack i = m.stack i) ∧
      Frame.Holds (fun i => (i : ℤ)) m'.stack ⟨m.sp, m.fp, [pos, next, fail]⟩ := by
  unfold Machine.pushFrame at h
  split_ifs at h with hlt
  cases h
  refine ⟨rfl, rfl, rfl, rfl, ?_, ?_, ?_⟩
  · intro i hi
    simp only
    rw [Function.update_of_ne (by omega), Function.update_of_ne (by omega),
      Function.update_of_ne (by omega), Function.update_of_ne (by omega)]
  · simp only
    rw [Function.update_of_ne (by omega), Function.update_of_ne (by omega),
      Function.update_of_ne (by omega), Function.update_self]
  · intro i a hi
    match i with
    | 0 =>
      cases hi
      simp only
      rw [Function.update_of_ne (by omega), Function.update_of_ne (by omega), add_zero,
        Function.update_self]
    | 1 =>
      cases hi
      simp only
      rw [Function.update_of_ne (by omega), Function.update_self]
    | 2 =>
      cases hi
      exact Function.update_self _ _ _
    | i + 3 => cases hi

/-- The cells of the top frame are what its call promised. -/
theorem chain_top {stack : ℕ → ℤ} {fp : ℕ} {call : Call} {calls : List Call}
    (h : Chain (fun i => (i : ℤ)) stack fpMax fp ((call :: calls).map Call.frame)) :
    fp = call.sp ∧ stack fp = call.fp ∧ stack (fp + 1) = call.current ∧
      stack (fp + 2) = call.next ∧ stack (fp + 3) = call.failCell ∧
      (calls ≠ [] → call.fp + fpMax ≤ call.sp) ∧
      Chain (fun i => (i : ℤ)) stack fpMax call.fp (calls.map Call.frame) := by
  cases h with
  | cons hold width above rest =>
    refine ⟨rfl, hold.prev, hold.slots 0 _ rfl, hold.slots 1 _ rfl, hold.slots 2 _ rfl, ?_, rest⟩
    intro hne
    exact above fun hnil => hne (List.map_eq_nil_iff.1 hnil)

end Frames

section Invariant

variable {P : Program} {R : Runtime} {starts : List ℕ} {calls : List Call} {m m' : Machine}
  {inst : Inst} {stop : ℤ}

theorem CallsOk.cons_inv {call : Call} (h : CallsOk P starts (call :: calls)) :
    call = .outermost P ∧ calls = [] ∨ P.InModule starts call.next ∧ CallsOk P starts calls := by
  cases h with
  | outermost => exact .inl ⟨rfl, rfl⟩
  | invoke hnext hcalls => exact .inr ⟨hnext, hcalls⟩

theorem callsAfter_of_not_framed (h : inst.framed = false) :
    callsAfter m stop inst calls = calls := by
  unfold callsAfter
  split
  · cases h
  · rw [h]
    rfl

theorem Controlled.leave {call : Call} {pc : ℤ} (h : Controlled P starts (call :: calls) m)
    (hcalls : CallsOk P starts (call :: calls))
    (hpc : pc = call.next ∨ pc = call.fail ∧ call = .outermost P ∧ calls = []) (current : ℕ) :
    Controlled P starts calls { m.popFrame with pc := pc, current := current } ∧
      m.popFrame.sp = call.sp ∧ m.popFrame.fp = call.fp := by
  obtain ⟨hbase, hprev, -, -, -, habove, hrest⟩ := chain_top h.chain
  have hfp : m.popFrame.fp = call.fp := by
    show (m.stack m.fp).toNat = call.fp
    rw [hprev, Int.toNat_natCast]
  refine ⟨⟨?_, ?_, ?_⟩, hbase, hfp⟩
  · rcases hcalls.cons_inv with ⟨rfl, rfl⟩ | ⟨hnext, hcalls'⟩
    · refine .inr ⟨?_, rfl⟩
      rcases hpc with hpc | ⟨hpc, -, -⟩
      · exact .inl hpc
      · exact .inr hpc
    · rcases hpc with hpc | ⟨-, rfl, rfl⟩
      · exact .inl ⟨hpc ▸ hnext, hcalls'⟩
      · cases hcalls'
  · show Chain _ m.stack fpMax m.popFrame.fp _
    rw [hfp]
    exact hrest
  · intro hne
    show m.popFrame.fp + fpMax ≤ m.fp
    rw [hfp, hbase]
    exact habove hne

theorem Controlled.advance (hP : LinkedCode P R starts) (h : Controlled P starts calls m)
    (hkept : Kept P calls m) (hfetch : P.fetch m.pc = some (inst, stop))
    (hexec : exec R { m with pc := stop } inst = some (.next m')) :
    Controlled P starts (callsAfter m stop inst calls) m' := by
  rcases h.pc with ⟨hpc, hcalls⟩ | ⟨hpc, -⟩
  · obtain ⟨inst', stop', hfetch', hcontinues, hlabels⟩ := hP.fetch hpc
    rw [hfetch] at hfetch'
    cases hfetch'
    obtain ⟨hfail, hpops⟩ := hkept inst stop hfetch
    have hne : calls ≠ [] := by
      rintro rfl
      cases hcalls
    by_cases hframed : inst.framed
    · cases inst with
      | iInvoke fail funcaddr =>
        simp only [exec, Option.bind_eq_bind, Option.bind_eq_some_iff] at hexec
        obtain ⟨m₁, hpush, hnext⟩ := hexec
        cases hnext
        obtain ⟨hpc₁, hfp, hsp, -, hstack, hold⟩ := Machine.pushFrame_cases hpush
        refine ⟨.inl ⟨?_, .invoke (hcontinues rfl) hcalls⟩, ?_, ?_⟩
        · show P.InModule starts (m₁.pc + funcaddr)
          rw [hpc₁]
          exact hlabels funcaddr (by simp [Inst.labels])
        · show Chain _ m₁.stack fpMax m₁.fp _
          rw [hfp]
          refine h.chain.push rfl ?_ hstack hold
          intro _
          exact h.above hne
        · intro _
          exact (congrArg (· + fpMax) hfp).trans hsp.symm |>.le
      | iRet =>
        cases hexec
        obtain ⟨call, calls, rfl⟩ := List.exists_cons_of_ne_nil hne
        obtain ⟨-, -, -, hnext, -⟩ := chain_top h.chain
        exact (h.leave hcalls (.inl hnext) m.current).1
      | iFail =>
        cases hexec
        obtain rfl := hfail rfl
        obtain ⟨-, -, -, -, hcell, -⟩ := chain_top h.chain
        exact (h.leave hcalls (.inr ⟨hcell, rfl, rfl⟩) _).1
      | _ => cases hframed
    · have hframed' : inst.framed = false := by simpa using hframed
      rw [callsAfter_of_not_framed hframed']
      have hplain := exec_plain hexec hframed'
      have hsp : m.fp + fpMax ≤ m'.sp := by
        have habove := h.above hne
        rcases hplain.sp with hle | ⟨hpop, hle⟩
        · exact habove.trans hle
        · have hlt := hpops hpop
          have hle' : m.sp ≤ m'.sp + 1 := hle
          omega
      refine ⟨.inl ⟨?_, hcalls⟩, ?_, ?_⟩
      · rcases hplain.pc with ⟨hcont, hpc'⟩ | ⟨d, hd, hpc'⟩
        · rw [hpc']
          exact hcontinues hcont
        · rw [hpc']
          exact hlabels d hd
      · rw [hplain.fp]
        refine h.chain.congr fun _ i hi => hplain.stack i ?_
        exact hi.trans_le (h.above hne)
      · intro _
        rw [hplain.fp]
        exact hsp
  · -- the `IExit`s of the stub do not go on
    exfalso
    rcases hpc with hpc | hpc
    · rw [hpc, P.fetch_stub.1] at hfetch
      cases hfetch
      cases hexec
    · rw [hpc, P.fetch_stub.2] at hfetch
      cases hfetch
      cases hexec

theorem start_controlled (hP : LinkedCode P R starts) {stack : ℕ → ℤ} {ast : AstMachine}
    {tbl : Symtable} {memo : Memo} {m₀ : Machine} (h : start P stack ast tbl memo = some m₀) :
    Controlled P starts [.outermost P] m₀ := by
  obtain ⟨hpc, hfp, hsp, -, -, hold⟩ := Machine.pushFrame_cases h
  refine ⟨.inl ⟨⟨0, hP.entry, ?_⟩, .outermost⟩, ?_, fun _ => ?_⟩
  · rw [hpc]
    simp
  · rw [hfp]
    refine Chain.push (Chain.nil stackBase) rfl (fun hne => absurd rfl hne) (fun _ _ => rfl) ?_
    exact hold
  · rw [hfp, hsp]

theorem KeptRun.controlled (hP : LinkedCode P R starts) {m₀ : Machine}
    (hstart : Controlled P starts [.outermost P] m₀) (h : KeptRun P R m₀ calls m) :
    Controlled P starts calls m := by
  induction h with
  | start => exact hstart
  | step _ hkept hfetch hexec ih => exact ih.advance hP hkept hfetch hexec

/-- The next step, when it is an `IRet` or an `IFail`, leaves the top call as the call asked for. -/
structure LeavesCall (P : Program) (R : Runtime) (calls : List Call) (m : Machine) : Prop where
  ret : ∀ stop m', P.fetch m.pc = some (.iRet, stop) → step P R m = some (.next m') →
    ∃ call ∈ calls.head?, m'.pc = call.next ∧ m'.sp = call.sp ∧ m'.fp = call.fp
  fail : ∀ stop m', P.fetch m.pc = some (.iFail, stop) → step P R m = some (.next m') →
    ∃ call ∈ calls.head?, m'.pc = call.fail ∧ m'.sp = call.sp ∧ m'.fp = call.fp ∧
      m'.current = call.current
  exit : ∀ stop m', P.fetch m.pc = some (.iFail, stop) → calls.length = 1 →
    step P R m = some (.next m') → step P R m' = some (.exit 1 m'.current)

theorem step_eq {o : Outcome} (h : P.fetch m.pc = some (inst, stop)) :
    step P R m = some o ↔ exec R { m with pc := stop } inst = some o := by
  simp [step, h]

theorem Controlled.calls_cons (h : Controlled P starts calls m)
    (hfetch : P.fetch m.pc = some (inst, stop)) (hinst : ∀ status, inst ≠ .iExit status) :
    ∃ call calls', calls = call :: calls' ∧ CallsOk P starts (call :: calls') := by
  rcases h.pc with ⟨-, hcalls⟩ | ⟨hpc | hpc, -⟩
  · cases hcalls with
    | outermost => exact ⟨_, _, rfl, .outermost⟩
    | invoke hnext hcalls => exact ⟨_, _, rfl, .invoke hnext hcalls⟩
  · rw [hpc, P.fetch_stub.1] at hfetch
    cases hfetch
    exact absurd rfl (hinst 0)
  · rw [hpc, P.fetch_stub.2] at hfetch
    cases hfetch
    exact absurd rfl (hinst 1)

theorem Controlled.leavesCall (h : Controlled P starts calls m)
    (hkept : Kept P calls m) : LeavesCall P R calls m := by
  constructor
  · intro stop m' hfetch hstep
    obtain ⟨call, calls', rfl, hcalls⟩ := h.calls_cons hfetch (by simp)
    rw [step_eq hfetch] at hstep
    cases hstep
    obtain ⟨-, -, -, hnext, -⟩ := chain_top h.chain
    obtain ⟨-, hsp, hfp⟩ := h.leave hcalls (.inl hnext) m.current
    exact ⟨call, rfl, hnext, hsp, hfp⟩
  · intro stop m' hfetch hstep
    obtain ⟨hfail, -⟩ := hkept _ _ hfetch
    obtain rfl := hfail rfl
    rw [step_eq hfetch] at hstep
    cases hstep
    obtain ⟨-, -, hpos, -, hcell, -⟩ := chain_top h.chain
    obtain ⟨-, hsp, hfp⟩ := h.leave .outermost (.inr ⟨hcell, rfl, rfl⟩) 0
    refine ⟨.outermost P, rfl, hcell, hsp, hfp, ?_⟩
    show (m.stack (m.fp + 1)).toNat = _
    rw [hpos, Int.toNat_natCast]
  · intro stop m' hfetch _ hstep
    obtain ⟨hfail, -⟩ := hkept _ _ hfetch
    obtain rfl := hfail rfl
    rw [step_eq hfetch] at hstep
    cases hstep
    obtain ⟨-, -, -, -, hcell, -⟩ := chain_top h.chain
    have hexit : P.fetch (m.stack (m.fp + 3)) = some (.iExit 1, P.stub + 4) := by
      rw [hcell]
      exact P.fetch_stub.2
    exact (step_eq hexit).2 rfl

/-- An `IFail` in a callee continues at the fail operand itself, as if the operand was an address. -/
theorem Controlled.fail_of_invoke {call : Machine} {ret fail : ℤ}
    (h : Controlled P starts (.invoke call ret fail :: calls) m) (hret : ret ≠ 0)
    (hfetch : P.fetch m.pc = some (.iFail, stop)) (hstep : step P R m = some (.next m')) :
    m'.pc = fail ∧ m'.pc ≠ (Call.invoke call ret fail).fail := by
  rw [step_eq hfetch] at hstep
  cases hstep
  obtain ⟨-, -, -, -, hcell, -⟩ := chain_top h.chain
  refine ⟨hcell, fun heq => hret ?_⟩
  have hfail : fail = ret + fail := hcell.symm.trans heq
  omega

/-- As long as every step keeps control, the run stays at instructions, and returns and failures
leave a call as it was entered. -/
theorem control_kept (hP : LinkedCode P R starts) {stack : ℕ → ℤ} {ast : AstMachine}
    {tbl : Symtable} {memo : Memo} {m₀ : Machine} (hstart : start P stack ast tbl memo = some m₀)
    (h : KeptRun P R m₀ calls m) :
    P.AtInstruction starts m.pc ∧ (Kept P calls m → LeavesCall P R calls m) := by
  have hcontrolled := h.controlled hP (start_controlled hP hstart)
  refine ⟨?_, hcontrolled.leavesCall⟩
  rcases hcontrolled.pc with ⟨hpc, -⟩ | ⟨hpc, -⟩
  · exact .inl hpc
  · exact .inr hpc

end Invariant

theorem Kept.of_fetch {P : Program} {calls : List Call} {m : Machine} {inst : Inst} {stop : ℤ}
    (hfetch : P.fetch m.pc = some (inst, stop)) (hfail : inst ≠ .iFail)
    (hpops : inst.pops m.tbl = false) : Kept P calls m := by
  intro inst' stop' hfetch'
  rw [hfetch] at hfetch'
  cases hfetch'
  exact ⟨fun h => absurd h hfail, fun h => absurd h (by simp [hpops])⟩

/-- `File = A` and `A = 'a'`. -/
def callee : Compiler.MozCompiler where
  decls := [{ body := .invoke 1 }, { body := .byte 97 }]

def calleeProgram : Program where
  code := [4, 1, 0, 0, 0, 2, 0, 0, 0, 7, 8, 10, 1, 0, 0, 0, 97, 7, 8]
  base := 4096
  stub := 8192
  disjoint := by decide

/-- On the input `b` the run of the compiled grammar gets to the address 1. -/
theorem callee_escapes :
    ((Compiler.mozIrOptimize 40 (Compiler.mozAstToIr callee)).bind
      Compiler.mozVm2ModuleCompile) = some calleeProgram.code ∧
    LinkedCode calleeProgram { input := [98] } [0, 9, 10, 11, 17, 18] ∧
    ∃ m₀ calls m, start calleeProgram (fun _ => 0) {} {} {} = some m₀ ∧
      Run calleeProgram { input := [98] } m₀ calls m ∧
      ¬ calleeProgram.AtInstruction [0, 9, 10, 11, 17, 18] m.pc := by
  refine ⟨by decide +kernel, ⟨by decide, by decide +kernel⟩, ?_⟩
  have hinvoke : calleeProgram.fetch 4096 = some (.iInvoke 1 2, 4105) := by decide +kernel
  have hbyte : calleeProgram.fetch 4107 = some (.iByte 1 97, 4113) := by decide +kernel
  have hfail : calleeProgram.fetch 4114 = some (.iFail, 4115) := by decide +kernel
  refine ⟨_, _, _, rfl, .step (.step (.step .start hinvoke rfl) hbyte rfl) hfail rfl, ?_⟩
  rintro (⟨s, -, hs⟩ | hs | hs)
  · have hs' : (1 : ℤ) = 4096 + s := hs
    omega
  · exact absurd hs (by decide)
  · exact absurd hs (by decide)

/-- On the input `a` the `IRet` of the callee goes back to the caller. -/
theorem callee_returns : ∃ m₀ calls m, start calleeProgram (fun _ => 0) {} {} {} = some m₀ ∧
    KeptRun calleeProgram { input := [97] } m₀ calls m ∧
    calleeProgram.AtInstruction [0, 9, 10, 11, 17, 18] m.pc ∧
    (Kept calleeProgram calls m → LeavesCall calleeProgram { input := [97] } calls m) := by
  have hinvoke : calleeProgram.fetch 4096 = some (.iInvoke 1 2, 4105) := by decide +kernel
  have hbyte : calleeProgram.fetch 4107 = some (.iByte 1 97, 4113) := by decide +kernel
  have hlinked : LinkedCode calleeProgram { input := [97] } [0, 9, 10, 11, 17, 18] :=
    ⟨by decide, by decide +kernel⟩
  obtain ⟨m₀, calls, m, hstart, hrun⟩ : ∃ m₀ calls m,
      start calleeProgram (fun _ => 0) {} {} {} = some m₀ ∧
      KeptRun calleeProgram { input := [97] } m₀ calls m :=
    ⟨_, _, _, rfl, .step (.step .start (.of_fetch hinvoke (by simp) rfl) hinvoke rfl)
      (.of_fetch hbyte (by simp) rfl) hbyte rfl⟩
  exact ⟨m₀, calls, m, hstart, hrun, control_kept hlinked hstart hrun⟩

end Moz.Vm2
