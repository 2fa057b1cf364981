import Moz.Vm1.StackUse
import Moz.Vm2.StackUse

/-!
# Where the virtual machines write on their stacks

Neither VM looks whether there is room on the stack. What is on it decides where a
`PUSH` or a `PUSH_FRAME` writes: every frame takes `FP_MAX` cells, every return
address, position and savepoint one. A grammar that calls itself on every byte of
the input leaves the area of 1024 cells.
-/

namespace Moz

open FrameStack

/-- What is pushed lies in the area of the stack as long as what is on the stack leaves room for
it, for every instruction that a run of either VM comes to. -/
theorem pushes_inside :
    (∀ {P : Vm2.Program} {R : Runtime} {stack : ℕ → ℤ} {ast : AstMachine} {tbl : Symtable}
      {memo : Memo} {m₀ m : Vm2.Machine} {items : List (FrameStack.StackItem ℤ)} {inst : Vm2.Inst}
      {stop : ℤ}, Vm2.start P stack ast tbl memo = some m₀ →
      Vm2.StackRun P R (fun _ _ => True) m₀ items m → P.fetch m.pc = some (inst, stop) →
      let op := inst.stackOp { m with pc := stop }
      m.sp = Vm2.stackBase + used items ∧ (∀ i ∈ op.pushed m.sp, Vm2.stackBase ≤ i) ∧
        ((∀ i ∈ op.pushed m.sp, i < Vm2.stackSize) ↔
          op.room = 0 ∨ Vm2.stackBase + used items + op.room ≤ Vm2.stackSize)) ∧
    (∀ {P : Vm1.Program} {R : Runtime} {current head : ℕ} {stack : ℕ → ℤ} {ast : AstMachine}
      {tbl : Symtable} {memo : Memo} {m₀ m : Vm1.Machine} {items : List (FrameStack.StackItem ℤ)}
      {inst : Vm1.Inst} {stop : ℤ}, Vm1.parseInit P current head stack ast tbl memo = some m₀ →
      Vm1.StackRun P R m₀ items m → P.fetch m.pc = some (inst, stop) →
      let op := inst.stackOp { m with pc := stop }
      m.sp = Vm1.stackBase + used items ∧ (∀ i ∈ op.pushed m.sp, Vm1.stackBase ≤ i) ∧
        ((∀ i ∈ op.pushed m.sp, i < Vm1.stackSize) ↔
          op.room = 0 ∨ Vm1.stackBase + used items + op.room ≤ Vm1.stackSize)) := by
  constructor
  · intro P R stack ast tbl memo m₀ m items inst stop hstart hrun hfetch op
    have hok := hrun.stackOk (Vm2.start_stackOk hstart)
    exact ⟨hok.sp_eq, hok.pushed op Vm2.stackSize⟩
  · intro P R current head stack ast tbl memo m₀ m items inst stop hstart hrun hfetch op
    have hok := hrun.stackOk (Vm1.parseInit_stackOk hstart)
    exact ⟨hok.sp_eq, hok.pushed op Vm1.stackSize⟩

/-- `File = 'a' File`. -/
def nesting : Compiler.MozCompiler where
  decls := [{ body := .sequence [.byte 97, .invoke 0] }]

def nestingProgram : Vm2.Program where
  code := [10, 10, 0, 0, 0, 97, 4, 1, 0, 0, 0, 241, 255, 255, 255, 7, 8]
  base := 4096
  stub := 8192
  disjoint := by decide

/-- An input of 252 times `a`. -/
def nestingInput : Runtime where
  input := List.replicate 252 97

theorem nesting_fetch :
    nestingProgram.fetch 4096 = some (.iByte 10 97, 4102) ∧
      nestingProgram.fetch 4102 = some (.iInvoke 1 (-15), 4111) := by
  decide +kernel

theorem nesting_byte {k : ℕ} (hk : k < 252) :
    accept (Vm2.byteTest nestingInput 97) k = .next (k + 1) := by
  have hbyte : nestingInput.byteAt k = 97 := by
    unfold Runtime.byteAt nestingInput
    rw [List.getElem?_replicate_of_lt hk]
    rfl
  simp [accept, Vm2.byteTest, hbyte]

theorem nesting_consume {m₀ m : Vm2.Machine} {items : List (FrameStack.StackItem ℤ)} {k : ℕ}
    (hk : k < 252) (hrun : Vm2.StackRun nestingProgram nestingInput (fun _ _ => True) m₀ items m)
    (hpc : m.pc = 4096) (hcurrent : m.current = k) :
    Vm2.StackRun nestingProgram nestingInput (fun _ _ => True) m₀ items
      { m with pc := 4102, current := k + 1 } := by
  have hbyte := nesting_fetch.1
  rw [← hpc] at hbyte
  refine hrun.step hbyte trivial rfl ?_
  rw [Vm2.exec, hcurrent, nesting_byte hk]
  rfl

/-- After `k` bytes there are `k` calls on the stack. -/
theorem nesting_run {m₀ : Vm2.Machine} {k : ℕ} (hk : k ≤ 251)
    (hstart : Vm2.start nestingProgram (fun _ => 0) {} {} {} = some m₀) :
    ∃ items m, Vm2.StackRun nestingProgram nestingInput (fun _ _ => True) m₀ items m ∧
      m.pc = 4096 ∧ m.sp = 19 + 4 * k ∧ m.current = k := by
  induction k with
  | zero =>
    refine ⟨_, m₀, .start, ?_⟩
    cases hstart
    exact ⟨rfl, rfl, rfl⟩
  | succ k ih =>
    obtain ⟨items, m, hrun, hpc, hsp, hcurrent⟩ := ih (by omega)
    have hrun' := nesting_consume (by omega) hrun hpc hcurrent
    have hroom : m.sp + Vm2.fpMax ≤ Vm2.stackSize := by
      rw [hsp, Vm2.fpMax, Vm2.stackSize]
      omega
    obtain ⟨m', hpush⟩ : ∃ m', Vm2.Machine.pushFrame
        { m with pc := 4111, current := k + 1 } (k + 1 : ℕ) 4111 1 = some m' := by
      unfold Vm2.Machine.pushFrame
      rw [if_pos hroom]
      exact ⟨_, rfl⟩
    obtain ⟨hpc', -, hsp', hcurrent', -⟩ := Vm2.Machine.pushFrame_cases hpush
    refine ⟨_, m'.jump (-15), .step hrun' nesting_fetch.2 trivial rfl ?_, ?_, ?_, hcurrent'⟩
    · simp only [Vm2.exec, hpush]
      rfl
    · show m'.pc + -15 = 4096
      rw [hpc']
      rfl
    · show m'.sp = 19 + 4 * (k + 1)
      rw [hsp', hsp]
      simp only [Vm2.fpMax]
      omega

/-- The module of the grammar pushes a frame beyond the area of the stack. -/
theorem nesting_writes_outside :
    ((Compiler.mozIrOptimize 40 (Compiler.mozAstToIr nesting)).bind
      Compiler.mozVm2ModuleCompile) = some nestingProgram.code ∧
    ∃ m₀ items m inst stop, Vm2.start nestingProgram (fun _ => 0) {} {} {} = some m₀ ∧
      Vm2.StackRun nestingProgram nestingInput (fun _ _ => True) m₀ items m ∧
      nestingProgram.fetch m.pc = some (inst, stop) ∧
      ∃ i ∈ (inst.stackOp { m with pc := stop }).pushed m.sp, Vm2.stackSize ≤ i := by
  refine ⟨by decide +kernel, ?_⟩
  obtain ⟨m₀, hstart⟩ : ∃ m₀, Vm2.start nestingProgram (fun _ => 0) {} {} {} = some m₀ := ⟨_, rfl⟩
  obtain ⟨items, m, hrun, hpc, hsp, hcurrent⟩ := nesting_run le_rfl hstart
  have hrun' := nesting_consume (by decide) hrun hpc hcurrent
  refine ⟨m₀, _, _, _, _, hstart, hrun', nesting_fetch.2, 1024, ?_, le_rfl⟩
  rw [StackOp.mem_pushed]
  show m.sp ≤ 1024 ∧ 1024 < m.sp + 4
  omega

/-- `L: Alt M; Byte 'a'; Call L; M: Pos`. -/
def nestingBytecode : Vm1.Program where
  code := [2, 11, 0, 0, 0, 10, 97, 5, 0, 0, 0, 0, 240, 255, 255, 255, 7]
  base := 4096
  stub := 8192
  disjoint := by decide

/-- VM2 pushes a frame on those of five calls. VM1 is at a `Pos` after a failure, with four frames and
four return addresses on its stack. -/
theorem nested_pushes_inside :
    (∃ (m₀ m : Vm2.Machine) (items : List (FrameStack.StackItem ℤ)) (inst : Vm2.Inst) (stop : ℤ),
      Vm2.start nestingProgram (fun _ => 0) {} {} {} = some m₀ ∧
      Vm2.StackRun nestingProgram nestingInput (fun _ _ => True) m₀ items m ∧
      nestingProgram.fetch m.pc = some (inst, stop) ∧ m.sp = 39 ∧
      ∀ i ∈ (inst.stackOp { m with pc := stop }).pushed m.sp, i < Vm2.stackSize) ∧
    ∃ (m₀ m : Vm1.Machine) (items : List (FrameStack.StackItem ℤ)) (inst : Vm1.Inst) (stop : ℤ),
      Vm1.parseInit nestingBytecode 0 0 (fun _ => 0) {} {} {} = some m₀ ∧
      Vm1.StackRun nestingBytecode { input := [97, 97, 97, 98] } m₀ items m ∧
      nestingBytecode.fetch m.pc = some (inst, stop) ∧ m.sp = 39 ∧
      ∀ i ∈ (inst.stackOp { m with pc := stop }).pushed m.sp, i < Vm1.stackSize := by
  constructor
  · obtain ⟨m₀, hstart⟩ : ∃ m₀, Vm2.start nestingProgram (fun _ => 0) {} {} {} = some m₀ := ⟨_, rfl⟩
    obtain ⟨items, m, hrun, hpc, hsp, hcurrent⟩ := nesting_run (k := 5) (by decide) hstart
    have hrun' := nesting_consume (by decide) hrun hpc hcurrent
    obtain ⟨hused, -, hinside⟩ := pushes_inside.1 hstart hrun' nesting_fetch.2
    refine ⟨m₀, _, items, _, _, hstart, hrun', nesting_fetch.2, hsp, hinside.2 (.inr ?_)⟩
    rw [← hused]
    show m.sp + 4 ≤ 1024
    omega
  · have hfacts : ((Vm1.parseInit nestingBytecode 0 0 (fun _ => 0) {} {} {}).bind fun m₀ =>
        (Vm1.stackSteps nestingBytecode { input := [97, 97, 97, 98] } 11
          (Vm1.startItems nestingBytecode m₀, m₀)).map fun s => (s.2.pc, s.2.sp)) =
        some (4112, 39) := by
      decide +kernel
    obtain ⟨m₀, hstart, hfacts⟩ := Option.bind_eq_some_iff.1 hfacts
    obtain ⟨⟨items, m⟩, hsteps, hpair⟩ := Option.map_eq_some_iff.1 hfacts
    obtain ⟨hpc, hsp⟩ : m.pc = 4112 ∧ m.sp = 39 := Prod.mk.inj hpair
    have hpos : nestingBytecode.fetch 4112 = some (.pos, 4113) := by decide +kernel
    rw [← hpc] at hpos
    have hrun := Vm1.StackRun.start.stackSteps hsteps
    obtain ⟨hused, -, hinside⟩ := pushes_inside.2 hstart hrun hpos
    refine ⟨m₀, m, items, _, _, hstart, hrun, hpos, hsp, hinside.2 (.inr ?_)⟩
    rw [← hused]
    show m.sp + 1 ≤ 1024
    omega

end Moz
