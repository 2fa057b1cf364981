import Moz.Vm2.InputBounds

/-!
# Using a module again

`moz_vm2_module_parse` runs the code on the runtime of the module and takes the
tree out of its AST machine, and the caller gives the tree back. What one call
leaves to the next is the stack, whose stale cells are never read, and the AST
machine, which keeps the first tree it has made for ever.
-/

namespace Moz.Vm2

open FrameStack

/-- What a runtime keeps from one call to the next. -/
structure Session where
  stack : ℕ → ℤ
  ast : AstMachine
  tbl : Symtable
  memo : Memo

/-- The session of a new module, on the node pool as it is. -/
def Session.init (stack : ℕ → ℤ) (heap : Heap) (memo : Memo) : Session where
  stack := stack
  ast := { heap := heap }
  tbl := {}
  memo := memo

/-- A call of `moz_vm2_module_parse` all of whose steps meet the condition: its result and tree,
and what it leaves behind. -/
structure ModuleParse (P : Program) (C : Runtime) (meets : Machine → Inst → Prop) (S : Session)
    (input : List UInt8) (status : Int8) (node : Option NodeId) (S' : Session) : Prop where
  run : ∃ m₀ items m stop, start P S.stack S.ast S.tbl S.memo = some m₀ ∧
    StackRun P { C with input := input } meets m₀ items m ∧
    P.fetch m.pc = some (.iExit status, stop) ∧
    astGetParsedNode m.ast = some (S'.ast, node) ∧ S'.stack = m.stack ∧ S'.tbl = m.tbl ∧
    S'.memo = m.memo

def Session.release (S : Session) (node : Option NodeId) : Option Session :=
  match node with
  | none => some S
  | some n => do
    let heap ← nodeRelease S.ast.heap n
    return { S with ast := { S.ast with heap := heap } }

/-- A session that has come out of a first one by calls all of whose steps meet the condition. -/
inductive Reused (P : Program) (C : Runtime) (meets : Machine → Inst → Prop) (S₀ : Session) :
    Session → Prop
  | fresh : Reused P C meets S₀ S₀
  | call {S S' S'' : Session} {input : List UInt8} {status : Int8} {node : Option NodeId}
      (h : Reused P C meets S₀ S) (hparse : ModuleParse P C meets S input status node S')
      (hrelease : S'.release node = some S'') : Reused P C meets S₀ S''

def Inst.logs : Inst → Bool
  | .iTPush | .iTPop _ | .iTNew _ | .iTCapture _ | .iTTag _ | .iTFoldL _ _ | .iTReplace _
  | .iTCommit _ => true
  | .iLabel | .iExit _ | .iJump _ | .iInvoke _ _ | .iPLoad | .iPStore | .iRet | .iFail | .iAny _
  | .iByte _ _ | .iStr _ _ | .iSet _ _ | .iNAny _ | .iNByte _ _ | .iNStr _ _ | .iNSet _ _
  | .iRByte _ | .iRAny | .iRStr _ | .iRSet _ | .iOByte _ | .iOStr _ | .iOSet _
  | .iTableJump _ | .iUByte _ | .iUSet _ | .iRUByte | .iRUSet | .iOUByte | .iOUSet | .iLookup _ _
  | .iMemo _ | .iMemoFail _ _ | .iTStart | .iTAbort | .iTLookup _ _ _ | .iTMemo _ | .iSOpen
  | .iSClose | .iSMask _ | .iSDef _ | .iSIsDef _ _ _ | .iSExists _ _ | .iSMatch _ _ | .iSIs _ _
  | .iSIsa _ _ => false

def Emits (_ : Machine) (inst : Inst) : Prop := inst.emitted

def Quiet (_ : Machine) (inst : Inst) : Prop := inst.emitted ∧ inst.logs = false

section Keep

variable {P : Program} {R : Runtime} {m m' m₀ : Machine} {inst : Inst} {items : List (StackItem ℤ)}

/-- What an instruction of a compiled module leaves alone: the symbol and the memo table, and of
the AST machine all but the log. -/
structure Keeps (m m' : Machine) : Prop where
  tbl : m'.tbl = m.tbl
  memo : m'.memo = m.memo
  ast : m'.ast = { m.ast with logs := m'.ast.logs }

theorem Keeps.refl (m : Machine) : Keeps m m := ⟨rfl, rfl, rfl⟩

theorem Keeps.trans {m₁ m₂ m₃ : Machine} (h : Keeps m₁ m₂) (h' : Keeps m₂ m₃) : Keeps m₁ m₃ where
  tbl := h'.tbl.trans h.tbl
  memo := h'.memo.trans h.memo
  ast := by rw [h'.ast, h.ast]

theorem exec_keeps (hemitted : inst.emitted) (h : exec R m inst = some (.next m')) :
    Keeps m m' ∧ (inst.logs = false → m'.ast = m.ast) := by
  cases inst with
  | iTableJump | iUByte | iUSet | iRUByte | iRUSet | iOUByte | iOUSet | iLookup | iMemo | iMemoFail
  | iTStart | iTCommit | iTAbort | iTFoldL | iTReplace | iTLookup | iTMemo | iSOpen | iSClose
  | iSMask | iSDef | iSIsDef | iSExists | iSMatch | iSIs | iSIsa => cases hemitted
  | iExit => cases h
  | iLabel | iJump | iRet | iFail | iPLoad =>
    cases h
    exact ⟨⟨rfl, rfl, rfl⟩, fun _ => rfl⟩
  | iTPush | iTPop | iTNew | iTCapture =>
    cases h
    exact ⟨⟨rfl, rfl, rfl⟩, fun h => by cases h⟩
  | iTTag =>
    simp only [exec, Option.bind_eq_bind, Option.bind_eq_some_iff] at h
    obtain ⟨_, -, h⟩ := h
    cases h
    exact ⟨⟨rfl, rfl, rfl⟩, fun h => by cases h⟩
  | iPStore =>
    simp only [exec, Option.bind_eq_bind, Option.bind_eq_some_iff] at h
    obtain ⟨_, hpush, h⟩ := h
    cases h
    obtain ⟨-, rfl⟩ := m.push_cases hpush
    exact ⟨⟨rfl, rfl, rfl⟩, fun _ => rfl⟩
  | iInvoke =>
    simp only [exec, Option.bind_eq_bind, Option.bind_eq_some_iff] at h
    obtain ⟨_, hpush, h⟩ := h
    cases h
    unfold Machine.pushFrame at hpush
    split_ifs at hpush
    cases hpush
    exact ⟨⟨rfl, rfl, rfl⟩, fun _ => rfl⟩
  | iAny | iByte | iStr | iSet | iNAny | iNByte | iNStr | iNSet =>
    rcases m.effect_cases h with ⟨current, rfl⟩ | rfl
    · exact ⟨⟨rfl, rfl, rfl⟩, fun _ => rfl⟩
    · exact ⟨⟨rfl, rfl, rfl⟩, fun _ => rfl⟩
  | iRByte | iRAny | iRStr | iRSet | iOByte | iOStr | iOSet =>
    obtain ⟨current, rfl⟩ := m.move_cases h
    exact ⟨⟨rfl, rfl, rfl⟩, fun _ => rfl⟩

theorem start_keeps {S : Session} (h : start P S.stack S.ast S.tbl S.memo = some m₀) :
    m₀.ast = S.ast ∧ m₀.tbl = S.tbl ∧ m₀.memo = S.memo := by
  unfold start Machine.pushFrame at h
  split_ifs at h
  cases h
  exact ⟨rfl, rfl, rfl⟩

theorem StackRun.keeps {meets : Machine → Inst → Prop} (hmeets : ∀ m inst, meets m inst → inst.emitted)
    (h : StackRun P R meets m₀ items m) : Keeps m₀ m := by
  induction h with
  | start => exact .refl _
  | @step items items' m m' inst stop hrun hfetch hstep hafter hexec ih =>
    have hkeeps := (exec_keeps (hmeets _ _ hstep) hexec).1
    exact ih.trans ⟨hkeeps.tbl, hkeeps.memo, hkeeps.ast⟩

theorem StackRun.ast_eq (h : StackRun P R Quiet m₀ items m) : m.ast = m₀.ast := by
  induction h with
  | start => rfl
  | step hrun hfetch hstep hafter hexec ih =>
    exact ((exec_keeps hstep.1 hexec).2 hstep.2).trans ih

end Keep

section Twin

variable {P : Program} {R : Runtime} {m m' m₂ : Machine} {inst : Inst}
  {items items' : List (StackItem ℤ)}

/-- Two machines that differ only in cells that are not in use. -/
def Twin (m m₂ : Machine) : Prop :=
  ∃ stack, m₂ = { m with stack := stack } ∧ ∀ i, stackBase ≤ i → i < m.sp → stack i = m.stack i

theorem Twin.effect {fail : ℤ} {e : Effect} (h : Twin m m₂)
    (hexec : m.effect fail e = some (.next m')) :
    ∃ m₂', m₂.effect fail e = some (.next m₂') ∧ Twin m' m₂' := by
  obtain ⟨stack, rfl, hsame⟩ := h
  cases e with
  | next current =>
    cases hexec
    exact ⟨_, rfl, stack, rfl, hsame⟩
  | fail =>
    cases hexec
    exact ⟨_, rfl, stack, rfl, hsame⟩
  | stuck => cases hexec

theorem Twin.move {current : Option ℕ} (h : Twin m m₂)
    (hexec : m.move current = some (.next m')) :
    ∃ m₂', m₂.move current = some (.next m₂') ∧ Twin m' m₂' := by
  obtain ⟨stack, rfl, hsame⟩ := h
  obtain ⟨stop, rfl⟩ := Option.ne_none_iff_exists'.1 fun hnone : current = none => by
    rw [hnone] at hexec
    cases hexec
  cases hexec
  exact ⟨_, rfl, stack, rfl, hsame⟩

theorem Twin.pushFrame {pos next fail : ℤ} (h : Twin m m₂)
    (hpush : m.pushFrame pos next fail = some m') :
    ∃ m₂', m₂.pushFrame pos next fail = some m₂' ∧ Twin m' m₂' := by
  obtain ⟨stack, rfl, hsame⟩ := h
  unfold Machine.pushFrame at hpush
  split_ifs at hpush with hroom
  cases hpush
  refine ⟨_, if_pos hroom, _, rfl, fun i hi hi' => ?_⟩
  have hlt : i < m.sp + 4 := hi'
  simp only [Function.update_apply]
  split_ifs
  · rfl
  · rfl
  · rfl
  · rfl
  · exact hsame i hi (by omega)

/-- An instruction of a compiled module does the same to both. -/
theorem Twin.exec (h : Twin m m₂) (hok : StackOk items m)
    (hslots : ∀ slots, .frame slots ∈ items → slots.length = 3) (hemitted : inst.emitted)
    (hafter : (inst.stackOp m).after items = some items')
    (hexec : Vm2.exec R m inst = some (.next m')) :
    ∃ m₂', Vm2.exec R m₂ inst = some (.next m₂') ∧ Twin m' m₂' := by
  have hframe : inst = .iRet ∨ inst = .iFail → ∀ i < 4, stackBase ≤ m.fp + i ∧ m.fp + i < m.sp := by
    intro hinst i hi
    have hdrop : dropFrame items = some items' := by
      rcases hinst with rfl | rfl
      · exact hafter
      · exact hafter
    obtain ⟨-, slots, hmem, -, hbase, hle⟩ := hok.frameAt hdrop
    rw [hslots slots hmem] at hle
    omega
  obtain ⟨stack, rfl, hsame⟩ := id h
  cases inst with
  | iTableJump | iUByte | iUSet | iRUByte | iRUSet | iOUByte | iOUSet | iLookup | iMemo | iMemoFail
  | iTStart | iTCommit | iTAbort | iTFoldL | iTReplace | iTLookup | iTMemo | iSOpen | iSClose
  | iSMask | iSDef | iSIsDef | iSExists | iSMatch | iSIs | iSIsa => cases hemitted
  | iExit => cases hexec
  | iLabel | iJump | iTPush | iTPop | iTNew | iTCapture =>
    cases hexec
    exact ⟨_, rfl, stack, rfl, hsame⟩
  | iTTag tagId =>
    simp only [Vm2.exec, Option.bind_eq_bind, Option.bind_eq_some_iff] at hexec
    obtain ⟨tag, htag, hexec⟩ := hexec
    cases hexec
    refine ⟨_, ?_, stack, rfl, hsame⟩
    simp only [Vm2.exec, htag]
    rfl
  | iAny | iByte | iStr | iSet | iNAny | iNByte | iNStr | iNSet => exact h.effect hexec
  | iRByte | iRAny | iRStr | iRSet | iOByte | iOStr | iOSet => exact h.move hexec
  | iPStore =>
    simp only [Vm2.exec, Option.bind_eq_bind, Option.bind_eq_some_iff] at hexec
    obtain ⟨_, hpush, hexec⟩ := hexec
    cases hexec
    obtain ⟨hlt, rfl⟩ := m.push_cases hpush
    refine ⟨_, ?_, Function.update stack m.sp m.current, rfl, fun i hi hi' => ?_⟩
    · simp only [Vm2.exec, Machine.push, if_pos hlt]
      rfl
    · simp only [Function.update_apply]
      split_ifs with heq
      · rfl
      · refine hsame i hi ?_
        have hle : i < m.sp + 1 := hi'
        omega
  | iPLoad =>
    obtain ⟨pos, rfl⟩ := StackOp.items_of_pop hafter
    cases hexec
    have hsp := hok.top.2.sp_eq
    have hbase : stackBase = 15 := rfl
    have htop : stack (m.sp - 1) = m.stack (m.sp - 1) := hsame _ (by omega) (by omega)
    refine ⟨_, rfl, stack, ?_, fun i hi hi' => hsame i hi ?_⟩
    · simp only [Machine.setPos, Machine.pop, Machine.top, htop]
    · have hlt : i < m.sp - 1 := hi'
      omega
  | iInvoke fail funcaddr =>
    simp only [Vm2.exec, Option.bind_eq_bind, Option.bind_eq_some_iff] at hexec
    obtain ⟨_, hpush, hexec⟩ := hexec
    cases hexec
    obtain ⟨n, hpush', stack', rfl, hsame'⟩ := h.pushFrame hpush
    refine ⟨_, ?_, stack', rfl, hsame'⟩
    simp only [Vm2.exec, hpush']
    rfl
  | iRet =>
    cases hexec
    have hframe := hframe (.inl rfl)
    have hcell : ∀ i < 4, stack (m.fp + i) = m.stack (m.fp + i) := fun i hi =>
      hsame _ (hframe i hi).1 (hframe i hi).2
    refine ⟨_, rfl, stack, ?_, fun i hi hi' => hsame i hi ?_⟩
    · have hprev : stack m.fp = m.stack m.fp := hcell 0 (by omega)
      simp only [Machine.popFrame, Machine.frameNext, hprev, hcell 2 (by omega)]
    · exact lt_trans hi' (hframe 0 (by omega)).2
  | iFail =>
    cases hexec
    have hframe := hframe (.inr rfl)
    have hcell : ∀ i < 4, stack (m.fp + i) = m.stack (m.fp + i) := fun i hi =>
      hsame _ (hframe i hi).1 (hframe i hi).2
    refine ⟨_, rfl, stack, ?_, fun i hi hi' => hsame i hi ?_⟩
    · have hprev : stack m.fp = m.stack m.fp := hcell 0 (by omega)
      simp only [Machine.popFrame, Machine.setPos, Machine.framePos, Machine.frameFail, hprev,
        hcell 1 (by omega), hcell 3 (by omega)]
    · exact lt_trans hi' (hframe 0 (by omega)).2

theorem Twin.run {meets : Machine → Inst → Prop} (hmeets : ∀ m inst, meets m inst → inst.emitted)
    (hsame : ∀ m m₂ inst, Twin m m₂ → meets m inst → meets m₂ inst) {m₀ n₀ : Machine}
    (hok : StackOk [.frame [0, P.stub, P.stub + 2]] m₀) (hstart : Twin m₀ n₀)
    (h : StackRun P R meets m₀ items m) : ∃ n, StackRun P R meets n₀ items n ∧ Twin m n := by
  induction h with
  | start => exact ⟨n₀, .start, hstart⟩
  | @step items items' m m' inst stop hrun hfetch hstep hafter hexec ih =>
    obtain ⟨n, hn, htwin⟩ := ih
    have hok' : StackOk items m := hrun.stackOk hok
    have htwin' : Twin { m with pc := stop } { n with pc := stop } := by
      obtain ⟨stack, rfl, hcells⟩ := htwin
      exact ⟨stack, rfl, hcells⟩
    obtain ⟨n', hexec', hnext⟩ := htwin'.exec hok' (fun _ => hrun.length_slots) (hmeets _ _ hstep)
      hafter hexec
    have hpc : n.pc = m.pc := by
      obtain ⟨stack, rfl, -⟩ := htwin
      rfl
    have hop : inst.stackOp { n with pc := stop } = inst.stackOp { m with pc := stop } := by
      obtain ⟨stack, rfl, -⟩ := htwin
      rfl
    exact ⟨n', .step hn (hpc ▸ hfetch) (hsame _ _ _ htwin hstep) (hop ▸ hafter) hexec', hnext⟩

end Twin

section Calls

variable {P : Program} {C : Runtime} {S S₀ S' : Session} {input : List UInt8} {status : Int8}
  {node : Option NodeId}

/-- With the same AST machine, symbol and memo table a call has the same outcome, whatever the
stack holds. -/
theorem ModuleParse.transfer (hast : S.ast = S₀.ast) (htbl : S.tbl = S₀.tbl)
    (hmemo : S.memo = S₀.memo) (h : ModuleParse P C Emits S input status node S') :
    ∃ S₁, ModuleParse P C Emits S₀ input status node S₁ ∧ S₁.ast = S'.ast := by
  obtain ⟨m₀, items, m, stop, hstart, hrun, hexit, htree, -⟩ := h.run
  obtain ⟨n₀, hstart', htwin⟩ : ∃ n₀, start P S₀.stack S₀.ast S₀.tbl S₀.memo = some n₀ ∧
      Twin m₀ n₀ := by
    rw [← hast, ← htbl, ← hmemo]
    refine Twin.pushFrame ⟨S₀.stack, rfl, fun i hi hi' => ?_⟩ hstart
    have hlt : i < stackBase := hi'
    omega
  obtain ⟨n, hn, stack, rfl, -⟩ := htwin.run (fun _ _ h => h) (fun _ _ _ _ h => h)
    (start_stackOk hstart) hrun
  exact ⟨⟨stack, S'.ast, m.tbl, m.memo⟩, ⟨n₀, items, _, stop, hstart', hn, hexit, htree, rfl, rfl,
    rfl⟩, rfl⟩

/-- A call that logs nothing leaves everything but the stack as it was. -/
theorem ModuleParse.quiet (hlogs : S.ast.logs = []) (hparsed : S.ast.parsed = none)
    (h : ModuleParse P C Quiet S input status node S') :
    node = none ∧ S'.ast = S.ast ∧ S'.tbl = S.tbl ∧ S'.memo = S.memo := by
  obtain ⟨m₀, items, m, -, hstart, hrun, -, htree, -, htbl, hmemo⟩ := h.run
  obtain ⟨hast₀, htbl₀, hmemo₀⟩ := start_keeps hstart
  have hkeeps := hrun.keeps fun _ _ h => h.1
  rw [hrun.ast_eq, hast₀] at htree
  simp only [astGetParsedNode, hparsed, hlogs, if_true, Option.some.injEq, Prod.mk.injEq] at htree
  exact ⟨htree.2.symm, htree.1.symm, htbl.trans (hkeeps.tbl.trans htbl₀),
    hmemo.trans (hkeeps.memo.trans hmemo₀)⟩

theorem Reused.quiet (hlogs : S₀.ast.logs = []) (hparsed : S₀.ast.parsed = none)
    (h : Reused P C Quiet S₀ S) : S.ast = S₀.ast ∧ S.tbl = S₀.tbl ∧ S.memo = S₀.memo := by
  induction h with
  | fresh => exact ⟨rfl, rfl, rfl⟩
  | call _ hparse hrelease ih =>
    obtain ⟨hast, htbl, hmemo⟩ := ih
    obtain ⟨rfl, hast', htbl', hmemo'⟩ := hparse.quiet (hast ▸ hlogs) (hast ▸ hparsed)
    cases hrelease
    exact ⟨hast'.trans hast, htbl'.trans htbl, hmemo'.trans hmemo⟩

/-- A tree that has been made once is what every call returns. -/
theorem ModuleParse.parsed {n : NodeId} (hparsed : S.ast.parsed = some n)
    (h : ModuleParse P C Emits S input status node S') :
    node = some n ∧ S'.ast.parsed = some n := by
  obtain ⟨m₀, items, m, -, hstart, hrun, -, htree, -⟩ := h.run
  have hkeeps := hrun.keeps fun _ _ h => h
  have hsome : m.ast.parsed = some n := by
    rw [hkeeps.ast, (start_keeps hstart).1]
    exact hparsed
  simp only [astGetParsedNode, hsome, Option.some.injEq, Prod.mk.injEq] at htree
  exact ⟨htree.2.symm, by rw [← htree.1]; exact hsome⟩

theorem Session.release_parsed (h : S.release node = some S') :
    S'.ast.parsed = S.ast.parsed := by
  cases node with
  | none =>
    cases h
    rfl
  | some n =>
    obtain ⟨heap, -, h⟩ := Option.bind_eq_some_iff.1 h
    cases h
    rfl

theorem Reused.parsed {n : NodeId} (hparsed : S₀.ast.parsed = some n)
    (h : Reused P C Emits S₀ S) : S.ast.parsed = some n := by
  induction h with
  | fresh => exact hparsed
  | call _ hparse hrelease ih =>
    rw [Session.release_parsed hrelease]
    exact (hparse.parsed ih).2

theorem ModuleParse.remembers {n : NodeId} {meets : Machine → Inst → Prop}
    (h : ModuleParse P C meets S input status (some n) S') : S'.ast.parsed = some n := by
  obtain ⟨m₀, items, m, -, -, -, -, htree, -⟩ := h.run
  unfold astGetParsedNode at htree
  split at htree
  · rename_i parsed hparsed
    simp only [Option.some.injEq, Prod.mk.injEq] at htree
    rw [← htree.1, hparsed, htree.2]
  · split_ifs at htree
    · simp at htree
    · simp only [Option.bind_eq_bind, Option.bind_eq_some_iff] at htree
      obtain ⟨cur, -, ⟨ast, o⟩, -, ast', -, htree⟩ := htree
      have hpair := Option.some.inj htree
      rw [Prod.mk.injEq] at hpair
      rw [← hpair.1, hpair.2]

/-- As long as no call has logged anything, a module does what a new one does. Once a call has
returned a tree, every later call returns that one again. -/
theorem module_reuse (stack : ℕ → ℤ) (heap : Heap) (memo : Memo) :
    (∀ S, Reused P C Quiet (.init stack heap memo) S →
      ∀ stack' input status node ast',
        (∃ S', ModuleParse P C Emits S input status node S' ∧ S'.ast = ast') ↔
          ∃ S', ModuleParse P C Emits (.init stack' S.ast.heap memo) input status node S' ∧
            S'.ast = ast') ∧
    ∀ S S' input status n, ModuleParse P C Emits S input status (some n) S' →
      ∀ released S'', S'.release (some n) = some released → Reused P C Emits released S'' →
        ∀ input' status' node S₁, ModuleParse P C Emits S'' input' status' node S₁ →
          node = some n := by
  constructor
  · intro S hreused stack' input status node ast'
    obtain ⟨hast, htbl, hmemo⟩ := hreused.quiet rfl rfl
    have hast' : S.ast = (Session.init stack' S.ast.heap memo).ast := by
      rw [hast]
      rfl
    constructor
    · rintro ⟨S', hparse, rfl⟩
      exact hparse.transfer hast' htbl hmemo
    · rintro ⟨S', hparse, rfl⟩
      exact hparse.transfer hast'.symm htbl.symm hmemo.symm
  · intro S S' input status n hparse released S'' hrelease hreused input' status' node S₁ hlater
    have hparsed : released.ast.parsed = some n := by
      rw [Session.release_parsed hrelease]
      exact hparse.remembers
    exact (hlater.parsed (hreused.parsed hparsed)).1

end Calls

/-- `File = { 'a'* }`. -/
def word : Compiler.MozCompiler where
  decls := [{ body := .sequence [.tnew, .repetition [.byte 97], .tcapture] }]

def wordProgram : Program where
  code := [39, 0, 19, 97, 40, 0, 7, 8]
  base := 4096
  stub := 8192
  disjoint := by decide

theorem exec_rByte {R : Runtime} {m : Machine} {ch : UInt8} {stop : ℕ}
    (h : acceptWhile R (byteTest R ch) m.current = some stop) :
    exec R m (.iRByte ch) = some (.next { m with current := stop }) := by
  rw [exec, h]
  rfl

theorem word_parse (S : Session) {input : List UInt8} {ast : AstMachine} {node : Option NodeId}
    (hinput : acceptWhile { input := input } (byteTest { input := input } 97) 0 = some input.length)
    (htree : astGetParsedNode { S.ast with
      logs := S.ast.logs ++ [.new 0] ++ [.capture input.length] } = some (ast, node)) :
    ∃ S', ModuleParse wordProgram { input := [] } Emits S input 0 node S' ∧ S'.ast = ast := by
  have hnew : wordProgram.fetch 4096 = some (.iTNew 0, 4098) := by decide +kernel
  have hbyte : wordProgram.fetch 4098 = some (.iRByte 97, 4100) := by decide +kernel
  have hcapture : wordProgram.fetch 4100 = some (.iTCapture 0, 4102) := by decide +kernel
  have hret : wordProgram.fetch 4102 = some (.iRet, 4103) := by decide +kernel
  have hexit : wordProgram.fetch 8192 = some (.iExit 0, 8194) := by decide +kernel
  obtain ⟨m₀, hstart, hpc, hzero, hnext, hast, htbl, hmemo⟩ : ∃ m₀,
      start wordProgram S.stack S.ast S.tbl S.memo = some m₀ ∧ m₀.pc = 4096 ∧ m₀.current = 0 ∧
      m₀.frameNext = 8192 ∧ m₀.ast = S.ast ∧ m₀.tbl = S.tbl ∧ m₀.memo = S.memo :=
    ⟨_, rfl, rfl, rfl, rfl, rfl, rfl, rfl⟩
  rw [← hpc] at hnew
  rw [← hzero] at hinput
  rw [← hnext] at hexit
  have hrun : StackRun wordProgram { input := input } Emits m₀ _ m₀ := .start
  have hrun₁ := hrun.step hnew rfl rfl rfl
  have hrun₂ := hrun₁.step hbyte rfl rfl (exec_rByte hinput)
  have hrun₃ := hrun₂.step hcapture rfl rfl rfl
  have hrun₄ := hrun₃.step hret rfl rfl rfl
  refine ⟨⟨_, ast, S.tbl, S.memo⟩, ⟨m₀, _, _, _, hstart, hrun₄, hexit, ?_, rfl, htbl.symm,
    hmemo.symm⟩, rfl⟩
  have hshift : ∀ k, shifted k 0 = k := fun k => by simp [shifted]
  show astGetParsedNode (astLogCapture (astLogNew m₀.ast (shifted m₀.current 0))
    (shifted input.length 0)) = some (ast, node)
  rw [hshift, hshift, hzero, hast]
  exact htree

/-- On `a` and then on `aa` the module returns a node of length 1 twice, the second time one that
is free; a new module returns one of length 2 for `aa`. -/
theorem word_stale :
    ((Compiler.mozIrOptimize 40 (Compiler.mozAstToIr word)).bind Compiler.mozVm2ModuleCompile) =
      some wordProgram.code ∧
    ∃ S₁ S₂ S₃ S₄ n k, ModuleParse wordProgram { input := [] } Emits
        (.init (fun _ => 0) {} {}) [97] 0 (some n) S₁ ∧ S₁.release (some n) = some S₂ ∧
      ModuleParse wordProgram { input := [] } Emits S₂ [97, 97] 0 (some n) S₃ ∧
      ModuleParse wordProgram { input := [] } Emits (.init (fun _ => 0) S₂.ast.heap {}) [97, 97] 0
        (some k) S₄ ∧
      n ∈ S₃.ast.heap.freeList ∧ (S₃.ast.heap.mem n).len = 1 ∧ (S₄.ast.heap.mem k).len = 2 := by
  refine ⟨by decide +kernel, ?_⟩
  obtain ⟨S₁, h₁, hast₁⟩ := @word_parse (.init (fun _ => 0) {} {}) [97] _ _ (by decide) rfl
  have hrelease : S₁.release (some 0) = some { S₁ with ast := { S₁.ast with
      heap := nodeFree (nodeUnref S₁.ast.heap 0) 0 } } := by
    unfold Session.release
    rw [hast₁]
    rfl
  obtain ⟨S₃, h₃, hast₃⟩ := @word_parse { S₁ with ast := { S₁.ast with
    heap := nodeFree (nodeUnref S₁.ast.heap 0) 0 } } [97, 97] _ (some 0) (by decide) (by rw [hast₁]; rfl)
  obtain ⟨S₄, h₄, hast₄⟩ := @word_parse (.init (fun _ => 0)
    (nodeFree (nodeUnref S₁.ast.heap 0) 0) {}) [97, 97] _ _ (by decide) (by rw [hast₁]; rfl)
  refine ⟨S₁, _, S₃, S₄, 0, 0, h₁, hrelease, h₃, h₄, ?_, ?_, ?_⟩
  · rw [hast₃]
    exact List.mem_cons_self ..
  · rw [hast₃]
    dsimp only
    decide
  · rw [hast₄]
    dsimp only
    decide

/-- `callee` after a call on `a`, and a module that has returned a node of length 1. -/
theorem module_reuse_witness :
    (∃ S, Reused calleeProgram { input := [] } Quiet (.init (fun _ => 0) {} {}) S ∧
      ∀ node ast', (∃ S', ModuleParse calleeProgram { input := [] } Emits S [97] 0 node S' ∧
          S'.ast = ast') ↔
        ∃ S', ModuleParse calleeProgram { input := [] } Emits (.init (fun _ => 0) S.ast.heap {}) [97] 0
          node S' ∧ S'.ast = ast') ∧
    ∃ S S₁, ModuleParse wordProgram { input := [] } Emits S [97, 97] 0 (some 0) S₁ := by
  constructor
  · have hinvoke : calleeProgram.fetch 4096 = some (.iInvoke 1 2, 4105) := by decide +kernel
    have hbyte : calleeProgram.fetch 4107 = some (.iByte 1 97, 4113) := by decide +kernel
    have hret : calleeProgram.fetch 4113 = some (.iRet, 4114) := by decide +kernel
    have hret' : calleeProgram.fetch 4105 = some (.iRet, 4106) := by decide +kernel
    have hexit : calleeProgram.fetch 8192 = some (.iExit 0, 8194) := by decide +kernel
    obtain ⟨S, hparse⟩ : ∃ S, ModuleParse calleeProgram { input := [] } Quiet
        (.init (fun _ => 0) {} {}) [97] 0 none S :=
      ⟨⟨_, _, _, _⟩, ⟨_, _, _, _, rfl, .step (.step (.step (.step .start hinvoke ⟨rfl, rfl⟩ rfl rfl)
        hbyte ⟨rfl, rfl⟩ rfl rfl) hret ⟨rfl, rfl⟩ rfl rfl) hret' ⟨rfl, rfl⟩ rfl rfl, hexit, rfl, rfl,
        rfl, rfl⟩⟩
    have hreused := Reused.call .fresh hparse rfl
    exact ⟨S, hreused, fun node ast' =>
      (module_reuse (fun _ => 0) {} {}).1 S hreused (fun _ => 0) [97] 0 node ast'⟩
  · obtain ⟨S₁, h₁, hast₁⟩ := @word_parse (.init (fun _ => 0) {} {}) [97] _ _ (by decide) rfl
    obtain ⟨S₂, hrelease⟩ : ∃ S₂, S₁.release (some 0) = some S₂ := by
      unfold Session.release
      rw [hast₁]
      exact ⟨_, rfl⟩
    obtain ⟨node, S₃, h₃⟩ : ∃ node S₃, ModuleParse wordProgram { input := [] } Emits S₂ [97, 97] 0
        node S₃ := by
      have hparsed : S₂.ast.parsed = some 0 := by
        rw [Session.release_parsed hrelease, hast₁]
        rfl
      obtain ⟨S₃, h₃, -⟩ := @word_parse S₂ [97, 97] _ (some 0) (by decide)
        (by simp only [astGetParsedNode, hparsed]; rfl)
      exact ⟨_, S₃, h₃⟩
    have hnode := (@module_reuse wordProgram { input := [] } (fun _ => 0) {} {}).2 _ _ _ _ _ h₁ _ _
      hrelease .fresh _ _ _ _ h₃
    exact ⟨S₂, S₃, hnode ▸ h₃⟩

end Moz.Vm2
