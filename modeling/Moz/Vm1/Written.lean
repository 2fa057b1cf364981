import Moz.Libnez.LogAbove
import Moz.Vm1.Machine

/-!
# The cells that a run has written

Two machines run the same code on the same input. The one runs on a new stack and a new
pool; the other on a stack with old values and on a pool above freed nodes. As long as an
instruction reads only cells that the run has written, both do the same. `SMask` stores a
token that was never written and is left out.
-/

namespace Moz.Vm1

open Simulation (rel_bind)

/-- The cells that are written have the values of one stack, the others those of another. -/
def onStack (W : ℕ → Bool) (stack rest : ℕ → ℤ) (i : ℕ) : ℤ := if W i then stack i else rest i

/-- The machine `m` above freed nodes, with other values in the cells that it has not written. -/
def Machine.above (base : ℕ) (freed : NodeId → Node) (W : ℕ → Bool) (rest : ℕ → ℤ) (m : Machine) :
    Machine :=
  { m with
    stack := onStack W m.stack rest
    ast := m.ast.above base freed
    memo := m.memo.above base }

/-- `m'` is such a machine for `m`. -/
structure Machine.Follows (base : ℕ) (freed : NodeId → Node) (rest : ℕ → ℤ) (W : ℕ → Bool)
    (m m' : Machine) : Prop where
  eq : m' = m.above base freed W rest
  ast : m.ast.Bounded
  memo : m.memo.Bounded m.ast.heap.next

inductive OutcomeFollows (base : ℕ) (freed : NodeId → Node) (rest : ℕ → ℤ) (W : ℕ → Bool) :
    Outcome → Outcome → Prop
  | next {m m' : Machine} (h : m.Follows base freed rest W m') :
      OutcomeFollows base freed rest W (.next m) (.next m')
  | failed {m m' : Machine} (h : m.Follows base freed rest W m') :
      OutcomeFollows base freed rest W (.failed m) (.failed m')
  | exit (status : Int8) (current : ℕ) :
      OutcomeFollows base freed rest W (.exit status current) (.exit status current)

/-- The cells that the instruction reads have been written. -/
def Inst.ReadsWritten (W : ℕ → Bool) (m : Machine) : Inst → Prop
  | .ret _ | .back | .sClose | .sDef _ | .sIsa _ | .tCommit _ => W (m.sp - 1) = true
  | .sIs tagId => symtableGetSymbol m.tbl tagId ≠ none → W (m.sp - 1) = true
  | .succ => W m.fp = true
  | .memo _ _ | .tMemo _ _ => W m.fp = true ∧ W (m.fp + 1) = true
  | .skip => W (m.fp + 1) = true
  | _ => True

def Inst.written (W : ℕ → Bool) (m : Machine) : Inst → ℕ → Bool
  | .alt _ => Function.update (Function.update (Function.update (Function.update
      (Function.update W m.sp true) (m.sp + 1) true) (m.sp + 2) true) (m.sp + 3) true)
      (m.sp + 4) true
  | .call _ _ | .pos | .tStart | .sOpen | .sMask _ => Function.update W m.sp true
  | .skip =>
    if m.framePos = m.current then W
    else Function.update (Function.update (Function.update W (m.fp + 1) true) (m.fp + 3) true)
      (m.fp + 4) true
  | _ => W

theorem Inst.written_alt (W : ℕ → Bool) (m : Machine) (d : ℤ) : (Inst.alt d).written W m =
    Function.update (Function.update (Function.update (Function.update
      (Function.update W m.sp true) (m.sp + 1) true) (m.sp + 2) true) (m.sp + 3) true)
      (m.sp + 4) true := rfl

theorem Inst.written_skip (W : ℕ → Bool) (m : Machine) : Inst.skip.written W m =
    if m.framePos = m.current then W
    else Function.update (Function.update (Function.update W (m.fp + 1) true) (m.fp + 3) true)
      (m.fp + 4) true := rfl

structure FrameWritten (W : ℕ → Bool) (m : Machine) : Prop where
  fp : W m.fp = true
  pos : W (m.fp + 1) = true
  next : W (m.fp + 2) = true
  ast : W (m.fp + 3) = true
  symtbl : W (m.fp + 4) = true

def stepWritten (P : Program) (W : ℕ → Bool) (m : Machine) : ℕ → Bool :=
  match P.fetch m.pc with
  | some (inst, stop) => inst.written W { m with pc := stop }
  | none => W

/-- The step reads only cells that the run has written, and it is no `SMask`. -/
structure CleanStep (P : Program) (R : Runtime) (W : ℕ → Bool) (m : Machine) : Prop where
  reads : ∀ inst stop, P.fetch m.pc = some (inst, stop) → inst.ReadsWritten W { m with pc := stop }
  frame : ∀ inst stop m', P.fetch m.pc = some (inst, stop) →
    exec R { m with pc := stop } inst = some (.failed m') →
      FrameWritten (inst.written W { m with pc := stop }) m'
  mask : ∀ inst stop, P.fetch m.pc = some (inst, stop) → ∀ tagId, inst ≠ .sMask tagId

section Written

variable {base : ℕ} {freed : NodeId → Node} {rest : ℕ → ℤ} {W : ℕ → Bool} {m m' : Machine}
  {R : Runtime} {inst : Inst}

theorem onStack_update (W : ℕ → Bool) (stack rest : ℕ → ℤ) (a : ℕ) (x : ℤ) :
    Function.update (onStack W stack rest) a x =
      onStack (Function.update W a true) (Function.update stack a x) rest := by
  funext i
  by_cases h : i = a
  · subst h
    simp [onStack]
  · simp [onStack, h]

theorem onStack_of_written {i : ℕ} (stack rest : ℕ → ℤ) (h : W i = true) :
    onStack W stack rest i = stack i := by
  simp [onStack, h]

namespace Machine.Follows

theorem astFollows (h : m.Follows base freed rest W m') :
    AstMachine.Follows base freed m.ast.heap.next m.ast m'.ast := by
  rw [h.eq]
  exact ⟨rfl, h.ast, le_rfl⟩

theorem saveTx (h : m.Follows base freed rest W m') : astSaveTx m'.ast = astSaveTx m.ast := by
  rw [h.eq]
  exact List.length_map _

theorem withAst (h : m.Follows base freed rest W m') {ast ast' : AstMachine}
    (hast : AstMachine.Follows base freed m.ast.heap.next ast ast') :
    Follows base freed rest W { m with ast := ast } { m' with ast := ast' } where
  eq := by
    rw [h.eq, hast.eq]
    rfl
  ast := hast.bounded
  memo := h.memo.mono hast.low

theorem withTable (h : m.Follows base freed rest W m') {r r' : Memo × Heap}
    (hr : TableFollows base freed m.ast.heap.next r r') :
    Follows base freed rest W { m with memo := r.1, ast := { m.ast with heap := r.2 } }
      { m' with memo := r'.1, ast := { m'.ast with heap := r'.2 } } where
  eq := by
    rw [h.eq, hr.memo, hr.heap.eq]
    rfl
  ast := (h.astFollows.withHeap hr.heap).bounded
  memo := hr.bounded

theorem push (h : m.Follows base freed rest W m') (x : ℤ) :
    Option.Rel (Follows base freed rest (Function.update W m.sp true)) (m.push x) (m'.push x) := by
  rw [h.eq]
  unfold Machine.push
  by_cases hsp : m.sp < stackSize
  · have hsp' : (m.above base freed W rest).sp < stackSize := hsp
    rw [if_pos hsp, if_pos hsp']
    refine .some ⟨?_, h.ast, h.memo⟩
    simp only [Machine.above, onStack_update]
  · have hsp' : ¬ (m.above base freed W rest).sp < stackSize := hsp
    rw [if_neg hsp, if_neg hsp']
    exact .none

theorem pushChoice (h : m.Follows base freed rest W m') (next : ℤ) :
    Option.Rel (Follows base freed rest ((Inst.alt 0).written W m)) (m.pushChoice next)
      (m'.pushChoice next) := by
  have hsave := h.saveTx
  unfold Machine.pushChoice
  rw [hsave, h.eq]
  unfold Machine.pushFrame
  by_cases hsp : m.sp + fpMax ≤ stackSize
  · have hsp' : (m.above base freed W rest).sp + fpMax ≤ stackSize := hsp
    rw [if_pos hsp, if_pos hsp']
    refine .some ⟨?_, h.ast, h.memo⟩
    simp only [Machine.above, onStack_update]
    rfl
  · have hsp' : ¬ (m.above base freed W rest).sp + fpMax ≤ stackSize := hsp
    rw [if_neg hsp, if_neg hsp']
    exact .none

theorem top (h : m.Follows base freed rest W m') (hsp : W (m.sp - 1) = true) : m'.top = m.top := by
  rw [h.eq]
  exact onStack_of_written m.stack rest hsp

theorem framePos (h : m.Follows base freed rest W m') (hpos : W (m.fp + 1) = true) :
    m'.framePos = m.framePos := by
  rw [h.eq]
  exact onStack_of_written m.stack rest hpos

theorem dropFrame (h : m.Follows base freed rest W m') (hfp : W m.fp = true) :
    m.dropFrame.Follows base freed rest W m'.dropFrame := by
  refine ⟨?_, h.ast, h.memo⟩
  rw [h.eq]
  simp [Machine.dropFrame, Machine.above, onStack_of_written _ _ hfp]

theorem refresh (h : m.Follows base freed rest W m') :
    m.refresh.Follows base freed rest (Function.update (Function.update (Function.update W
      (m.fp + 1) true) (m.fp + 3) true) (m.fp + 4) true) m'.refresh := by
  refine ⟨?_, h.ast, h.memo⟩
  unfold Machine.refresh
  rw [h.saveTx, h.eq]
  simp only [Machine.above, onStack_update]

theorem memoize (h : m.Follows base freed rest W m') (hfp : W m.fp = true)
    (hpos : W (m.fp + 1) = true) (state : UInt8) (memoId : UInt16) {node : Option NodeId}
    (hnode : ∀ n ∈ node, n < m.ast.heap.next) :
    Option.Rel (OutcomeFollows base freed rest W) (m.memoize R state memoId node)
      (m'.memoize R state memoId (node.map (· + base))) := by
  have hdrop := h.dropFrame hfp
  unfold Machine.memoize
  rw [h.framePos hpos]
  have hcurrent : m'.current = m.current := by rw [h.eq]; rfl
  have hmemo : m'.memo = m.memo.above base := by rw [h.eq]; rfl
  rw [hcurrent, hmemo]
  apply rel_bind (memoSet_follows h.astFollows.heap h.memo _ _ hnode _ _)
  exact fun r r' hr => .some (.next (hdrop.withTable hr))

end Machine.Follows

theorem effect_follows (h : m.Follows base freed rest W m') (e : Effect) :
    Option.Rel (OutcomeFollows base freed rest W) (m.effect e) (m'.effect e) := by
  cases e with
  | next current =>
    refine .some (.next ⟨?_, h.ast, h.memo⟩)
    rw [h.eq]
    rfl
  | fail => exact .some (.failed h)
  | stuck => exact .none

theorem move_follows (h : m.Follows base freed rest W m') (current : Option ℕ) :
    Option.Rel (OutcomeFollows base freed rest W) (m.move current) (m'.move current) := by
  cases current with
  | none => exact .none
  | some current =>
    refine .some (.next ⟨?_, h.ast, h.memo⟩)
    rw [h.eq]
    rfl

theorem log_follows (h : m.Follows base freed rest W m') {log : AstLog} (hlog : log.nodeRef = none) :
    Option.Rel (OutcomeFollows base freed rest W) (m.log (astLog m.ast log))
      (m'.log (astLog m'.ast log)) :=
  .some (.next (h.withAst (astLog_follows_plain h.astFollows hlog)))

theorem jump_follows (h : m.Follows base freed rest W m') (target : Option ℤ) :
    Option.Rel (OutcomeFollows base freed rest W)
      (target.bind fun jump => some (.next (m.jump jump)))
      (target.bind fun jump => some (.next (m'.jump jump))) := by
  cases target with
  | none => exact .none
  | some jump =>
    obtain rfl := h.eq
    exact .some (.next ⟨rfl, h.ast, h.memo⟩)

theorem test_follows (h : m.Follows base freed rest W m') (p : Prop) [Decidable p] :
    Option.Rel (OutcomeFollows base freed rest W)
      (if p then some (.next m) else some (.failed m))
      (if p then some (.next m') else some (.failed m')) := by
  split_ifs
  · exact .some (.next h)
  · exact .some (.failed h)

theorem lookup_follows (h : m.Follows base freed rest W m') (state : UInt8) (memoId : UInt16)
    (skip : ℤ) : Option.Rel (OutcomeFollows base freed rest W) (exec R m (.lookup state memoId skip))
      (exec R m' (.lookup state memoId skip)) := by
  obtain rfl := h.eq
  have hget := @memoGet_above base m.memo (Machine.address R m.current) memoId.toUInt32 state
  have hmemo : (m.above base freed W rest).memo = m.memo.above base := rfl
  have hcurrent : (m.above base freed W rest).current = m.current := rfl
  simp only [exec, hmemo, hcurrent, hget]
  cases memoGet m.memo (Machine.address R m.current) memoId.toUInt32 state with
  | none => exact .some (.next h)
  | some entry =>
    have hfailed : (entry.above base).result = .failed ↔ entry.result = .failed := by
      unfold MemoEntry.above
      cases entry.result <;> simp [MemoResult.above]
    dsimp only [Option.map_some]
    by_cases hresult : entry.result = .failed
    · rw [if_pos hresult, if_pos (hfailed.2 hresult)]
      exact .some (.failed h)
    · rw [if_neg hresult, if_neg (fun h => hresult (hfailed.1 h))]
      exact .some (.next ⟨rfl, h.ast, h.memo⟩)

theorem tLookup_follows (h : m.Follows base freed rest W m') (state : UInt8) (tagId memoId : UInt16)
    (skip : ℤ) : Option.Rel (OutcomeFollows base freed rest W)
      (exec R m (.tLookup state tagId memoId skip))
      (exec R m' (.tLookup state tagId memoId skip)) := by
  obtain rfl := h.eq
  have hget := @memoGet_above base m.memo (Machine.address R m.current) memoId.toUInt32 state
  have hmemo : (m.above base freed W rest).memo = m.memo.above base := rfl
  have hcurrent : (m.above base freed W rest).current = m.current := rfl
  simp only [exec, hmemo, hcurrent, hget]
  cases hentry : memoGet m.memo (Machine.address R m.current) memoId.toUInt32 state with
  | none => exact .some (.next h)
  | some entry =>
    dsimp only [Option.map_some, MemoEntry.above]
    cases hresult : entry.result with
    | failed => exact .some (.failed h)
    | null =>
      have hlink := h.withAst (astLogLink_follows h.astFollows tagId none (by simp))
      exact .some (.next ⟨congrArg (fun m : Machine =>
        { m with current := m.current + entry.consumed.toNat }.jump skip) hlink.eq, hlink.ast,
          hlink.memo⟩)
    | result node =>
      have hnode := h.memo.get hentry hresult
      have hlink := h.withAst (astLogLink_follows h.astFollows tagId (some node)
        (by simpa using hnode))
      exact .some (.next ⟨congrArg (fun m : Machine =>
        { m with current := m.current + entry.consumed.toNat }.jump skip) hlink.eq, hlink.ast,
          hlink.memo⟩)

theorem sMatch_follows (h : m.Follows base freed rest W m') (tagId : UInt16) :
    Option.Rel (OutcomeFollows base freed rest W) (exec R m (.sMatch tagId))
      (exec R m' (.sMatch tagId)) := by
  obtain rfl := h.eq
  have htbl : (m.above base freed W rest).tbl = m.tbl := rfl
  have hcurrent : (m.above base freed W rest).current = m.current := rfl
  simp only [exec, htbl, hcurrent]
  cases symtableGetSymbol m.tbl tagId with
  | none => exact .some (.failed h)
  | some tok =>
    dsimp only
    split_ifs
    · exact .some (.next ⟨rfl, h.ast, h.memo⟩)
    · exact .some (.failed h)

/-- `SIs` pops its cell only if there is a symbol. -/
theorem sIs_follows (h : m.Follows base freed rest W m') (tagId : UInt16)
    (hread : symtableGetSymbol m.tbl tagId ≠ none → W (m.sp - 1) = true) :
    Option.Rel (OutcomeFollows base freed rest W) (exec R m (.sIs tagId))
      (exec R m' (.sIs tagId)) := by
  obtain rfl := h.eq
  have htbl : (m.above base freed W rest).tbl = m.tbl := rfl
  have hcurrent : (m.above base freed W rest).current = m.current := rfl
  simp only [exec, htbl, hcurrent]
  cases hsymbol : symtableGetSymbol m.tbl tagId with
  | none => exact .some (.failed h)
  | some tok =>
    rw [h.top (hread (by simp [hsymbol]))]
    dsimp only
    split_ifs
    · exact .some (.next ⟨rfl, h.ast, h.memo⟩)
    · exact .some (.failed ⟨rfl, h.ast, h.memo⟩)

/-- An instruction that reads only written cells does the same. -/
theorem exec_follows (h : m.Follows base freed rest W m') (hreads : inst.ReadsWritten W m) :
    Option.Rel (OutcomeFollows base freed rest (inst.written W m)) (exec R m inst)
      (exec R m' inst) := by
  obtain rfl := h.eq
  cases inst with
  | nop | label => exact .some (.next h)
  | fail => exact .some (.failed h)
  | exit status => exact .some (.exit status m.current)
  | oAny | rAny | tAbort | sDefNum | sCount => exact .none
  | byte | any | str | set | nByte | nAny | nStr | nSet => exact effect_follows h _
  | oByte | oStr | oSet | rByte | rStr | rSet | consume => exact move_follows h _
  | tPush | tPop | tLeftFold | tNew | tCapture => exact log_follows h rfl
  | tTag tagId =>
    simp only [exec]
    cases R.tags[tagId.toNat]? with
    | none => exact .none
    | some tag => exact log_follows h rfl
  | tReplace strId =>
    simp only [exec]
    cases R.strs[strId.toNat]? with
    | none => exact .none
    | some str => exact log_follows h rfl
  | alt failjump => exact rel_bind (h.pushChoice _) fun _ _ h => .some (.next h)
  | succ => exact .some (.next (h.dropFrame hreads))
  | jump jump => exact .some (.next ⟨rfl, h.ast, h.memo⟩)
  | call next jump =>
    apply rel_bind (h.push _)
    intro m₁ m₁' h₁
    obtain rfl := h₁.eq
    exact .some (.next ⟨rfl, h₁.ast, h₁.memo⟩)
  | ret next =>
    simp only [exec, h.top hreads]
    exact .some (.next ⟨rfl, h.ast, h.memo⟩)
  | pos => exact rel_bind (h.push _) fun _ _ h => .some (.next h)
  | back =>
    simp only [exec, h.top hreads]
    exact .some (.next ⟨rfl, h.ast, h.memo⟩)
  | skip =>
    have hcurrent : (m.above base freed W rest).current = m.current := rfl
    simp only [exec, h.framePos hreads, hcurrent, Inst.written_skip]
    split_ifs
    · exact .some (.failed h)
    · exact .some (.next h.refresh)
  | first tblId => exact jump_follows h (first R m.current tblId)
  | tblJump1 tblId =>
    simp only [exec]
    cases R.jumps1[tblId.toNat]? with
    | none => exact .none
    | some tbl => exact jump_follows h (jumpTable1Jump tbl (R.byteAt m.current))
  | tblJump2 tblId =>
    simp only [exec]
    cases R.jumps2[tblId.toNat]? with
    | none => exact .none
    | some tbl => exact jump_follows h (jumpTable2Jump tbl (R.byteAt m.current))
  | tblJump3 tblId =>
    simp only [exec]
    cases R.jumps3[tblId.toNat]? with
    | none => exact .none
    | some tbl => exact jump_follows h (jumpTable3Jump tbl (R.byteAt m.current))
  | lookup state memoId skip => exact lookup_follows h state memoId skip
  | tLookup state tagId memoId skip => exact tLookup_follows h state tagId memoId skip
  | memo state memoId => exact h.memoize hreads.1 hreads.2 state memoId (by simp)
  | tMemo state memoId => exact h.memoize hreads.1 hreads.2 state memoId h.ast.lastLinked
  | memoFail state memoId =>
    apply rel_bind (memoFail_follows h.astFollows.heap h.memo _ _)
    exact fun r r' hr => .some (.failed (h.withTable hr))
  | tStart =>
    simp only [exec, h.saveTx]
    exact rel_bind (h.push _) fun _ _ h => .some (.next h)
  | sOpen => exact rel_bind (h.push _) fun _ _ h => .some (.next h)
  | sMask tagId =>
    apply rel_bind (h.push _)
    intro m₁ m₁' h₁
    obtain rfl := h₁.eq
    exact .some (.next ⟨rfl, h₁.ast, h₁.memo⟩)
  | tCommit tagId =>
    simp only [exec, h.top hreads]
    apply rel_bind (astCommitTx_follows h.astFollows tagId m.top.toNat)
    intro ast ast' hast
    have hcommit := h.withAst hast
    exact .some (.next ⟨congrArg Machine.pop hcommit.eq, hcommit.ast, hcommit.memo⟩)
  | sClose =>
    simp only [exec, h.top hreads]
    show Option.Rel _ ((symtableRollback m.tbl m.top.toNat).bind _)
      ((symtableRollback m.tbl m.top.toNat).bind _)
    cases symtableRollback m.tbl m.top.toNat with
    | none => exact .none
    | some tbl => exact .some (.next ⟨rfl, h.ast, h.memo⟩)
  | sDef tagId =>
    simp only [exec, h.top hreads]
    exact .some (.next ⟨rfl, h.ast, h.memo⟩)
  | sIsDef tagId strId =>
    simp only [exec]
    cases R.strs[strId.toNat]? with
    | none => exact .none
    | some symbol => exact test_follows h (symtableContains R.byteAt m.tbl tagId symbol)
  | sExists tagId => exact test_follows h (symtableHasSymbol m.tbl tagId)
  | sMatch tagId => exact sMatch_follows h tagId
  | sIs tagId => exact sIs_follows h tagId hreads
  | sIsa tagId =>
    have htbl : (m.above base freed W rest).tbl = m.tbl := rfl
    have hcurrent : (m.above base freed W rest).current = m.current := rfl
    simp only [exec, htbl, hcurrent, h.top hreads]
    split_ifs
    · exact .some (.next ⟨rfl, h.ast, h.memo⟩)
    · exact .some (.failed ⟨rfl, h.ast, h.memo⟩)

theorem failImpl_follows (h : m.Follows base freed rest W m') (hframe : FrameWritten W m) :
    Option.Rel (Machine.Follows base freed rest W) (failImpl m) (failImpl m') := by
  have hdrop := h.dropFrame hframe.fp
  have hpos := h.framePos hframe.pos
  obtain rfl := h.eq
  have hast : (m.above base freed W rest).frameAst = m.frameAst :=
    onStack_of_written m.stack rest hframe.ast
  have hsymtbl : (m.above base freed W rest).frameSymtbl = m.frameSymtbl :=
    onStack_of_written m.stack rest hframe.symtbl
  have hnext : (m.above base freed W rest).frameNext = m.frameNext :=
    onStack_of_written m.stack rest hframe.next
  unfold failImpl
  rw [hpos, hast, hsymtbl, hnext]
  apply rel_bind (astRollbackTx_follows h.astFollows m.frameAst.toNat)
  intro ast ast' hrollback
  show Option.Rel _ ((symtableRollback m.tbl m.frameSymtbl.toNat).bind _)
    ((symtableRollback m.tbl m.frameSymtbl.toNat).bind _)
  cases symtableRollback m.tbl m.frameSymtbl.toNat with
  | none => exact .none
  | some tbl =>
    have hback := hdrop.withAst hrollback
    show Option.Rel _ (some (if m.framePos.toNat < m.current then _ else _))
      (some (if m.framePos.toNat < m.current then _ else _))
    split_ifs
    · exact .some ⟨congrArg (fun m₁ : Machine => { m₁ with
        tbl := tbl
        pc := m.frameNext
        head := max m.head m.current
        current := m.framePos.toNat }) hback.eq, hback.ast, hback.memo⟩
    · exact .some ⟨congrArg (fun m₁ : Machine => { m₁ with tbl := tbl, pc := m.frameNext }) hback.eq,
        hback.ast, hback.memo⟩

theorem startsWith_uninit (uninit : Symtable → Token) (text : List UInt8) : ∀ current,
    ({ R with uninit := uninit } : Runtime).startsWith current text = R.startsWith current text := by
  induction text with
  | nil =>
    intro current
    rfl
  | cons c text ih =>
    intro current
    rw [Runtime.startsWith, Runtime.startsWith, ih]
    rfl

theorem strTest_uninit (uninit : Symtable → Token) (strId : UInt16) :
    strTest { R with uninit := uninit } strId = strTest R strId := by
  funext current
  simp only [strTest, startsWith_uninit]

theorem exec_uninit (uninit : Symtable → Token) (m : Machine) (h : ∀ tagId, inst ≠ .sMask tagId) :
    exec { R with uninit := uninit } m inst = exec R m inst := by
  cases inst with
  | sMask tagId => exact absurd rfl (h tagId)
  | str | nStr | oStr =>
    simp only [exec, strTest_uninit]
  | rStr strId =>
    simp only [exec, strTest_uninit]
    rfl
  | _ => rfl

theorem step_follows {P : Program} (h : m.Follows base freed rest W m') (hclean : CleanStep P R W m)
    (uninit : Symtable → Token) :
    Option.Rel (OutcomeFollows base freed rest (stepWritten P W m)) (step P R m)
      (step P { R with uninit := uninit } m') := by
  have hpc : m'.pc = m.pc := by
    rw [h.eq]
    rfl
  unfold step stepWritten
  rw [hpc]
  cases hfetch : P.fetch m.pc with
  | none => exact .none
  | some r =>
    obtain ⟨inst, stop⟩ := r
    have hnext : Machine.Follows base freed rest W { m with pc := stop } { m' with pc := stop } :=
      ⟨congrArg (fun m : Machine => { m with pc := stop }) h.eq, h.ast, h.memo⟩
    have hexec := exec_follows (R := R) hnext (hclean.reads inst stop hfetch)
    have hframe := hclean.frame inst stop
    show Option.Rel _ ((exec R { m with pc := stop } inst).bind _)
      ((exec { R with uninit := uninit } { m' with pc := stop } inst).bind _)
    rw [exec_uninit uninit _ (hclean.mask inst stop hfetch)]
    generalize ho : exec R { m with pc := stop } inst = o at hexec
    generalize exec R { m' with pc := stop } inst = o' at hexec
    cases hexec with
    | none => exact .none
    | some houtcome =>
      cases houtcome with
      | next h => exact .some (.next h)
      | exit status current => exact .some (.exit status current)
      | @failed m₁ m₁' h =>
        apply rel_bind (failImpl_follows h (hframe m₁ hfetch ho))
        intro m₂ m₂' h₂
        exact .some (.next h₂)

end Written

end Moz.Vm1
