import Moz.Node.Pool
import Moz.Vm1.Written

/-!
# The main loop

The loop of `main` parses an input, reads its tree, releases it and resets the runtime
and the node pool. `NodeManager_reset` frees the pages: what their memory holds then is
not known, and the nodes of the new pages are others. With a status other than zero the
loop ends. A reset runtime is compared with one that `moz_runtime_init` has just made.
-/

namespace Moz.Vm1

open Simulation (rel_bind)

/-- `MOZ_MEMO_DEFAULT_WINDOW_SIZE`. -/
def memoDefaultWindowSize : UInt32 := 32

/-- The stack as the `memset`s of `moz_runtime_init` leave it. -/
def stackInit (i : ℕ) : ℤ :=
  if i < stackSize - stackBase then -0x5555555555555556 else -0x4444444444444445

/-- `moz_runtime_t` between two inputs, with the node pool. -/
structure Idle where
  stack : ℕ → ℤ
  ast : AstMachine
  tbl : Symtable
  memo : Memo

/-- `moz_runtime_init`, after `NodeManager_init`. -/
def runtimeInit (memoSize : UInt32) : Idle where
  stack := stackInit
  ast := {}
  tbl := {}
  memo := memoTable memoDefaultWindowSize memoSize

/-- `moz_runtime_set_source` and `moz_runtime_parse_init`. -/
def Idle.start (P : Program) (S : Idle) : Option Machine := parseInit P 0 0 S.stack S.ast S.tbl S.memo

/-- `moz_runtime_reset1`; the stack stays as it is. -/
def runtimeReset1 (memoSize : UInt32) (stack : ℕ → ℤ) (ast : AstMachine) (memo : Memo) :
    Option Idle := do
  let ast ← astRollbackTx ast 0
  let heap ← memoDispose memo ast.heap
  return {
    stack := stack
    ast := { heap := heap }
    tbl := {}
    memo := memoTable memoDefaultWindowSize memoSize }

/-- `NodeManager_reset`: the nodes below `base` are freed, those from there on are new. -/
def nodeManagerReset (base : ℕ) (freed : NodeId → Node) (S : Idle) : Idle :=
  { S with ast := { S.ast with
      heap := { mem := fun n => if n < base then freed n else {}, freeList := [], next := base } } }

/-- The exit status, and the tree that `main` prints. -/
structure Answer where
  status : Int8
  heap : Heap
  node : Option NodeId

/-- `if (node) { NODE_GC_RELEASE(node); }` -/
def releaseParsed (H : Heap) : Option NodeId → Option Heap
  | some node => nodeRelease H node
  | none => some H

/-- The body of the loop after a parse with status 0, up to `NodeManager_reset`. -/
def finish (memoSize : UInt32) (m : Machine) : Option (Answer × Idle) := do
  let (ast, node) ← astGetParsedNode m.ast
  let heap ← releaseParsed ast.heap node
  let S ← runtimeReset1 memoSize m.stack { ast with heap := heap } m.memo
  return (⟨0, ast.heap, node⟩, S)

structure Answer.Same (a a' : Answer) : Prop where
  status : a.status = a'.status
  node : a.node = none ↔ a'.node = none
  tree : ∀ n ∈ a.node, ∀ n' ∈ a'.node, ∀ t, IsTree a.heap n t ↔ IsTree a'.heap n' t

/-- The cells that `moz_runtime_parse_init` writes. -/
def startWritten (i : ℕ) : Bool := decide (stackBase ≤ i ∧ i < stackBase + fpMax + 1)

section Runs

-- `ok` is asked of each step, with the cells that the run has written
variable (ok : Program → Runtime → (ℕ → Bool) → Machine → Prop) (P : Program) (memoSize : UInt32)
  (R : Runtime) (S : Idle)

inductive Visits : (ℕ → Bool) → Machine → Prop
  | start {m : Machine} (h : S.start P = some m) : Visits startWritten m
  | step {W : ℕ → Bool} {m m' : Machine} (h : Visits W m) (hok : ok P R W m)
    (hstep : step P R m = some (.next m')) : Visits (stepWritten P W m) m'

def Ends (status : Int8) (m : Machine) : Prop :=
  ∃ W current, Visits ok P R S W m ∧ ok P R W m ∧ step P R m = some (.exit status current)

inductive Answers : Answer → Prop
  | error {status : Int8} {m : Machine} (h : Ends ok P R S status m) (hstatus : status ≠ 0) :
      Answers ⟨status, m.ast.heap, none⟩
  | parsed {m : Machine} {a : Answer} {S' : Idle} (h : Ends ok P R S 0 m)
      (hfinish : finish memoSize m = some (a, S')) : Answers a

end Runs

/-- The runtimes that the loop starts an input with. -/
inductive Reached (ok : Program → Runtime → (ℕ → Bool) → Machine → Prop) (P : Program)
    (memoSize : UInt32) : Idle → Prop
  | init : Reached ok P memoSize (runtimeInit memoSize)
  | next {S S' : Idle} {R : Runtime} {m : Machine} {a : Answer} {base : ℕ} (freed : NodeId → Node)
    (h : Reached ok P memoSize S) (hends : Ends ok P R S 0 m)
    (hfinish : finish memoSize m = some (a, S')) (hbase : S'.ast.heap.next ≤ base) :
      Reached ok P memoSize (nodeManagerReset base freed S')

def Idle.refill (base : ℕ) (freed : NodeId → Node) (S : Idle) : Idle :=
  { S with ast := { S.ast with heap := S.ast.heap.refill base freed } }

def Machine.refill (base : ℕ) (freed : NodeId → Node) (m : Machine) : Machine :=
  { m with ast := { m.ast with heap := m.ast.heap.refill base freed } }

def Answer.refill (base : ℕ) (freed : NodeId → Node) (a : Answer) : Answer :=
  { a with heap := a.heap.refill base freed }

/-- On this input the runtime does what a new one does, whatever a mask leaves unwritten there, and
neither reads nor writes a freed node. -/
structure LikeNew (ok : Program → Runtime → (ℕ → Bool) → Machine → Prop) (P : Program)
    (memoSize : UInt32) (S : Idle) (R : Runtime) (uninit : Symtable → Token) : Prop where
  answers : ∀ a, Answers ok P memoSize R S a →
    ∃ a', Answers ok P memoSize { R with uninit := uninit } (runtimeInit memoSize) a' ∧ a.Same a'
  only : ∀ a', Answers ok P memoSize { R with uninit := uninit } (runtimeInit memoSize) a' →
    ∃ a, Answers ok P memoSize R S a ∧ a.Same a'
  visits : ∀ freed W m, Visits ok P R S W m →
    Visits ok P R (S.refill S.ast.heap.next freed) W (m.refill S.ast.heap.next freed)
  finish : ∀ freed W m, Visits ok P R S W m →
    finish memoSize (m.refill S.ast.heap.next freed) =
      (finish memoSize m).map fun r =>
        (r.1.refill S.ast.heap.next freed, r.2.refill S.ast.heap.next freed)

section MainLoop

variable {ok : Program → Runtime → (ℕ → Bool) → Machine → Prop} {P : Program} {memoSize : UInt32}
  {R : Runtime} {S : Idle} {base : ℕ} {freed : NodeId → Node} {rest : ℕ → ℤ} {W : ℕ → Bool}
  {m m' : Machine} {inst : Inst}

theorem readsWritten_iff (h : m.Follows base freed rest W m') :
    inst.ReadsWritten W m' ↔ inst.ReadsWritten W m := by
  obtain rfl := h.eq
  cases inst <;> exact Iff.rfl

theorem written_eq (h : m.Follows base freed rest W m') (hreads : inst.ReadsWritten W m) :
    inst.written W m' = inst.written W m := by
  cases inst with
  | skip =>
    have hpos := h.framePos hreads
    obtain rfl := h.eq
    rw [Inst.written_skip, Inst.written_skip, hpos]
    rfl
  | _ =>
    obtain rfl := h.eq
    rfl

theorem Machine.Follows.withPc (h : m.Follows base freed rest W m') (pc : ℤ) :
    Machine.Follows base freed rest W { m with pc := pc } { m' with pc := pc } :=
  ⟨congrArg (fun m : Machine => { m with pc := pc }) h.eq, h.ast, h.memo⟩

theorem Machine.Follows.pc (h : m.Follows base freed rest W m') : m'.pc = m.pc := by
  rw [h.eq]
  rfl

theorem Machine.Follows.fp (h : m.Follows base freed rest W m') : m'.fp = m.fp := by
  rw [h.eq]
  rfl

theorem stepWritten_eq (h : m.Follows base freed rest W m') (hclean : CleanStep P R W m) :
    stepWritten P W m' = stepWritten P W m := by
  unfold stepWritten
  rw [h.pc]
  cases hfetch : P.fetch m.pc with
  | none => rfl
  | some r => exact written_eq (h.withPc r.2) (hclean.reads r.1 r.2 hfetch)

theorem FrameWritten.congr (h : FrameWritten W m) (hfp : m'.fp = m.fp) : FrameWritten W m' := by
  obtain ⟨h0, h1, h2, h3, h4⟩ := h
  constructor <;> rwa [hfp]

theorem cleanStep_iff (h : m.Follows base freed rest W m') (uninit : Symtable → Token) :
    CleanStep P { R with uninit := uninit } W m' ↔ CleanStep P R W m := by
  have hpc := h.pc
  -- the outcomes of an instruction that is clean so far
  have hexec : ∀ inst stop, inst.ReadsWritten W { m with pc := stop } →
      (∀ tagId, inst ≠ .sMask tagId) →
      Option.Rel (OutcomeFollows base freed rest (inst.written W { m with pc := stop }))
        (exec R { m with pc := stop } inst)
        (exec { R with uninit := uninit } { m' with pc := stop } inst) := by
    intro inst stop hreads hmask
    rw [exec_uninit uninit _ hmask]
    exact exec_follows (h.withPc stop) hreads
  constructor
  · intro hclean
    have hreads : ∀ inst stop, P.fetch m.pc = some (inst, stop) →
        inst.ReadsWritten W { m with pc := stop } := by
      intro inst stop hfetch
      exact (readsWritten_iff (h.withPc stop)).1 (hclean.reads inst stop (hpc ▸ hfetch))
    have hmask : ∀ inst stop, P.fetch m.pc = some (inst, stop) → ∀ tagId, inst ≠ .sMask tagId :=
      fun inst stop hfetch => hclean.mask inst stop (hpc ▸ hfetch)
    refine ⟨hreads, fun inst stop m₁ hfetch hfailed => ?_, hmask⟩
    have hrel := hexec inst stop (hreads inst stop hfetch) (hmask inst stop hfetch)
    rw [hfailed] at hrel
    generalize ho : exec { R with uninit := uninit } { m' with pc := stop } inst = o at hrel
    cases hrel with
    | some houtcome =>
      cases houtcome with
      | @failed _ m₁' h₁ =>
        have hframe := hclean.frame inst stop m₁' (hpc ▸ hfetch) ho
        rw [written_eq (h.withPc stop) (hreads inst stop hfetch)] at hframe
        exact hframe.congr h₁.fp.symm
  · intro hclean
    have hreads : ∀ inst stop, P.fetch m'.pc = some (inst, stop) →
        inst.ReadsWritten W { m' with pc := stop } := by
      intro inst stop hfetch
      exact (readsWritten_iff (h.withPc stop)).2 (hclean.reads inst stop (hpc ▸ hfetch))
    have hmask : ∀ inst stop, P.fetch m'.pc = some (inst, stop) → ∀ tagId, inst ≠ .sMask tagId :=
      fun inst stop hfetch => hclean.mask inst stop (hpc ▸ hfetch)
    refine ⟨hreads, fun inst stop m₁' hfetch hfailed => ?_, hmask⟩
    rw [hpc] at hfetch
    have hread := hclean.reads inst stop hfetch
    have hrel := hexec inst stop hread (hclean.mask inst stop hfetch)
    rw [hfailed] at hrel
    generalize ho : exec R { m with pc := stop } inst = o at hrel
    cases hrel with
    | some houtcome =>
      cases houtcome with
      | @failed m₁ _ h₁ =>
        have hframe := hclean.frame inst stop m₁ hfetch ho
        rw [written_eq (h.withPc stop) hread]
        exact hframe.congr h₁.fp

/-- What a reset leaves: an old stack, and an empty pool above freed nodes. -/
structure Idle.IsReset (memoSize : UInt32) (base : ℕ) (freed : NodeId → Node) (S : Idle) : Prop where
  ast : S.ast = { heap := Heap.above base freed {} }
  tbl : S.tbl = {}
  memo : S.memo = memoTable memoDefaultWindowSize memoSize

theorem nodeManagerReset_heap (base : ℕ) (freed : NodeId → Node) :
    ({ mem := fun n => if n < base then freed n else {}, freeList := [], next := base } : Heap) =
      Heap.above base freed {} := by
  simp [Heap.above, Node.above]

theorem runtimeReset1_idle {stack : ℕ → ℤ} {ast : AstMachine} {memo : Memo}
    (h : runtimeReset1 memoSize stack ast memo = some S) : ∃ heap, S =
      { stack := stack, ast := { heap := heap }, tbl := {},
        memo := memoTable memoDefaultWindowSize memoSize } := by
  obtain ⟨ast₁, -, h⟩ := Option.bind_eq_some_iff.1 h
  obtain ⟨heap, -, h⟩ := Option.bind_eq_some_iff.1 h
  exact ⟨heap, (Option.some.inj h).symm⟩

theorem runtimeInit_isReset : (runtimeInit memoSize).IsReset memoSize 0 (fun _ => {}) where
  ast := by
    have hheap := nodeManagerReset_heap 0 fun _ => {}
    rw [← hheap]
    rfl
  tbl := rfl
  memo := rfl

theorem Reached.isReset (h : Reached ok P memoSize S) :
    ∃ freed, S.IsReset memoSize S.ast.heap.next freed := by
  cases h with
  | init => exact ⟨_, runtimeInit_isReset⟩
  | @next _ S' _ _ _ base freed _ _ hfinish _ =>
    obtain ⟨⟨ast, node⟩, -, hfinish⟩ := Option.bind_eq_some_iff.1 hfinish
    obtain ⟨heap, -, hfinish⟩ := Option.bind_eq_some_iff.1 hfinish
    obtain ⟨S₁, hreset, hfinish⟩ := Option.bind_eq_some_iff.1 hfinish
    cases hfinish
    obtain ⟨heap₁, rfl⟩ := runtimeReset1_idle hreset
    refine ⟨freed, ?_, rfl, rfl⟩
    unfold nodeManagerReset
    rw [nodeManagerReset_heap]
    simp [Heap.above]

theorem memoTable_above (w n : UInt32) : (memoTable w n).above base = memoTable w n := by
  unfold Memo.above memoTable
  rw [List.map_replicate]
  rfl

theorem memoTable_bounded (w n : UInt32) (next : ℕ) : (memoTable w n).Bounded next := by
  intro e he node hnode
  rw [List.eq_of_mem_replicate he] at hnode
  cases hnode

theorem startWritten_eq (m : Machine) (h : m.sp = stackBase) :
    Function.update ((Inst.alt 0).written (fun _ => false) m) (stackBase + fpMax) true =
      startWritten := by
  funext i
  simp only [Inst.written_alt, startWritten, h, Function.update_apply, stackBase, fpMax]
  grind

theorem pushChoice_sp {next : ℤ} (h : m.pushChoice next = some m') : m'.sp = m.sp + fpMax := by
  unfold Machine.pushChoice Machine.pushFrame at h
  split_ifs at h
  obtain rfl := Option.some.inj h
  rfl

theorem start_follows (h : S.IsReset memoSize base freed) :
    Option.Rel (Machine.Follows base freed S.stack startWritten) ((runtimeInit memoSize).start P)
      (S.start P) := by
  have hmachine : Machine.Follows base freed S.stack (fun _ => false)
      { pc := P.base, sp := stackBase, fp := stackBase, current := 0, head := 0, stack := stackInit,
        ast := {}, tbl := {}, memo := memoTable memoDefaultWindowSize memoSize }
      { pc := P.base, sp := stackBase, fp := stackBase, current := 0, head := 0, stack := S.stack,
        ast := S.ast, tbl := S.tbl, memo := S.memo } := by
    refine ⟨?_, ⟨bounded_empty, ?_, ?_⟩, memoTable_bounded _ _ _⟩
    · rw [h.ast, h.tbl, h.memo, Machine.above, memoTable_above]
      rfl
    · exact fun log hlog => absurd hlog List.not_mem_nil
    · exact fun n hn => by cases hn
  have hframe := hmachine.pushChoice (P.stub + 2)
  unfold Idle.start parseInit
  dsimp only [runtimeInit]
  generalize hm : ({
    pc := P.base, sp := stackBase, fp := stackBase, current := 0, head := 0, stack := stackInit,
    ast := {}, tbl := {}, memo := memoTable memoDefaultWindowSize memoSize } : Machine) = m
    at hframe ⊢
  have hsp : m.sp = stackBase := hm ▸ rfl
  generalize ho : m.pushChoice (P.stub + 2) = o at hframe ⊢
  generalize Machine.pushChoice _ (P.stub + 2) = o' at hframe ⊢
  cases hframe with
  | none => exact .none
  | @some m₁ m₁' h₁ =>
    have hpush := h₁.push P.stub
    rw [pushChoice_sp ho, hsp, startWritten_eq m hsp] at hpush
    exact hpush

/-- A reset runtime goes through the machines of a new one. -/
theorem visits_follow (h : S.IsReset memoSize base freed) (uninit : Symtable → Token)
    (hvisits : Visits CleanStep P R (runtimeInit memoSize) W m) :
    ∃ m', Visits CleanStep P { R with uninit := uninit } S W m' ∧
      m.Follows base freed S.stack W m' := by
  induction hvisits with
  | @start m hstart =>
    have hrel := start_follows (P := P) h
    rw [hstart] at hrel
    generalize hs : S.start P = o at hrel
    cases hrel with
    | some hfollows => exact ⟨_, .start hs, hfollows⟩
  | @step W m m₁ _ hok hstep ih =>
    obtain ⟨m', hvisits', hfollows⟩ := ih
    have hrel := step_follows hfollows hok uninit
    rw [hstep] at hrel
    generalize hs : step P { R with uninit := uninit } m' = o at hrel
    cases hrel with
    | some houtcome =>
      cases houtcome with
      | next hnext =>
        refine ⟨_, ?_, hnext⟩
        rw [← stepWritten_eq hfollows hok]
        exact .step hvisits' ((cleanStep_iff hfollows uninit).2 hok) hs

theorem visits_follow_new (h : S.IsReset memoSize base freed) (uninit : Symtable → Token)
    (hvisits : Visits CleanStep P { R with uninit := uninit } S W m') :
    ∃ m, Visits CleanStep P R (runtimeInit memoSize) W m ∧ m.Follows base freed S.stack W m' := by
  induction hvisits with
  | @start m' hstart =>
    have hrel := start_follows (P := P) h
    rw [hstart] at hrel
    generalize hs : (runtimeInit memoSize).start P = o at hrel
    cases hrel with
    | some hfollows => exact ⟨_, .start hs, hfollows⟩
  | @step W m' m₁' _ hok hstep ih =>
    obtain ⟨m, hvisits', hfollows⟩ := ih
    have hclean := (cleanStep_iff hfollows uninit).1 hok
    have hrel := step_follows hfollows hclean uninit
    rw [hstep] at hrel
    generalize hs : step P R m = o at hrel
    cases hrel with
    | some houtcome =>
      cases houtcome with
      | @next m₁ _ hnext =>
        rw [stepWritten_eq hfollows hclean]
        exact ⟨m₁, .step hvisits' hclean hs, hnext⟩

theorem ends_follow (h : S.IsReset memoSize base freed) (uninit : Symtable → Token) {status : Int8}
    (hends : Ends CleanStep P R (runtimeInit memoSize) status m) :
    ∃ W m', Ends CleanStep P { R with uninit := uninit } S status m' ∧
      m.Follows base freed S.stack W m' := by
  obtain ⟨W, current, hvisits, hok, hexit⟩ := hends
  obtain ⟨m', hvisits', hfollows⟩ := visits_follow h uninit hvisits
  have hrel := step_follows hfollows hok uninit
  rw [hexit] at hrel
  generalize hs : step P { R with uninit := uninit } m' = o at hrel
  cases hrel with
  | some houtcome =>
    cases houtcome
    exact ⟨W, m', ⟨W, current, hvisits', (cleanStep_iff hfollows uninit).2 hok, hs⟩, hfollows⟩

theorem ends_follow_new (h : S.IsReset memoSize base freed) (uninit : Symtable → Token)
    {status : Int8} (hends : Ends CleanStep P { R with uninit := uninit } S status m') :
    ∃ W m, Ends CleanStep P R (runtimeInit memoSize) status m ∧ m.Follows base freed S.stack W m' := by
  obtain ⟨W, current, hvisits, hok, hexit⟩ := hends
  obtain ⟨m, hvisits', hfollows⟩ := visits_follow_new h uninit hvisits
  have hclean := (cleanStep_iff hfollows uninit).1 hok
  have hrel := step_follows hfollows hclean uninit
  rw [hexit] at hrel
  generalize hs : step P R m = o at hrel
  cases hrel with
  | some houtcome =>
    cases houtcome
    exact ⟨W, m, ⟨W, current, hvisits', hclean, hs⟩, hfollows⟩

/-- The answer and the runtime are those of a new runtime, above freed nodes. -/
structure FinishFollows (base : ℕ) (freed : NodeId → Node) (stack : ℕ → ℤ) (r r' : Answer × Idle) :
    Prop where
  answer : r'.1 = ⟨r.1.status, r.1.heap.above base freed, r.1.node.map (· + base)⟩
  idle : r'.2 = { r.2 with stack := stack, ast := { heap := r.2.ast.heap.above base freed } }

theorem releaseParsed_follows {low : ℕ} {H H' : Heap} (h : Heap.Follows base freed low H H')
    (node : Option NodeId) : Option.Rel (Heap.Follows base freed low) (releaseParsed H node)
      (releaseParsed H' (node.map (· + base))) := by
  cases node with
  | none => exact .some h
  | some node => exact nodeRelease_follows h node

theorem runtimeReset1_follows {low : ℕ} {ast ast' : AstMachine}
    (h : AstMachine.Follows base freed low ast ast') (memo : Memo) (stack stack' : ℕ → ℤ) :
    Option.Rel
      (fun S S' => S' = { S with stack := stack', ast := { heap := S.ast.heap.above base freed } })
      (runtimeReset1 memoSize stack ast memo)
      (runtimeReset1 memoSize stack' ast' (memo.above base)) := by
  apply rel_bind (astRollbackTx_follows h 0)
  intro ast₁ ast₁' h₁
  apply rel_bind (memoDispose_follows h₁.heap memo)
  intro H H' hH
  rw [hH.eq]
  exact .some rfl

theorem finish_follows (h : m.Follows base freed rest W m') :
    Option.Rel (FinishFollows base freed m'.stack) (finish memoSize m) (finish memoSize m') := by
  have hmemo : m'.memo = m.memo.above base := by
    rw [h.eq]
    rfl
  apply rel_bind (astGetParsedNode_follows h.astFollows)
  intro r r' hr
  dsimp only
  rw [hr.node]
  apply rel_bind (releaseParsed_follows hr.ast.heap r.2)
  intro H H' hH
  rw [hmemo]
  apply rel_bind (runtimeReset1_follows (hr.ast.withHeap hH) m.memo m.stack m'.stack)
  intro S S' hS
  exact .some ⟨by rw [hr.ast.eq]; rfl, hS⟩

theorem above_same (a : Answer) :
    Answer.Same ⟨a.status, a.heap.above base freed, a.node.map (· + base)⟩ a where
  status := rfl
  node := Option.map_eq_none_iff
  tree := by
    intro n hn n' hn' t
    obtain ⟨k, hk, rfl⟩ := Option.map_eq_some_iff.1 hn
    obtain rfl : k = n' := Option.some.inj (hk.symm.trans hn')
    exact isTree_above t k

theorem Idle.IsReset.refill (h : S.IsReset memoSize base freed) (freed' : NodeId → Node) :
    (S.refill base freed').IsReset memoSize base freed' where
  ast := by
    rw [Idle.refill, h.ast]
    dsimp only
    rw [above_refill]
  tbl := h.tbl
  memo := h.memo

/-- With other values in the freed nodes the machine is that of a runtime which has them. -/
theorem refill_eq {m'' : Machine} {freed' : NodeId → Node} (h : m.Follows base freed rest W m')
    (h' : m.Follows base freed' rest W m'') : m'.refill base freed' = m'' := by
  rw [h.eq, h'.eq, Machine.refill]
  dsimp only [Machine.above, AstMachine.above]
  rw [above_refill]

theorem answers_new (h : S.IsReset memoSize base freed) (uninit : Symtable → Token) {a : Answer}
    (ha : Answers CleanStep P memoSize { R with uninit := uninit } S a) :
    ∃ a', Answers CleanStep P memoSize R (runtimeInit memoSize) a' ∧ a.Same a' := by
  cases ha with
  | @error status m' hends hstatus =>
    obtain ⟨W, m, hends', hfollows⟩ := ends_follow_new h uninit hends
    rw [hfollows.eq]
    exact ⟨_, .error hends' hstatus, above_same ⟨status, m.ast.heap, none⟩⟩
  | @parsed m' a S' hends hfinish =>
    obtain ⟨W, m, hends', hfollows⟩ := ends_follow_new h uninit hends
    have hrel := @finish_follows memoSize _ _ _ _ _ _ hfollows
    rw [hfinish] at hrel
    generalize hr : finish memoSize m = o at hrel
    cases hrel with
    | @some r _ hpair =>
      have ha : a = ⟨r.1.status, r.1.heap.above base freed, r.1.node.map (· + base)⟩ := hpair.answer
      rw [ha]
      exact ⟨r.1, .parsed hends' hr, above_same r.1⟩

theorem answers_reset (h : S.IsReset memoSize base freed) (uninit : Symtable → Token) {a' : Answer}
    (ha : Answers CleanStep P memoSize R (runtimeInit memoSize) a') :
    ∃ a, Answers CleanStep P memoSize { R with uninit := uninit } S a ∧ a.Same a' := by
  cases ha with
  | @error status m hends hstatus =>
    obtain ⟨W, m', hends', hfollows⟩ := ends_follow h uninit hends
    refine ⟨_, .error hends' hstatus, ?_⟩
    rw [hfollows.eq]
    exact above_same ⟨status, m.ast.heap, none⟩
  | @parsed m a' S' hends hfinish =>
    obtain ⟨W, m', hends', hfollows⟩ := ends_follow h uninit hends
    have hrel := @finish_follows memoSize _ _ _ _ _ _ hfollows
    rw [hfinish] at hrel
    generalize hr : finish memoSize m' = o at hrel
    cases hrel with
    | @some _ r' hpair =>
      refine ⟨r'.1, .parsed hends' hr, ?_⟩
      rw [hpair.answer]
      exact above_same a'

theorem finish_refill (h : m.Follows base freed rest W m') (freed' : NodeId → Node) :
    finish memoSize (m'.refill base freed') =
      (finish memoSize m').map fun r => (r.1.refill base freed', r.2.refill base freed') := by
  have h' : m.Follows base freed' rest W (m.above base freed' W rest) := ⟨rfl, h.ast, h.memo⟩
  have hstack : m'.stack = (m.above base freed' W rest).stack := by
    rw [h.eq]
    rfl
  rw [refill_eq h h']
  have hrel := @finish_follows memoSize _ _ _ _ _ _ h
  have hrel' := @finish_follows memoSize _ _ _ _ _ _ h'
  generalize finish memoSize m = o at hrel hrel'
  generalize finish memoSize m' = o₁ at hrel ⊢
  generalize finish memoSize (m.above base freed' W rest) = o₂ at hrel' ⊢
  cases hrel with
  | none =>
    cases hrel'
    rfl
  | @some r r₁ hpair =>
    cases hrel' with
    | @some _ r₂ hpair' =>
      apply congrArg some
      apply Prod.ext
      · show r₂.1 = r₁.1.refill base freed'
        rw [hpair'.answer, hpair.answer, Answer.refill, above_refill]
      · show r₂.2 = r₁.2.refill base freed'
        rw [hpair'.idle, hpair.idle, Idle.refill, above_refill, hstack]

theorem likeNew_of_isReset (h : S.IsReset memoSize S.ast.heap.next freed) (R : Runtime)
    (uninit : Symtable → Token) : LikeNew CleanStep P memoSize S R uninit where
  answers a ha := answers_new (R := { R with uninit := uninit }) h R.uninit ha
  only a' ha := answers_reset (R := { R with uninit := uninit }) h R.uninit ha
  visits freed' W m' hvisits := by
    obtain ⟨m, hnew, hfollows⟩ := visits_follow_new (R := R) h R.uninit hvisits
    obtain ⟨m'', hvisits'', hfollows''⟩ := visits_follow (h.refill freed') R.uninit hnew
    rw [refill_eq hfollows hfollows'']
    exact hvisits''
  finish freed' W m' hvisits := by
    obtain ⟨m, -, hfollows⟩ := visits_follow_new (R := R) h R.uninit hvisits
    exact finish_refill hfollows freed'

/-- In a run of clean steps a reset runtime does on every input what a new one does, and neither
reads nor writes a freed node; the node pool has no page from before the reset. -/
theorem reset_like_new (h : Reached CleanStep P memoSize S) (R : Runtime)
    (uninit : Symtable → Token) : LikeNew CleanStep P memoSize S R uninit ∧
      ∀ (s : PoolState) (rounds page : ℕ) (pool : Pool), s.Reachable →
        s.pool.reset rounds page = some pool → Pool.allocPage page {} = some pool := by
  obtain ⟨freed, hreset⟩ := h.isReset
  refine ⟨likeNew_of_isReset hreset R uninit, ?_⟩
  intro s rounds page pool hs hpool
  obtain ⟨pages, free, hshaped⟩ := hs.shaped
  exact hshaped.reset_eq hpool

theorem step_next {stop : ℤ} (hfetch : P.fetch m.pc = some (inst, stop))
    (hexec : exec R { m with pc := stop } inst = some (.next m')) :
    step P R m = some (.next m') := by
  rw [step, hfetch]
  simp only [Option.bind_eq_bind, Option.bind_some, hexec]
  rfl

theorem step_failed {stop : ℤ} {m₁ : Machine} (hfetch : P.fetch m.pc = some (inst, stop))
    (hexec : exec R { m with pc := stop } inst = some (.failed m₁)) (hfail : failImpl m₁ = some m') :
    step P R m = some (.next m') := by
  rw [step, hfetch]
  simp only [Option.bind_eq_bind, Option.bind_some, hexec, hfail]
  rfl

theorem step_exit {stop : ℤ} {status : Int8} (hfetch : P.fetch m.pc = some (.exit status, stop)) :
    step P R m = some (.exit status m.current) := by
  rw [step, hfetch]
  rfl

theorem memoDispose_init (w n : UInt32) (H : Heap) : memoDispose (memoTable w n) H = some H := by
  unfold memoDispose memoTable
  generalize (w * (1 <<< ceilLog2 n)).toNat = k
  induction k with
  | zero => rfl
  | succ k ih => exact ih

/-- What is left when the log has been read out and nothing was memoized. -/
theorem finish_eq {ast : AstMachine} {node : Option NodeId} {H : Heap} {w n : UInt32}
    (hget : astGetParsedNode m.ast = some (ast, node)) (hlogs : ast.logs = [])
    (hrelease : releaseParsed ast.heap node = some H) (hmemo : m.memo = memoTable w n) :
    finish memoSize m = some (⟨0, ast.heap, node⟩, {
      stack := m.stack
      ast := { heap := H }
      tbl := {}
      memo := memoTable memoDefaultWindowSize memoSize }) := by
  have hback : astRollbackTx { ast with heap := H } 0 = some { ast with heap := H, logs := [] } := by
    unfold astRollbackTx
    rw [hlogs]
    rfl
  unfold finish runtimeReset1
  rw [hget, hmemo]
  simp only [Option.bind_eq_bind, Option.bind_some, hrelease, hback, memoDispose_init]
  rfl

/-- The parse that starts in `m` returns the status. -/
inductive Leads (P : Program) (R : Runtime) : Machine → Int8 → Prop
  | exit {m : Machine} {status : Int8} {current : ℕ}
    (h : step P R m = some (.exit status current)) : Leads P R m status
  | next {m m' : Machine} {status : Int8} (h : step P R m = some (.next m'))
    (hrest : Leads P R m' status) : Leads P R m status

theorem Ends.leads {status : Int8} {m₀ : Machine} (h : Ends ok P R S status m)
    (hstart : S.start P = some m₀) : Leads P R m₀ status := by
  obtain ⟨W, current, hvisits, -, hexit⟩ := h
  have hlast := Leads.exit hexit
  clear hexit
  induction hvisits with
  | start hstart' =>
    obtain rfl := Option.some.inj (hstart.symm.trans hstart')
    exact hlast
  | step _ _ hstep ih => exact ih (.next hstep hlast)

theorem Leads.of_next {status : Int8} (h : Leads P R m status) (hstep : step P R m = some (.next m')) :
    Leads P R m' status := by
  cases h with
  | exit h => cases hstep.symm.trans h
  | next h hrest =>
    cases hstep.symm.trans h
    exact hrest

theorem Leads.of_exit {status status' : Int8} {current : ℕ} (h : Leads P R m status)
    (hstep : step P R m = some (.exit status' current)) : status' = status := by
  cases h with
  | exit h =>
    cases hstep.symm.trans h
    rfl
  | next h => cases hstep.symm.trans h

/-- An instruction that does not fail is clean when it reads written cells. -/
theorem cleanStep_of_fetch {stop : ℤ} (hfetch : P.fetch m.pc = some (inst, stop))
    (hreads : inst.ReadsWritten W { m with pc := stop }) (hmask : ∀ tagId, inst ≠ .sMask tagId)
    (hfailed : ∀ m', exec R { m with pc := stop } inst ≠ some (.failed m')) :
    CleanStep P R W m where
  reads inst' stop' hfetch' := by
    cases hfetch.symm.trans hfetch'
    exact hreads
  frame inst' stop' m' hfetch' hexec := by
    cases hfetch.symm.trans hfetch'
    exact absurd hexec (hfailed m')
  mask inst' stop' hfetch' := by
    cases hfetch.symm.trans hfetch'
    exact hmask

end MainLoop

/-- `TNew 0; Any; TCapture 0; Exit 0`. -/
def captureProgram : Program where
  code := [34, 0, 11, 35, 0, 54, 0]
  base := 4096
  stub := 8192
  disjoint := by decide

theorem capture_reached : ∃ S, Reached CleanStep captureProgram 2 S ∧ S.ast.heap.next = 1 := by
  have htNew : captureProgram.fetch 4096 = some (.tNew 0, 4098) := by decide +kernel
  have hany : captureProgram.fetch 4098 = some (.any, 4099) := by decide +kernel
  have htCapture : captureProgram.fetch 4099 = some (.tCapture 0, 4101) := by decide +kernel
  have hexit : captureProgram.fetch 4101 = some (.exit 0, 4103) := by decide +kernel
  have hnew := @Visits.step CleanStep captureProgram { input := [97] } (runtimeInit 2) _ _ _
    (.start rfl) (cleanStep_of_fetch htNew trivial nofun nofun) (step_next htNew rfl)
  have hany := @Visits.step CleanStep captureProgram { input := [97] } (runtimeInit 2) _ _ _
    hnew (cleanStep_of_fetch hany trivial nofun nofun) (step_next hany rfl)
  have hcapture := @Visits.step CleanStep captureProgram { input := [97] } (runtimeInit 2) _ _ _
    hany (cleanStep_of_fetch htCapture trivial nofun nofun) (step_next htCapture rfl)
  refine ⟨_, .next (fun _ => {}) .init ⟨_, _, hcapture, cleanStep_of_fetch hexit trivial nofun nofun,
    step_exit hexit⟩ (finish_eq rfl rfl rfl rfl) (le_refl 1), rfl⟩

theorem reset_like_new_capture : ∃ S, S.ast.heap.next = 1 ∧
    LikeNew CleanStep captureProgram 2 S { input := [98] } (fun _ => { s := none, len := 0 }) ∧
      ∀ (s : PoolState) (rounds page : ℕ) (pool : Pool), s.Reachable →
        s.pool.reset rounds page = some pool → Pool.allocPage page {} = some pool := by
  obtain ⟨S, hreached, hnext⟩ := capture_reached
  exact ⟨S, hnext, reset_like_new hreached _ _⟩

/-- `SMask 0; SExists 0; Exit 0`. -/
def maskProgram : Program where
  code := [45, 0, 0, 48, 0, 0, 54, 0]
  base := 4096
  stub := 8192
  disjoint := by decide

/-- The token of a new mask is found to hold `s`. -/
def maskRuntime (s : Option ℕ) : Runtime where
  input := [97]
  tags := [[84]]
  uninit := fun _ => { s := s, len := 0 }

theorem maskProgram_accepts (stack : ℕ → ℤ) (H : Heap) (memo : Memo) : ∃ m,
    Ends (fun _ _ _ _ => True) maskProgram (maskRuntime (some 0)) ⟨stack, { heap := H }, {}, memo⟩ 0 m ∧
      m.ast = { heap := H } ∧ m.memo = memo ∧ m.stack stackBase = stackBase := by
  have hsMask : maskProgram.fetch 4096 = some (.sMask 0, 4099) := by decide +kernel
  have hsExists : maskProgram.fetch 4099 = some (.sExists 0, 4102) := by decide +kernel
  have hexit : maskProgram.fetch 4102 = some (.exit 0, 4104) := by decide +kernel
  have hmask := @Visits.step (fun _ _ _ _ => True) maskProgram (maskRuntime (some 0))
    ⟨stack, { heap := H }, {}, memo⟩ _ _ _ (.start rfl) trivial (step_next hsMask rfl)
  have hexists := @Visits.step (fun _ _ _ _ => True) maskProgram (maskRuntime (some 0))
    ⟨stack, { heap := H }, {}, memo⟩ _ _ _ hmask trivial (step_next hsExists rfl)
  exact ⟨_, ⟨_, _, hexists, trivial, step_exit hexit⟩, rfl, rfl, rfl⟩

/-- With `NULL` in the mask a new runtime rejects. -/
theorem maskProgram_rejects {status : Int8} {m : Machine}
    (h : Ends (fun _ _ _ _ => True) maskProgram (maskRuntime none) (runtimeInit 2) status m) :
    status = 1 := by
  have hsMask : maskProgram.fetch 4096 = some (.sMask 0, 4099) := by decide +kernel
  have hsExists : maskProgram.fetch 4099 = some (.sExists 0, 4102) := by decide +kernel
  have hexit : maskProgram.fetch 8194 = some (.exit 1, 8196) := by decide +kernel
  have hmask := (h.leads rfl).of_next (step_next hsMask rfl)
  have hexists := hmask.of_next (step_failed hsExists rfl rfl)
  exact (hexists.of_exit (step_exit hexit)).symm

/-- After a reset the mask can hold a token where a new runtime's holds none: the status differs. -/
theorem mask_not_like_new : ∃ S, Reached (fun _ _ _ _ => True) maskProgram 2 S ∧
    S.stack ≠ (runtimeInit 2).stack ∧
    ¬ LikeNew (fun _ _ _ _ => True) maskProgram 2 S (maskRuntime (some 0))
      (fun _ => { s := none, len := 0 }) := by
  obtain ⟨m, hends, hast, hmemo, hstack⟩ :=
    maskProgram_accepts stackInit {} (memoTable memoDefaultWindowSize 2)
  have hfinish := @finish_eq 2 m {} none {} _ _ (by rw [hast]; rfl) rfl rfl hmemo
  refine ⟨_, .next (fun _ => {}) .init hends hfinish (le_refl 0), ?_, ?_⟩
  · intro heq
    have hcell : m.stack stackBase = stackInit stackBase := congrFun heq stackBase
    rw [hstack] at hcell
    exact absurd hcell (by decide)
  · intro hlike
    obtain ⟨m', hends', hast', hmemo', -⟩ := maskProgram_accepts m.stack
      { mem := fun n => if n < 0 then {} else {}, freeList := [], next := 0 }
      (memoTable memoDefaultWindowSize 2)
    have hfinish' := @finish_eq 2 m' _ none _ _ _ (by rw [hast']; rfl) rfl rfl hmemo'
    obtain ⟨a', ha', hsame⟩ := hlike.answers _ (.parsed hends' hfinish')
    cases ha' with
    | error h hstatus => exact hstatus hsame.status.symm
    | parsed h => exact absurd (maskProgram_rejects h) (by decide)

end Moz.Vm1
