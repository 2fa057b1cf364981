import Moz.Libnez.Unlabel
import Moz.Libnez.Memo
import Moz.Node.Above

/-!
# The log and the memo table above freed nodes

The AST machine and the memo table do above freed nodes what they do on a new pool. The
nodes that the log and the table name have been handed out, so that retaining one is an
access to a node of the pool.
-/

namespace Moz

open Simulation (rel_bind rel_foldlM)

def AstLog.above (base : ℕ) : AstLog → AstLog
  | .link labelId node shift => .link labelId (node.map (· + base)) shift
  | log => log

def AstMachine.above (base : ℕ) (freed : NodeId → Node) (ast : AstMachine) : AstMachine where
  logs := ast.logs.map (AstLog.above base)
  lastLinked := ast.lastLinked.map (· + base)
  parsed := ast.parsed.map (· + base)
  heap := ast.heap.above base freed

/-- The pool is bounded, and the nodes the log names are handed out. -/
structure AstMachine.Bounded (ast : AstMachine) : Prop where
  heap : ast.heap.Bounded
  logs : ∀ log ∈ ast.logs, ∀ n ∈ log.nodeRef, n < ast.heap.next
  lastLinked : ∀ n ∈ ast.lastLinked, n < ast.heap.next

def MemoResult.above (base : ℕ) : MemoResult → MemoResult
  | .result node => .result (node + base)
  | .null => .null
  | .failed => .failed

def MemoEntry.above (base : ℕ) (e : MemoEntry) : MemoEntry := { e with result := e.result.above base }

def Memo.above (base : ℕ) (m : Memo) : Memo := { m with ary := m.ary.map (MemoEntry.above base) }

def Memo.Bounded (next : ℕ) (m : Memo) : Prop :=
  ∀ e ∈ m.ary, ∀ n, e.result = .result n → n < next

/-- `ast'` is `ast` above freed nodes. -/
structure AstMachine.Follows (base : ℕ) (freed : NodeId → Node) (low : ℕ) (ast ast' : AstMachine) :
    Prop where
  eq : ast' = ast.above base freed
  bounded : ast.Bounded
  low : low ≤ ast.heap.next

structure CreatedFollows (base : ℕ) (freed : NodeId → Node) (low : ℕ) (r r' : AstMachine × NodeId) :
    Prop where
  ast : AstMachine.Follows base freed low r.1 r'.1
  node : r'.2 = r.2 + base
  lt : r.2 < r.1.heap.next

structure ParsedFollows (base : ℕ) (freed : NodeId → Node) (low : ℕ)
    (r r' : AstMachine × Option NodeId) : Prop where
  ast : AstMachine.Follows base freed low r.1 r'.1
  node : r'.2 = r.2.map (· + base)

structure TableFollows (base : ℕ) (freed : NodeId → Node) (low : ℕ) (r r' : Memo × Heap) : Prop where
  memo : r'.1 = r.1.above base
  bounded : r.1.Bounded r.2.next
  heap : Heap.Follows base freed low r.2 r'.2

section Log

variable {base low : ℕ} {freed : NodeId → Node} {H H' : Heap} {ast ast' : AstMachine} {o : NodeId}
  {log : AstLog}

theorem AstLog.above_getPos (log : AstLog) : (log.above base).getPos = log.getPos := by
  cases log <;> rfl

theorem AstLog.above_of_none (h : log.nodeRef = none) : log.above base = log := by
  cases log with
  | link labelId node shift =>
    cases h
    rfl
  | tag | pop | replace | push | leftFold | new | capture => rfl

theorem AstMachine.Follows.heap (h : AstMachine.Follows base freed low ast ast') :
    Heap.Follows base freed ast.heap.next ast.heap ast'.heap := by
  rw [h.eq]
  exact .of_above h.bounded.heap

theorem AstMachine.Follows.logs (h : AstMachine.Follows base freed low ast ast') :
    ast'.logs = ast.logs.map (AstLog.above base) := by
  rw [h.eq]
  rfl

theorem AstMachine.Follows.weaken {low' : ℕ} (h : AstMachine.Follows base freed low ast ast')
    (hle : low' ≤ low) : AstMachine.Follows base freed low' ast ast' :=
  ⟨h.eq, h.bounded, hle.trans h.low⟩

theorem AstMachine.Follows.withHeap (h : AstMachine.Follows base freed low ast ast')
    (hheap : Heap.Follows base freed ast.heap.next H H') :
    AstMachine.Follows base freed low { ast with heap := H } { ast' with heap := H' } where
  eq := by
    rw [h.eq, hheap.eq]
    rfl
  bounded := ⟨hheap.bounded, fun log hlog n hn => (h.bounded.logs log hlog n hn).trans_le hheap.low,
    fun n hn => (h.bounded.lastLinked n hn).trans_le hheap.low⟩
  low := h.low.trans hheap.low

theorem AstMachine.Follows.withLogs (h : AstMachine.Follows base freed low ast ast')
    (logs : List AstLog) (hlogs : ∀ log ∈ logs, ∀ n ∈ log.nodeRef, n < ast.heap.next) :
    AstMachine.Follows base freed low { ast with logs := logs }
      { ast' with logs := logs.map (AstLog.above base) } where
  eq := by
    rw [h.eq]
    rfl
  bounded := ⟨h.bounded.heap, hlogs, h.bounded.lastLinked⟩
  low := h.low

theorem astLog_follows (h : AstMachine.Follows base freed low ast ast') (log : AstLog)
    (hlog : ∀ n ∈ log.nodeRef, n < ast.heap.next) :
    AstMachine.Follows base freed low (astLog ast log) (astLog ast' (log.above base)) := by
  have hlogs : ∀ l ∈ ast.logs ++ [log], ∀ n ∈ l.nodeRef, n < ast.heap.next := by
    intro l hl
    rcases List.mem_append.1 hl with hl | hl
    · exact h.bounded.logs l hl
    · rw [List.mem_singleton.1 hl]
      exact hlog
  have hwith := h.withLogs _ hlogs
  rw [List.map_append, ← h.logs] at hwith
  exact hwith

theorem astLog_follows_plain (h : AstMachine.Follows base freed low ast ast')
    (hlog : log.nodeRef = none) :
    AstMachine.Follows base freed low (astLog ast log) (astLog ast' log) := by
  have hfollows := astLog_follows h log (by simp [hlog])
  rwa [AstLog.above_of_none hlog] at hfollows

theorem setLog_follows (h : AstMachine.Follows base freed low ast ast') (cur : ℕ) (log : AstLog)
    (hlog : ∀ n ∈ log.nodeRef, n < ast.heap.next) :
    AstMachine.Follows base freed low (ast.setLog cur log) (ast'.setLog cur (log.above base)) := by
  have hlogs : ∀ l ∈ ast.logs.set cur log, ∀ n ∈ l.nodeRef, n < ast.heap.next := by
    intro l hl
    rcases List.mem_or_eq_of_mem_set hl with hl | rfl
    · exact h.bounded.logs l hl
    · exact hlog
  have hwith := h.withLogs _ hlogs
  rw [List.map_set, ← h.logs] at hwith
  exact hwith

theorem astLogLink_follows (h : AstMachine.Follows base freed low ast ast') (labelId : UInt16)
    (node : Option NodeId) (hnode : ∀ n ∈ node, n < ast.heap.next) :
    AstMachine.Follows base freed low (astLogLink ast labelId node)
      (astLogLink ast' labelId (node.map (· + base))) := by
  -- the link is logged on the pool in which the node is retained
  have hlink : ∀ {ast ast' : AstMachine}, AstMachine.Follows base freed low ast ast' →
      (∀ n ∈ node, n < ast.heap.next) → AstMachine.Follows base freed low
        { astLog ast (.link labelId node 0) with lastLinked := node }
        { astLog ast' (.link labelId (node.map (· + base)) 0) with
          lastLinked := node.map (· + base) } := by
    intro ast ast' h hnode
    have hlog := astLog_follows h (.link labelId node 0) hnode
    refine ⟨?_, ⟨hlog.bounded.heap, hlog.bounded.logs, hnode⟩, hlog.low⟩
    have heq := congrArg (fun a : AstMachine => { a with lastLinked := node.map (· + base) }) hlog.eq
    exact heq
  cases node with
  | none => exact hlink h hnode
  | some n => exact hlink (h.withHeap (nodeRetain_follows h.heap (hnode n rfl))) hnode

theorem constructLeftLoop_follows {logs : List AstLog} {newnode : NodeId} (tail fuel : ℕ)
    (hlogs : ∀ log ∈ logs, ∀ n ∈ log.nodeRef, n < low) (hnew : newnode < low) :
    ∀ {H H' : Heap} (cur n : ℕ), Heap.Follows base freed low H H' →
      Option.Rel (Heap.Follows base freed low) (constructLeftLoop logs tail newnode fuel H cur n)
        (constructLeftLoop (logs.map (AstLog.above base)) tail (newnode + base) fuel H' cur n) := by
  induction fuel with
  | zero =>
    intro H H' cur n h
    exact .none
  | succ fuel ih =>
    intro H H' cur n h
    rw [constructLeftLoop, constructLeftLoop]
    split_ifs with htail
    · exact .some h
    · rw [List.getElem?_map]
      cases hget : logs[cur]? with
      | none => exact ih (cur + 1) n h
      | some log =>
        cases log with
        | tag | pop | replace | push | leftFold | new | capture => exact ih (cur + 1) n h
        | link labelId child shift =>
          cases child with
          | none => exact ih (cur + shift + 1) (n + 1) h
          | some child =>
            have hchild : child < low := hlogs _ (List.mem_of_getElem? hget) child rfl
            apply rel_bind (nodeSet_follows h hnew hchild n labelId)
            exact fun _ _ h => ih (cur + shift + 1) (n + 1) h

theorem constructLeft_follows (h : AstMachine.Follows base freed low ast ast') (L : CreateNode)
    (tail : ℕ) : Option.Rel (CreatedFollows base freed low) (constructLeft ast L tail)
      (constructLeft ast' L tail) := by
  obtain ⟨H₁, H₁', o, hnew, hnew', ho, hfollows⟩ := nodeNew_follows h.heap L.tag L.spos
    (UInt32.ofInt ((L.epos : ℤ) - L.spos)) L.objSize L.value
  have hlogs : ∀ log ∈ ast.logs, ∀ n ∈ log.nodeRef, n < H₁.next :=
    fun log hlog n hn => (h.bounded.logs log hlog n hn).trans_le hfollows.low
  have hcreated : ∀ {H H' : Heap}, Heap.Follows base freed H₁.next H H' →
      CreatedFollows base freed low ({ ast with heap := H }, o) ({ ast' with heap := H' }, o + base) :=
    fun hH => ⟨h.withHeap (hH.weaken hfollows.low), rfl, ho.trans_le hH.low⟩
  have hstart : Heap.Follows base freed H₁.next H₁ H₁' := ⟨hfollows.eq, hfollows.bounded, le_rfl⟩
  unfold constructLeft
  dsimp only
  rw [hnew, hnew']
  dsimp only
  split_ifs
  · exact .some (hcreated hstart)
  · have hloop := constructLeftLoop_follows tail (ast.logs.length + 2) hlogs ho L.head 0 hstart
    have hlength : ast'.logs.length = ast.logs.length := by rw [h.logs, List.length_map]
    rw [← h.logs, ← hlength] at hloop
    rw [← hlength]
    exact rel_bind hloop fun _ _ hH => .some (hcreated hH)

/-- The node that is closed is linked at the entry `k`. -/
theorem closeNode_follows {r r' : AstMachine × NodeId} (h : CreatedFollows base freed low r r')
    (k : ℕ) (labelId : UInt16) (shift : ℕ) : AstMachine.Follows base freed low
      (AstMachine.setLog { r.1 with heap := nodeRetain r.1.heap r.2 } k (.link labelId (some r.2) shift))
      (AstMachine.setLog { r'.1 with heap := nodeRetain r'.1.heap r'.2 } k
        (.link labelId (some r'.2) shift)) := by
  rw [h.node]
  apply setLog_follows (h.ast.withHeap (nodeRetain_follows h.ast.heap h.lt)) k
    (.link labelId (some r.2) shift)
  intro n hn
  obtain rfl := Option.some.inj hn
  exact h.lt

theorem astCreateNodeLoop_follows (fuel : ℕ) : ∀ {ast ast' : AstMachine} (pushed : Option ℕ) (cur : ℕ)
    (L : CreateNode), AstMachine.Follows base freed low ast ast' →
      Option.Rel (CreatedFollows base freed low) (astCreateNodeLoop fuel ast pushed cur L)
        (astCreateNodeLoop fuel ast' pushed cur L) := by
  induction fuel with
  | zero =>
    intro ast ast' pushed cur L h
    exact .none
  | succ fuel ih =>
    intro ast ast' pushed cur L h
    have hget : ∀ {ast ast' : AstMachine}, AstMachine.Follows base freed low ast ast' →
        ∀ k : ℕ, ast'.logs[k]? = (ast.logs[k]?).map (AstLog.above base) := by
      intro ast ast' h k
      rw [h.logs, List.getElem?_map]
    have hlength : ast'.logs.length = ast.logs.length := by rw [h.logs, List.length_map]
    rw [astCreateNodeLoop, astCreateNodeLoop, hget h]
    cases hcur : ast.logs[cur]? with
    | none =>
      rw [Option.map_none, hlength]
      exact constructLeft_follows h L _
    | some log =>
      cases log with
      | new | capture | tag | replace | link => exact ih _ _ _ h
      | leftFold pos labelId =>
        apply rel_bind (constructLeft_follows h L cur)
        exact fun r r' hr => ih _ _ _ (closeNode_follows hr cur labelId 0)
      | pop labelId =>
        cases pushed with
        | none => exact .none
        | some k =>
          apply rel_bind (constructLeft_follows h L cur)
          exact fun r r' hr => .some ⟨closeNode_follows hr k labelId (cur - k), hr.node, hr.lt⟩
      | push =>
        simp only [Option.map_some, AstLog.above]
        have hpos : AstLog.getPos ∘ AstLog.above base = AstLog.getPos :=
          funext AstLog.above_getPos
        rw [hget h, Option.map_map, hpos]
        apply rel_bind (ih _ _ _ h)
        intro r r' hr
        rw [hget hr.ast]
        cases r.1.logs[cur]? with
        | none => exact .none
        | some log =>
          cases log with
          | link => exact ih _ _ _ hr.ast
          | new | capture | tag | replace | leftFold | pop | push => exact .none

theorem astCreateNode_follows (h : AstMachine.Follows base freed low ast ast') (cur : ℕ)
    (pushed : Option ℕ) : Option.Rel (CreatedFollows base freed low) (astCreateNode ast cur pushed)
      (astCreateNode ast' cur pushed) := by
  have hpos : AstLog.getPos ∘ AstLog.above base = AstLog.getPos := funext AstLog.above_getPos
  unfold astCreateNode
  rw [h.logs, List.getElem?_map, List.length_map, Option.map_map, hpos]
  exact astCreateNodeLoop_follows _ pushed cur _ h

theorem astRollbackEntry_follows (h : Heap.Follows base freed low H H') (log : AstLog) :
    Option.Rel (Heap.Follows base freed low) (astRollbackEntry H log)
      (astRollbackEntry H' (log.above base)) := by
  cases log with
  | link labelId node shift =>
    cases node with
    | none => exact .some h
    | some o => exact nodeRelease_follows h o
  | tag | pop | replace | push | leftFold | new | capture => exact .some h

theorem astRollbackTx_follows (h : AstMachine.Follows base freed low ast ast') (tx : ℕ) :
    Option.Rel (AstMachine.Follows base freed low) (astRollbackTx ast tx) (astRollbackTx ast' tx) := by
  unfold astRollbackTx
  rw [h.logs, List.length_map]
  by_cases htx : tx ≤ ast.logs.length
  · simp only [guard, if_pos htx]
    rw [← List.map_drop]
    apply rel_bind (rel_foldlM (ast.logs.drop tx) (fun log _ H H' h => astRollbackEntry_follows h log)
      h.heap)
    intro H H' hH
    have hcut := (h.withHeap hH).withLogs (ast.logs.take tx)
      fun log hlog n hn =>
        (h.bounded.logs log (List.mem_of_mem_take hlog) n hn).trans_le hH.low
    rw [List.map_take] at hcut
    exact .some hcut
  · simp only [guard, if_neg htx]
    exact .none

theorem astCommitTx_follows (h : AstMachine.Follows base freed low ast ast') (labelId : UInt16)
    (tx : ℕ) : Option.Rel (AstMachine.Follows base freed low) (astCommitTx ast labelId tx)
      (astCommitTx ast' labelId tx) := by
  apply rel_bind (astCreateNode_follows h tx none)
  intro r r' hr
  have hsame : AstMachine.Follows base freed r.1.heap.next r.1 r'.1 :=
    ⟨hr.ast.eq, hr.ast.bounded, le_rfl⟩
  apply rel_bind (astRollbackTx_follows hsame tx)
  intro ast₁ ast₁' h₁
  rw [hr.node]
  have hlink := astLogLink_follows h₁ labelId (some r.2)
    fun n hn => (Option.some.inj hn ▸ hr.lt).trans_le h₁.low
  exact .some (hlink.weaken hr.ast.low)

theorem astFirstNew_above (logs : List AstLog) : ∀ cur,
    astFirstNew (logs.map (AstLog.above base)) cur = astFirstNew logs cur := by
  induction logs with
  | nil =>
    intro cur
    rfl
  | cons log logs ih =>
    intro cur
    cases log with
    | new => rfl
    | tag | pop | replace | push | leftFold | link | capture => exact ih (cur + 1)

theorem astGetParsedNode_follows (h : AstMachine.Follows base freed low ast ast') :
    Option.Rel (ParsedFollows base freed low) (astGetParsedNode ast) (astGetParsedNode ast') := by
  have hparsed : ast'.parsed = ast.parsed.map (· + base) := by
    rw [h.eq]
    rfl
  have hnil : ast'.logs = [] ↔ ast.logs = [] := by rw [h.logs, List.map_eq_nil_iff]
  unfold astGetParsedNode
  rw [hparsed]
  cases ast.parsed with
  | some parsed => exact .some ⟨h, rfl⟩
  | none =>
    dsimp only [Option.map_none]
    by_cases hlogs : ast.logs = []
    · rw [if_pos hlogs, if_pos (hnil.2 hlogs)]
      exact .some ⟨h, rfl⟩
    · rw [if_neg hlogs, if_neg (fun h => hlogs (hnil.1 h)), h.logs, astFirstNew_above]
      cases astFirstNew ast.logs 0 with
      | none => exact .none
      | some cur =>
        apply rel_bind (astCreateNode_follows h cur none)
        intro r r' hr
        have hsame : AstMachine.Follows base freed r.1.heap.next r.1 r'.1 :=
          ⟨hr.ast.eq, hr.ast.bounded, le_rfl⟩
        apply rel_bind (astRollbackTx_follows hsame 0)
        intro ast₁ ast₁' h₁
        rw [hr.node]
        have hretain := h₁.withHeap (nodeRetain_follows h₁.heap (hr.lt.trans_le h₁.low))
        refine .some ⟨⟨?_, ⟨hretain.bounded.heap, hretain.bounded.logs, hretain.bounded.lastLinked⟩,
          hr.ast.low.trans hretain.low⟩, rfl⟩
        exact congrArg (fun a : AstMachine => { a with parsed := some (r.2 + base) }) hretain.eq

variable {memo : Memo}

theorem memoRelease_follows (h : Heap.Follows base freed low H H') (e : MemoEntry) :
    Option.Rel (Heap.Follows base freed low) (memoRelease H e) (memoRelease H' (e.above base)) := by
  unfold memoRelease
  dsimp only [MemoEntry.above]
  cases e.result with
  | result node => exact nodeRelease_follows h node
  | null | failed => exact .some h

theorem Memo.Bounded.mono {next next' : ℕ} (h : memo.Bounded next) (hle : next ≤ next') :
    memo.Bounded next' :=
  fun e he n hn => (h e he n hn).trans_le hle

theorem Memo.Bounded.set {next : ℕ} (h : memo.Bounded next) (k : ℕ) {e : MemoEntry}
    (he : ∀ n, e.result = .result n → n < next) :
    Memo.Bounded next { memo with ary := memo.ary.set k e } := by
  intro e' he'
  rcases List.mem_or_eq_of_mem_set he' with he' | rfl
  · exact h e' he'
  · exact he

theorem memoGet_above (memo : Memo) (pos : UInt64) (memoId : UInt32) (state : UInt8) :
    memoGet (memo.above base) pos memoId state =
      (memoGet memo pos memoId state).map (MemoEntry.above base) := by
  have hget : (memo.above base).ary[memo.index pos memoId]? =
      (memo.ary[memo.index pos memoId]?).map (MemoEntry.above base) := List.getElem?_map
  unfold memoGet
  show ((memo.above base).ary[memo.index pos memoId]?).bind _ = _
  rw [hget]
  cases memo.ary[memo.index pos memoId]? with
  | none => rfl
  | some e =>
    show (if e.hash = memo.hash pos memoId ∧ e.state = state.toUInt32 then some (e.above base)
      else none) = Option.map _ (if e.hash = memo.hash pos memoId ∧ e.state = state.toUInt32 then some e
        else none)
    split_ifs <;> rfl

/-- The entry that is found holds a node that was handed out. -/
theorem Memo.Bounded.get {memo : Memo} {next : ℕ} (h : memo.Bounded next) {pos : UInt64}
    {memoId : UInt32} {state : UInt8} {entry : MemoEntry}
    (hget : memoGet memo pos memoId state = some entry) {n : NodeId} (hn : entry.result = .result n) :
    n < next := by
  obtain ⟨e, he, hget⟩ := Option.bind_eq_some_iff.1 hget
  split_ifs at hget
  obtain rfl := Option.some.inj hget
  exact h e (List.mem_of_getElem? he) n hn

/-- What `memo_set` and `memo_fail` do to the entry they find. -/
theorem memoWrite_follows (h : Heap.Follows base freed low H H') {next : ℕ} (hnext : next ≤ low)
    (hmemo : memo.Bounded next) (k : ℕ) (write : MemoEntry → MemoEntry)
    (write' : MemoEntry → MemoEntry) (hwrite : ∀ e, write' (e.above base) = (write e).above base)
    (hresult : ∀ e n, (write e).result = .result n → n < next) :
    Option.Rel (TableFollows base freed low)
      (memo.ary[k]?.bind fun e => (memoRelease H e).bind fun H =>
        some ({ memo with ary := memo.ary.set k (write e) }, H))
      ((memo.above base).ary[k]?.bind fun e => (memoRelease H' e).bind fun H' =>
        some ({ memo.above base with ary := (memo.above base).ary.set k (write' e) }, H')) := by
  have hget : (memo.above base).ary[k]? = (memo.ary[k]?).map (MemoEntry.above base) :=
    List.getElem?_map
  rw [hget]
  cases memo.ary[k]? with
  | none => exact .none
  | some e =>
    apply rel_bind (memoRelease_follows h e)
    intro H₁ H₁' h₁
    refine .some ⟨?_, ?_, h₁⟩
    · rw [hwrite]
      show ({ memo.above base with ary := (memo.ary.map _).set k _ } : Memo) = _
      rw [← List.map_set]
      rfl
    · exact (hmemo.set k (hresult e)).mono (hnext.trans h₁.low)

theorem memoSet_follows (h : Heap.Follows base freed H.next H H') (hmemo : memo.Bounded H.next)
    (pos : UInt64) (memoId : UInt32) {result : Option NodeId} (hresult : ∀ n ∈ result, n < H.next)
    (consumed state : UInt32) : Option.Rel (TableFollows base freed H.next)
      (memoSet memo H pos memoId result consumed state)
      (memoSet (memo.above base) H' pos memoId (result.map (· + base)) consumed state) := by
  cases result with
  | none =>
    apply memoWrite_follows h le_rfl hmemo (memo.index pos memoId)
    · exact fun _ => rfl
    · exact fun _ _ hn => by cases hn
  | some node =>
    apply memoWrite_follows (nodeRetain_follows h (hresult node rfl)) le_rfl hmemo
      (memo.index pos memoId)
    · exact fun _ => rfl
    · intro e n hn
      cases hn
      exact hresult node rfl

theorem memoFail_follows (h : Heap.Follows base freed H.next H H') (hmemo : memo.Bounded H.next)
    (pos : UInt64) (memoId : UInt32) : Option.Rel (TableFollows base freed H.next)
      (memoFail memo H pos memoId) (memoFail (memo.above base) H' pos memoId) := by
  apply memoWrite_follows h le_rfl hmemo (memo.index pos memoId)
  · exact fun _ => rfl
  · exact fun _ _ hn => by cases hn

theorem memoDispose_follows (h : Heap.Follows base freed low H H') (memo : Memo) :
    Option.Rel (Heap.Follows base freed low) (memoDispose memo H)
      (memoDispose (memo.above base) H') :=
  rel_foldlM memo.ary (fun e _ _ _ h => memoRelease_follows h e) h

mutual

theorem isTree_above : ∀ (t : Tree) (n : NodeId),
    IsTree (H.above base freed) (n + base) t ↔ IsTree H n t
  | .node tag value pos len children, n => by
    rw [IsTree, IsTree, above_mem, Node.above_entry, isForest_above children]
    rfl

theorem isForest_above : ∀ (children : List (UInt16 × Tree)) (entry : List (Option NodeId)),
    IsForest (H.above base freed) (entry.map (Option.map (· + base))) children ↔
      IsForest H entry children
  | [], [] => by
    rw [List.map_nil, IsForest, IsForest]
  | (labelId, t) :: children, some n :: entry => by
    rw [List.map_cons, Option.map_some, IsForest, IsForest, isTree_above t, isForest_above children,
      above_mem]
    rfl
  | (labelId, t) :: children, none :: entry => by
    simp [IsForest]
  | (labelId, t) :: children, [] => by
    simp [IsForest]
  | [], c :: entry => by
    simp [IsForest]

end

end Log

end Moz
