import Moz.Libnez.AstTransaction
import Moz.Libnez.Memo
import Moz.Node.Counting

/-!
# The owners of nodes

References to nodes are held by child arrays, by the links of the log, by the
entries of the memo table and by callers. Each operation of `node.c`, `ast.c` and
`memo.c` moves references between them; none is lost, and a node is freed when its
last reference goes.
-/

namespace Moz

def MemoResult.nodeRef : MemoResult → Option NodeId
  | .result node => some node
  | .null | .failed => none

def MemoEntry.nodeRef (e : MemoEntry) : Option NodeId := e.result.nodeRef

/-- The references that the entries of a memo table hold. -/
def Memo.refs (m : Memo) : Multiset NodeId := (m.ary.filterMap MemoEntry.nodeRef : List NodeId)

theorem memoTable_refs (w n : UInt32) : (memoTable w n).refs = 0 := by
  unfold memoTable Memo.refs
  rw [Multiset.coe_eq_zero, List.filterMap_eq_nil_iff]
  intro e he
  rw [List.eq_of_mem_replicate he]
  rfl

section Memo

variable {H : Heap} {m : Memo} {e : MemoEntry} {owners : Multiset NodeId} {index : ℕ} {n : NodeId}

theorem memoRelease_of_none (H : Heap) (e : MemoEntry) (h : e.nodeRef = none) :
    memoRelease H e = some H := by
  unfold memoRelease
  unfold MemoEntry.nodeRef at h
  cases hresult : e.result with
  | null | failed => rfl
  | result node =>
    rw [hresult] at h
    cases h

theorem memoRelease_of_some (H : Heap) (e : MemoEntry) (n : NodeId) (h : e.nodeRef = some n) :
    memoRelease H e = nodeRelease H n := by
  unfold memoRelease
  unfold MemoEntry.nodeRef at h
  cases hresult : e.result with
  | null | failed =>
    rw [hresult] at h
    cases h
  | result node =>
    rw [hresult] at h
    cases h
    rfl

def MemoEntry.refs (e : MemoEntry) : Multiset NodeId := e.nodeRef.toList

theorem MemoEntry.refs_of_result (h : e.result = .result n) : e.refs = {n} := by
  simp [MemoEntry.refs, MemoEntry.nodeRef, MemoResult.nodeRef, h]

theorem MemoEntry.refs_of_no_result (h : ∀ n, e.result ≠ .result n) : e.refs = 0 := by
  unfold MemoEntry.refs MemoEntry.nodeRef MemoResult.nodeRef
  cases hresult : e.result with
  | null | failed => rfl
  | result node => exact absurd hresult (h node)

theorem Memo.mem_refs (h : m.ary[index]? = some e) (hn : e.result = .result n) : n ∈ m.refs := by
  rw [Memo.refs, Multiset.mem_coe, List.mem_filterMap]
  refine ⟨e, List.mem_of_getElem? h, ?_⟩
  rw [MemoEntry.nodeRef, hn]
  rfl

theorem Memo.refs_set (h : m.ary[index]? = some e) (e' : MemoEntry) :
    e.refs + Memo.refs { m with ary := m.ary.set index e' } = e'.refs + m.refs := by
  obtain ⟨hlt, hget⟩ := List.getElem?_eq_some_iff.1 h
  have hsplit : m.ary = m.ary.take index ++ e :: m.ary.drop (index + 1) := by
    rw [← hget, ← List.drop_eq_getElem_cons hlt, List.take_append_drop]
  have hset : m.ary.set index e' = m.ary.take index ++ e' :: m.ary.drop (index + 1) :=
    List.set_eq_take_append_cons_drop.trans (if_pos hlt)
  have hcons : ∀ (e : MemoEntry) (l : List MemoEntry),
      (((e :: l).filterMap MemoEntry.nodeRef : List NodeId) : Multiset NodeId) =
        e.refs + (l.filterMap MemoEntry.nodeRef : List NodeId) := by
    intro e l
    unfold MemoEntry.refs
    cases he : e.nodeRef with
    | none => simp [he]
    | some n => simp [he]
  have htake : ∀ e : MemoEntry,
      (((m.ary.take index ++ e :: m.ary.drop (index + 1)).filterMap MemoEntry.nodeRef :
        List NodeId) : Multiset NodeId) = ((m.ary.take index).filterMap MemoEntry.nodeRef :
          List NodeId) + (e.refs + ((m.ary.drop (index + 1)).filterMap MemoEntry.nodeRef :
            List NodeId)) := by
    intro e
    rw [List.filterMap_append, ← Multiset.coe_add, hcons]
  unfold Memo.refs
  rw [hset, htake]
  conv_rhs => rw [hsplit, htake]
  abel

/-- An entry that is overwritten gives its reference back. -/
theorem Heap.Balanced.memoRelease (h : H.Balanced (e.refs + owners)) :
    ∃ H', memoRelease H e = some H' ∧ H.Moves H' owners := by
  unfold MemoEntry.refs at h
  cases he : e.nodeRef with
  | none =>
    rw [he] at h
    refine ⟨H, memoRelease_of_none H e he, Heap.Balanced.moves ?_⟩
    simpa using h
  | some n =>
    rw [he] at h
    have h' : H.Balanced (n ::ₘ owners) := by simpa using h
    obtain ⟨H', hrun, hmoves, -⟩ := h'.release
    exact ⟨H', (memoRelease_of_some H e n he).trans hrun, hmoves⟩

theorem Heap.Balanced.releaseEach {α : Type} {step : Heap → α → Option Heap}
    {ref : α → Option NodeId} (hnone : ∀ H a, ref a = none → step H a = some H)
    (hsome : ∀ H a o, ref a = some o → step H a = nodeRelease H o) {entries : List α}
    (h : H.Balanced ((entries.filterMap ref : List NodeId) + owners)) :
    ∃ H', entries.foldlM step H = some H' ∧ H.Moves H' owners := by
  obtain ⟨H', live', hrun, hok, hswept⟩ := releaseEach_spec hnone hsome entries h
  exact ⟨H', hrun, hok.moves_of_swept hswept (releaseEach_drains hnone hsome entries hrun)⟩

end Memo

section Create

variable {H H₁ H' : Heap} {ast ast' : AstMachine} {owners ext : Multiset NodeId} {o n : NodeId}

/-- Nodes are added; of the others those that nobody refers to stay so, and no others become so. -/
structure Heap.Builds (H H' : Heap) : Prop where
  live : H.live ⊆ H'.live
  next : H.next ≤ H'.next
  zero : ∀ n ∈ H.live, H'.refc n = 0 ↔ H.refc n = 0

theorem Heap.Builds.refl (H : Heap) : H.Builds H where
  live := subset_rfl
  next := le_rfl
  zero _ _ := Iff.rfl

theorem Heap.Builds.trans (h : H.Builds H₁) (h' : H₁.Builds H') : H.Builds H' where
  live := h.live.trans h'.live
  next := h.next.trans h'.next
  zero n hn := (h'.zero n (h.live hn)).trans (h.zero n hn)

theorem Heap.Builds.grows (h : H.Builds H') (owners' : Multiset NodeId) : H.Grows H' owners' where
  live := h.live
  next := h.next
  kept n hn h0 := (h.zero n hn).1 h0
  fresh n hn h0 := .inl ((h.zero n hn).2 h0)

/-- Retaining a node that is new or has references already. -/
theorem Heap.Builds.retain (h : H.Builds H') (hbalanced : H'.Balanced owners) (hn : n ∈ H'.live)
    (hnew : n ∈ H.live → H.refc n ≠ 0) : H.Builds (nodeRetain H' n) where
  live := h.live
  next := h.next
  zero m hm := by
    by_cases hmn : m = n
    · subst hmn
      rw [nodeRetain_refc_self]
      have := hbalanced.nonneg hn
      have := hnew hm
      omega
    · rw [nodeRetain_refc_of_ne H' hmn]
      exact h.zero m hm

theorem nodeNew_next (H : Heap) (tag : Option (List UInt8)) (str : ℕ) (len : UInt32)
    (elmSize : ℕ) (value : Option (List UInt8)) :
    H.next ≤ (nodeNew H tag str len elmSize value).1.next := by
  unfold nodeNew nodeAlloc
  cases H.freeList with
  | nil => exact Nat.le_succ H.next
  | cons o freeList => exact le_rfl

theorem Heap.Balanced.new (h : H.Balanced owners) (tag : Option (List UInt8)) (str : ℕ)
    (len : UInt32) (elmSize : ℕ) (value : Option (List UInt8)) :
    ∃ H' o, nodeNew H tag str len elmSize value = (H', o) ∧ o ∉ H.live ∧ o ∈ H'.live ∧
      H'.Balanced owners ∧ H.Builds H' ∧ H'.refc o = 0 ∧
      (H'.mem o).entry = List.replicate elmSize none := by
  obtain ⟨H', o, hnew, hfresh, howned, hother, ho, hcovered⟩ :=
    nodeNew_spec h tag str len elmSize value
  have hlive := howned.live_eq (hcovered H.covered_live)
  refine ⟨H', o, hnew, hfresh, ?_, howned.balanced (hcovered H.covered_live), ?_, ?_, ?_⟩
  · rw [← hlive]
    exact Finset.mem_insert_self o H.live
  · constructor
    · rw [← hlive]
      exact Finset.subset_insert o H.live
    · have hnext := nodeNew_next H tag str len elmSize value
      rwa [hnew] at hnext
    · intro n hn
      rw [Heap.refc, hother n (ne_of_mem_of_not_mem hn hfresh), ← Heap.refc]
  · rw [Heap.refc, ho]
    rfl
  · rw [ho]
    rfl

theorem nodeSet_empty (h : H.Balanced owners) (ho : o ∈ H.live) (hn : n ∈ owners) (hne : o ≠ n)
    {index : ℕ} {labelId : UInt16} (hslot : ∀ k, index ≤ k → nodeGet H o k = none) :
    ∃ H', nodeSet H o index labelId n = some H' ∧ H'.Balanced owners ∧ H.Builds H' ∧
      o ∈ H'.live ∧ H'.refc o = H.refc o ∧ ∀ k, index + 1 ≤ k → nodeGet H' o k = none := by
  have hlive := h.mem_of_owner hn
  have hget := hslot index le_rfl
  have ho₁ : (nodeRetain H n).mem o = H.mem o := H.set_mem_of_ne _ hne
  have hget₁ : ∀ k, nodeGet (nodeRetain H n) o k = nodeGet H o k := by
    intro k
    rw [nodeGet, ho₁, ← nodeGet]
  refine ⟨(nodeRetain H n).fillSlot o index labelId n, ?_, ?_, ?_, ho, ?_, ?_⟩
  · rw [nodeSet_eq H hne, hget, Option.map_some]
  · apply HeapOwned.fillSlot (h.retain hlive) ho hne
    rw [hget₁]
    exact hget
  · have hbuilds := (Heap.Builds.refl H).retain h hlive fun _ => (h.owned.pos_of_owner hn).ne'
    constructor
    · exact hbuilds.live
    · exact hbuilds.next
    · intro m hm
      rw [Heap.fillSlot_refc _ hne]
      exact hbuilds.zero m hm
  · rw [Heap.fillSlot_refc _ hne, nodeRetain_refc_of_ne H hne]
  · intro k hk
    have hslot' := hslot k (by omega)
    unfold nodeGet at hslot' ⊢
    rw [Heap.fillSlot_mem_self, ho₁, List.getElem?_set_ne (by omega)]
    by_cases hlt : k < (H.mem o).entry.length
    · rwa [List.getElem?_append_left hlt]
    · rw [List.getElem?_append_right (Nat.le_of_not_lt hlt), List.getElem?_replicate]
      split_ifs <;> rfl

/-- The loop of `constructLeft` fills the slots of a node from left to right. -/
theorem constructLeftLoop_builds {logs : List AstLog} {tail newnode : ℕ}
    (hlogs : logRefs logs ≤ owners) (fuel : ℕ) : ∀ {H H' : Heap} {cur n : ℕ},
    constructLeftLoop logs tail newnode fuel H cur n = some H' → H.Balanced owners →
    newnode ∈ H.live → H.refc newnode = 0 → (∀ k, n ≤ k → nodeGet H newnode k = none) →
    H'.Balanced owners ∧ H.Builds H' ∧ H'.refc newnode = 0 := by
  induction fuel with
  | zero =>
    intro H H' cur n hrun
    cases hrun
  | succ fuel ih =>
    intro H H' cur n hrun h hlive h0 hslots
    rw [constructLeftLoop] at hrun
    split_ifs at hrun with htail
    · cases hrun
      exact ⟨h, .refl H, h0⟩
    · cases hcur : logs[cur]? with
      | none =>
        rw [hcur] at hrun
        exact ih hrun h hlive h0 hslots
      | some log =>
        rw [hcur] at hrun
        cases log with
        | tag | pop | replace | push | leftFold | new | capture => exact ih hrun h hlive h0 hslots
        | link labelId child shift =>
          cases child with
          | none => exact ih hrun h hlive h0 fun k hk => hslots k (by omega)
          | some child =>
            have hmem : child ∈ owners := by
              apply Multiset.mem_of_le hlogs
              rw [logRefs, Multiset.mem_coe, List.mem_filterMap]
              exact ⟨_, List.mem_of_getElem? hcur, rfl⟩
            have hne : newnode ≠ child := by
              rintro rfl
              have := h.owned.pos_of_owner hmem
              omega
            obtain ⟨H₁, hset, h₁, hbuilds, hlive₁, hrefc, hslots₁⟩ :=
              @nodeSet_empty _ _ _ _ h hlive hmem hne _ labelId hslots
            simp only [hset, Option.bind_eq_bind, Option.bind_some] at hrun
            obtain ⟨h', hbuilds', h0'⟩ := ih hrun h₁ hlive₁ (hrefc.trans h0) hslots₁
            exact ⟨h', hbuilds.trans hbuilds', h0'⟩

theorem constructLeft_builds {L : CreateNode} {tail : ℕ}
    (hrun : constructLeft ast L tail = some (ast', o)) (h : ast.heap.Balanced (logRefs ast.logs + ext)) :
    ast' = { ast with heap := ast'.heap } ∧ ast'.heap.Balanced (logRefs ast.logs + ext) ∧
      ast.heap.Builds ast'.heap ∧ o ∉ ast.heap.live ∧ o ∈ ast'.heap.live ∧ ast'.heap.refc o = 0 := by
  obtain ⟨H₁, o₁, hnew, hfresh, hlive, h₁, hbuilds, h0, hentry⟩ := h.new L.tag L.spos
    (UInt32.ofInt ((L.epos : ℤ) - L.spos)) L.objSize L.value
  simp only [constructLeft, hnew] at hrun
  split_ifs at hrun
  · cases hrun
    exact ⟨rfl, h₁, hbuilds, hfresh, hlive, h0⟩
  · simp only [Option.bind_eq_bind, Option.bind_eq_some_iff] at hrun
    obtain ⟨H', hloop, hrun⟩ := hrun
    have hslots : ∀ k, 0 ≤ k → nodeGet H₁ o₁ k = none := by
      intro k _
      rw [nodeGet, hentry, List.getElem?_replicate]
      split_ifs <;> rfl
    cases hrun
    obtain ⟨h', hbuilds', h0'⟩ := constructLeftLoop_builds (Multiset.le_add_right _ ext) _ hloop h₁
      hlive h0 hslots
    exact ⟨rfl, h', hbuilds.trans hbuilds', hfresh, hbuilds'.live hlive, h0'⟩

/-- What `ast_create_node` does to the log and the pool, where `pushed` is the entry of the `Push`
that it was called for and `cur` the entry at which it has begun. -/
structure Creates (ext : Multiset NodeId) (pushed : Option ℕ) (cur : ℕ) (ast ast' : AstMachine) :
    Prop where
  balanced : ast'.heap.Balanced (logRefs ast'.logs + ext)
  builds : ast.heap.Builds ast'.heap
  length : ast'.logs.length = ast.logs.length
  before : ∀ k < cur, pushed ≠ some k → ast'.logs[k]? = ast.logs[k]?
  parsed : ast'.parsed = ast.parsed

/-- The node that closes a group or a fold is linked in place of the entry `k`. -/
theorem constructLeft_link {L : CreateNode} {tail k : ℕ} {log : AstLog} {labelId : UInt16} {shift : ℕ}
    {ast₂ : AstMachine} (hrun : constructLeft ast L tail = some (ast', o))
    (h : ast.heap.Balanced (logRefs ast.logs + ext)) (hlog : ast.logs[k]? = some log)
    (href : log.nodeRef = none)
    (heq : ast₂ = AstMachine.setLog { ast' with heap := nodeRetain ast'.heap o } k
      (.link labelId (some o) shift)) :
    ast₂.heap.Balanced (logRefs ast₂.logs + ext) ∧ ast.heap.Builds ast₂.heap ∧
      ast₂.logs = ast.logs.set k (.link labelId (some o) shift) ∧ ast₂.parsed = ast.parsed ∧
      o ∈ ast₂.heap.live := by
  obtain ⟨hsame, h', hbuilds, hfresh, hlive, -⟩ := constructLeft_builds hrun h
  have hlogs : ast₂.logs = ast.logs.set k (.link labelId (some o) shift) := by
    rw [heq, hsame]
    rfl
  have hheap : ast₂.heap = nodeRetain ast'.heap o := by
    rw [heq]
    rfl
  refine ⟨?_, ?_, hlogs, ?_, ?_⟩
  · rw [hlogs, hheap, logRefs_set hlog href, Multiset.cons_add]
    exact h'.retain hlive
  · rw [hheap]
    exact hbuilds.retain h' hlive fun hmem => absurd hmem hfresh
  · rw [heq, hsame]
    rfl
  · rw [hheap]
    exact hlive

theorem astCreateNodeLoop_creates (fuel : ℕ) : ∀ {ast ast' : AstMachine} {pushed : Option ℕ}
    {cur : ℕ} {L : CreateNode} {o : NodeId},
    astCreateNodeLoop fuel ast pushed cur L = some (ast', o) →
    ast.heap.Balanced (logRefs ast.logs + ext) →
    (∀ k, pushed = some k → k < cur ∧ ast.logs[k]? = some .push) →
    Creates ext pushed cur ast ast' ∧ o ∈ ast'.heap.live ∧ (pushed = none → ast'.heap.refc o = 0) := by
  induction fuel with
  | zero =>
    intro ast ast' pushed cur L o hrun
    cases hrun
  | succ fuel ih =>
    intro ast ast' pushed cur L o hrun h hpushed
    have hlater : ∀ k, pushed = some k → k < cur + 1 ∧ ast.logs[k]? = some .push := by
      intro k hk
      exact ⟨Nat.lt_succ_of_lt (hpushed k hk).1, (hpushed k hk).2⟩
    -- an entry that only changes the local variables
    have hskip : ∀ {L' : CreateNode},
        astCreateNodeLoop fuel ast pushed (cur + 1) L' = some (ast', o) →
        Creates ext pushed cur ast ast' ∧ o ∈ ast'.heap.live ∧
          (pushed = none → ast'.heap.refc o = 0) := by
      intro L' hrun
      obtain ⟨hcreates, hlive⟩ := ih hrun h hlater
      exact ⟨⟨hcreates.balanced, hcreates.builds, hcreates.length,
        fun k hk => hcreates.before k (Nat.lt_succ_of_lt hk), hcreates.parsed⟩, hlive⟩
    rw [astCreateNodeLoop] at hrun
    cases hcur : ast.logs[cur]? with
    | none =>
      rw [hcur] at hrun
      obtain ⟨hsame, h', hbuilds, -, hlive, h0⟩ := constructLeft_builds hrun h
      have hlogs : ast'.logs = ast.logs := by rw [hsame]
      refine ⟨⟨?_, hbuilds, ?_, ?_, ?_⟩, hlive, fun _ => h0⟩
      · rw [hlogs]
        exact h'
      · rw [hlogs]
      · intro k _ _
        rw [hlogs]
      · rw [hsame]
    | some log =>
      rw [hcur] at hrun
      cases log with
      | new | capture | tag | replace => exact hskip hrun
      | leftFold pos labelId =>
        simp only [Option.bind_eq_bind, Option.bind_eq_some_iff] at hrun
        obtain ⟨⟨ast₁, tmp⟩, hclose, hrun⟩ := hrun
        generalize hast₂ : AstMachine.setLog { ast₁ with heap := nodeRetain ast₁.heap tmp } cur
          (.link labelId (some tmp) 0) = ast₂ at hrun
        obtain ⟨h₂, hbuilds, hlogs, hparsed, -⟩ :=
          constructLeft_link hclose h hcur rfl hast₂.symm
        have hpushed₂ : ∀ k, pushed = some k → k < cur + 1 ∧ ast₂.logs[k]? = some .push := by
          intro k hk
          have hk' := hpushed k hk
          rw [hlogs, List.getElem?_set_ne (by omega)]
          exact hlater k hk
        obtain ⟨hcreates, hlive⟩ := ih hrun h₂ hpushed₂
        refine ⟨⟨hcreates.balanced, hbuilds.trans hcreates.builds, ?_, ?_,
          hcreates.parsed.trans hparsed⟩, hlive⟩
        · rw [hcreates.length, hlogs, List.length_set]
        · intro k hk hne
          rw [hcreates.before k (Nat.lt_succ_of_lt hk) hne, hlogs, List.getElem?_set_ne (by omega)]
      | pop labelId =>
        simp only [Option.bind_eq_bind, Option.bind_eq_some_iff] at hrun
        obtain ⟨k, hk, ⟨ast₁, tmp⟩, hclose, hrun⟩ := hrun
        obtain ⟨hlt, hpush⟩ := hpushed k hk
        obtain ⟨hast₂, rfl⟩ := Prod.mk.inj (Option.some.inj hrun)
        obtain ⟨h₂, hbuilds, hlogs, hparsed, hlive⟩ :=
          constructLeft_link hclose h hpush rfl hast₂.symm
        refine ⟨⟨h₂, hbuilds, ?_, ?_, hparsed⟩, hlive, fun hnone => ?_⟩
        · rw [hlogs, List.length_set]
        · intro j hj hne
          rw [hlogs, List.getElem?_set_ne]
          rintro rfl
          exact hne hk
        · rw [hnone] at hk
          cases hk
      | push =>
        simp only [Option.bind_eq_bind, Option.bind_eq_some_iff] at hrun
        obtain ⟨⟨ast₁, tmp⟩, hgroup, hrun⟩ := hrun
        obtain ⟨hgroup, -⟩ := ih hgroup h (by
          rintro k ⟨⟩
          exact ⟨Nat.lt_succ_self cur, hcur⟩)
        have hsame : ∀ k < cur, ast₁.logs[k]? = ast.logs[k]? := by
          intro k hk
          apply hgroup.before k (Nat.lt_succ_of_lt hk)
          rintro ⟨⟩
          exact hk.false
        cases hlink : ast₁.logs[cur]? with
        | none =>
          rw [hlink] at hrun
          cases hrun
        | some log =>
          rw [hlink] at hrun
          cases log with
          | tag | pop | replace | push | leftFold | new | capture => cases hrun
          | link labelId node shift =>
            have hpushed₁ : ∀ k, pushed = some k →
                k < cur + shift + 1 ∧ ast₁.logs[k]? = some .push := by
              intro k hk
              obtain ⟨hlt, hpush⟩ := hpushed k hk
              rw [hsame k hlt]
              exact ⟨by omega, hpush⟩
            obtain ⟨hcreates, hlive⟩ := ih hrun hgroup.balanced hpushed₁
            refine ⟨⟨hcreates.balanced, hgroup.builds.trans hcreates.builds,
              hcreates.length.trans hgroup.length, ?_, hcreates.parsed.trans hgroup.parsed⟩, hlive⟩
            intro k hk hne
            rw [hcreates.before k (by omega) hne, hsame k hk]
      | link labelId node shift =>
        have hpushed' : ∀ k, pushed = some k → k < cur + shift + 1 ∧ ast.logs[k]? = some .push := by
          intro k hk
          exact ⟨by have := (hpushed k hk).1; omega, (hpushed k hk).2⟩
        obtain ⟨hcreates, hlive⟩ := ih hrun h hpushed'
        exact ⟨⟨hcreates.balanced, hcreates.builds, hcreates.length,
          fun k hk => hcreates.before k (by omega), hcreates.parsed⟩, hlive⟩

/-- `ast_create_node` returns a node that nobody refers to yet. -/
theorem astCreateNode_creates {cur : ℕ} (hrun : astCreateNode ast cur none = some (ast', o))
    (h : ast.heap.Balanced (logRefs ast.logs + ext)) :
    Creates ext none cur ast ast' ∧ o ∈ ast'.heap.live ∧ ast'.heap.refc o = 0 := by
  obtain ⟨hcreates, hlive, h0⟩ := astCreateNodeLoop_creates _ hrun h (by rintro k ⟨⟩)
  exact ⟨hcreates, hlive, h0 rfl⟩

end Create

/-- Who holds references to nodes: child arrays and the log, which are in the AST machine, the memo
table and the callers. -/
structure Holders where
  ast : AstMachine := {}
  memo : Memo := {}
  callers : Multiset NodeId := 0

def Holders.owners (S : Holders) : Multiset NodeId :=
  logRefs S.ast.logs + (S.memo.refs + S.callers)

def Holders.refs (S : Holders) (n : NodeId) : ℕ :=
  (S.owners + RefCount.held S.ast.heap.live S.ast.heap.children).count n

/-- The counts are the numbers of references, and what is free is not referenced. -/
structure Holders.Counted (S : Holders) : Prop where
  count : ∀ n ∈ S.ast.heap.live, S.ast.heap.refc n = S.refs n
  free : ∀ n ∈ S.ast.heap.freeList, n ∉ S.owners ∧ ∀ m ∈ S.ast.heap.live, n ∉ S.ast.heap.children m

inductive NodeOp
  | new (tag : Option (List UInt8)) (str : ℕ) (len : UInt32) (elmSize : ℕ)
      (value : Option (List UInt8))
  | set (o : NodeId) (index : ℕ) (labelId : UInt16) (n : NodeId)
  | append (o : NodeId) (n : Option NodeId)
  | retain (n : NodeId)
  | release (n : NodeId)
  | logNew (pos : ℕ)
  | logCapture (pos : ℕ)
  | logTag (tag : Option (List UInt8))
  | logReplace (str : Option (List UInt8))
  | logSwap (pos : ℕ) (labelId : UInt16)
  | logPush
  | logPop (labelId : UInt16)
  | logLink (labelId : UInt16) (node : Option NodeId)
  | commit (labelId : UInt16) (tx : ℕ)
  | rollback (tx : ℕ)
  | getParsedNode
  | memoSet (pos : UInt64) (memoId : UInt32) (result : Option NodeId) (consumed state : UInt32)
  | memoFail (pos : UInt64) (memoId : UInt32)
  | memoDispose

namespace NodeOp

def run (S : Holders) : NodeOp → Option Holders
  | .new tag str len elmSize value =>
    some { S with ast := { S.ast with heap := (nodeNew S.ast.heap tag str len elmSize value).1 } }
  | .set o index labelId n => do
    let heap ← nodeSet S.ast.heap o index labelId n
    return { S with ast := { S.ast with heap := heap } }
  | .append o n => some { S with ast := { S.ast with heap := nodeAppend S.ast.heap o n } }
  | .retain n =>
    some { S with ast := { S.ast with heap := nodeRetain S.ast.heap n }, callers := n ::ₘ S.callers }
  | .release n => do
    let heap ← nodeRelease S.ast.heap n
    return { S with ast := { S.ast with heap := heap }, callers := S.callers.erase n }
  | .logNew pos => some { S with ast := astLogNew S.ast pos }
  | .logCapture pos => some { S with ast := astLogCapture S.ast pos }
  | .logTag tag => some { S with ast := astLogTag S.ast tag }
  | .logReplace str => some { S with ast := astLogReplace S.ast str }
  | .logSwap pos labelId => some { S with ast := astLogSwap S.ast pos labelId }
  | .logPush => some { S with ast := astLogPush S.ast }
  | .logPop labelId => some { S with ast := astLogPop S.ast labelId }
  | .logLink labelId node => some { S with ast := astLogLink S.ast labelId node }
  | .commit labelId tx => do
    let ast ← astCommitTx S.ast labelId tx
    return { S with ast := ast }
  | .rollback tx => do
    let ast ← astRollbackTx S.ast tx
    return { S with ast := ast }
  | .getParsedNode => do
    -- the node that is returned is the caller's
    let (ast, parsed) ← astGetParsedNode S.ast
    return { S with ast := ast, callers := parsed.toList + S.callers }
  | .memoSet pos memoId result consumed state => do
    let (memo, heap) ← Moz.memoSet S.memo S.ast.heap pos memoId result consumed state
    return { S with ast := { S.ast with heap := heap }, memo := memo }
  | .memoFail pos memoId => do
    let (memo, heap) ← Moz.memoFail S.memo S.ast.heap pos memoId
    return { S with ast := { S.ast with heap := heap }, memo := memo }
  | .memoDispose => do
    let heap ← Moz.memoDispose S.memo S.ast.heap
    return { S with ast := { S.ast with heap := heap }, memo := {} }

/-- The nodes that are passed are live, those that are released are the caller's, and `Node_set`
does not put a node into itself. -/
def valid (S : Holders) : NodeOp → Prop
  | .set o _ _ n => o ∈ S.ast.heap.live ∧ n ∈ S.ast.heap.live ∧ o ≠ n
  | .append o n => o ∈ S.ast.heap.live ∧ ∀ m, n = some m → m ∈ S.ast.heap.live
  | .retain n => n ∈ S.ast.heap.live
  | .release n => n ∈ S.callers
  | .logLink _ node => ∀ n, node = some n → n ∈ S.ast.heap.live
  | .memoSet _ _ result _ _ => ∀ n, result = some n → n ∈ S.ast.heap.live
  | .new _ _ _ _ _ | .logNew _ | .logCapture _ | .logTag _ | .logReplace _ | .logSwap _ _
  | .logPush | .logPop _ | .commit _ _ | .rollback _ | .getParsedNode | .memoFail _ _
  | .memoDispose => True

/-- `ast_get_parsed_node` is called when no tree is remembered, and `Node_set` replaces children
of nodes that are not kept alive by their own descendants only. -/
def careful (S : Holders) : NodeOp → Prop
  | .getParsedNode => S.ast.parsed = none
  | .set o index _ _ => nodeGet S.ast.heap o index = none ∨
      S.ast.heap.Held S.ast.heap.live S.owners o
  | .new _ _ _ _ _ | .append _ _ | .retain _ | .release _ | .logNew _ | .logCapture _ | .logTag _
  | .logReplace _ | .logSwap _ _ | .logPush | .logPop _ | .logLink _ _ | .commit _ _ | .rollback _
  | .memoSet _ _ _ _ _ | .memoFail _ _ | .memoDispose => True

end NodeOp

section Operations

variable {ast ast' : AstMachine} {m m' : Memo} {H H' : Heap} {ext owners : Multiset NodeId}
  {o n : NodeId}

theorem astRollbackTx_moves {tx : ℕ} (h : ast.heap.Balanced (logRefs ast.logs + ext))
    (hrun : astRollbackTx ast tx = some ast') : ast'.logs = ast.logs.take tx ∧
      ast'.parsed = ast.parsed ∧ ast.heap.Moves ast'.heap (logRefs ast'.logs + ext) := by
  have htx : tx ≤ ast.logs.length := by
    by_contra hnot
    simp [astRollbackTx, guard, hnot] at hrun
  obtain ⟨H', live', hback, hok, hswept⟩ := astRollbackTx_spec h htx
  have hast : ast' = { ast with heap := H', logs := ast.logs.take tx } :=
    Option.some.inj (hrun.symm.trans hback)
  have hdrains : ast.heap.Drains H' := by
    simp only [astRollbackTx, guard, if_pos htx, Option.bind_eq_bind, Option.pure_def,
      Option.bind_some, Option.bind_eq_some_iff] at hrun
    obtain ⟨H'', hentries, hsame⟩ := hrun
    have hheap : H'' = H' := by
      rw [hast] at hsame
      exact congrArg AstMachine.heap (Option.some.inj hsame)
    rw [← hheap]
    exact releaseEach_drains astRollbackEntry_of_none astRollbackEntry_of_some _ hentries
  rw [hast]
  exact ⟨rfl, rfl, hok.moves_of_swept hswept hdrains⟩

/-- Creating a node, rolling the log back and taking a reference to the node. -/
theorem create_rollback_moves {cur tx : ℕ} {ast₁ ast₂ : AstMachine}
    (h : ast.heap.Balanced (logRefs ast.logs + ext))
    (hcreate : astCreateNode ast cur none = some (ast₁, o))
    (hback : astRollbackTx ast₁ tx = some ast₂) :
    o ∈ ast₂.heap.live ∧ ast₂.logs = ast₁.logs.take tx ∧
      ast.heap.Moves (nodeRetain ast₂.heap o) (o ::ₘ (logRefs ast₂.logs + ext)) := by
  obtain ⟨hcreates, hlive, h0⟩ := astCreateNode_creates hcreate h
  obtain ⟨hlogs, -, hmoves⟩ := astRollbackTx_moves hcreates.balanced hback
  have hlive₂ : o ∈ ast₂.heap.live := by
    by_contra hfreed
    have := hmoves.freed o hlive hfreed
    omega
  exact ⟨hlive₂, hlogs, ((hcreates.builds.grows _).moves h hmoves).retain hlive₂⟩

theorem logRefs_link (logs : List AstLog) (labelId : UInt16) (n : NodeId) :
    logRefs (logs ++ [.link labelId (some n) 0]) = n ::ₘ logRefs logs := by
  rw [logRefs_append, add_comm]
  rfl

theorem astCommitTx_moves {labelId : UInt16} {tx : ℕ}
    (h : ast.heap.Balanced (logRefs ast.logs + ext))
    (hrun : astCommitTx ast labelId tx = some ast') :
    ast.heap.Moves ast'.heap (logRefs ast'.logs + ext) := by
  simp only [astCommitTx, Option.bind_eq_bind, Option.bind_eq_some_iff] at hrun
  obtain ⟨⟨ast₁, o⟩, hcreate, ast₂, hback, hrun⟩ := hrun
  obtain ⟨-, -, hmoves⟩ := create_rollback_moves h hcreate hback
  cases hrun
  have hrefs : logRefs (astLogLink ast₂ labelId (some o)).logs = o ::ₘ logRefs ast₂.logs :=
    logRefs_link ast₂.logs labelId o
  rw [hrefs, Multiset.cons_add]
  exact hmoves

theorem astGetParsedNode_moves {parsed : Option NodeId}
    (h : ast.heap.Balanced (logRefs ast.logs + ext)) (hparsed : ast.parsed = none)
    (hrun : astGetParsedNode ast = some (ast', parsed)) :
    ast.heap.Moves ast'.heap (logRefs ast'.logs + ((parsed.toList : Multiset NodeId) + ext)) := by
  rw [astGetParsedNode, hparsed] at hrun
  simp only at hrun
  split_ifs at hrun with hnil
  · cases hrun
    simpa using h.moves
  · simp only [Option.bind_eq_bind, Option.bind_eq_some_iff] at hrun
    obtain ⟨cur, -, ⟨ast₁, o⟩, hcreate, ast₂, hback, hrun⟩ := hrun
    obtain ⟨-, -, hmoves⟩ := create_rollback_moves h hcreate hback
    cases hrun
    have howners : logRefs ast₂.logs + (((some o).toList : Multiset NodeId) + ext) =
        o ::ₘ (logRefs ast₂.logs + ext) := by
      rw [← Multiset.singleton_add]
      simp only [Option.toList_some, Multiset.coe_singleton]
      abel
    rw [howners]
    exact hmoves

/-- An entry of the memo table is replaced by one whose reference is there already. -/
theorem memoRelease_moves {index : ℕ} {e e' : MemoEntry} (hget : m.ary[index]? = some e)
    (h : H.Balanced (e'.refs + (m.refs + ext))) (hrun : memoRelease H e = some H') :
    H.Moves H' (Memo.refs { m with ary := m.ary.set index e' } + ext) := by
  rw [← add_assoc, ← Memo.refs_set hget e', add_assoc] at h
  obtain ⟨H'', hrun', hmoves⟩ := h.memoRelease
  rw [hrun'] at hrun
  rwa [← Option.some.inj hrun]

theorem memoSet_moves {pos : UInt64} {memoId consumed state : UInt32} {result : Option NodeId}
    (h : H.Balanced (m.refs + ext)) (hresult : ∀ n, result = some n → n ∈ H.live)
    (hrun : memoSet m H pos memoId result consumed state = some (m', H')) :
    H.Moves H' (m'.refs + ext) := by
  cases result with
  | none =>
    simp only [memoSet, Option.bind_eq_bind, Option.bind_eq_some_iff] at hrun
    obtain ⟨e, hget, H₁, hrelease, hrun⟩ := hrun
    cases hrun
    apply memoRelease_moves hget _ hrelease
    rwa [MemoEntry.refs_of_no_result (by rintro n ⟨⟩), zero_add]
  | some n =>
    simp only [memoSet, Option.bind_eq_bind, Option.bind_eq_some_iff] at hrun
    obtain ⟨e, hget, H₁, hrelease, hrun⟩ := hrun
    have hn := hresult n rfl
    cases hrun
    have hmoves : (nodeRetain H n).Moves H' (Memo.refs { m with
        ary := m.ary.set (m.index pos memoId) ⟨m.hash pos memoId, .result n, consumed, state⟩ } +
        ext) := by
      apply memoRelease_moves hget _ hrelease
      rw [MemoEntry.refs_of_result rfl, Multiset.singleton_add]
      exact h.retain hn
    refine Heap.Grows.moves (h.grows_retain (Multiset.mem_add.2 (.inl ?_))) h hmoves
    obtain ⟨hlt, -⟩ := List.getElem?_eq_some_iff.1 hget
    exact Memo.mem_refs (List.getElem?_set_self hlt) rfl

theorem memoFail_moves {pos : UInt64} {memoId : UInt32} (h : H.Balanced (m.refs + ext))
    (hrun : memoFail m H pos memoId = some (m', H')) : H.Moves H' (m'.refs + ext) := by
  simp only [memoFail, Option.bind_eq_bind, Option.bind_eq_some_iff] at hrun
  obtain ⟨e, hget, H₁, hrelease, hrun⟩ := hrun
  cases hrun
  apply memoRelease_moves hget _ hrelease
  rwa [MemoEntry.refs_of_no_result (by rintro n ⟨⟩), zero_add]

theorem NodeOp.run_moves {S S' : Holders} {op : NodeOp} (h : S.ast.heap.Balanced S.owners)
    (hvalid : op.valid S) (hcareful : op.careful S) (hrun : op.run S = some S') :
    S.ast.heap.Moves S'.ast.heap S'.owners := by
  -- an entry of the log that holds no reference
  have hlog : ∀ {log : AstLog}, log.nodeRef = none →
      S.ast.heap.Moves S.ast.heap (logRefs (S.ast.logs ++ [log]) + (S.memo.refs + S.callers)) := by
    intro log hnone
    have hzero : logRefs [log] = 0 := by simp [logRefs, hnone]
    rw [logRefs_append, hzero, add_zero]
    exact h.moves
  have hmemo : ∀ (refs callers logs : Multiset NodeId),
      logs + (refs + callers) = refs + (logs + callers) := by
    intro refs callers logs
    abel
  cases op with
  | new tag str len elmSize value =>
    cases hrun
    obtain ⟨H', o, hnew, -, -, hbalanced, hbuilds, -⟩ := h.new tag str len elmSize value
    have hheap : (nodeNew S.ast.heap tag str len elmSize value).1 = H' := by rw [hnew]
    show S.ast.heap.Moves (nodeNew S.ast.heap tag str len elmSize value).1 S.owners
    rw [hheap]
    exact (hbuilds.grows _).moves h hbalanced.moves
  | set o index labelId n =>
    simp only [NodeOp.run, Option.bind_eq_bind, Option.bind_eq_some_iff] at hrun
    obtain ⟨heap, hset, hrun⟩ := hrun
    cases hrun
    obtain ⟨ho, hn, hne⟩ := hvalid
    obtain ⟨heap', hset', hmoves⟩ := h.set ho hn hne index labelId hcareful
    rw [hset] at hset'
    cases hset'
    exact hmoves
  | append o n =>
    cases hrun
    exact h.append hvalid.1 hvalid.2
  | retain n =>
    cases hrun
    have howners : logRefs S.ast.logs + (S.memo.refs + n ::ₘ S.callers) = n ::ₘ S.owners := by
      simp only [Multiset.add_cons, Holders.owners]
    show S.ast.heap.Moves (nodeRetain S.ast.heap n)
      (logRefs S.ast.logs + (S.memo.refs + n ::ₘ S.callers))
    rw [howners]
    exact h.moves_retain hvalid
  | release n =>
    simp only [NodeOp.run, Option.bind_eq_bind, Option.bind_eq_some_iff] at hrun
    obtain ⟨heap, hrelease, hrun⟩ := hrun
    cases hrun
    have howners : S.owners =
        n ::ₘ (logRefs S.ast.logs + (S.memo.refs + S.callers.erase n)) := by
      rw [Holders.owners, ← Multiset.add_cons, ← Multiset.add_cons, Multiset.cons_erase hvalid]
    rw [howners] at h
    obtain ⟨heap', hrelease', hmoves, -⟩ := h.release
    rw [hrelease] at hrelease'
    cases hrelease'
    exact hmoves
  | logNew | logCapture | logTag | logReplace | logSwap | logPush | logPop =>
    cases hrun
    exact hlog rfl
  | logLink labelId node =>
    cases hrun
    cases node with
    | none => exact hlog rfl
    | some n =>
      show S.ast.heap.Moves (nodeRetain S.ast.heap n)
        (logRefs (S.ast.logs ++ [.link labelId (some n) 0]) + (S.memo.refs + S.callers))
      rw [logRefs_link, Multiset.cons_add]
      exact h.moves_retain (hvalid n rfl)
  | commit labelId tx =>
    simp only [NodeOp.run, Option.bind_eq_bind, Option.bind_eq_some_iff] at hrun
    obtain ⟨ast, hcommit, hrun⟩ := hrun
    cases hrun
    exact astCommitTx_moves h hcommit
  | rollback tx =>
    simp only [NodeOp.run, Option.bind_eq_bind, Option.bind_eq_some_iff] at hrun
    obtain ⟨ast, hback, hrun⟩ := hrun
    cases hrun
    exact (astRollbackTx_moves h hback).2.2
  | getParsedNode =>
    simp only [NodeOp.run, Option.bind_eq_bind, Option.bind_eq_some_iff] at hrun
    obtain ⟨⟨ast, parsed⟩, hparsed, hrun⟩ := hrun
    cases hrun
    have hmoves := astGetParsedNode_moves h hcareful hparsed
    rw [add_left_comm (parsed.toList : Multiset NodeId)] at hmoves
    exact hmoves
  | memoSet pos memoId result consumed state =>
    simp only [NodeOp.run, Option.bind_eq_bind, Option.bind_eq_some_iff] at hrun
    obtain ⟨⟨memo, heap⟩, hset, hrun⟩ := hrun
    cases hrun
    rw [Holders.owners, hmemo] at h
    rw [Holders.owners, hmemo]
    exact memoSet_moves h hvalid hset
  | memoFail pos memoId =>
    simp only [NodeOp.run, Option.bind_eq_bind, Option.bind_eq_some_iff] at hrun
    obtain ⟨⟨memo, heap⟩, hfail, hrun⟩ := hrun
    cases hrun
    rw [Holders.owners, hmemo] at h
    rw [Holders.owners, hmemo]
    exact memoFail_moves h hfail
  | memoDispose =>
    simp only [NodeOp.run, Option.bind_eq_bind, Option.bind_eq_some_iff] at hrun
    obtain ⟨heap, hdispose, hrun⟩ := hrun
    cases hrun
    rw [Holders.owners, hmemo] at h
    obtain ⟨heap', hdispose', hmoves⟩ := h.releaseEach memoRelease_of_none memoRelease_of_some
    rw [Moz.memoDispose, hdispose'] at hdispose
    cases hdispose
    have hempty : Memo.refs {} = 0 := rfl
    rw [Holders.owners, hempty, zero_add]
    exact hmoves

end Operations

section Runs

variable {S S' S₀ : Holders}

/-- The start: an empty pool and log, and a memo table of empty entries. -/
def Holders.init (w n : UInt32) : Holders := { memo := memoTable w n }

/-- What valid operations lead to, each of which meets a condition on the state it is made in. -/
inductive Holders.Run (meets : Holders → NodeOp → Prop) (S₀ : Holders) : Holders → Prop
  | start : Run meets S₀ S₀
  | step {S S' : Holders} {op : NodeOp} (h : Run meets S₀ S) (hvalid : op.valid S)
      (hmeets : meets S op) (hrun : op.run S = some S') : Run meets S₀ S'

theorem Holders.init_balanced (w n : UInt32) :
    (Holders.init w n).ast.heap.Balanced (Holders.init w n).owners := by
  have howners : (Holders.init w n).owners = 0 := by
    unfold Holders.owners Holders.init
    rw [memoTable_refs, logRefs_nil]
    rfl
  rw [howners]
  exact AstMachine.Owned.init

theorem Holders.Run.balanced
    (hrun : Holders.Run (fun S op => op.careful S) S₀ S) (h : S₀.ast.heap.Balanced S₀.owners) :
    S.ast.heap.Balanced S.owners := by
  induction hrun with
  | start => exact h
  | step _ hvalid hcareful hstep ih => exact (NodeOp.run_moves ih hvalid hcareful hstep).balanced

theorem Holders.counted_of_balanced (h : S.ast.heap.Balanced S.owners) : S.Counted where
  count := h.owned.count
  free n hfree := by
    have hlive := (h.free n hfree).1
    exact ⟨fun hmem => hlive (h.mem_of_owner hmem),
      fun m hm hmem => hlive (h.owned.mem_of_child hm hmem)⟩

theorem Holders.freed_iff (h : S.ast.heap.Balanced S.owners)
    (hmoves : S.ast.heap.Moves S'.ast.heap S'.owners) {n : NodeId} (hn : n ∈ S.ast.heap.live) :
    n ∈ S'.ast.heap.freeList ↔ 0 < S.refs n ∧ S'.refs n = 0 := by
  have hcount : S.ast.heap.refc n = S.refs n := (Holders.counted_of_balanced h).count n hn
  have hcount' := (Holders.counted_of_balanced hmoves.balanced).count n
  constructor
  · intro hfree
    have hdead : n ∉ S'.ast.heap.live := (hmoves.balanced.free n hfree).1
    have hpos := hmoves.freed n hn hdead
    refine ⟨by omega, ?_⟩
    rw [Holders.refs, Multiset.count_eq_zero]
    exact fun hmem => hdead (hmoves.balanced.owned.mem_live n hmem)
  · rintro ⟨hpos, hzero⟩
    by_contra hfree
    have hnext : n < S'.ast.heap.next := (Heap.mem_live.1 hn).1.trans_le hmoves.next
    have hlive' : n ∈ S'.ast.heap.live := Heap.mem_live.2 ⟨hnext, hfree⟩
    have hkept := hmoves.kept n hn hlive'
    have hcount'' := hcount' hlive'
    omega

theorem Holders.Run.mono {meets meets' : Holders → NodeOp → Prop}
    (himp : ∀ S op, meets S op → meets' S op) (h : Holders.Run meets S₀ S) :
    Holders.Run meets' S₀ S := by
  induction h with
  | start => exact .start
  | step _ hvalid hmeets hrun ih => exact ih.step hvalid (himp _ _ hmeets) hrun

/-- A remembered tree is handed out without a reference. -/
theorem Holders.not_counted_of_parsed (h : S.Counted) {n : NodeId} (hn : n ∈ S.ast.heap.live)
    (hparsed : S.ast.parsed = some n) (hrun : NodeOp.getParsedNode.run S = some S') :
    ¬ S'.Counted := by
  intro hcounted
  simp only [NodeOp.run, astGetParsedNode, hparsed, Option.bind_eq_bind, Option.bind_some] at hrun
  cases hrun
  have hbefore := h.count n hn
  have hafter := hcounted.count n hn
  have hcons : logRefs S.ast.logs + (S.memo.refs + (((some n).toList : Multiset NodeId) +
      S.callers)) = n ::ₘ (logRefs S.ast.logs + (S.memo.refs + S.callers)) := by
    simp only [Option.toList_some, Multiset.coe_singleton, Multiset.singleton_add,
      Multiset.add_cons]
  simp only [Holders.refs, Holders.owners] at hbefore hafter
  rw [hcons, Multiset.cons_add, Multiset.count_cons_self] at hafter
  omega

/-- In a run of careful operations every count is the number of references, and an operation frees
the nodes whose number it brings down to zero. A remembered tree that is handed out again is not
counted. -/
theorem nodes_counted (w n : UInt32)
    (hrun : Holders.Run (fun S op => op.careful S) (Holders.init w n) S) :
    S.Counted ∧
    (∀ (op : NodeOp) (S' : Holders), op.valid S → op.careful S → op.run S = some S' →
      ∀ x ∈ S.ast.heap.live, x ∈ S'.ast.heap.freeList ↔ 0 < S.refs x ∧ S'.refs x = 0) ∧
    ∀ x ∈ S.ast.heap.live, S.ast.parsed = some x →
      ∀ S', NodeOp.getParsedNode.run S = some S' → ¬ S'.Counted := by
  have h := hrun.balanced (Holders.init_balanced w n)
  refine ⟨Holders.counted_of_balanced h, ?_, ?_⟩
  · intro op S' hvalid hcareful hstep x hx
    exact Holders.freed_iff h (NodeOp.run_moves h hvalid hcareful hstep) hx
  · intro x hx hparsed S' hstep
    exact Holders.not_counted_of_parsed (Holders.counted_of_balanced h) hx hparsed hstep

theorem parsedOnce_run : ∃ S, Holders.Run (fun S op => op.careful S) (Holders.init 1 2) S ∧
    S.ast.parsed = some 0 ∧ S.callers = {0} ∧ 0 ∈ S.ast.heap.live := by
  have hlog := @Holders.Run.step (fun S op => op.careful S) (Holders.init 1 2) _ _ (.logNew 0)
    .start trivial trivial rfl
  exact ⟨_, hlog.step (@id (NodeOp.getParsedNode.valid _) trivial) rfl rfl, rfl, rfl, by decide⟩

theorem parsed_once_counted : ∃ S : Holders, S.ast.parsed = some 0 ∧ S.callers = {0} ∧ S.Counted := by
  obtain ⟨S, hrun, hparsed, hcallers, -⟩ := parsedOnce_run
  exact ⟨S, hparsed, hcallers, (nodes_counted 1 2 hrun).1⟩

/-- Taken out again, the tree has two references and is counted once. -/
theorem parsed_twice_uncounted : ∃ S, Holders.Run (fun _ _ => True) (Holders.init 1 2) S ∧
    ¬ S.Counted := by
  obtain ⟨S, hrun, hparsed, -, hlive⟩ := parsedOnce_run
  have hagain : NodeOp.getParsedNode.run S =
      some { S with callers := ((some 0).toList : Multiset NodeId) + S.callers } := by
    simp [NodeOp.run, astGetParsedNode, hparsed]
  have hcounted := Holders.counted_of_balanced (hrun.balanced (Holders.init_balanced 1 2))
  refine ⟨_, (hrun.mono fun _ _ _ => trivial).step (@id (NodeOp.getParsedNode.valid S) trivial)
    trivial hagain, ?_⟩
  exact Holders.not_counted_of_parsed hcounted hlive hparsed hagain

end Runs

end Moz
