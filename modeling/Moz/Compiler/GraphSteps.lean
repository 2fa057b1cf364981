import Moz.Compiler.Closing
import Moz.Compiler.OptimizeEnds

/-!
# The graph while it is simplified

A block is merged into each of its predecessors or removed. What the graph keeps
rests on two facts: a fail block is kept by its type, and a block that jumps stands
in the list. A handler that only jumps may be removed when its successor, to which
its fail edges are redirected, is kept by its type as well.
-/

namespace Moz.Compiler

structure Intact (C : MozCompiler) : Prop extends Graph C where
  wired : Wired C
  closed : ∀ b ∈ C.blocks, Closed (C.mem b).insts
  entry_of_live : ∀ d ∈ C.decls, 0 < d.refc →
    ∃ e, d.inst = some e ∧ e ∈ C.blocks ∧ (C.mem e).type.entry = true
  live_of_entry : ∀ b ∈ C.blocks, (C.mem b).type.entry = true →
    ∃ d ∈ C.decls, 0 < d.refc ∧ d.inst = some b

/-- A block that `simplify_cfg` leaves alone. -/
def Settled (C : MozCompiler) (b : BlockId) : Prop :=
  (C.mem b).type.isSpecial = true ∨ b ∈ (C.mem b).preds

theorem Shaped.intact {C : MozCompiler} {E : List BlockId} (h : Shaped C E 0)
    (hentered : Entered C.decls E) (hwired : Wired C) : Intact C where
  toGraph := h.toGraph
  wired := hwired
  closed b hb := h.closed b hb (Multiset.notMem_zero b)
  entry_of_live d hd hlive := by
    obtain ⟨e, he, hinst⟩ := hentered.entry_of_live d hd hlive
    have hentry := (h.entries e).2 he
    refine ⟨e, hinst, ?_, hentry⟩
    by_contra hout
    rw [h.stray e hout] at hentry
    cases hentry
  live_of_entry b _ hentry := hentered.live_of_entry b ((h.entries b).1 hentry)

section Merged

variable {C : MozCompiler} {bb succ pred b s : BlockId} {inst term t x : Ir} {l xs : List Ir}

theorem foldl_insertBefore_of_ne {addr : ℕ} (ht : t.addr = addr) (hl : ∀ y ∈ l, y.addr ≠ addr)
    (hxs : ∀ y ∈ xs, y.addr ≠ addr) :
    xs.foldl (insertBefore addr) (l ++ [t]) = l ++ xs ++ [t] := by
  induction xs generalizing l with
  | nil => rw [List.append_nil]; rfl
  | cons x xs ih =>
    obtain ⟨l', hl', -, hcases⟩ := insertBefore_concat l x ht
    have heq : l' = l ++ [x] := hcases.resolve_left fun ⟨y, hy, haddr⟩ => hl y hy haddr
    have hl'' : ∀ y ∈ l ++ [x], y.addr ≠ addr := by
      intro y hy
      rcases List.mem_append.1 hy with hy | hy
      · exact hl y hy
      · exact hxs y (List.mem_cons.2 (.inl (List.mem_singleton.1 hy)))
    rw [List.foldl_cons, hl', heq, ih hl'' fun y hy => hxs y (List.mem_cons_of_mem _ hy)]
    simp

theorem Graph.addr_ne (h : Graph C) (ht : t ∈ (C.mem b).insts) (hjump : t.op.IsJump)
    (hx : x ∈ (C.mem s).insts) (hop : x.op.isTerminator = false ∨ x.op = .iRet) :
    x.addr ≠ t.addr := by
  intro heq
  have hx' := h.jumps b s t ht x hx heq.symm hjump
  rcases hop with hop | hop
  · rw [hx'.isTerminator] at hop
    cases hop
  · obtain ⟨target, htarget⟩ := hx'
    rw [hop] at htarget
    cases htarget

theorem EndsInJump.isJump {insts : List Ir} (h : EndsInJump insts t) : t.op.IsJump := h.2

theorem EndsInJump.mem {insts : List Ir} (h : EndsInJump insts t) : t ∈ insts :=
  List.mem_of_getLast? h.1

theorem Closed.eq_concat {insts : List Ir} (h : Closed insts) (ht : insts.getLast? = some t) :
    ∃ body, insts = body ++ [t] ∧ ∀ x ∈ body, x.op.isTerminator = false := by
  obtain ⟨body, term, rfl, -, hbody⟩ := h
  rw [List.getLast?_concat] at ht
  exact ⟨body, by rw [Option.some.inj ht], hbody⟩

theorem Graph.succ_eq (h : Graph C) (hterm : EndsInJump (C.mem b).insts term)
    (hs : s ∈ (C.mem b).succs) : term.op = .iJump s := by
  obtain ⟨term', hlast, hop⟩ := (h.succs b s).1 hs
  rwa [Option.some.inj (hterm.1.symm.trans hlast)]

theorem jumpMerged_eq (succ : BlockId) (h : Graph C) (hpred : Closed (C.mem pred).insts)
    (hterm : EndsInJump (C.mem pred).insts term) (hbb : Closed (C.mem bb).insts)
    (hinst : EndsInJump (C.mem bb).insts inst) :
    ∃ body body', (C.mem pred).insts = body ++ [term] ∧ (C.mem bb).insts = body' ++ [inst] ∧
      (∀ x ∈ body ++ body', x.op.isTerminator = false) ∧
      jumpMerged C bb succ inst pred term = body ++ body' ++ [{ term with op := .iJump succ }] := by
  obtain ⟨body, hbody, hopen⟩ := hpred.eq_concat hterm.1
  obtain ⟨body', hbody', hopen'⟩ := hbb.eq_concat hinst.1
  have hne : ∀ x ∈ body, x.addr ≠ term.addr := fun x hx =>
    h.addr_ne hterm.mem hterm.isJump (s := pred) (by simp [hbody, hx]) (.inl (hopen x hx))
  have hne' : ∀ x ∈ body', x.addr ≠ term.addr ∧ x.addr ≠ inst.addr := fun x hx =>
    ⟨h.addr_ne hterm.mem hterm.isJump (s := bb) (by simp [hbody', hx]) (.inl (hopen' x hx)),
      h.addr_ne hinst.mem hinst.isJump (s := bb) (by simp [hbody', hx]) (.inl (hopen' x hx))⟩
  have hfilter : (C.mem bb).insts.filter (fun x => !decide (x.addr = inst.addr)) = body' := by
    rw [hbody', List.filter_append, List.filter_eq_self.2 fun x hx => by simp [(hne' x hx).2]]
    simp
  refine ⟨body, body', hbody, hbody', ?_, ?_⟩
  · intro x hx
    exact (List.mem_append.1 hx).elim (hopen x) (hopen' x)
  · unfold jumpMerged
    rw [hfilter, hbody, foldl_insertBefore_of_ne rfl hne fun x hx => (hne' x hx).1, List.map_append]
    congr 1
    · refine (List.map_congr_left fun x hx => ?_).trans (List.map_id _)
      rcases List.mem_append.1 hx with hx | hx
      · exact if_neg (hne x hx)
      · exact if_neg (hne' x hx).1
    · simp

theorem exitMerged_eq (h : Graph C) (hpred : Closed (C.mem pred).insts)
    (hterm : EndsInJump (C.mem pred).insts term) (hbb : Closed (C.mem bb).insts)
    (hlast : (C.mem bb).insts.getLast? = some inst) (hret : inst.op = .iRet) :
    ∃ body body', (C.mem pred).insts = body ++ [term] ∧ (C.mem bb).insts = body' ++ [inst] ∧
      (∀ x ∈ body ++ body', x.op.isTerminator = false) ∧
      exitMerged C bb pred term = body ++ body' ++ [inst] := by
  obtain ⟨body, hbody, hopen⟩ := hpred.eq_concat hterm.1
  obtain ⟨body', hbody', hopen'⟩ := hbb.eq_concat hlast
  have hne : ∀ x ∈ body, x.addr ≠ term.addr := fun x hx =>
    h.addr_ne hterm.mem hterm.isJump (s := pred) (by simp [hbody, hx]) (.inl (hopen x hx))
  have hne' : ∀ x ∈ (C.mem bb).insts, x.addr ≠ term.addr := by
    intro x hx
    refine h.addr_ne hterm.mem hterm.isJump hx ?_
    rw [hbody'] at hx
    rcases List.mem_append.1 hx with hx | hx
    · exact .inl (hopen' x hx)
    · exact .inr (List.mem_singleton.1 hx ▸ hret)
  refine ⟨body, body', hbody, hbody', ?_, ?_⟩
  · intro x hx
    exact (List.mem_append.1 hx).elim (hopen x) (hopen' x)
  · unfold exitMerged
    rw [hbody, foldl_insertBefore_of_ne rfl hne hne', List.eraseP_append_right]
    · rw [hbody']
      simp
    · intro x hx
      rcases List.mem_append.1 hx with hx | hx
      · simpa using hne x hx
      · simpa using hne' x hx

end Merged

/-- The instructions of `bb` are taken over by its predecessor `pred`, which ends with `t` then. -/
structure Takes (C C' : MozCompiler) (bb pred : BlockId) (body : List Ir) (t : Ir) : Prop where
  blocks : C'.blocks = C.blocks
  decls : C'.decls = C.decls
  other : ∀ b, b ≠ pred → (C'.mem b).insts = (C.mem b).insts ∧ (C'.mem b).type = (C.mem b).type
  type : (C'.mem pred).type = (C.mem pred).type.union (C.mem bb).type
  insts : (C'.mem pred).insts = body ++ [t]
  body : ∀ x ∈ body, x.op.isTerminator = false ∧ (x ∈ (C.mem pred).insts ∨ x ∈ (C.mem bb).insts)
  terminator : t.op.isTerminator = true ∧ t.op ≠ .iFail
  source : ∃ y, (y ∈ (C.mem pred).insts ∨ y ∈ (C.mem bb).insts) ∧ y.addr = t.addr ∧
    y.fail = t.fail ∧ (y.op.IsJump ↔ t.op.IsJump)
  succs : ∀ b s, s ∈ (C'.mem b).succs ↔ JumpsTo (C'.mem b).insts s
  target : ∀ s, t.op = .iJump s → s ∈ C.blocks

section Takes

variable {C C' : MozCompiler} {W : WorkList} {bb succ pred b : BlockId} {inst term t x : Ir}
  {body : List Ir}

theorem Takes.special (h : Takes C C' bb pred body t) (b : BlockId)
    (hb : (C.mem b).type.isSpecial = true) : (C'.mem b).type.isSpecial = true := by
  by_cases heq : b = pred
  · rw [heq, h.type]
    exact isSpecial_union _ (heq ▸ hb)
  · rwa [(h.other b heq).2]

theorem entry_of_not_special (h : (C.mem bb).type.isSpecial = false) :
    (C.mem bb).type.entry = false := by
  unfold BlockType.isSpecial at h
  simp only [Bool.or_eq_false_iff] at h
  exact h.1.1.1

theorem Takes.entry (h : Takes C C' bb pred body t) (hbb : (C.mem bb).type.isSpecial = false)
    (b : BlockId) : (C'.mem b).type.entry = (C.mem b).type.entry := by
  by_cases heq : b = pred
  · rw [heq, h.type]
    simp [BlockType.union, entry_of_not_special hbb]
  · rw [(h.other b heq).2]

theorem Takes.source_of_mem (h : Takes C C' bb pred body t) (hx : x ∈ (C'.mem b).insts) :
    ∃ b₀, (b₀ = b ∨ b = pred ∧ b₀ = bb) ∧ ∃ y ∈ (C.mem b₀).insts, y.addr = x.addr ∧
      y.fail = x.fail ∧ (y.op.IsJump ↔ x.op.IsJump) ∧ (x.op = .iFail → y.op = .iFail) := by
  by_cases heq : b = pred
  · subst heq
    rw [h.insts] at hx
    rcases List.mem_append.1 hx with hx | hx
    · rcases (h.body x hx).2 with hold | hold
      · exact ⟨b, .inl rfl, x, hold, rfl, rfl, .rfl, id⟩
      · exact ⟨bb, .inr ⟨rfl, rfl⟩, x, hold, rfl, rfl, .rfl, id⟩
    · obtain rfl := List.mem_singleton.1 hx
      obtain ⟨y, hold | hold, haddr, hfail, hjump⟩ := h.source
      · exact ⟨b, .inl rfl, y, hold, haddr, hfail, hjump, fun hop => absurd hop h.terminator.2⟩
      · exact ⟨bb, .inr ⟨rfl, rfl⟩, y, hold, haddr, hfail, hjump,
          fun hop => absurd hop h.terminator.2⟩
  · rw [(h.other b heq).1] at hx
    exact ⟨b, .inl rfl, x, hx, rfl, rfl, .rfl, id⟩

theorem Takes.intact (h : Takes C C' bb pred body t) (hC : Intact C) (hwired : Wired C')
    (hbb : bb ∈ C.blocks) (hpred : pred ∈ C.blocks) (hnot : (C.mem bb).type.isSpecial = false) :
    Intact C' := by
  constructor
  case wired => exact hwired
  case toGraph =>
    constructor
    case nodup => exact h.blocks ▸ hC.nodup
    case succs => exact h.succs
    case fails =>
      intro b hb x hx
      rw [h.blocks] at hb ⊢
      obtain ⟨b₀, hb₀, y, hy, -, hfail, -⟩ := h.source_of_mem hx
      have hin : b₀ ∈ C.blocks := by
        rcases hb₀ with rfl | ⟨-, rfl⟩
        · exact hb
        · exact hbb
      rw [← hfail]
      exact (hC.fails b₀ hin y hy).imp id (h.special _)
    case targets =>
      intro b s hs
      rw [h.blocks]
      by_cases heq : b = pred
      · rw [heq, h.insts, jumpsTo_concat] at hs
        exact ⟨heq ▸ hpred, h.target s hs⟩
      · rw [(h.other b heq).1] at hs
        exact hC.targets b s hs
    case failing =>
      intro b hb x hx hop
      rw [h.blocks] at hb
      obtain ⟨b₀, rfl | ⟨-, rfl⟩, y, hy, -, -, -, hfail⟩ := h.source_of_mem hx
      · exact h.special b₀ (hC.failing b₀ hb y hy (hfail hop))
      · have hspecial := hC.failing b₀ hbb y hy (hfail hop)
        rw [hnot] at hspecial
        cases hspecial
    case jumps =>
      intro b b' x hx x' hx' heq hjump
      obtain ⟨b₀, -, y, hy, haddr, -, hiff, -⟩ := h.source_of_mem hx
      obtain ⟨b₀', -, y', hy', haddr', -, hiff', -⟩ := h.source_of_mem hx'
      refine hiff'.1 (hC.jumps b₀ b₀' y hy y' hy' ?_ (hiff.2 hjump))
      rw [haddr, haddr', heq]
  case closed =>
    intro b hb
    rw [h.blocks] at hb
    by_cases heq : b = pred
    · rw [heq, h.insts]
      exact ⟨body, t, rfl, h.terminator.1, fun x hx => (h.body x hx).1⟩
    · rw [(h.other b heq).1]
      exact hC.closed b hb
  case entry_of_live =>
    intro d hd hlive
    rw [h.decls] at hd
    obtain ⟨e, hinst, he, hentry⟩ := hC.entry_of_live d hd hlive
    exact ⟨e, hinst, h.blocks ▸ he, by rwa [h.entry hnot]⟩
  case live_of_entry =>
    intro b hb hentry
    rw [h.blocks] at hb
    rw [h.entry hnot] at hentry
    rw [h.decls]
    exact hC.live_of_entry b hb hentry

/-- What a round leaves of the fields that are no edges. -/
theorem rewritten_fields (C : MozCompiler) (bb pred : BlockId) (insts : List Ir) (b : BlockId) :
    ((rewritten C bb pred insts).mem b).insts = (if b = pred then insts else (C.mem b).insts) ∧
      ((rewritten C bb pred insts).mem b).type =
        (if b = pred then (C.mem pred).type.union (C.mem bb).type else (C.mem b).type) := by
  unfold rewritten
  rw [mem_setBlock]
  split_ifs <;> exact ⟨rfl, rfl⟩

theorem takes_jump (hC : Intact C) (hinst : EndsInJump (C.mem bb).insts inst)
    (hterm : EndsInJump (C.mem pred).insts term) (hsucc : succ ∈ (C.mem bb).succs)
    (hpred : bb ∈ (C.mem pred).succs) : ∃ body,
    Takes C (((rewritten C bb pred (jumpMerged C bb succ inst pred term)).blockUnlink pred
      bb).blockLink pred succ) bb pred body { term with op := .iJump succ } := by
  have hin := hC.targets pred bb ((hC.succs pred bb).1 hpred)
  have htarget := hC.targets bb succ ((hC.succs bb succ).1 hsucc)
  obtain ⟨body, body', hbody, hbody', hopen, hmerged⟩ := jumpMerged_eq succ hC.toGraph
    (hC.closed pred hin.1) hterm (hC.closed bb hin.2) hinst
  have hfields := rewritten_fields C bb pred (jumpMerged C bb succ inst pred term)
  have hR := mem_rewritten C bb pred (jumpMerged C bb succ inst pred term)
  have hblocks : (rewritten C bb pred (jumpMerged C bb succ inst pred term)).blocks = C.blocks := rfl
  have hdecls : (rewritten C bb pred (jumpMerged C bb succ inst pred term)).decls = C.decls := rfl
  generalize rewritten C bb pred (jumpMerged C bb succ inst pred term) = R at *
  have hnodup : ∀ b, (R.mem b).succs.Nodup := fun b => by
    rw [(hR b).2.1]
    exact hC.wired.nodup_succs b
  have hinsts : ∀ b, (((R.blockUnlink pred bb).blockLink pred succ).mem b).insts =
      if b = pred then jumpMerged C bb succ inst pred term else (C.mem b).insts := by
    intro b
    rw [mem_blockLink, mem_blockUnlink]
    exact (hfields b).1
  have htype : ∀ b, (((R.blockUnlink pred bb).blockLink pred succ).mem b).type =
      if b = pred then (C.mem pred).type.union (C.mem bb).type else (C.mem b).type := by
    intro b
    rw [mem_blockLink, mem_blockUnlink]
    exact (hfields b).2
  refine ⟨body ++ body', hblocks, hdecls, ?_, ?_, ?_, ?_, ⟨rfl, nofun⟩, ?_, ?_, ?_⟩
  · intro b hb
    rw [hinsts, htype, if_neg hb, if_neg hb]
    exact ⟨rfl, rfl⟩
  · rw [htype, if_pos rfl]
  · rw [hinsts, if_pos rfl, hmerged]
  · intro x hx
    refine ⟨hopen x hx, ?_⟩
    rw [hbody, hbody']
    exact (List.mem_append.1 hx).imp (List.mem_append_left _) (List.mem_append_left _)
  · exact ⟨term, .inl hterm.mem, rfl, rfl, iff_of_true hterm.isJump ⟨succ, rfl⟩⟩
  · intro b s
    rw [hinsts, mem_succs_blockLink, mem_succs_blockUnlink (hnodup b), (hR b).2.1]
    split_ifs with hb
    · subst hb
      rw [hmerged, jumpsTo_concat]
      constructor
      · rintro (⟨hs, hnot⟩ | ⟨-, rfl⟩)
        · have heq := (hC.succ_eq hterm hs).symm.trans (hC.succ_eq hterm hpred)
          exact absurd ⟨rfl, Op.iJump.inj heq⟩ hnot
        · rfl
      · exact fun hop => .inr ⟨rfl, (Op.iJump.inj hop).symm⟩
    · rw [hC.succs b s]
      simp [hb]
  · intro s hop
    rw [← Op.iJump.inj hop]
    exact htarget.2

theorem takes_exit (hC : Intact C) (hlast : (C.mem bb).insts.getLast? = some inst)
    (hret : inst.op = .iRet) (hterm : EndsInJump (C.mem pred).insts term)
    (hpred : bb ∈ (C.mem pred).succs) : ∃ body,
    Takes C ((rewritten C bb pred (exitMerged C bb pred term)).blockUnlink pred bb) bb pred body
      inst := by
  have hin := hC.targets pred bb ((hC.succs pred bb).1 hpred)
  obtain ⟨body, body', hbody, hbody', hopen, hmerged⟩ := exitMerged_eq hC.toGraph
    (hC.closed pred hin.1) hterm (hC.closed bb hin.2) hlast hret
  have hfields := rewritten_fields C bb pred (exitMerged C bb pred term)
  have hR := mem_rewritten C bb pred (exitMerged C bb pred term)
  have hblocks : (rewritten C bb pred (exitMerged C bb pred term)).blocks = C.blocks := rfl
  have hdecls : (rewritten C bb pred (exitMerged C bb pred term)).decls = C.decls := rfl
  generalize rewritten C bb pred (exitMerged C bb pred term) = R at *
  have hnodup : ∀ b, (R.mem b).succs.Nodup := fun b => by
    rw [(hR b).2.1]
    exact hC.wired.nodup_succs b
  have hinsts : ∀ b, ((R.blockUnlink pred bb).mem b).insts =
      if b = pred then exitMerged C bb pred term else (C.mem b).insts := by
    intro b
    rw [mem_blockUnlink]
    exact (hfields b).1
  have htype : ∀ b, ((R.blockUnlink pred bb).mem b).type =
      if b = pred then (C.mem pred).type.union (C.mem bb).type else (C.mem b).type := by
    intro b
    rw [mem_blockUnlink]
    exact (hfields b).2
  have hmem : inst ∈ (C.mem bb).insts := List.mem_of_getLast? hlast
  refine ⟨body ++ body', hblocks, hdecls, ?_, ?_, ?_, ?_, ?_, ?_, ?_, ?_⟩
  · intro b hb
    rw [hinsts, htype, if_neg hb, if_neg hb]
    exact ⟨rfl, rfl⟩
  · rw [htype, if_pos rfl]
  · rw [hinsts, if_pos rfl, hmerged]
  · intro x hx
    refine ⟨hopen x hx, ?_⟩
    rw [hbody, hbody']
    exact (List.mem_append.1 hx).imp (List.mem_append_left _) (List.mem_append_left _)
  · rw [hret]
    exact ⟨rfl, nofun⟩
  · exact ⟨inst, .inr hmem, rfl, rfl, .rfl⟩
  · intro b s
    rw [hinsts, mem_succs_blockUnlink (hnodup b), (hR b).2.1]
    split_ifs with hb
    · subst hb
      rw [hmerged, jumpsTo_concat, hret]
      constructor
      · rintro ⟨hs, hnot⟩
        have heq := (hC.succ_eq hterm hs).symm.trans (hC.succ_eq hterm hpred)
        exact absurd ⟨rfl, Op.iJump.inj heq⟩ hnot
      · intro hop
        cases hop
    · rw [hC.succs b s]
      simp [hb]
  · intro s hop
    rw [hret] at hop
    cases hop

end Takes

/-- The fail edge of an instruction after the removal of the handler `bb`. -/
def redirected (bb succ : BlockId) (x : Ir) : Ir := if x.fail = bb then { x with fail := succ } else x

section Removal

variable {C : MozCompiler} {bb succ b s : BlockId} {inst : Ir} {l : List Ir}

theorem redirected_spec (bb succ : BlockId) (x : Ir) : (redirected bb succ x).op = x.op ∧
    (redirected bb succ x).addr = x.addr ∧
      (redirected bb succ x).fail = if x.fail = bb then succ else x.fail := by
  unfold redirected
  split_ifs <;> exact ⟨rfl, rfl, rfl⟩

theorem jumpsTo_map (hf : ∀ x, (redirected bb succ x).op = x.op) :
    JumpsTo (l.map (redirected bb succ)) s ↔ JumpsTo l s := by
  unfold JumpsTo
  rw [List.getLast?_map]
  constructor
  · rintro ⟨t, ht, hop⟩
    obtain ⟨t', ht', rfl⟩ := Option.map_eq_some_iff.1 ht
    exact ⟨t', ht', by rwa [hf] at hop⟩
  · rintro ⟨t, ht, hop⟩
    exact ⟨redirected bb succ t, by rw [ht]; rfl, by rwa [hf]⟩

theorem Closed.map (h : Closed l) (hf : ∀ x, (redirected bb succ x).op = x.op) :
    Closed (l.map (redirected bb succ)) := by
  obtain ⟨body, t, rfl, hterm, hbody⟩ := h
  refine ⟨body.map (redirected bb succ), redirected bb succ t, by simp, by rwa [hf], ?_⟩
  intro x hx
  obtain ⟨y, hy, rfl⟩ := List.mem_map.1 hx
  rw [hf]
  exact hbody y hy

theorem redirectFail_fields (C : MozCompiler) (bb succ b : BlockId) :
    ((redirectFail C bb succ).mem b).insts = (if b ∈ C.blocks then
      (C.mem b).insts.map (redirected bb succ) else (C.mem b).insts) ∧
      ((redirectFail C bb succ).mem b).type = (C.mem b).type ∧
        ((redirectFail C bb succ).mem b).succs = (C.mem b).succs := by
  unfold redirectFail
  dsimp only
  split_ifs <;> exact ⟨rfl, rfl, rfl⟩

/-- The graph `F` is `C` without the block `bb`; the fail edges to it go to `succ`. -/
structure Removed (C F : MozCompiler) (bb succ : BlockId) : Prop where
  blocks : F.blocks = C.blocks.erase bb
  decls : F.decls = C.decls
  insts : ∀ b, (F.mem b).insts = if b = bb then [] else
    if b ∈ C.blocks then (C.mem b).insts.map (redirected bb succ) else (C.mem b).insts
  type : ∀ b, (F.mem b).type = (C.mem b).type
  succs : ∀ b s, s ∈ (F.mem b).succs ↔ s ∈ (C.mem b).succs ∧ b ≠ bb

theorem Intact.removed (h : Intact C) (hsuccs : (C.mem bb).succs = [succ])
    (hparent : inst.parent = bb) :
    Removed C (redirectFail (dropBlock (removeFromParent (C.blockUnlink bb succ) inst) bb) bb succ)
      bb succ := by
  have hX := mem_removed C succ hparent
  have hXblocks : (dropBlock (removeFromParent (C.blockUnlink bb succ) inst) bb).blocks =
    C.blocks.erase bb := rfl
  have hXdecls : (dropBlock (removeFromParent (C.blockUnlink bb succ) inst) bb).decls =
    C.decls := rfl
  generalize dropBlock (removeFromParent (C.blockUnlink bb succ) inst) bb = X at *
  have hXfields : ∀ b, (X.mem b).insts = (if b = bb then [] else (C.mem b).insts) ∧
      (X.mem b).type = (C.mem b).type := by
    intro b
    rw [hX, mem_blockUnlink]
    exact ⟨rfl, rfl⟩
  constructor
  case blocks => exact hXblocks
  case decls => exact hXdecls
  case insts =>
    intro b
    rw [(redirectFail_fields X bb succ b).1, hXblocks, (hXfields b).1]
    by_cases hb : b = bb
    · simp [hb]
    · simp [hb, h.nodup.mem_erase_iff]
  case type => exact fun b => (redirectFail_fields X bb succ b).2.1.trans (hXfields b).2
  case succs =>
    intro b s
    rw [(redirectFail_fields X bb succ b).2.2, hX, mem_succs_blockUnlink (h.wired.nodup_succs b)]
    refine and_congr_right fun hs => not_congr ⟨fun hb => hb.1, fun hb => ⟨hb, ?_⟩⟩
    rw [hb, hsuccs] at hs
    exact List.mem_singleton.1 hs

theorem Removed.jumps {F : MozCompiler} (h : Removed C F bb succ) (b s : BlockId) :
    JumpsTo (F.mem b).insts s ↔ JumpsTo (C.mem b).insts s ∧ b ≠ bb := by
  rw [h.insts]
  split_ifs with hb hmem
  · simp [JumpsTo, hb]
  · simp [jumpsTo_map fun x => (redirected_spec bb succ x).1, hb]
  · simp [hb]

/-- Each instruction comes from one of the same block, its fail edge apart. -/
theorem Removed.source {F : MozCompiler} (h : Removed C F bb succ) {x : Ir}
    (hx : x ∈ (F.mem b).insts) : b ≠ bb ∧ ∃ y ∈ (C.mem b).insts, x.op = y.op ∧
      x.addr = y.addr ∧ (b ∈ C.blocks → x.fail = if y.fail = bb then succ else y.fail) := by
  rw [h.insts] at hx
  split_ifs at hx with hb hmem
  · cases hx
  · obtain ⟨y, hy, rfl⟩ := List.mem_map.1 hx
    obtain ⟨hop, haddr, hfail⟩ := redirected_spec bb succ y
    exact ⟨hb, y, hy, hop, haddr, fun _ => hfail⟩
  · exact ⟨hb, x, hx, rfl, rfl, fun hin => absurd hin hmem⟩

/-- A block that nothing jumps to is removed, and the fail edges to it go to its successor. -/
theorem Intact.remove (h : Intact C) (hpreds : (C.mem bb).preds = [])
    (hsuccs : (C.mem bb).succs = [succ]) (hparent : inst.parent = bb)
    (hentry : (C.mem bb).type.entry = false)
    (hfail : ∀ b ∈ C.blocks, ∀ x ∈ (C.mem b).insts, x.fail = bb →
      (C.mem succ).type.isSpecial = true) :
    Intact (redirectFail (dropBlock (removeFromParent (C.blockUnlink bb succ) inst) bb) bb succ) := by
  have hjump : JumpsTo (C.mem bb).insts succ := (h.succs bb succ).1 (by simp [hsuccs])
  have hin := h.targets bb succ hjump
  have hne : succ ≠ bb := by
    rintro rfl
    have hself := h.wired.pred_of_succ succ succ (by simp [hsuccs])
    rw [hpreds] at hself
    cases hself
  have hno : ∀ b, ¬ JumpsTo (C.mem b).insts bb := by
    intro b hb
    have hmem := h.wired.pred_of_succ b bb ((h.succs b bb).2 hb)
    rw [hpreds] at hmem
    cases hmem
  have hwired := (redirectFail_fades (removed_fades succ h.wired hparent).wired bb succ).wired
  have hF := h.removed hsuccs hparent
  have herase : ∀ b, b ∈ C.blocks.erase bb ↔ b ≠ bb ∧ b ∈ C.blocks := fun b =>
    h.nodup.mem_erase_iff
  generalize redirectFail (dropBlock (removeFromParent (C.blockUnlink bb succ) inst) bb) bb succ =
    F at *
  constructor
  case wired => exact hwired
  case toGraph =>
    constructor
    case nodup => exact hF.blocks ▸ h.nodup.erase bb
    case succs =>
      intro b s
      rw [hF.succs, hF.jumps, h.succs b s]
    case fails =>
      intro b hb x hx
      rw [hF.blocks, herase] at hb
      obtain ⟨-, y, hy, -, -, hxfail⟩ := hF.source hx
      have hold := h.fails b hb.2 y hy
      rw [hxfail hb.2, hF.blocks, hF.type, herase]
      split_ifs with heq
      · exact ⟨⟨hne, hin.2⟩, hfail b hb.2 y hy heq⟩
      · exact ⟨⟨heq, hold.1⟩, hold.2⟩
    case targets =>
      intro b s hs
      obtain ⟨hs, hb⟩ := (hF.jumps b s).1 hs
      have hold := h.targets b s hs
      rw [hF.blocks, herase, herase]
      refine ⟨⟨hb, hold.1⟩, ?_, hold.2⟩
      rintro rfl
      exact hno b hs
    case failing =>
      intro b hb x hx hxop
      rw [hF.blocks, herase] at hb
      obtain ⟨-, y, hy, hxy, -⟩ := hF.source hx
      rw [hF.type]
      exact h.failing b hb.2 y hy (hxy.symm.trans hxop)
    case jumps =>
      intro b b' x hx x' hx' heq hjump
      obtain ⟨-, y, hy, hyop, hyaddr, -⟩ := hF.source hx
      obtain ⟨-, y', hy', hyop', hyaddr', -⟩ := hF.source hx'
      rw [hyop']
      exact h.jumps b b' y hy y' hy' (by rw [← hyaddr, ← hyaddr', heq]) (hyop ▸ hjump)
  case closed =>
    intro b hb
    rw [hF.blocks, herase] at hb
    rw [hF.insts, if_neg hb.1, if_pos hb.2]
    exact (h.closed b hb.2).map fun x => (redirected_spec bb succ x).1
  case entry_of_live =>
    intro d hd hlive
    rw [hF.decls] at hd
    obtain ⟨e, hinst, he, hentry'⟩ := h.entry_of_live d hd hlive
    refine ⟨e, hinst, ?_, by rwa [hF.type]⟩
    rw [hF.blocks, herase]
    refine ⟨?_, he⟩
    rintro rfl
    rw [hentry] at hentry'
    cases hentry'
  case live_of_entry =>
    intro b hb hentry'
    rw [hF.blocks, herase] at hb
    rw [hF.type] at hentry'
    rw [hF.decls]
    exact h.live_of_entry b hb.2 hentry'

/-- Nothing is redirected where nothing fails to `bb`. -/
theorem redirectFail_of_ne (h : ∀ b ∈ C.blocks, ∀ x ∈ (C.mem b).insts, x.fail ≠ bb) :
    redirectFail C bb succ = C := by
  have hmem : (redirectFail C bb succ).mem = C.mem := by
    funext b
    unfold redirectFail
    dsimp only
    split_ifs with hb
    · have hmap : (C.mem b).insts.map (redirected bb succ) = (C.mem b).insts :=
        (List.map_congr_left fun x hx => if_neg (h b hb x hx)).trans (List.map_id _)
      exact congrArg (fun insts => { C.mem b with insts := insts }) hmap
    · rfl
  exact congrArg (fun mem => { C with mem := mem }) hmem

/-- A block that nothing jumps to and that no flag keeps is removed. -/
theorem Intact.drop (h : Intact C) (hpreds : (C.mem bb).preds = [])
    (hsuccs : (C.mem bb).succs = [succ]) (hparent : inst.parent = bb)
    (hnot : (C.mem bb).type.isSpecial = false) :
    Intact (dropBlock (removeFromParent (C.blockUnlink bb succ) inst) bb) := by
  have hfail : ∀ b ∈ C.blocks, ∀ x ∈ (C.mem b).insts, x.fail ≠ bb := by
    intro b hb x hx heq
    have hspecial := (h.fails b hb x hx).2
    rw [heq, hnot] at hspecial
    cases hspecial
  have hremoved := h.remove hpreds hsuccs hparent (entry_of_not_special hnot)
    fun b hb x hx heq => absurd heq (hfail b hb x hx)
  rwa [redirectFail_of_ne] at hremoved
  intro b hb x hx
  have hb' : b ∈ C.blocks.erase bb := hb
  obtain ⟨hne, hb'⟩ := h.nodup.mem_erase_iff.1 hb'
  rw [mem_removed C succ hparent, mem_blockUnlink] at hx
  dsimp only at hx
  rw [if_neg hne] at hx
  exact hfail b hb' x hx

/-- An exit block that nothing jumps to is taken from the list. -/
theorem Intact.erase (h : Intact C) (hpreds : (C.mem bb).preds = [])
    (hnot : (C.mem bb).type.isSpecial = false) (hno : ∀ s, ¬ JumpsTo (C.mem bb).insts s) :
    Intact { C with blocks := C.blocks.erase bb } := by
  have herase : ∀ b, b ∈ C.blocks.erase bb ↔ b ≠ bb ∧ b ∈ C.blocks := fun b =>
    h.nodup.mem_erase_iff
  constructor
  case wired => exact h.wired.pools rfl rfl
  case toGraph =>
    constructor
    case nodup => exact h.nodup.erase bb
    case succs => exact h.succs
    case fails =>
      intro b hb x hx
      have hold := h.fails b ((herase b).1 hb).2 x hx
      refine ⟨(herase _).2 ⟨?_, hold.1⟩, hold.2⟩
      intro heq
      rw [heq, hnot] at hold
      cases hold.2
    case targets =>
      intro b s hs
      have hold := h.targets b s hs
      refine ⟨(herase b).2 ⟨?_, hold.1⟩, (herase s).2 ⟨?_, hold.2⟩⟩
      · rintro rfl
        exact hno s hs
      · rintro rfl
        have hmem := h.wired.pred_of_succ b s ((h.succs b s).2 hs)
        rw [hpreds] at hmem
        cases hmem
    case failing => exact fun b hb => h.failing b ((herase b).1 hb).2
    case jumps => exact h.jumps
  case closed => exact fun b hb => h.closed b ((herase b).1 hb).2
  case entry_of_live =>
    intro d hd hlive
    obtain ⟨e, hinst, he, hentry⟩ := h.entry_of_live d hd hlive
    refine ⟨e, hinst, (herase e).2 ⟨?_, he⟩, hentry⟩
    rintro rfl
    rw [entry_of_not_special hnot] at hentry
    cases hentry
  case live_of_entry => exact fun b hb => h.live_of_entry b ((herase b).1 hb).2

end Removal

/-- The loop that merges `bb`, begun with the compiler `C₀` and the worklist `W₀`, after the rounds of
`done`. -/
structure Merged (C₀ : MozCompiler) (W₀ : WorkList) (bb : BlockId) (done : List BlockId)
    (st : MergeState) : Prop where
  intact : Intact st.1
  blocks : st.1.blocks = C₀.blocks
  same : (st.1.mem bb).insts = (C₀.mem bb).insts ∧ (st.1.mem bb).succs = (C₀.mem bb).succs ∧
    (st.1.mem bb).type = (C₀.mem bb).type
  preds : ∀ p, p ∈ (st.1.mem bb).preds ↔ p ∈ (C₀.mem bb).preds ∧ p ∉ done
  count : st.2.2 = done.length
  work : ∀ b ∈ W₀, b ∈ st.2.1
  settled : ∀ b, Settled C₀ b → Settled st.1 b

section Loops

variable {C₀ : MozCompiler} {W₀ : WorkList} {bb succ pred b : BlockId} {done : List BlockId}
  {st : MergeState} {inst : Ir}

theorem mem_workListPush {W : WorkList} : b ∈ workListPush W bb ↔ b ∈ W ∨ b = bb := mem_arrayAddOnce

theorem Merged.start (h : Intact C₀) : Merged C₀ W₀ bb [] (C₀, W₀, 0) where
  intact := h
  blocks := rfl
  same := ⟨rfl, rfl, rfl⟩
  preds p := by simp
  count := rfl
  work _ hb := hb
  settled _ hb := hb

theorem Merged.round {C' : MozCompiler} {added : BlockId → Prop} {body : List Ir} {t : Ir}
    (h : Merged C₀ W₀ bb done st) (hpred : pred ∈ (st.1.mem bb).preds) (hne : pred ≠ bb)
    (hround : Round st.1 C' bb pred added) (htakes : Takes st.1 C' bb pred body t)
    (hadded : ¬ added bb) (hnot : (C₀.mem bb).type.isSpecial = false) :
    Merged C₀ W₀ bb (pred :: done) (C', workListPush st.2.1 pred, st.2.2 + 1) where
  intact := by
    have hsucc := h.intact.wired.succ_of_pred pred bb hpred
    have hin := h.intact.targets pred bb ((h.intact.succs pred bb).1 hsucc)
    exact htakes.intact h.intact hround.wired hin.2 hin.1 (by rw [h.same.2.2, hnot])
  blocks := htakes.blocks.trans h.blocks
  same := by
    obtain ⟨hinsts, hsuccs, htype⟩ := h.same
    exact ⟨(hround.insts bb hne.symm).trans hinsts, (hround.succs bb hne.symm).trans hsuccs,
      (htakes.other bb hne.symm).2.trans htype⟩
  preds p := by
    rw [hround.preds bb p, h.preds p]
    simp only [List.mem_cons, not_or]
    constructor
    · rintro (⟨⟨hp, hout⟩, hnot⟩ | ⟨-, hadd⟩)
      · exact ⟨hp, fun heq => hnot ⟨heq, trivial⟩, hout⟩
      · exact absurd hadd hadded
    · exact fun ⟨hp, hneq, hout⟩ => .inl ⟨⟨hp, hout⟩, fun hand => hneq hand.1⟩
  count := by rw [h.count, List.length_cons]
  work b hb := mem_workListPush.2 (.inl (h.work b hb))
  settled b hb := by
    rcases h.settled b hb with hspecial | hself
    · exact .inl (htakes.special b hspecial)
    · refine .inr ((hround.preds b b).2 (.inl ⟨hself, ?_⟩))
      rintro ⟨rfl, rfl⟩
      exact hne rfl

theorem Merged.jump_of_pred (h : Merged C₀ W₀ bb done st) (hpred : pred ∈ (st.1.mem bb).preds) :
    ∃ term, EndsInJump (st.1.mem pred).insts term := by
  have hsucc := h.intact.wired.succ_of_pred pred bb hpred
  obtain ⟨term, hlast, hop⟩ := (h.intact.succs pred bb).1 hsucc
  exact ⟨term, hlast, bb, hop⟩

theorem merged_jump (hC : Intact C₀) (W₀ : WorkList) (hself : bb ∉ (C₀.mem bb).preds)
    (hnot : (C₀.mem bb).type.isSpecial = false) (hsucc : succ ∈ (C₀.mem bb).succs)
    (hinst : blockGetJump C₀ bb = some inst) :
    Merged C₀ W₀ bb (C₀.mem bb).preds
      ((C₀.mem bb).preds.reverse.foldl (mergeJumpIntoPred bb succ inst) (C₀, W₀, 0)) := by
  have hne : bb ≠ succ := by
    rintro rfl
    exact hself (hC.wired.pred_of_succ _ _ hsucc)
  refine foldl_preds (hC.wired.nodup_preds bb) ?_ (.start hC)
  rintro done ⟨C, W, modified⟩ p h hp hout
  have hpbb : p ≠ bb := fun heq => hself (heq ▸ hp)
  have hpred : p ∈ (C.mem bb).preds := (h.preds p).2 ⟨hp, hout⟩
  obtain ⟨term, hterm⟩ := h.jump_of_pred hpred
  have hjump := blockGetJump_eq_some.2 hterm
  have hsucc' : succ ∈ (C.mem bb).succs := h.same.2.1 ▸ hsucc
  have hedge := h.intact.wired.succ_of_pred p bb hpred
  have hinst' : EndsInJump (C.mem bb).insts inst := by
    rw [h.same.1]
    exact blockGetJump_eq_some.1 hinst
  rw [mergeJumpIntoPred_eq hpbb hjump]
  obtain ⟨body, htakes⟩ := takes_jump h.intact hinst' hterm hsucc' hedge
  exact h.round hpred hpbb (jump_round inst h.intact.wired hjump hedge hsucc') htakes hne hnot

theorem merged_exit (hC : Intact C₀) (W₀ : WorkList) (hself : bb ∉ (C₀.mem bb).preds)
    (hnot : (C₀.mem bb).type.isSpecial = false) (hlast : (C₀.mem bb).insts.getLast? = some inst)
    (hret : inst.op = .iRet) :
    Merged C₀ W₀ bb (C₀.mem bb).preds
      ((C₀.mem bb).preds.reverse.foldl (mergeExitIntoPred bb) (C₀, W₀, 0)) := by
  refine foldl_preds (hC.wired.nodup_preds bb) ?_ (.start hC)
  rintro done ⟨C, W, modified⟩ p h hp hout
  have hpbb : p ≠ bb := fun heq => hself (heq ▸ hp)
  have hpred : p ∈ (C.mem bb).preds := (h.preds p).2 ⟨hp, hout⟩
  obtain ⟨term, hterm⟩ := h.jump_of_pred hpred
  have hjump := blockGetJump_eq_some.2 hterm
  have hedge := h.intact.wired.succ_of_pred p bb hpred
  have hlast' : (C.mem bb).insts.getLast? = some inst := by
    rw [h.same.1]
    exact hlast
  rw [mergeExitIntoPred_eq hpbb hjump (h.intact.wired.parent p term hterm)]
  obtain ⟨body, htakes⟩ := takes_exit h.intact hlast' hret hterm hedge
  exact h.round hpred hpbb (exit_round h.intact.wired hjump hlast' hret) htakes id hnot

theorem Merged.nil (h : Merged C₀ W₀ bb (C₀.mem bb).preds st) : (st.1.mem bb).preds = [] := by
  refine List.eq_nil_iff_forall_not_mem.2 fun p hp => ?_
  obtain ⟨hin, hout⟩ := (h.preds p).1 hp
  exact hout hin

end Loops

/-- A step of `simplify_cfg` on `bb`: the graph stays intact, what was on the worklist stays there,
and `bb` is settled or gone. -/
structure Simplified (C : MozCompiler) (W : WorkList) (bb : BlockId)
    (r : MozCompiler × WorkList × Bool) : Prop where
  intact : Intact r.1
  work : ∀ b ∈ W, b ∈ r.2.1
  blocks : ∀ b ∈ r.1.blocks, b ∈ C.blocks
  settled : ∀ b ∈ r.1.blocks, Settled C b → Settled r.1 b
  done : bb ∈ r.1.blocks → Settled r.1 bb

section Steps

variable {C : MozCompiler} {bb succ b : BlockId} {inst : Ir}

theorem jumpResult_simplified (h : Intact C) (W : WorkList) (hself : bb ∉ (C.mem bb).preds)
    (hnot : (C.mem bb).type.isSpecial = false) (hsuccs : (C.mem bb).succs = [succ])
    (hinst : blockGetJump C bb = some inst) :
    Simplified C W bb (jumpResult C W bb succ inst) := by
  have hmerged := merged_jump h W hself hnot (show succ ∈ (C.mem bb).succs by simp [hsuccs]) hinst
  have hparent := h.wired.parent bb inst (blockGetJump_eq_some.1 hinst)
  unfold jumpResult
  dsimp only
  generalize (C.mem bb).preds.reverse.foldl (mergeJumpIntoPred bb succ inst) (C, W, 0) = st at *
  rw [if_pos hmerged.count]
  obtain ⟨-, hsuccs', htype⟩ := hmerged.same
  have hdrop := hmerged.intact.drop hmerged.nil (hsuccs'.trans hsuccs) hparent (htype ▸ hnot)
  have hfinal : ∀ b ∈ (dropBlock (removeFromParent (st.1.blockUnlink bb succ) inst) bb).blocks,
      b ≠ bb ∧ b ∈ C.blocks := by
    intro b hb
    have hb' : b ∈ st.1.blocks.erase bb := hb
    obtain ⟨hne, hin⟩ := hmerged.intact.nodup.mem_erase_iff.1 hb'
    exact ⟨hne, hmerged.blocks ▸ hin⟩
  have hsettled : ∀ b ∈ (dropBlock (removeFromParent (st.1.blockUnlink bb succ) inst) bb).blocks,
      Settled C b →
        Settled (dropBlock (removeFromParent (st.1.blockUnlink bb succ) inst) bb) b := by
    intro b hb hold
    have hmem := mem_removed st.1 succ hparent b
    rcases hmerged.settled b hold with hspecial | hloop
    · left
      rw [hmem, mem_blockUnlink]
      exact hspecial
    · right
      rw [hmem]
      refine (mem_preds_blockUnlink (hmerged.intact.wired.nodup_preds b)).2 ⟨hloop, fun heq => ?_⟩
      exact (hfinal b hb).1 heq.1
  split_ifs
  · exact ⟨hdrop, fun b hb => mem_workListPush.2 (.inl (hmerged.work b hb)),
      fun b hb => (hfinal b hb).2, hsettled, fun hin => absurd rfl (hfinal bb hin).1⟩
  · exact ⟨hdrop, hmerged.work, fun b hb => (hfinal b hb).2, hsettled,
      fun hin => absurd rfl (hfinal bb hin).1⟩

theorem exitResult_simplified (h : Intact C) (W : WorkList) (hself : bb ∉ (C.mem bb).preds)
    (hnot : (C.mem bb).type.isSpecial = false) (hlast : (C.mem bb).insts.getLast? = some inst)
    (hret : inst.op = .iRet) : Simplified C W bb (exitResult C W bb) := by
  have hmerged := merged_exit h W hself hnot hlast hret
  unfold exitResult
  dsimp only
  generalize (C.mem bb).preds.reverse.foldl (mergeExitIntoPred bb) (C, W, 0) = st at *
  rw [if_pos hmerged.count]
  obtain ⟨hinsts, -, htype⟩ := hmerged.same
  have hno : ∀ s, ¬ JumpsTo (st.1.mem bb).insts s := by
    rintro s ⟨t, ht, hop⟩
    rw [hinsts] at ht
    rw [← Option.some.inj (hlast.symm.trans ht), hret] at hop
    cases hop
  have hfinal : ∀ b ∈ st.1.blocks.erase bb, b ≠ bb ∧ b ∈ C.blocks := by
    intro b hb
    obtain ⟨hne, hin⟩ := hmerged.intact.nodup.mem_erase_iff.1 hb
    exact ⟨hne, hmerged.blocks ▸ hin⟩
  exact ⟨hmerged.intact.erase hmerged.nil (htype ▸ hnot) hno, hmerged.work,
    fun b hb => (hfinal b hb).2, fun b _ => hmerged.settled b,
    fun hin => absurd rfl (hfinal bb hin).1⟩

theorem Intact.simplifyCfg_eq (h : Intact C) (W : WorkList) (hbb : bb ∈ C.blocks)
    (hnot : (C.mem bb).type.isSpecial = false) (hself : bb ∉ (C.mem bb).preds) :
    (∃ succ inst, (C.mem bb).succs = [succ] ∧ blockGetJump C bb = some inst ∧
      simplifyCfg C W bb = jumpResult C W bb succ inst) ∨
    ∃ inst, (C.mem bb).insts.getLast? = some inst ∧ inst.op = .iRet ∧
      simplifyCfg C W bb = exitResult C W bb := by
  obtain ⟨body, term, hinsts, hterm, -⟩ := h.closed bb hbb
  have hlast : (C.mem bb).insts.getLast? = some term := by rw [hinsts, List.getLast?_concat]
  have hne : (C.mem bb).insts ≠ [] := by simp [hinsts]
  have hget : blockGetTerminator C bb = some term :=
    Option.filter_eq_some_iff.2 ⟨hlast, hterm⟩
  unfold simplifyCfg
  dsimp only
  rw [if_neg hne, if_neg (by rw [hnot]; exact Bool.false_ne_true), if_neg hself, hget]
  dsimp only
  cases hop : term.op with
  | iJump target =>
    have hjump : EndsInJump (C.mem bb).insts term := ⟨hlast, target, hop⟩
    have hmem : target ∈ (C.mem bb).succs := (h.succs bb target).2 ⟨term, hlast, hop⟩
    have hall : ∀ s ∈ (C.mem bb).succs, s = target := fun s hs =>
      Op.iJump.inj ((h.succ_eq hjump hs).symm.trans hop)
    have hsuccs : (C.mem bb).succs = [target] := by
      have hnodup := h.wired.nodup_succs bb
      generalize (C.mem bb).succs = l at *
      match l, hnodup with
      | [], _ => cases hmem
      | [s], _ => rw [hall s List.mem_cons_self]
      | s :: s' :: l, hnodup =>
        have hs := hall s List.mem_cons_self
        have hs' := hall s' (List.mem_cons_of_mem _ List.mem_cons_self)
        rw [hs, hs'] at hnodup
        exact absurd List.mem_cons_self (List.nodup_cons.1 hnodup).1
    rw [hsuccs]
    exact .inl ⟨target, term, rfl, blockGetJump_eq_some.2 hjump, rfl⟩
  | iRet =>
    refine .inr ⟨term, hlast, hop, ?_⟩
    match (C.mem bb).succs with
    | [] => rfl
    | [_] => rfl
    | _ :: _ :: _ => rfl
  | iFail =>
    have hspecial := h.failing bb hbb term (List.mem_of_getLast? hlast) hop
    rw [hnot] at hspecial
    cases hspecial
  | _ =>
    rw [hop] at hterm
    cases hterm

theorem Intact.simplified (h : Intact C) (W : WorkList) (bb : BlockId) :
    Simplified C W bb (simplifyCfg C W bb) := by
  by_cases hopen : bb ∈ C.blocks ∧ ¬ Settled C bb
  · obtain ⟨hbb, hsettled⟩ := hopen
    obtain ⟨hnot, hself⟩ := not_or.1 hsettled
    rw [Bool.not_eq_true] at hnot
    rcases h.simplifyCfg_eq W hbb hnot hself with ⟨succ, inst, hsuccs, hjump, heq⟩ |
      ⟨inst, hlast, hret, heq⟩
    · rw [heq]
      exact jumpResult_simplified h W hself hnot hsuccs hjump
    · rw [heq]
      exact exitResult_simplified h W hself hnot hlast hret
  · obtain heq | ⟨hnot, hself, hcases⟩ := simplifyCfg_cases C W bb
    · rw [heq]
      refine ⟨h, fun b hb => hb, fun b hb => hb, fun b _ hb => hb, fun hbb => ?_⟩
      by_contra hsettled
      exact hopen ⟨hbb, hsettled⟩
    · rcases hcases with ⟨succ, inst, hsuccs, hjump, heq⟩ | ⟨inst, hlast, hret, heq⟩
      · rw [heq]
        exact jumpResult_simplified h W hself hnot hsuccs hjump
      · rw [heq]
        exact exitResult_simplified h W hself hnot hlast hret

end Steps

end Moz.Compiler
