import Moz.Compiler.Optimize
import Moz.Compiler.Placement

/-!
# The edges between blocks

The edits of `block.c` change one field of a block or two. An edge is listed at
both of its ends, once, and the jump that ends a block knows the block. The
lowering builds graphs in which that holds.
-/

namespace Moz.Compiler

section Edits

variable (C : MozCompiler)

theorem mem_setBlock (bb : BlockId) (block : Block) (b : BlockId) :
    (C.setBlock bb block).mem b = if b = bb then block else C.mem b := rfl

theorem mem_blockLink (pred succ b : BlockId) : (C.blockLink pred succ).mem b =
    ⟨(C.mem b).type, (C.mem b).insts,
      if b = succ then arrayAddOnce (C.mem b).preds pred else (C.mem b).preds,
      if b = pred then arrayAddOnce (C.mem b).succs succ else (C.mem b).succs⟩ := by
  unfold MozCompiler.blockLink
  rw [mem_setBlock, mem_setBlock, mem_setBlock]
  split_ifs <;> simp_all

theorem mem_blockUnlink (pred succ b : BlockId) : (C.blockUnlink pred succ).mem b =
    ⟨(C.mem b).type, (C.mem b).insts,
      if b = succ then (C.mem b).preds.erase pred else (C.mem b).preds,
      if b = pred then (C.mem b).succs.erase succ else (C.mem b).succs⟩ := by
  unfold MozCompiler.blockUnlink
  rw [mem_setBlock, mem_setBlock, mem_setBlock]
  split_ifs <;> simp_all

end Edits

theorem mem_arrayAddOnce {α : Type} [DecidableEq α] {a : List α} {v x : α} :
    x ∈ arrayAddOnce a v ↔ x ∈ a ∨ x = v := by
  unfold arrayAddOnce
  split_ifs with h
  · exact ⟨.inl, fun hx => hx.elim id fun heq => heq ▸ h⟩
  · simp

theorem nodup_arrayAddOnce {α : Type} [DecidableEq α] {a : List α} (v : α) (h : a.Nodup) :
    (arrayAddOnce a v).Nodup := by
  unfold arrayAddOnce
  split_ifs with hv
  · exact h
  · exact List.nodup_append.2 ⟨h, List.nodup_singleton v, by
      rintro x hx _ hv' rfl
      exact hv (List.mem_singleton.1 hv' ▸ hx)⟩

section Lists

variable {C : MozCompiler} {pred succ b s : BlockId}

theorem mem_succs_blockLink : s ∈ ((C.blockLink pred succ).mem b).succs ↔
    s ∈ (C.mem b).succs ∨ b = pred ∧ s = succ := by
  rw [mem_blockLink]
  dsimp only
  split_ifs with h
  · simp [mem_arrayAddOnce, h]
  · simp [h]

theorem mem_preds_blockLink : s ∈ ((C.blockLink pred succ).mem b).preds ↔
    s ∈ (C.mem b).preds ∨ s = pred ∧ b = succ := by
  rw [mem_blockLink]
  dsimp only
  split_ifs with h
  · simp [mem_arrayAddOnce, h]
  · simp [h]

theorem mem_succs_blockUnlink (hb : (C.mem b).succs.Nodup) :
    s ∈ ((C.blockUnlink pred succ).mem b).succs ↔ s ∈ (C.mem b).succs ∧ ¬(b = pred ∧ s = succ) := by
  rw [mem_blockUnlink]
  dsimp only
  split_ifs with h
  · rw [hb.mem_erase_iff]
    simp [h, and_comm]
  · simp [h]

theorem mem_preds_blockUnlink (hb : (C.mem b).preds.Nodup) :
    s ∈ ((C.blockUnlink pred succ).mem b).preds ↔ s ∈ (C.mem b).preds ∧ ¬(s = pred ∧ b = succ) := by
  rw [mem_blockUnlink]
  dsimp only
  split_ifs with h
  · rw [hb.mem_erase_iff]
    simp [h, and_comm]
  · simp [h]

end Lists

def EndsInJump (insts : List Ir) (term : Ir) : Prop :=
  insts.getLast? = some term ∧ ∃ target, term.op = .iJump target

/-- The lists of edges agree, and a jump at the end of a block has the block as its parent. -/
structure Wired (C : MozCompiler) : Prop where
  pred_of_succ : ∀ b s, s ∈ (C.mem b).succs → b ∈ (C.mem s).preds
  succ_of_pred : ∀ b s, b ∈ (C.mem s).preds → s ∈ (C.mem b).succs
  nodup_preds : ∀ b, (C.mem b).preds.Nodup
  nodup_succs : ∀ b, (C.mem b).succs.Nodup
  parent : ∀ b term, EndsInJump (C.mem b).insts term → term.parent = b
  bound : ∀ b s, s ∈ (C.mem b).succs → b < C.maxBlockId ∧ s < C.maxBlockId

section Lowering

variable {C : MozCompiler} {S : MozState}

theorem Wired.link (h : Wired C) {pred succ : BlockId} (hpred : pred < C.maxBlockId)
    (hsucc : succ < C.maxBlockId) : Wired (C.blockLink pred succ) := by
  constructor
  case pred_of_succ =>
    intro b s hs
    rw [mem_succs_blockLink] at hs
    rw [mem_preds_blockLink]
    exact hs.imp (h.pred_of_succ b s) id
  case succ_of_pred =>
    intro b s hs
    rw [mem_preds_blockLink] at hs
    rw [mem_succs_blockLink]
    exact hs.imp (h.succ_of_pred b s) id
  case nodup_preds =>
    intro b
    rw [mem_blockLink]
    dsimp only
    split_ifs
    · exact nodup_arrayAddOnce pred (h.nodup_preds b)
    · exact h.nodup_preds b
  case nodup_succs =>
    intro b
    rw [mem_blockLink]
    dsimp only
    split_ifs
    · exact nodup_arrayAddOnce succ (h.nodup_succs b)
    · exact h.nodup_succs b
  case parent =>
    intro b term hterm
    rw [mem_blockLink] at hterm
    exact h.parent b term hterm
  case bound =>
    intro b s hs
    rcases mem_succs_blockLink.1 hs with hs | ⟨rfl, rfl⟩
    · exact h.bound b s hs
    · exact ⟨hpred, hsucc⟩

theorem Wired.unlink (h : Wired C) (pred succ : BlockId) : Wired (C.blockUnlink pred succ) := by
  constructor
  case pred_of_succ =>
    intro b s hs
    rw [mem_succs_blockUnlink (h.nodup_succs b)] at hs
    rw [mem_preds_blockUnlink (h.nodup_preds s)]
    exact ⟨h.pred_of_succ b s hs.1, hs.2⟩
  case succ_of_pred =>
    intro b s hs
    rw [mem_preds_blockUnlink (h.nodup_preds s)] at hs
    rw [mem_succs_blockUnlink (h.nodup_succs b)]
    exact ⟨h.succ_of_pred b s hs.1, hs.2⟩
  case nodup_preds =>
    intro b
    rw [mem_blockUnlink]
    dsimp only
    split_ifs
    · exact (h.nodup_preds b).erase pred
    · exact h.nodup_preds b
  case nodup_succs =>
    intro b
    rw [mem_blockUnlink]
    dsimp only
    split_ifs
    · exact (h.nodup_succs b).erase succ
    · exact h.nodup_succs b
  case parent =>
    intro b term hterm
    rw [mem_blockUnlink] at hterm
    exact h.parent b term hterm
  case bound =>
    intro b s hs
    exact h.bound b s ((mem_succs_blockUnlink (h.nodup_succs b)).1 hs).1

theorem Wired.edit {C' : MozCompiler} (h : Wired C) (hpreds : ∀ b, (C'.mem b).preds = (C.mem b).preds)
    (hsuccs : ∀ b, (C'.mem b).succs = (C.mem b).succs) (hmax : C.maxBlockId ≤ C'.maxBlockId)
    (hparent : ∀ b term, EndsInJump (C'.mem b).insts term → term.parent = b) : Wired C' where
  pred_of_succ b s := by
    rw [hsuccs, hpreds]
    exact h.pred_of_succ b s
  succ_of_pred b s := by
    rw [hsuccs, hpreds]
    exact h.succ_of_pred b s
  nodup_preds b := by
    rw [hpreds]
    exact h.nodup_preds b
  nodup_succs b := by
    rw [hsuccs]
    exact h.nodup_succs b
  parent := hparent
  bound b s hs := by
    rw [hsuccs] at hs
    exact (h.bound b s hs).imp (·.trans_le hmax) (·.trans_le hmax)

theorem edges_emit (C : MozCompiler) (S : MozState) (op : Op) (b : BlockId) :
    ((mozCompilerEmit C S op).mem b).preds = (C.mem b).preds ∧
      ((mozCompilerEmit C S op).mem b).succs = (C.mem b).succs := by
  unfold mozCompilerEmit irAlloc mozCompilerAdd MozCompiler.blockAppend MozCompiler.blockSetType
  dsimp only
  rw [mem_setBlock, mem_setBlock, mem_setBlock]
  split_ifs <;> simp_all

theorem Wired.emit (h : Wired C) (S : MozState) (op : Op) : Wired (mozCompilerEmit C S op) := by
  refine h.edit (fun b => (edges_emit C S op b).1) (fun b => (edges_emit C S op b).2) le_rfl ?_
  intro b term hterm
  have hinsts : ((mozCompilerEmit C S op).mem b).insts = (mozCompilerEmit C S op).insts b := rfl
  rw [hinsts, insts_emit] at hterm
  split_ifs at hterm with hb
  · obtain ⟨hlast, -⟩ := hterm
    rw [List.getLast?_concat] at hlast
    obtain rfl := Option.some.inj hlast
    exact hb.symm
  · exact h.parent b term hterm

theorem Wired.setType (h : Wired C) (bb : BlockId) (type : BlockType) :
    Wired (C.blockSetType bb type) := by
  have hmem : ∀ b, ((C.blockSetType bb type).mem b).preds = (C.mem b).preds ∧
      ((C.blockSetType bb type).mem b).succs = (C.mem b).succs := by
    intro b
    unfold MozCompiler.blockSetType
    rw [mem_setBlock]
    split_ifs <;> simp_all
  refine h.edit (fun b => (hmem b).1) (fun b => (hmem b).2) le_rfl fun b term hterm => ?_
  have hinsts : ((C.blockSetType bb type).mem b).insts = (C.blockSetType bb type).insts b := rfl
  rw [hinsts, insts_blockSetType] at hterm
  exact h.parent b term hterm

/-- A new block has no edges, and neither has anything an edge to its place. -/
theorem Wired.newBlock (h : Wired C) (type : BlockType) :
    Wired (mozCompilerCreateNamedBlock C type).1 := by
  have hmem : ∀ b, (mozCompilerCreateNamedBlock C type).1.mem b =
      if b = C.maxBlockId then { type := type } else C.mem b := fun b => rfl
  have hnone : (C.mem C.maxBlockId).preds = [] ∧ (C.mem C.maxBlockId).succs = [] := by
    constructor
    · refine List.eq_nil_iff_forall_not_mem.2 fun b hb => ?_
      exact absurd (h.bound b _ (h.succ_of_pred b _ hb)).2 (lt_irrefl _)
    · refine List.eq_nil_iff_forall_not_mem.2 fun s hs => ?_
      exact absurd (h.bound _ s hs).1 (lt_irrefl _)
  refine h.edit (fun b => ?_) (fun b => ?_) (Nat.le_succ _) fun b term hterm => ?_
  · rw [hmem]
    split_ifs with hb
    · rw [hb, hnone.1]
    · rfl
  · rw [hmem]
    split_ifs with hb
    · rw [hb, hnone.2]
    · rfl
  · rw [hmem] at hterm
    split_ifs at hterm with hb
    · cases hterm.1
    · exact h.parent b term hterm

structure MozState.Valid (S : MozState) (C : MozCompiler) : Prop where
  head : S.head < C.maxBlockId
  cur : S.cur < C.maxBlockId
  next : S.next < C.maxBlockId
  fail : S.fail < C.maxBlockId

theorem MozState.Valid.mono {C' : MozCompiler} (h : S.Valid C) (hmax : C.maxBlockId ≤ C'.maxBlockId) :
    S.Valid C' :=
  ⟨h.head.trans_le hmax, h.cur.trans_le hmax, h.next.trans_le hmax, h.fail.trans_le hmax⟩

structure Lowers (C : MozCompiler) (r : MozCompiler × MozState) : Prop where
  wired : Wired r.1
  valid : r.2.Valid r.1
  maxBlockId : C.maxBlockId ≤ r.1.maxBlockId

theorem Wired.jump (h : Wired C) (S : MozState) {bb1 bb2 : BlockId} (hbb1 : bb1 < C.maxBlockId)
    (hbb2 : bb2 < C.maxBlockId) : Wired (mozCompilerLink C S bb1 bb2) :=
  (h.emit S (.iJump bb2)).link hbb1 hbb2

theorem Lowers.one {C' : MozCompiler} (hS : S.Valid C) (op : Op) (hC : Wired C')
    (hmax : C'.maxBlockId = C.maxBlockId) : Lowers C (mozCompilerEmit C' S op, S) where
  wired := hC.emit S op
  valid := hS.mono hmax.ge
  maxBlockId := hmax.ge

end Lowering

/-- The lowering of every instance of an expression keeps the graph. -/
def KeepsGraph (e : Expr) : Prop :=
  ∀ C S, Wired C → S.Valid C → Lowers C (mozExprToIr e C S)

section Constructs

variable {C : MozCompiler} {S : MozState} {e x : Expr} {list : List Expr} {blocks : List BlockId}

theorem wired_newBlocks (h : Wired C) : Wired (newBlock (newBlock (newBlock C))) :=
  ((h.newBlock _).newBlock _).newBlock _

theorem headD_lt {n : ℕ} (h : ∀ b ∈ blocks, b < n) (hpos : 0 < n) : blocks.headD 0 < n := by
  cases blocks with
  | nil => exact hpos
  | cons b blocks => exact h b (List.mem_cons_self ..)

theorem createBlocks_lowers (n : ℕ) (h : Wired C) : Wired (mozCompilerCreateBlocks C n).1 ∧
    C.maxBlockId ≤ (mozCompilerCreateBlocks C n).1.maxBlockId ∧
      ∀ b ∈ (mozCompilerCreateBlocks C n).2, b < (mozCompilerCreateBlocks C n).1.maxBlockId := by
  obtain ⟨hgrows, hfree, -, -⟩ := mozCompilerCreateBlocks_spec n C
  refine ⟨?_, hgrows.maxBlockId, hfree.lt⟩
  induction n generalizing C with
  | zero => exact h
  | succ n ih =>
    obtain ⟨hgrows, hfree, -, -⟩ := mozCompilerCreateBlocks_spec n (newBlock C)
    exact ih (h.newBlock _) hgrows hfree

/-- `And` and `Not` up to the jump after the body. -/
theorem KeepsGraph.predicate (ih : KeepsGraph e) (h : Wired C) (hS : S.Valid C)
    (next fail : BlockId) (hnext : next < C.maxBlockId + 3) (hfail : fail < C.maxBlockId + 3) :
    Lowers C (mozPredicateToIr e C S next fail) ∧
      C.maxBlockId + 3 ≤ (mozPredicateToIr e C S next fail).1.maxBlockId := by
  unfold mozPredicateToIr
  have h₁ := wired_newBlocks h
  have hmax₁ : (newBlock (newBlock (newBlock C))).maxBlockId = C.maxBlockId + 3 := rfl
  generalize newBlock (newBlock (newBlock C)) = C₁ at *
  dsimp only
  have hcur := hS.cur
  have hhead := hS.head
  have h₂ : Wired (mozCompilerLink C₁ S S.cur C.maxBlockId) := h₁.jump S (by lia) (by lia)
  have hmax₂ : (mozCompilerLink C₁ S S.cur C.maxBlockId).maxBlockId = C.maxBlockId + 3 := hmax₁
  generalize mozCompilerLink C₁ S S.cur C.maxBlockId = C₂ at *
  generalize hS₁ : MozState.mk S.head C.maxBlockId next fail = S₁
  have h₃ := h₂.emit S₁ .iPStore
  have hmax₃ : (mozCompilerEmit C₂ S₁ .iPStore).maxBlockId = C.maxBlockId + 3 := hmax₂
  generalize mozCompilerEmit C₂ S₁ .iPStore = C₃ at *
  have hvalid : S₁.Valid C₃ := by
    rw [← hS₁]
    exact ⟨by lia, by lia, by lia, by lia⟩
  have h₄ := ih C₃ S₁ h₃ hvalid
  generalize mozExprToIr e C₃ S₁ = r at *
  have hmax₄ := h₄.maxBlockId
  have hmax₅ : (mozCompilerLink r.1 r.2 r.2.cur r.2.next).maxBlockId = r.1.maxBlockId := rfl
  exact ⟨⟨h₄.wired.jump r.2 h₄.valid.cur h₄.valid.next, h₄.valid.mono hmax₅.ge, by lia⟩, by lia⟩

theorem KeepsGraph.and (ih : KeepsGraph e) : KeepsGraph (.and e) := by
  intro C S h hS
  rw [mozExprToIr_and]
  dsimp only
  obtain ⟨h₁, hmax₁⟩ := ih.predicate h hS (C.maxBlockId + 1) (C.maxBlockId + 2)
    (by lia) (by lia)
  generalize mozPredicateToIr e C S (C.maxBlockId + 1) (C.maxBlockId + 2) = r at *
  have hfail := hS.fail
  have h₂ := h₁.wired.emit { r.2 with cur := r.2.next, fail := S.fail } .iPLoad
  have hmax₂ : (mozCompilerEmit r.1 { r.2 with cur := r.2.next, fail := S.fail }
    .iPLoad).maxBlockId = r.1.maxBlockId := rfl
  generalize mozCompilerEmit r.1 { r.2 with cur := r.2.next, fail := S.fail } .iPLoad = C₂ at *
  have hvalid : S.Valid C₂ := (hS.mono h₁.maxBlockId).mono hmax₂.ge
  have hnext := h₁.valid.next.trans_le hmax₂.ge
  refine ⟨h₂.jump _ (by lia) (by lia), ?_, ?_⟩
  · exact ⟨hvalid.head, hnext, hvalid.next, hvalid.fail⟩
  · exact h₁.maxBlockId.trans hmax₂.ge

theorem KeepsGraph.notBlocks (ih : KeepsGraph e) (h : Wired C) (hS : S.Valid C) :
    Lowers C (mozNotToBlocks e C S) := by
  rw [mozNotToBlocks_eq]
  dsimp only
  obtain ⟨h₁, hmax₁⟩ := ih.predicate h hS (C.maxBlockId + 2) (C.maxBlockId + 1)
    (by lia) (by lia)
  generalize mozPredicateToIr e C S (C.maxBlockId + 2) (C.maxBlockId + 1) = r at *
  have hvalid : S.Valid r.1 := hS.mono h₁.maxBlockId
  generalize hS₁ : MozState.mk r.2.head r.2.next r.2.next r.2.fail = S₁
  have h₂ := h₁.wired.jump S₁ h₁.valid.next hvalid.fail
  have hmax₂ : (mozCompilerLink r.1 S₁ r.2.next S.fail).maxBlockId = r.1.maxBlockId := rfl
  generalize mozCompilerLink r.1 S₁ r.2.next S.fail = C₂ at *
  generalize hS₂ : MozState.mk r.2.head r.2.fail r.2.next S.fail = S₂
  have h₃ := h₂.emit S₂ .iPLoad
  have hmax₃ : (mozCompilerEmit C₂ S₂ .iPLoad).maxBlockId = C₂.maxBlockId := rfl
  generalize mozCompilerEmit C₂ S₂ .iPLoad = C₃ at *
  have hmax₁ := h₁.maxBlockId
  have hvalid₃ := hvalid.mono (hmax₂.ge.trans hmax₃.ge)
  have hfail := h₁.valid.fail
  exact ⟨h₃, ⟨hvalid₃.head, by lia, hvalid₃.next, hvalid₃.fail⟩, by lia⟩

theorem KeepsGraph.optionBlocks (ih : KeepsGraph e) (h : Wired C) (hS : S.Valid C) :
    Lowers C (mozOptionToBlocks e C S) := by
  rw [mozOptionToBlocks_eq]
  dsimp only
  have h₁ : Wired (newBlock C) := h.newBlock _
  have hmax₁ : (newBlock C).maxBlockId = C.maxBlockId + 1 := rfl
  generalize newBlock C = C₁ at *
  have hvalid : S.Valid C₁ := hS.mono (by lia)
  have h₂ := ih C₁ { S with next := C.maxBlockId, fail := C.maxBlockId } h₁
    ⟨hvalid.head, hvalid.cur, by lia, by lia⟩
  generalize mozExprToIr e C₁ { S with next := C.maxBlockId, fail := C.maxBlockId } = r at *
  have hmax₂ := h₂.maxBlockId
  have hvalid₂ : S.Valid r.1 := hvalid.mono h₂.maxBlockId
  refine ⟨h₂.wired.jump r.2 h₂.valid.cur h₂.valid.fail, ?_, ?_⟩
  · exact ⟨hvalid₂.head, h₂.valid.fail, hvalid₂.next, hvalid₂.fail⟩
  · show C.maxBlockId ≤ r.1.maxBlockId
    lia

def KeepsGraphSequence (list : List Expr) : Prop :=
  ∀ blocks C S, Wired C → S.Valid C → (∀ b ∈ blocks, b < C.maxBlockId) →
    Lowers C (mozSequenceToIr list blocks C S)

theorem KeepsGraphSequence.cons (hx : KeepsGraph x) (ih : KeepsGraphSequence list) :
    KeepsGraphSequence (x :: list) := by
  intro blocks C S h hS hblocks
  rw [mozSequenceToIr]
  dsimp only [mozCompilerSetLabel]
  have hbb := headD_lt hblocks (Nat.zero_lt_of_lt hS.cur)
  have h₁ := h.jump S hS.cur hbb
  have hvalid : ({ S with cur := blocks.headD 0 } : MozState).Valid
      (mozCompilerLink C S S.cur (blocks.headD 0)) := ⟨hS.head, hbb, hS.next, hS.fail⟩
  have h₂ := hx _ _ h₁ hvalid
  generalize mozExprToIr x _ _ = r at *
  have h₃ := ih blocks.tail r.1 r.2 h₂.wired h₂.valid fun b hb =>
    (hblocks b (List.mem_of_mem_tail hb)).trans_le h₂.maxBlockId
  exact ⟨h₃.wired, h₃.valid, h₂.maxBlockId.trans h₃.maxBlockId⟩

theorem KeepsGraph.sequence (ih : KeepsGraphSequence list) : KeepsGraph (.sequence list) := by
  intro C S h hS
  rw [mozExprToIr_sequence]
  dsimp only
  have h₁ : Wired (newBlock C) := h.newBlock _
  have hmax₁ : (newBlock C).maxBlockId = C.maxBlockId + 1 := rfl
  generalize newBlock C = C₁ at *
  obtain ⟨h₂, hmax₂, hblocks⟩ := createBlocks_lowers list.length h₁
  generalize mozCompilerCreateBlocks C₁ list.length = bs at *
  have hvalid : S.Valid bs.1 := hS.mono (by lia)
  have h₃ := ih bs.2 bs.1 { S with next := C.maxBlockId } h₂
    ⟨hvalid.head, hvalid.cur, by lia, hvalid.fail⟩ hblocks
  generalize mozSequenceToIr list bs.2 bs.1 { S with next := C.maxBlockId } = r at *
  have hvalid₃ : S.Valid r.1 := hvalid.mono h₃.maxBlockId
  have hmax₃ := h₃.maxBlockId
  refine ⟨h₃.wired.jump r.2 h₃.valid.cur h₃.valid.next, ?_, ?_⟩
  · exact ⟨hvalid₃.head, h₃.valid.next, hvalid₃.next, hvalid₃.fail⟩
  · show C.maxBlockId ≤ r.1.maxBlockId
    lia

def KeepsGraphChoice (list : List Expr) : Prop :=
  ∀ next blocks C S, Wired C → S.Valid C → next < C.maxBlockId →
    (∀ b ∈ blocks, b < C.maxBlockId) → Lowers C (mozChoiceToIr next list blocks C S)

/-- One alternative of a choice, or one element of a repetition, and the jump after it. -/
theorem KeepsGraph.element (hx : KeepsGraph x) (h : Wired C) (hS : S.Valid C) {bb next fail : BlockId}
    (hbb : bb < C.maxBlockId) (hnext : next < C.maxBlockId) (hfail : fail < C.maxBlockId)
    (target : MozState → BlockId)
    (htarget : ∀ (C' : MozCompiler) S', S'.Valid C' → C.maxBlockId ≤ C'.maxBlockId →
      target S' < C'.maxBlockId) :
    let r := mozExprToIr x C { S with cur := bb, next := next, fail := fail }
    Lowers C (mozCompilerLink r.1 r.2 r.2.cur (target r.2), r.2) := by
  have h₁ := hx C { S with cur := bb, next := next, fail := fail } h ⟨hS.head, hbb, hnext, hfail⟩
  generalize mozExprToIr x C { S with cur := bb, next := next, fail := fail } = r at *
  have hmax : (mozCompilerLink r.1 r.2 r.2.cur (target r.2)).maxBlockId = r.1.maxBlockId := rfl
  exact ⟨h₁.wired.jump r.2 h₁.valid.cur (htarget r.1 r.2 h₁.valid h₁.maxBlockId),
    h₁.valid.mono hmax.ge, h₁.maxBlockId⟩

theorem KeepsGraphChoice.cons (hx : KeepsGraph x) (ih : KeepsGraphChoice list) :
    KeepsGraphChoice (x :: list) := by
  intro next blocks C S h hS hnext hblocks
  rw [mozChoiceToIr]
  dsimp only [mozCompilerSetLabel]
  have hpos := Nat.zero_lt_of_lt hS.cur
  have h₁ := hx.element h hS (headD_lt hblocks hpos) hnext
    (headD_lt (fun b hb => hblocks b (List.mem_of_mem_tail hb)) hpos)
    MozState.next fun C' S' hS' _ => hS'.next
  dsimp only at h₁
  generalize mozExprToIr x C _ = r at *
  generalize mozCompilerLink r.1 r.2 r.2.cur r.2.next = C₁ at *
  have h₂ := ih next blocks.tail C₁ r.2 h₁.wired h₁.valid (hnext.trans_le h₁.maxBlockId)
    fun b hb => (hblocks b (List.mem_of_mem_tail hb)).trans_le h₁.maxBlockId
  exact ⟨h₂.wired, h₂.valid, h₁.maxBlockId.trans h₂.maxBlockId⟩

theorem KeepsGraph.choice (ih : KeepsGraphChoice list) : KeepsGraph (.choice list) := by
  intro C S h hS
  rw [mozExprToIr_choice]
  dsimp only
  obtain ⟨h₁, hmax₁, hblocks⟩ := createBlocks_lowers list.length h
  generalize mozCompilerCreateBlocks C list.length = bs at *
  have h₂ : Wired (newBlock bs.1) := h₁.newBlock _
  have hmax₂ : (newBlock bs.1).maxBlockId = bs.1.maxBlockId + 1 := rfl
  generalize newBlock bs.1 = C₂ at *
  have hvalid : S.Valid C₂ := hS.mono (by lia)
  have hall : ∀ b ∈ bs.2 ++ [S.fail], b < C₂.maxBlockId := by
    intro b hb
    rcases List.mem_append.1 hb with hb | hb
    · have := hblocks b hb
      lia
    · rw [List.mem_singleton.1 hb]
      exact hvalid.fail
  have h₃ := h₂.jump S hvalid.cur (headD_lt hall (Nat.zero_lt_of_lt hvalid.cur))
  have hmax₃ : (mozCompilerLink C₂ S S.cur ((bs.2 ++ [S.fail]).headD 0)).maxBlockId =
      C₂.maxBlockId := rfl
  generalize mozCompilerLink C₂ S S.cur ((bs.2 ++ [S.fail]).headD 0) = C₃ at *
  have h₄ := ih bs.1.maxBlockId (bs.2 ++ [S.fail]) C₃ S h₃ (hvalid.mono hmax₃.ge) (by lia)
    fun b hb => (hall b hb).trans_le hmax₃.ge
  generalize mozChoiceToIr bs.1.maxBlockId list (bs.2 ++ [S.fail]) C₃ S = r at *
  have hmax₄ := h₄.maxBlockId
  have hvalid₄ : S.Valid r.1 := hvalid.mono (by lia)
  exact ⟨h₄.wired, ⟨hvalid₄.head, h₄.valid.next, hvalid₄.next, hvalid₄.fail⟩, by lia⟩

def KeepsGraphRounds (list : List Expr) : Prop :=
  ∀ fail blocks C S, Wired C → S.Valid C → fail < C.maxBlockId →
    (∀ b ∈ blocks, b < C.maxBlockId) → Lowers C (mozRepetitionToIr fail list blocks C S)

theorem KeepsGraphRounds.cons (hx : KeepsGraph x) (ih : KeepsGraphRounds list) :
    KeepsGraphRounds (x :: list) := by
  intro fail blocks C S h hS hfail hblocks
  rw [mozRepetitionToIr]
  dsimp only [mozCompilerSetLabel]
  have hpos := Nat.zero_lt_of_lt hS.cur
  have hnext := headD_lt (fun b hb => hblocks b (List.mem_of_mem_tail hb)) hpos
  have h₁ := hx.element h hS (headD_lt hblocks hpos) hnext hfail
    (fun _ => blocks.tail.headD 0) fun C' S' _ hmax => hnext.trans_le hmax
  dsimp only at h₁
  generalize mozExprToIr x C _ = r at *
  generalize mozCompilerLink r.1 r.2 r.2.cur _ = C₁ at *
  have h₂ := ih fail blocks.tail C₁ r.2 h₁.wired h₁.valid (hfail.trans_le h₁.maxBlockId)
    fun b hb => (hblocks b (List.mem_of_mem_tail hb)).trans_le h₁.maxBlockId
  exact ⟨h₂.wired, h₂.valid, h₁.maxBlockId.trans h₂.maxBlockId⟩

theorem KeepsGraphRounds.repetitionBlocks (ih : KeepsGraphRounds list) (h : Wired C)
    (hS : S.Valid C) : Lowers C (mozRepetitionToBlocks list C S) := by
  rw [mozRepetitionToBlocks_eq]
  dsimp only
  obtain ⟨h₁, hmax₁, hblocks⟩ := createBlocks_lowers list.length h
  generalize mozCompilerCreateBlocks C list.length = bs at *
  have h₂ : Wired (newBlock (bs.1.blockSetType S.cur .blockLoopHead)) :=
    (h₁.setType _ _).newBlock _
  have hmax₂ : (newBlock (bs.1.blockSetType S.cur .blockLoopHead)).maxBlockId =
      bs.1.maxBlockId + 1 := rfl
  generalize newBlock (bs.1.blockSetType S.cur .blockLoopHead) = C₂ at *
  have hvalid : S.Valid C₂ := hS.mono (by lia)
  have hall : ∀ b ∈ bs.2 ++ [S.cur], b < C₂.maxBlockId := by
    intro b hb
    rcases List.mem_append.1 hb with hb | hb
    · have := hblocks b hb
      lia
    · rw [List.mem_singleton.1 hb]
      exact hvalid.cur
  generalize hS₁ : MozState.mk S.head S.cur S.next bs.1.maxBlockId = S₁
  have h₃ := h₂.jump S₁ hvalid.cur (headD_lt hall (Nat.zero_lt_of_lt hvalid.cur))
  have hmax₃ : (mozCompilerLink C₂ S₁ S.cur ((bs.2 ++ [S.cur]).headD 0)).maxBlockId =
      C₂.maxBlockId := rfl
  generalize mozCompilerLink C₂ S₁ S.cur ((bs.2 ++ [S.cur]).headD 0) = C₃ at *
  have hvalid₁ : S₁.Valid C₃ := by
    rw [← hS₁]
    have hvalid₃ : S.Valid C₃ := hvalid.mono hmax₃.ge
    exact ⟨hvalid₃.head, hvalid₃.cur, hvalid₃.next, by lia⟩
  have h₄ := ih bs.1.maxBlockId (bs.2 ++ [S.cur]) C₃ S₁ h₃ hvalid₁ (by lia)
    fun b hb => (hall b hb).trans_le hmax₃.ge
  generalize mozRepetitionToIr bs.1.maxBlockId list (bs.2 ++ [S.cur]) C₃ S₁ = r at *
  have hmax₄ := h₄.maxBlockId
  have hvalid₄ : S.Valid r.1 := hvalid.mono (by lia)
  exact ⟨h₄.wired, ⟨hvalid₄.head, by lia, hvalid₄.next, hvalid₄.fail⟩, by lia⟩

theorem keepsGraph_emit {op : Op} (he : ∀ C S, mozExprToIr e C S = (mozCompilerEmit C S op, S)) :
    KeepsGraph e := by
  intro C S h hS
  rw [he]
  exact .one hS op h rfl

theorem Wired.pools {C' : MozCompiler} (h : Wired C) (hmem : C'.mem = C.mem)
    (hmax : C'.maxBlockId = C.maxBlockId) : Wired C' :=
  h.edit (fun b => by rw [hmem]) (fun b => by rw [hmem]) hmax.ge
    fun b term hterm => h.parent b term (by rwa [hmem] at hterm)

theorem keepsGraph_set {set : Bitset} {op : UInt16 → Op}
    (he : ∀ C S, mozExprToIr e C S =
      (mozCompilerEmit (mozCompilerAddSet C set).1 S (op (mozCompilerAddSet C set).2), S)) :
    KeepsGraph e := by
  intro C S h hS
  have hsame : (mozCompilerAddSet C set).1.mem = C.mem ∧
      (mozCompilerAddSet C set).1.maxBlockId = C.maxBlockId := by
    unfold mozCompilerAddSet
    split <;> exact ⟨rfl, rfl⟩
  rw [he]
  exact .one hS _ (h.pools hsame.1 hsame.2) hsame.2

theorem keepsGraph_string {text : List UInt8} {op : UInt16 → Op}
    (he : ∀ C S, mozExprToIr e C S =
      (mozCompilerEmit (mozCompilerAddString C text).1 S (op (mozCompilerAddString C text).2), S)) :
    KeepsGraph e := by
  intro C S h hS
  rw [he]
  exact .one hS _ (h.pools rfl rfl) rfl

theorem keepsGraph_tag {name : List UInt8} {op : UInt16 → Op}
    (he : ∀ C S, mozExprToIr e C S =
      (mozCompilerEmit (mozCompilerAddTag C name).1 S (op (mozCompilerAddTag C name).2), S)) :
    KeepsGraph e := by
  intro C S h hS
  rw [he]
  exact .one hS _ (h.pools rfl rfl) rfl

end Constructs

mutual

theorem keepsGraph : ∀ e : Expr, KeepsGraph e
  | .empty => fun _ _ h hS => ⟨h, hS, le_rfl⟩
  | .todo _ => fun _ _ h hS => ⟨h, hS, le_rfl⟩
  | .invoke _ => keepsGraph_emit fun _ _ => rfl
  | .any => keepsGraph_emit fun _ _ => rfl
  | .byte _ => keepsGraph_emit fun _ _ => rfl
  | .str _ => keepsGraph_string fun _ _ => rfl
  | .set _ => keepsGraph_set fun _ _ => rfl
  | .fail => fun _ _ h hS => .one hS _ h rfl
  | .and e => (keepsGraph e).and
  | .not e => by
    cases he : (Expr.not e).specialised with
    | false =>
      intro C S h hS
      rw [mozExprToIr_of_not_specialised he]
      exact (keepsGraph e).notBlocks h hS
    | true =>
      cases e with
      | any => exact keepsGraph_emit fun _ _ => rfl
      | _ => cases he
  | .option e => by
    cases he : (Expr.option e).specialised with
    | false =>
      intro C S h hS
      rw [mozExprToIr_of_not_specialised he]
      exact (keepsGraph e).optionBlocks h hS
    | true =>
      cases e with
      | byte => exact keepsGraph_emit fun _ _ => rfl
      | str => exact keepsGraph_string fun _ _ => rfl
      | set => exact keepsGraph_set fun _ _ => rfl
      | _ => cases he
  | .choice list => .choice (keepsGraphChoice list)
  | .sequence list => .sequence (keepsGraphSequence list)
  | .repetition list => by
    cases he : (Expr.repetition list).specialised with
    | false =>
      intro C S h hS
      rw [mozExprToIr_of_not_specialised he]
      exact (keepsGraphRounds list).repetitionBlocks h hS
    | true =>
      match list, he with
      | [], he => cases he
      | _ :: _ :: _, he => exact absurd he (by simp [Expr.specialised])
      | [x], he =>
        cases x with
        | any => exact keepsGraph_emit fun _ _ => rfl
        | byte => exact keepsGraph_emit fun _ _ => rfl
        | str => exact keepsGraph_string fun _ _ => rfl
        | set => exact keepsGraph_set fun _ _ => rfl
        | _ => cases he
  | .tcapture => keepsGraph_emit fun _ _ => rfl
  | .tpush => keepsGraph_emit fun _ _ => rfl
  | .tpop _ => keepsGraph_tag fun _ _ => rfl
  | .tnew => keepsGraph_emit fun _ _ => rfl
  | .ttag _ => keepsGraph_tag fun _ _ => rfl

theorem keepsGraphSequence : ∀ list : List Expr, KeepsGraphSequence list
  | [] => fun blocks C S h hS _ => by
    rw [mozSequenceToIr]
    exact ⟨h, hS, le_rfl⟩
  | x :: list => .cons (keepsGraph x) (keepsGraphSequence list)

theorem keepsGraphChoice : ∀ list : List Expr, KeepsGraphChoice list
  | [] => fun next blocks C S h hS _ _ => by
    rw [mozChoiceToIr]
    exact ⟨h, hS, le_rfl⟩
  | x :: list => .cons (keepsGraph x) (keepsGraphChoice list)

theorem keepsGraphRounds : ∀ list : List Expr, KeepsGraphRounds list
  | [] => fun fail blocks C S h hS _ _ => by
    rw [mozRepetitionToIr]
    exact ⟨h, hS, le_rfl⟩
  | x :: list => .cons (keepsGraph x) (keepsGraphRounds list)

end

section Productions

variable {C : MozCompiler}

theorem mozStateInit_lowers (h : Wired C) : Lowers C (mozStateInit C) := by
  have hmax : (mozStateInit C).1.maxBlockId = C.maxBlockId + 3 := rfl
  refine ⟨((h.newBlock _).newBlock _).newBlock _, ⟨?_, ?_, ?_, ?_⟩, by lia⟩
  · show C.maxBlockId < C.maxBlockId + 3
    lia
  · show C.maxBlockId < C.maxBlockId + 3
    lia
  · show C.maxBlockId + 1 < C.maxBlockId + 3
    lia
  · show C.maxBlockId + 2 < C.maxBlockId + 3
    lia

theorem mozDeclToIr_wired (h : Wired C) (d : ℕ) (decl : Decl) : Wired (mozDeclToIr C d decl) := by
  have h₁ := mozStateInit_lowers h
  unfold mozDeclToIr mozBodyToIr
  dsimp only [mozCompilerSetLabel]
  generalize mozStateInit C = r₁ at *
  have hvalid : (MozState.mk r₁.2.head r₁.2.head r₁.2.next r₁.2.fail).Valid r₁.1 :=
    ⟨h₁.valid.head, h₁.valid.head, h₁.valid.next, h₁.valid.fail⟩
  have h₂ := keepsGraph decl.body r₁.1 _ h₁.wired hvalid
  generalize mozExprToIr decl.body r₁.1 _ = r₂ at *
  have h₃ := h₂.wired.jump r₂.2 h₂.valid.cur h₂.valid.next
  generalize mozCompilerLink r₂.1 r₂.2 r₂.2.cur r₂.2.next = C₃ at *
  have h₄ := h₃.emit { r₂.2 with cur := r₂.2.next } .iRet
  generalize mozCompilerEmit C₃ { r₂.2 with cur := r₂.2.next } .iRet = C₄ at *
  exact (h₄.emit { r₂.2 with cur := r₂.2.fail } .iFail).pools rfl rfl

theorem mozAstToIr_wired (h : Wired C) : Wired (mozAstToIr C) := by
  unfold mozAstToIr
  refine List.foldlRecOn _ _ h fun C hC entry _ => ?_
  dsimp only
  split_ifs
  · exact mozDeclToIr_wired hC _ _
  · exact hC

/-- Before any production is lowered there are no blocks. -/
theorem wired_start (h : ∀ b, C.mem b = {}) : Wired C := by
  constructor <;> intro b <;> simp [h, EndsInJump]

end Productions

end Moz.Compiler
