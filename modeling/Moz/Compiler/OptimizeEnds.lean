import Moz.Compiler.Wiring

/-!
# The CFG simplifier ends

A step that reports a change takes every jump into a block away, by merging the
block into the blocks that jump to it or by removing a handler, and gives no other
block a jump that had none. So the blocks that something jumps to become fewer
with each such step, and a step that reports nothing adds nothing to the worklist.
-/

namespace Moz.Compiler

section Insertion

variable {addr : ℕ} {l : List Ir} {t x : Ir}

/-- `block_insert_before` on the instructions of the block. -/
def insertBefore (addr : ℕ) (l : List Ir) (x : Ir) : List Ir :=
  l.insertIdx (l.findIdx (·.addr == addr)) x

theorem insertIdx_append {α : Type} {l l' : List α} {i : ℕ} (h : i ≤ l.length) (x : α) :
    (l ++ l').insertIdx i x = l.insertIdx i x ++ l' := by
  induction l generalizing i with
  | nil =>
    obtain rfl : i = 0 := Nat.le_zero.1 h
    rfl
  | cons y l ih =>
    cases i with
    | zero => rfl
    | succ i =>
      rw [List.cons_append, List.insertIdx_succ_cons, List.insertIdx_succ_cons,
        ih (Nat.le_of_succ_le_succ h), List.cons_append]

/-- The last instruction, which is the one inserted before, stays the last. -/
theorem insertBefore_concat (l : List Ir) (x : Ir) (ht : t.addr = addr) :
    ∃ l', insertBefore addr (l ++ [t]) x = l' ++ [t] ∧ (∀ y ∈ l, y ∈ l') ∧
      ((∃ y ∈ l, y.addr = addr) ∨ l' = l ++ [x]) := by
  have hle : (l ++ [t]).findIdx (fun y => y.addr == addr) ≤ l.length := by
    have hlt : (l ++ [t]).findIdx (fun y => y.addr == addr) < (l ++ [t]).length :=
      List.findIdx_lt_length_of_exists ⟨t, by simp, by simpa using ht⟩
    simpa [Nat.lt_succ_iff] using hlt
  refine ⟨_, insertIdx_append hle x, fun y hy => (List.mem_insertIdx hle).2 (.inr hy), ?_⟩
  by_cases hid : ∃ y ∈ l, y.addr = addr
  · exact .inl hid
  · have hidx : (l ++ [t]).findIdx (fun y => y.addr == addr) = l.length := by
      have hl : l.findIdx (fun y => y.addr == addr) = l.length :=
        List.findIdx_eq_length.2 fun y hy => by
          simpa using fun heq => hid ⟨y, hy, heq⟩
      rw [List.findIdx_append, hl]
      simp [ht]
    rw [hidx, List.insertIdx_length_self]
    exact .inr rfl

/-- The instructions of a block before a jump; only if the address of the jump stood there already do
they come to stand elsewhere. -/
theorem foldl_insertBefore (l xs : List Ir) (ht : t.addr = addr) :
    ∃ l', xs.foldl (insertBefore addr) (l ++ [t]) = l' ++ [t] ∧ (∀ y ∈ l, y ∈ l') ∧
      ((∃ y ∈ l', y.addr = addr) ∨ l' = l ++ xs) := by
  induction xs generalizing l with
  | nil => exact ⟨l, rfl, fun _ hy => hy, .inr (List.append_nil l).symm⟩
  | cons x xs ih =>
    obtain ⟨l₁, hl₁, hsub, hcases⟩ := insertBefore_concat l x ht
    obtain ⟨l₂, hl₂, hsub', hcases'⟩ := ih l₁
    refine ⟨l₂, by rw [List.foldl_cons, hl₁, hl₂], fun y hy => hsub' y (hsub y hy), ?_⟩
    rcases hcases' with hid | rfl
    · exact .inl hid
    · rcases hcases with ⟨y, hy, hyid⟩ | rfl
      · exact .inl ⟨y, hsub' y (hsub y hy), hyid⟩
      · exact .inr (by simp)

/-- Without the jump, the block ends with the jump once more or with the last of what was inserted. -/
theorem eraseP_foldl_insertBefore (l : List Ir) {xs : List Ir} {last : Ir} (ht : t.addr = addr)
    (hlast : xs.getLast? = some last) :
    ((xs.foldl (insertBefore addr) (l ++ [t])).eraseP (·.addr == addr)).getLast? = some t ∨
      ((xs.foldl (insertBefore addr) (l ++ [t])).eraseP (·.addr == addr)).getLast? = some last := by
  obtain ⟨l', hl', -, hcases⟩ := foldl_insertBefore l xs ht
  rw [hl']
  by_cases hid : ∃ y ∈ l', y.addr = addr
  · obtain ⟨y, hy, hyid⟩ := hid
    have hp : (y.addr == addr) = true := by simpa using hyid
    rw [List.eraseP_append_left (p := fun x : Ir => x.addr == addr) hp [t] hy]
    simp
  · have hl'' : l' = l ++ xs := hcases.resolve_left hid
    have hp : ∀ y ∈ l', ¬ (y.addr == addr) = true := fun y hy => by
      simpa using fun heq => hid ⟨y, hy, heq⟩
    rw [List.eraseP_append_right (p := fun x : Ir => x.addr == addr) [t] hp]
    have herase : [t].eraseP (·.addr == addr) = [] := by simp [ht]
    rw [herase, List.append_nil, hl'', List.getLast?_append, hlast]
    exact .inr rfl

end Insertion

section Merge

variable {C : MozCompiler} {W : WorkList} {bb succ pred b : BlockId} {inst term : Ir} {modified : ℕ}

theorem blockGetJump_eq_some :
    blockGetJump C b = some term ↔ EndsInJump (C.mem b).insts term := by
  unfold blockGetJump blockGetTerminator MozCompiler.blockGetLast EndsInJump
  rw [Option.filter_eq_some_iff, Option.filter_eq_some_iff]
  constructor
  · rintro ⟨⟨hlast, -⟩, hjump⟩
    refine ⟨hlast, ?_⟩
    cases hop : term.op with
    | iJump target => exact ⟨target, rfl⟩
    | _ =>
      rw [hop] at hjump
      cases hjump
  · rintro ⟨hlast, target, hop⟩
    rw [hop]
    exact ⟨⟨hlast, rfl⟩, rfl⟩

theorem setBlock_self (C : MozCompiler) (b : BlockId) : C.setBlock b (C.mem b) = C := by
  have hmem : (fun b' => if b' = b then C.mem b else C.mem b') = C.mem := by
    funext b'
    split_ifs with h
    · rw [h]
    · rfl
  unfold MozCompiler.setBlock
  rw [hmem]

theorem setBlock_setBlock (C : MozCompiler) (b : BlockId) (block block' : Block) :
    (C.setBlock b block).setBlock b block' = C.setBlock b block' := by
  unfold MozCompiler.setBlock
  congr 1
  funext b'
  dsimp only
  split_ifs <;> rfl

theorem mem_setBlock_self (C : MozCompiler) (b : BlockId) (block : Block) :
    (C.setBlock b block).mem b = block := if_pos rfl

/-- The instructions that go before the jump of `pred`. -/
theorem foldl_blockInsertBefore (C : MozCompiler) (pred : BlockId) (term : Ir) (keep : Ir → Bool)
    (xs : List Ir) :
    xs.foldl (fun C x => if keep x then C.blockInsertBefore pred term x else C) C =
      C.setBlock pred { C.mem pred with
        insts := (xs.filter keep).foldl (insertBefore term.addr) (C.mem pred).insts } := by
  induction xs generalizing C with
  | nil => exact (setBlock_self C pred).symm
  | cons x xs ih =>
    rw [List.foldl_cons, ih]
    cases hx : keep x with
    | false => simp [hx]
    | true =>
      simp only [if_true, List.filter_cons_of_pos hx, List.foldl_cons]
      unfold MozCompiler.blockInsertBefore
      rw [setBlock_setBlock, mem_setBlock_self]
      rfl

/-- The instructions of `pred` after the merge of `bb`, which goes on to `succ`. -/
def jumpMerged (C : MozCompiler) (bb succ : BlockId) (inst : Ir) (pred : BlockId) (term : Ir) :
    List Ir :=
  (((C.mem bb).insts.filter fun x => !decide (x.addr = inst.addr)).foldl (insertBefore term.addr)
    (C.mem pred).insts).map fun x => if x.addr = term.addr then { x with op := .iJump succ } else x

/-- The instructions of `pred` after the merge of the exit block `bb`. -/
def exitMerged (C : MozCompiler) (bb pred : BlockId) (term : Ir) : List Ir :=
  ((C.mem bb).insts.foldl (insertBefore term.addr) (C.mem pred).insts).eraseP (·.addr == term.addr)

/-- `pred` with other instructions, and the flags of `bb`. -/
def rewritten (C : MozCompiler) (bb pred : BlockId) (insts : List Ir) : MozCompiler :=
  C.setBlock pred
    { C.mem pred with insts := insts, type := (C.mem pred).type.union (C.mem bb).type }

theorem mergeJumpIntoPred_eq (hne : pred ≠ bb) (hterm : blockGetJump C pred = some term) :
    mergeJumpIntoPred bb succ inst (C, W, modified) pred =
      (((rewritten C bb pred (jumpMerged C bb succ inst pred term)).blockUnlink pred bb).blockLink
        pred succ, workListPush W pred, modified + 1) := by
  have hfold : (C.mem bb).insts.foldl
      (fun C x => if x.addr = inst.addr then C else C.blockInsertBefore pred term x) C =
      (C.mem bb).insts.foldl (fun C x => if !decide (x.addr = inst.addr) then
        C.blockInsertBefore pred term x else C) C := by
    congr 1
    funext C x
    by_cases h : x.addr = inst.addr <;> simp [h]
  unfold mergeJumpIntoPred
  dsimp only
  rw [if_neg hne, hterm]
  dsimp only
  rw [hfold, foldl_blockInsertBefore]
  unfold setJumpTarget MozCompiler.blockSetType rewritten jumpMerged
  simp only [setBlock_setBlock, mem_setBlock, if_true, if_neg hne.symm]

theorem mergeExitIntoPred_eq (hne : pred ≠ bb) (hterm : blockGetJump C pred = some term)
    (hparent : term.parent = pred) :
    mergeExitIntoPred bb (C, W, modified) pred =
      ((rewritten C bb pred (exitMerged C bb pred term)).blockUnlink pred bb,
        workListPush W pred, modified + 1) := by
  have hfold : (C.mem bb).insts.foldl (fun C x => C.blockInsertBefore pred term x) C =
      C.setBlock pred { C.mem pred with
        insts := (C.mem bb).insts.foldl (insertBefore term.addr) (C.mem pred).insts } := by
    have hall := foldl_blockInsertBefore C pred term (fun _ => true) (C.mem bb).insts
    simpa using hall
  unfold mergeExitIntoPred
  dsimp only
  rw [hterm]
  dsimp only
  rw [hfold]
  unfold removeFromParent MozCompiler.blockRemove MozCompiler.blockSetType rewritten exitMerged
  simp only [hparent, setBlock_setBlock, mem_setBlock, if_true, if_neg hne.symm]

/-- The jump that ends `pred` stays there, to another block. -/
theorem jumpMerged_ends (hterm : EndsInJump (C.mem pred).insts term) :
    EndsInJump (jumpMerged C bb succ inst pred term) { term with op := .iJump succ } := by
  obtain ⟨l, hl⟩ := List.getLast?_eq_some_iff.1 hterm.1
  unfold jumpMerged
  rw [hl]
  obtain ⟨l', hl', -⟩ := foldl_insertBefore l
    ((C.mem bb).insts.filter fun x => !decide (x.addr = inst.addr)) (rfl : term.addr = term.addr)
  rw [hl']
  exact ⟨by simp, succ, rfl⟩

/-- After the merge of an exit block `pred` ends with its `IRet`, or with the old jump. -/
theorem exitMerged_ends {last t : Ir} (hterm : EndsInJump (C.mem pred).insts term)
    (hlast : (C.mem bb).insts.getLast? = some last) (hret : last.op = .iRet)
    (ht : EndsInJump (exitMerged C bb pred term) t) : t = term := by
  obtain ⟨l, hl⟩ := List.getLast?_eq_some_iff.1 hterm.1
  unfold exitMerged at ht
  rw [hl] at ht
  obtain ⟨hget, target, htarget⟩ := ht
  rcases eraseP_foldl_insertBefore l (rfl : term.addr = term.addr) hlast with hsame | hsame
  · exact Option.some.inj (hget.symm.trans hsame)
  · obtain rfl := Option.some.inj (hget.symm.trans hsame)
    rw [hret] at htarget
    cases htarget

end Merge

def Jumping (C : MozCompiler) (b : BlockId) : Prop :=
  ∃ p ∈ (C.mem b).preds, (blockGetJump C p).isSome

instance (C : MozCompiler) (b : BlockId) : Decidable (Jumping C b) :=
  inferInstanceAs (Decidable (∃ p ∈ (C.mem b).preds, (blockGetJump C p).isSome))

def jumpingCount (C : MozCompiler) : ℕ := ((Finset.range C.maxBlockId).filter (Jumping C)).card

/-- A change of the graph that lets no block be jumped to anew. -/
structure Fades (C C' : MozCompiler) : Prop where
  wired : Wired C'
  maxBlockId : C'.maxBlockId = C.maxBlockId
  ends : ∀ b, (blockGetJump C' b).isSome → (blockGetJump C b).isSome
  jumping : ∀ b, Jumping C' b → Jumping C b

section Fading

variable {C C' C'' : MozCompiler} {W : WorkList} {bb succ pred b : BlockId} {inst term : Ir}

theorem Fades.refl (h : Wired C) : Fades C C := ⟨h, rfl, fun _ => id, fun _ => id⟩

theorem Fades.trans (h : Fades C C') (h' : Fades C' C'') : Fades C C'' :=
  ⟨h'.wired, h'.maxBlockId.trans h.maxBlockId, fun b hb => h.ends b (h'.ends b hb),
    fun b hb => h.jumping b (h'.jumping b hb)⟩

theorem Fades.count_le (h : Fades C C') : jumpingCount C' ≤ jumpingCount C := by
  unfold jumpingCount
  rw [h.maxBlockId]
  refine Finset.card_le_card fun b hb => ?_
  rw [Finset.mem_filter] at hb ⊢
  exact ⟨hb.1, h.jumping b hb.2⟩

theorem Fades.count_lt (hC : Wired C) (h : Fades C C') (hbefore : Jumping C b)
    (hafter : ¬Jumping C' b) : jumpingCount C' < jumpingCount C := by
  obtain ⟨p, hp, -⟩ := id hbefore
  have hlt := (hC.bound p b (hC.succ_of_pred p b hp)).2
  unfold jumpingCount
  rw [h.maxBlockId]
  refine Finset.card_lt_card (Finset.ssubset_iff_of_subset ?_ |>.2 ⟨b, ?_, ?_⟩)
  · intro b hb
    rw [Finset.mem_filter] at hb ⊢
    exact ⟨hb.1, h.jumping b hb.2⟩
  · exact Finset.mem_filter.2 ⟨Finset.mem_range.2 hlt, hbefore⟩
  · exact fun hmem => hafter (Finset.mem_filter.1 hmem).2

/-- Other instructions in a block, and the flags of another. -/
theorem rewritten_wired (h : Wired C) {insts : List Ir}
    (hparent : ∀ t, EndsInJump insts t → t.parent = pred) : Wired (rewritten C bb pred insts) := by
  have hmem : ∀ b, (rewritten C bb pred insts).mem b = if b = pred then
      { C.mem pred with insts := insts, type := (C.mem pred).type.union (C.mem bb).type }
      else C.mem b := mem_setBlock C pred _
  refine h.edit (fun b => ?_) (fun b => ?_) le_rfl fun b t ht => ?_
  · rw [hmem]
    split_ifs with hb
    · rw [hb]
    · rfl
  · rw [hmem]
    split_ifs with hb
    · rw [hb]
    · rfl
  · rw [hmem] at ht
    split_ifs at ht with hb
    · exact (hparent t ht).trans hb.symm
    · exact h.parent b t ht

theorem blockGetJump_congr (h : (C'.mem b).insts = (C.mem b).insts) :
    blockGetJump C' b = blockGetJump C b := by
  unfold blockGetJump blockGetTerminator MozCompiler.blockGetLast
  rw [h]

/-- What a round of the loops over `bb->preds` does to the graph. -/
structure Round (C C' : MozCompiler) (bb pred : BlockId) (added : BlockId → Prop) : Prop where
  wired : Wired C'
  maxBlockId : C'.maxBlockId = C.maxBlockId
  insts : ∀ b, b ≠ pred → (C'.mem b).insts = (C.mem b).insts
  succs : ∀ b, b ≠ pred → (C'.mem b).succs = (C.mem b).succs
  preds : ∀ b p, p ∈ (C'.mem b).preds ↔
    p ∈ (C.mem b).preds ∧ ¬(p = pred ∧ b = bb) ∨ p = pred ∧ added b

theorem Round.fades {added : BlockId → Prop} (h : Round C C' bb pred added)
    (hpred : (blockGetJump C pred).isSome) (hadded : ∀ b, added b → Jumping C b) : Fades C C' := by
  have hends : ∀ b, (blockGetJump C' b).isSome → (blockGetJump C b).isSome := by
    intro b hb
    by_cases hne : b = pred
    · rwa [hne]
    · rwa [← blockGetJump_congr (h.insts b hne)]
  refine ⟨h.wired, h.maxBlockId, hends, ?_⟩
  rintro b ⟨p, hp, hjump⟩
  rcases (h.preds b p).1 hp with ⟨hp, -⟩ | ⟨-, hb⟩
  · exact ⟨p, hp, hends p hjump⟩
  · exact hadded b hb

theorem mem_rewritten (C : MozCompiler) (bb pred : BlockId) (insts : List Ir) (b : BlockId) :
    ((rewritten C bb pred insts).mem b).preds = (C.mem b).preds ∧
      ((rewritten C bb pred insts).mem b).succs = (C.mem b).succs ∧
        (b ≠ pred → (rewritten C bb pred insts).mem b = C.mem b) := by
  unfold rewritten
  rw [mem_setBlock]
  split_ifs with hb
  · rw [hb]
    exact ⟨rfl, rfl, fun h => absurd rfl h⟩
  · exact ⟨rfl, rfl, fun _ => rfl⟩

theorem jump_round (inst : Ir) (h : Wired C) (hterm : blockGetJump C pred = some term)
    (hpred : bb ∈ (C.mem pred).succs) (hsucc : succ ∈ (C.mem bb).succs) :
    Round C (((rewritten C bb pred (jumpMerged C bb succ inst pred term)).blockUnlink pred
      bb).blockLink pred succ) bb pred (· = succ) := by
  have hterm := blockGetJump_eq_some.1 hterm
  have hR : Wired (rewritten C bb pred (jumpMerged C bb succ inst pred term)) := by
    refine rewritten_wired h fun t ht => ?_
    obtain rfl := Option.some.inj (ht.1.symm.trans (jumpMerged_ends hterm).1)
    exact h.parent pred term hterm
  have hmem := mem_rewritten C bb pred (jumpMerged C bb succ inst pred term)
  have hmax : (rewritten C bb pred (jumpMerged C bb succ inst pred term)).maxBlockId =
    C.maxBlockId := rfl
  generalize rewritten C bb pred (jumpMerged C bb succ inst pred term) = R at *
  have hU := hR.unlink pred bb
  have hbound := (h.bound pred bb hpred).1
  have hbound' := (h.bound bb succ hsucc).2
  refine ⟨hU.link (hbound.trans_le hmax.ge) (hbound'.trans_le hmax.ge), hmax, ?_, ?_, ?_⟩
  · intro b hb
    rw [mem_blockLink, mem_blockUnlink, (hmem b).2.2 hb]
  · intro b hb
    rw [mem_blockLink, mem_blockUnlink, (hmem b).2.2 hb]
    simp [hb]
  · intro b p
    rw [mem_preds_blockLink, mem_preds_blockUnlink (hR.nodup_preds b), (hmem b).1]

theorem exit_round {last : Ir} (h : Wired C) (hterm : blockGetJump C pred = some term)
    (hlast : (C.mem bb).insts.getLast? = some last) (hret : last.op = .iRet) :
    Round C ((rewritten C bb pred (exitMerged C bb pred term)).blockUnlink pred bb) bb pred
      fun _ => False := by
  have hterm := blockGetJump_eq_some.1 hterm
  have hR : Wired (rewritten C bb pred (exitMerged C bb pred term)) := by
    refine rewritten_wired h fun t ht => ?_
    rw [exitMerged_ends hterm hlast hret ht]
    exact h.parent pred term hterm
  have hmem := mem_rewritten C bb pred (exitMerged C bb pred term)
  have hmax : (rewritten C bb pred (exitMerged C bb pred term)).maxBlockId = C.maxBlockId := rfl
  generalize rewritten C bb pred (exitMerged C bb pred term) = R at *
  refine ⟨hR.unlink pred bb, hmax, ?_, ?_, ?_⟩
  · intro b hb
    rw [mem_blockUnlink, (hmem b).2.2 hb]
  · intro b hb
    rw [mem_blockUnlink, (hmem b).2.2 hb]
    simp [hb]
  · intro b p
    rw [mem_preds_blockUnlink (hR.nodup_preds b), (hmem b).1]
    simp

end Fading

/-- The loop over the predecessors of `bb`, begun with the compiler `C₀` and the worklist `W₀`, after
the rounds of `done`. -/
structure Merging (C₀ : MozCompiler) (W₀ : WorkList) (bb : BlockId) (done : List BlockId)
    (st : MergeState) : Prop where
  fades : Fades C₀ st.1
  insts : (st.1.mem bb).insts = (C₀.mem bb).insts
  succs : (st.1.mem bb).succs = (C₀.mem bb).succs
  preds : ∀ p ∈ (st.1.mem bb).preds, p ∈ (C₀.mem bb).preds
  left : ∀ p ∈ (C₀.mem bb).preds, p ∈ (st.1.mem bb).preds ∨ p ∈ done
  merged : ∀ p ∈ done, p ∈ (st.1.mem bb).preds → blockGetJump st.1 p = none
  modified : 0 < st.2.2 → Jumping C₀ bb
  unmodified : st.2.2 = 0 → st = (C₀, W₀, 0)

section Loops

variable {C₀ : MozCompiler} {W₀ : WorkList} {bb succ pred : BlockId} {done : List BlockId}
  {st : MergeState} {inst : Ir}

theorem Merging.start (h : Wired C₀) : Merging C₀ W₀ bb [] (C₀, W₀, 0) where
  fades := .refl h
  insts := rfl
  succs := rfl
  preds _ hp := hp
  left _ hp := .inl hp
  merged _ hp := absurd hp List.not_mem_nil
  modified h := absurd h (lt_irrefl 0)
  unmodified _ := rfl

theorem Merging.skip (h : Merging C₀ W₀ bb done st) (hpred : blockGetJump st.1 pred = none) :
    Merging C₀ W₀ bb (pred :: done) st :=
  { h with
    left := fun p hp => (h.left p hp).imp id (List.mem_cons_of_mem _)
    merged := fun p hp hmem => by
      rcases List.mem_cons.1 hp with rfl | hp
      · exact hpred
      · exact h.merged p hp hmem }

theorem Merging.round {C' : MozCompiler} {W' : WorkList} {added : BlockId → Prop}
    (h : Merging C₀ W₀ bb done st) (hround : Round st.1 C' bb pred added)
    (hne : pred ≠ bb) (hpred : pred ∈ (C₀.mem bb).preds) (hjump : (blockGetJump st.1 pred).isSome)
    (hadded : ∀ b, added b → Jumping st.1 b) (hbb : ¬added bb) :
    Merging C₀ W₀ bb (pred :: done) (C', W', st.2.2 + 1) where
  fades := h.fades.trans (hround.fades hjump hadded)
  insts := (hround.insts bb hne.symm).trans h.insts
  succs := (hround.succs bb hne.symm).trans h.succs
  preds p hp := by
    rcases (hround.preds bb p).1 hp with ⟨hp, -⟩ | ⟨-, hadd⟩
    · exact h.preds p hp
    · exact absurd hadd hbb
  left p hp := by
    by_cases heq : p = pred
    · exact .inr (heq ▸ List.mem_cons_self ..)
    · refine (h.left p hp).imp (fun hmem => ?_) (List.mem_cons_of_mem _)
      exact (hround.preds bb p).2 (.inl ⟨hmem, fun hand => heq hand.1⟩)
  merged p hp hmem := by
    rcases (hround.preds bb p).1 hmem with ⟨hmem, hnot⟩ | ⟨-, hadd⟩
    · have hp' : p ≠ pred := fun heq => hnot ⟨heq, rfl⟩
      rw [blockGetJump_congr (hround.insts p hp')]
      exact h.merged p ((List.mem_cons.1 hp).resolve_left hp') hmem
    · exact absurd hadd hbb
  modified _ := ⟨pred, hpred, h.fades.ends pred hjump⟩
  unmodified h := absurd h (Nat.succ_ne_zero _)

/-- The loop over `bb->preds`, when each round keeps what is said of it and of the predecessors that
are done. -/
theorem foldl_preds {P : List BlockId → MergeState → Prop} {f : MergeState → BlockId → MergeState}
    {preds : List BlockId} (hnodup : preds.Nodup)
    (hstep : ∀ done st p, P done st → p ∈ preds → p ∉ done → P (p :: done) (f st p))
    (h : P [] st) : P preds (preds.reverse.foldl f st) := by
  have hall : ∀ (ps done : List BlockId) st, (∀ p ∈ ps, p ∈ preds) → (ps ++ done).Nodup →
      P done st → P (ps.reverse ++ done) (ps.foldl f st) := by
    intro ps
    induction ps with
    | nil => exact fun done st _ _ h => h
    | cons p ps ih =>
      intro done st hps hnodup h
      have hout : p ∉ done := fun hin =>
        (List.nodup_cons.1 hnodup).1 (List.mem_append_right _ hin)
      have hnext := hstep done st p h (hps p List.mem_cons_self) hout
      have hrest := ih (p :: done) _ (fun q hq => hps q (List.mem_cons_of_mem _ hq))
        (List.nodup_middle.2 hnodup) hnext
      rwa [List.reverse_cons, List.append_assoc]
  have hrun := hall preds.reverse [] st (fun p hp => List.mem_reverse.1 hp)
    (by rwa [List.append_nil, List.nodup_reverse]) h
  rwa [List.reverse_reverse, List.append_nil] at hrun

theorem Merging.not_jumping (h : Merging C₀ W₀ bb (C₀.mem bb).preds st) : ¬Jumping st.1 bb := by
  rintro ⟨p, hp, hjump⟩
  rw [h.merged p (h.preds p hp) hp] at hjump
  cases hjump

theorem jump_merging (W₀ : WorkList) (hC : Wired C₀) (hself : bb ∉ (C₀.mem bb).preds)
    (hsucc : succ ∈ (C₀.mem bb).succs) (hinst : blockGetJump C₀ bb = some inst) :
    Merging C₀ W₀ bb (C₀.mem bb).preds
      ((C₀.mem bb).preds.reverse.foldl (mergeJumpIntoPred bb succ inst) (C₀, W₀, 0)) := by
  have hne : succ ≠ bb := by
    rintro rfl
    exact hself (hC.pred_of_succ _ _ hsucc)
  refine foldl_preds (hC.nodup_preds bb) ?_ (.start hC)
  rintro done ⟨C, W, modified⟩ p h hp hout
  have hpbb : p ≠ bb := fun heq => hself (heq ▸ hp)
  cases hterm : blockGetJump C p with
  | none =>
    have hsame : mergeJumpIntoPred bb succ inst (C, W, modified) p = (C, W, modified) := by
      unfold mergeJumpIntoPred
      dsimp only
      rw [if_neg hpbb, hterm]
    rw [hsame]
    exact h.skip hterm
  | some term =>
    rw [mergeJumpIntoPred_eq hpbb hterm]
    have hmem : p ∈ (C.mem bb).preds := (h.left p hp).resolve_right hout
    have hsucc' : succ ∈ (C.mem bb).succs := by
      rw [h.succs]
      exact hsucc
    have hround := jump_round inst h.fades.wired hterm
      (h.fades.wired.succ_of_pred p bb hmem) hsucc'
    refine h.round hround hpbb hp (Option.isSome_iff_exists.2 ⟨term, hterm⟩) ?_ hne.symm
    rintro b rfl
    refine ⟨bb, h.fades.wired.pred_of_succ bb b hsucc', ?_⟩
    rw [blockGetJump_congr h.insts, hinst]
    rfl

theorem exit_merging (W₀ : WorkList) (hC : Wired C₀) (hself : bb ∉ (C₀.mem bb).preds)
    (hlast : (C₀.mem bb).insts.getLast? = some inst) (hret : inst.op = .iRet) :
    Merging C₀ W₀ bb (C₀.mem bb).preds
      ((C₀.mem bb).preds.reverse.foldl (mergeExitIntoPred bb) (C₀, W₀, 0)) := by
  refine foldl_preds (hC.nodup_preds bb) ?_ (.start hC)
  rintro done ⟨C, W, modified⟩ p h hp hout
  have hpbb : p ≠ bb := fun heq => hself (heq ▸ hp)
  cases hterm : blockGetJump C p with
  | none =>
    have hsame : mergeExitIntoPred bb (C, W, modified) p = (C, W, modified) := by
      unfold mergeExitIntoPred
      dsimp only
      rw [hterm]
    rw [hsame]
    exact h.skip hterm
  | some term =>
    rw [mergeExitIntoPred_eq hpbb hterm
      (h.fades.wired.parent p term (blockGetJump_eq_some.1 hterm))]
    have hlast' : (C.mem bb).insts.getLast? = some inst := by
      rw [h.insts]
      exact hlast
    have hround := exit_round h.fades.wired hterm hlast' hret
    exact h.round hround hpbb hp (Option.isSome_iff_exists.2 ⟨term, hterm⟩)
      (fun _ => False.elim) id

end Loops

/-- A step that reports a change leaves fewer blocks that are jumped to; one that reports none adds
nothing to the worklist. -/
structure Progresses (C : MozCompiler) (W : WorkList) (r : MozCompiler × WorkList × Bool) : Prop where
  fades : Fades C r.1
  count_lt : r.2.2 = true → jumpingCount r.1 < jumpingCount C
  work : r.2.2 = false → r.2.1 = W

section Steps

variable {C : MozCompiler} {W : WorkList} {bb succ : BlockId} {inst : Ir}

theorem Progresses.none (h : Wired C) : Progresses C W (C, W, false) :=
  ⟨.refl h, nofun, fun _ => rfl⟩

theorem mem_removed (C : MozCompiler) (succ : BlockId) (hparent : inst.parent = bb) (b : BlockId) :
    (dropBlock (removeFromParent (C.blockUnlink bb succ) inst) bb).mem b =
      { (C.blockUnlink bb succ).mem b with
        insts := if b = bb then [] else ((C.blockUnlink bb succ).mem b).insts } := by
  unfold dropBlock removeFromParent MozCompiler.blockRemove
  dsimp only
  rw [hparent, setBlock_setBlock, mem_setBlock, mem_setBlock_self]
  split_ifs with hb
  · rw [hb]
  · rfl

theorem removed_fades (succ : BlockId) (h : Wired C) (hparent : inst.parent = bb) :
    Fades C (dropBlock (removeFromParent (C.blockUnlink bb succ) inst) bb) := by
  have hU := h.unlink bb succ
  have hmem := mem_removed C succ hparent
  have hpreds : ∀ b p, p ∈ ((dropBlock (removeFromParent (C.blockUnlink bb succ) inst) bb).mem
      b).preds → p ∈ (C.mem b).preds := by
    intro b p hp
    rw [hmem, mem_preds_blockUnlink (h.nodup_preds b)] at hp
    exact hp.1
  have hends : ∀ b, (blockGetJump (dropBlock (removeFromParent (C.blockUnlink bb succ) inst) bb)
      b).isSome → (blockGetJump C b).isSome := by
    intro b hb
    by_cases heq : b = bb
    · obtain ⟨t, ht⟩ := Option.isSome_iff_exists.1 hb
      have hends := (blockGetJump_eq_some.1 ht).1
      rw [hmem, if_pos heq] at hends
      cases hends
    · have hinsts : ((dropBlock (removeFromParent (C.blockUnlink bb succ) inst) bb).mem b).insts =
          (C.mem b).insts := by
        rw [hmem, if_neg heq, mem_blockUnlink]
      rwa [blockGetJump_congr hinsts] at hb
  refine ⟨?_, rfl, hends, fun b ⟨p, hp, hjump⟩ => ⟨p, hpreds b p hp, hends p hjump⟩⟩
  refine hU.edit (fun b => by rw [hmem]) (fun b => by rw [hmem]) le_rfl fun b t ht => ?_
  rw [hmem] at ht
  dsimp only at ht
  split_ifs at ht
  · cases ht.1
  · exact hU.parent b t ht

theorem Fades.erase {C' : MozCompiler} (h : Fades C C') (blocks : List BlockId) :
    Fades C { C' with blocks := blocks } :=
  ⟨h.wired.pools rfl rfl, h.maxBlockId, h.ends, h.jumping⟩

/-- What `simplify_cfg` returns after it has tried to merge a block that only goes on. -/
def jumpResult (C : MozCompiler) (W : WorkList) (bb succ : BlockId) (inst : Ir) :
    MozCompiler × WorkList × Bool :=
  let st := (C.mem bb).preds.reverse.foldl (mergeJumpIntoPred bb succ inst) (C, W, 0)
  let C' := if st.2.2 = (C.mem bb).preds.length then
    dropBlock (removeFromParent (st.1.blockUnlink bb succ) inst) bb else st.1
  if 0 < st.2.2 then (C', workListPush st.2.1 succ, true) else (C', st.2.1, false)

/-- What it returns after it has tried to merge an exit block. -/
def exitResult (C : MozCompiler) (W : WorkList) (bb : BlockId) : MozCompiler × WorkList × Bool :=
  let st := (C.mem bb).preds.reverse.foldl (mergeExitIntoPred bb) (C, W, 0)
  let C' := if st.2.2 = (C.mem bb).preds.length then { st.1 with blocks := st.1.blocks.erase bb }
    else st.1
  (C', st.2.1, decide (0 < st.2.2))

/-- The blocks that `simplify_cfg` tries to merge. -/
theorem simplifyCfg_cases (C : MozCompiler) (W : WorkList) (bb : BlockId) :
    simplifyCfg C W bb = (C, W, false) ∨
    (C.mem bb).type.isSpecial = false ∧ bb ∉ (C.mem bb).preds ∧
      ((∃ succ inst, (C.mem bb).succs = [succ] ∧ blockGetJump C bb = some inst ∧
        simplifyCfg C W bb = jumpResult C W bb succ inst) ∨
      ∃ inst, (C.mem bb).insts.getLast? = some inst ∧ inst.op = .iRet ∧
        simplifyCfg C W bb = exitResult C W bb) := by
  unfold simplifyCfg
  dsimp only
  by_cases hinsts : (C.mem bb).insts = []
  · exact .inl (if_pos hinsts)
  rw [if_neg hinsts]
  by_cases hspecial : (C.mem bb).type.isSpecial
  · exact .inl (if_pos hspecial)
  rw [if_neg hspecial]
  by_cases hself : bb ∈ (C.mem bb).preds
  · exact .inl (if_pos hself)
  rw [if_neg hself]
  cases hinst : blockGetTerminator C bb with
  | none => exact .inl rfl
  | some inst =>
    have hlast : (C.mem bb).insts.getLast? = some inst := (Option.filter_eq_some_iff.1 hinst).1
    dsimp only
    split
    · next succ target hsuccs hop =>
      refine .inr ⟨by simpa using hspecial, hself, .inl ⟨succ, inst, hsuccs, ?_, rfl⟩⟩
      exact blockGetJump_eq_some.2 ⟨hlast, target, hop⟩
    · next hop =>
      exact .inr ⟨by simpa using hspecial, hself, .inr ⟨inst, hlast, hop, rfl⟩⟩
    · exact .inl rfl

theorem simplifyCfg_progresses (h : Wired C) (W : WorkList) (bb : BlockId) :
    Progresses C W (simplifyCfg C W bb) := by
  obtain heq | ⟨-, hself, ⟨succ, inst, hsuccs, hjump, heq⟩ | ⟨inst, hlast, hret, heq⟩⟩ :=
    simplifyCfg_cases C W bb
  · rw [heq]
    exact .none h
  · rw [heq, jumpResult]
    have hmerge := jump_merging W h hself (show succ ∈ (C.mem bb).succs by simp [hsuccs]) hjump
    have hparent := h.parent bb inst (blockGetJump_eq_some.1 hjump)
    generalize (C.mem bb).preds.reverse.foldl (mergeJumpIntoPred bb succ inst) (C, W, 0) = st at *
    have hfades : Fades C (if st.2.2 = (C.mem bb).preds.length then
        dropBlock (removeFromParent (st.1.blockUnlink bb succ) inst) bb else st.1) ∧
        (¬Jumping (if st.2.2 = (C.mem bb).preds.length then
          dropBlock (removeFromParent (st.1.blockUnlink bb succ) inst) bb else st.1) bb) := by
      split_ifs
      · have hremoved := removed_fades succ hmerge.fades.wired hparent
        exact ⟨hmerge.fades.trans hremoved, fun hj => hmerge.not_jumping (hremoved.jumping bb hj)⟩
      · exact ⟨hmerge.fades, hmerge.not_jumping⟩
    generalize (if st.2.2 = (C.mem bb).preds.length then
        dropBlock (removeFromParent (st.1.blockUnlink bb succ) inst) bb else st.1) = C' at *
    split_ifs with hmodified
    · exact ⟨hfades.1, fun _ => hfades.1.count_lt h (hmerge.modified hmodified) hfades.2, nofun⟩
    · have hst := hmerge.unmodified (Nat.eq_zero_of_not_pos hmodified)
      exact ⟨hfades.1, nofun, fun _ => by rw [hst]⟩
  · rw [heq, exitResult]
    have hmerge := exit_merging W h hself hlast hret
    generalize (C.mem bb).preds.reverse.foldl (mergeExitIntoPred bb) (C, W, 0) = st at *
    have hfades : Fades C (if st.2.2 = (C.mem bb).preds.length then
        { st.1 with blocks := st.1.blocks.erase bb } else st.1) ∧
        (¬Jumping (if st.2.2 = (C.mem bb).preds.length then
          { st.1 with blocks := st.1.blocks.erase bb } else st.1) bb) := by
      split_ifs
      · exact ⟨hmerge.fades.erase _, hmerge.not_jumping⟩
      · exact ⟨hmerge.fades, hmerge.not_jumping⟩
    generalize (if st.2.2 = (C.mem bb).preds.length then
        { st.1 with blocks := st.1.blocks.erase bb } else st.1) = C' at *
    refine ⟨hfades.1, fun hm => ?_, fun hm => ?_⟩
    · exact hfades.1.count_lt h (hmerge.modified (of_decide_eq_true hm)) hfades.2
    · rw [hmerge.unmodified (Nat.eq_zero_of_not_pos (of_decide_eq_false hm))]

theorem preds_redirectFail (C : MozCompiler) (bb succ b : BlockId) :
    ((redirectFail C bb succ).mem b).preds = (C.mem b).preds := by
  unfold redirectFail
  dsimp only
  split_ifs <;> rfl

theorem redirectFail_fades (h : Wired C) (bb succ : BlockId) : Fades C (redirectFail C bb succ) := by
  have hlast : ∀ b t, EndsInJump ((redirectFail C bb succ).mem b).insts t →
      ∃ t', EndsInJump (C.mem b).insts t' ∧ t'.parent = t.parent := by
    rintro b t ⟨hget, target, hop⟩
    unfold redirectFail at hget
    dsimp only at hget
    split_ifs at hget with hb
    · rw [List.getLast?_map] at hget
      obtain ⟨t', ht', rfl⟩ := Option.map_eq_some_iff.1 hget
      refine ⟨t', ⟨ht', target, ?_⟩, ?_⟩
      · split_ifs at hop <;> exact hop
      · split_ifs <;> rfl
    · exact ⟨t, ⟨hget, target, hop⟩, rfl⟩
  have hsuccs : ∀ b, ((redirectFail C bb succ).mem b).succs = (C.mem b).succs := by
    intro b
    unfold redirectFail
    dsimp only
    split_ifs <;> rfl
  have hends : ∀ b, (blockGetJump (redirectFail C bb succ) b).isSome → (blockGetJump C b).isSome := by
    intro b hb
    obtain ⟨t, ht⟩ := Option.isSome_iff_exists.1 hb
    obtain ⟨t', ht', -⟩ := hlast b t (blockGetJump_eq_some.1 ht)
    exact Option.isSome_iff_exists.2 ⟨t', blockGetJump_eq_some.2 ht'⟩
  refine ⟨h.edit (preds_redirectFail C bb succ) hsuccs le_rfl fun b t ht => ?_, rfl, hends, ?_⟩
  · obtain ⟨t', ht', hparent⟩ := hlast b t ht
    rw [← hparent]
    exact h.parent b t' ht'
  · rintro b ⟨p, hp, hjump⟩
    rw [preds_redirectFail] at hp
    exact ⟨p, hp, hends p hjump⟩

/-- The handlers that `remove_indirect_jump_handler` removes. -/
theorem removeIndirectJumpHandler_cases (C : MozCompiler) (W : WorkList) (bb : BlockId) :
    removeIndirectJumpHandler C W bb = (C, W, false) ∨
    ∃ succ inst, (C.mem bb).succs = [succ] ∧ (C.mem bb).preds = [] ∧ (C.mem bb).insts = [inst] ∧
      (∃ target, inst.op = .iJump target) ∧ (C.mem succ).preds.length = 1 ∧
      removeIndirectJumpHandler C W bb =
        (redirectFail (dropBlock (removeFromParent (C.blockUnlink bb succ) inst) bb) bb succ,
          workListPush W succ, true) := by
  unfold removeIndirectJumpHandler
  dsimp only
  split
  · next succ addr id parent fail target hsuccs hpreds hinsts =>
    split_ifs with hlength
    · exact .inl rfl
    · exact .inr ⟨succ, _, hsuccs, hpreds, hinsts, ⟨target, rfl⟩, not_not.1 hlength, rfl⟩
  · exact .inl rfl

theorem removeIndirectJumpHandler_progresses (h : Wired C) (W : WorkList) (bb : BlockId) :
    Progresses C W (removeIndirectJumpHandler C W bb) := by
  obtain heq | ⟨succ, inst, hsuccs, -, hinsts, ⟨target, hop⟩, hlength, heq⟩ :=
    removeIndirectJumpHandler_cases C W bb
  · rw [heq]
    exact .none h
  · rw [heq]
    have hends : EndsInJump (C.mem bb).insts inst := by
      rw [hinsts]
      exact ⟨rfl, target, hop⟩
    have hremoved := removed_fades succ h (h.parent bb inst hends)
    have hfades := hremoved.trans (redirectFail_fades hremoved.wired bb succ)
    have hmem : bb ∈ (C.mem succ).preds := h.pred_of_succ bb succ (by simp [hsuccs])
    have hbefore : Jumping C succ :=
      ⟨bb, hmem, Option.isSome_iff_exists.2 ⟨inst, blockGetJump_eq_some.2 hends⟩⟩
    refine ⟨hfades, fun _ => hfades.count_lt h hbefore ?_, nofun⟩
    -- the handler is the only predecessor
    obtain ⟨p, hp⟩ := List.length_eq_one_iff.1 hlength
    obtain rfl : bb = p := by simpa [hp] using hmem
    rintro ⟨p, hp', -⟩
    rw [preds_redirectFail, mem_removed C succ (h.parent bb inst hends)] at hp'
    obtain ⟨hmem', hnot⟩ := (mem_preds_blockUnlink (h.nodup_preds succ)).1 hp'
    rw [hp] at hmem'
    exact hnot ⟨List.mem_singleton.1 hmem', rfl⟩

end Steps

section Runs

variable {func : MozCompiler → WorkList → BlockId → MozCompiler × WorkList × Bool}
  {C C' : MozCompiler} {W : WorkList} {m m' : Bool} {fuel fuel' : ℕ}

theorem workListApply_concat (func : MozCompiler → WorkList → BlockId → MozCompiler × WorkList × Bool)
    (fuel : ℕ) (C : MozCompiler) (W : WorkList) (bb : BlockId) (m : Bool) :
    workListApply func (fuel + 1) C (W ++ [bb]) m =
      workListApply func fuel (func C W bb).1 (func C W bb).2.1 (m || (func C W bb).2.2) := by
  rw [workListApply, List.getLast?_concat, List.dropLast_concat]

theorem workListApply_mono (hle : fuel ≤ fuel') (h : workListApply func fuel C W m = some (C', m')) :
    workListApply func fuel' C W m = some (C', m') := by
  induction fuel generalizing fuel' C W m with
  | zero => cases h
  | succ fuel ih =>
    obtain ⟨fuel', rfl⟩ := Nat.exists_eq_add_of_lt (Nat.lt_of_succ_le hle)
    rw [show fuel + fuel' + 1 = (fuel + fuel') + 1 from rfl]
    unfold workListApply at h ⊢
    cases hlast : W.getLast? with
    | none => simpa [hlast] using h
    | some bb =>
      rw [hlast] at h
      exact ih (Nat.le_add_right ..) h

/-- A worklist is emptied when each step on a wired graph progresses. Each step leaves fewer blocks
that are jumped to, or as many of them and a shorter worklist. -/
theorem workListApply_ends
    (func : MozCompiler → WorkList → BlockId → MozCompiler × WorkList × Bool)
    (hfunc : ∀ C W bb, Wired C → Progresses C W (func C W bb)) (h : Wired C) (W : WorkList)
    (m : Bool) :
    ∃ fuel C' m', workListApply func fuel C W m = some (C', m') ∧ Fades C C' ∧
      (m' = true → m = true ∨ jumpingCount C' < jumpingCount C) := by
  induction hn : jumpingCount C using Nat.strong_induction_on generalizing C W m with
  | h n ih =>
    subst hn
    induction W using List.reverseRecOn generalizing C m with
    | nil => exact ⟨1, C, m, rfl, .refl h, .inl⟩
    | append_singleton W bb ihW =>
      have hstep := hfunc C W bb h
      have hrest : ∃ fuel C' m', workListApply func fuel (func C W bb).1 (func C W bb).2.1
          (m || (func C W bb).2.2) = some (C', m') ∧ Fades (func C W bb).1 C' ∧
            (m' = true → (m || (func C W bb).2.2) = true ∨
              jumpingCount C' < jumpingCount (func C W bb).1) := by
        rcases hstep.fades.count_le.lt_or_eq with hlt | heq
        · exact ih _ hlt hstep.fades.wired _ _ rfl
        · have hm : (func C W bb).2.2 = false := by
            by_contra hm
            exact (hstep.count_lt (by simpa using hm)).ne heq
          rw [hstep.work hm]
          exact ihW hstep.fades.wired _ (heq ▸ ih)
      obtain ⟨fuel, C', m', hrun, hfades, hm'⟩ := hrest
      refine ⟨fuel + 1, C', m', ?_, hstep.fades.trans hfades, fun hm => ?_⟩
      · rw [workListApply_concat, hrun]
      · rcases hm' hm with hm | hlt
        · rcases Bool.or_eq_true_iff.1 hm with hm | hm
          · exact .inl hm
          · exact .inr (hfades.count_le.trans_lt (hstep.count_lt hm))
        · exact .inr (hlt.trans_le hstep.fades.count_le)

theorem mozIrOptimize_mono (hle : fuel ≤ fuel') (h : mozIrOptimize fuel C = some C') :
    mozIrOptimize fuel' C = some C' := by
  induction fuel generalizing fuel' C with
  | zero => cases h
  | succ fuel ih =>
    obtain ⟨k, rfl⟩ := Nat.exists_eq_add_of_lt (Nat.lt_of_succ_le hle)
    have hfuel : fuel ≤ fuel + k := Nat.le_add_right ..
    rw [mozIrOptimize, Option.bind_eq_bind, Option.bind_eq_some_iff] at h ⊢
    obtain ⟨⟨C₁, m₁⟩, hsimplify, h⟩ := h
    refine ⟨(C₁, m₁), workListApply_mono hfuel hsimplify, ?_⟩
    dsimp only at h ⊢
    rw [Option.bind_eq_some_iff] at h ⊢
    obtain ⟨⟨C₂, m₂⟩, hremove, h⟩ := h
    refine ⟨(C₂, m₂), workListApply_mono hfuel hremove, ?_⟩
    dsimp only at h ⊢
    split_ifs at h ⊢ with hm
    · exact ih hfuel h
    · exact h

theorem Wired.mozIrOptimize_ends (h : Wired C) : ∃ fuel C', mozIrOptimize fuel C = some C' := by
  induction hn : jumpingCount C using Nat.strong_induction_on generalizing C with
  | h n ih =>
    subst hn
    obtain ⟨fuel₁, C₁, m₁, hsimplify, hfades₁, hm₁⟩ :=
      workListApply_ends simplifyCfg (fun C W bb h => simplifyCfg_progresses h W bb) h
        (addAllBlocks C) false
    obtain ⟨fuel₂, C₂, m₂, hremove, hfades₂, hm₂⟩ :=
      workListApply_ends removeIndirectJumpHandler
        (fun C W bb h => removeIndirectJumpHandler_progresses h W bb) hfades₁.wired
        (addHandlerBlock C₁) false
    have hround : ∀ fuel, fuel₁ ≤ fuel → fuel₂ ≤ fuel → mozIrOptimize (fuel + 1) C =
        if m₁ || m₂ then mozIrOptimize fuel C₂ else some C₂ := by
      intro fuel hle₁ hle₂
      rw [mozIrOptimize, workListApply_mono hle₁ hsimplify, Option.bind_eq_bind, Option.bind_some]
      dsimp only
      rw [workListApply_mono hle₂ hremove, Option.bind_some]
    cases hm : m₁ || m₂ with
    | false =>
      refine ⟨max fuel₁ fuel₂ + 1, C₂, ?_⟩
      rw [hround _ (le_max_left ..) (le_max_right ..), hm]
      rfl
    | true =>
      have hlt : jumpingCount C₂ < jumpingCount C := by
        rcases Bool.or_eq_true_iff.1 hm with hm | hm
        · exact hfades₂.count_le.trans_lt ((hm₁ hm).resolve_left nofun)
        · exact ((hm₂ hm).resolve_left nofun).trans_le hfades₁.count_le
      obtain ⟨fuel₃, C', hrest⟩ := ih _ hlt hfades₂.wired rfl
      refine ⟨max (max fuel₁ fuel₂) fuel₃ + 1, C', ?_⟩
      rw [hround _ ((le_max_left ..).trans (le_max_left ..))
        ((le_max_right ..).trans (le_max_left ..)), hm]
      exact mozIrOptimize_mono (le_max_right ..) hrest

end Runs

/-- `moz_ir_optimize` ends on the blocks that `moz_ast_to_ir` emits for any productions. -/
theorem emitted_optimize_ends (C : MozCompiler) :
    ∃ fuel C', mozIrOptimize fuel (mozAstToIr { C with blocks := [], mem := fun _ => {} }) =
      some C' :=
  (mozAstToIr_wired (wired_start fun _ => rfl)).mozIrOptimize_ends

end Moz.Compiler
