import Moz.Compiler.PositionStacks

/-!
# The saved positions of a production

By induction on the expression the lowering keeps to the stacks. So the positions are
paired on every path of a production without a jump that leaves one behind, and on no
other path to its end.
-/

namespace Moz.Compiler

def SavesSequence (list : List Expr) : Prop :=
  ∀ blocks C T S stack, Stands C T S stack → Ready C T stack blocks →
    blocks.length = list.length → S.cur ∉ blocks → ∃ T', (∀ b < C.maxBlockId, T' b = T b) ∧
      Stands (mozSequenceToIr list blocks C S).1 T' (mozSequenceToIr list blocks C S).2 stack

def SavesChoice (list : List Expr) : Prop :=
  ∀ next fail blocks C T S stack, Flows C T → Ready C T stack blocks →
    blocks.length = list.length → T fail = some stack → T next = some stack →
      ∃ T', (∀ b < C.maxBlockId, T' b = T b) ∧
        Flows (mozChoiceToIr next list (blocks ++ [fail]) C S).1 T'

def SavesRounds (list : List Expr) : Prop :=
  ∀ fail cur blocks C T S stack, Flows C T → Ready C T stack blocks →
    blocks.length = list.length → T fail = some stack → Receives T stack cur →
      ∃ T', (∀ b < C.maxBlockId, T' b = T b) ∧
        Flows (mozRepetitionToIr fail list (blocks ++ [cur]) C S).1 T'

section Lists

variable {x : Expr} {list : List Expr} {C C' : MozCompiler} {T : StackMap} {S : MozState}
  {stack : List BlockId} {blocks : List BlockId} {bb : BlockId}

theorem mozCompilerCreateBlocks_nil (n : ℕ) (C : MozCompiler) (b : BlockId)
    (hle : C.maxBlockId ≤ b) (hlt : b < (mozCompilerCreateBlocks C n).1.maxBlockId) :
    (mozCompilerCreateBlocks C n).1.insts b = [] := by
  induction n generalizing C with
  | zero => exact absurd hlt hle.not_gt
  | succ n ih =>
    rcases hle.eq_or_lt with rfl | hlt'
    · have hgrows := (mozCompilerCreateBlocks_spec n (newBlock C)).1
      refine (hgrows.other _ (Nat.lt_succ_self _) List.not_mem_nil).trans ?_
      rw [insts_newBlock, if_pos rfl]
    · exact ih (newBlock C) hlt' hlt

theorem SavesSequence.nil : SavesSequence [] := by
  intro blocks C T S stack h _ _ _
  rw [mozSequenceToIr]
  exact ⟨T, fun _ _ => rfl, h⟩

theorem SavesSequence.cons (hx : Saves x) (he : Emits x) (ih : SavesSequence list) :
    SavesSequence (x :: list) := by
  intro blocks C T S stack h hready hlength hout
  cases blocks with
  | nil => cases hlength
  | cons bb blocks =>
    have hne : bb ≠ S.cur := fun heq => hout (heq ▸ List.mem_cons_self)
    have hlt := hready.free.lt bb List.mem_cons_self
    have hnotin := (List.nodup_cons.1 hready.free.nodup).1
    have hT := hready.stack_eq bb List.mem_cons_self
    rw [mozSequenceToIr]
    dsimp only [List.headD_cons, List.tail_cons, mozCompilerSetLabel]
    have hflows := h.link (.inl hT) S.cur
    have hready₁ : Ready (mozCompilerLink C S S.cur bb) T stack (bb :: blocks) := by
      refine hready.grow (hready.free.grow (grows_link C S S.cur bb) fun b hb hin => ?_)
        fun _ _ => rfl
      exact hout (List.mem_singleton.1 hin ▸ hb)
    have hmax₁ : (mozCompilerLink C S S.cur bb).maxBlockId = C.maxBlockId := rfl
    generalize mozCompilerLink C S S.cur bb = C₁ at *
    generalize hS₁ : MozState.mk S.head bb S.next S.fail = S₁
    have hcur₁ : S₁.cur = bb := hS₁ ▸ rfl
    have hstands₁ : Stands C₁ T S₁ stack := hflows.stands hready₁ hcur₁ (hS₁ ▸ h.fail)
    have h₂ := he C₁ S₁ hstands₁.cur_lt
    obtain ⟨T₂, hold₂, hstands₂⟩ := hx C₁ T S₁ stack hstands₁ (.inl (hcur₁ ▸ hT))
    generalize mozExprToIr x C₁ S₁ = r at *
    have hcur₂ := h₂.cur
    have hready₂ : Ready r.1 T₂ stack blocks := by
      refine hready₁.tail.grow (hready₁.free.tail.grow h₂.grows fun b hb hin => ?_) hold₂
      rw [List.mem_singleton.1 hin, hcur₁] at hb
      exact hnotin hb
    have hout₂ : r.2.cur ∉ blocks := by
      intro hin
      have hin' := hready₁.tail.free.lt _ hin
      have heq : r.2.cur = bb := by lia
      exact hnotin (heq ▸ hin)
    obtain ⟨T₃, hold₃, hstands₃⟩ :=
      ih blocks r.1 T₂ r.2 stack hstands₂ hready₂ (by simpa using hlength) hout₂
    have hmax₂ := h₂.grows.maxBlockId
    exact ⟨T₃, fun b hb => (hold₃ b (by lia)).trans (hold₂ b (by lia)), hstands₃⟩

/-- An alternative or an element of a round, and the jump behind it. -/
theorem Saves.alternative (hx : Saves x) (he : Emits x) (S : MozState) (h : Flows C T)
    (hready : Ready C T stack (bb :: blocks)) {next fail : BlockId}
    (hfail : T fail = some stack) (hnext : Receives T stack next) :
    let S₁ : MozState := { S with cur := bb, next := next, fail := fail }
    let r := mozExprToIr x C S₁
    let C' := mozCompilerLink r.1 r.2 r.2.cur next
    C.maxBlockId ≤ C'.maxBlockId ∧
      ∃ T', (∀ b < C.maxBlockId, T' b = T b) ∧ Flows C' T' ∧ Ready C' T' stack blocks := by
  dsimp only
  obtain ⟨-, hgrows, hfree, -⟩ := he.alternative S next fail hready.free
  have hstands : Stands C T { S with cur := bb, next := next, fail := fail } stack :=
    h.stands hready rfl hfail
  have hreceives : Receives T stack bb := .inl (hready.stack_eq bb List.mem_cons_self)
  obtain ⟨T', hold, hstands'⟩ := hx C T _ stack hstands hreceives
  exact ⟨hgrows.maxBlockId, T', hold, hstands'.link (hnext.grow h hold) _,
    hready.tail.grow hfree hold⟩

theorem SavesChoice.nil : SavesChoice [] := by
  intro next fail blocks C T S stack h _ hlength _ _
  obtain rfl := List.length_eq_zero_iff.1 hlength
  rw [mozChoiceToIr]
  exact ⟨T, fun _ _ => rfl, h⟩

theorem SavesChoice.cons (hx : Saves x) (he : Emits x) (ih : SavesChoice list) :
    SavesChoice (x :: list) := by
  intro next fail blocks C T S stack h hready hlength hfail hnext
  cases blocks with
  | nil => cases hlength
  | cons bb blocks =>
    rw [mozChoiceToIr]
    dsimp only [List.headD_cons, List.tail_cons, List.cons_append, mozCompilerSetLabel]
    have hfail' : T ((blocks ++ [fail]).headD 0) = some stack := by
      cases blocks with
      | nil => exact hfail
      | cons bb' blocks => exact hready.stack_eq bb' (by simp)
    obtain ⟨hstate, -⟩ := he.alternative S next ((blocks ++ [fail]).headD 0) hready.free
    obtain ⟨hmax, T₁, hold₁, hflows₁, hready₁⟩ :=
      hx.alternative he S h hready hfail' (.inl hnext)
    rw [hstate]
    generalize mozExprToIr x C _ = r at *
    generalize mozCompilerLink r.1 r.2 r.2.cur next = C₁ at *
    obtain ⟨T₂, hold₂, hflows₂⟩ := ih next fail blocks C₁ T₁ r.2 stack hflows₁ hready₁
      (by simpa using hlength) ((hold₁ _ (h.lt _ _ hfail)).trans hfail)
      ((hold₁ _ (h.lt _ _ hnext)).trans hnext)
    exact ⟨T₂, fun b hb => (hold₂ b (hb.trans_le hmax)).trans (hold₁ b hb), hflows₂⟩

theorem SavesRounds.nil : SavesRounds [] := by
  intro fail cur blocks C T S stack h _ hlength _ _
  obtain rfl := List.length_eq_zero_iff.1 hlength
  rw [mozRepetitionToIr]
  exact ⟨T, fun _ _ => rfl, h⟩

theorem SavesRounds.cons (hx : Saves x) (he : Emits x) (ih : SavesRounds list) :
    SavesRounds (x :: list) := by
  intro fail cur blocks C T S stack h hready hlength hfail hcur
  cases blocks with
  | nil => cases hlength
  | cons bb blocks =>
    rw [mozRepetitionToIr]
    dsimp only [List.headD_cons, List.tail_cons, List.cons_append, mozCompilerSetLabel]
    obtain ⟨hmax, T₁, hold₁, hflows₁, hready₁⟩ :=
      hx.alternative he S h hready hfail (hready.tail.receives hcur)
    generalize mozExprToIr x C _ = r at *
    generalize mozCompilerLink r.1 r.2 r.2.cur _ = C₁ at *
    obtain ⟨T₂, hold₂, hflows₂⟩ := ih fail cur blocks C₁ T₁ r.2 stack hflows₁ hready₁
      (by simpa using hlength) ((hold₁ _ (h.lt _ _ hfail)).trans hfail) (hcur.grow h hold₁)
    exact ⟨T₂, fun b hb => (hold₂ b (hb.trans_le hmax)).trans (hold₁ b hb), hflows₂⟩

theorem Saves.sequence (ih : SavesSequence list) (he : EmitsSequence list) :
    Saves (.sequence list) := by
  intro C T S stack h _
  rw [mozExprToIr_sequence]
  dsimp only
  have h₁ : Grows [] C (newBlock C) := grows_newBlock _ _
  have hmax₁ : (newBlock C).maxBlockId = C.maxBlockId + 1 := rfl
  have hnil₁ : (newBlock C).insts C.maxBlockId = [] := by rw [insts_newBlock, if_pos rfl]
  have hnil := mozCompilerCreateBlocks_nil list.length (newBlock C)
  generalize newBlock C = C₁ at *
  obtain ⟨h₂, hfree, hlength, hle⟩ := mozCompilerCreateBlocks_spec list.length C₁
  generalize mozCompilerCreateBlocks C₁ list.length = bs at *
  have hmax₂ := h₂.maxBlockId
  have hcur := h.cur_lt
  have hnil₂ : bs.1.insts C.maxBlockId = [] :=
    (h₂.other _ (by lia) List.not_mem_nil).trans hnil₁
  have hnil' : ∀ b, C.maxBlockId ≤ b → b < bs.1.maxBlockId → bs.1.insts b = [] :=
    fun b hle' hlt => by
      rcases hle'.eq_or_lt with rfl | hlt'
      · exact hnil₂
      · exact hnil b (by lia) hlt
  obtain ⟨T₁, hold, hnew, hstands⟩ := h.extend_same (h₁.trans_none h₂) hnil'
  have hready := h.ready hfree (fun b hb => by have := hle b hb; lia) hnew
  replace hnew := hnew C.maxBlockId le_rfl (by lia)
  generalize hS₁ : MozState.mk S.head S.cur C.maxBlockId S.fail = S₁
  have hcur₁ : S₁.cur = S.cur := hS₁ ▸ rfl
  have hstands₁ : Stands bs.1 T₁ S₁ stack := by
    subst hS₁
    exact { hstands with }
  have hout : S₁.cur ∉ bs.2 := fun hin => by
    have := hle _ hin
    lia
  have h₃ := he bs.2 bs.1 S₁ hstands₁.cur_lt hfree hlength hout
  obtain ⟨T₂, hold₂, hstands₂⟩ := ih bs.2 bs.1 T₁ S₁ stack hstands₁ hready hlength hout
  generalize mozSequenceToIr list bs.2 bs.1 S₁ = r at *
  have hmax₃ := h₃.grows.maxBlockId
  have hnext : r.2.next = C.maxBlockId := by rw [h₃.state, ← hS₁]
  rw [hnext]
  have hnew₂ : T₂ C.maxBlockId = some stack := (hold₂ _ (by lia)).trans hnew
  refine ⟨T₂, fun b hb => (hold₂ b (by lia)).trans (hold b hb), ?_⟩
  have hnotin : C.maxBlockId ∉ S₁.cur :: bs.2 := fun hin => by
    rcases List.mem_cons.1 hin with heq | hin
    · lia
    · have := hle _ hin
      lia
  have hnil₄ : (mozCompilerLink r.1 r.2 r.2.cur C.maxBlockId).insts C.maxBlockId = [] := by
    rw [insts_link, insts_emit, if_neg fun heq => ?_, h₃.grows.other _ (by lia) hnotin, hnil₂]
    rcases h₃.cur with hin | hle'
    · exact hnotin (heq ▸ hin)
    · lia
  refine (hstands₂.link (.inl hnew₂) _).stands (.single hnil₄ ?_ hnew₂ h.marks) rfl ?_
  · exact (by lia : C.maxBlockId < r.1.maxBlockId)
  · exact (hold₂ _ (hstands.flows.lt _ _ hstands.fail)).trans hstands.fail

theorem Saves.choice (ih : SavesChoice list) (he : EmitsChoice list) : Saves (.choice list) := by
  intro C T S stack h _
  rw [mozExprToIr_choice]
  dsimp only
  obtain ⟨h₁, hfree, hlength, hle⟩ := mozCompilerCreateBlocks_spec list.length C
  have hnil := mozCompilerCreateBlocks_nil list.length C
  generalize mozCompilerCreateBlocks C list.length = bs at *
  have hmax₁ := h₁.maxBlockId
  have hcur := h.cur_lt
  have h₂ : Grows [] bs.1 (newBlock bs.1) := grows_newBlock _ _
  have hmax₂ : (newBlock bs.1).maxBlockId = bs.1.maxBlockId + 1 := rfl
  have hnil₂ : (newBlock bs.1).insts bs.1.maxBlockId = [] := by rw [insts_newBlock, if_pos rfl]
  have hfree₂ : Free (newBlock bs.1) bs.2 := hfree.grow h₂ (by simp)
  generalize newBlock bs.1 = C₂ at *
  have hnil' : ∀ b, C.maxBlockId ≤ b → b < C₂.maxBlockId → C₂.insts b = [] :=
    fun b hle' hlt => by
      rcases (Nat.lt_succ_iff.1 (hmax₂ ▸ hlt)).eq_or_lt with rfl | hlt'
      · exact hnil₂
      · exact (h₂.other b hlt' List.not_mem_nil).trans (hnil b hle' hlt')
  obtain ⟨T₁, hold, hnew, hstands⟩ := h.extend_same (h₁.trans_none h₂) hnil'
  have hready := h.ready hfree₂ hle hnew
  replace hnew := hnew bs.1.maxBlockId hmax₁ (by lia)
  have hfirst : Receives T₁ stack ((bs.2 ++ [S.fail]).headD 0) :=
    hready.receives (.inl hstands.fail)
  have hflows₃ := hstands.link hfirst S.cur
  have hnil₃ : (mozCompilerLink C₂ S S.cur ((bs.2 ++ [S.fail]).headD 0)).insts bs.1.maxBlockId =
      [] := by
    rw [insts_link, insts_emit, if_neg (by lia), hnil₂]
  have hmax₃ : (mozCompilerLink C₂ S S.cur ((bs.2 ++ [S.fail]).headD 0)).maxBlockId =
      C₂.maxBlockId := rfl
  have hfree₃ : Free (mozCompilerLink C₂ S S.cur ((bs.2 ++ [S.fail]).headD 0)) bs.2 :=
    hfree₂.grow (grows_link C₂ S S.cur _) fun b hb hin => by
      have := hle b hb
      rw [List.mem_singleton.1 hin] at this
      lia
  have hready₃ := hready.grow hfree₃ fun _ _ => rfl
  generalize mozCompilerLink C₂ S S.cur ((bs.2 ++ [S.fail]).headD 0) = C₃ at *
  have h₄ := he bs.1.maxBlockId S.fail bs.2 C₃ S hfree₃ hlength
  obtain ⟨T₄, hold₄, hflows₄⟩ := ih bs.1.maxBlockId S.fail bs.2 C₃ T₁ S stack hflows₃ hready₃
    hlength hstands.fail hnew
  generalize mozChoiceToIr bs.1.maxBlockId list (bs.2 ++ [S.fail]) C₃ S = r at *
  rw [h₄.next_eq]
  have hmax₄ := h₄.grows.maxBlockId
  have hnil₄ : r.1.insts bs.1.maxBlockId = [] :=
    (h₄.grows.other _ (by lia) fun hin => (hfree.lt _ hin).false).trans hnil₃
  have hnew₄ : T₄ bs.1.maxBlockId = some stack := (hold₄ _ (by lia)).trans hnew
  refine ⟨T₄, fun b hb => (hold₄ b (by lia)).trans (hold b hb), ?_⟩
  refine hflows₄.stands (.single hnil₄ (by lia) hnew₄ fun head hhead => ?_) rfl ?_
  · exact (h.marks head hhead).trans hmax₁
  · exact (hold₄ _ (hmax₃ ▸ hstands.flows.lt _ _ hstands.fail)).trans hstands.fail

theorem Saves.repetition {C₀ : MozCompiler} (hop : Expr.repetitionOp C₀ list = none)
    (ih : SavesRounds list) (he : EmitsRounds list) : Saves (.repetition list) := by
  intro C T S stack h hback
  rw [mozExprToIr_repetition (Expr.repetitionOp_eq_none C hop)]
  dsimp only
  obtain ⟨h₁, hfree, hlength, hle⟩ := mozCompilerCreateBlocks_spec list.length C
  have hnil := mozCompilerCreateBlocks_nil list.length C
  generalize mozCompilerCreateBlocks C list.length = bs at *
  have hmax₁ := h₁.maxBlockId
  have hcur := h.cur_lt
  have h₂ : Grows [] bs.1 (newBlock (bs.1.blockSetType S.cur .blockLoopHead)) :=
    (grows_blockSetType _ _ _).trans_same (grows_newBlock _ _)
  have hmax₂ : (newBlock (bs.1.blockSetType S.cur .blockLoopHead)).maxBlockId =
      bs.1.maxBlockId + 1 := rfl
  have hnil₂ : (newBlock (bs.1.blockSetType S.cur .blockLoopHead)).insts bs.1.maxBlockId = [] := by
    rw [insts_newBlock]
    exact if_pos rfl
  have hfree₂ : Free (newBlock (bs.1.blockSetType S.cur .blockLoopHead)) bs.2 :=
    hfree.grow h₂ (by simp)
  generalize newBlock (bs.1.blockSetType S.cur .blockLoopHead) = C₂ at *
  have hnil' : ∀ b, C.maxBlockId ≤ b → b < C₂.maxBlockId → C₂.insts b = [] :=
    fun b hle' hlt => by
      rcases (Nat.lt_succ_iff.1 (hmax₂ ▸ hlt)).eq_or_lt with rfl | hlt'
      · exact hnil₂
      · exact (h₂.other b hlt' List.not_mem_nil).trans (hnil b hle' hlt')
  obtain ⟨T₁, hold, hnew, hstands⟩ := h.extend_same (h₁.trans_none h₂) hnil'
  have hready := h.ready hfree₂ hle hnew
  replace hnew := hnew bs.1.maxBlockId hmax₁ (by lia)
  have hfirst : Receives T₁ stack ((bs.2 ++ [S.cur]).headD 0) :=
    hready.receives (hback.grow h.flows hold)
  generalize (bs.2 ++ [S.cur]).headD 0 = first at *
  generalize hS₁ : MozState.mk S.head S.cur S.next bs.1.maxBlockId = S₁
  have hcur₁ : S₁.cur = S.cur := hS₁ ▸ rfl
  have hstands₁ : Stands C₂ T₁ S₁ stack := by
    subst hS₁
    exact { hstands with fail := hnew }
  have hflows₃ := hstands₁.link hfirst S.cur
  have hnil₃ : (mozCompilerLink C₂ S₁ S.cur first).insts bs.1.maxBlockId = [] := by
    rw [insts_link, insts_emit, if_neg (by lia), hnil₂]
  have hmax₃ : (mozCompilerLink C₂ S₁ S.cur first).maxBlockId = C₂.maxBlockId := rfl
  have hfree₃ : Free (mozCompilerLink C₂ S₁ S.cur first) bs.2 :=
    hfree₂.grow (grows_link C₂ S₁ S.cur _) fun b hb hin => by
      have := hle b hb
      rw [List.mem_singleton.1 hin] at this
      lia
  have hready₃ := hready.grow hfree₃ fun _ _ => rfl
  generalize mozCompilerLink C₂ S₁ S.cur first = C₃ at *
  have h₄ := he bs.1.maxBlockId S.cur bs.2 C₃ S₁ hfree₃ hlength
  obtain ⟨T₄, hold₄, hflows₄⟩ := ih bs.1.maxBlockId S.cur bs.2 C₃ T₁ S₁ stack hflows₃ hready₃
    hlength hnew (hback.grow h.flows hold)
  generalize mozRepetitionToIr bs.1.maxBlockId list (bs.2 ++ [S.cur]) C₃ S₁ = r at *
  have hmax₄ := h₄.grows.maxBlockId
  have hnil₄ : r.1.insts bs.1.maxBlockId = [] :=
    (h₄.grows.other _ (by lia) fun hin => (hfree.lt _ hin).false).trans hnil₃
  have hnew₄ : T₄ bs.1.maxBlockId = some stack := (hold₄ _ (by lia)).trans hnew
  refine ⟨T₄, fun b hb => (hold₄ b (by lia)).trans (hold b hb), ?_⟩
  refine hflows₄.stands (.single hnil₄ (by lia) hnew₄ fun head hhead => ?_) rfl ?_
  · exact (h.marks head hhead).trans hmax₁
  · exact (hold₄ _ (hmax₃ ▸ hstands.flows.lt _ _ hstands.fail)).trans hstands.fail

end Lists

mutual

theorem saves : ∀ e : Expr, e.implemented → Saves e
  | .empty, _ => .empty
  | .invoke d, _ => .simple (.iInvoke d) rfl fun _ _ => rfl
  | .any, _ => .simple .iAny rfl fun _ _ => rfl
  | .byte byte, _ => .simple (.iByte byte) rfl fun _ _ => rfl
  | .str _, _ => .withString (fun _ => rfl) fun _ _ => rfl
  | .set _, _ => .withSet (fun _ => rfl) fun _ _ => rfl
  | .and e, h => (saves e h).and (emits e h)
  | .choice list, h => by
    simp only [Expr.implemented, Bool.and_eq_true] at h
    exact .choice (savesChoice list h.2) (emitsChoice list (by simpa using h.1) h.2)
  | .fail, _ => .fail
  | .not e, h => by
    cases he : e.notOp with
    | none => exact (saves e h).not he (emits e h)
    | some op =>
      cases e with
      | any => exact .simple .iNAny rfl fun _ _ => rfl
      | empty | invoke | byte | str | set | and | choice | fail | not | option | sequence
      | repetition | tcapture | tpush | tpop | tnew | ttag | todo => cases he
  | .option e, h => by
    cases he : e.optionOp { decls := [] } with
    | none => exact (saves e h).option he (emits e h)
    | some op =>
      cases e with
      | byte byte => exact .simple (.iOByte byte) rfl fun _ _ => rfl
      | str => exact .withString (fun _ => rfl) fun _ _ => rfl
      | set => exact .withSet (fun _ => rfl) fun _ _ => rfl
      | empty | invoke | any | and | choice | fail | not | option | sequence
      | repetition | tcapture | tpush | tpop | tnew | ttag | todo => cases he
  | .sequence list, h => .sequence (savesSequence list h) (emitsSequence list h)
  | .repetition list, h => by
    cases he : Expr.repetitionOp { decls := [] } list with
    | none => exact .repetition he (savesRounds list h) (emitsRounds list h)
    | some op =>
      match list, he with
      | [x], he =>
        cases x with
        | any => exact .simple .iRAny rfl fun _ _ => rfl
        | byte byte => exact .simple (.iRByte byte) rfl fun _ _ => rfl
        | str => exact .withString (fun _ => rfl) fun _ _ => rfl
        | set => exact .withSet (fun _ => rfl) fun _ _ => rfl
        | empty | invoke | and | choice | fail | not | option | sequence | repetition | tcapture
        | tpush | tpop | tnew | ttag | todo => cases he
  | .tcapture, _ => .simple (.iTCapture 0) rfl fun _ _ => rfl
  | .tpush, _ => .simple .iTPush rfl fun _ _ => rfl
  | .tpop _, _ => .withTag (fun _ => rfl) fun _ _ => rfl
  | .tnew, _ => .simple (.iTNew 0) rfl fun _ _ => rfl
  | .ttag _, _ => .withTag (fun _ => rfl) fun _ _ => rfl

theorem savesSequence : ∀ list : List Expr, implementedAll list → SavesSequence list
  | [], _ => .nil
  | x :: list, h => by
    simp only [implementedAll, Bool.and_eq_true] at h
    exact .cons (saves x h.1) (emits x h.1) (savesSequence list h.2)

theorem savesChoice : ∀ list : List Expr, implementedAll list → SavesChoice list
  | [], _ => .nil
  | x :: list, h => by
    simp only [implementedAll, Bool.and_eq_true] at h
    exact .cons (saves x h.1) (emits x h.1) (savesChoice list h.2)

theorem savesRounds : ∀ list : List Expr, implementedAll list → SavesRounds list
  | [], _ => .nil
  | x :: list, h => by
    simp only [implementedAll, Bool.and_eq_true] at h
    exact .cons (saves x h.1) (emits x h.1) (savesRounds list h.2)

end

section Productions

variable {C C' : MozCompiler} {T : StackMap} {body : Expr}

theorem Flows.leave (h : Flows C T) {S : MozState} {op : Op} (hop : op.course = .leave)
    (hnil : C.insts S.cur = []) (hT : T S.cur = some []) : Flows (mozCompilerEmit C S op) T := by
  refine h.emit fun entered τ hentered hτ => ?_
  rw [hT] at hentered
  rw [hnil] at hτ
  obtain rfl := Option.some.inj hentered
  obtain rfl := Option.some.inj hτ
  have hcourse : (emitted C S op).op.course = .leave := hop
  rw [Flow, hcourse]

/-- `moz_decl_to_ir` keeps to the stacks, with none at the entry block. -/
theorem mozBodyToIr_flows (hbody : body.implemented) (h : Flows C T) : ∃ T',
    (∀ b < C.maxBlockId, T' b = T b) ∧ T' C.maxBlockId = some [] ∧
      Flows (mozBodyToIr C body).1 T' := by
  rw [mozBodyToIr_eq]
  dsimp only
  obtain ⟨h₁, hmax₁, hnil₁⟩ := @mozStateInit_spec C
  generalize (mozStateInit C).1 = C₁ at *
  have hnil : ∀ b, C.maxBlockId ≤ b → b < C₁.maxBlockId → C₁.insts b = [] := fun b hle hlt => by
    obtain ⟨k, rfl⟩ := Nat.exists_eq_add_of_le hle
    exact hnil₁ k (by lia)
  have hmarks : ∀ head ∈ ([] : List BlockId),
      head < C.maxBlockId ∧ head + 3 ≤ C₁.maxBlockId := by simp
  obtain ⟨T₁, hold₁, hnew₁, hflows₁⟩ := h.extend h₁ hnil hmarks
  generalize hS₁ : MozState.mk C.maxBlockId C.maxBlockId (C.maxBlockId + 1) (C.maxBlockId + 2) = S₁
  have hcur₁ : S₁.cur = C.maxBlockId := hS₁ ▸ rfl
  have hfail₁ : S₁.fail = C.maxBlockId + 2 := hS₁ ▸ rfl
  have hready : ∀ b, C.maxBlockId ≤ b → b < C₁.maxBlockId → Ready C₁ T₁ [] [b] :=
    fun b hle hlt => .single (hnil b hle hlt) hlt (hnew₁ b hle hlt) (by simp)
  have hstands₁ : Stands C₁ T₁ S₁ [] := hflows₁.stands (hready _ le_rfl (by lia)) hcur₁
    (hnew₁ _ (by lia) (by lia))
  have h₂ := emits body hbody C₁ S₁ hstands₁.cur_lt
  obtain ⟨T₂, hold₂, hstands₂⟩ := saves body hbody C₁ T₁ S₁ [] hstands₁
    (.inl (hcur₁ ▸ hnew₁ _ le_rfl (by lia)))
  generalize mozExprToIr body C₁ S₁ = r at *
  have hnext : r.2.next = C.maxBlockId + 1 := by rw [h₂.state, ← hS₁]
  have hfail : r.2.fail = C.maxBlockId + 2 := by rw [h₂.state, ← hS₁]
  have hcur₂ := h₂.cur
  have hmax₂ := h₂.grows.maxBlockId
  have hnew₂ : ∀ i < 3, T₂ (C.maxBlockId + i) = some [] := fun i hi =>
    (hold₂ _ (by lia)).trans (hnew₁ _ (by lia) (by lia))
  have hnil₂ : ∀ i, 0 < i → i < 3 → r.1.insts (C.maxBlockId + i) = [] := fun i hi hi' => by
    rw [h₂.grows.other _ (by lia) (by simp only [List.mem_singleton]; lia), hnil₁ i hi']
  rw [hnext, hfail]
  have hflows₃ := hstands₂.link (.inl (hnew₂ 1 (by lia))) r.2.cur
  have hnil₃ : ∀ i, 0 < i → i < 3 → (mozCompilerLink r.1 r.2 r.2.cur (C.maxBlockId + 1)).insts
      (C.maxBlockId + i) = [] := fun i hi hi' => by
    rw [insts_link, insts_emit, if_neg (by lia), hnil₂ i hi hi']
  generalize mozCompilerLink r.1 r.2 r.2.cur (C.maxBlockId + 1) = C₃ at *
  generalize hS₃ : MozState.mk r.2.head (C.maxBlockId + 1) (C.maxBlockId + 1)
    (C.maxBlockId + 2) = S₃
  have hcur₃ : S₃.cur = C.maxBlockId + 1 := hS₃ ▸ rfl
  have hflows₄ : Flows (mozCompilerEmit C₃ S₃ .iRet) T₂ := by
    refine hflows₃.leave rfl ?_ ?_
    · rw [hcur₃]
      exact hnil₃ 1 (by lia) (by lia)
    · rw [hcur₃]
      exact hnew₂ 1 (by lia)
  refine ⟨T₂, fun b hb => (hold₂ b (by lia)).trans (hold₁ b hb), hnew₂ 0 (by lia), ?_⟩
  refine hflows₄.leave rfl ?_ (hnew₂ 2 (by lia))
  rw [insts_emit, hcur₃]
  exact (if_neg (by lia)).trans (hnil₃ 2 (by lia) (by lia))

/-- The productions whose entry block is stored have no saved positions there. -/
def StartsEmpty (T : StackMap) (C : MozCompiler) (n : ℕ) : Prop :=
  ∀ d < n, ∀ decl entry, C.decls[d]? = some decl → 0 < decl.refc → decl.inst = some entry →
    T entry = some []

theorem mozDeclsToIr_flows (list : List Decl) (n : ℕ) (C : MozCompiler) (T : StackMap)
    (hlist : ∀ decl ∈ list, 0 < decl.refc → decl.body.implemented)
    (hdecls : ∀ i, C.decls[n + i]? = list[i]?) (h : Flows C T) (hentered : StartsEmpty T C n) :
    ∃ T', Flows ((list.zipIdx n).foldl (fun C (decl, d) =>
        if 0 < decl.refc then mozDeclToIr C d decl else C) C) T' ∧
      StartsEmpty T' ((list.zipIdx n).foldl (fun C (decl, d) =>
        if 0 < decl.refc then mozDeclToIr C d decl else C) C) (n + list.length) := by
  induction list generalizing n C T with
  | nil => exact ⟨T, h, hentered⟩
  | cons x list ih =>
    have hlist' : ∀ decl ∈ list, 0 < decl.refc → decl.body.implemented := fun decl hdecl =>
      hlist decl (List.mem_cons_of_mem _ hdecl)
    have hlength : n + (x :: list).length = n + 1 + list.length := by
      rw [List.length_cons]
      omega
    have hx : C.decls[n]? = some x := hdecls 0
    have hdecls' : ∀ i, C.decls[n + 1 + i]? = list[i]? := fun i => by
      have hnext := hdecls (i + 1)
      rwa [List.getElem?_cons_succ, ← Nat.add_assoc, Nat.add_right_comm] at hnext
    rw [List.zipIdx_cons, List.foldl_cons, hlength]
    dsimp only
    split_ifs with hrefc
    · have hbody := hlist x List.mem_cons_self hrefc
      obtain ⟨T₁, hold, hentry, hflows⟩ := mozBodyToIr_flows hbody h
      obtain ⟨hgrows, hhead, -⟩ := @mozBodyToIr_spec C x.body hbody
      have heq : (mozDeclToIr C n x).decls =
          C.decls.set n { x with inst := some C.maxBlockId } := by
        simp only [mozDeclToIr, hgrows.decls, hhead]
      refine ih (n + 1) (mozDeclToIr C n x) T₁ hlist' (fun i => ?_)
        (hflows.congr (fun _ => rfl) rfl) fun d hd decl entry hdecl hdecl' hinst => ?_
      · rw [heq, List.getElem?_set_ne (by omega), hdecls']
      · rw [heq] at hdecl
        rcases (Nat.lt_succ_iff.1 hd).eq_or_lt with rfl | hlt
        · rw [List.getElem?_set_self (List.getElem?_eq_some_iff.1 hx).1] at hdecl
          obtain rfl := Option.some.inj hdecl
          obtain rfl := Option.some.inj hinst
          exact hentry
        · rw [List.getElem?_set_ne hlt.ne'] at hdecl
          have hT := hentered d hlt decl entry hdecl hdecl' hinst
          exact (hold entry (h.lt _ _ hT)).trans hT
    · refine ih (n + 1) C T hlist' hdecls' h fun d hd decl entry hdecl hdecl' hinst => ?_
      rcases (Nat.lt_succ_iff.1 hd).eq_or_lt with rfl | hlt
      · obtain rfl := Option.some.inj (hx.symm.trans hdecl)
        exact absurd hdecl' hrefc
      · exact hentered d hlt decl entry hdecl hdecl' hinst

/-- The stacks of the blocks that `moz_ast_to_ir` emits. -/
theorem mozAstToIr_flows (hC : ∀ decl ∈ C.decls, 0 < decl.refc → decl.body.implemented) :
    ∃ T, Flows (mozAstToIr C) T ∧ StartsEmpty T (mozAstToIr C) C.decls.length := by
  have hnone : Flows C fun _ => none := ⟨by simp, by simp, by simp⟩
  have hdecls : ∀ i, C.decls[0 + i]? = C.decls[i]? := fun i => by rw [Nat.zero_add]
  obtain ⟨T, hflows, hentered⟩ := mozDeclsToIr_flows C.decls 0 C _ hC hdecls hnone
    fun d hd => absurd hd (Nat.not_lt_zero d)
  rw [Nat.zero_add] at hentered
  exact ⟨T, hflows, hentered⟩

/-- The saved positions of a production are paired on all paths without a jump that leaves one
behind, and on no other path does the number of positions agree with these at the beginning of a
block or with 0 where the production is left. -/
theorem positions_paired (hC : ∀ decl ∈ C.decls, 0 < decl.refc → decl.body.implemented) {d : ℕ}
    {decl : Decl} (hd : C.decls[d]? = some decl) (hrefc : 0 < decl.refc) : ∃ entry,
      (mozAstToIr C).decls[d]? = some { decl with inst := some entry } ∧
      PositionsPaired (mozAstToIr C) (TidyPath (mozAstToIr C) entry) ∧
      (∀ s u, Path (mozAstToIr C) entry s → TidyPath (mozAstToIr C) entry u → s.block = u.block →
        s.code = (mozAstToIr C).insts s.block → u.code = (mozAstToIr C).insts u.block →
          (s.depth = u.depth ↔ TidyPath (mozAstToIr C) entry s)) ∧
      ∀ s, Path (mozAstToIr C) entry s → ∀ x l, s.code = x :: l → x.op.course = .leave →
        (s.depth = 0 ↔ TidyPath (mozAstToIr C) entry s) := by
  obtain ⟨entry, hinst, -⟩ := mozAstToIr_placed hC hd hrefc
  obtain ⟨T, hflows, hentered⟩ := mozAstToIr_flows hC
  have hlt : d < C.decls.length := (List.getElem?_eq_some_iff.1 hd).1
  have hentry : T entry = some [] := hentered d hlt _ entry hinst hrefc rfl
  refine ⟨entry, hinst, hflows.paired hentry, ?_, ?_⟩
  · intro s u hs hu hblock hcode hcode'
    exact hflows.depth_eq_iff hentry hs hu hblock hcode hcode'
  · intro s hs x l hcode hop
    exact hflows.ends_iff hentry hs hcode hop

/-- `File = &('a' !'b') 'a'`. -/
def nestedPredicates : MozCompiler where
  decls := [{ body := .sequence [.and (.sequence [.byte 97, .not (.byte 98)]), .byte 97] }]

/-- A path through both predicates, where the operand of the inner one fails. -/
theorem nestedPredicates_along : ∃ s, Path (mozAstToIr nestedPredicates) 0 s ∧
    s.code.head?.map (·.op) = some .iRet ∧ s.depth = 0 ∧ s.stores 6 = 1 ∧ s.stores 12 = 1 := by
  have hrun : ((PathState.start (mozAstToIr nestedPredicates) 0).along
      (mozAstToIr nestedPredicates) (List.replicate 8 false ++ true :: List.replicate 8 false)).map
        (fun s => (s.code.head?.map (·.op), s.depth, s.stores 6, s.stores 12)) =
      some (some .iRet, 0, 1, 1) := by decide +kernel
  obtain ⟨s, hs, heq⟩ := Option.map_eq_some_iff.1 hrun
  simp only [Prod.mk.injEq] at heq
  exact ⟨s, PathState.along_path hs, heq.1, heq.2.1, heq.2.2.1, heq.2.2.2⟩

theorem positions_paired_nestedPredicates : ∃ entry,
    (mozAstToIr nestedPredicates).decls[0]?.map Decl.inst = some (some entry) ∧
      PositionsPaired (mozAstToIr nestedPredicates) (TidyPath (mozAstToIr nestedPredicates) entry) ∧
      ∃ s, TidyPath (mozAstToIr nestedPredicates) entry s ∧ s.stores 6 = 1 ∧ s.stores 12 = 1 := by
  have himplemented : ∀ decl ∈ nestedPredicates.decls, 0 < decl.refc → decl.body.implemented := by
    intro decl hdecl _
    obtain rfl := List.mem_singleton.1 hdecl
    rfl
  obtain ⟨entry, hinst, hpaired, -, hends⟩ :=
    @positions_paired nestedPredicates himplemented 0 _ rfl (by decide)
  have hentry : (mozAstToIr nestedPredicates).decls[0]?.map Decl.inst = some (some 0) := by
    decide +kernel
  rw [hinst] at hentry
  obtain rfl : entry = 0 := by simpa using hentry
  obtain ⟨s, hs, hret, hdepth, hstores⟩ := nestedPredicates_along
  obtain ⟨x, hcode, hop⟩ := Option.map_eq_some_iff.1 hret
  obtain ⟨l, hcode⟩ := List.head?_eq_some_iff.1 hcode
  refine ⟨0, by rw [hinst]; rfl, hpaired, s, (hends s hs x l hcode ?_).1 hdepth, hstores⟩
  rw [hop]
  rfl

/-- `File = &'a'`. -/
def lookahead : MozCompiler where
  decls := [{ body := .and (.byte 97) }]

/-- The production is left with the position saved when the operand fails. -/
theorem lookahead_left : ¬∃ entry,
    (mozAstToIr lookahead).decls[0]?.map Decl.inst = some (some entry) ∧
      PositionsPaired (mozAstToIr lookahead) (Path (mozAstToIr lookahead) entry) := by
  rintro ⟨entry, hinst, hpaired⟩
  have hentry : (mozAstToIr lookahead).decls[0]?.map Decl.inst = some (some 0) := by
    decide +kernel
  obtain rfl : entry = 0 := Option.some.inj (Option.some.inj (hinst.symm.trans hentry))
  have hrun : ((PathState.start (mozAstToIr lookahead) 0).along (mozAstToIr lookahead)
      [false, false, true, false]).map (fun s => (s.code.head?.map (·.op), s.depth)) =
        some (some .iFail, 1) := by decide +kernel
  obtain ⟨s, hs, heq⟩ := Option.map_eq_some_iff.1 hrun
  obtain ⟨hop, hdepth⟩ := Prod.mk.inj heq
  obtain ⟨x, hcode, hop⟩ := Option.map_eq_some_iff.1 hop
  obtain ⟨l, hcode⟩ := List.head?_eq_some_iff.1 hcode
  have hzero := hpaired.ends s (PathState.along_path hs) x l hcode (by rw [hop]; rfl)
  rw [hdepth] at hzero
  cases hzero

end Productions

end Moz.Compiler
