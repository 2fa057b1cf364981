import Moz.Compiler.Defaults

/-!
# The lowering places the code of an expression

By induction on the expression: the lowering writes to the current block and to
new blocks, and in every later compiler the code of the expression lies as
`Placed` says. It is said for the expressions that have a lowering; an empty
`Choice` leaves the current block for the continuation of its context and is left
out.
-/

namespace Moz.Compiler

mutual

/-- No construct without a lowering, and no `Choice` without alternatives. -/
def Expr.implemented : Expr → Bool
  | .empty | .invoke _ | .any | .byte _ | .str _ | .set _ | .fail | .tcapture | .tpush | .tpop _
  | .tnew | .ttag _ => true
  | .and expr | .not expr | .option expr => expr.implemented
  | .choice list => !list.isEmpty && implementedAll list
  | .sequence list | .repetition list => implementedAll list
  | .todo _ => false

def implementedAll : List Expr → Bool
  | [] => true
  | x :: list => x.implemented && implementedAll list

end

structure Emitted (e : Expr) (C : MozCompiler) (S : MozState) (r : MozCompiler × MozState) :
    Prop where
  grows : Grows [S.cur] C r.1
  cur : r.2.cur = S.cur ∨ C.maxBlockId ≤ r.2.cur
  cur_lt : r.2.cur < r.1.maxBlockId
  state : r.2 = { S with cur := r.2.cur }
  placed : ∀ F hd, Later r.1 F → Opened hd (C.insts S.cur) →
    Placed F hd e (F.rest C S.cur) S.fail (F.rest r.1 r.2.cur)

theorem EmittedBlocks.emitted {e : Expr} {C : MozCompiler} {S : MozState}
    {r : MozCompiler × MozState} (h : EmittedBlocks e C S r) (he : ∀ F, e.op F = none) :
    Emitted e C S r where
  grows := h.grows
  cur := h.cur
  cur_lt := h.cur_lt
  state := h.state
  placed F hd hlater hopened := (h.placed F hd hlater hopened).placed (he F)

def Emits (e : Expr) : Prop :=
  ∀ C S, S.cur < C.maxBlockId → Emitted e C S (mozExprToIr e C S)

section One

variable {e : Expr} {C C₁ : MozCompiler} {S : MozState} {op : Op}

theorem Emitted.ofEmit (hcur : S.cur < C.maxBlockId) (hgrows : Grows [] C C₁)
    (hmax : C₁.maxBlockId = C.maxBlockId)
    (hplaced : ∀ F hd l l', Later C₁ F → Begins op S.fail l l' → Placed F hd e l S.fail l') :
    Emitted e C S (mozCompilerEmit C₁ S op, S) where
  grows := ((Grows.refl [S.cur] C).trans_none hgrows).trans_same (grows_emit C₁ S op)
  cur := .inl rfl
  cur_lt := hmax ▸ hcur
  state := rfl
  placed F hd hlater _ := by
    have hlater₁ : Later C₁ F := (grows_emit C₁ S op).later hlater
    have hbegins := begins_emit (hmax ▸ hcur) hlater
    rw [hgrows.rest_eq hcur (by simp)] at hbegins
    exact hplaced F hd _ _ hlater₁ hbegins

end One

section Unary

variable {e : Expr} {C : MozCompiler} {S : MozState}

/-- `And` and `Not` up to the jump after the body, when the body goes to `next` or `fail`. -/
def mozPredicateToIr (e : Expr) (C : MozCompiler) (S : MozState) (next fail : BlockId) :
    MozCompiler × MozState :=
  let C₁ := newBlock (newBlock (newBlock C))
  let C₂ := mozCompilerLink C₁ S S.cur C.maxBlockId
  let S₁ : MozState := { S with cur := C.maxBlockId, next := next, fail := fail }
  let r := mozExprToIr e (mozCompilerEmit C₂ S₁ .iPStore) S₁
  (mozCompilerLink r.1 r.2 r.2.cur r.2.next, r.2)

theorem mozExprToIr_and : mozExprToIr (.and e) C S =
    let fail := C.maxBlockId + 2
    let r := mozPredicateToIr e C S (C.maxBlockId + 1) fail
    let C' := mozCompilerEmit r.1 { r.2 with cur := r.2.next, fail := S.fail } .iPLoad
    (mozCompilerLink C' { r.2 with cur := fail, fail := fail } fail S.fail,
      { S with cur := r.2.next }) := rfl

theorem mozNotToBlocks_eq : mozNotToBlocks e C S =
    let r := mozPredicateToIr e C S (C.maxBlockId + 2) (C.maxBlockId + 1)
    let C' := mozCompilerLink r.1 { r.2 with cur := r.2.next } r.2.next S.fail
    (mozCompilerEmit C' { r.2 with cur := r.2.fail, fail := S.fail } .iPLoad,
      { S with cur := r.2.fail }) := rfl

theorem mozExprToIr_not (he : e.notOp = none) : mozExprToIr (.not e) C S =
    let r := mozPredicateToIr e C S (C.maxBlockId + 2) (C.maxBlockId + 1)
    let C' := mozCompilerLink r.1 { r.2 with cur := r.2.next } r.2.next S.fail
    (mozCompilerEmit C' { r.2 with cur := r.2.fail, fail := S.fail } .iPLoad,
      { S with cur := r.2.fail }) := by
  rw [mozExprToIr.eq_def]
  dsimp only
  split
  · cases he
  · rfl

theorem newBlocks_spec : Grows [] C (newBlock (newBlock (newBlock C))) ∧
    ∀ i < 3, (newBlock (newBlock (newBlock C))).insts (C.maxBlockId + i) = [] := by
  refine ⟨?_, fun i hi => ?_⟩
  · exact ((grows_newBlock C []).trans_same (grows_newBlock _ [])).trans_same (grows_newBlock _ [])
  · simp only [insts_newBlock, maxBlockId_newBlock]
    split_ifs
    · rfl
    · rfl
    · rfl
    · lia

/-- What `And` and `Not` have done up to the jump after the body. -/
structure Guarded (e : Expr) (C : MozCompiler) (S : MozState) (next fail : BlockId)
    (r : MozCompiler × MozState) : Prop where
  grows : Grows [S.cur] C r.1
  maxBlockId : C.maxBlockId + 3 ≤ r.1.maxBlockId
  state : r.2 = { S with cur := r.2.cur, next := next, fail := fail }
  next_nil : r.1.insts next = []
  fail_nil : r.1.insts fail = []
  placed : ∀ F, Later r.1 F → Jumps (F.rest C S.cur) C.maxBlockId ∧ ∃ a body stop,
    Begins .iPStore a (F.insts C.maxBlockId) body ∧ Placed F true e body fail stop ∧
      Jumps stop next

theorem Emits.guarded (ih : Emits e) (hcur : S.cur < C.maxBlockId) {i j : ℕ} (hi : 0 < i ∧ i < 3)
    (hj : 0 < j ∧ j < 3) : Guarded e C S (C.maxBlockId + i) (C.maxBlockId + j)
      (mozPredicateToIr e C S (C.maxBlockId + i) (C.maxBlockId + j)) := by
  unfold mozPredicateToIr
  obtain ⟨h₁, hnil₁⟩ := @newBlocks_spec C
  have hmax₁ : (newBlock (newBlock (newBlock C))).maxBlockId = C.maxBlockId + 3 := rfl
  generalize newBlock (newBlock (newBlock C)) = C₁ at *
  dsimp only
  have h₂ : Grows [S.cur] C₁ (mozCompilerLink C₁ S S.cur C.maxBlockId) := grows_link _ _ _ _
  have hmax₂ : (mozCompilerLink C₁ S S.cur C.maxBlockId).maxBlockId = C.maxBlockId + 3 := hmax₁
  have hjump : ∀ F, Later (mozCompilerLink C₁ S S.cur C.maxBlockId) F →
      Jumps (F.rest C₁ S.cur) C.maxBlockId := fun F => jumps_link (by lia)
  generalize mozCompilerLink C₁ S S.cur C.maxBlockId = C₂ at *
  generalize hS₁ : MozState.mk S.head C.maxBlockId (C.maxBlockId + i) (C.maxBlockId + j) = S₁
  have hcur₁ : S₁.cur = C.maxBlockId := hS₁ ▸ rfl
  have h₃ : Grows [S₁.cur] C₂ (mozCompilerEmit C₂ S₁ .iPStore) := grows_emit _ _ _
  have hmax₃ : (mozCompilerEmit C₂ S₁ .iPStore).maxBlockId = C.maxBlockId + 3 := hmax₂
  have hstore : ∀ F, Later (mozCompilerEmit C₂ S₁ .iPStore) F →
      Begins .iPStore S₁.fail (F.rest C₂ S₁.cur) (F.rest (mozCompilerEmit C₂ S₁ .iPStore) S₁.cur) :=
    fun F => begins_emit (by lia)
  have hopened : C₂.insts S₁.cur = [] →
      Opened true ((mozCompilerEmit C₂ S₁ .iPStore).insts S₁.cur) := by
    intro hnil
    rw [insts_emit, if_pos rfl, hnil]
    exact ⟨S₁.fail, _, rfl, rfl, rfl⟩
  generalize mozCompilerEmit C₂ S₁ .iPStore = C₃ at *
  have h₄ := ih C₃ S₁ (by lia)
  generalize mozExprToIr e C₃ S₁ = r at *
  have hbody := h₄.cur
  have h₅ : Grows [r.2.cur] r.1 (mozCompilerLink r.1 r.2 r.2.cur r.2.next) := grows_link _ _ _ _
  have hstate : r.2 = { S with
      cur := r.2.cur, next := C.maxBlockId + i, fail := C.maxBlockId + j } := by
    rw [h₄.state, ← hS₁]
  have hmax₄ := h₄.grows.maxBlockId
  have hnil₂ : C₂.insts C.maxBlockId = [] :=
    (h₂.other _ (by lia) (by simp only [List.mem_singleton]; lia)).trans (hnil₁ 0 (by lia))
  have hnil : ∀ k, 0 < k → k < 3 →
      (mozCompilerLink r.1 r.2 r.2.cur r.2.next).insts (C.maxBlockId + k) = [] := by
    intro k hk hk'
    have hsame : r.1.insts (C.maxBlockId + k) = C₁.insts (C.maxBlockId + k) := by
      rw [h₄.grows.other _ (by lia) (by simp only [List.mem_singleton]; lia),
        h₃.other _ (by lia) (by simp only [List.mem_singleton]; lia),
        h₂.other _ (by lia) (by simp only [List.mem_singleton]; lia)]
    rw [h₅.other _ (by lia) (by simp only [List.mem_singleton]; lia), hsame, hnil₁ k hk']
  refine ⟨?_, ?_, hstate, hnil i hi.1 hi.2, hnil j hj.1 hj.2, fun F hlater => ?_⟩
  · have hgrows : Grows [S.cur] C C₂ := ((Grows.refl _ C).trans_none h₁).trans_same h₂
    have hgrows' : Grows [S.cur] C r.1 :=
      (hgrows.trans_new h₃ hcur₁.ge).trans_new h₄.grows hcur₁.ge
    exact hgrows'.trans_new h₅ (by lia)
  · exact hmax₃ ▸ hmax₄
  · have hlater₄ := h₅.later hlater
    have hlater₃ := h₄.grows.later hlater₄
    have hlater₂ := h₃.later hlater₃
    have hhead := hstore F hlater₃
    rw [hcur₁, rest_of_nil hnil₂] at hhead
    have hplaced := h₄.placed F true hlater₄ (hopened (hcur₁ ▸ hnil₂))
    have hstop := jumps_link h₄.cur_lt hlater
    have hfirst := hjump F hlater₂
    rw [h₁.rest_eq hcur (by simp)] at hfirst
    refine ⟨hfirst, _, _, F.rest r.1 r.2.cur, hhead, ?_, ?_⟩
    · rw [hcur₁, ← hS₁] at hplaced
      exact hplaced
    · have hnext : r.2.next = C.maxBlockId + i := by rw [hstate]
      rwa [hnext] at hstop

theorem Emits.and (ih : Emits e) : Emits (.and e) := by
  intro C S hcur
  have h : Guarded e C S (C.maxBlockId + 1) (C.maxBlockId + 2) _ :=
    ih.guarded hcur (by omega) (by omega)
  rw [mozExprToIr_and]
  dsimp only
  generalize mozPredicateToIr e C S (C.maxBlockId + 1) (C.maxBlockId + 2) = r at *
  have hmax := h.maxBlockId
  have hnext : r.2.next = C.maxBlockId + 1 := by rw [h.state]
  rw [hnext]
  generalize hS₁ : MozState.mk r.2.head (C.maxBlockId + 1) (C.maxBlockId + 1) S.fail = S₁
  have hcur₁ : S₁.cur = C.maxBlockId + 1 := hS₁ ▸ rfl
  have h₁ : Grows [S₁.cur] r.1 (mozCompilerEmit r.1 S₁ .iPLoad) := grows_emit _ _ _
  have hload : ∀ F, Later (mozCompilerEmit r.1 S₁ .iPLoad) F →
      Begins .iPLoad S₁.fail (F.rest r.1 S₁.cur) (F.rest (mozCompilerEmit r.1 S₁ .iPLoad) S₁.cur) :=
    fun F => begins_emit (by lia)
  have hmax₁ : (mozCompilerEmit r.1 S₁ .iPLoad).maxBlockId = r.1.maxBlockId := rfl
  generalize mozCompilerEmit r.1 S₁ .iPLoad = C₁ at *
  generalize hS₂ : MozState.mk r.2.head (C.maxBlockId + 2) (C.maxBlockId + 1)
    (C.maxBlockId + 2) = S₂
  have hcur₂ : S₂.cur = C.maxBlockId + 2 := hS₂ ▸ rfl
  have h₂ : Grows [S₂.cur] C₁ (mozCompilerLink C₁ S₂ (C.maxBlockId + 2) S.fail) :=
    grows_link _ _ _ _
  have hnil₁ : C₁.insts (C.maxBlockId + 2) = [] := by
    rw [h₁.other _ (by lia) (by simp only [List.mem_singleton]; lia), h.fail_nil]
  refine ⟨?_, .inr ?_, ?_, rfl, fun F hd hlater _ => ?_⟩
  · exact (h.grows.trans_new h₁ (by lia)).trans_new h₂ (by lia)
  · exact Nat.le_succ _
  · show C.maxBlockId + 1 < C₁.maxBlockId
    lia
  · obtain ⟨hl, a, body, stop, hstore, hbody, hstop⟩ := h.placed F (h₁.later (h₂.later hlater))
    have hload := hload F (h₂.later hlater)
    have hfail : Jumps (F.rest C₁ S₂.cur) S.fail := jumps_link (by lia) hlater
    rw [hcur₁, rest_of_nil h.next_nil] at hload
    rw [hcur₂, rest_of_nil hnil₁] at hfail
    have hrest : F.rest (mozCompilerLink C₁ S₂ (C.maxBlockId + 2) S.fail) (C.maxBlockId + 1) =
        F.rest C₁ (C.maxBlockId + 1) :=
      h₂.rest_eq (by lia) (by simp only [List.mem_singleton]; lia)
    rw [← hrest] at hload
    exact .and hl hstore hbody hstop hload hfail

theorem Emits.notBlocks (ih : Emits e) (C : MozCompiler) (S : MozState)
    (hcur : S.cur < C.maxBlockId) : EmittedBlocks (.not e) C S (mozNotToBlocks e C S) := by
  have h : Guarded e C S (C.maxBlockId + 2) (C.maxBlockId + 1) _ :=
    ih.guarded hcur (by omega) (by omega)
  rw [mozNotToBlocks_eq]
  dsimp only
  generalize mozPredicateToIr e C S (C.maxBlockId + 2) (C.maxBlockId + 1) = r at *
  have hmax := h.maxBlockId
  have hnext : r.2.next = C.maxBlockId + 2 := by rw [h.state]
  have hfail : r.2.fail = C.maxBlockId + 1 := by rw [h.state]
  rw [hnext, hfail]
  generalize hS₁ : MozState.mk r.2.head (C.maxBlockId + 2) (C.maxBlockId + 2)
    (C.maxBlockId + 1) = S₁
  have hcur₁ : S₁.cur = C.maxBlockId + 2 := hS₁ ▸ rfl
  have h₁ : Grows [S₁.cur] r.1 (mozCompilerLink r.1 S₁ (C.maxBlockId + 2) S.fail) :=
    grows_link _ _ _ _
  have hjump : ∀ F, Later (mozCompilerLink r.1 S₁ (C.maxBlockId + 2) S.fail) F →
      Jumps (F.rest r.1 S₁.cur) S.fail := fun F => jumps_link (by lia)
  have hmax₁ : (mozCompilerLink r.1 S₁ (C.maxBlockId + 2) S.fail).maxBlockId = r.1.maxBlockId := rfl
  generalize mozCompilerLink r.1 S₁ (C.maxBlockId + 2) S.fail = C₁ at *
  generalize hS₂ : MozState.mk r.2.head (C.maxBlockId + 1) (C.maxBlockId + 2) S.fail = S₂
  have hcur₂ : S₂.cur = C.maxBlockId + 1 := hS₂ ▸ rfl
  have h₂ : Grows [S₂.cur] C₁ (mozCompilerEmit C₁ S₂ .iPLoad) := grows_emit _ _ _
  have hnil₁ : C₁.insts (C.maxBlockId + 1) = [] := by
    rw [h₁.other _ (by lia) (by simp only [List.mem_singleton]; lia), h.fail_nil]
  refine ⟨?_, .inr ?_, ?_, rfl, fun F hd hlater _ => ?_⟩
  · exact (h.grows.trans_new h₁ (by lia)).trans_new h₂ (by lia)
  · exact Nat.le_succ _
  · show C.maxBlockId + 1 < C₁.maxBlockId
    lia
  · obtain ⟨hl, a, body, stop, hstore, hbody, hstop⟩ := h.placed F (h₁.later (h₂.later hlater))
    have hnext := hjump F (h₂.later hlater)
    have hload : Begins .iPLoad S₂.fail (F.rest C₁ S₂.cur)
        (F.rest (mozCompilerEmit C₁ S₂ .iPLoad) S₂.cur) := begins_emit (by lia) hlater
    rw [hcur₁, rest_of_nil h.next_nil] at hnext
    rw [hcur₂, rest_of_nil hnil₁] at hload
    exact .not hl hstore hbody hstop hnext hload

theorem Emits.not (he : e.notOp = none) (ih : Emits e) : Emits (.not e) := by
  intro C S hcur
  rw [mozExprToIr_not he, ← mozNotToBlocks_eq]
  exact (ih.notBlocks C S hcur).emitted fun _ => he

theorem mozOptionToBlocks_eq : mozOptionToBlocks e C S =
    let next := C.maxBlockId
    let r := mozExprToIr e (newBlock C) { S with next := next, fail := next }
    (mozCompilerLink r.1 r.2 r.2.cur r.2.fail, { S with cur := r.2.fail }) := rfl

theorem mozExprToIr_option (he : e.optionOp C = none) : mozExprToIr (.option e) C S =
    let next := C.maxBlockId
    let r := mozExprToIr e (newBlock C) { S with next := next, fail := next }
    (mozCompilerLink r.1 r.2 r.2.cur r.2.fail, { S with cur := r.2.fail }) := by
  rw [mozExprToIr.eq_def]
  dsimp only
  split
  · cases he
  · cases he
  · cases he
  · rfl

/-- An option is one instruction whatever the pools hold. -/
theorem Expr.optionOp_eq_none (C' : MozCompiler) (he : e.optionOp C = none) :
    e.optionOp C' = none := by
  cases e with
  | byte | str | set => cases he
  | empty | invoke | any | and | choice | fail | not | option | sequence | repetition | tcapture
  | tpush | tpop | tnew | ttag | todo => rfl

theorem Emits.optionBlocks (ih : Emits e) (C : MozCompiler) (S : MozState)
    (hcur : S.cur < C.maxBlockId) : EmittedBlocks (.option e) C S (mozOptionToBlocks e C S) := by
  rw [mozOptionToBlocks_eq]
  dsimp only
  generalize hS₁ : MozState.mk S.head S.cur C.maxBlockId C.maxBlockId = S₁
  have hcur₁ : S₁.cur = S.cur := hS₁ ▸ rfl
  have hmax : (newBlock C).maxBlockId = C.maxBlockId + 1 := rfl
  have h₁ : Grows [] C (newBlock C) := grows_newBlock _ _
  have hnil : (newBlock C).insts C.maxBlockId = [] := by rw [insts_newBlock, if_pos rfl]
  generalize newBlock C = C₁ at *
  have h₂ := ih C₁ S₁ (by lia)
  generalize mozExprToIr e C₁ S₁ = r at *
  have hbody := h₂.cur
  have hfail : r.2.fail = C.maxBlockId := by rw [h₂.state, ← hS₁]
  rw [hfail]
  have h₃ : Grows [r.2.cur] r.1 (mozCompilerLink r.1 r.2 r.2.cur C.maxBlockId) :=
    grows_link _ _ _ _
  have hmax₂ := h₂.grows.maxBlockId
  have hnil₃ : (mozCompilerLink r.1 r.2 r.2.cur C.maxBlockId).insts C.maxBlockId = [] := by
    rw [h₃.other _ (by lia) (by simp only [List.mem_singleton]; lia),
      h₂.grows.other _ (by lia) (by simp only [List.mem_singleton]; lia), hnil]
  refine ⟨?_, .inr le_rfl, ?_, rfl, fun F hd hlater hopened => ?_⟩
  · have hgrows : Grows [S.cur] C r.1 :=
      ((Grows.refl _ C).trans_none h₁).trans_same (hcur₁ ▸ h₂.grows)
    refine hgrows.trans h₃ fun bb hbb => ?_
    obtain rfl := List.mem_singleton.1 hbb
    rcases hbody with heq | hle
    · exact .inl (List.mem_singleton.2 (heq.trans hcur₁))
    · exact .inr (by lia)
  · show C.maxBlockId < r.1.maxBlockId
    lia
  · have hsame : C₁.insts S.cur = C.insts S.cur := h₁.other _ hcur (by simp)
    have hplaced := h₂.placed F hd (h₃.later hlater) (by rwa [hcur₁, hsame])
    have hstop := jumps_link h₂.cur_lt hlater
    rw [hcur₁, rest_congr hsame, ← hS₁] at hplaced
    rw [rest_of_nil hnil₃]
    exact .option hplaced hstop

theorem Emits.option {C₀ : MozCompiler} (he : e.optionOp C₀ = none) (ih : Emits e) :
    Emits (.option e) := by
  intro C S hcur
  rw [mozExprToIr_option (Expr.optionOp_eq_none C he), ← mozOptionToBlocks_eq]
  exact (ih.optionBlocks C S hcur).emitted fun F => Expr.optionOp_eq_none F he

end Unary

/-- Blocks that have been created for the elements of a list, and hold no code yet. -/
structure Free (C : MozCompiler) (blocks : List BlockId) : Prop where
  nodup : blocks.Nodup
  lt : ∀ bb ∈ blocks, bb < C.maxBlockId
  nil : ∀ bb ∈ blocks, C.insts bb = []

section Lists

variable {x : Expr} {list : List Expr} {C C' : MozCompiler} {S : MozState} {bb : BlockId}
  {blocks : List BlockId}

theorem mozCompilerCreateBlocks_spec (n : ℕ) (C : MozCompiler) :
    Grows [] C (mozCompilerCreateBlocks C n).1 ∧
      Free (mozCompilerCreateBlocks C n).1 (mozCompilerCreateBlocks C n).2 ∧
      (mozCompilerCreateBlocks C n).2.length = n ∧
      ∀ bb ∈ (mozCompilerCreateBlocks C n).2, C.maxBlockId ≤ bb := by
  induction n generalizing C with
  | zero => exact ⟨.refl _ C, ⟨List.nodup_nil, by simp [mozCompilerCreateBlocks],
      by simp [mozCompilerCreateBlocks]⟩, rfl, by simp [mozCompilerCreateBlocks]⟩
  | succ n ih =>
    obtain ⟨hgrows, hfree, hlength, hle⟩ := ih (newBlock C)
    have h₁ : Grows [] C (newBlock C) := grows_newBlock _ _
    have hmax : (newBlock C).maxBlockId = C.maxBlockId + 1 := rfl
    have hlt := hgrows.maxBlockId
    show Grows [] C (mozCompilerCreateBlocks (newBlock C) n).1 ∧
      Free (mozCompilerCreateBlocks (newBlock C) n).1
        (C.maxBlockId :: (mozCompilerCreateBlocks (newBlock C) n).2) ∧
      (C.maxBlockId :: (mozCompilerCreateBlocks (newBlock C) n).2).length = n + 1 ∧
      ∀ bb ∈ C.maxBlockId :: (mozCompilerCreateBlocks (newBlock C) n).2, C.maxBlockId ≤ bb
    refine ⟨h₁.trans_none hgrows, ⟨?_, ?_, ?_⟩, congrArg (· + 1) hlength, ?_⟩
    · refine List.nodup_cons.2 ⟨fun hin => ?_, hfree.nodup⟩
      have := hle _ hin
      lia
    · intro bb hbb
      rcases List.mem_cons.1 hbb with rfl | hbb
      · lia
      · exact hfree.lt bb hbb
    · intro bb hbb
      rcases List.mem_cons.1 hbb with rfl | hbb
      · rw [hgrows.other _ (by lia) (by simp), insts_newBlock, if_pos rfl]
      · exact hfree.nil bb hbb
    · intro bb hbb
      rcases List.mem_cons.1 hbb with rfl | hbb
      · exact le_rfl
      · have := hle bb hbb
        lia

theorem Free.grow {touched : List BlockId} (h : Free C blocks) (hgrows : Grows touched C C')
    (hout : ∀ bb ∈ blocks, bb ∉ touched) : Free C' blocks where
  nodup := h.nodup
  lt bb hbb := (h.lt bb hbb).trans_le hgrows.maxBlockId
  nil bb hbb := (hgrows.other bb (h.lt bb hbb) (hout bb hbb)).trans (h.nil bb hbb)

theorem Free.tail (h : Free C (bb :: blocks)) : Free C blocks where
  nodup := (List.nodup_cons.1 h.nodup).2
  lt b hb := h.lt b (List.mem_cons_of_mem _ hb)
  nil b hb := h.nil b (List.mem_cons_of_mem _ hb)

/-- What the loop of `moz_Sequence_to_ir` has done. -/
structure EmittedSequence (list : List Expr) (blocks : List BlockId) (C : MozCompiler)
    (S : MozState) (r : MozCompiler × MozState) : Prop where
  grows : Grows (S.cur :: blocks) C r.1
  cur : r.2.cur ∈ S.cur :: blocks ∨ C.maxBlockId ≤ r.2.cur
  cur_lt : r.2.cur < r.1.maxBlockId
  state : r.2 = { S with cur := r.2.cur }
  placed : ∀ F, Later r.1 F →
    PlacedSequence F list (F.rest C S.cur) S.fail (F.rest r.1 r.2.cur)

def EmitsSequence (list : List Expr) : Prop :=
  ∀ blocks C S, S.cur < C.maxBlockId → Free C blocks → blocks.length = list.length →
    S.cur ∉ blocks → EmittedSequence list blocks C S (mozSequenceToIr list blocks C S)

theorem EmitsSequence.nil : EmitsSequence [] := by
  intro blocks C S hcur _ _ _
  rw [mozSequenceToIr]
  exact ⟨.refl _ C, .inl (List.mem_cons_self ..), hcur, rfl, fun F _ => .nil⟩

theorem EmitsSequence.cons (hx : Emits x) (ih : EmitsSequence list) :
    EmitsSequence (x :: list) := by
  intro blocks C S hcur hfree hlength hout
  cases blocks with
  | nil => cases hlength
  | cons bb blocks =>
    have hne : bb ≠ S.cur := fun h => hout (h ▸ List.mem_cons_self ..)
    have hlt := hfree.lt bb (List.mem_cons_self ..)
    have hnotin := (List.nodup_cons.1 hfree.nodup).1
    rw [mozSequenceToIr]
    dsimp only [List.headD_cons, List.tail_cons, mozCompilerSetLabel]
    have h₁ : Grows [S.cur] C (mozCompilerLink C S S.cur bb) := grows_link _ _ _ _
    have hjump : ∀ F, Later (mozCompilerLink C S S.cur bb) F → Jumps (F.rest C S.cur) bb :=
      fun F => jumps_link hcur
    have hmax₁ : (mozCompilerLink C S S.cur bb).maxBlockId = C.maxBlockId := rfl
    generalize mozCompilerLink C S S.cur bb = C₁ at *
    have hnil₁ : C₁.insts bb = [] :=
      (h₁.other bb hlt (by simpa using hne)).trans (hfree.nil bb (List.mem_cons_self ..))
    generalize hS₁ : MozState.mk S.head bb S.next S.fail = S₁
    have hcur₁ : S₁.cur = bb := hS₁ ▸ rfl
    have h₂ := hx C₁ S₁ (by lia)
    generalize mozExprToIr x C₁ S₁ = r at *
    have hcur₂ := h₂.cur
    have hout₂ : r.2.cur ∉ blocks := by
      intro hin
      have hin' := hfree.lt _ (List.mem_cons_of_mem bb hin)
      have : r.2.cur = bb := by lia
      exact hnotin (this ▸ hin)
    have hfree₂ : Free r.1 blocks :=
      (hfree.tail.grow h₁ fun b hb => by
        rw [List.mem_singleton]
        exact fun h => hout (h ▸ List.mem_cons_of_mem _ hb)).grow h₂.grows fun b hb => by
          rw [List.mem_singleton, hcur₁]
          exact fun h => hnotin (h ▸ hb)
    have h₃ := ih blocks r.1 r.2 h₂.cur_lt hfree₂ (by simpa using hlength) hout₂
    generalize mozSequenceToIr list blocks r.1 r.2 = r' at *
    have htouched : ∀ b ∈ r.2.cur :: blocks, b ∈ S.cur :: bb :: blocks ∨ C.maxBlockId ≤ b := by
      intro b hb
      rcases List.mem_cons.1 hb with rfl | hb
      · rcases hcur₂ with heq | hle
        · exact .inl (by simp [heq, hcur₁])
        · exact .inr (by lia)
      · exact .inl (by simp [hb])
    have hmax₂ := h₂.grows.maxBlockId
    refine ⟨?_, ?_, h₃.cur_lt, ?_, fun F hlater => ?_⟩
    · have hgrows₁ : Grows (S.cur :: bb :: blocks) C C₁ :=
        (Grows.refl _ C).trans h₁ fun b hb => .inl (by simp [List.mem_singleton.1 hb])
      have hgrows₂ : Grows (S.cur :: bb :: blocks) C r.1 :=
        hgrows₁.trans h₂.grows fun b hb => .inl (by simp [List.mem_singleton.1 hb, hcur₁])
      exact hgrows₂.trans h₃.grows htouched
    · rcases h₃.cur with hin | hle
      · exact htouched _ hin
      · exact .inr (by lia)
    · rw [h₃.state, h₂.state, ← hS₁]
    · have hlater₂ := h₃.grows.later hlater
      have hplaced := h₂.placed F false hlater₂ (by rw [hcur₁]; exact hnil₁)
      have hfail : r.2.fail = S.fail := by rw [h₂.state, ← hS₁]
      rw [hcur₁, rest_of_nil hnil₁, ← hS₁] at hplaced
      have hrest := h₃.placed F hlater
      rw [hfail] at hrest
      exact .cons (hjump F (h₂.grows.later hlater₂)) hplaced hrest

theorem mozExprToIr_sequence : mozExprToIr (.sequence list) C S =
    let next := C.maxBlockId
    let bs := mozCompilerCreateBlocks (newBlock C) list.length
    let r := mozSequenceToIr list bs.2 bs.1 { S with next := next }
    (mozCompilerLink r.1 r.2 r.2.cur r.2.next, { S with cur := r.2.next }) := rfl

theorem Emits.sequence (ih : EmitsSequence list) : Emits (.sequence list) := by
  intro C S hcur
  rw [mozExprToIr_sequence]
  dsimp only
  have h₁ : Grows [] C (newBlock C) := grows_newBlock _ _
  have hmax₁ : (newBlock C).maxBlockId = C.maxBlockId + 1 := rfl
  have hnil₁ : (newBlock C).insts C.maxBlockId = [] := by rw [insts_newBlock, if_pos rfl]
  generalize newBlock C = C₁ at *
  obtain ⟨h₂, hfree, hlength, hle⟩ := mozCompilerCreateBlocks_spec list.length C₁
  generalize mozCompilerCreateBlocks C₁ list.length = bs at *
  generalize hS₁ : MozState.mk S.head S.cur C.maxBlockId S.fail = S₁
  have hcur₁ : S₁.cur = S.cur := hS₁ ▸ rfl
  have hmax₂ := h₂.maxBlockId
  have h₃ := ih bs.2 bs.1 S₁ (by lia) hfree hlength fun hin => by
    have := hle _ hin
    lia
  generalize mozSequenceToIr list bs.2 bs.1 S₁ = r at *
  have hmax₃ := h₃.grows.maxBlockId
  have hnext : r.2.next = C.maxBlockId := by rw [h₃.state, ← hS₁]
  rw [hnext]
  have h₄ : Grows [r.2.cur] r.1 (mozCompilerLink r.1 r.2 r.2.cur C.maxBlockId) :=
    grows_link _ _ _ _
  have htouched : ∀ b, b ∈ S₁.cur :: bs.2 ∨ bs.1.maxBlockId ≤ b →
      b ∈ [S.cur] ∨ C.maxBlockId < b := by
    intro b hb
    rcases hb with hin | hle'
    · rcases List.mem_cons.1 hin with rfl | hin
      · exact .inl (by simp [hcur₁])
      · have := hle b hin
        exact .inr (by lia)
    · exact .inr (by lia)
  have hnot : ∀ b, b ∈ S₁.cur :: bs.2 ∨ bs.1.maxBlockId ≤ b → C.maxBlockId ≠ b := by
    intro b hb
    rcases htouched b hb with hin | hlt
    · rw [List.mem_singleton.1 hin]
      lia
    · lia
  have hnil₄ : (mozCompilerLink r.1 r.2 r.2.cur C.maxBlockId).insts C.maxBlockId = [] := by
    rw [h₄.other _ (by lia) (by simpa using hnot _ h₃.cur),
      h₃.grows.other _ (by lia) fun hin => hnot _ (.inl hin) rfl, h₂.other _ (by lia) (by simp),
      hnil₁]
  refine ⟨?_, .inr le_rfl, ?_, rfl, fun F hd hlater hopened => ?_⟩
  · have hgrows : Grows [S.cur] C r.1 := (((Grows.refl _ C).trans_none h₁).trans_none h₂).trans
      h₃.grows fun b hb => (htouched b (.inl hb)).imp id le_of_lt
    refine hgrows.trans h₄ fun b hb => ?_
    rw [List.mem_singleton.1 hb]
    exact (htouched _ h₃.cur).imp id le_of_lt
  · show C.maxBlockId < r.1.maxBlockId
    lia
  · have hplaced := h₃.placed F (h₄.later hlater)
    have hstop := jumps_link h₃.cur_lt hlater
    rw [hcur₁, h₂.rest_eq (by lia) (by simp), h₁.rest_eq hcur (by simp), ← hS₁] at hplaced
    rw [rest_of_nil hnil₄]
    exact .sequence hplaced hstop

/-- What the loop of `moz_Choice_to_ir` has done. -/
structure EmittedChoice (list : List Expr) (blocks : List BlockId) (next fail : BlockId)
    (C : MozCompiler) (r : MozCompiler × MozState) : Prop where
  grows : Grows blocks C r.1
  next_eq : r.2.next = next
  placed : ∀ F, Later r.1 F → PlacedChoice F list ((blocks ++ [fail]).headD 0) fail next

def EmitsChoice (list : List Expr) : Prop :=
  ∀ next fail blocks C S, Free C blocks → blocks.length = list.length →
    EmittedChoice list blocks next fail C (mozChoiceToIr next list (blocks ++ [fail]) C S)

theorem Emits.alternative (hx : Emits x) (S : MozState) (next fail : BlockId)
    (hfree : Free C (bb :: blocks)) :
    let S₁ : MozState := { S with cur := bb, next := next, fail := fail }
    let r := mozExprToIr x C S₁
    let C' := mozCompilerLink r.1 r.2 r.2.cur next
    r.2.next = next ∧ Grows [bb] C C' ∧ Free C' blocks ∧ ∀ F, Later C' F → ∃ stop,
      Placed F false x (F.insts bb) fail stop ∧ Jumps stop next := by
  dsimp only
  have hlt := hfree.lt bb (List.mem_cons_self ..)
  have hnotin := (List.nodup_cons.1 hfree.nodup).1
  have hnil := hfree.nil bb (List.mem_cons_self ..)
  generalize hS₁ : MozState.mk S.head bb next fail = S₁
  have hcur₁ : S₁.cur = bb := hS₁ ▸ rfl
  have h₁ := hx C S₁ (by lia)
  generalize mozExprToIr x C S₁ = r at *
  have h₂ : Grows [r.2.cur] r.1 (mozCompilerLink r.1 r.2 r.2.cur next) := grows_link _ _ _ _
  have hgrows : Grows [bb] C (mozCompilerLink r.1 r.2 r.2.cur next) := by
    have hgrows₁ : Grows [bb] C r.1 := hcur₁ ▸ h₁.grows
    refine hgrows₁.trans h₂ fun b hb => ?_
    rw [List.mem_singleton.1 hb]
    exact h₁.cur.imp (fun heq => by simp [heq, hcur₁]) id
  refine ⟨by rw [h₁.state, ← hS₁], hgrows, hfree.tail.grow hgrows fun b hb => ?_, fun F hlater => ?_⟩
  · rw [List.mem_singleton]
    exact fun h => hnotin (h ▸ hb)
  · have hplaced := h₁.placed F false (h₂.later hlater) (by rw [hcur₁]; exact hnil)
    have hstop := jumps_link h₁.cur_lt hlater
    rw [hcur₁, rest_of_nil hnil, ← hS₁] at hplaced
    exact ⟨_, hplaced, hstop⟩

theorem EmitsChoice.last (hx : Emits x) : EmitsChoice [x] := by
  intro next fail blocks C S hfree hlength
  obtain ⟨bb, rfl⟩ := List.length_eq_one_iff.1 hlength
  rw [mozChoiceToIr]
  dsimp only [List.headD_cons, List.tail_cons, List.cons_append, List.nil_append,
    mozCompilerSetLabel]
  rw [mozChoiceToIr]
  obtain ⟨hnext, hgrows, -, hplaced⟩ := hx.alternative S next fail hfree
  rw [hnext]
  refine ⟨hgrows, hnext, fun F hlater => ?_⟩
  obtain ⟨stop, hx, hstop⟩ := hplaced F hlater
  exact .last hx hstop

theorem EmitsChoice.cons {y : Expr} (hx : Emits x) (ih : EmitsChoice (y :: list)) :
    EmitsChoice (x :: y :: list) := by
  intro next fail blocks C S hfree hlength
  obtain ⟨bb, bb', blocks, rfl⟩ : ∃ bb bb' bs, blocks = bb :: bb' :: bs := by
    match blocks, hlength with
    | bb :: bb' :: bs, _ => exact ⟨bb, bb', bs, rfl⟩
  rw [mozChoiceToIr]
  dsimp only [List.headD_cons, List.tail_cons, List.cons_append, mozCompilerSetLabel]
  obtain ⟨hnext, hgrows, hfree', hplaced⟩ := hx.alternative S next bb' hfree
  rw [hnext]
  generalize mozExprToIr x C { S with cur := bb, next := next, fail := bb' } = r at *
  generalize mozCompilerLink r.1 r.2 r.2.cur next = C₁ at *
  have h := ih next fail (bb' :: blocks) C₁ r.2 hfree' (by simpa using hlength)
  refine ⟨?_, h.next_eq, fun F hlater => ?_⟩
  · have hgrows₁ : Grows (bb :: bb' :: blocks) C C₁ :=
      (Grows.refl _ C).trans hgrows fun b hb => .inl (by simp [List.mem_singleton.1 hb])
    exact hgrows₁.trans h.grows fun b hb => .inl (List.mem_cons_of_mem _ hb)
  · obtain ⟨stop, hx, hstop⟩ := hplaced F (h.grows.later hlater)
    exact .cons hx hstop (h.placed F hlater)

theorem mozExprToIr_choice : mozExprToIr (.choice list) C S =
    let bs := mozCompilerCreateBlocks C list.length
    let next := bs.1.maxBlockId
    let C' := mozCompilerLink (newBlock bs.1) S S.cur ((bs.2 ++ [S.fail]).headD 0)
    let r := mozChoiceToIr next list (bs.2 ++ [S.fail]) C' S
    (r.1, { S with cur := r.2.next }) := rfl

theorem Emits.choice (ih : EmitsChoice list) : Emits (.choice list) := by
  intro C S hcur
  rw [mozExprToIr_choice]
  dsimp only
  obtain ⟨h₁, hfree, hlength, hle⟩ := mozCompilerCreateBlocks_spec list.length C
  generalize mozCompilerCreateBlocks C list.length = bs at *
  have hmax₁ := h₁.maxBlockId
  have h₂ : Grows [] bs.1 (newBlock bs.1) := grows_newBlock _ _
  have hmax₂ : (newBlock bs.1).maxBlockId = bs.1.maxBlockId + 1 := rfl
  have hnil₂ : (newBlock bs.1).insts bs.1.maxBlockId = [] := by rw [insts_newBlock, if_pos rfl]
  have hfree₂ : Free (newBlock bs.1) bs.2 := hfree.grow h₂ (by simp)
  generalize newBlock bs.1 = C₂ at *
  have h₃ : Grows [S.cur] C₂ (mozCompilerLink C₂ S S.cur ((bs.2 ++ [S.fail]).headD 0)) :=
    grows_link _ _ _ _
  have hmax₃ : (mozCompilerLink C₂ S S.cur ((bs.2 ++ [S.fail]).headD 0)).maxBlockId =
      C₂.maxBlockId := rfl
  have hjump : ∀ F, Later (mozCompilerLink C₂ S S.cur ((bs.2 ++ [S.fail]).headD 0)) F →
      Jumps (F.rest C₂ S.cur) ((bs.2 ++ [S.fail]).headD 0) := fun F => jumps_link (by lia)
  generalize mozCompilerLink C₂ S S.cur ((bs.2 ++ [S.fail]).headD 0) = C₃ at *
  have hfree₃ : Free C₃ bs.2 := hfree₂.grow h₃ fun b hb => by
    have := hle b hb
    rw [List.mem_singleton]
    lia
  have h₄ := ih bs.1.maxBlockId S.fail bs.2 C₃ S hfree₃ hlength
  generalize mozChoiceToIr bs.1.maxBlockId list (bs.2 ++ [S.fail]) C₃ S = r at *
  rw [h₄.next_eq]
  have hmax₄ := h₄.grows.maxBlockId
  have hnil₄ : r.1.insts bs.1.maxBlockId = [] := by
    rw [h₄.grows.other _ (by lia) fun hin => by have := hfree.lt _ hin; lia,
      h₃.other _ (by lia) (by simp only [List.mem_singleton]; lia), hnil₂]
  refine ⟨?_, .inr hmax₁, ?_, rfl, fun F hd hlater _ => ?_⟩
  · have hgrows : Grows [S.cur] C C₃ :=
      (((Grows.refl _ C).trans_none h₁).trans_none h₂).trans_same h₃
    exact hgrows.trans h₄.grows fun b hb => .inr (hle b hb)
  · show bs.1.maxBlockId < r.1.maxBlockId
    lia
  · have hfirst := hjump F (h₄.grows.later hlater)
    rw [h₂.rest_eq (by lia) (by simp), h₁.rest_eq hcur (by simp)] at hfirst
    rw [rest_of_nil hnil₄]
    exact .choice hfirst (h₄.placed F hlater)

/-- What the loop of `moz_Repetition_to_ir` has done, when it goes back to the block `cur`. -/
structure EmittedRounds (list : List Expr) (blocks : List BlockId) (cur fail : BlockId)
    (C : MozCompiler) (r : MozCompiler × MozState) : Prop where
  grows : Grows blocks C r.1
  placed : ∀ F, Later r.1 F → ∀ l, Jumps l ((blocks ++ [cur]).headD 0) → ∃ stop,
    PlacedSequence F list l fail stop ∧ Jumps stop cur

def EmitsRounds (list : List Expr) : Prop :=
  ∀ fail cur blocks C S, Free C blocks → blocks.length = list.length →
    EmittedRounds list blocks cur fail C (mozRepetitionToIr fail list (blocks ++ [cur]) C S)

theorem EmitsRounds.nil : EmitsRounds [] := by
  intro fail cur blocks C S hfree hlength
  obtain rfl := List.length_eq_zero_iff.1 hlength
  rw [mozRepetitionToIr]
  exact ⟨.refl _ C, fun F _ l hl => ⟨l, .nil, hl⟩⟩

theorem EmitsRounds.cons (hx : Emits x) (ih : EmitsRounds list) : EmitsRounds (x :: list) := by
  intro fail cur blocks C S hfree hlength
  cases blocks with
  | nil => cases hlength
  | cons bb blocks =>
    rw [mozRepetitionToIr]
    dsimp only [List.headD_cons, List.tail_cons, List.cons_append, mozCompilerSetLabel]
    obtain ⟨-, hgrows, hfree', hplaced⟩ :=
      hx.alternative S ((blocks ++ [cur]).headD 0) fail hfree
    generalize mozExprToIr x C _ = r at *
    generalize mozCompilerLink r.1 r.2 r.2.cur _ = C₁ at *
    have h := ih fail cur blocks C₁ r.2 hfree' (by simpa using hlength)
    refine ⟨?_, fun F hlater l hl => ?_⟩
    · have hgrows₁ : Grows (bb :: blocks) C C₁ :=
        (Grows.refl _ C).trans hgrows fun b hb => .inl (by simp [List.mem_singleton.1 hb])
      exact hgrows₁.trans h.grows fun b hb => .inl (List.mem_cons_of_mem _ hb)
    · obtain ⟨stop, hx, hstop⟩ := hplaced F (h.grows.later hlater)
      obtain ⟨stop', hlist, hstop'⟩ := h.placed F hlater stop hstop
      exact ⟨stop', .cons hl hx hlist, hstop'⟩

theorem mozRepetitionToBlocks_eq : mozRepetitionToBlocks list C S =
    let bs := mozCompilerCreateBlocks C list.length
    let fail := bs.1.maxBlockId
    let C₁ := newBlock (bs.1.blockSetType S.cur .blockLoopHead)
    let C₂ := mozCompilerLink C₁ { S with fail := fail } S.cur ((bs.2 ++ [S.cur]).headD 0)
    let r := mozRepetitionToIr fail list (bs.2 ++ [S.cur]) C₂ { S with fail := fail }
    (r.1, { S with cur := fail }) := rfl

theorem mozExprToIr_repetition (he : Expr.repetitionOp C list = none) :
    mozExprToIr (.repetition list) C S =
      let bs := mozCompilerCreateBlocks C list.length
      let fail := bs.1.maxBlockId
      let C₁ := newBlock (bs.1.blockSetType S.cur .blockLoopHead)
      let C₂ := mozCompilerLink C₁ { S with fail := fail } S.cur ((bs.2 ++ [S.cur]).headD 0)
      let r := mozRepetitionToIr fail list (bs.2 ++ [S.cur]) C₂ { S with fail := fail }
      (r.1, { S with cur := fail }) := by
  rw [mozExprToIr.eq_def]
  dsimp only
  split
  · cases he
  · cases he
  · cases he
  · cases he
  · rfl

theorem Expr.repetitionOp_eq_none (C' : MozCompiler) (he : Expr.repetitionOp C list = none) :
    Expr.repetitionOp C' list = none := by
  match list, he with
  | [], _ | _ :: _ :: _, _ => rfl
  | [x], he =>
    cases x with
    | any | byte | str | set => cases he
    | empty | invoke | and | choice | fail | not | option | sequence | repetition | tcapture
    | tpush | tpop | tnew | ttag | todo => rfl

theorem grows_blockSetType (C : MozCompiler) (bb : BlockId) (type : BlockType) :
    Grows [] C (C.blockSetType bb type) :=
  { Grows.refl [] C with
    insts := fun b _ => by rw [insts_blockSetType]
    other := fun b _ _ => insts_blockSetType C bb type b }

theorem EmitsRounds.repetitionBlocks (ih : EmitsRounds list) (C : MozCompiler) (S : MozState)
    (hcur : S.cur < C.maxBlockId) :
    EmittedBlocks (.repetition list) C S (mozRepetitionToBlocks list C S) := by
  rw [mozRepetitionToBlocks_eq]
  dsimp only
  obtain ⟨h₁, hfree, hlength, hle⟩ := mozCompilerCreateBlocks_spec list.length C
  generalize mozCompilerCreateBlocks C list.length = bs at *
  have hmax₁ := h₁.maxBlockId
  have h₂ : Grows [] bs.1 (newBlock (bs.1.blockSetType S.cur .blockLoopHead)) :=
    (grows_blockSetType _ _ _).trans_same (grows_newBlock _ _)
  have hmax₂ : (newBlock (bs.1.blockSetType S.cur .blockLoopHead)).maxBlockId =
      bs.1.maxBlockId + 1 := rfl
  have hnil₂ : (newBlock (bs.1.blockSetType S.cur .blockLoopHead)).insts bs.1.maxBlockId = [] := by
    rw [insts_newBlock]
    exact if_pos rfl
  generalize newBlock (bs.1.blockSetType S.cur .blockLoopHead) = C₂ at *
  generalize hS₁ : MozState.mk S.head S.cur S.next bs.1.maxBlockId = S₁
  have hcur₁ : S₁.cur = S.cur := hS₁ ▸ rfl
  generalize hfirst : (bs.2 ++ [S.cur]).headD 0 = first
  have h₃ : Grows [S₁.cur] C₂ (mozCompilerLink C₂ S₁ S.cur first) := grows_link _ _ _ _
  have hmax₃ : (mozCompilerLink C₂ S₁ S.cur first).maxBlockId = C₂.maxBlockId := rfl
  have hjump : ∀ F, Later (mozCompilerLink C₂ S₁ S.cur first) F →
      Jumps (F.rest C₂ S₁.cur) first := fun F => jumps_link (by lia)
  generalize mozCompilerLink C₂ S₁ S.cur first = C₃ at *
  have hfree₃ : Free C₃ bs.2 := (hfree.grow h₂ (by simp)).grow h₃ fun b hb => by
    have := hle b hb
    rw [List.mem_singleton]
    lia
  have h₄ := ih bs.1.maxBlockId S.cur bs.2 C₃ S₁ hfree₃ hlength
  generalize mozRepetitionToIr bs.1.maxBlockId list (bs.2 ++ [S.cur]) C₃ S₁ = r at *
  have hmax₄ := h₄.grows.maxBlockId
  have hnil₄ : r.1.insts bs.1.maxBlockId = [] := by
    rw [h₄.grows.other _ (by lia) fun hin => by have := hfree.lt _ hin; lia,
      h₃.other _ (by lia) (by simp only [List.mem_singleton]; lia), hnil₂]
  refine ⟨?_, .inr hmax₁, ?_, rfl, fun F hd hlater hopened => ?_⟩
  · have hgrows : Grows [S.cur] C C₃ :=
      (((Grows.refl _ C).trans_none h₁).trans_none h₂).trans_same (hcur₁ ▸ h₃)
    exact hgrows.trans h₄.grows fun b hb => .inr (hle b hb)
  · show bs.1.maxBlockId < r.1.maxBlockId
    lia
  · have hlater₃ := h₄.grows.later hlater
    have hfirst' := hjump F hlater₃
    rw [hcur₁, h₂.rest_eq (by lia) (by simp), h₁.rest_eq hcur (by simp)] at hfirst'
    obtain ⟨stop, hlist, hstop⟩ := h₄.placed F hlater _ (hfirst ▸ hfirst')
    have hlater₀ : Later C F := h₁.later (h₂.later (h₃.later hlater₃))
    rw [rest_of_nil hnil₄]
    exact .repetition hlist hstop (hlater₀.insts_eq hcur) hopened

theorem Emits.repetition {C₀ : MozCompiler} (he : Expr.repetitionOp C₀ list = none)
    (ih : EmitsRounds list) : Emits (.repetition list) := by
  intro C S hcur
  rw [mozExprToIr_repetition (Expr.repetitionOp_eq_none C he), ← mozRepetitionToBlocks_eq]
  exact (ih.repetitionBlocks C S hcur).emitted fun F => Expr.repetitionOp_eq_none F he

end Lists

section All

variable {e : Expr} {C : MozCompiler} {S : MozState}

theorem Emits.empty : Emits .empty := fun C _ hcur =>
  ⟨.refl _ C, .inl rfl, hcur, rfl, fun _ _ _ _ => .empty⟩

theorem Emits.invoke (d : ℕ) : Emits (.invoke d) := fun C _ hcur =>
  .ofEmit hcur (.refl [] C) rfl fun _ _ _ _ _ hbegins => .invoke hbegins

theorem Emits.fail : Emits .fail := fun C _ hcur =>
  .ofEmit hcur (.refl [] C) rfl fun _ _ _ _ _ hbegins => .fail ⟨_, _, hbegins⟩

/-- A construct that is one instruction without a constant. -/
theorem Emits.simple {op : Op} (hop : ∀ F, e.op F = some op)
    (he : ∀ C S, mozExprToIr e C S = (mozCompilerEmit C S op, S)) : Emits e := by
  intro C S hcur
  rw [he]
  exact .ofEmit hcur (.refl [] C) rfl fun F _ _ _ _ hbegins => .one (hop F) hbegins

/-- A construct that is one instruction with a literal. -/
theorem Emits.withString {list : List UInt8} {op : UInt16 → Op}
    (hop : ∀ F, e.op F = some (op (F.strId list)))
    (he : ∀ C S, mozExprToIr e C S =
      (mozCompilerEmit (mozCompilerAddString C list).1 S (op (mozCompilerAddString C list).2), S)) :
    Emits e := by
  intro C S hcur
  rw [he]
  refine .ofEmit hcur (grows_addString list) rfl fun F _ _ _ hlater hbegins => .one (hop F) ?_
  rwa [strId_later hlater.strs]

theorem Emits.withTag {name : List UInt8} {op : UInt16 → Op}
    (hop : ∀ F, e.op F = some (op (F.tagId name)))
    (he : ∀ C S, mozExprToIr e C S =
      (mozCompilerEmit (mozCompilerAddTag C name).1 S (op (mozCompilerAddTag C name).2), S)) :
    Emits e := by
  intro C S hcur
  rw [he]
  refine .ofEmit hcur (grows_addTag name) rfl fun F _ _ _ hlater hbegins => .one (hop F) ?_
  rwa [tagId_later hlater.tags]

theorem Emits.withSet {set : Bitset} {op : UInt16 → Op}
    (hop : ∀ F, e.op F = some (op (F.setId set)))
    (he : ∀ C S, mozExprToIr e C S =
      (mozCompilerEmit (mozCompilerAddSet C set).1 S (op (mozCompilerAddSet C set).2), S)) :
    Emits e := by
  intro C S hcur
  rw [he]
  have hmax : (mozCompilerAddSet C set).1.maxBlockId = C.maxBlockId := by
    unfold mozCompilerAddSet
    split <;> rfl
  refine .ofEmit hcur (grows_addSet set) hmax fun F _ _ _ hlater hbegins => .one (hop F) ?_
  rwa [setId_later hlater.sets]

end All

mutual

theorem emits : ∀ e : Expr, e.implemented → Emits e
  | .empty, _ => .empty
  | .invoke d, _ => .invoke d
  | .any, _ => .simple (fun _ => rfl) fun _ _ => rfl
  | .byte _, _ => .simple (fun _ => rfl) fun _ _ => rfl
  | .str _, _ => .withString (fun _ => rfl) fun _ _ => rfl
  | .set _, _ => .withSet (fun _ => rfl) fun _ _ => rfl
  | .and e, h => (emits e h).and
  | .choice list, h => by
    simp only [Expr.implemented, Bool.and_eq_true] at h
    exact .choice (emitsChoice list (by simpa using h.1) h.2)
  | .fail, _ => .fail
  | .not e, h => by
    cases he : e.notOp with
    | none => exact (emits e h).not he
    | some op =>
      cases e with
      | any => exact .simple (fun _ => rfl) fun _ _ => rfl
      | empty | invoke | byte | str | set | and | choice | fail | not | option | sequence
      | repetition | tcapture | tpush | tpop | tnew | ttag | todo => cases he
  | .option e, h => by
    cases he : e.optionOp { decls := [] } with
    | none => exact (emits e h).option he
    | some op =>
      cases e with
      | byte => exact .simple (fun _ => rfl) fun _ _ => rfl
      | str => exact .withString (fun _ => rfl) fun _ _ => rfl
      | set => exact .withSet (fun _ => rfl) fun _ _ => rfl
      | empty | invoke | any | and | choice | fail | not | option | sequence
      | repetition | tcapture | tpush | tpop | tnew | ttag | todo => cases he
  | .sequence list, h => .sequence (emitsSequence list h)
  | .repetition list, h => by
    cases he : Expr.repetitionOp { decls := [] } list with
    | none => exact .repetition he (emitsRounds list h)
    | some op =>
      match list, he with
      | [x], he =>
        cases x with
        | any => exact .simple (fun _ => rfl) fun _ _ => rfl
        | byte => exact .simple (fun _ => rfl) fun _ _ => rfl
        | str => exact .withString (fun _ => rfl) fun _ _ => rfl
        | set => exact .withSet (fun _ => rfl) fun _ _ => rfl
        | empty | invoke | and | choice | fail | not | option | sequence | repetition | tcapture
        | tpush | tpop | tnew | ttag | todo => cases he
  | .tcapture, _ => .simple (fun _ => rfl) fun _ _ => rfl
  | .tpush, _ => .simple (fun _ => rfl) fun _ _ => rfl
  | .tpop _, _ => .withTag (fun _ => rfl) fun _ _ => rfl
  | .tnew, _ => .simple (fun _ => rfl) fun _ _ => rfl
  | .ttag _, _ => .withTag (fun _ => rfl) fun _ _ => rfl

theorem emitsSequence : ∀ list : List Expr, implementedAll list → EmitsSequence list
  | [], _ => .nil
  | x :: list, h => by
    simp only [implementedAll, Bool.and_eq_true] at h
    exact .cons (emits x h.1) (emitsSequence list h.2)

theorem emitsChoice : ∀ list : List Expr, list ≠ [] → implementedAll list → EmitsChoice list
  | [x], _, h => by
    simp only [implementedAll, Bool.and_eq_true] at h
    exact .last (emits x h.1)
  | x :: y :: list, _, h => by
    rw [implementedAll, Bool.and_eq_true] at h
    exact .cons (emits x h.1) (emitsChoice (y :: list) (by simp) h.2)

theorem emitsRounds : ∀ list : List Expr, implementedAll list → EmitsRounds list
  | [], _ => .nil
  | x :: list, h => by
    simp only [implementedAll, Bool.and_eq_true] at h
    exact .cons (emits x h.1) (emitsRounds list h.2)

end

section Productions

variable {C C' F : MozCompiler} {body : Expr}

theorem mozBodyToIr_eq : mozBodyToIr C body =
    let C₁ := (mozStateInit C).1
    let S₁ : MozState := ⟨C.maxBlockId, C.maxBlockId, C.maxBlockId + 1, C.maxBlockId + 2⟩
    let r := mozExprToIr body C₁ S₁
    let C₂ := mozCompilerLink r.1 r.2 r.2.cur r.2.next
    let C₃ := mozCompilerEmit C₂ { r.2 with cur := r.2.next } .iRet
    (mozCompilerEmit C₃ { r.2 with cur := r.2.fail } .iFail, { r.2 with cur := r.2.fail }) := rfl

theorem mozStateInit_spec : Grows [] C (mozStateInit C).1 ∧
    (mozStateInit C).1.maxBlockId = C.maxBlockId + 3 ∧
    ∀ i < 3, (mozStateInit C).1.insts (C.maxBlockId + i) = [] := by
  have hnew : ∀ b, (mozStateInit C).1.insts b =
      (newBlock (newBlock (newBlock C))).insts b := fun b => by
    simp only [insts_newBlock, maxBlockId_newBlock]
    refine (insts_setBlock _ _ _ b).trans (if_congr Iff.rfl rfl ?_)
    exact (insts_setBlock _ _ _ b).trans (if_congr Iff.rfl rfl (insts_setBlock _ _ _ b))
  obtain ⟨hgrows, hnil⟩ := @newBlocks_spec C
  refine ⟨?_, rfl, fun i hi => (hnew _).trans (hnil i hi)⟩
  exact {
    maxBlockId := hgrows.maxBlockId
    insts := fun b hb => by
      rw [hnew]
      exact hgrows.insts b hb
    other := fun b hb hout => (hnew b).trans (hgrows.other b hb hout)
    strs := List.prefix_rfl
    sets := List.prefix_rfl
    tags := List.prefix_rfl
    decls := rfl }

/-- `moz_decl_to_ir` places the code of the production. -/
theorem mozBodyToIr_spec (hbody : body.implemented) : Grows [] C (mozBodyToIr C body).1 ∧
    (mozBodyToIr C body).2.head = C.maxBlockId ∧
    ∀ F, Later (mozBodyToIr C body).1 F → PlacedDecl F body C.maxBlockId := by
  rw [mozBodyToIr_eq]
  dsimp only
  obtain ⟨h₁, hmax₁, hnil₁⟩ := @mozStateInit_spec C
  generalize (mozStateInit C).1 = C₁ at *
  generalize hS₁ : MozState.mk C.maxBlockId C.maxBlockId (C.maxBlockId + 1) (C.maxBlockId + 2) = S₁
  have hcur₁ : S₁.cur = C.maxBlockId := hS₁ ▸ rfl
  have hopened : C₁.insts S₁.cur = [] := by
    rw [hcur₁]
    exact hnil₁ 0 (by lia)
  have h₂ := emits body hbody C₁ S₁ (by lia)
  generalize mozExprToIr body C₁ S₁ = r at *
  have hcur₂ := h₂.cur
  have hmax₂ := h₂.grows.maxBlockId
  have hnext : r.2.next = C.maxBlockId + 1 := by rw [h₂.state, ← hS₁]
  have hfail : r.2.fail = C.maxBlockId + 2 := by rw [h₂.state, ← hS₁]
  have hhead : r.2.head = C.maxBlockId := by rw [h₂.state, ← hS₁]
  have h₃ : Grows [r.2.cur] r.1 (mozCompilerLink r.1 r.2 r.2.cur r.2.next) := grows_link _ _ _ _
  have hmax₃ : (mozCompilerLink r.1 r.2 r.2.cur r.2.next).maxBlockId = r.1.maxBlockId := rfl
  have hjump : ∀ F, Later (mozCompilerLink r.1 r.2 r.2.cur r.2.next) F →
      Jumps (F.rest r.1 r.2.cur) r.2.next := fun F => jumps_link h₂.cur_lt
  generalize mozCompilerLink r.1 r.2 r.2.cur r.2.next = C₃ at *
  have hnil₃ : ∀ i, 0 < i → i < 3 → C₃.insts (C.maxBlockId + i) = [] := by
    intro i hi hi'
    rw [h₃.other _ (by lia) (by simp only [List.mem_singleton]; lia),
      h₂.grows.other _ (by lia) (by simp only [List.mem_singleton]; lia), hnil₁ i hi']
  generalize hS₂ : MozState.mk r.2.head r.2.next r.2.next r.2.fail = S₂
  have hS₂cur : S₂.cur = C.maxBlockId + 1 := by rw [← hS₂, ← hnext]
  have h₄ : Grows [S₂.cur] C₃ (mozCompilerEmit C₃ S₂ .iRet) := grows_emit _ _ _
  have hmax₄ : (mozCompilerEmit C₃ S₂ .iRet).maxBlockId = C₃.maxBlockId := rfl
  have hret : ∀ F, Later (mozCompilerEmit C₃ S₂ .iRet) F →
      Begins .iRet S₂.fail (F.rest C₃ S₂.cur) (F.rest (mozCompilerEmit C₃ S₂ .iRet) S₂.cur) :=
    fun F => begins_emit (by lia)
  generalize mozCompilerEmit C₃ S₂ .iRet = C₄ at *
  generalize hS₃ : MozState.mk r.2.head r.2.fail r.2.next r.2.fail = S₃
  have hS₃cur : S₃.cur = C.maxBlockId + 2 := by rw [← hS₃, ← hfail]
  have h₅ : Grows [S₃.cur] C₄ (mozCompilerEmit C₄ S₃ .iFail) := grows_emit _ _ _
  have hnil₄ : C₄.insts (C.maxBlockId + 2) = [] := by
    rw [h₄.other _ (by lia) (by simp only [List.mem_singleton]; lia), hnil₃ 2 (by lia) (by lia)]
  refine ⟨?_, hhead, fun F hlater => ?_⟩
  · have hgrows : Grows [] C r.1 := h₁.trans_new h₂.grows hcur₁.ge
    exact ((hgrows.trans_new h₃ (by lia)).trans_new h₄ (by lia)).trans_new h₅ (by lia)
  · have hlater₄ := h₅.later hlater
    have hlater₃ := h₄.later hlater₄
    have hplaced := h₂.placed F false (h₃.later hlater₃) hopened
    rw [rest_of_nil hopened, hcur₁, ← hS₁] at hplaced
    have hjump := hjump F hlater₃
    rw [hnext] at hjump
    have hret := hret F hlater₄
    rw [hS₂cur, rest_of_nil (hnil₃ 1 (by lia) (by lia))] at hret
    have hfail' : Begins .iFail S₃.fail (F.rest C₄ S₃.cur)
        (F.rest (mozCompilerEmit C₄ S₃ .iFail) S₃.cur) := begins_emit (by lia) hlater
    rw [hS₃cur, rest_of_nil hnil₄] at hfail'
    exact ⟨_, _, _, hplaced, hjump, ⟨_, _, hret⟩, _, _, hfail'⟩

theorem Later.refl (C : MozCompiler) : Later C C :=
  ⟨fun _ _ => List.prefix_rfl, List.prefix_rfl, List.prefix_rfl, List.prefix_rfl⟩

theorem mozDeclsToIr_spec (list : List Decl) (n : ℕ) (C : MozCompiler)
    (hlist : ∀ decl ∈ list, 0 < decl.refc → decl.body.implemented)
    (hlength : n + list.length ≤ C.decls.length) (C' : MozCompiler)
    (hC' : (list.zipIdx n).foldl (fun C (decl, d) =>
      if 0 < decl.refc then mozDeclToIr C d decl else C) C = C') :
    C.maxBlockId ≤ C'.maxBlockId ∧ (∀ F, Later C' F → Later C F) ∧
      (∀ d < n, C'.decls[d]? = C.decls[d]?) ∧
      ∀ i decl, list[i]? = some decl → 0 < decl.refc → ∃ entry,
        C'.decls[n + i]? = some { decl with inst := some entry } ∧
          ∀ F, Later C' F → PlacedDecl F decl.body entry := by
  induction list generalizing n C with
  | nil =>
    subst hC'
    exact ⟨le_rfl, fun F h => h, fun d _ => rfl, fun i decl hi => by simp at hi⟩
  | cons x list ih =>
    have hlength' : n + 1 + list.length ≤ C.decls.length := by
      rw [List.length_cons] at hlength
      omega
    have hlist' : ∀ decl ∈ list, 0 < decl.refc → decl.body.implemented := fun decl hdecl =>
      hlist decl (List.mem_cons_of_mem _ hdecl)
    rw [List.zipIdx_cons, List.foldl_cons] at hC'
    by_cases hrefc : 0 < x.refc
    · dsimp only at hC'
      rw [if_pos hrefc] at hC'
      obtain ⟨hgrows, hhead, hplaced⟩ :=
        @mozBodyToIr_spec C x.body (hlist x (List.mem_cons_self ..) hrefc)
      obtain ⟨hmax, hlater, hbelow, hrest⟩ := ih (n + 1) (mozDeclToIr C n x) hlist'
        (by simpa [mozDeclToIr, hgrows.decls] using hlength') hC'
      have hlater₁ : ∀ F, Later C' F → Later (mozBodyToIr C x.body).1 F := fun F h =>
        ⟨(hlater F h).insts, (hlater F h).strs, (hlater F h).sets, (hlater F h).tags⟩
      refine ⟨hgrows.maxBlockId.trans hmax, fun F h => hgrows.later (hlater₁ F h), ?_, ?_⟩
      · intro d hd
        rw [hbelow d (by omega)]
        simp only [mozDeclToIr, hgrows.decls]
        exact List.getElem?_set_ne (by omega)
      · intro i decl hi hdecl
        cases i with
        | zero =>
          obtain rfl : x = decl := by simpa using hi
          refine ⟨C.maxBlockId, ?_, fun F h => hplaced F (hlater₁ F h)⟩
          rw [hbelow (n + 0) (by omega)]
          simp only [mozDeclToIr, hgrows.decls, hhead]
          exact List.getElem?_set_self (by omega)
        | succ i =>
          obtain ⟨entry, hentry, hplaced⟩ := hrest i decl (by simpa using hi) hdecl
          exact ⟨entry, by rw [← hentry]; congr 1; omega, hplaced⟩
    · dsimp only at hC'
      rw [if_neg hrefc] at hC'
      obtain ⟨hmax, hlater, hbelow, hrest⟩ := ih (n + 1) C hlist' hlength' hC'
      refine ⟨hmax, hlater, fun d hd => hbelow d (by omega), fun i decl hi hdecl => ?_⟩
      cases i with
      | zero =>
        obtain rfl : x = decl := by simpa using hi
        exact absurd hdecl hrefc
      | succ i =>
        obtain ⟨entry, hentry, hplaced⟩ := hrest i decl (by simpa using hi) hdecl
        exact ⟨entry, by rw [← hentry]; congr 1; omega, hplaced⟩

/-- `moz_ast_to_ir` places the code of every production. -/
theorem mozAstToIr_placed (hC : ∀ decl ∈ C.decls, 0 < decl.refc → decl.body.implemented) {d : ℕ}
    {decl : Decl} (hd : C.decls[d]? = some decl) (hrefc : 0 < decl.refc) : ∃ entry,
      (mozAstToIr C).decls[d]? = some { decl with inst := some entry } ∧
        PlacedDecl (mozAstToIr C) decl.body entry := by
  obtain ⟨-, -, -, hplaced⟩ := mozDeclsToIr_spec C.decls 0 C hC (by omega) (mozAstToIr C) rfl
  obtain ⟨entry, hentry, hplaced⟩ := hplaced d decl hd hrefc
  rw [Nat.zero_add] at hentry
  exact ⟨entry, hentry, hplaced _ (.refl _)⟩

end Productions

end Moz.Compiler
