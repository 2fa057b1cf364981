import Moz.Compiler.Placement
import Moz.Compiler.SavedPositions

/-!
# Stacks of saved positions during the lowering

What is appended to a block agrees with the stacks of the blocks that are there, and
new blocks are given a stack before code is added to them. A predicate gives its second
and its third block the position that it saves.
-/

namespace Moz.Compiler

section Appending

variable {C C' : MozCompiler} {T T' : StackMap} {S : MozState} {op : Op} {b target : BlockId}
  {stack : List BlockId}

theorem stackAfter_append (l l' : List Ir) :
    stackAfter b stack (l ++ l') = (stackAfter b stack l).bind fun τ => stackAfter b τ l' := by
  induction l generalizing stack with
  | nil => rfl
  | cons x l ih =>
    rw [List.cons_append, stackAfter, stackAfter]
    cases x.op.course with
    | on | store | load => exact ih
    | jump | leave => rfl

/-- Code is added behind the code of a block. -/
theorem flow_append {l l' : List Ir} (h : Flow T b stack l)
    (h' : ∀ τ, stackAfter b stack l = some τ → Flow T b τ l') : Flow T b stack (l ++ l') := by
  induction l generalizing stack with
  | nil => exact h' stack rfl
  | cons x l ih =>
    rw [List.cons_append, Flow]
    rw [Flow] at h
    rw [stackAfter] at h'
    cases hcourse : x.op.course with
    | on =>
      simp only [hcourse] at h h' ⊢
      exact ⟨h.1, ih h.2 h'⟩
    | store =>
      simp only [hcourse] at h h' ⊢
      exact ⟨h.1, ih h.2 h'⟩
    | load =>
      simp only [hcourse] at h h' ⊢
      obtain ⟨head, rest, rfl, hhead, h⟩ := h
      exact ⟨head, rest, rfl, hhead, ih h h'⟩
    | jump target =>
      simp only [hcourse] at h ⊢
      exact h
    | leave =>
      simp only [hcourse] at h ⊢
      exact h

theorem Flow.mono {l : List Ir} (h : Flow T b stack l)
    (hT : ∀ b' τ, T b' = some τ → T' b' = some τ) : Flow T' b stack l := by
  induction l generalizing stack with
  | nil => trivial
  | cons x l ih =>
    rw [Flow] at h ⊢
    cases hcourse : x.op.course with
    | on =>
      simp only [hcourse] at h ⊢
      exact ⟨fun hfail => hT _ _ (h.1 hfail), ih h.2⟩
    | store =>
      simp only [hcourse] at h ⊢
      exact ⟨h.1, ih h.2⟩
    | load =>
      simp only [hcourse] at h ⊢
      obtain ⟨head, rest, hstack, hhead, h⟩ := h
      exact ⟨head, rest, hstack, hhead, ih h⟩
    | jump target =>
      simp only [hcourse] at h ⊢
      refine ⟨fun hkeeps => hT _ _ (h.1 hkeeps), fun hleaves => ?_⟩
      obtain ⟨head, rest, hstack, hrest⟩ := h.2 hleaves
      exact ⟨head, rest, hstack, hT _ _ hrest⟩
    | leave =>
      simp only [hcourse] at h ⊢
      exact h

theorem Flows.congr (h : Flows C T) (hinsts : ∀ b, C'.insts b = C.insts b)
    (hmax : C'.maxBlockId = C.maxBlockId) : Flows C' T where
  code b stack hb := by
    rw [hinsts]
    exact h.code b stack hb
  lt b stack hb := hmax ▸ h.lt b stack hb
  marks b stack hb := hmax ▸ h.marks b stack hb

theorem Flows.emit (h : Flows C T) (hflow : ∀ entered τ, T S.cur = some entered →
    stackAfter S.cur entered (C.insts S.cur) = some τ → Flow T S.cur τ [emitted C S op]) :
    Flows (mozCompilerEmit C S op) T where
  code b stack hb := by
    rw [insts_emit]
    split_ifs with hcur
    · subst hcur
      exact flow_append (h.code _ stack hb) fun τ hτ => hflow stack τ hb hτ
    · exact h.code b stack hb
  lt := h.lt
  marks := h.marks

theorem Flows.link (h : Flows C T) {bb₁ : BlockId} (hflow : ∀ entered τ, T S.cur = some entered →
    stackAfter S.cur entered (C.insts S.cur) = some τ →
      Flow T S.cur τ [emitted C S (.iJump target)]) :
    Flows (mozCompilerLink C S bb₁ target) T :=
  (h.emit hflow).congr (fun b => insts_link C S bb₁ target b) rfl

/-- All new blocks get one stack. -/
theorem Flows.extend (h : Flows C T) (hgrows : Grows [] C C')
    (hnil : ∀ b, C.maxBlockId ≤ b → b < C'.maxBlockId → C'.insts b = []) {inner : List BlockId}
    (hmarks : ∀ head ∈ inner, head < C.maxBlockId ∧ head + 3 ≤ C'.maxBlockId) : ∃ T',
      (∀ b < C.maxBlockId, T' b = T b) ∧
      (∀ b, C.maxBlockId ≤ b → b < C'.maxBlockId → T' b = some inner) ∧ Flows C' T' := by
  generalize hT' : (fun b => if b < C.maxBlockId then T b else
    if b < C'.maxBlockId then some inner else none : StackMap) = T'
  have hold : ∀ b < C.maxBlockId, T' b = T b := fun b hb => by
    rw [← hT']
    exact if_pos hb
  have hnew : ∀ b, C.maxBlockId ≤ b → T' b = if b < C'.maxBlockId then some inner else none :=
    fun b hle => by
      rw [← hT']
      exact if_neg hle.not_gt
  have hinner : ∀ b stack, C.maxBlockId ≤ b → T' b = some stack →
      b < C'.maxBlockId ∧ stack = inner := fun b stack hle hb => by
    rw [hnew b hle] at hb
    split_ifs at hb with hlt
    exact ⟨hlt, (Option.some.inj hb).symm⟩
  refine ⟨T', hold, fun b hle hlt => (hnew b hle).trans (if_pos hlt), ?_, ?_, ?_⟩
  · intro b stack hb
    rcases lt_or_ge b C.maxBlockId with hlt | hle
    · rw [hold b hlt] at hb
      rw [hgrows.other b hlt List.not_mem_nil]
      exact (h.code b stack hb).mono fun b' τ hτ => (hold b' (h.lt b' τ hτ)).trans hτ
    · rw [hnil b hle (hinner b stack hle hb).1]
      trivial
  · intro b stack hb
    rcases lt_or_ge b C.maxBlockId with hlt | hle
    · exact hlt.trans_le hgrows.maxBlockId
    · exact (hinner b stack hle hb).1
  · intro b stack hb head hhead
    rcases lt_or_ge b C.maxBlockId with hlt | hle
    · rw [hold b hlt] at hb
      obtain ⟨hlt', hle'⟩ := h.marks b stack hb head hhead
      exact ⟨hlt', hle'.trans hgrows.maxBlockId⟩
    · obtain ⟨-, rfl⟩ := hinner b stack hle hb
      exact ⟨(hmarks head hhead).1.trans_le hle, (hmarks head hhead).2⟩

end Appending

/-- A path comes to the end of the current block with the positions `stack` saved, if at all. -/
structure Stands (C : MozCompiler) (T : StackMap) (S : MozState) (stack : List BlockId) :
    Prop where
  flows : Flows C T
  cur_lt : S.cur < C.maxBlockId
  reach : ∀ entered τ, T S.cur = some entered →
    stackAfter S.cur entered (C.insts S.cur) = some τ → τ = stack
  beyond : ∀ head ∈ stack, head = S.cur ∨ head + 3 ≤ S.cur
  fail : T S.fail = some stack

/-- A jump may go to the block `target`: paths come there with the same stack, or the jump goes
back to the `IPStore` of the last position. -/
def Receives (T : StackMap) (stack : List BlockId) (target : BlockId) : Prop :=
  T target = some stack ∨ ∃ rest, stack = target :: rest ∧ T target = some rest

/-- Blocks without code for which the stack is `stack`. -/
structure Ready (C : MozCompiler) (T : StackMap) (stack : List BlockId) (blocks : List BlockId) :
    Prop where
  free : Free C blocks
  stack_eq : ∀ b ∈ blocks, T b = some stack
  beyond : ∀ b ∈ blocks, ∀ head ∈ stack, head + 3 ≤ b

section Standing

variable {C C' : MozCompiler} {T T' : StackMap} {S : MozState} {op : Op} {b bb target : BlockId}
  {stack : List BlockId} {blocks : List BlockId}

theorem Stands.marks (h : Stands C T S stack) : ∀ head ∈ stack, head + 3 ≤ C.maxBlockId :=
  fun head hhead => (h.flows.marks _ _ h.fail head hhead).2

theorem Stands.congr (h : Stands C T S stack) (hinsts : ∀ b, C'.insts b = C.insts b)
    (hmax : C'.maxBlockId = C.maxBlockId) : Stands C' T S stack where
  flows := h.flows.congr hinsts hmax
  cur_lt := hmax ▸ h.cur_lt
  reach := by
    rw [hinsts]
    exact h.reach
  beyond := h.beyond
  fail := h.fail

/-- An instruction is added that keeps the saved positions. -/
theorem Stands.emit (h : Stands C T S stack) {mayFail : Bool} (hop : op.course = .on mayFail) :
    Stands (mozCompilerEmit C S op) T S stack where
  flows := h.flows.emit fun entered τ hentered hτ => by
    obtain rfl := h.reach entered τ hentered hτ
    have hcourse : (emitted C S op).op.course = .on mayFail := hop
    rw [Flow, hcourse]
    exact ⟨fun _ => h.fail, trivial⟩
  cur_lt := h.cur_lt
  reach entered τ hentered hτ := by
    rw [insts_emit, if_pos rfl, stackAfter_append] at hτ
    obtain ⟨τ', hτ', hτ⟩ := Option.bind_eq_some_iff.1 hτ
    have hcourse : (emitted C S op).op.course = .on mayFail := hop
    rw [stackAfter, hcourse] at hτ
    exact (Option.some.inj hτ).symm.trans (h.reach entered τ' hentered hτ')
  beyond := h.beyond
  fail := h.fail

theorem Stands.flow_jump (h : Stands C T S stack) (htarget : Receives T stack target)
    (entered τ : List BlockId) (hentered : T S.cur = some entered)
    (hτ : stackAfter S.cur entered (C.insts S.cur) = some τ) :
    Flow T S.cur τ [emitted C S (.iJump target)] := by
  obtain rfl := h.reach entered τ hentered hτ
  have hcourse : (emitted C S (.iJump target)).op.course = .jump target := rfl
  rw [Flow, hcourse]
  rcases htarget with htarget | ⟨rest, rfl, htarget⟩
  · refine ⟨fun _ => htarget, fun hleaves => ?_⟩
    obtain ⟨head, hhead, hleaves⟩ := hleaves
    have hbeyond := h.beyond head hhead
    have hmarks := (h.flows.marks target _ htarget head hhead).1
    lia
  · exact ⟨fun hkeeps => absurd ⟨target, List.mem_cons_self, .inr rfl⟩ hkeeps,
      fun _ => ⟨target, rest, rfl, htarget⟩⟩

theorem Stands.jump (h : Stands C T S stack) (htarget : Receives T stack target) :
    Stands (mozCompilerEmit C S (.iJump target)) T S stack where
  flows := h.flows.emit (h.flow_jump htarget)
  cur_lt := h.cur_lt
  reach entered τ hentered hτ := by
    rw [insts_emit, if_pos rfl, stackAfter_append] at hτ
    obtain ⟨τ', hτ', hτ⟩ := Option.bind_eq_some_iff.1 hτ
    cases hτ
  beyond := h.beyond
  fail := h.fail

theorem Stands.link (h : Stands C T S stack) (htarget : Receives T stack target) (bb₁ : BlockId) :
    Flows (mozCompilerLink C S bb₁ target) T :=
  h.flows.link (h.flow_jump htarget)

/-- The lowering goes on in a block without code. -/
theorem Flows.stands (h : Flows C T) (hready : Ready C T stack (bb :: blocks))
    (hcur : S.cur = bb) (hfail : T S.fail = some stack) : Stands C T S stack where
  flows := h
  cur_lt := hcur ▸ hready.free.lt bb List.mem_cons_self
  reach entered τ hentered hτ := by
    rw [hcur, hready.stack_eq bb List.mem_cons_self] at hentered
    rw [hcur, hready.free.nil bb List.mem_cons_self] at hτ
    exact (Option.some.inj hτ).symm.trans (Option.some.inj hentered).symm
  beyond head hhead := .inr (hcur ▸ hready.beyond bb List.mem_cons_self head hhead)
  fail := hfail

theorem Ready.tail (h : Ready C T stack (bb :: blocks)) : Ready C T stack blocks where
  free := h.free.tail
  stack_eq b hb := h.stack_eq b (List.mem_cons_of_mem _ hb)
  beyond b hb := h.beyond b (List.mem_cons_of_mem _ hb)

theorem Ready.single (hnil : C.insts bb = []) (hlt : bb < C.maxBlockId) (hT : T bb = some stack)
    (hbeyond : ∀ head ∈ stack, head + 3 ≤ bb) : Ready C T stack [bb] where
  free := ⟨List.nodup_singleton bb, by simpa, by simpa⟩
  stack_eq := by simpa
  beyond := by simpa

theorem Ready.receives (h : Ready C T stack blocks) (hcur : Receives T stack target) :
    Receives T stack ((blocks ++ [target]).headD 0) := by
  cases blocks with
  | nil => exact hcur
  | cons bb blocks => exact .inl (h.stack_eq bb List.mem_cons_self)

theorem Receives.grow (h : Receives T stack target) (hflows : Flows C T)
    (hold : ∀ b < C.maxBlockId, T' b = T b) : Receives T' stack target := by
  rcases h with h | ⟨rest, hstack, h⟩
  · exact .inl ((hold target (hflows.lt _ _ h)).trans h)
  · exact .inr ⟨rest, hstack, (hold target (hflows.lt _ _ h)).trans h⟩

theorem Ready.grow (h : Ready C T stack blocks) (hfree : Free C' blocks)
    (hold : ∀ b < C.maxBlockId, T' b = T b) : Ready C' T' stack blocks where
  free := hfree
  stack_eq b hb := (hold b (h.free.lt b hb)).trans (h.stack_eq b hb)
  beyond := h.beyond

theorem Stands.extend (h : Stands C T S stack) (hgrows : Grows [] C C')
    (hnil : ∀ b, C.maxBlockId ≤ b → b < C'.maxBlockId → C'.insts b = []) {inner : List BlockId}
    (hmarks : ∀ head ∈ inner, head < C.maxBlockId ∧ head + 3 ≤ C'.maxBlockId) : ∃ T',
      (∀ b < C.maxBlockId, T' b = T b) ∧
      (∀ b, C.maxBlockId ≤ b → b < C'.maxBlockId → T' b = some inner) ∧
      Stands C' T' S stack := by
  obtain ⟨T', hold, hnew, hflows⟩ := h.flows.extend hgrows hnil hmarks
  refine ⟨T', hold, hnew, hflows, h.cur_lt.trans_le hgrows.maxBlockId, fun entered τ => ?_,
    h.beyond, (hold _ (h.flows.lt _ _ h.fail)).trans h.fail⟩
  rw [hold _ h.cur_lt, hgrows.other _ h.cur_lt List.not_mem_nil]
  exact h.reach entered τ

/-- New blocks get the stack of the current place. -/
theorem Stands.extend_same (h : Stands C T S stack) (hgrows : Grows [] C C')
    (hnil : ∀ b, C.maxBlockId ≤ b → b < C'.maxBlockId → C'.insts b = []) : ∃ T',
      (∀ b < C.maxBlockId, T' b = T b) ∧
      (∀ b, C.maxBlockId ≤ b → b < C'.maxBlockId → T' b = some stack) ∧
      Stands C' T' S stack := by
  refine h.extend hgrows hnil fun head hhead => ?_
  have hmarks := h.marks head hhead
  have hmax := hgrows.maxBlockId
  exact ⟨by lia, by lia⟩

theorem Stands.ready (h : Stands C T S stack) (hfree : Free C' blocks)
    (hle : ∀ b ∈ blocks, C.maxBlockId ≤ b)
    (hnew : ∀ b, C.maxBlockId ≤ b → b < C'.maxBlockId → T' b = some stack) :
    Ready C' T' stack blocks where
  free := hfree
  stack_eq b hb := hnew b (hle b hb) (hfree.lt b hb)
  beyond b hb head hhead := (h.marks head hhead).trans (hle b hb)

end Standing

/-- The lowering of `e` leaves the stack as it was. -/
def Saves (e : Expr) : Prop :=
  ∀ C T S stack, Stands C T S stack → Receives T stack S.cur → ∃ T',
    (∀ b < C.maxBlockId, T' b = T b) ∧
      Stands (mozExprToIr e C S).1 T' (mozExprToIr e C S).2 stack

section Constructs

variable {e x : Expr} {list : List Expr} {C C' : MozCompiler} {T : StackMap} {S : MozState}
  {stack : List BlockId} {blocks : List BlockId} {bb : BlockId}

theorem Saves.empty : Saves .empty := fun _ T _ _ h _ => ⟨T, fun _ _ => rfl, h⟩

theorem Saves.fail : Saves .fail := fun _ T _ _ h _ =>
  ⟨T, fun _ _ => rfl, h.jump (.inl h.fail)⟩

/-- A construct that is one instruction, for which a constant may be added. -/
theorem Saves.one (he : ∀ C S, ∃ C₁ op mayFail, (∀ b, C₁.insts b = C.insts b) ∧
    C₁.maxBlockId = C.maxBlockId ∧ Op.course op = .on mayFail ∧
      mozExprToIr e C S = (mozCompilerEmit C₁ S op, S)) : Saves e := by
  intro C T S stack h _
  obtain ⟨C₁, op, mayFail, hinsts, hmax, hop, heq⟩ := he C S
  rw [heq]
  exact ⟨T, fun _ _ => rfl, (h.congr hinsts hmax).emit hop⟩

theorem Saves.simple (op : Op) {mayFail : Bool} (hop : op.course = .on mayFail)
    (he : ∀ C S, mozExprToIr e C S = (mozCompilerEmit C S op, S)) : Saves e :=
  .one fun C S => ⟨C, op, mayFail, fun _ => rfl, rfl, hop, he C S⟩

theorem Saves.withString {str : List UInt8} {op : UInt16 → Op} {mayFail : Bool}
    (hop : ∀ id, (op id).course = .on mayFail) (he : ∀ C S, mozExprToIr e C S =
      (mozCompilerEmit (mozCompilerAddString C str).1 S (op (mozCompilerAddString C str).2), S)) :
    Saves e :=
  .one fun C S => ⟨(mozCompilerAddString C str).1, _, mayFail, fun _ => rfl, rfl, hop _, he C S⟩

theorem Saves.withTag {name : List UInt8} {op : UInt16 → Op} {mayFail : Bool}
    (hop : ∀ id, (op id).course = .on mayFail) (he : ∀ C S, mozExprToIr e C S =
      (mozCompilerEmit (mozCompilerAddTag C name).1 S (op (mozCompilerAddTag C name).2), S)) :
    Saves e :=
  .one fun C S => ⟨(mozCompilerAddTag C name).1, _, mayFail, fun _ => rfl, rfl, hop _, he C S⟩

theorem Saves.withSet {set : Bitset} {op : UInt16 → Op} {mayFail : Bool}
    (hop : ∀ id, (op id).course = .on mayFail) (he : ∀ C S, mozExprToIr e C S =
      (mozCompilerEmit (mozCompilerAddSet C set).1 S (op (mozCompilerAddSet C set).2), S)) :
    Saves e := by
  refine .one fun C S => ⟨_, _, mayFail, fun b => ?_, ?_, hop _, he C S⟩
  · unfold mozCompilerAddSet
    split <;> rfl
  · unfold mozCompilerAddSet
    split <;> rfl

theorem newBlock_nil (C : MozCompiler) (b : BlockId) (hle : C.maxBlockId ≤ b)
    (hlt : b < (newBlock C).maxBlockId) : (newBlock C).insts b = [] := by
  rw [insts_newBlock]
  exact if_pos (hle.antisymm (Nat.lt_succ_iff.1 hlt)).symm

/-- The three blocks of a predicate: its position is saved in the second and the third one. -/
theorem Stands.predicateBlocks (h : Stands C T S stack) : ∃ T',
    (∀ b < C.maxBlockId, T' b = T b) ∧ T' C.maxBlockId = some stack ∧
      (∀ k, 0 < k → k < 3 → T' (C.maxBlockId + k) = some (C.maxBlockId :: stack)) ∧
      Stands (newBlock (newBlock (newBlock C))) T' S stack := by
  have hmax : (newBlock (newBlock (newBlock C))).maxBlockId = C.maxBlockId + 3 := rfl
  have hgrows : Grows [] (newBlock C) (newBlock (newBlock (newBlock C))) :=
    (grows_newBlock _ []).trans_same (grows_newBlock _ [])
  obtain ⟨T₁, hold₁, hnew₁, h₁⟩ := h.extend_same (grows_newBlock C []) (newBlock_nil C)
  have hnil : ∀ b, (newBlock C).maxBlockId ≤ b →
      b < (newBlock (newBlock (newBlock C))).maxBlockId →
        (newBlock (newBlock (newBlock C))).insts b = [] := fun b hle hlt => by
    obtain ⟨k, rfl⟩ := Nat.exists_eq_add_of_le ((Nat.le_succ _).trans hle)
    rw [hmax] at hlt
    exact newBlocks_spec.2 k (by lia)
  have hmarks : ∀ head ∈ C.maxBlockId :: stack,
      head < C.maxBlockId + 1 ∧ head + 3 ≤ C.maxBlockId + 3 := fun head hin => by
    rcases List.mem_cons.1 hin with rfl | hin
    · exact ⟨by lia, le_rfl⟩
    · have := h.marks head hin
      exact ⟨by lia, by lia⟩
  obtain ⟨T₂, hold₂, hnew₂, h₂⟩ := h₁.extend hgrows hnil hmarks
  simp only [maxBlockId_newBlock] at *
  refine ⟨T₂, fun b hb => (hold₂ b (by lia)).trans (hold₁ b hb), ?_, fun k hk hk' => ?_, h₂⟩
  · exact (hold₂ _ (by lia)).trans (hnew₁ _ le_rfl (by lia))
  · exact hnew₂ _ (by lia) (by lia)

/-- Behind the `IPStore` of a predicate. -/
theorem Flows.store (h : Flows C T) (hlt : S.cur < C.maxBlockId) (hnil : C.insts S.cur = [])
    (hhead : T S.cur = some stack) (hmarks : ∀ head ∈ stack, head + 3 ≤ S.cur)
    (hfail : T S.fail = some (S.cur :: stack)) :
    Stands (mozCompilerEmit C S .iPStore) T S (S.cur :: stack) where
  flows := h.emit fun entered τ hentered hτ => by
    rw [hhead] at hentered
    rw [hnil] at hτ
    obtain rfl := Option.some.inj hentered
    obtain rfl := Option.some.inj hτ
    refine ⟨fun hin => ?_, trivial⟩
    have := hmarks _ hin
    lia
  cur_lt := hlt
  reach entered τ hentered hτ := by
    rw [hhead] at hentered
    rw [insts_emit, if_pos rfl, hnil] at hτ
    obtain rfl := Option.some.inj hentered
    exact (Option.some.inj hτ).symm
  beyond head hin := (List.mem_cons.1 hin).imp id (hmarks head)
  fail := hfail

/-- `And` and `Not` up to the jump after the operand. -/
theorem Saves.predicate (hx : Saves e) (he : Emits e) (h : Stands C T S stack) {i j : ℕ}
    (hi : 0 < i ∧ i < 3) (hj : 0 < j ∧ j < 3) :
    let r := mozPredicateToIr e C S (C.maxBlockId + i) (C.maxBlockId + j)
    ∃ T', (∀ b < C.maxBlockId, T' b = T b) ∧ Flows r.1 T' ∧
      ∀ k, 0 < k → k < 3 → T' (C.maxBlockId + k) = some (C.maxBlockId :: stack) := by
  dsimp only
  unfold mozPredicateToIr
  dsimp only
  obtain ⟨T₁, hold₁, hhead, hinner, hstands₁⟩ := h.predicateBlocks
  have hmax₁ : (newBlock (newBlock (newBlock C))).maxBlockId = C.maxBlockId + 3 := rfl
  have hnil₁ := (@newBlocks_spec C).2 0 (by lia)
  generalize newBlock (newBlock (newBlock C)) = C₁ at *
  have hflows₂ : Flows (mozCompilerLink C₁ S S.cur C.maxBlockId) T₁ :=
    hstands₁.link (.inl hhead) S.cur
  have hmax₂ : (mozCompilerLink C₁ S S.cur C.maxBlockId).maxBlockId = C.maxBlockId + 3 := hmax₁
  have hnil₂ : (mozCompilerLink C₁ S S.cur C.maxBlockId).insts C.maxBlockId = [] := by
    have hcur := h.cur_lt
    rw [insts_link, insts_emit, if_neg (by lia)]
    exact hnil₁
  generalize mozCompilerLink C₁ S S.cur C.maxBlockId = C₂ at *
  generalize hS₁ : MozState.mk S.head C.maxBlockId (C.maxBlockId + i) (C.maxBlockId + j) = S₁
  have hcur₁ : C.maxBlockId = S₁.cur := hS₁ ▸ rfl
  have hfail₁ : T₁ S₁.fail = some (C.maxBlockId :: stack) := hS₁ ▸ hinner j hj.1 hj.2
  rw [hcur₁] at hnil₂ hhead hfail₁
  have hstands₂ := hflows₂.store (by lia) hnil₂ hhead (hcur₁ ▸ h.marks) hfail₁
  have hmax₃ : (mozCompilerEmit C₂ S₁ .iPStore).maxBlockId = C.maxBlockId + 3 := hmax₂
  generalize mozCompilerEmit C₂ S₁ .iPStore = C₃ at *
  obtain ⟨T₂, hold₂, hstands₃⟩ := hx C₃ T₁ S₁ _ hstands₂ (.inr ⟨stack, rfl, hhead⟩)
  have hnext : (mozExprToIr e C₃ S₁).2.next = C.maxBlockId + i := by
    rw [(he C₃ S₁ hstands₂.cur_lt).state, ← hS₁]
  have hinner₂ : ∀ k, 0 < k → k < 3 → T₂ (C.maxBlockId + k) = some (C.maxBlockId :: stack) :=
    fun k hk hk' => (hold₂ _ (by lia)).trans (hinner k hk hk')
  refine ⟨T₂, fun b hb => (hold₂ b (by lia)).trans (hold₁ b hb), ?_, hinner₂⟩
  refine hstands₃.link (.inl ?_) _
  rw [hnext, ← hcur₁]
  exact hinner₂ i hi.1 hi.2

/-- The third block of a predicate, which leaves the position saved. -/
theorem Flows.third (h : Flows C T) {head fail : BlockId} (hcur : S.cur = head + 2)
    (hnil : C.insts (head + 2) = []) (hhead : T (head + 2) = some (head :: stack))
    (hfail : T fail = some stack) (bb₁ : BlockId) : Flows (mozCompilerLink C S bb₁ fail) T := by
  refine h.link fun entered τ hentered hτ => ?_
  rw [hcur, hhead] at hentered
  rw [hcur, hnil] at hτ
  obtain rfl := Option.some.inj hentered
  obtain rfl := Option.some.inj hτ
  rw [hcur]
  exact ⟨fun hkeeps => absurd ⟨head, List.mem_cons_self, .inl rfl⟩ hkeeps,
    fun _ => ⟨head, stack, rfl, hfail⟩⟩

/-- The block in which a predicate takes the position back that it has saved. -/
theorem Flows.load (h : Flows C T) {head : BlockId} (hcur : S.cur = head + 1)
    (hnil : C.insts (head + 1) = []) (hhead : T (head + 1) = some (head :: stack)) :
    Flows (mozCompilerEmit C S .iPLoad) T := by
  refine h.emit fun entered τ hentered hτ => ?_
  rw [hcur, hhead] at hentered
  rw [hcur, hnil] at hτ
  obtain rfl := Option.some.inj hentered
  obtain rfl := Option.some.inj hτ
  rw [hcur]
  exact ⟨head, stack, rfl, rfl, trivial⟩

theorem Flows.loaded (h : Flows C T) {head : BlockId} {load : Ir} (hload : load.op = .iPLoad)
    (hinsts : C.insts (head + 1) = [load]) (hcur : S.cur = head + 1) (hlt : head + 1 < C.maxBlockId)
    (hhead : T (head + 1) = some (head :: stack))
    (hmarks : ∀ m ∈ stack, m + 3 ≤ head) (hfail : T S.fail = some stack) :
    Stands C T S stack where
  flows := h
  cur_lt := hcur ▸ hlt
  reach entered τ hentered hτ := by
    rw [hcur, hhead] at hentered
    obtain rfl := Option.some.inj hentered
    rw [hcur, hinsts, stackAfter, hload] at hτ
    exact (Option.some.inj hτ).symm
  beyond m hm := by
    have := hmarks m hm
    rw [hcur]
    exact .inr (by lia)
  fail := hfail

theorem Saves.and (hx : Saves e) (he : Emits e) : Saves (.and e) := by
  intro C T S stack h _
  have hguarded : Guarded e C S (C.maxBlockId + 1) (C.maxBlockId + 2) _ :=
    he.guarded h.cur_lt (by omega) (by omega)
  obtain ⟨T', hold, hflows, hinner⟩ := hx.predicate he h (i := 1) (j := 2) (by omega) (by omega)
  have hnext := hinner 1 (by lia) (by lia)
  have hthird := hinner 2 (by lia) (by lia)
  rw [mozExprToIr_and]
  dsimp only
  generalize mozPredicateToIr e C S (C.maxBlockId + 1) (C.maxBlockId + 2) = r at *
  have hmax := hguarded.maxBlockId
  have hcur : r.2.next = C.maxBlockId + 1 := by rw [hguarded.state]
  rw [hcur]
  have hfail : T' S.fail = some stack := (hold _ (h.flows.lt _ _ h.fail)).trans h.fail
  generalize hS₁ : MozState.mk r.2.head (C.maxBlockId + 1) (C.maxBlockId + 1) S.fail = S₁
  have hcur₁ : S₁.cur = C.maxBlockId + 1 := hS₁ ▸ rfl
  have hflows₁ := hflows.load hcur₁ hguarded.next_nil hnext
  have hinsts₁ : ∀ b, (mozCompilerEmit r.1 S₁ .iPLoad).insts b =
      if b = C.maxBlockId + 1 then r.1.insts b ++ [emitted r.1 S₁ .iPLoad] else r.1.insts b :=
    fun b => by rw [insts_emit, hcur₁]
  have hmax₁ : (mozCompilerEmit r.1 S₁ .iPLoad).maxBlockId = r.1.maxBlockId := rfl
  generalize mozCompilerEmit r.1 S₁ .iPLoad = C₁ at *
  have hnil₁ : C₁.insts (C.maxBlockId + 2) = [] := by
    rw [hinsts₁, if_neg (by lia), hguarded.fail_nil]
  generalize hS₂ : MozState.mk r.2.head (C.maxBlockId + 2) (C.maxBlockId + 1)
    (C.maxBlockId + 2) = S₂
  have hcur₂ : S₂.cur = C.maxBlockId + 2 := hS₂ ▸ rfl
  have hflows₂ := hflows₁.third hcur₂ hnil₁ hthird hfail (C.maxBlockId + 2)
  have hinsts : (mozCompilerLink C₁ S₂ (C.maxBlockId + 2) S.fail).insts (C.maxBlockId + 1) =
      [emitted r.1 S₁ .iPLoad] := by
    rw [insts_link, insts_emit, if_neg (by lia), hinsts₁, if_pos rfl, hguarded.next_nil]
    rfl
  refine ⟨T', hold, hflows₂.loaded rfl hinsts rfl ?_ hnext h.marks hfail⟩
  rw [maxBlockId_link]
  lia

theorem Saves.not (hop : e.notOp = none) (hx : Saves e) (he : Emits e) : Saves (.not e) := by
  intro C T S stack h _
  have hguarded : Guarded e C S (C.maxBlockId + 2) (C.maxBlockId + 1) _ :=
    he.guarded h.cur_lt (by omega) (by omega)
  obtain ⟨T', hold, hflows, hinner⟩ := hx.predicate he h (i := 2) (j := 1) (by omega) (by omega)
  have hnext := hinner 1 (by lia) (by lia)
  have hthird := hinner 2 (by lia) (by lia)
  rw [mozExprToIr_not hop]
  dsimp only
  generalize mozPredicateToIr e C S (C.maxBlockId + 2) (C.maxBlockId + 1) = r at *
  have hmax := hguarded.maxBlockId
  have hcur : r.2.next = C.maxBlockId + 2 := by rw [hguarded.state]
  have hcur' : r.2.fail = C.maxBlockId + 1 := by rw [hguarded.state]
  rw [hcur, hcur']
  have hfail : T' S.fail = some stack := (hold _ (h.flows.lt _ _ h.fail)).trans h.fail
  generalize hS₁ : MozState.mk r.2.head (C.maxBlockId + 2) (C.maxBlockId + 2)
    (C.maxBlockId + 1) = S₁
  have hcur₁ : S₁.cur = C.maxBlockId + 2 := hS₁ ▸ rfl
  have hflows₁ := hflows.third hcur₁ hguarded.next_nil hthird hfail (C.maxBlockId + 2)
  have hnil₁ : (mozCompilerLink r.1 S₁ (C.maxBlockId + 2) S.fail).insts (C.maxBlockId + 1) =
      [] := by
    rw [insts_link, insts_emit, if_neg (by lia), hguarded.fail_nil]
  have hmax₁ : (mozCompilerLink r.1 S₁ (C.maxBlockId + 2) S.fail).maxBlockId =
      r.1.maxBlockId := rfl
  generalize mozCompilerLink r.1 S₁ (C.maxBlockId + 2) S.fail = C₁ at *
  generalize hS₂ : MozState.mk r.2.head (C.maxBlockId + 1) (C.maxBlockId + 2) S.fail = S₂
  have hcur₂ : S₂.cur = C.maxBlockId + 1 := hS₂ ▸ rfl
  have hflows₂ := hflows₁.load hcur₂ hnil₁ hnext
  have hinsts : (mozCompilerEmit C₁ S₂ .iPLoad).insts (C.maxBlockId + 1) =
      [emitted C₁ S₂ .iPLoad] := by
    rw [insts_emit, hcur₂, if_pos rfl, hnil₁]
    rfl
  refine ⟨T', hold, hflows₂.loaded rfl hinsts rfl ?_ hnext h.marks hfail⟩
  rw [maxBlockId_emit]
  lia

theorem Saves.option (hop : e.optionOp C = none) (hx : Saves e) (he : Emits e) :
    Saves (.option e) := by
  intro C T S stack h hcur
  rw [mozExprToIr_option (Expr.optionOp_eq_none C hop)]
  dsimp only
  have h₁ : Grows [] C (newBlock C) := grows_newBlock _ _
  have hmax₁ : (newBlock C).maxBlockId = C.maxBlockId + 1 := rfl
  have hnil₁ := newBlock_nil C
  generalize newBlock C = C₁ at *
  obtain ⟨T₁, hold, hnew, hstands⟩ := h.extend_same h₁ hnil₁
  replace hnew := hnew C.maxBlockId le_rfl (by lia)
  generalize hS₁ : MozState.mk S.head S.cur C.maxBlockId C.maxBlockId = S₁
  have hcur₁ : S₁.cur = S.cur := hS₁ ▸ rfl
  have hstands₁ : Stands C₁ T₁ S₁ stack := by
    subst hS₁
    exact { hstands with fail := hnew }
  have h₂ := he C₁ S₁ hstands₁.cur_lt
  obtain ⟨T₂, hold₂, hstands₂⟩ := hx C₁ T₁ S₁ stack hstands₁ (hcur₁ ▸ hcur.grow h.flows hold)
  generalize mozExprToIr e C₁ S₁ = r at *
  have hfail : r.2.fail = C.maxBlockId := by rw [h₂.state, ← hS₁]
  have hmax₂ := h₂.grows.maxBlockId
  have hbody := h₂.cur
  have hcur_lt := h.cur_lt
  rw [hfail]
  have hnew₂ : T₂ C.maxBlockId = some stack := (hold₂ _ (by lia)).trans hnew
  refine ⟨T₂, fun b hb => (hold₂ b (by lia)).trans (hold b hb), ?_⟩
  have hnil : (mozCompilerLink r.1 r.2 r.2.cur C.maxBlockId).insts C.maxBlockId = [] := by
    rw [insts_link, insts_emit, if_neg (by lia),
      h₂.grows.other _ (by lia) (by simp only [List.mem_singleton]; lia)]
    exact hnil₁ _ le_rfl (by lia)
  refine (hstands₂.link (.inl hnew₂) _).stands (.single hnil ?_ hnew₂ h.marks) rfl ?_
  · exact (by lia : C.maxBlockId < r.1.maxBlockId)
  · exact (hold₂ _ (hstands.flows.lt _ _ hstands.fail)).trans hstands.fail

end Constructs

end Moz.Compiler
