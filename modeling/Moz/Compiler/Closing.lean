import Moz.Compiler.Wiring

/-!
# The blocks of a lowered grammar

While an expression is lowered some blocks are open: the current one, and those that
are created for what comes after it. Every other block is closed: it ends with its
only terminator. Each construct takes the current block, closes it or goes on in it,
and leaves one block open in its place; so when a production is done nothing is open.
-/

namespace Moz.Compiler

def Closed (insts : List Ir) : Prop :=
  ∃ body term, insts = body ++ [term] ∧ term.op.isTerminator = true ∧
    ∀ x ∈ body, x.op.isTerminator = false

def Unclosed (insts : List Ir) : Prop := ∀ x ∈ insts, x.op.isTerminator = false

/-- The block ends with an `IJump` to `s`. -/
def JumpsTo (insts : List Ir) (s : BlockId) : Prop :=
  ∃ term, insts.getLast? = some term ∧ term.op = .iJump s

def Op.IsJump (op : Op) : Prop := ∃ s, op = .iJump s

theorem Op.IsJump.isTerminator {op : Op} (h : op.IsJump) : op.isTerminator = true := by
  obtain ⟨s, rfl⟩ := h
  rfl

/-- What holds of the graph while it is built and while it is simplified. A block that may be the
fail block of an instruction is kept by its type. -/
structure Graph (C : MozCompiler) : Prop where
  nodup : C.blocks.Nodup
  succs : ∀ b s, s ∈ (C.mem b).succs ↔ JumpsTo (C.mem b).insts s
  fails : ∀ b ∈ C.blocks, ∀ x ∈ (C.mem b).insts,
    x.fail ∈ C.blocks ∧ (C.mem x.fail).type.isSpecial = true
  targets : ∀ b s, JumpsTo (C.mem b).insts s → b ∈ C.blocks ∧ s ∈ C.blocks
  failing : ∀ b ∈ C.blocks, ∀ x ∈ (C.mem b).insts, x.op = .iFail →
    (C.mem b).type.isSpecial = true
  jumps : ∀ b b', ∀ x ∈ (C.mem b).insts, ∀ y ∈ (C.mem b').insts, x.addr = y.addr →
    x.op.IsJump → y.op.IsJump

/-- The graph while the blocks of `O` are open; `E` are the entry blocks. -/
structure Shaped (C : MozCompiler) (E : List BlockId) (O : Multiset BlockId) : Prop
    extends Graph C where
  nodup_open : O.Nodup
  listed : ∀ b ∈ O, b ∈ C.blocks
  bound : ∀ b ∈ C.blocks, b < C.maxBlockId
  stray : ∀ b ∉ C.blocks, C.mem b = {}
  opened : ∀ b ∈ O, Unclosed (C.mem b).insts
  closed : ∀ b ∈ C.blocks, b ∉ O → Closed (C.mem b).insts
  addr_lt : ∀ b, ∀ x ∈ (C.mem b).insts, x.addr < C.maxIrId
  entries : ∀ b, (C.mem b).type.entry = true ↔ b ∈ E

/-- One instruction `x` more in the block `cur`, and the edge of a jump. -/
structure Appends (C C' : MozCompiler) (cur : BlockId) (x : Ir) : Prop where
  decls : C'.decls = C.decls
  blocks : C'.blocks = C.blocks
  maxBlockId : C'.maxBlockId = C.maxBlockId
  maxIrId : C'.maxIrId = C.maxIrId + 1
  addr : x.addr = C.maxIrId
  insts : ∀ b, (C'.mem b).insts = if b = cur then (C.mem b).insts ++ [x] else (C.mem b).insts
  succs : ∀ b s, s ∈ (C'.mem b).succs ↔ s ∈ (C.mem b).succs ∨ b = cur ∧ x.op = .iJump s
  special : ∀ b, (C.mem b).type.isSpecial = true → (C'.mem b).type.isSpecial = true
  handler : (C'.mem x.fail).type.isSpecial = true
  entry : ∀ b, (C'.mem b).type.entry = (C.mem b).type.entry
  stray : ∀ b, b ≠ cur → b ≠ x.fail → ¬ x.op = .iJump b → C'.mem b = C.mem b

section Append

variable {C C' : MozCompiler} {E : List BlockId} {O : Multiset BlockId} {cur b s : BlockId} {x : Ir}
  {l : List Ir}

theorem Unclosed.not_jumpsTo (h : Unclosed l) : ¬ JumpsTo l s := by
  rintro ⟨term, hlast, hop⟩
  have hterm := h term (List.mem_of_getLast? hlast)
  rw [hop] at hterm
  cases hterm

theorem jumpsTo_concat : JumpsTo (l ++ [x]) s ↔ x.op = .iJump s := by
  constructor
  · rintro ⟨term, hlast, hop⟩
    rw [List.getLast?_concat] at hlast
    rwa [Option.some.inj hlast]
  · exact fun hop => ⟨x, List.getLast?_concat, hop⟩

theorem Appends.mem_insts (h : Appends C C' cur x) {y : Ir} (hy : y ∈ (C'.mem b).insts) :
    y ∈ (C.mem b).insts ∨ b = cur ∧ y = x := by
  rw [h.insts] at hy
  split_ifs at hy with hb
  · rcases List.mem_append.1 hy with hy | hy
    · exact .inl hy
    · exact .inr ⟨hb, List.mem_singleton.1 hy⟩
  · exact .inl hy

theorem Appends.jumpsTo (h : Appends C C' cur x) (hopen : Unclosed (C.mem cur).insts) :
    JumpsTo (C'.mem b).insts s ↔ JumpsTo (C.mem b).insts s ∨ b = cur ∧ x.op = .iJump s := by
  rw [h.insts]
  split_ifs with hb
  · rw [jumpsTo_concat, hb]
    simp [hopen.not_jumpsTo]
  · simp [hb]

theorem Appends.graph (h : Appends C C' cur x) (hC : Graph C) (hcur : cur ∈ C.blocks)
    (hopen : Unclosed (C.mem cur).insts) (haddr : ∀ b, ∀ y ∈ (C.mem b).insts, y.addr < C.maxIrId)
    (hfail : x.fail ∈ C.blocks) (htarget : ∀ s, x.op = .iJump s → s ∈ C.blocks)
    (hfailing : x.op = .iFail → (C.mem cur).type.isSpecial = true) : Graph C' where
  nodup := h.blocks ▸ hC.nodup
  succs b s := by rw [h.succs, hC.succs, h.jumpsTo hopen]
  fails b hb y hy := by
    rw [h.blocks] at hb ⊢
    rcases h.mem_insts hy with hy | ⟨-, rfl⟩
    · exact (hC.fails b hb y hy).imp id (h.special _)
    · exact ⟨hfail, h.handler⟩
  targets b s hs := by
    rw [h.blocks]
    rcases (h.jumpsTo hopen).1 hs with hs | ⟨rfl, hop⟩
    · exact hC.targets b s hs
    · exact ⟨hcur, htarget s hop⟩
  failing b hb y hy hop := by
    rw [h.blocks] at hb
    rcases h.mem_insts hy with hy | ⟨rfl, rfl⟩
    · exact h.special b (hC.failing b hb y hy hop)
    · exact h.special b (hfailing hop)
  jumps b b' y hy z hz heq hjump := by
    rcases h.mem_insts hy with hy | ⟨-, rfl⟩
    · rcases h.mem_insts hz with hz | ⟨-, rfl⟩
      · exact hC.jumps b b' y hy z hz heq hjump
      · exact absurd (heq.trans h.addr) (haddr b y hy).ne
    · rcases h.mem_insts hz with hz | ⟨-, rfl⟩
      · exact absurd (heq.symm.trans h.addr) (haddr b' z hz).ne
      · exact hjump

/-- One instruction more in a block that is open; a terminator closes it. -/
theorem Appends.shaped (h : Appends C C' cur x) (hC : Shaped C E ({cur} + O)) (hfail : x.fail ∈ C.blocks)
    (htarget : ∀ s, x.op = .iJump s → s ∈ C.blocks)
    (hfailing : x.op = .iFail → (C.mem cur).type.isSpecial = true) :
    Shaped C' E (if x.op.isTerminator then O else {cur} + O) := by
  have hmem : cur ∈ {cur} + O := by simp
  have hcur := hC.listed cur hmem
  have hopen := hC.opened cur hmem
  have hnodup : cur ∉ O ∧ O.Nodup := by
    have hall := hC.nodup_open
    rwa [Multiset.singleton_add, Multiset.nodup_cons] at hall
  have hsub : ∀ b ∈ (if x.op.isTerminator then O else {cur} + O), b ∈ {cur} + O := by
    intro b hb
    split_ifs at hb
    · exact Multiset.mem_add.2 (.inr hb)
    · exact hb
  constructor
  case toGraph => exact h.graph hC.toGraph hcur hopen hC.addr_lt hfail htarget hfailing
  case nodup_open =>
    split_ifs
    · exact hnodup.2
    · exact hC.nodup_open
  case listed => exact fun b hb => h.blocks ▸ hC.listed b (hsub b hb)
  case bound =>
    intro b hb
    rw [h.blocks] at hb
    exact h.maxBlockId ▸ hC.bound b hb
  case stray =>
    intro b hb
    rw [h.blocks] at hb
    have hne : b ≠ cur := fun heq => hb (heq ▸ hcur)
    have hne' : b ≠ x.fail := fun heq => hb (heq ▸ hfail)
    rw [h.stray b hne hne' fun hop => hb (htarget b hop), hC.stray b hb]
  case opened =>
    intro b hb y hy
    rcases h.mem_insts hy with hy | ⟨rfl, rfl⟩
    · exact hC.opened b (hsub b hb) y hy
    · split_ifs at hb with hterm
      · exact absurd hb hnodup.1
      · exact Bool.eq_false_iff.2 hterm
  case closed =>
    intro b hb hout
    rw [h.blocks] at hb
    rw [h.insts]
    by_cases heq : b = cur
    · rw [if_pos heq, heq]
      split_ifs at hout with hterm
      · exact ⟨_, x, rfl, hterm, hopen⟩
      · exact absurd (heq ▸ hmem) hout
    · rw [if_neg heq]
      refine hC.closed b hb fun hin => hout ?_
      split_ifs
      · simpa [heq] using hin
      · exact hin
  case addr_lt =>
    intro b y hy
    rw [h.maxIrId]
    rcases h.mem_insts hy with hy | ⟨-, rfl⟩
    · exact (hC.addr_lt b y hy).trans (Nat.lt_succ_self _)
    · rw [h.addr]
      exact Nat.lt_succ_self _
  case entries =>
    intro b
    rw [h.entry]
    exact hC.entries b

end Append

section Steps

variable {C : MozCompiler} {S : MozState} {E : List BlockId} {O : Multiset BlockId} {op : Op}
  {b bb : BlockId}

theorem type_emit (C : MozCompiler) (S : MozState) (op : Op) (b : BlockId) :
    ((mozCompilerEmit C S op).mem b).type =
      if b = S.fail then (C.mem b).type.union .blockHandler else (C.mem b).type := by
  unfold mozCompilerEmit irAlloc mozCompilerAdd MozCompiler.blockAppend MozCompiler.blockSetType
  dsimp only
  rw [mem_setBlock, mem_setBlock, mem_setBlock]
  split_ifs <;> simp_all

theorem mem_emit_of_ne (C : MozCompiler) (op : Op) (hcur : b ≠ S.cur) (hfail : b ≠ S.fail) :
    (mozCompilerEmit C S op).mem b = C.mem b := by
  unfold mozCompilerEmit irAlloc mozCompilerAdd MozCompiler.blockAppend MozCompiler.blockSetType
  dsimp only
  rw [mem_setBlock, if_neg hcur, mem_setBlock, if_neg hfail]

theorem isSpecial_union {t : BlockType} (t' : BlockType) (h : t.isSpecial = true) :
    (t.union t').isSpecial = true := by
  unfold BlockType.isSpecial at h ⊢
  unfold BlockType.union
  simp only [Bool.or_eq_true] at h ⊢
  tauto

theorem appends_emit (C : MozCompiler) (S : MozState) (op : Op) (hop : ¬ op.IsJump) :
    Appends C (mozCompilerEmit C S op) S.cur (emitted C S op) where
  decls := rfl
  blocks := rfl
  maxBlockId := rfl
  maxIrId := rfl
  addr := rfl
  insts b := insts_emit C S op b
  succs b s := by
    rw [(edges_emit C S op b).2]
    exact ⟨.inl, fun h => h.elim id fun h => absurd ⟨s, h.2⟩ hop⟩
  special b h := by
    rw [type_emit]
    split_ifs
    · exact isSpecial_union _ h
    · exact h
  handler := by
    rw [type_emit]
    split_ifs with h
    · simp [BlockType.isSpecial, BlockType.union, BlockType.blockHandler]
    · exact absurd rfl h
  entry b := by
    rw [type_emit]
    split_ifs
    · simp [BlockType.union, BlockType.blockHandler]
    · rfl
  stray b hcur hfail _ := mem_emit_of_ne C op hcur hfail

theorem appends_link (C : MozCompiler) (S : MozState) (bb : BlockId) :
    Appends C (mozCompilerLink C S S.cur bb) S.cur (emitted C S (.iJump bb)) where
  decls := rfl
  blocks := rfl
  maxBlockId := rfl
  maxIrId := rfl
  addr := rfl
  insts b := (insts_link C S S.cur bb b).trans (insts_emit C S _ b)
  succs b s := by
    unfold mozCompilerLink
    rw [mem_succs_blockLink, (edges_emit C S _ b).2]
    simp [emitted, eq_comm]
  special b h := by
    unfold mozCompilerLink
    rw [mem_blockLink]
    dsimp only
    rw [type_emit]
    split_ifs
    · exact isSpecial_union _ h
    · exact h
  handler := by
    unfold mozCompilerLink
    rw [mem_blockLink]
    dsimp only
    rw [type_emit]
    split_ifs with h
    · simp [BlockType.isSpecial, BlockType.union, BlockType.blockHandler]
    · exact absurd rfl h
  entry b := by
    unfold mozCompilerLink
    rw [mem_blockLink]
    dsimp only
    rw [type_emit]
    split_ifs
    · simp [BlockType.union, BlockType.blockHandler]
    · rfl
  stray b hcur hfail hjump := by
    have hne : b ≠ bb := fun heq => hjump (heq ▸ rfl)
    unfold mozCompilerLink
    rw [mem_blockLink, if_neg hcur, if_neg hne, mem_emit_of_ne C _ hcur hfail]

/-- A step that leaves the instructions and the edges alone. -/
theorem Shaped.edit {C' : MozCompiler} {E' : List BlockId} {O' : Multiset BlockId}
    (h : Shaped C E O) (hmem : ∀ b, (C'.mem b).insts = (C.mem b).insts ∧
      (C'.mem b).succs = (C.mem b).succs ∧
      ((C.mem b).type.isSpecial = true → (C'.mem b).type.isSpecial = true))
    (hblocks : ∀ b, b ∈ C'.blocks ↔ b ∈ C.blocks ∨ b ∈ O' ∧ b ∉ O) (hnodup : C'.blocks.Nodup)
    (hsub : ∀ b ∈ O, b ∈ O') (hopen : O'.Nodup) (hbound : ∀ b ∈ C'.blocks, b < C'.maxBlockId)
    (hlisted : ∀ b ∈ O', b ∉ O → b ∉ C.blocks)
    (hir : C'.maxIrId = C.maxIrId) (hstray : ∀ b ∉ C'.blocks, C'.mem b = C.mem b)
    (hentry : ∀ b, (C'.mem b).type.entry = true ↔ b ∈ E') : Shaped C' E' O' := by
  have hin : ∀ b ∈ C.blocks, b ∈ C'.blocks := fun b hb => (hblocks b).2 (.inl hb)
  have hnew : ∀ b ∈ C'.blocks, b ∉ C.blocks → (C.mem b).insts = [] := by
    intro b _ hout
    rw [h.stray b hout]
  constructor
  case toGraph =>
    constructor
    case nodup => exact hnodup
    case succs =>
      intro b s
      rw [(hmem b).2.1, (hmem b).1]
      exact h.succs b s
    case fails =>
      intro b hb x hx
      rw [(hmem b).1] at hx
      by_cases hold : b ∈ C.blocks
      · exact (h.fails b hold x hx).imp (hin _) (hmem _).2.2
      · rw [hnew b hb hold] at hx
        cases hx
    case targets =>
      intro b s hs
      rw [(hmem b).1] at hs
      exact (h.targets b s hs).imp (hin b) (hin s)
    case failing =>
      intro b hb x hx hop
      rw [(hmem b).1] at hx
      by_cases hold : b ∈ C.blocks
      · exact (hmem b).2.2 (h.failing b hold x hx hop)
      · rw [hnew b hb hold] at hx
        cases hx
    case jumps =>
      intro b b' x hx y hy
      rw [(hmem b).1] at hx
      rw [(hmem b').1] at hy
      exact h.jumps b b' x hx y hy
  case nodup_open => exact hopen
  case listed =>
    intro b hb
    by_cases hold : b ∈ O
    · exact hin b (h.listed b hold)
    · exact (hblocks b).2 (.inr ⟨hb, hold⟩)
  case bound => exact hbound
  case stray =>
    intro b hb
    rw [hstray b hb, h.stray b fun hold => hb (hin b hold)]
  case opened =>
    intro b hb
    rw [(hmem b).1]
    by_cases hold : b ∈ O
    · exact h.opened b hold
    · rw [h.stray b (hlisted b hb hold)]
      exact fun x hx => absurd hx List.not_mem_nil
  case closed =>
    intro b hb hout
    rw [(hmem b).1]
    rcases (hblocks b).1 hb with hold | ⟨hin', -⟩
    · exact h.closed b hold fun hmem => hout (hsub b hmem)
    · exact absurd hin' hout
  case addr_lt =>
    intro b x hx
    rw [(hmem b).1] at hx
    exact hir ▸ h.addr_lt b x hx
  case entries => exact hentry

theorem Shaped.fresh (h : Shaped C E O) : C.maxBlockId ∉ C.blocks :=
  fun hin => (h.bound _ hin).false

theorem Shaped.newBlock (h : Shaped C E O) (E' : List BlockId) (type : BlockType)
    (hE : ∀ b, b ∈ E' ↔ b ∈ E ∨ b = C.maxBlockId ∧ type.entry = true) :
    Shaped (mozCompilerCreateNamedBlock C type).1 E' ({C.maxBlockId} + O) := by
  have hfresh := h.fresh
  have hempty := h.stray _ hfresh
  have hout : C.maxBlockId ∉ O := fun hin => hfresh (h.listed _ hin)
  have hmem : ∀ b, (mozCompilerCreateNamedBlock C type).1.mem b =
      if b = C.maxBlockId then { type := type } else C.mem b := fun b => rfl
  have hblocks : (mozCompilerCreateNamedBlock C type).1.blocks = C.blocks ++ [C.maxBlockId] := rfl
  refine h.edit (fun b => ?_) (fun b => ?_) ?_ (fun b hb => Multiset.mem_add.2 (.inr hb)) ?_ ?_ ?_
    rfl (fun b hb => ?_) fun b => ?_
  · rw [hmem]
    split_ifs with hb
    · rw [hb, hempty]
      exact ⟨rfl, rfl, nofun⟩
    · exact ⟨rfl, rfl, id⟩
  · rw [hblocks, List.mem_append, List.mem_singleton, Multiset.mem_add, Multiset.mem_singleton]
    constructor
    · rintro (hb | rfl)
      · exact .inl hb
      · exact .inr ⟨.inl rfl, hout⟩
    · rintro (hb | ⟨hb | hb, hnot⟩)
      · exact .inl hb
      · exact .inr hb
      · exact absurd hb hnot
  · rw [hblocks]
    refine List.nodup_append.2 ⟨h.nodup, List.nodup_singleton _, fun b hb b' hb' => ?_⟩
    rintro rfl
    rw [List.mem_singleton.1 hb'] at hb
    exact hfresh hb
  · rw [Multiset.singleton_add, Multiset.nodup_cons]
    exact ⟨hout, h.nodup_open⟩
  · intro b hb
    rw [hblocks, List.mem_append, List.mem_singleton] at hb
    show b < C.maxBlockId + 1
    rcases hb with hb | rfl
    · exact (h.bound b hb).trans (Nat.lt_succ_self _)
    · exact Nat.lt_succ_self _
  · intro b hb hnot
    rw [Multiset.mem_add, Multiset.mem_singleton] at hb
    rw [hb.resolve_right hnot]
    exact hfresh
  · rw [hmem, if_neg]
    rintro rfl
    exact hb (hblocks ▸ List.mem_append_right _ (List.mem_singleton_self _))
  · rw [hmem, hE]
    split_ifs with hb
    · have hold : b ∉ E := fun hin => by
        have hentry := (h.entries b).2 hin
        rw [hb, hempty] at hentry
        cases hentry
      simp [hb, hb ▸ hold]
    · rw [h.entries b]
      simp [hb]

theorem Shaped.setType (h : Shaped C E O) (hbb : bb ∈ C.blocks) (type : BlockType)
    (htype : type.entry = false) : Shaped (C.blockSetType bb type) E O := by
  have hmem : ∀ b, (C.blockSetType bb type).mem b =
      if b = bb then { C.mem bb with type := (C.mem bb).type.union type } else C.mem b :=
    mem_setBlock C bb _
  refine h.edit (fun b => ?_) (fun b => ?_) h.nodup (fun b hb => hb) h.nodup_open h.bound ?_ rfl
    (fun b hb => ?_) fun b => ?_
  · rw [hmem]
    split_ifs with hb
    · rw [hb]
      exact ⟨rfl, rfl, isSpecial_union _⟩
    · exact ⟨rfl, rfl, id⟩
  · exact ⟨.inl, fun hb => hb.elim id fun hb => absurd hb.1 hb.2⟩
  · exact fun b hb hnot => absurd hb hnot
  · rw [hmem, if_neg]
    rintro rfl
    exact hb hbb
  · rw [hmem, ← h.entries b]
    split_ifs with hb
    · simp [BlockType.union, htype, hb]
    · rfl

theorem Shaped.pools {C' : MozCompiler} (h : Shaped C E O) (hmem : C'.mem = C.mem)
    (hblocks : C'.blocks = C.blocks) (hmax : C'.maxBlockId = C.maxBlockId)
    (hir : C'.maxIrId = C.maxIrId) : Shaped C' E O := by
  refine h.edit (fun b => by rw [hmem]; exact ⟨rfl, rfl, id⟩) (fun b => ?_) (hblocks ▸ h.nodup)
    (fun b hb => hb) h.nodup_open ?_ (fun b hb hnot => absurd hb hnot) hir
    (fun b _ => by rw [hmem]) fun b => by rw [hmem, h.entries b]
  · rw [hblocks]
    exact ⟨.inl, fun hb => hb.elim id fun hb => absurd hb.1 hb.2⟩
  · rw [hblocks, hmax]
    exact h.bound

theorem Shaped.emit (h : Shaped C E ({S.cur} + O)) (op : Op) (hfail : S.fail ∈ C.blocks)
    (hop : op.isTerminator = false) : Shaped (mozCompilerEmit C S op) E ({S.cur} + O) := by
  have hjump : ¬ op.IsJump := fun hjump => by
    rw [hjump.isTerminator] at hop
    cases hop
  have hstep := (appends_emit C S op hjump).shaped h hfail (fun s heq => absurd ⟨s, heq⟩ hjump)
    fun heq => by
      have hop' : op = .iFail := heq
      rw [hop'] at hop
      cases hop
  have hop' : (emitted C S op).op.isTerminator = false := hop
  rwa [hop', if_neg Bool.false_ne_true] at hstep

theorem Shaped.link (h : Shaped C E ({S.cur} + O)) (bb : BlockId) (hfail : S.fail ∈ C.blocks)
    (hbb : bb ∈ C.blocks) : Shaped (mozCompilerLink C S S.cur bb) E O := by
  have hstep := (appends_link C S bb).shaped h hfail (fun s heq => Op.iJump.inj heq ▸ hbb) nofun
  have hterm : (emitted C S (.iJump bb)).op.isTerminator = true := rfl
  rwa [if_pos hterm] at hstep

/-- The instruction that ends an exit block or the fail block of a production. -/
theorem Shaped.finish (h : Shaped C E ({S.cur} + O)) (hfail : S.fail ∈ C.blocks)
    (hop : op = .iRet ∨ op = .iFail ∧ (C.mem S.cur).type.isSpecial = true) :
    Shaped (mozCompilerEmit C S op) E O := by
  have hjump : ¬ op.IsJump := by
    rintro ⟨s, rfl⟩
    rcases hop with hop | ⟨hop, -⟩ <;> cases hop
  have hterm : (emitted C S op).op.isTerminator = true := by
    rcases hop with rfl | ⟨rfl, -⟩ <;> rfl
  have hstep := (appends_emit C S op hjump).shaped h hfail (fun s heq => absurd ⟨s, heq⟩ hjump)
    fun heq => by
      rcases hop with rfl | ⟨-, hspecial⟩
      · cases heq
      · exact hspecial
  rwa [if_pos hterm] at hstep

end Steps

mutual

/-- There is no `Fail`, and each `Choice` has an alternative: of an empty one the optimiser makes an
empty set. -/
def Expr.proper : Expr → Bool
  | .fail => false
  | .and expr | .not expr | .option expr => expr.proper
  | .choice list => !list.isEmpty && properList list
  | .sequence list | .repetition list => properList list
  | _ => true

def properList : List Expr → Bool
  | [] => true
  | x :: list => x.proper && properList list

end

/-- A lowering that takes the current block and leaves one open in its place. -/
structure Shapes (C : MozCompiler) (S : MozState) (E : List BlockId) (O : Multiset BlockId)
    (r : MozCompiler × MozState) : Prop where
  shaped : Shaped r.1 E ({r.2.cur} + O)
  blocks : C.blocks ⊆ r.1.blocks
  decls : r.1.decls = C.decls
  state : r.2 = { S with cur := r.2.cur }

def Closes (e : Expr) : Prop :=
  ∀ C S E O, Shaped C E ({S.cur} + O) → S.fail ∈ C.blocks → Shapes C S E O (mozExprToIr e C S)

section Constructs

variable {C : MozCompiler} {S : MozState} {E : List BlockId} {O : Multiset BlockId} {e x : Expr}
  {list : List Expr} {blocks : List BlockId} {bb next fail target : BlockId}

theorem Shaped.createBlock (h : Shaped C E O) :
    Shaped (Moz.Compiler.newBlock C) E ({C.maxBlockId} + O) :=
  h.newBlock E .blockDefault fun b => by simp [BlockType.blockDefault]

theorem mem_blocks_newBlock : C.maxBlockId ∈ (newBlock C).blocks :=
  List.mem_append_right _ (List.mem_singleton_self _)

theorem blocks_newBlock_subset : C.blocks ⊆ (newBlock C).blocks := List.subset_append_left _ _

theorem Shaped.createBlocks (h : Shaped C E O) (n : ℕ) :
    Shaped (mozCompilerCreateBlocks C n).1 E ((mozCompilerCreateBlocks C n).2 + O) ∧
      C.blocks ⊆ (mozCompilerCreateBlocks C n).1.blocks ∧
      (mozCompilerCreateBlocks C n).1.decls = C.decls := by
  induction n generalizing C O with
  | zero => exact ⟨by simpa [mozCompilerCreateBlocks] using h, List.Subset.refl _, rfl⟩
  | succ n ih =>
    obtain ⟨hshaped, hsub, hdecls⟩ := ih h.createBlock
    refine ⟨?_, List.Subset.trans blocks_newBlock_subset hsub, hdecls⟩
    have hcons : (((mozCompilerCreateBlocks C (n + 1)).2 : List BlockId) : Multiset BlockId) =
        {C.maxBlockId} + ((mozCompilerCreateBlocks (Moz.Compiler.newBlock C) n).2 :) := rfl
    rw [hcons, add_assoc, add_left_comm]
    exact hshaped

/-- `And` and `Not` up to the jump after the body. -/
theorem Closes.predicate (ih : Closes e) (h : Shaped C E ({S.cur} + O)) (hfail : S.fail ∈ C.blocks)
    (hnext : next = C.maxBlockId + 1 ∧ fail = C.maxBlockId + 2 ∨
      next = C.maxBlockId + 2 ∧ fail = C.maxBlockId + 1) :
    let r := mozPredicateToIr e C S next fail
    Shaped r.1 E ({next} + ({fail} + O)) ∧ C.blocks ⊆ r.1.blocks ∧ r.1.decls = C.decls ∧
      r.2.next = next ∧ r.2.fail = fail := by
  have h₁ : Shaped (newBlock (newBlock (newBlock C))) E
      ({C.maxBlockId + 2} + ({C.maxBlockId + 1} + ({C.maxBlockId} + ({S.cur} + O)))) :=
    h.createBlock.createBlock.createBlock
  have hblocks : (newBlock (newBlock (newBlock C))).blocks =
      C.blocks ++ [C.maxBlockId] ++ [C.maxBlockId + 1] ++ [C.maxBlockId + 2] := rfl
  have hdecls : (newBlock (newBlock (newBlock C))).decls = C.decls := rfl
  unfold mozPredicateToIr
  dsimp only
  generalize newBlock (newBlock (newBlock C)) = C₁ at *
  have hsub : C.blocks ⊆ C₁.blocks := fun b hb => by simp [hblocks, hb]
  have heq : ({C.maxBlockId + 2} + ({C.maxBlockId + 1} + ({C.maxBlockId} + ({S.cur} + O))) :
      Multiset BlockId) = {S.cur} + ({C.maxBlockId} + ({next} + ({fail} + O))) := by
    rcases hnext with ⟨rfl, rfl⟩ | ⟨rfl, rfl⟩ <;> abel
  rw [heq] at h₁
  have hin : next ∈ C₁.blocks ∧ fail ∈ C₁.blocks :=
    ⟨h₁.listed next (by simp), h₁.listed fail (by simp)⟩
  have h₂ := h₁.link _ (hsub hfail) (h₁.listed C.maxBlockId (by simp))
  have hblocks₂ : (mozCompilerLink C₁ S S.cur C.maxBlockId).blocks = C₁.blocks := rfl
  have hdecls₂ : (mozCompilerLink C₁ S S.cur C.maxBlockId).decls = C.decls := hdecls
  generalize mozCompilerLink C₁ S S.cur C.maxBlockId = C₂ at *
  have h₃ := h₂.emit (S := { S with cur := C.maxBlockId, next := next, fail := fail })
    .iPStore (hblocks₂ ▸ hin.2) rfl
  generalize hS₁ : ({ S with cur := C.maxBlockId, next := next, fail := fail } : MozState) = S₁ at *
  have hblocks₃ : (mozCompilerEmit C₂ S₁ .iPStore).blocks = C₂.blocks := rfl
  have hdecls₃ : (mozCompilerEmit C₂ S₁ .iPStore).decls = C.decls := hdecls₂
  generalize mozCompilerEmit C₂ S₁ .iPStore = C₃ at *
  have hstate : S₁.fail = fail ∧ S₁.next = next := by rw [← hS₁]; exact ⟨rfl, rfl⟩
  have h₄ := ih C₃ S₁ E _ h₃ (by rw [hblocks₃, hblocks₂, hstate.1]; exact hin.2)
  generalize mozExprToIr e C₃ S₁ = r at *
  have hfail₄ : r.2.fail = fail := by rw [h₄.state]; exact hstate.1
  have hnext₄ : r.2.next = next := by rw [h₄.state]; exact hstate.2
  have hmem : ∀ b ∈ C₁.blocks, b ∈ r.1.blocks := fun b hb =>
    h₄.blocks (by rwa [hblocks₃, hblocks₂])
  refine ⟨?_, ?_, h₄.decls.trans hdecls₃, hnext₄, hfail₄⟩
  · exact h₄.shaped.link _ (hfail₄ ▸ hmem fail hin.2) (hnext₄ ▸ hmem next hin.1)
  · exact fun b hb => hmem b (hsub hb)

theorem Closes.and (ih : Closes e) : Closes (.and e) := by
  intro C S E O h hfail
  rw [mozExprToIr_and]
  dsimp only
  obtain ⟨h₁, hsub, hdecls, hnext₁, hfail₁⟩ := ih.predicate h hfail (.inl ⟨rfl, rfl⟩)
  generalize mozPredicateToIr e C S (C.maxBlockId + 1) (C.maxBlockId + 2) = r at *
  have h₂ := Shaped.emit (S := { r.2 with cur := r.2.next, fail := S.fail })
    (by rwa [hnext₁]) .iPLoad (hsub hfail) rfl
  dsimp only at h₂
  have hblocks₂ : (mozCompilerEmit r.1 { r.2 with cur := r.2.next, fail := S.fail }
    .iPLoad).blocks = r.1.blocks := rfl
  have hdecls₂ : (mozCompilerEmit r.1 { r.2 with cur := r.2.next, fail := S.fail }
    .iPLoad).decls = C.decls := hdecls
  generalize mozCompilerEmit r.1 { r.2 with cur := r.2.next, fail := S.fail } .iPLoad = C₂ at *
  rw [hnext₁, add_left_comm] at h₂
  have h₃ := Shaped.link (S := { r.2 with cur := C.maxBlockId + 2, fail := C.maxBlockId + 2 })
    h₂ S.fail (h₂.listed _ (by simp)) (hblocks₂ ▸ hsub hfail)
  refine ⟨?_, fun b hb => hblocks₂ ▸ hsub hb, hdecls₂, rfl⟩
  rw [hnext₁]
  exact h₃

theorem Closes.notBlocks (ih : Closes e) (h : Shaped C E ({S.cur} + O)) (hfail : S.fail ∈ C.blocks) :
    Shapes C S E O (mozNotToBlocks e C S) := by
  rw [mozNotToBlocks_eq]
  dsimp only
  obtain ⟨h₁, hsub, hdecls, hnext₁, hfail₁⟩ := ih.predicate h hfail (.inr ⟨rfl, rfl⟩)
  generalize mozPredicateToIr e C S (C.maxBlockId + 2) (C.maxBlockId + 1) = r at *
  rw [← hnext₁, ← hfail₁] at h₁
  have h₂ := Shaped.link (S := { r.2 with cur := r.2.next }) h₁ S.fail
    (h₁.listed _ (by simp)) (hsub hfail)
  dsimp only at h₂
  have hblocks₂ : (mozCompilerLink r.1 { r.2 with cur := r.2.next } r.2.next S.fail).blocks =
    r.1.blocks := rfl
  have hdecls₂ : (mozCompilerLink r.1 { r.2 with cur := r.2.next } r.2.next S.fail).decls =
    C.decls := hdecls
  generalize mozCompilerLink r.1 { r.2 with cur := r.2.next } r.2.next S.fail = C₂ at *
  have h₃ := Shaped.emit (S := { r.2 with cur := r.2.fail, fail := S.fail }) h₂ .iPLoad
    (hblocks₂ ▸ hsub hfail) rfl
  exact ⟨h₃, fun b hb => hblocks₂ ▸ hsub hb, hdecls₂, rfl⟩

theorem Closes.optionBlocks (ih : Closes e) (h : Shaped C E ({S.cur} + O)) :
    Shapes C S E O (mozOptionToBlocks e C S) := by
  rw [mozOptionToBlocks_eq]
  dsimp only
  have h₁ := h.createBlock
  have hin : C.maxBlockId ∈ (newBlock C).blocks := mem_blocks_newBlock
  have hsub : C.blocks ⊆ (newBlock C).blocks := blocks_newBlock_subset
  have hdecls : (newBlock C).decls = C.decls := rfl
  generalize newBlock C = C₁ at *
  rw [add_left_comm] at h₁
  have h₂ := ih C₁ { S with next := C.maxBlockId, fail := C.maxBlockId } E _ h₁ hin
  generalize mozExprToIr e C₁ { S with next := C.maxBlockId, fail := C.maxBlockId } = r at *
  have hfail₂ : r.2.fail = C.maxBlockId := by rw [h₂.state]
  have hin₂ : r.2.fail ∈ r.1.blocks := hfail₂ ▸ h₂.blocks hin
  have h₃ := h₂.shaped.link _ hin₂ hin₂
  refine ⟨?_, fun b hb => h₂.blocks (hsub hb), h₂.decls.trans hdecls, rfl⟩
  rw [← hfail₂] at h₃
  exact h₃

def ClosesSequence (list : List Expr) : Prop :=
  ∀ (blocks : List BlockId) C S E O, blocks.length = list.length →
    Shaped C E ({S.cur} + ((blocks : Multiset BlockId) + O)) → S.fail ∈ C.blocks →
      Shapes C S E O (mozSequenceToIr list blocks C S)

theorem ClosesSequence.cons (hx : Closes x) (ih : ClosesSequence list) :
    ClosesSequence (x :: list) := by
  intro blocks C S E O hlength h hfail
  cases blocks with
  | nil => cases hlength
  | cons bb blocks =>
    rw [mozSequenceToIr]
    dsimp only [mozCompilerSetLabel, List.headD_cons, List.tail_cons]
    rw [← Multiset.cons_coe, ← Multiset.singleton_add, add_assoc] at h
    have h₁ := h.link _ hfail (h.listed bb (by simp))
    have hblocks₁ : (mozCompilerLink C S S.cur bb).blocks = C.blocks := rfl
    have hdecls₁ : (mozCompilerLink C S S.cur bb).decls = C.decls := rfl
    generalize mozCompilerLink C S S.cur bb = C₁ at *
    have h₂ := hx C₁ { S with cur := bb } E _ h₁ (hblocks₁ ▸ hfail)
    generalize mozExprToIr x C₁ { S with cur := bb } = r at *
    have hfail₂ : r.2.fail = S.fail := by rw [h₂.state]
    have h₃ := ih blocks r.1 r.2 E O (Nat.succ.inj hlength) h₂.shaped
      (hfail₂ ▸ h₂.blocks (hblocks₁ ▸ hfail))
    refine ⟨h₃.shaped, fun b hb => h₃.blocks (h₂.blocks (hblocks₁ ▸ hb)),
      h₃.decls.trans (h₂.decls.trans hdecls₁), ?_⟩
    rw [h₃.state, h₂.state]

theorem Closes.sequence (ih : ClosesSequence list) : Closes (.sequence list) := by
  intro C S E O h hfail
  rw [mozExprToIr_sequence]
  dsimp only
  have h₁ := h.createBlock
  have hsub₁ : C.blocks ⊆ (newBlock C).blocks := blocks_newBlock_subset
  have hdecls₁ : (newBlock C).decls = C.decls := rfl
  generalize newBlock C = C₁ at *
  obtain ⟨h₂, hsub₂, hdecls₂⟩ := h₁.createBlocks list.length
  have hlength : (mozCompilerCreateBlocks C₁ list.length).2.length = list.length :=
    (mozCompilerCreateBlocks_spec list.length C₁).2.2.1
  generalize mozCompilerCreateBlocks C₁ list.length = bs at *
  have heq : (bs.2 : Multiset BlockId) + ({C.maxBlockId} + ({S.cur} + O)) =
      {S.cur} + ((bs.2 : Multiset BlockId) + ({C.maxBlockId} + O)) := by abel
  rw [heq] at h₂
  have hsub : ∀ b ∈ C.blocks, b ∈ bs.1.blocks := fun b hb => hsub₂ (hsub₁ hb)
  have h₃ := ih bs.2 bs.1 { S with next := C.maxBlockId } E _ hlength h₂ (hsub _ hfail)
  generalize mozSequenceToIr list bs.2 bs.1 { S with next := C.maxBlockId } = r at *
  have hnext₃ : r.2.next = C.maxBlockId := by rw [h₃.state]
  have hfail₃ : r.2.fail = S.fail := by rw [h₃.state]
  have hin : C.maxBlockId ∈ r.1.blocks := h₃.shaped.listed _ (by simp)
  refine ⟨?_, fun b hb => h₃.blocks (hsub b hb), h₃.decls.trans (hdecls₂.trans hdecls₁), rfl⟩
  have h₄ := h₃.shaped.link r.2.next (hfail₃ ▸ h₃.blocks (hsub _ hfail)) (hnext₃ ▸ hin)
  rw [← hnext₃] at h₄
  exact h₄

/-- One alternative of a choice, or one element of a repetition, and the jump after it. -/
theorem Closes.element (hx : Closes x) (next : BlockId) (h : Shaped C E ({bb} + O)) (hfail : fail ∈ C.blocks)
    (htarget : target ∈ C.blocks) :
    let r := mozExprToIr x C { S with cur := bb, next := next, fail := fail }
    Shaped (mozCompilerLink r.1 r.2 r.2.cur target) E O ∧ C.blocks ⊆ r.1.blocks ∧
      r.1.decls = C.decls ∧ r.2.next = next ∧ r.2.head = S.head := by
  have h₁ := hx C { S with cur := bb, next := next, fail := fail } E O h hfail
  dsimp only
  generalize mozExprToIr x C { S with cur := bb, next := next, fail := fail } = r at *
  have hfail₁ : r.2.fail = fail := by rw [h₁.state]
  refine ⟨?_, h₁.blocks, h₁.decls, by rw [h₁.state], by rw [h₁.state]⟩
  exact h₁.shaped.link _ (hfail₁ ▸ h₁.blocks hfail) (h₁.blocks htarget)

/-- The blocks of the alternatives are used up, and each ends with a jump to `next`. -/
def ClosesChoice (list : List Expr) : Prop :=
  ∀ next last (blocks : List BlockId) C S E O, blocks.length = list.length →
    Shaped C E ((blocks : Multiset BlockId) + O) → last ∈ C.blocks → next ∈ C.blocks →
      let r := mozChoiceToIr next list (blocks ++ [last]) C S
      Shaped r.1 E O ∧ C.blocks ⊆ r.1.blocks ∧ r.1.decls = C.decls ∧ (list ≠ [] → r.2.next = next)

theorem headD_mem (hblocks : ∀ b ∈ blocks, b ∈ C.blocks) (hlast : bb ∈ C.blocks) :
    (blocks ++ [bb]).headD 0 ∈ C.blocks := by
  cases blocks with
  | nil => exact hlast
  | cons b blocks => exact hblocks b List.mem_cons_self

theorem ClosesChoice.cons (hx : Closes x) (ih : ClosesChoice list) : ClosesChoice (x :: list) := by
  intro next last blocks C S E O hlength h hlast hnext
  cases blocks with
  | nil => cases hlength
  | cons bb blocks =>
    rw [mozChoiceToIr]
    dsimp only [mozCompilerSetLabel, List.cons_append, List.headD_cons, List.tail_cons]
    rw [← Multiset.cons_coe, ← Multiset.singleton_add, add_assoc] at h
    have hfail : (blocks ++ [last]).headD 0 ∈ C.blocks :=
      headD_mem (fun b hb => h.listed b (by simp [hb])) hlast
    obtain ⟨h₁, hsub₁, hdecls₁, hnext₁, -⟩ := hx.element (S := S) next h hfail hnext
    generalize mozExprToIr x C _ = r at *
    rw [hnext₁]
    have hblocks₁ : (mozCompilerLink r.1 r.2 r.2.cur next).blocks = r.1.blocks := rfl
    have hdecls₁' : (mozCompilerLink r.1 r.2 r.2.cur next).decls = C.decls := hdecls₁
    generalize mozCompilerLink r.1 r.2 r.2.cur next = C₁ at *
    obtain ⟨h₂, hsub₂, hdecls₂, hnext₂⟩ := ih next last blocks C₁ r.2 E O (Nat.succ.inj hlength) h₁
      (hblocks₁ ▸ hsub₁ hlast) (hblocks₁ ▸ hsub₁ hnext)
    refine ⟨h₂, fun b hb => hsub₂ (hblocks₁ ▸ hsub₁ hb), hdecls₂.trans hdecls₁', fun _ => ?_⟩
    cases list with
    | nil =>
      rw [mozChoiceToIr]
      exact hnext₁
    | cons y list => exact hnext₂ (List.cons_ne_nil _ _)

theorem Closes.choice (hne : list ≠ []) (ih : ClosesChoice list) : Closes (.choice list) := by
  intro C S E O h hfail
  rw [mozExprToIr_choice]
  dsimp only
  obtain ⟨h₁, hsub₁, hdecls₁⟩ := h.createBlocks list.length
  have hlength : (mozCompilerCreateBlocks C list.length).2.length = list.length :=
    (mozCompilerCreateBlocks_spec list.length C).2.2.1
  generalize mozCompilerCreateBlocks C list.length = bs at *
  have h₂ := h₁.createBlock
  have hsub₂ : bs.1.blocks ⊆ (newBlock bs.1).blocks := blocks_newBlock_subset
  have hdecls₂ : (newBlock bs.1).decls = C.decls := hdecls₁
  have hin₂ : bs.1.maxBlockId ∈ (newBlock bs.1).blocks := mem_blocks_newBlock
  generalize newBlock bs.1 = C₂ at *
  have heq : ({bs.1.maxBlockId} + ((bs.2 : Multiset BlockId) + ({S.cur} + O)) :
      Multiset BlockId) = {S.cur} + ((bs.2 : Multiset BlockId) + ({bs.1.maxBlockId} + O)) := by abel
  rw [heq] at h₂
  have hsub : ∀ b ∈ C.blocks, b ∈ C₂.blocks := fun b hb => hsub₂ (hsub₁ hb)
  have hall : ∀ b ∈ bs.2, b ∈ C₂.blocks := fun b hb => h₂.listed b (by simp [hb])
  have h₃ := h₂.link _ (hsub _ hfail) (headD_mem hall (hsub _ hfail))
  have hblocks₃ : (mozCompilerLink C₂ S S.cur ((bs.2 ++ [S.fail]).headD 0)).blocks =
      C₂.blocks := rfl
  have hdecls₃ : (mozCompilerLink C₂ S S.cur ((bs.2 ++ [S.fail]).headD 0)).decls = C.decls := hdecls₂
  generalize mozCompilerLink C₂ S S.cur ((bs.2 ++ [S.fail]).headD 0) = C₃ at *
  obtain ⟨h₄, hsub₄, hdecls₄, hnext₄⟩ := ih bs.1.maxBlockId S.fail bs.2 C₃ S E _ hlength h₃
    (hblocks₃ ▸ hsub _ hfail) (hblocks₃ ▸ hin₂)
  refine ⟨?_, fun b hb => hsub₄ (hblocks₃ ▸ hsub b hb), hdecls₄.trans hdecls₃, rfl⟩
  rw [hnext₄ hne]
  exact h₄

/-- The blocks of the elements are used up; each ends with a jump to the next one, the last one with
a jump to `last`. -/
def ClosesRounds (list : List Expr) : Prop :=
  ∀ fail last (blocks : List BlockId) C S E O, blocks.length = list.length →
    Shaped C E ((blocks : Multiset BlockId) + O) → last ∈ C.blocks → fail ∈ C.blocks →
      let r := mozRepetitionToIr fail list (blocks ++ [last]) C S
      Shaped r.1 E O ∧ C.blocks ⊆ r.1.blocks ∧ r.1.decls = C.decls

theorem ClosesRounds.cons (hx : Closes x) (ih : ClosesRounds list) : ClosesRounds (x :: list) := by
  intro fail last blocks C S E O hlength h hlast hfail
  cases blocks with
  | nil => cases hlength
  | cons bb blocks =>
    rw [mozRepetitionToIr]
    dsimp only [mozCompilerSetLabel, List.cons_append, List.headD_cons, List.tail_cons]
    rw [← Multiset.cons_coe, ← Multiset.singleton_add, add_assoc] at h
    have htarget : (blocks ++ [last]).headD 0 ∈ C.blocks :=
      headD_mem (fun b hb => h.listed b (by simp [hb])) hlast
    obtain ⟨h₁, hsub₁, hdecls₁, -⟩ := hx.element (S := S) _ h hfail htarget
    generalize mozExprToIr x C _ = r at *
    have hblocks₁ : (mozCompilerLink r.1 r.2 r.2.cur ((blocks ++ [last]).headD 0)).blocks =
      r.1.blocks := rfl
    have hdecls₁' : (mozCompilerLink r.1 r.2 r.2.cur ((blocks ++ [last]).headD 0)).decls =
      C.decls := hdecls₁
    generalize mozCompilerLink r.1 r.2 r.2.cur _ = C₁ at *
    obtain ⟨h₂, hsub₂, hdecls₂⟩ := ih fail last blocks C₁ r.2 E O (Nat.succ.inj hlength) h₁
      (hblocks₁ ▸ hsub₁ hlast) (hblocks₁ ▸ hsub₁ hfail)
    exact ⟨h₂, fun b hb => hsub₂ (hblocks₁ ▸ hsub₁ hb), hdecls₂.trans hdecls₁'⟩

theorem ClosesRounds.repetitionBlocks (ih : ClosesRounds list) (h : Shaped C E ({S.cur} + O)) :
    Shapes C S E O (mozRepetitionToBlocks list C S) := by
  rw [mozRepetitionToBlocks_eq]
  dsimp only
  obtain ⟨h₁, hsub₁, hdecls₁⟩ := h.createBlocks list.length
  have hlength : (mozCompilerCreateBlocks C list.length).2.length = list.length :=
    (mozCompilerCreateBlocks_spec list.length C).2.2.1
  generalize mozCompilerCreateBlocks C list.length = bs at *
  have hcur := hsub₁ (h.listed S.cur (by simp))
  have h₂ := (h₁.setType hcur .blockLoopHead rfl).createBlock
  have hsub₂ : bs.1.blocks ⊆ (newBlock (bs.1.blockSetType S.cur .blockLoopHead)).blocks :=
    blocks_newBlock_subset
  have hdecls₂ : (newBlock (bs.1.blockSetType S.cur .blockLoopHead)).decls = C.decls := hdecls₁
  have hin₂ : bs.1.maxBlockId ∈ (newBlock (bs.1.blockSetType S.cur .blockLoopHead)).blocks :=
    mem_blocks_newBlock
  have hmax : (bs.1.blockSetType S.cur .blockLoopHead).maxBlockId = bs.1.maxBlockId := rfl
  rw [hmax] at h₂
  generalize newBlock (bs.1.blockSetType S.cur .blockLoopHead) = C₂ at *
  have heq : ({bs.1.maxBlockId} + ((bs.2 : Multiset BlockId) + ({S.cur} + O)) :
      Multiset BlockId) = {S.cur} + ((bs.2 : Multiset BlockId) + ({bs.1.maxBlockId} + O)) := by abel
  rw [heq] at h₂
  have hcur₂ : S.cur ∈ C₂.blocks := hsub₂ hcur
  have hall : ∀ b ∈ bs.2, b ∈ C₂.blocks := fun b hb => h₂.listed b (by simp [hb])
  have h₃ := Shaped.link (S := { S with fail := bs.1.maxBlockId }) h₂ _ hin₂ (headD_mem hall hcur₂)
  dsimp only at h₃
  have hblocks₃ : (mozCompilerLink C₂ { S with fail := bs.1.maxBlockId } S.cur
    ((bs.2 ++ [S.cur]).headD 0)).blocks = C₂.blocks := rfl
  have hdecls₃ : (mozCompilerLink C₂ { S with fail := bs.1.maxBlockId } S.cur
    ((bs.2 ++ [S.cur]).headD 0)).decls = C.decls := hdecls₂
  generalize mozCompilerLink C₂ { S with fail := bs.1.maxBlockId } S.cur
    ((bs.2 ++ [S.cur]).headD 0) = C₃ at *
  obtain ⟨h₄, hsub₄, hdecls₄⟩ := ih bs.1.maxBlockId S.cur bs.2 C₃ { S with fail := bs.1.maxBlockId }
    E _ hlength h₃ (hblocks₃ ▸ hcur₂) (hblocks₃ ▸ hin₂)
  exact ⟨h₄, fun b hb => hsub₄ (hblocks₃ ▸ hsub₂ (hsub₁ hb)), hdecls₄.trans hdecls₃, rfl⟩

theorem closes_emit {op : Op} (hop : op.isTerminator = false)
    (he : ∀ C S, mozExprToIr e C S = (mozCompilerEmit C S op, S)) : Closes e := by
  intro C S E O h hfail
  rw [he]
  exact ⟨h.emit op hfail hop, List.Subset.refl _, rfl, rfl⟩

/-- An instruction with a constant, which `add` puts into its pool. -/
theorem closes_pool (add : MozCompiler → MozCompiler × UInt16) {op : UInt16 → Op}
    (hadd : ∀ C, (add C).1.mem = C.mem ∧ (add C).1.blocks = C.blocks ∧
      (add C).1.maxBlockId = C.maxBlockId ∧ (add C).1.maxIrId = C.maxIrId ∧
      (add C).1.decls = C.decls)
    (hop : ∀ id, (op id).isTerminator = false)
    (he : ∀ C S, mozExprToIr e C S = (mozCompilerEmit (add C).1 S (op (add C).2), S)) :
    Closes e := by
  intro C S E O h hfail
  obtain ⟨hmem, hblocks, hmax, hir, hdecls⟩ := hadd C
  rw [he]
  refine ⟨(h.pools hmem hblocks hmax hir).emit _ (hblocks ▸ hfail) (hop _), ?_, hdecls, rfl⟩
  exact fun b hb => hblocks ▸ hb

theorem closes_set {set : Bitset} {op : UInt16 → Op} (hop : ∀ id, (op id).isTerminator = false)
    (he : ∀ C S, mozExprToIr e C S =
      (mozCompilerEmit (mozCompilerAddSet C set).1 S (op (mozCompilerAddSet C set).2), S)) :
    Closes e := by
  refine closes_pool (fun C => mozCompilerAddSet C set) (fun C => ?_) hop he
  unfold mozCompilerAddSet
  split <;> exact ⟨rfl, rfl, rfl, rfl, rfl⟩

theorem closes_string {text : List UInt8} {op : UInt16 → Op}
    (hop : ∀ id, (op id).isTerminator = false)
    (he : ∀ C S, mozExprToIr e C S =
      (mozCompilerEmit (mozCompilerAddString C text).1 S (op (mozCompilerAddString C text).2), S)) :
    Closes e :=
  closes_pool (fun C => mozCompilerAddString C text) (fun _ => ⟨rfl, rfl, rfl, rfl, rfl⟩) hop he

theorem closes_tag {name : List UInt8} {op : UInt16 → Op}
    (hop : ∀ id, (op id).isTerminator = false)
    (he : ∀ C S, mozExprToIr e C S =
      (mozCompilerEmit (mozCompilerAddTag C name).1 S (op (mozCompilerAddTag C name).2), S)) :
    Closes e :=
  closes_pool (fun C => mozCompilerAddTag C name) (fun _ => ⟨rfl, rfl, rfl, rfl, rfl⟩) hop he

end Constructs

mutual

theorem closes : ∀ e : Expr, e.proper = true → Closes e
  | .empty, _ => fun _ _ _ _ h _ => ⟨h, List.Subset.refl _, rfl, rfl⟩
  | .todo _, _ => fun _ _ _ _ h _ => ⟨h, List.Subset.refl _, rfl, rfl⟩
  | .invoke _, _ => closes_emit rfl fun _ _ => rfl
  | .any, _ => closes_emit rfl fun _ _ => rfl
  | .byte _, _ => closes_emit rfl fun _ _ => rfl
  | .str _, _ => closes_string (fun _ => rfl) fun _ _ => rfl
  | .set _, _ => closes_set (fun _ => rfl) fun _ _ => rfl
  | .fail, hproper => by cases hproper
  | .and e, hproper => (closes e hproper).and
  | .not e, hproper => by
    cases he : (Expr.not e).specialised with
    | false =>
      intro C S E O h hfail
      rw [mozExprToIr_of_not_specialised he]
      exact (closes e hproper).notBlocks h hfail
    | true =>
      cases e with
      | any => exact closes_emit rfl fun _ _ => rfl
      | _ => cases he
  | .option e, hproper => by
    cases he : (Expr.option e).specialised with
    | false =>
      intro C S E O h hfail
      rw [mozExprToIr_of_not_specialised he]
      exact (closes e hproper).optionBlocks h
    | true =>
      cases e with
      | byte => exact closes_emit rfl fun _ _ => rfl
      | str => exact closes_string (fun _ => rfl) fun _ _ => rfl
      | set => exact closes_set (fun _ => rfl) fun _ _ => rfl
      | _ => cases he
  | .choice list, hproper => by
    rw [Expr.proper, Bool.and_eq_true] at hproper
    refine .choice ?_ (closesChoice list hproper.2)
    rintro rfl
    cases hproper.1
  | .sequence list, hproper => .sequence (closesSequence list hproper)
  | .repetition list, hproper => by
    cases he : (Expr.repetition list).specialised with
    | false =>
      intro C S E O h hfail
      rw [mozExprToIr_of_not_specialised he]
      exact (closesRounds list hproper).repetitionBlocks h
    | true =>
      match list, he with
      | [], he => cases he
      | _ :: _ :: _, he => exact absurd he (by simp [Expr.specialised])
      | [x], he =>
        cases x with
        | any => exact closes_emit rfl fun _ _ => rfl
        | byte => exact closes_emit rfl fun _ _ => rfl
        | str => exact closes_string (fun _ => rfl) fun _ _ => rfl
        | set => exact closes_set (fun _ => rfl) fun _ _ => rfl
        | _ => cases he
  | .tcapture, _ => closes_emit rfl fun _ _ => rfl
  | .tpush, _ => closes_emit rfl fun _ _ => rfl
  | .tpop _, _ => closes_tag (fun _ => rfl) fun _ _ => rfl
  | .tnew, _ => closes_emit rfl fun _ _ => rfl
  | .ttag _, _ => closes_tag (fun _ => rfl) fun _ _ => rfl

theorem closesSequence : ∀ list : List Expr, properList list = true → ClosesSequence list
  | [], _ => fun blocks C S E O hlength h _ => by
    obtain rfl := List.length_eq_zero_iff.1 hlength
    rw [mozSequenceToIr]
    exact ⟨by simpa using h, List.Subset.refl _, rfl, rfl⟩
  | x :: list, hproper => by
    rw [properList, Bool.and_eq_true] at hproper
    exact .cons (closes x hproper.1) (closesSequence list hproper.2)

theorem closesChoice : ∀ list : List Expr, properList list = true → ClosesChoice list
  | [], _ => fun next last blocks C S E O hlength h _ _ => by
    obtain rfl := List.length_eq_zero_iff.1 hlength
    rw [mozChoiceToIr]
    exact ⟨by simpa using h, List.Subset.refl _, rfl, fun hne => absurd rfl hne⟩
  | x :: list, hproper => by
    rw [properList, Bool.and_eq_true] at hproper
    exact .cons (closes x hproper.1) (closesChoice list hproper.2)

theorem closesRounds : ∀ list : List Expr, properList list = true → ClosesRounds list
  | [], _ => fun fail last blocks C S E O hlength h _ _ => by
    obtain rfl := List.length_eq_zero_iff.1 hlength
    rw [mozRepetitionToIr]
    exact ⟨by simpa using h, List.Subset.refl _, rfl⟩
  | x :: list, hproper => by
    rw [properList, Bool.and_eq_true] at hproper
    exact .cons (closes x hproper.1) (closesRounds list hproper.2)

end

/-- The entry blocks are those of the productions that are still referenced. -/
structure Entered (decls : List Decl) (E : List BlockId) : Prop where
  entry_of_live : ∀ d ∈ decls, 0 < d.refc → ∃ e ∈ E, d.inst = some e
  live_of_entry : ∀ e ∈ E, ∃ d ∈ decls, 0 < d.refc ∧ d.inst = some e

section Productions

variable {C : MozCompiler} {E : List BlockId} {decl : Decl}

theorem mozStateInit_shaped (h : Shaped C E 0) : Shaped (mozStateInit C).1 (C.maxBlockId :: E)
    ({C.maxBlockId} + ({C.maxBlockId + 1} + ({C.maxBlockId + 2} + 0))) := by
  have h₁ := h.newBlock (C.maxBlockId :: E) .blockEntry fun b => by
    simp [BlockType.blockEntry, or_comm]
  have h₂ := h₁.newBlock (C.maxBlockId :: E) .blockExit fun b => by
    simp [BlockType.blockExit]
  have h₃ := h₂.newBlock (C.maxBlockId :: E) .blockFail fun b => by
    simp [BlockType.blockFail]
  have heq : ({C.maxBlockId} + ({C.maxBlockId + 1} + ({C.maxBlockId + 2} + 0)) :
      Multiset BlockId) = {C.maxBlockId + 2} + ({C.maxBlockId + 1} + ({C.maxBlockId} + 0)) := by
    abel
  rw [heq]
  exact h₃

theorem mozDeclToIr_shaped (h : Shaped C E 0) (d : ℕ) (hproper : decl.body.proper = true) :
    Shaped (mozDeclToIr C d decl) (C.maxBlockId :: E) 0 ∧
      (mozDeclToIr C d decl).decls = C.decls.set d { decl with inst := some C.maxBlockId } := by
  have h₁ := mozStateInit_shaped h
  have hdecls₁ : (mozStateInit C).1.decls = C.decls := rfl
  have hstate : (mozStateInit C).2 =
    ⟨C.maxBlockId, C.maxBlockId, C.maxBlockId + 1, C.maxBlockId + 2⟩ := rfl
  unfold mozDeclToIr mozBodyToIr
  dsimp only [mozCompilerSetLabel]
  rw [hstate]
  dsimp only
  generalize (mozStateInit C).1 = C₁ at *
  have hnext := h₁.listed (C.maxBlockId + 1) (by simp)
  have hfail := h₁.listed (C.maxBlockId + 2) (by simp)
  have h₂ := closes decl.body hproper C₁
    ⟨C.maxBlockId, C.maxBlockId, C.maxBlockId + 1, C.maxBlockId + 2⟩ _ _ h₁ hfail
  generalize mozExprToIr decl.body C₁ _ = r at *
  have hnext₂ : r.2.next = C.maxBlockId + 1 := by rw [h₂.state]
  have hfail₂ : r.2.fail = C.maxBlockId + 2 := by rw [h₂.state]
  have hhead₂ : r.2.head = C.maxBlockId := by rw [h₂.state]
  have hin₂ : r.2.fail ∈ r.1.blocks := hfail₂ ▸ h₂.blocks hfail
  have h₃ := h₂.shaped.link _ hin₂ (hnext₂ ▸ h₂.blocks hnext)
  have hblocks₃ : (mozCompilerLink r.1 r.2 r.2.cur r.2.next).blocks = r.1.blocks := rfl
  have hdecls₃ : (mozCompilerLink r.1 r.2 r.2.cur r.2.next).decls = r.1.decls := rfl
  generalize mozCompilerLink r.1 r.2 r.2.cur r.2.next = C₃ at *
  have h₄ := Shaped.finish (S := { r.2 with cur := r.2.next }) (by rwa [hnext₂])
    (hblocks₃ ▸ hin₂) (.inl rfl)
  have hspecial := (appends_emit C₃ { r.2 with cur := r.2.next } .iRet nofun).handler
  have hblocks₄ : (mozCompilerEmit C₃ { r.2 with cur := r.2.next } .iRet).blocks = C₃.blocks := rfl
  have hdecls₄ : (mozCompilerEmit C₃ { r.2 with cur := r.2.next } .iRet).decls = C₃.decls := rfl
  have hemitted : (emitted C₃ { r.2 with cur := r.2.next } .iRet).fail = r.2.fail := rfl
  rw [hemitted] at hspecial
  generalize mozCompilerEmit C₃ { r.2 with cur := r.2.next } .iRet = C₄ at *
  have h₅ := Shaped.finish (S := { r.2 with cur := r.2.fail }) (by rwa [hfail₂])
    (by rwa [hblocks₄, hblocks₃]) (.inr ⟨rfl, hspecial⟩)
  have hdecls₅ : (mozCompilerEmit C₄ { r.2 with cur := r.2.fail } .iFail).decls = C₄.decls := rfl
  generalize mozCompilerEmit C₄ { r.2 with cur := r.2.fail } .iFail = C₅ at *
  refine ⟨h₅.pools rfl rfl rfl rfl, ?_⟩
  rw [hhead₂, hdecls₅, hdecls₄, hdecls₃, h₂.decls, hdecls₁]

/-- The loop over the productions, of which `pre` are done. -/
theorem foldl_mozDeclToIr_shaped (list : List Decl) (hproper : ∀ d ∈ list, 0 < d.refc →
      d.body.proper = true) (pre : List Decl) (hC : Shaped C E 0) (hdecls : C.decls = pre ++ list)
    (hpre : Entered pre E) :
    let C' := (list.zipIdx pre.length).foldl
      (fun C (decl, d) => if 0 < decl.refc then mozDeclToIr C d decl else C) C
    ∃ E', Shaped C' E' 0 ∧ Entered C'.decls E' := by
  induction list generalizing pre C E with
  | nil =>
    refine ⟨E, hC, ?_⟩
    rw [List.append_nil] at hdecls
    rwa [← hdecls] at hpre
  | cons decl list ih =>
    have hrest : ∀ d ∈ list, 0 < d.refc → d.body.proper = true := fun d hd =>
      hproper d (List.mem_cons_of_mem _ hd)
    rw [List.zipIdx_cons, List.foldl_cons]
    dsimp only
    split_ifs with hlive
    · obtain ⟨hshaped, hset⟩ := mozDeclToIr_shaped hC pre.length
        (hproper decl List.mem_cons_self hlive)
      have hdecls' : (mozDeclToIr C pre.length decl).decls =
          (pre ++ [{ decl with inst := some C.maxBlockId }]) ++ list := by
        rw [hset, hdecls]
        simp
      have hentered : Entered (pre ++ [{ decl with inst := some C.maxBlockId }])
          (C.maxBlockId :: E) := by
        constructor
        · intro d hd hrefc
          rcases List.mem_append.1 hd with hd | hd
          · obtain ⟨e, he, hinst⟩ := hpre.entry_of_live d hd hrefc
            exact ⟨e, List.mem_cons_of_mem _ he, hinst⟩
          · rw [List.mem_singleton.1 hd]
            exact ⟨_, List.mem_cons_self, rfl⟩
        · intro e he
          rcases List.mem_cons.1 he with rfl | he
          · exact ⟨_, List.mem_append_right _ (List.mem_singleton_self _), hlive, rfl⟩
          · obtain ⟨d, hd, hentry⟩ := hpre.live_of_entry e he
            exact ⟨d, List.mem_append_left _ hd, hentry⟩
      have hnext := ih hrest _ hshaped hdecls' hentered
      rwa [List.length_append] at hnext
    · have hentered : Entered (pre ++ [decl]) E := by
        constructor
        · intro d hd hrefc
          rcases List.mem_append.1 hd with hd | hd
          · exact hpre.entry_of_live d hd hrefc
          · rw [List.mem_singleton.1 hd] at hrefc
            exact absurd hrefc hlive
        · intro e he
          obtain ⟨d, hd, hentry⟩ := hpre.live_of_entry e he
          exact ⟨d, List.mem_append_left _ hd, hentry⟩
      have hnext := ih hrest (pre ++ [decl]) hC (by rw [hdecls]; simp) hentered
      rwa [List.length_append] at hnext

/-- Before any production is lowered there are no blocks. -/
theorem shaped_start (hmem : ∀ b, C.mem b = {}) (hblocks : C.blocks = []) : Shaped C [] 0 := by
  constructor
  case toGraph =>
    constructor <;> simp [hmem, hblocks, JumpsTo]
  all_goals simp [hmem, hblocks, Unclosed]

theorem mozAstToIr_shaped (hmem : ∀ b, C.mem b = {}) (hblocks : C.blocks = [])
    (hproper : ∀ d ∈ C.decls, 0 < d.refc → d.body.proper = true) :
    ∃ E, Shaped (mozAstToIr C) E 0 ∧ Entered (mozAstToIr C).decls E :=
  foldl_mozDeclToIr_shaped C.decls hproper [] (shaped_start hmem hblocks) rfl ⟨nofun, nofun⟩

end Productions

end Moz.Compiler
