import Moz.Compiler.Layout

/-!
# Lowering only adds code

A step of the lowering adds instructions at the end of the block it writes to and
of blocks it has created, and constants at the end of the pools. So what a
construct has emitted stays where it is, and the code of an expression lies in
every later compiler as `Placed` says.
-/

namespace Moz.Compiler

/-- What may happen to a compiler when code is added to the blocks of `touched` and to new ones. -/
structure Grows (touched : List BlockId) (C C' : MozCompiler) : Prop where
  maxBlockId : C.maxBlockId ≤ C'.maxBlockId
  insts : ∀ bb < C.maxBlockId, C.insts bb <+: C'.insts bb
  other : ∀ bb < C.maxBlockId, bb ∉ touched → C'.insts bb = C.insts bb
  strs : C.strs <+: C'.strs
  sets : C.sets <+: C'.sets
  tags : C.tags <+: C'.tags
  decls : C'.decls = C.decls

/-- `F` has all the code and the constants of `C`. -/
structure Later (C F : MozCompiler) : Prop where
  insts : ∀ bb < C.maxBlockId, C.insts bb <+: F.insts bb
  strs : C.strs <+: F.strs
  sets : C.sets <+: F.sets
  tags : C.tags <+: F.tags

/-- The code that `F` has in a block after the code of `C`. -/
def MozCompiler.rest (F C : MozCompiler) (bb : BlockId) : List Ir :=
  (F.insts bb).drop (C.insts bb).length

section Growing

variable {touched touched' : List BlockId} {C C' C'' F : MozCompiler} {bb : BlockId}

theorem Grows.refl (touched : List BlockId) (C : MozCompiler) : Grows touched C C where
  maxBlockId := le_rfl
  insts _ _ := List.prefix_rfl
  other _ _ _ := rfl
  strs := List.prefix_rfl
  sets := List.prefix_rfl
  tags := List.prefix_rfl
  decls := rfl

theorem Grows.trans (h : Grows touched C C') (h' : Grows touched' C' C'')
    (hsub : ∀ bb ∈ touched', bb ∈ touched ∨ C.maxBlockId ≤ bb) : Grows touched C C'' where
  maxBlockId := h.maxBlockId.trans h'.maxBlockId
  insts bb hbb := (h.insts bb hbb).trans (h'.insts bb (hbb.trans_le h.maxBlockId))
  other bb hbb hout := by
    have hout' : bb ∉ touched' := fun hin => (hsub bb hin).elim hout fun hle => by omega
    rw [h'.other bb (hbb.trans_le h.maxBlockId) hout', h.other bb hbb hout]
  strs := h.strs.trans h'.strs
  sets := h.sets.trans h'.sets
  tags := h.tags.trans h'.tags
  decls := h'.decls.trans h.decls

theorem Grows.trans_same (h : Grows touched C C') (h' : Grows touched C' C'') :
    Grows touched C C'' :=
  h.trans h' fun _ hbb => .inl hbb

/-- Code is added to a block that was created in the meantime. -/
theorem Grows.trans_new (h : Grows touched C C') (h' : Grows [bb] C' C'')
    (hnew : C.maxBlockId ≤ bb) : Grows touched C C'' :=
  h.trans h' fun _ hb => .inr (List.mem_singleton.1 hb ▸ hnew)

theorem Grows.trans_none (h : Grows touched C C') (h' : Grows [] C' C'') : Grows touched C C'' :=
  h.trans h' fun _ hb => absurd hb List.not_mem_nil

theorem Grows.later (h : Grows touched C C') (h' : Later C' F) : Later C F where
  insts bb hbb := (h.insts bb hbb).trans (h'.insts bb (hbb.trans_le h.maxBlockId))
  strs := h.strs.trans h'.strs
  sets := h.sets.trans h'.sets
  tags := h.tags.trans h'.tags

theorem Later.insts_eq (h : Later C F) (hbb : bb < C.maxBlockId) :
    F.insts bb = C.insts bb ++ F.rest C bb :=
  (List.prefix_iff_eq_append.1 (h.insts bb hbb)).symm

theorem rest_congr (h : C'.insts bb = C.insts bb) : F.rest C' bb = F.rest C bb := by
  unfold MozCompiler.rest
  rw [h]

theorem rest_of_nil (h : C.insts bb = []) : F.rest C bb = F.insts bb := by
  unfold MozCompiler.rest
  rw [h]
  rfl

theorem Grows.rest_eq (h : Grows touched C C') (hbb : bb < C.maxBlockId) (hout : bb ∉ touched) :
    F.rest C' bb = F.rest C bb :=
  rest_congr (h.other bb hbb hout)

end Growing

section Primitives

variable (C : MozCompiler) (S : MozState) (op : Op) (touched : List BlockId)

theorem insts_setBlock (bb : BlockId) (block : Block) (b : BlockId) :
    (C.setBlock bb block).insts b = if b = bb then block.insts else C.insts b := by
  exact apply_ite Block.insts (b = bb) block (C.mem b)

theorem insts_blockSetType (bb : BlockId) (type : BlockType) (b : BlockId) :
    (C.blockSetType bb type).insts b = C.insts b := by
  rw [MozCompiler.blockSetType, insts_setBlock]
  split_ifs with h
  · rw [h]
    rfl
  · rfl

theorem insts_blockLink (pred succ b : BlockId) : (C.blockLink pred succ).insts b = C.insts b := by
  rw [MozCompiler.blockLink, insts_setBlock]
  split_ifs with h
  · rw [h]
    exact (insts_setBlock C pred _ succ).trans (by split_ifs with h' <;> simp [h', MozCompiler.insts])
  · rw [insts_setBlock]
    split_ifs with h'
    · rw [h']
      rfl
    · rfl

/-- The instruction that `IR_ALLOC` makes. -/
def emitted : Ir where
  addr := C.maxIrId
  id := UInt32.ofNat C.maxIrId
  parent := S.cur
  fail := S.fail
  op := op

theorem insts_emit (b : BlockId) : (mozCompilerEmit C S op).insts b =
    if b = S.cur then C.insts b ++ [emitted C S op] else C.insts b := by
  have htype := insts_blockSetType { C with maxIrId := C.maxIrId + 1 } S.fail .blockHandler
  unfold mozCompilerEmit mozCompilerAdd MozCompiler.blockAppend
  rw [insts_setBlock]
  split_ifs with h
  · rw [h]
    exact congrArg (· ++ [emitted C S op]) (htype S.cur)
  · exact htype b

theorem insts_link (bb1 bb2 b : BlockId) :
    (mozCompilerLink C S bb1 bb2).insts b = (mozCompilerEmit C S (.iJump bb2)).insts b :=
  insts_blockLink _ _ _ _

/-- `moz_compiler_create_block`; the block is `C.maxBlockId`. -/
def newBlock : MozCompiler := (mozCompilerCreateBlock C).1

theorem insts_newBlock (b : BlockId) :
    (newBlock C).insts b = if b = C.maxBlockId then [] else C.insts b :=
  insts_setBlock _ _ _ _

@[simp] theorem maxBlockId_newBlock : (newBlock C).maxBlockId = C.maxBlockId + 1 := rfl

@[simp] theorem maxBlockId_emit : (mozCompilerEmit C S op).maxBlockId = C.maxBlockId := rfl

@[simp] theorem maxBlockId_link (bb1 bb2 : BlockId) :
    (mozCompilerLink C S bb1 bb2).maxBlockId = C.maxBlockId := rfl

theorem grows_newBlock : Grows touched C (newBlock C) where
  maxBlockId := Nat.le_succ _
  insts bb hbb := by rw [insts_newBlock, if_neg hbb.ne]
  other bb hbb _ := by rw [insts_newBlock, if_neg hbb.ne]
  strs := List.prefix_rfl
  sets := List.prefix_rfl
  tags := List.prefix_rfl
  decls := rfl

theorem grows_emit : Grows [S.cur] C (mozCompilerEmit C S op) where
  maxBlockId := le_rfl
  insts bb _ := by
    rw [insts_emit]
    split_ifs
    · exact List.prefix_append _ _
    · exact List.prefix_rfl
  other bb _ hout := by rw [insts_emit, if_neg (by simpa using hout)]
  strs := List.prefix_rfl
  sets := List.prefix_rfl
  tags := List.prefix_rfl
  decls := rfl

theorem grows_link (bb1 bb2 : BlockId) : Grows [S.cur] C (mozCompilerLink C S bb1 bb2) where
  maxBlockId := le_rfl
  insts bb hbb := by
    rw [insts_link]
    exact (grows_emit C S _).insts bb hbb
  other bb hbb hout := by
    rw [insts_link]
    exact (grows_emit C S _).other bb hbb hout
  strs := List.prefix_rfl
  sets := List.prefix_rfl
  tags := List.prefix_rfl
  decls := rfl

variable {C S op} {F : MozCompiler}

/-- The code that is left begins with the instruction that is added. -/
theorem begins_emit (hcur : S.cur < C.maxBlockId) (h : Later (mozCompilerEmit C S op) F) :
    Begins op S.fail (F.rest C S.cur) (F.rest (mozCompilerEmit C S op) S.cur) := by
  refine ⟨emitted C S op, rfl, rfl, ?_⟩
  have heq := h.insts_eq hcur
  have hlater := ((grows_emit C S op).later h).insts_eq hcur
  rw [heq, insts_emit, if_pos rfl, List.append_assoc] at hlater
  exact (List.append_cancel_left hlater).symm

theorem jumps_link {bb1 bb2 : BlockId} (hcur : S.cur < C.maxBlockId)
    (h : Later (mozCompilerLink C S bb1 bb2) F) : Jumps (F.rest C S.cur) bb2 := by
  have hlater : Later (mozCompilerEmit C S (.iJump bb2)) F := by
    refine ⟨fun bb hbb => ?_, h.strs, h.sets, h.tags⟩
    rw [← insts_link C S bb1 bb2]
    exact h.insts bb hbb
  exact ⟨_, _, begins_emit hcur hlater⟩

end Primitives

section Constants

variable {ary ary' : List (List UInt8)} {name : List UInt8}

theorem mozCompilerAddStringId_prefix : ary <+: (mozCompilerAddStringId ary name).1 := by
  unfold mozCompilerAddStringId
  split
  · exact List.prefix_rfl
  · exact List.prefix_append _ _

theorem mozCompilerAddStringId_later (h : (mozCompilerAddStringId ary name).1 <+: ary') :
    (mozCompilerAddStringId ary' name).2 = (mozCompilerAddStringId ary name).2 := by
  obtain ⟨more, rfl⟩ := h
  unfold mozCompilerAddStringId
  cases hfind : ary.findIdx? fun x => x.length == name.length && strncmpEq x name with
  | some i =>
    simp only
    rw [List.findIdx?_append, hfind]
    rfl
  | none =>
    simp only
    rw [List.findIdx?_append, List.findIdx?_append, hfind]
    simp [List.findIdx?_cons, strncmpEq_refl]

variable {C F : MozCompiler}

theorem strId_later (h : (mozCompilerAddString C name).1.strs <+: F.strs) :
    F.strId name = (mozCompilerAddString C name).2 :=
  congrArg UInt16.ofNat (mozCompilerAddStringId_later h)

theorem tagId_later (h : (mozCompilerAddTag C name).1.tags <+: F.tags) :
    F.tagId name = (mozCompilerAddTag C name).2 :=
  congrArg UInt16.ofNat (mozCompilerAddStringId_later h)

theorem setId_later {set : Bitset} (h : (mozCompilerAddSet C set).1.sets <+: F.sets) :
    F.setId set = (mozCompilerAddSet C set).2 := by
  obtain ⟨more, hmore⟩ := h
  unfold MozCompiler.setId mozCompilerAddSet at *
  cases hfind : C.sets.findIdx? fun x => x == set with
  | some i =>
    simp only [hfind] at hmore ⊢
    rw [← hmore, List.findIdx?_append, hfind]
    rfl
  | none =>
    simp only [hfind] at hmore ⊢
    rw [← hmore, List.findIdx?_append, List.findIdx?_append, hfind]
    simp [List.findIdx?_cons]

theorem grows_addString (name : List UInt8) : Grows [] C (mozCompilerAddString C name).1 :=
  { Grows.refl [] C with strs := mozCompilerAddStringId_prefix }

theorem grows_addTag (name : List UInt8) : Grows [] C (mozCompilerAddTag C name).1 :=
  { Grows.refl [] C with tags := mozCompilerAddStringId_prefix }

theorem grows_addSet (set : Bitset) : Grows [] C (mozCompilerAddSet C set).1 := by
  unfold mozCompilerAddSet
  split
  · exact .refl [] C
  · exact { Grows.refl [] C with sets := List.prefix_append _ _ }

end Constants

end Moz.Compiler
