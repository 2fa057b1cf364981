import Moz.Compiler.Coverage
import Moz.Compiler.CleanWalks

/-!
# The pools of a lowered grammar

The lowering of an expression adds all constants that occur in it, and it never
takes one away. While ids fit into their 16 bits, each constant is found under its
id in the compiler that `moz_ast_to_ir` returns.
-/

namespace Moz.Compiler

structure Pools where
  strs : List (List UInt8)
  sets : List Bitset
  tags : List (List UInt8)

def MozCompiler.pools (C : MozCompiler) : Pools := ⟨C.strs, C.sets, C.tags⟩

/-- The pools `P'` begin with the pools `P`. -/
structure Pools.Grow (P P' : Pools) : Prop where
  strs : P.strs <+: P'.strs
  sets : P.sets <+: P'.sets
  tags : P.tags <+: P'.tags

namespace Pools.Grow

variable {P P' P'' : Pools}

theorem refl (P : Pools) : Pools.Grow P P :=
  ⟨List.prefix_rfl, List.prefix_rfl, List.prefix_rfl⟩

theorem trans (h : Pools.Grow P P') (h' : Pools.Grow P' P'') : Pools.Grow P P'' :=
  ⟨h.strs.trans h'.strs, h.sets.trans h'.sets, h.tags.trans h'.tags⟩

theorem addString (C : MozCompiler) (text : List UInt8) :
    Pools.Grow C.pools (mozCompilerAddString C text).1.pools :=
  ⟨ mozCompilerAddStringId_prefix, List.prefix_rfl, List.prefix_rfl⟩

theorem addTag (C : MozCompiler) (name : List UInt8) :
    Pools.Grow C.pools (mozCompilerAddTag C name).1.pools :=
  ⟨List.prefix_rfl, List.prefix_rfl, mozCompilerAddStringId_prefix⟩

theorem addSet (C : MozCompiler) (bits : Bitset) :
    Pools.Grow C.pools (mozCompilerAddSet C bits).1.pools := by
  unfold mozCompilerAddSet
  split
  · exact .refl _
  · exact ⟨List.prefix_rfl, List.prefix_append _ _, List.prefix_rfl⟩

end Pools.Grow

theorem pools_createBlocks (C : MozCompiler) (n : ℕ) :
    (mozCompilerCreateBlocks C n).1.pools = C.pools := by
  induction n generalizing C with
  | zero => rfl
  | succ n ih => exact ih (mozCompilerCreateBlock C).1

def Expr.Interned (P : Pools) : Expr → Prop
  | .str text => (P.strs.findIdx? fun x => sameName x text).isSome
  | .set bits => (P.sets.findIdx? fun x => x == bits).isSome
  | .ttag name => (P.tags.findIdx? fun x => sameName x name).isSome
  | _ => True

section Interned

variable {P P' : Pools} {x : Expr}

theorem isSome_findIdx?_of_isPrefix {α : Type} {l l' : List α} {test : α → Bool} (h : l <+: l')
    (hl : (l.findIdx? test).isSome) : (l'.findIdx? test).isSome := by
  obtain ⟨more, rfl⟩ := h
  rw [List.findIdx?_append, Option.isSome_or, hl, Bool.true_or]

theorem Expr.Interned.grow (h : x.Interned P) (hP : Pools.Grow P P') : x.Interned P' := by
  cases x with
  | str => exact isSome_findIdx?_of_isPrefix hP.strs h
  | set => exact isSome_findIdx?_of_isPrefix hP.sets h
  | ttag => exact isSome_findIdx?_of_isPrefix hP.tags h
  | _ => trivial

theorem isSome_addStringId (ary : List (List UInt8)) (name : List UInt8) :
    ((mozCompilerAddStringId ary name).1.findIdx? fun x => sameName x name).isSome := by
  unfold mozCompilerAddStringId
  cases hfind : ary.findIdx? fun x => x.length == name.length && strncmpEq x name with
  | some i =>
    have hsame : (ary.findIdx? fun x => sameName x name) = some i := hfind
    simp [hsame]
  | none => simp [List.findIdx?_append, List.findIdx?_cons, sameName, strncmpEq_refl]

theorem isSome_addSet (C : MozCompiler) (bits : Bitset) :
    ((mozCompilerAddSet C bits).1.sets.findIdx? fun x => x == bits).isSome := by
  unfold mozCompilerAddSet
  cases hfind : C.sets.findIdx? fun x => x == bits with
  | some i => simp [hfind]
  | none => simp [List.findIdx?_append, List.findIdx?_cons]

end Interned

/-- The constants of an expression have been added between two compilers. -/
structure Interns (e : Expr) (P P' : Pools) : Prop where
  grow : Pools.Grow P P'
  interned : ∀ x, Expr.Within x e → x.Interned P'

structure InternsAll (list : List Expr) (P P' : Pools) : Prop where
  grow : Pools.Grow P P'
  interned : ∀ e ∈ list, ∀ x, Expr.Within x e → x.Interned P'

section Interns

variable {P P' P'' : Pools} {e x : Expr} {list : List Expr}

theorem Interns.leaf (h : Pools.Grow P P') (hleaf : ∀ x, Expr.Within x e → x = e)
    (he : e.Interned P') : Interns e P P' :=
  ⟨h, fun x hx => (hleaf x hx).symm ▸ he⟩

theorem Interns.and (h : Interns e P P') : Interns (.and e) P P' := by
  refine ⟨h.grow, fun x hx => ?_⟩
  cases hx with
  | self => trivial
  | and hx => exact h.interned x hx

theorem Interns.not (h : Interns e P P') : Interns (.not e) P P' := by
  refine ⟨h.grow, fun x hx => ?_⟩
  cases hx with
  | self => trivial
  | not hx => exact h.interned x hx

theorem Interns.option (h : Interns e P P') : Interns (.option e) P P' := by
  refine ⟨h.grow, fun x hx => ?_⟩
  cases hx with
  | self => trivial
  | option hx => exact h.interned x hx

theorem InternsAll.choice (h : InternsAll list P P') : Interns (.choice list) P P' := by
  refine ⟨h.grow, fun x hx => ?_⟩
  cases hx with
  | self => trivial
  | choice he hx => exact h.interned _ he x hx

theorem InternsAll.sequence (h : InternsAll list P P') : Interns (.sequence list) P P' := by
  refine ⟨h.grow, fun x hx => ?_⟩
  cases hx with
  | self => trivial
  | sequence he hx => exact h.interned _ he x hx

theorem InternsAll.repetition (h : InternsAll list P P') : Interns (.repetition list) P P' := by
  refine ⟨h.grow, fun x hx => ?_⟩
  cases hx with
  | self => trivial
  | repetition he hx => exact h.interned _ he x hx

theorem InternsAll.nil (P : Pools) : InternsAll [] P P :=
  ⟨.refl P, fun _ he => by cases he⟩

theorem InternsAll.cons (hx : Interns x P P') (h : InternsAll list P' P'') :
    InternsAll (x :: list) P P'' := by
  refine ⟨hx.grow.trans h.grow, fun e he y hy => ?_⟩
  obtain rfl | he := List.mem_cons.1 he
  · exact (hx.interned y hy).grow h.grow
  · exact h.interned e he y hy

end Interns

section Lowering

variable (C : MozCompiler) (S : MozState)

@[simp] theorem pools_newBlock : (newBlock C).pools = C.pools := rfl

@[simp] theorem pools_emit (op : Op) : (mozCompilerEmit C S op).pools = C.pools := rfl

@[simp] theorem pools_link (bb1 bb2 : BlockId) : (mozCompilerLink C S bb1 bb2).pools = C.pools := rfl

@[simp] theorem pools_setType (bb : BlockId) (type : BlockType) :
    (C.blockSetType bb type).pools = C.pools := rfl

end Lowering

def Adds (e : Expr) : Prop := ∀ C S P, C.pools = P → Interns e P (mozExprToIr e C S).1.pools

def AddsAll (list : List Expr) (loop : MozCompiler → MozState → MozCompiler × MozState) : Prop :=
  ∀ C S P, C.pools = P → InternsAll list P (loop C S).1.pools

theorem pools_predicate {e : Expr} (ih : Adds e) (C : MozCompiler) (S : MozState)
    (next fail : BlockId) (P : Pools) (hP : C.pools = P) :
    Interns e P (mozPredicateToIr e C S next fail).1.pools := by
  unfold mozPredicateToIr
  dsimp only
  rw [pools_link]
  exact ih _ _ P (by rw [pools_emit, pools_link, pools_newBlock, pools_newBlock, pools_newBlock, hP])

theorem Adds.and {e : Expr} (ih : Adds e) : Adds (.and e) := by
  intro C S P hP
  rw [mozExprToIr_and]
  dsimp only
  rw [pools_link, pools_emit]
  exact (pools_predicate ih C S _ _ P hP).and

theorem Adds.not {e : Expr} (ih : Adds e) : Adds (.not e) := by
  intro C S P hP
  cases he : e.notOp with
  | some op =>
    have hany : e = .any := by
      cases e <;> cases he; rfl
    rw [hany] at ih ⊢
    exact (ih C S P hP).not
  | none =>
    rw [mozExprToIr_not he]
    dsimp only
    rw [pools_emit, pools_link]
    exact (pools_predicate ih C S _ _ P hP).not

theorem Adds.option {e : Expr} (ih : Adds e) : Adds (.option e) := by
  intro C S P hP
  cases he : e.optionOp C with
  | some op =>
    have hsame : (mozExprToIr (.option e) C S).1.pools = (mozExprToIr e C S).1.pools := by
      cases e <;> cases he <;> rfl
    rw [hsame]
    exact (ih C S P hP).option
  | none =>
    rw [mozExprToIr_option he]
    dsimp only
    rw [pools_link]
    exact (ih _ _ P (by rw [pools_newBlock, hP])).option

theorem Adds.choice {list : List Expr}
    (ih : ∀ next blocks, AddsAll list (mozChoiceToIr next list blocks)) : Adds (.choice list) := by
  intro C S P hP
  rw [mozExprToIr_choice]
  have hblocks := (pools_createBlocks C list.length).trans hP
  generalize mozCompilerCreateBlocks C list.length = bs at *
  dsimp only
  exact (ih _ _ _ _ P (by rw [pools_link, pools_newBlock, hblocks])).choice

theorem Adds.sequence {list : List Expr}
    (ih : ∀ blocks, AddsAll list (mozSequenceToIr list blocks)) : Adds (.sequence list) := by
  intro C S P hP
  rw [mozExprToIr_sequence]
  have hblocks := (pools_createBlocks (newBlock C) list.length).trans hP
  generalize mozCompilerCreateBlocks (newBlock C) list.length = bs at *
  dsimp only
  rw [pools_link]
  exact (ih _ _ _ P hblocks).sequence

theorem Adds.repetition {list : List Expr} (hone : ∀ x, list = [x] → Adds x)
    (ih : ∀ fail blocks, AddsAll list (mozRepetitionToIr fail list blocks)) :
    Adds (.repetition list) := by
  intro C S P hP
  cases he : Expr.repetitionOp C list with
  | some op =>
    obtain ⟨x, rfl⟩ : ∃ x, list = [x] := by
      obtain _ | ⟨x, _ | ⟨y, list⟩⟩ := list
      · cases he
      · exact ⟨x, rfl⟩
      · cases he
    have hsame : (mozExprToIr (.repetition [x]) C S).1.pools = (mozExprToIr x C S).1.pools := by
      cases x <;> cases he <;> rfl
    rw [hsame]
    exact (InternsAll.cons (hone x rfl C S P hP) (.nil _)).repetition
  | none =>
    rw [mozExprToIr_repetition he]
    have hblocks := (pools_createBlocks C list.length).trans hP
    generalize mozCompilerCreateBlocks C list.length = bs at *
    dsimp only
    have hpools : (newBlock (bs.1.blockSetType S.cur .blockLoopHead)).pools = P := by
      rw [pools_newBlock, pools_setType, hblocks]
    exact (ih _ _ _ _ P (by rw [pools_link, hpools])).repetition

theorem AddsAll.choiceNil (next : BlockId) (blocks : List BlockId) :
    AddsAll [] (mozChoiceToIr next [] blocks) := by
  intro C S P hP
  rw [mozChoiceToIr, hP]
  exact .nil P

theorem AddsAll.choiceCons {x : Expr} {list : List Expr} (hx : Adds x)
    (ih : ∀ next blocks, AddsAll list (mozChoiceToIr next list blocks)) (next : BlockId)
    (blocks : List BlockId) : AddsAll (x :: list) (mozChoiceToIr next (x :: list) blocks) := by
  intro C S P hP
  rw [mozChoiceToIr]
  dsimp only
  exact .cons (hx C _ P hP) (ih next _ _ _ _ (pools_link _ _ _ _))

theorem AddsAll.sequenceNil (blocks : List BlockId) :
    AddsAll [] (mozSequenceToIr [] blocks) := by
  intro C S P hP
  rw [mozSequenceToIr, hP]
  exact .nil P

theorem AddsAll.sequenceCons {x : Expr} {list : List Expr} (hx : Adds x)
    (ih : ∀ blocks, AddsAll list (mozSequenceToIr list blocks)) (blocks : List BlockId) :
    AddsAll (x :: list) (mozSequenceToIr (x :: list) blocks) := by
  intro C S P hP
  rw [mozSequenceToIr]
  dsimp only
  exact .cons (hx _ _ P (by rw [pools_link, hP])) (ih _ _ _ _ rfl)

theorem AddsAll.repetitionNil (fail : BlockId) (blocks : List BlockId) :
    AddsAll [] (mozRepetitionToIr fail [] blocks) := by
  intro C S P hP
  rw [mozRepetitionToIr, hP]
  exact .nil P

theorem AddsAll.repetitionCons {x : Expr} {list : List Expr} (hx : Adds x)
    (ih : ∀ fail blocks, AddsAll list (mozRepetitionToIr fail list blocks)) (fail : BlockId)
    (blocks : List BlockId) :
    AddsAll (x :: list) (mozRepetitionToIr fail (x :: list) blocks) := by
  intro C S P hP
  rw [mozRepetitionToIr]
  dsimp only
  exact .cons (hx C _ P hP) (ih fail _ _ _ _ (pools_link _ _ _ _))

theorem Adds.leaf {e : Expr} (hleaf : ∀ x, Expr.Within x e → x = e)
    (h : ∀ C S, Pools.Grow C.pools (mozExprToIr e C S).1.pools ∧
      e.Interned (mozExprToIr e C S).1.pools) : Adds e := by
  intro C S P hP
  subst hP
  exact .leaf (h C S).1 hleaf (h C S).2

/-- A construct without operands and without constants. -/
theorem Adds.plain {e : Expr} (hleaf : ∀ x, Expr.Within x e → x = e) (he : ∀ P, e.Interned P)
    (h : ∀ C S, (mozExprToIr e C S).1.pools = C.pools) : Adds e :=
  .leaf hleaf fun C S => ⟨h C S ▸ .refl C.pools, he _⟩

theorem Adds.addsOne {x : Expr} {list : List Expr} (hx : Adds x) : ∀ y, x :: list = [y] → Adds y := by
  intro y hy
  cases hy
  exact hx

mutual

theorem adds : ∀ e : Expr, Adds e
  | .empty => .plain (fun x hx => by cases hx; rfl) (fun _ => trivial) fun _ _ => rfl
  | .invoke _ => .plain (fun x hx => by cases hx; rfl) (fun _ => trivial) fun _ _ => rfl
  | .any => .plain (fun x hx => by cases hx; rfl) (fun _ => trivial) fun _ _ => rfl
  | .byte _ => .plain (fun x hx => by cases hx; rfl) (fun _ => trivial) fun _ _ => rfl
  | .fail => .plain (fun x hx => by cases hx; rfl) (fun _ => trivial) fun _ _ => rfl
  | .tcapture => .plain (fun x hx => by cases hx; rfl) (fun _ => trivial) fun _ _ => rfl
  | .tpush => .plain (fun x hx => by cases hx; rfl) (fun _ => trivial) fun _ _ => rfl
  | .tnew => .plain (fun x hx => by cases hx; rfl) (fun _ => trivial) fun _ _ => rfl
  | .todo _ => .plain (fun x hx => by cases hx; rfl) (fun _ => trivial) fun _ _ => rfl
  | .str text => .leaf (fun x hx => by cases hx; rfl) fun C _ =>
    ⟨.addString C text, isSome_addStringId _ _⟩
  | .set bits => .leaf (fun x hx => by cases hx; rfl) fun C _ =>
    ⟨.addSet C bits, isSome_addSet C bits⟩
  | .tpop name => .leaf (fun x hx => by cases hx; rfl) fun C _ => ⟨.addTag C name, trivial⟩
  | .ttag name => .leaf (fun x hx => by cases hx; rfl) fun C _ =>
    ⟨.addTag C name, isSome_addStringId _ _⟩
  | .and e => (adds e).and
  | .not e => (adds e).not
  | .option e => (adds e).option
  | .choice list => .choice (addsChoice list)
  | .sequence list => .sequence (addsSequence list)
  | .repetition list => .repetition (addsOne list) (addsRepetition list)

theorem addsOne : ∀ (list : List Expr) (x : Expr), list = [x] → Adds x
  | [], _, h => by cases h
  | y :: _, _, h => (adds y).addsOne _ h

theorem addsChoice : ∀ (list : List Expr) (next : BlockId) (blocks : List BlockId),
    AddsAll list (mozChoiceToIr next list blocks)
  | [] => .choiceNil
  | x :: list => .choiceCons (adds x) (addsChoice list)

theorem addsSequence : ∀ (list : List Expr) (blocks : List BlockId),
    AddsAll list (mozSequenceToIr list blocks)
  | [] => .sequenceNil
  | x :: list => .sequenceCons (adds x) (addsSequence list)

theorem addsRepetition : ∀ (list : List Expr) (fail : BlockId) (blocks : List BlockId),
    AddsAll list (mozRepetitionToIr fail list blocks)
  | [] => .repetitionNil
  | x :: list => .repetitionCons (adds x) (addsRepetition list)

end

section Module

variable {C F : MozCompiler} {x : Expr}

theorem mozBodyToIr_interns (C : MozCompiler) (body : Expr) :
    Interns body C.pools (mozBodyToIr C body).1.pools := by
  rw [mozBodyToIr_eq]
  have hinit : (mozStateInit C).1.pools = C.pools := rfl
  generalize (mozStateInit C).1 = C₁ at *
  dsimp only
  rw [pools_emit, pools_emit, pools_link]
  exact adds body _ _ C.pools hinit

/-- `moz_ast_to_ir` adds the constants of all productions that are referenced. -/
theorem mozDeclsToIr_interns (list : List Decl) (n : ℕ) (C C' : MozCompiler)
    (hC' : (list.zipIdx n).foldl (fun C (decl, d) =>
      if 0 < decl.refc then mozDeclToIr C d decl else C) C = C') :
    Pools.Grow C.pools C'.pools ∧
      ∀ decl ∈ list, 0 < decl.refc → ∀ x, Expr.Within x decl.body → x.Interned C'.pools := by
  induction list generalizing n C with
  | nil =>
    subst hC'
    exact ⟨.refl _, fun decl h => by cases h⟩
  | cons y list ih =>
    rw [List.zipIdx_cons, List.foldl_cons] at hC'
    dsimp only at hC'
    have hbody : 0 < y.refc → Interns y.body C.pools
        (if 0 < y.refc then mozDeclToIr C n y else C).pools := by
      intro hrefc
      rw [if_pos hrefc]
      exact mozBodyToIr_interns C y.body
    have hgrow : Pools.Grow C.pools (if 0 < y.refc then mozDeclToIr C n y else C).pools := by
      by_cases hrefc : 0 < y.refc
      · exact (hbody hrefc).grow
      · rw [if_neg hrefc]
        exact .refl _
    obtain ⟨hgrow', hrest⟩ := ih (n + 1) _ hC'
    refine ⟨hgrow.trans hgrow', fun decl hdecl hrefc x hx => ?_⟩
    obtain rfl | hdecl := List.mem_cons.1 hdecl
    · exact ((hbody hrefc).interned x hx).grow hgrow'
    · exact hrest decl hdecl hrefc x hx

theorem toNat_ofNat_of_lt16 {i : ℕ} (h : i < 2 ^ 16) : (UInt16.ofNat i).toNat = i :=
  Nat.mod_eq_of_lt h

/-- A constant that has been added is found under its id, while ids fit. -/
theorem Expr.Interned.known (h : x.Interned F.pools) (hsolid : x.solid)
    (hstrs : F.strs.length ≤ 2 ^ 16) (hsets : F.sets.length ≤ 2 ^ 16)
    (htags : F.tags.length ≤ 2 ^ 16) : x.Known F := by
  have hstring : ∀ (ary : List (List UInt8)) (name : List UInt8), ary.length ≤ 2 ^ 16 →
      (ary.findIdx? fun x => sameName x name).isSome →
      ∃ s, ary[(UInt16.ofNat (mozCompilerAddStringId ary name).2).toNat]? = some s ∧
        sameName s name := by
    intro ary name hlength hsome
    obtain ⟨i, hi⟩ := Option.isSome_iff_exists.1 hsome
    obtain ⟨hlt, htest, -⟩ := List.findIdx?_eq_some_iff_getElem.1 hi
    have hid : (mozCompilerAddStringId ary name).2 = i := by
      have hfind : (ary.findIdx? fun x => x.length == name.length && strncmpEq x name) = some i := hi
      rw [mozCompilerAddStringId, hfind]
    rw [hid, toNat_ofNat_of_lt16 (by omega)]
    exact ⟨_, List.getElem?_eq_getElem hlt, htest⟩
  cases x with
  | str text =>
    have hsolid' : ∀ c ∈ text, c ≠ 0 := by simpa [Expr.solid] using hsolid
    obtain ⟨s, hget, hsame⟩ := hstring F.strs text hstrs h
    obtain rfl | ⟨-, pre, -, hpre⟩ := sameName_iff.1 hsame
    · exact hget
    · have hzero : (0 : UInt8) ∈ text := hpre.subset (List.mem_append_right _ List.mem_cons_self)
      exact absurd rfl (hsolid' 0 hzero)
  | ttag name =>
    obtain ⟨s, hget, -⟩ := hstring F.tags name htags h
    show (F.tags[(F.tagId name).toNat]?).isSome
    rw [MozCompiler.tagId, hget]
    rfl
  | set bits =>
    obtain ⟨i, hi⟩ := Option.isSome_iff_exists.1 h
    have hfind : (F.sets.findIdx? fun x => x == bits) = some i := hi
    obtain ⟨hlt, htest, -⟩ := List.findIdx?_eq_some_iff_getElem.1 hfind
    have hid : F.setId bits = UInt16.ofNat i := by
      rw [MozCompiler.setId, mozCompilerAddSet, hfind]
    show F.sets[(F.setId bits).toNat]? = some bits
    rw [hid, toNat_ofNat_of_lt16 (by omega), List.getElem?_eq_getElem hlt, beq_iff_eq.1 htest]
  | _ => trivial

def MozCompiler.fits (C : MozCompiler) : Prop :=
  C.strs.length ≤ 2 ^ 16 ∧ C.sets.length ≤ 2 ^ 16 ∧ C.tags.length ≤ 2 ^ 16

theorem mozAstToIr_sound (hfits : (mozAstToIr C).fits) (hsolid : ∀ decl ∈ C.decls, 0 < decl.refc →
    ∀ x, Expr.Within x decl.body → x.solid) : SoundDecls (mozAstToIr C) C.decls := by
  intro d decl hdecl hrefc x hx
  have hmem := List.mem_of_getElem? hdecl
  have hinterned := (mozDeclsToIr_interns C.decls 0 C (mozAstToIr C) rfl).2 decl hmem hrefc x hx
  have hx' := hsolid decl hmem hrefc x hx
  exact ⟨hinterned.known hx' hfits.1 hfits.2.1 hfits.2.2, hx'⟩

end Module

end Moz.Compiler
