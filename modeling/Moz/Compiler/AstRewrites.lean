import Moz.Compiler.AstRules

/-!
# What a rewrite keeps

The contract of the optimiser: which rewrites are sound, and what holds whenever a
rewrite is come to. A sound rewrite ends with right counts, with nothing swept
that is still looked at, and with the slots on the path to where it is made as
they were.
-/

namespace Moz.Compiler

open RefCount

theorem exists_split {α : Type} {list : List α} {i : ℕ} {x : α} (h : list[i]? = some x) :
    ∃ before after, list = before ++ x :: after ∧ before.length = i := by
  obtain ⟨hi, hx⟩ := List.getElem?_eq_some_iff.1 h
  refine ⟨list.take i, list.drop (i + 1), ?_, by simp; omega⟩
  rw [← hx, List.getElem_cons_drop, List.take_append_drop]

@[simp] theorem Variant.list_setList (v : Variant) (list : List ExprPtr) :
    (v.setList list).list? = v.list?.map fun _ => list := by
  cases v <;> rfl

@[simp] theorem Variant.operand_setList (v : Variant) (list : List ExprPtr) :
    (v.setList list).operand? = v.operand? := by
  cases v <;> rfl

@[simp] theorem Variant.list_setOperand (v : Variant) (o : ExprPtr) :
    (v.setOperand o).list? = v.list? := by
  cases v <;> rfl

@[simp] theorem Variant.operand_setOperand (v : Variant) (o : ExprPtr) :
    (v.setOperand o).operand? = v.operand?.map fun _ => o := by
  cases v <;> rfl

def Content.setSlot (s : Slot) (o : ExprPtr) : Content → Content
  | .decl name body =>
    match s with
    | .body _ => .decl name (some o)
    | _ => .decl name body
  | .expr v =>
    match s with
    | .body _ => .expr v
    | .operand _ => .expr (v.setOperand o)
    | .elem _ i => .expr (v.setList ((v.list?.getD []).set i o))

theorem Content.children_setSlot {C : Content} {s : Slot} {x : ExprPtr} (h : C.slot s = some x)
    (o : ExprPtr) : ∃ rest, C.children.Perm ([.expr x] ++ rest) ∧
      (C.setSlot s o).children.Perm ([.expr o] ++ rest) := by
  cases C with
  | decl name body =>
    cases s with
    | body decl =>
      have hbody : body = some x := h
      exact ⟨[], by simp [children, refs, hbody], by simp [setSlot, children, refs]⟩
    | operand e => cases h
    | elem e i => cases h
  | expr v =>
    cases s with
    | body decl => cases h
    | operand e =>
      have hoperand : v.operand? = some x := h
      refine ⟨[], ?_, ?_⟩
      · rw [Variant.children_of_operand hoperand]
        rfl
      · rw [setSlot, Variant.children_of_operand (x := o) (by simp [hoperand])]
        rfl
    | elem e i =>
      obtain ⟨list, hlist, hx⟩ := Option.bind_eq_some_iff.1 h
      obtain ⟨before, after, rfl, rfl⟩ := exists_split hx
      refine ⟨(before ++ after).map .expr, ?_, ?_⟩
      · rw [Variant.children_of_list hlist]
        simp
      · have hset : (v.setList ((v.list?.getD []).set before.length o)).list? =
            some (before ++ o :: after) := by
          simp [hlist]
        rw [setSlot, Variant.children_of_list hset]
        simp

namespace AstM

open Logged (wp Contract get set raise note lift wp_bind)

theorem wp_writeSlot {K : Contract Ast AstStep Fault} {c : Ast} {s : Slot} {o x : ExprPtr}
    {C : Content} {post : Unit → Ast → Prop} (hC : c.heap.content s.owner = some C)
    (hx : C.slot s = some x)
    (hpost : ∀ H : AstHeap, H.content s.owner = some (C.setSlot s o) →
      (∀ p, p ≠ s.owner → H.content p = c.heap.content p) → (∀ p, H.refc p = c.heap.refc p) →
      H.next = c.heap.next → post () { c with heap := H }) :
    wp K (writeSlot s o) post c := by
  have hsome : (c.heap.content s.owner).isSome := by
    rw [hC]
    rfl
  cases s with
  | body decl =>
    cases C with
    | expr v => cases hx
    | decl name body =>
      have hsome' : (c.heap.content (.decl decl)).isSome := hsome
      simp only [writeSlot, wp_onHeap, hsome', if_true]
      constructor
      · rintro H heq
        cases heq
        apply hpost
        · exact AstHeap.content_setBody_self o hC
        · exact fun p hp => AstHeap.content_setBody_of_ne o hp
        · exact fun p => AstHeap.refc_setBody decl o p
        · rfl
      · intro e heq
        cases heq
  | operand e =>
    cases C with
    | decl name body => cases hx
    | expr v =>
      rw [writeSlot, wp_bind, wp_readExpr hC, wp_writeExpr hsome]
      apply hpost
      · exact AstHeap.content_setVariant_self _ hsome
      · exact fun p hp => AstHeap.content_setVariant_of_ne _ hp
      · exact fun p => AstHeap.refc_setVariant e _ p
      · rfl
  | elem e i =>
    cases C with
    | decl name body => cases hx
    | expr v =>
      obtain ⟨list, hlist, -⟩ := Option.bind_eq_some_iff.1 hx
      rw [writeSlot, wp_listSet hC hlist]
      apply hpost
      · rw [Content.setSlot, hlist]
        exact AstHeap.content_setVariant_self _ hsome
      · exact fun p hp => AstHeap.content_setVariant_of_ne _ hp
      · exact fun p => AstHeap.refc_setVariant e _ p
      · rfl

end AstM

/-- A slot is written, and the other slots of the object hold what they held. -/
theorem Content.slot_setSlot (C : Content) (o : ExprPtr) {s t : Slot} (howner : s.owner = t.owner)
    (hne : s ≠ t) : (C.setSlot t o).slot s = C.slot s := by
  cases t with
  | body decl =>
    cases s with
    | body d => exact absurd (congrArg Slot.body (Ptr.decl.inj howner)) hne
    | operand e => cases howner
    | elem e i => cases howner
  | operand e =>
    cases s with
    | body d => cases howner
    | operand x => exact absurd (congrArg Slot.operand (Ptr.expr.inj howner)) hne
    | elem x i =>
      cases C with
      | decl name body => rfl
      | expr v =>
        show (v.setOperand o).list?.bind _ = v.list?.bind _
        rw [Variant.list_setOperand]
  | elem e i =>
    cases C with
    | decl name body => cases s <;> rfl
    | expr v =>
      cases s with
      | body d => cases howner
      | operand x => exact Variant.operand_setList v _
      | elem x j =>
        have hij : j ≠ i := fun heq => hne (by rw [heq, Ptr.expr.inj howner])
        show ((v.setList _).list?.bind _ : Option ExprPtr) = v.list?.bind _
        rw [Variant.list_setList]
        cases hlist : v.list? with
        | none => rfl
        | some list =>
          show (list.set i o)[j]? = list[j]?
          rw [List.getElem?_set_ne hij.symm]

/-- The references in list slots, operands, bodies and Invoke nodes. -/
def AstHeap.references (H : AstHeap) : List Ptr :=
  (List.range H.next).flatMap fun addr => H.children (.decl addr) ++ H.children (.expr addr)

/-- Every count is the number of references, and no reference is to something swept. -/
structure CountsRight (c : Ast) (owners : Multiset Ptr) : Prop where
  bounded : c.heap.Bounded
  count : ∀ p, (c.heap.content p).isSome →
    c.heap.refc p = ((owners + (c.heap.references : Multiset Ptr)).count p : ℤ)
  there : ∀ p ∈ owners + (c.heap.references : Multiset Ptr), (c.heap.content p).isSome

theorem AstHeap.references_eq {H : AstHeap} (h : H.Bounded) :
    (H.references : Multiset Ptr) = held H.live H.children := by
  have hsum : ∀ n : ℕ, (((List.range n).flatMap fun addr =>
      H.children (.decl addr) ++ H.children (.expr addr) : List Ptr) : Multiset Ptr) =
      ∑ addr ∈ Finset.range n,
        ((H.children (.decl addr) : Multiset Ptr) + (H.children (.expr addr) : Multiset Ptr)) := by
    intro n
    induction n with
    | zero => rfl
    | succ n ih =>
      rw [List.range_succ, List.flatMap_append, ← Multiset.coe_add, ih, Finset.sum_range_succ]
      simp
  have huniverse : held H.universe H.children = ∑ addr ∈ Finset.range H.next,
      ((H.children (.decl addr) : Multiset Ptr) + (H.children (.expr addr) : Multiset Ptr)) := by
    have hdisjoint : Disjoint ((Finset.range H.next).image Ptr.decl)
        ((Finset.range H.next).image Ptr.expr) := by
      rw [Finset.disjoint_left]
      intro p hp hp'
      obtain ⟨a, -, rfl⟩ := Finset.mem_image.1 hp
      obtain ⟨b, -, hb⟩ := Finset.mem_image.1 hp'
      cases hb
    rw [held, AstHeap.universe, Finset.sum_union hdisjoint,
      Finset.sum_image fun a _ b _ hab => Ptr.decl.inj hab,
      Finset.sum_image fun a _ b _ hab => Ptr.expr.inj hab, Finset.sum_add_distrib]
  rw [AstHeap.references, hsum, ← huniverse]
  symm
  apply Finset.sum_subset (Finset.filter_subset _ _)
  intro p _ hp
  have hnone : H.content p = none := by
    rw [← Option.not_isSome_iff_eq_none]
    exact fun hsome => hp (h.mem_live.2 hsome)
  rw [AstHeap.children_eq_nil hnone]
  rfl

theorem Counted.right {c : Ast} {owners : Multiset Ptr}
    (h : Counted c.heap c.heap.children owners) : CountsRight c owners where
  bounded := h.bounded
  count p hp := by
    rw [AstHeap.references_eq h.bounded]
    exact h.owned.count p (h.bounded.mem_live.2 hp)
  there p hp := by
    rw [AstHeap.references_eq h.bounded] at hp
    exact h.bounded.mem_live.1 (h.owned.mem_live p hp)

/-- The marks there are when a step is come to: the first production has the top level mark from the
beginning of the construction on, and in a pass all productions have the live mark. -/
def AstStep.owners (step : AstStep) (c : Ast) : Multiset Ptr :=
  match step with
  | .declare => 0
  | .build | .mark => declRefs c.decls.head?.toList
  | _ => c.marks + declRefs c.decls.head?.toList

/-- The first of two elements has further references, so that it outlives their release. -/
def Outlives (c : Ast) (child child2 : ExprPtr) : Prop :=
  (if child = child2 then 2 else 1) < c.heap.refc (.expr child)

/-- Each production that dies in the removal does so when its own mark is taken. -/
def RemovedInTurn (c : Ast) : Prop :=
  ∀ before decl after, c.decls = before ++ decl :: after → c.heap.Dies c.marks (.decl decl) →
    c.heap.Dies (declRefs (before ++ [decl])) (.decl decl)

/-- The steps that leave right counts and no pointer to something swept. A removal has to do so only
where another pass follows. -/
def AstStep.Sound (step : AstStep) (c : Ast) : Prop :=
  match step with
  | .collapse _ _ => False
  | .flatten _ _ child => 1 < c.heap.refc (.expr child)
  | .joinBytes _ _ child child2 => Outlives c child child2
  | .joinStrs e i child child2 => c.heap.slot (.elem e i) = some child ∧ Outlives c child child2
  | .remove modified => modified = true → RemovedInTurn c
  | _ => True

/-- Whatever step is come to, the counts are right; and nothing swept is read or written. -/
def lifetime : Logged.Contract Ast AstStep Fault where
  sound := AstStep.Sound
  holds step c := CountsRight c (step.owners c)
  fault f := f ≠ .swept

theorem lifetime_fault {f : Fault} (h : f ≠ .swept) : lifetime.fault f := h

namespace AstM

open Logged (wp Contract get set raise note lift wp_bind wp_note)

variable {c₀ c : Ast} {path : List Slot} {m : Ptr} {K : AstHeap} {post : Unit → Ast → Prop}

theorem wp_note_held {step : AstStep} (h : c.Right)
    (howners : step.owners c = c.marks + declRefs c.decls.head?.toList)
    (hpost : step.Sound c → post () c) : wp lifetime (note step) post c := by
  rw [wp_note]
  refine ⟨?_, hpost⟩
  show CountsRight c (step.owners c)
  rw [howners]
  exact h.counted.right

theorem wp_check (ndebug cond : Bool) {c : Ast} {post : Unit → Ast → Prop} (h : post () c) :
    wp lifetime (check ndebug cond) post c := by
  rw [check]
  split
  · exact h
  · exact lifetime_fault (by decide)

theorem wp_release_session (ndebug : Bool) {C : Content} {pending : Multiset Ptr} {x : ExprPtr}
    (h : Session c path m C (.expr x ::ₘ pending) K) (hchain : Chain c.heap c.decls path m)
    (hpost : ∀ K', Session c path m C pending K' → Spared (OnPath path m) K K' →
      mozRcRelease ndebug K (.expr x) = .ok K' → post () { c with heap := K' }) :
    wp lifetime (release ndebug x) post { c with heap := K } := by
  obtain ⟨herror, hok⟩ := h.release ndebug hchain
  rw [wp_release]
  constructor
  · intro K' hK'
    obtain ⟨hsession, hspared⟩ := hok K' hK'
    exact hpost K' hsession hspared hK'
  · intro f hf
    rw [herror f hf]
    exact lifetime_fault (by decide)

/-- `MOZ_RC_ASSIGN` on the last slot of the path: what it held is released, and it holds `o`. -/
theorem wp_rcAssign (ndebug : Bool) (h : c.Right) {ref : Slot} {v o : ExprPtr}
    {made : List ExprPtr} (hchain : Chain c.heap c.decls path ref.owner)
    (href : c.heap.slot ref = some v) (hnew : ref ∉ path)
    (hprepared : Prepared c path ref.owner made [] K)
    (hself : K.content ref.owner = c.heap.content ref.owner) (ho : (K.content (.expr o)).isSome)
    (hpost : ∀ c', Held c path c' → post () c') :
    wp lifetime (rcAssign ndebug ref o) post { c with heap := K } := by
  obtain ⟨C, hC, hslot⟩ := Option.bind_eq_some_iff.1 href
  obtain ⟨rest, hold, hafter⟩ := Content.children_setSlot hslot o
  have hretained := hprepared.retain ho
  have hcontent := AstHeap.content_setRefc (H := K) (K.refc (.expr o) + 1) (.expr o)
  rw [rcAssign, wp_bind, wp_retain ho]
  show wp lifetime _ post { c with heap := K.setRefc (K.refc (.expr o) + 1) (.expr o) }
  generalize K.setRefc (K.refc (.expr o) + 1) (.expr o) = K₁ at *
  have hslot₁ : K₁.slot ref = some v := by
    rw [AstHeap.slot_congr ((hcontent _).trans hself)]
    exact href
  have hsession := hretained.session (C.setSlot ref o) [.expr v] rest h hC hold hafter
    (by
      intro x hx
      rw [List.mem_singleton.1 hx, hcontent]
      exact ho)
    (by
      intro s hs howner
      rw [Content.slot_setSlot C o howner (ne_of_mem_of_not_mem hs hnew), AstHeap.slot, howner, hC]
      rfl)
  have hpending : (([Ptr.expr v] : List Ptr) : Multiset Ptr) = .expr v ::ₘ 0 := rfl
  rw [hpending] at hsession
  rw [wp_bind, wp_readSlot hslot₁, wp_bind]
  apply wp_release_session ndebug hsession hchain
  intro K' hsession' hspared _
  have hC' : K'.content ref.owner = some C := by
    rw [hspared.kept _ (.inl rfl), hcontent, hself, hC]
  apply wp_writeSlot hC' hslot
  intro H hself' hother hrefc hnext
  apply hpost
  exact hsession'.finish hself' hother hrefc hnext (Option.isSome_iff_exists.2 ⟨_, hC'⟩)

end AstM

end Moz.Compiler
