import Moz.Compiler.AstPath

/-!
# Rules for the operations on the heap

One rule for each operation of the optimiser: on an object that is not swept it
does what its name says, and no operation fails in another way than the rule has.
-/

namespace Moz.Compiler.AstM

open Logged (wp Contract get set raise note lift wp_bind wp_lift)

variable {K : Contract Ast AstStep Fault} {c : Ast}

theorem wp_onHeap {f : AstHeap → Except Fault AstHeap} {post : Unit → Ast → Prop} :
    wp K (onHeap f) post c ↔ (∀ H, f c.heap = .ok H → post () { c with heap := H }) ∧
      ∀ e, f c.heap = .error e → K.fault e := by
  simp [onHeap, wp_bind, wp_lift]

theorem variant_eq {H : AstHeap} {e : ExprPtr} {v : Variant}
    (h : H.content (.expr e) = some (.expr v)) : H.variant e = .ok v := by
  simp only [AstHeap.content, Option.map_eq_some_iff] at h
  obtain ⟨obj, hobj, hv⟩ := h
  cases hv
  simp [AstHeap.variant, hobj]

theorem exists_variant {H : AstHeap} {e : ExprPtr} (h : (H.content (.expr e)).isSome) :
    ∃ v, H.content (.expr e) = some (.expr v) := by
  obtain ⟨obj, hobj⟩ := Option.isSome_iff_exists.1 (by simpa [AstHeap.content] using h)
  exact ⟨obj.variant, by simp [AstHeap.content, hobj]⟩

theorem wp_readExpr {e : ExprPtr} {v : Variant} {post : Variant → Ast → Prop}
    (h : c.heap.content (.expr e) = some (.expr v)) : wp K (readExpr e) post c ↔ post v c := by
  simp [readExpr, wp_bind, wp_lift, variant_eq h]

theorem exists_decl {H : AstHeap} {decl : DeclPtr} (h : (H.content (.decl decl)).isSome) :
    ∃ obj, H.decls decl = some obj ∧ H.content (.decl decl) = some (.decl obj.name obj.body) := by
  obtain ⟨obj, hobj⟩ := Option.isSome_iff_exists.1 (by simpa [AstHeap.content] using h)
  exact ⟨obj, hobj, by simp [AstHeap.content, hobj]⟩

theorem wp_readDecl {decl : DeclPtr} {obj : DeclObj} {post : DeclObj → Ast → Prop}
    (h : c.heap.decls decl = some obj) : wp K (readDecl decl) post c ↔ post obj c := by
  simp [readDecl, wp_bind, h]

theorem wp_readList {e : ExprPtr} {v : Variant} {list : List ExprPtr}
    {post : List ExprPtr → Ast → Prop} (h : c.heap.content (.expr e) = some (.expr v))
    (hlist : v.list? = some list) : wp K (readList e) post c ↔ post list c := by
  simp [readList, wp_bind, wp_readExpr h, hlist]

/-- The list of an expression that is not swept is read, or the expression has none. -/
theorem wp_readList_of_isSome {e : ExprPtr} {post : List ExprPtr → Ast → Prop}
    (h : (c.heap.content (.expr e)).isSome) (hrange : K.fault .range)
    (hpost : ∀ v list, c.heap.content (.expr e) = some (.expr v) → v.list? = some list →
      post list c) : wp K (readList e) post c := by
  obtain ⟨v, hv⟩ := exists_variant h
  cases hlist : v.list? with
  | none => simpa [readList, wp_bind, wp_readExpr hv, hlist] using hrange
  | some list => exact (wp_readList hv hlist).2 (hpost v list hv hlist)

theorem wp_listNext_of_isSome {e : ExprPtr} {i : ℕ} {post : Option ExprPtr → Ast → Prop}
    (h : (c.heap.content (.expr e)).isSome) (hrange : K.fault .range)
    (hpost : ∀ v list, c.heap.content (.expr e) = some (.expr v) → v.list? = some list →
      post list[i + 1]? c) : wp K (listNext e i) post c := by
  rw [listNext, wp_bind]
  exact wp_readList_of_isSome h hrange hpost

theorem wp_listGet {e : ExprPtr} {i : ℕ} {x : ExprPtr} {post : ExprPtr → Ast → Prop}
    (h : c.heap.slot (.elem e i) = some x) : wp K (listGet e i) post c ↔ post x c := by
  obtain ⟨C, hC, hslot⟩ := Option.bind_eq_some_iff.1 h
  cases C with
  | decl name body => cases hslot
  | expr v =>
    obtain ⟨list, hlist, hx⟩ := Option.bind_eq_some_iff.1 hslot
    simp [listGet, wp_bind, wp_readList hC hlist, hx]

theorem wp_listGet_of_isSome {e : ExprPtr} {i : ℕ} {post : ExprPtr → Ast → Prop}
    (h : (c.heap.content (.expr e)).isSome) (hrange : K.fault .range)
    (hpost : ∀ x, c.heap.slot (.elem e i) = some x → post x c) : wp K (listGet e i) post c := by
  rw [listGet, wp_bind]
  apply wp_readList_of_isSome h hrange
  intro v list hv hlist
  cases hx : list[i]? with
  | none => exact hrange
  | some x => exact hpost x (by simp [AstHeap.slot, Slot.owner, hv, Content.slot, hlist, hx])

theorem wp_readSlot {s : Slot} {x : ExprPtr} {post : ExprPtr → Ast → Prop}
    (h : c.heap.slot s = some x) : wp K (readSlot s) post c ↔ post x c := by
  cases s with
  | body decl =>
    obtain ⟨C, hC, hslot⟩ := Option.bind_eq_some_iff.1 h
    have hsome : (c.heap.content (.decl decl)).isSome := by
      rw [show Ptr.decl decl = (Slot.body decl).owner from rfl, hC]
      rfl
    obtain ⟨obj, hobj, hcontent⟩ := exists_decl hsome
    have hbody : obj.body = some x := by
      rw [show Ptr.decl decl = (Slot.body decl).owner from rfl, hC] at hcontent
      cases hcontent
      exact hslot
    simp [readSlot, wp_bind, wp_readDecl hobj, hbody]
  | operand e =>
    obtain ⟨C, hC, hslot⟩ := Option.bind_eq_some_iff.1 h
    cases C with
    | decl name body => cases hslot
    | expr v =>
      have hoperand : v.operand? = some x := hslot
      simp [readSlot, wp_bind, wp_readExpr hC, hoperand]
  | elem e i => exact wp_listGet h

theorem wp_readSlot_of_isSome {s : Slot} {post : ExprPtr → Ast → Prop}
    (h : (c.heap.content s.owner).isSome) (hnull : K.fault .null) (hrange : K.fault .range)
    (hpost : ∀ x, c.heap.slot s = some x → post x c) : wp K (readSlot s) post c := by
  cases s with
  | body decl =>
    obtain ⟨obj, hobj, hcontent⟩ := exists_decl h
    rw [readSlot, wp_bind, wp_readDecl hobj]
    cases hbody : obj.body with
    | none => exact hnull
    | some x => exact hpost x (by simp [AstHeap.slot, Slot.owner, hcontent, Content.slot, hbody])
  | operand e =>
    obtain ⟨v, hv⟩ := exists_variant h
    rw [readSlot, wp_bind, wp_readExpr hv]
    cases hx : v.operand? with
    | none => exact hrange
    | some x => exact hpost x (by simp [AstHeap.slot, Slot.owner, hv, Content.slot, hx])
  | elem e i => exact wp_listGet_of_isSome h hrange hpost

theorem wp_writeExpr {e : ExprPtr} {v : Variant} {post : Unit → Ast → Prop}
    (h : (c.heap.content (.expr e)).isSome) :
    wp K (writeExpr e v) post c ↔ post () { c with heap := c.heap.setVariant e v } := by
  simp [writeExpr, wp_onHeap, h]

theorem wp_writeList {e : ExprPtr} {v : Variant} {list : List ExprPtr} {post : Unit → Ast → Prop}
    (h : c.heap.content (.expr e) = some (.expr v)) :
    wp K (writeList e list) post c ↔
      post () { c with heap := c.heap.setVariant e (v.setList list) } := by
  rw [writeList, wp_bind, wp_readExpr h, wp_writeExpr (by rw [h]; rfl)]

theorem wp_listSet {e : ExprPtr} {i : ℕ} {x : ExprPtr} {v : Variant} {list : List ExprPtr}
    {post : Unit → Ast → Prop} (h : c.heap.content (.expr e) = some (.expr v))
    (hlist : v.list? = some list) :
    wp K (listSet e i x) post c ↔
      post () { c with heap := c.heap.setVariant e (v.setList (list.set i x)) } := by
  rw [listSet, wp_bind, wp_readList h hlist, wp_writeList h]

theorem wp_listRemove {e : ExprPtr} {i : ℕ} {v : Variant} {list : List ExprPtr}
    {post : Unit → Ast → Prop} (h : c.heap.content (.expr e) = some (.expr v))
    (hlist : v.list? = some list) :
    wp K (listRemove e i) post c ↔
      post () { c with heap := c.heap.setVariant e (v.setList (list.eraseIdx i)) } := by
  rw [listRemove, wp_bind, wp_readList h hlist, wp_writeList h]

theorem wp_retain {e : ExprPtr} {post : Unit → Ast → Prop}
    (h : (c.heap.content (.expr e)).isSome) :
    wp K (retain e) post c ↔
      post () { c with heap := c.heap.setRefc (c.heap.refc (.expr e) + 1) (.expr e) } := by
  simp [retain, wp_onHeap, mozRcRetain, h]

theorem wp_release {ndebug : Bool} {e : ExprPtr} {post : Unit → Ast → Prop} :
    wp K (release ndebug e) post c ↔
      (∀ H, mozRcRelease ndebug c.heap (.expr e) = .ok H → post () { c with heap := H }) ∧
      ∀ f, mozRcRelease ndebug c.heap (.expr e) = .error f → K.fault f :=
  wp_onHeap

theorem wp_exprAlloc {v : Variant} {post : ExprPtr → Ast → Prop} :
    wp K (exprAlloc v) post c ↔ post c.heap.next { c with heap := c.heap.alloc v } := by
  simp [exprAlloc, wp_bind]

end Moz.Compiler.AstM
