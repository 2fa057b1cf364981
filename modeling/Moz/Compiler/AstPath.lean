import Moz.Compiler.AstCounts

/-!
# The path of slots the optimiser is in

A chain of slots leads from a listed production to the object that is rewritten.
The rewrite is seen as a session: the references the object gets are counted, those
it loses are pending, the releases of these sweep nothing on the path, and in the
end the object is as the rewrite has it.
-/

namespace Moz.Compiler

open RefCount

def Slot.owner : Slot → Ptr
  | .body decl => .decl decl
  | .operand e => .expr e
  | .elem e _ => .expr e

/-- What a slot of an object holds. -/
def Content.slot : Content → Slot → Option ExprPtr
  | .decl _ body, .body _ => body
  | .expr v, .operand _ => v.operand?
  | .expr v, .elem _ i => v.list?.bind (·[i]?)
  | _, _ => none

def AstHeap.slot (H : AstHeap) (s : Slot) : Option ExprPtr := (H.content s.owner).bind (·.slot s)

def Content.children (C : Content) : List Ptr := C.refs.reduceOption

theorem AstHeap.children_eq {H : AstHeap} {p : Ptr} {C : Content} (h : H.content p = some C) :
    H.children p = C.children := by
  simp [AstHeap.children, AstHeap.refs, h, Content.children]

@[simp] theorem reduceOption_map_some {α β : Type} (f : α → β) (list : List α) :
    (list.map fun x => some (f x)).reduceOption = list.map f := by
  induction list with
  | nil => rfl
  | cons x list ih => simpa using ih

theorem Variant.children_of_operand {v : Variant} {x : ExprPtr} (h : v.operand? = some x) :
    (Content.expr v).children = [.expr x] := by
  cases v <;> simp_all [operand?, Content.children, Content.refs, refs]

theorem Variant.children_of_list {v : Variant} {list : List ExprPtr} (h : v.list? = some list) :
    (Content.expr v).children = list.map .expr := by
  cases v <;> simp_all [list?, Content.children, Content.refs, refs]

theorem Content.slot_mem {C : Content} {s : Slot} {x : ExprPtr} (h : C.slot s = some x) :
    Ptr.expr x ∈ C.children := by
  cases C with
  | decl name body =>
    cases s <;> simp_all [slot, children, refs]
  | expr v =>
    cases s with
    | body decl => simp [slot] at h
    | operand e =>
      rw [Variant.children_of_operand h]
      exact List.mem_singleton_self _
    | elem e i =>
      obtain ⟨list, hlist, hx⟩ := Option.bind_eq_some_iff.1 h
      rw [Variant.children_of_list hlist]
      exact List.mem_map_of_mem (List.mem_of_getElem? hx)

theorem Content.slot_of_operand {v : Variant} {s : Slot} {e x y : ExprPtr}
    (h : v.operand? = some x) (howner : s.owner = .expr e) (hs : (expr v).slot s = some y) :
    s = .operand e ∧ y = x := by
  cases s with
  | body decl => cases howner
  | operand e' =>
    have hy : v.operand? = some y := hs
    rw [h] at hy
    cases hy
    exact ⟨congrArg Slot.operand (Ptr.expr.inj howner), rfl⟩
  | elem e' i =>
    cases v <;> simp_all [slot, Variant.operand?, Variant.list?]

theorem Content.slot_of_list {v : Variant} {s : Slot} {e y : ExprPtr} {list : List ExprPtr}
    (h : v.list? = some list) (howner : s.owner = .expr e) (hs : (expr v).slot s = some y) :
    ∃ j, s = .elem e j ∧ list[j]? = some y := by
  cases s with
  | body decl => cases howner
  | operand e' =>
    cases v <;> simp_all [slot, Variant.operand?, Variant.list?]
  | elem e' j =>
    have hy : v.list?.bind (·[j]?) = some y := hs
    rw [h] at hy
    exact ⟨j, congrArg (Slot.elem · j) (Ptr.expr.inj howner), hy⟩

section Slots

variable {H H' : AstHeap} {s : Slot} {x : ExprPtr}

theorem AstHeap.slot_mem (h : H.slot s = some x) : Ptr.expr x ∈ H.children s.owner := by
  obtain ⟨C, hC, hx⟩ := Option.bind_eq_some_iff.1 h
  rw [AstHeap.children_eq hC]
  exact Content.slot_mem hx

theorem AstHeap.slot_congr (h : H'.content s.owner = H.content s.owner) : H'.slot s = H.slot s := by
  rw [AstHeap.slot, AstHeap.slot, h]

theorem AstHeap.slot_eq {e : ExprPtr} {C : Content} (howner : s.owner = .expr e)
    (h : H.content (.expr e) = some C) : H.slot s = C.slot s := by
  rw [AstHeap.slot, howner, h]
  rfl

end Slots

/-- The slots lead from a listed production to an object, the last one first. -/
inductive Chain (H : AstHeap) (decls : List DeclPtr) : List Slot → Ptr → Prop
  | nil {decl : DeclPtr} (h : decl ∈ decls) : Chain H decls [] (.decl decl)
  | cons {path : List Slot} {s : Slot} {x : ExprPtr} (h : Chain H decls path s.owner)
    (hs : H.slot s = some x) : Chain H decls (s :: path) (.expr x)

/-- The object a chain leads to, or one on the way. -/
def OnPath (path : List Slot) (p q : Ptr) : Prop := q = p ∨ ∃ s ∈ path, s.owner = q

namespace Chain

variable {H H' : AstHeap} {decls : List DeclPtr} {path : List Slot} {p q : Ptr} {e : ExprPtr}
  {ref : Slot}

theorem congr (h : Chain H decls path p) (hslots : ∀ s ∈ path, H'.slot s = H.slot s) :
    Chain H' decls path p := by
  induction h with
  | nil hdecl => exact .nil hdecl
  | @cons path s x _ hs ih =>
    have hlast := ih fun s' hs' => hslots s' (List.mem_cons_of_mem s hs')
    exact hlast.cons ((hslots s List.mem_cons_self).trans hs)

theorem held_by (h : Chain H decls path p) (hq : OnPath path p q) :
    (∃ decl ∈ decls, q = .decl decl) ∨ ∃ s ∈ path, ∃ x, H.slot s = some x ∧ q = .expr x := by
  induction h generalizing q with
  | @nil decl hdecl =>
    rcases hq with rfl | ⟨s, hs, -⟩
    · exact .inl ⟨decl, hdecl, rfl⟩
    · cases hs
  | @cons path s x _ hs ih =>
    have hbefore : OnPath path s.owner q → (∃ decl ∈ decls, q = .decl decl) ∨
        ∃ s' ∈ s :: path, ∃ x, H.slot s' = some x ∧ q = .expr x := by
      intro hq
      rcases ih hq with hdecl | ⟨s', hs', hx⟩
      · exact .inl hdecl
      · exact .inr ⟨s', List.mem_cons_of_mem s hs', hx⟩
    rcases hq with rfl | ⟨s', hs', rfl⟩
    · exact .inr ⟨s, List.mem_cons_self, x, hs, rfl⟩
    · rcases List.mem_cons.1 hs' with rfl | hs'
      · exact hbefore (.inl rfl)
      · exact hbefore (.inr ⟨s', hs', rfl⟩)

theorem slot_isSome (h : Chain H decls path p) {s : Slot} (hs : s ∈ path) :
    ∃ x, H.slot s = some x := by
  induction h with
  | nil _ => cases hs
  | @cons path s₀ x _ hs₀ ih =>
    rcases List.mem_cons.1 hs with rfl | hs
    · exact ⟨x, hs₀⟩
    · exact ih hs

/-- What a slot of the path holds is on the path. -/
theorem next (h : Chain H decls path p) {s : Slot} (hs : s ∈ path) {x : ExprPtr}
    (hx : H.slot s = some x) : OnPath path p (.expr x) := by
  induction h with
  | nil _ => cases hs
  | @cons path s₀ y _ hs₀ ih =>
    rcases List.mem_cons.1 hs with rfl | hs
    · rw [hs₀] at hx
      cases hx
      exact .inl rfl
    · rcases ih hs with heq | ⟨s', hs', heq⟩
      · exact .inr ⟨s₀, List.mem_cons_self, heq.symm⟩
      · exact .inr ⟨s', List.mem_cons_of_mem s₀ hs', heq⟩

/-- The last slot is a new one if what it holds has not been come through. -/
theorem new_slot (h : Chain H decls path ref.owner) (href : H.slot ref = some e)
    (hout : ∀ s ∈ ref :: path, s.owner ≠ .expr e) : ref ∉ path := by
  intro hmem
  rcases h.next hmem href with heq | ⟨s, hs, howner⟩
  · exact hout ref List.mem_cons_self heq.symm
  · exact hout s (List.mem_cons_of_mem ref hs) howner

/-- Below an expression that the path has come through, it goes on to one it has come through. -/
theorem again (h : Chain H decls path (.expr e)) {s : Slot} (hs : s ∈ path)
    (howner : s.owner = .expr e) {x : ExprPtr} (hx : H.slot s = some x) :
    ∃ s' ∈ s :: path, s'.owner = .expr x := by
  rcases h.next hs hx with heq | ⟨s', hs', heq⟩
  · exact ⟨s, List.mem_cons_self, howner.trans heq.symm⟩
  · exact ⟨s', List.mem_cons_of_mem s hs', heq⟩

end Chain

/-- The counts are right in a pass, in which every production has its mark, and all productions are
listed. -/
structure Ast.Right (c : Ast) : Prop where
  counted : Counted c.heap c.heap.children (c.marks + declRefs c.decls.head?.toList)
  listed : ∀ decl, (c.heap.content (.decl decl)).isSome → decl ∈ c.decls

theorem Ast.Right.isSome {c : Ast} (h : c.Right) {path : List Slot} {p q : Ptr}
    (hchain : Chain c.heap c.decls path p) (hq : OnPath path p q) : (c.heap.content q).isSome := by
  rcases hchain.held_by hq with ⟨decl, hdecl, rfl⟩ | ⟨s, -, x, hx, rfl⟩
  · apply h.counted.isSome_of_owner
    exact Multiset.mem_add.2 (.inl (mem_declRefs.2 ⟨decl, hdecl, rfl⟩))
  · have hmem := AstHeap.slot_mem hx
    exact h.counted.isSome_of_child (AstHeap.isSome_of_mem_children hmem) hmem

/-- The object `m` is to become `C`, and these references are still to be released. -/
structure Session (c : Ast) (path : List Slot) (m : Ptr) (C : Content) (pending : Multiset Ptr)
    (K : AstHeap) : Prop where
  counted : Counted K (Function.update K.children m C.children)
    (pending + (c.marks + declRefs c.decls.head?.toList))
  listed : ∀ decl, (K.content (.decl decl)).isSome → decl ∈ c.decls
  slots : ∀ s ∈ path, K.slot s = c.heap.slot s
  keeps : ∀ s ∈ path, s.owner = m → C.slot s = c.heap.slot s

/-- The counts are right, and the slots of a path hold what they held. -/
structure Held (c₀ : Ast) (path : List Slot) (c : Ast) : Prop where
  right : c.Right
  decls : c.decls = c₀.decls
  slots : ∀ s ∈ path, c.heap.slot s = c₀.heap.slot s

namespace Held

variable {c₀ c c' : Ast} {path path' : List Slot} {p : Ptr}

theorem refl (h : c.Right) : Held c path c := ⟨h, rfl, fun _ _ => rfl⟩

theorem trans (h : Held c₀ path c) (h' : Held c path c') : Held c₀ path c' where
  right := h'.right
  decls := h'.decls.trans h.decls
  slots s hs := (h'.slots s hs).trans (h.slots s hs)

theorem sub (h : Held c₀ path c) (hsub : path' ⊆ path) : Held c₀ path' c where
  right := h.right
  decls := h.decls
  slots s hs := h.slots s (hsub hs)

theorem chain (h : Held c₀ path c) (hchain : Chain c₀.heap c₀.decls path p) :
    Chain c.heap c.decls path p := by
  rw [h.decls]
  exact hchain.congr h.slots

end Held

namespace Session

variable {c : Ast} {path : List Slot} {m o : Ptr} {C : Content} {pending : Multiset Ptr}
  {K H : AstHeap}

theorem release (ndebug : Bool) (h : Session c path m C (o ::ₘ pending) K)
    (hchain : Chain c.heap c.decls path m) :
    (∀ f, mozRcRelease ndebug K o = .error f → f = .null) ∧
    ∀ K', mozRcRelease ndebug K o = .ok K' →
      Session c path m C pending K' ∧ Spared (OnPath path m) K K' := by
  have hcounted := h.counted
  rw [Multiset.cons_add] at hcounted
  have hsame : ∀ p, ¬OnPath path m p →
      K.children p = Function.update K.children m C.children p := by
    intro p hp
    rw [Function.update_of_ne fun hpm => hp (.inl hpm)]
  have hkept : ∀ p, OnPath path m p →
      p ∈ pending + (c.marks + declRefs c.decls.head?.toList) ∨
        ∃ q ∈ K.live, OnPath path m q ∧ p ∈ Function.update K.children m C.children q := by
    intro p hp
    rcases hchain.held_by hp with ⟨decl, hdecl, rfl⟩ | ⟨s, hs, x, hx, rfl⟩
    · left
      simp only [Multiset.mem_add, Ast.marks, mem_declRefs]
      exact .inr (.inl ⟨decl, hdecl, rfl⟩)
    · right
      have hx' := (h.slots s hs).trans hx
      have hmem := AstHeap.slot_mem hx'
      refine ⟨s.owner, ?_, .inr ⟨s, hs, rfl⟩, ?_⟩
      · exact h.counted.bounded.mem_live.2 (AstHeap.isSome_of_mem_children hmem)
      · by_cases howner : s.owner = m
        · rw [howner, Function.update_self]
          exact Content.slot_mem ((h.keeps s hs howner).trans hx)
        · rwa [Function.update_of_ne howner]
  obtain ⟨herror, hok⟩ := hcounted.release ndebug hsame hkept
  refine ⟨herror, fun K' hK' => ?_⟩
  obtain ⟨hcounted', hspared⟩ := hok K' hK'
  refine ⟨⟨?_, ?_, ?_, h.keeps⟩, hspared⟩
  · apply hcounted'.congr
    intro p hp
    by_cases hpm : p = m
    · rw [hpm, Function.update_self, Function.update_self]
    · rw [Function.update_of_ne hpm, Function.update_of_ne hpm,
        AstHeap.children_congr (hspared.left p hp)]
  · intro decl hdecl
    apply h.listed
    rwa [← hspared.left _ hdecl]
  · intro s hs
    rw [AstHeap.slot_congr (hspared.kept s.owner (.inr ⟨s, hs, rfl⟩))]
    exact h.slots s hs

/-- A session ends when nothing is pending and the object is what it is to become. -/
theorem finish (h : Session c path m C 0 K) (hself : H.content m = some C)
    (hother : ∀ p, p ≠ m → H.content p = K.content p) (hrefc : ∀ p, H.refc p = K.refc p)
    (hnext : H.next = K.next) (hm : (K.content m).isSome) :
    Held c path { c with heap := H } := by
  have hisSome : ∀ p, (H.content p).isSome ↔ (K.content p).isSome := by
    intro p
    by_cases hpm : p = m
    · simp [hpm, hself, hm]
    · rw [hother p hpm]
  have hchildren : ∀ p, H.children p = Function.update K.children m C.children p := by
    intro p
    by_cases hpm : p = m
    · rw [hpm, Function.update_self, AstHeap.children_eq hself]
    · rw [Function.update_of_ne hpm, AstHeap.children_congr (hother p hpm)]
  have hbounded : H.Bounded := by
    intro p hp
    rw [hnext]
    exact h.counted.bounded p ((hisSome p).1 hp)
  have hlive : H.live = K.live := by
    ext p
    rw [hbounded.mem_live, h.counted.bounded.mem_live, hisSome]
  have howned := h.counted.owned.congr (fun p _ => hchildren p) fun p _ => hrefc p
  rw [zero_add, ← hlive] at howned
  refine ⟨⟨⟨hbounded, howned⟩, ?_⟩, rfl, ?_⟩
  · exact fun decl hdecl => h.listed decl ((hisSome _).1 hdecl)
  · intro s hs
    by_cases howner : s.owner = m
    · rw [← h.keeps s hs howner]
      show (H.content s.owner).bind _ = _
      rw [howner, hself]
      rfl
    · rw [← h.slots s hs]
      exact AstHeap.slot_congr (hother _ howner)

end Session

/-- Only `m` has been written, but for objects without pointers; the objects `made` are new, and the
references `new` have been counted. -/
structure Prepared (c : Ast) (path : List Slot) (m : Ptr) (made new : List ExprPtr) (K : AstHeap) :
    Prop where
  bounded : K.Bounded
  isSome_iff : ∀ p, (K.content p).isSome ↔ (c.heap.content p).isSome ∨ p ∈ made.map Ptr.expr
  children : ∀ p, p ≠ m → K.children p = c.heap.children p
  refc : ∀ p, K.refc p = c.heap.refc p + (new.map Ptr.expr).count p
  slots : ∀ s ∈ path, K.slot s = c.heap.slot s

namespace Prepared

variable {c : Ast} {path : List Slot} {m : Ptr} {made new : List ExprPtr} {K : AstHeap}

theorem start (h : c.Right) : Prepared c path m [] [] c.heap where
  bounded := h.counted.bounded
  isSome_iff p := by simp
  children _ _ := rfl
  refc p := by simp
  slots _ _ := rfl

theorem content_next (h : Prepared c path m made new K) : K.content (.expr K.next) = none := by
  by_contra hne
  exact lt_irrefl _ (h.bounded _ (Option.isSome_iff_ne_none.2 hne))

theorem alloc (h : Prepared c path m made new K) {v : Variant} (hv : v.refs = [])
    (hpath : ∀ s ∈ path, (c.heap.content s.owner).isSome) :
    Prepared c path m (K.next :: made) new (K.alloc v) := by
  have hnone := h.content_next
  have hold : (c.heap.content (.expr K.next)) = none := by
    rw [← Option.not_isSome_iff_eq_none]
    intro hsome
    have := (h.isSome_iff (.expr K.next)).2 (.inl hsome)
    rw [hnone] at this
    cases this
  constructor
  · intro p hp
    rw [AstHeap.next_alloc]
    by_cases hpn : p = .expr K.next
    · subst hpn
      exact Nat.lt_succ_self K.next
    · rw [AstHeap.content_alloc_of_ne v hpn] at hp
      exact (h.bounded p hp).trans (Nat.lt_succ_self K.next)
  · intro p
    by_cases hpn : p = .expr K.next
    · rw [hpn, AstHeap.content_alloc_self]
      simp
    · rw [AstHeap.content_alloc_of_ne v hpn, h.isSome_iff, List.map_cons, List.mem_cons,
        or_iff_right hpn]
  · intro p hp
    by_cases hpn : p = .expr K.next
    · rw [hpn, AstHeap.children_eq (AstHeap.content_alloc_self v), AstHeap.children_eq_nil hold]
      simp [Content.children, Content.refs, hv]
    · rw [AstHeap.children_congr (AstHeap.content_alloc_of_ne v hpn)]
      exact h.children p hp
  · intro p
    by_cases hpn : p = .expr K.next
    · rw [← h.refc, hpn, AstHeap.refc_alloc_self, AstHeap.refc_eq_zero hnone]
    · rw [AstHeap.refc_alloc_of_ne v hpn]
      exact h.refc p
  · intro s hs
    have hne : s.owner ≠ .expr K.next := by
      intro howner
      have hsome := hpath s hs
      rw [howner, hold] at hsome
      cases hsome
    rw [AstHeap.slot_congr (AstHeap.content_alloc_of_ne v hne)]
    exact h.slots s hs

theorem retain (h : Prepared c path m made new K) {x : ExprPtr}
    (hx : (K.content (.expr x)).isSome) :
    Prepared c path m made (x :: new) (K.setRefc (K.refc (.expr x) + 1) (.expr x)) := by
  have hcontent := AstHeap.content_setRefc (H := K) (K.refc (.expr x) + 1) (.expr x)
  constructor
  · intro p hp
    rw [hcontent] at hp
    rw [AstHeap.next_setRefc]
    exact h.bounded p hp
  · intro p
    rw [hcontent]
    exact h.isSome_iff p
  · intro p hp
    rw [AstHeap.children_congr (hcontent p)]
    exact h.children p hp
  · intro p
    by_cases hpx : p = .expr x
    · subst hpx
      rw [AstHeap.refc_setRefc_self _ hx, h.refc, List.map_cons, List.count_cons_self]
      push_cast
      ring
    · rw [AstHeap.refc_setRefc_of_ne _ hpx, h.refc, List.map_cons,
        List.count_cons_of_ne (Ne.symm hpx)]
  · intro s hs
    rw [AstHeap.slot_congr (hcontent _)]
    exact h.slots s hs

theorem write (h : Prepared c path m made new K) {e : ExprPtr} (v : Variant) (hm : m = .expr e)
    (he : (K.content m).isSome) (hout : ∀ s ∈ path, s.owner ≠ m) :
    Prepared c path m made new (K.setVariant e v) := by
  subst hm
  have hself := AstHeap.content_setVariant_self v he
  have hother := fun {p : Ptr} (hp : p ≠ .expr e) => AstHeap.content_setVariant_of_ne (H := K) v hp
  have hsome : ∀ p, ((K.setVariant e v).content p).isSome ↔ (K.content p).isSome := by
    intro p
    by_cases hpe : p = .expr e
    · rw [hpe, hself]
      simp [he]
    · rw [hother hpe]
  constructor
  · exact fun p hp => h.bounded p ((hsome p).1 hp)
  · exact fun p => (hsome p).trans (h.isSome_iff p)
  · intro p hp
    rw [AstHeap.children_congr (hother hp)]
    exact h.children p hp
  · intro p
    rw [AstHeap.refc_setVariant]
    exact h.refc p
  · intro s hs
    rw [AstHeap.slot_congr (hother (hout s hs))]
    exact h.slots s hs

theorem writeLeaf (h : Prepared c path m made new K) {x : ExprPtr} {u v : Variant}
    (hx : K.content (.expr x) = some (.expr u)) (hu : u.refs = []) (hv : v.refs = [])
    (hout : ∀ s ∈ path, s.owner ≠ .expr x) :
    Prepared c path m made new (K.setVariant x v) := by
  have hself := AstHeap.content_setVariant_self v (Option.isSome_iff_exists.2 ⟨_, hx⟩)
  have hother := fun {p : Ptr} (hp : p ≠ .expr x) => AstHeap.content_setVariant_of_ne (H := K) v hp
  have hsome : ∀ p, ((K.setVariant x v).content p).isSome ↔ (K.content p).isSome := by
    intro p
    by_cases hpx : p = .expr x
    · rw [hpx, hself, hx]
      simp
    · rw [hother hpx]
  constructor
  · exact fun p hp => h.bounded p ((hsome p).1 hp)
  · exact fun p => (hsome p).trans (h.isSome_iff p)
  · intro p hp
    rw [← h.children p hp]
    by_cases hpx : p = .expr x
    · rw [hpx, AstHeap.children_eq hself, AstHeap.children_eq hx]
      simp [Content.children, Content.refs, hu, hv]
    · exact AstHeap.children_congr (hother hpx)
  · intro p
    rw [AstHeap.refc_setVariant]
    exact h.refc p
  · intro s hs
    rw [AstHeap.slot_congr (hother (hout s hs))]
    exact h.slots s hs

theorem session (h : Prepared c path m made new K) {C : Content} (C' : Content)
    (old rest : List Ptr) (hright : c.Right) (hm : c.heap.content m = some C)
    (hold : C.children.Perm (old ++ rest))
    (hnew : C'.children.Perm (new.map Ptr.expr ++ rest))
    (hlive : ∀ x ∈ new, (K.content (.expr x)).isSome)
    (hkeeps : ∀ s ∈ path, s.owner = m → C'.slot s = c.heap.slot s) :
    Session c path m C' old K := by
  have hsome : (c.heap.content m).isSome := Option.isSome_iff_exists.2 ⟨_, hm⟩
  have hnone : ∀ p, p ∉ c.heap.live → c.heap.content p = none := by
    intro p hp
    rw [hright.counted.bounded.mem_live, Option.not_isSome_iff_eq_none] at hp
    exact hp
  have hne : ∀ p, p ∉ c.heap.live → p ≠ m := by
    rintro p hp rfl
    rw [hnone p hp] at hsome
    cases hsome
  refine ⟨⟨h.bounded, ?_⟩, ?_, h.slots, hkeeps⟩
  · refine hright.counted.owned.edit old _ rest (hright.counted.bounded.mem_live.2 hsome) ?_
      (AstHeap.children_eq hm ▸ hold) (by rwa [Function.update_self]) ?_ ?_ (fun p _ => h.refc p) ?_
    · intro p hp
      exact h.bounded.mem_live.2 ((h.isSome_iff p).2 (.inl (hright.counted.bounded.mem_live.1 hp)))
    · intro p _ hpm
      rw [Function.update_of_ne hpm]
      exact h.children p hpm
    · intro p _ hp
      rw [Function.update_of_ne (hne p hp), h.children p (hne p hp)]
      exact ⟨AstHeap.children_eq_nil (hnone p hp), AstHeap.refc_eq_zero (hnone p hp)⟩
    · intro p hp
      obtain ⟨x, hx, rfl⟩ := List.mem_map.1 hp
      exact h.bounded.mem_live.2 (hlive x hx)
  · intro decl hdecl
    rcases (h.isSome_iff _).1 hdecl with hdecl | hdecl
    · exact hright.listed decl hdecl
    · simp at hdecl

end Prepared

end Moz.Compiler
