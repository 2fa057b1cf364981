import Moz.Compiler.AstRewrites

/-!
# What the rewrites of a sequence keep

A round of `_moz_Sequence_optimize` rewrites the elements of a sequence that the
path ends at and no slot of the path belongs to. Each rewrite makes at most one new
object, counts the references the sequence gets, and releases those it loses.
-/

namespace Moz.Compiler

open RefCount

/-- A release of an object with a further reference sweeps nothing. -/
theorem mozRcRelease_shared (ndebug : Bool) {H : AstHeap} {o : Ptr} (hheld : (H.content o).isSome)
    (h : 1 < H.refc o) : mozRcRelease ndebug H o = .ok (H.setRefc (H.refc o - 1) o) := by
  have hne : ¬(H.setRefc (H.refc o - 1) o).refc o = 0 := by
    rw [AstHeap.refc_setRefc_self _ hheld]
    omega
  rw [mozRcRelease, mozRcReleaseFuel_succ ndebug _ hheld (.inr (by omega)), if_neg hne]

/-- A release of an object that holds no pointers leaves the other objects alone. -/
theorem mozRcRelease_leaf (ndebug : Bool) {H H' : AstHeap} {o p : Ptr}
    (hheld : (H.content o).isSome) (hpos : 0 < H.refc o) (hrefs : H.refs o = [])
    (hrun : mozRcRelease ndebug H o = .ok H') (hp : p ≠ o) : H'.content p = H.content p := by
  have hrefs' : (H.setRefc (H.refc o - 1) o).refs o = [] :=
    (AstHeap.refs_congr (AstHeap.content_setRefc _ o o)).trans hrefs
  rw [mozRcRelease, mozRcReleaseFuel_succ ndebug _ hheld (.inr hpos), hrefs'] at hrun
  split_ifs at hrun
  · cases hrun
    rw [AstHeap.content_free_of_ne hp, AstHeap.content_setRefc]
  · cases hrun
    rw [AstHeap.content_setRefc]

theorem exists_split_two {α : Type} {list : List α} {i : ℕ} {x y : α} (hx : list[i]? = some x)
    (hy : list[i + 1]? = some y) :
    ∃ before after, list = before ++ x :: y :: after ∧ before.length = i := by
  obtain ⟨before, after, rfl, rfl⟩ := exists_split hx
  rw [List.getElem?_append_right (by omega)] at hy
  simp only [Nat.add_sub_cancel_left, List.getElem?_cons_succ] at hy
  obtain ⟨before', after', rfl, hlength⟩ := exists_split hy
  rw [List.length_eq_zero_iff.1 hlength]
  exact ⟨before, after', rfl, rfl⟩

section Elements

variable {list before after : List ExprPtr} {x y n : ExprPtr} {i : ℕ}

theorem perm_two : (before ++ x :: y :: after).Perm ([x, y] ++ (before ++ after)) := by
  rw [show before ++ x :: y :: after = before ++ ([x, y] ++ after) by simp]
  exact List.perm_append_comm_assoc before [x, y] after

theorem perm_joined : (((before ++ x :: y :: after).set before.length n).eraseIdx
    (before.length + 1)).Perm ([n] ++ (before ++ after)) := by
  have hset : ((before ++ x :: y :: after).set before.length n).eraseIdx (before.length + 1) =
      before ++ n :: after := by
    simp [List.eraseIdx_append_of_length_le]
  rw [hset]
  exact List.perm_middle

theorem perm_eraseIdx (hx : list[i]? = some x) : list.Perm ([x] ++ list.eraseIdx i) := by
  obtain ⟨before, after, rfl, rfl⟩ := exists_split hx
  rw [List.eraseIdx_append_of_length_le le_rfl, Nat.sub_self, List.eraseIdx_cons_zero]
  exact List.perm_middle

@[simp] theorem Variant.setList_setList (v : Variant) (list list' : List ExprPtr) :
    (v.setList list).setList list' = v.setList list' := by
  cases v <;> rfl

end Elements

section Facts

variable {c : Ast} {path : List Slot} {e x : ExprPtr} {v u : Variant} {list : List ExprPtr}

theorem Ast.Right.onPath (h : c.Right) {p : Ptr} (hchain : Chain c.heap c.decls path p) :
    ∀ s ∈ path, (c.heap.content s.owner).isSome := fun s hs =>
  h.isSome hchain (.inr ⟨s, hs, rfl⟩)

theorem Ast.Right.element (h : c.Right) (hv : c.heap.content (.expr e) = some (.expr v))
    (hlist : v.list? = some list) (hx : x ∈ list) : (c.heap.content (.expr x)).isSome := by
  apply h.counted.isSome_of_child (m := .expr e)
  · exact Option.isSome_iff_exists.2 ⟨_, hv⟩
  · rw [AstHeap.children_eq hv, Variant.children_of_list hlist]
    exact List.mem_map_of_mem hx

/-- An object that is there is not the one that is made next. -/
theorem Ast.Right.ne_next (h : c.Right) {p : Ptr} (hp : (c.heap.content p).isSome) :
    p ≠ .expr c.heap.next := by
  rintro rfl
  exact lt_irrefl _ (h.counted.bounded _ hp)

theorem slot_elem {i : ℕ} (hv : c.heap.content (.expr e) = some (.expr v))
    (hlist : v.list? = some list) : c.heap.slot (.elem e i) = list[i]? := by
  simp [AstHeap.slot, Slot.owner, hv, Content.slot, hlist]

theorem ne_of_leaf {y : ExprPtr} (hv : c.heap.content (.expr e) = some (.expr v))
    (hlist : v.list? = some list) (hy : y ∈ list)
    (hu : c.heap.content (.expr x) = some (.expr u)) (hleaf : u.refs = []) :
    Ptr.expr x ≠ .expr e := by
  intro heq
  rw [heq, hv] at hu
  cases hu
  have hchildren := Variant.children_of_list hlist
  rw [Content.children, Content.refs, hleaf] at hchildren
  have hmem := List.mem_map_of_mem (f := Ptr.expr) hy
  rw [← hchildren] at hmem
  cases hmem

theorem not_owner_of_leaf {p : Ptr} (hchain : Chain c.heap c.decls path p)
    (hx : c.heap.content (.expr x) = some (.expr u)) (hu : u.refs = []) :
    ∀ s ∈ path, s.owner ≠ .expr x := by
  intro s hs howner
  obtain ⟨y, hy⟩ := hchain.slot_isSome hs
  have hmem := AstHeap.slot_mem hy
  rw [howner, AstHeap.children_eq hx] at hmem
  simp [Content.children, Content.refs, hu] at hmem

end Facts

theorem Prepared.joined {c : Ast} {path : List Slot} {e child child2 n : ExprPtr} {v : Variant}
    {list made : List ExprPtr} {i : ℕ} {K : AstHeap}
    (h : Prepared c path (.expr e) made [n] K) (hright : c.Right)
    (hv : c.heap.content (.expr e) = some (.expr v)) (hlist : v.list? = some list)
    (hx : list[i]? = some child) (hy : list[i + 1]? = some child2)
    (hn : (K.content (.expr n)).isSome) (hout : ∀ s ∈ path, s.owner ≠ .expr e) :
    Session c path (.expr e) (.expr (v.setList ((list.set i n).eraseIdx (i + 1))))
      ([child, child2].map Ptr.expr : List Ptr) K := by
  obtain ⟨before, after, rfl, rfl⟩ := exists_split_two hx hy
  apply h.session _ _ ((before ++ after).map Ptr.expr) hright hv
  · rw [Variant.children_of_list hlist, ← List.map_append]
    exact perm_two.map _
  · rw [Variant.children_of_list (by rw [Variant.list_setList, hlist]; rfl), ← List.map_append]
    exact perm_joined.map _
  · intro x hx
    rwa [List.mem_singleton.1 hx]
  · exact fun s hs howner => absurd howner (hout s hs)

theorem Prepared.erased {c : Ast} {path : List Slot} {e x : ExprPtr} {made list : List ExprPtr}
    {k : ℕ} {v : Variant} {K : AstHeap} (hprepared : Prepared c path (.expr e) made [] K)
    (h : c.Right) (hv : c.heap.content (.expr e) = some (.expr v)) (hlist : v.list? = some list)
    (hx : list[k]? = some x) (hout : ∀ s ∈ path, s.owner ≠ .expr e) :
    Session c path (.expr e) (.expr (v.setList (list.eraseIdx k))) (.expr x ::ₘ 0) K := by
  apply hprepared.session _ [.expr x] ((list.eraseIdx k).map Ptr.expr) h hv
  · rw [Variant.children_of_list hlist]
    exact (perm_eraseIdx hx).map _
  · rw [Variant.children_of_list (by rw [Variant.list_setList, hlist]; rfl)]
    exact List.Perm.refl _
  · intro y hy
    cases hy
  · exact fun s hs howner => absurd howner (hout s hs)

namespace AstM

open Logged (wp Contract get set raise note lift wp_bind wp_note)

/-- The two elements a rewrite replaces are released. The first is still there if it has further
references and the second holds no pointers. -/
theorem wp_release_both (ndebug : Bool) {c : Ast} {path : List Slot} {m : Ptr} {C : Content}
    {K : AstHeap} {post : Unit → Ast → Prop} {child child2 : ExprPtr}
    (h : Session c path m C ([child, child2].map Ptr.expr : List Ptr) K)
    (hchain : Chain c.heap c.decls path m)
    (hpost : ∀ K', Session c path m C 0 K' → K'.content m = K.content m →
      ((if child = child2 then 2 else 1) < K.refc (.expr child) → K.refs (.expr child2) = [] →
        K'.content (.expr child) = K.content (.expr child)) →
      post () { c with heap := K' }) :
    wp lifetime (release ndebug child) (fun _ => wp lifetime (release ndebug child2) post)
      { c with heap := K } := by
  have hpending : (([child, child2].map Ptr.expr : List Ptr) : Multiset Ptr) =
      .expr child ::ₘ .expr child2 ::ₘ 0 := rfl
  rw [hpending] at h
  have hheld : (K.content (.expr child)).isSome := h.counted.isSome_of_owner (by simp)
  apply wp_release_session ndebug h hchain
  intro K₁ h₁ hspared₁ hrun₁
  apply wp_release_session ndebug h₁ hchain
  intro K₂ h₂ hspared₂ hrun₂
  apply hpost K₂ h₂
  · rw [hspared₂.kept m (.inl rfl), hspared₁.kept m (.inl rfl)]
  · intro hrefc hleaf
    have h1 : 1 < K.refc (.expr child) := by
      split_ifs at hrefc <;> omega
    rw [mozRcRelease_shared ndebug hheld h1] at hrun₁
    cases hrun₁
    have hcontent := AstHeap.content_setRefc (H := K) (K.refc (.expr child) - 1) (.expr child)
    by_cases heq : child = child2
    · subst heq
      rw [if_pos rfl] at hrefc
      have hself := AstHeap.refc_setRefc_self (K.refc (.expr child) - 1) hheld
      rw [mozRcRelease_shared ndebug (by rw [hcontent]; exact hheld) (by omega)] at hrun₂
      cases hrun₂
      rw [AstHeap.content_setRefc, hcontent]
    · have hne : Ptr.expr child ≠ .expr child2 := fun h => heq (Ptr.expr.inj h)
      have howner : Ptr.expr child2 ∈ Ptr.expr child2 ::ₘ 0 +
          (c.marks + declRefs c.decls.head?.toList) := by simp
      rw [mozRcRelease_leaf ndebug (h₁.counted.isSome_of_owner howner)
        (h₁.counted.owned.pos_of_owner howner)
        ((AstHeap.refs_congr (AstHeap.content_setRefc _ _ _)).trans hleaf) hrun₂ hne, hcontent]

section Rewrites

variable {c : Ast} {path : List Slot} {e child : ExprPtr} {i : ℕ}

theorem wp_joinElements (ndebug : Bool) (h : c.Right) (hchain : Chain c.heap c.decls path (.expr e))
    (hout : ∀ s ∈ path, s.owner ≠ .expr e) {v w u u2 : Variant} {list : List ExprPtr}
    {child2 : ExprPtr} {post : Unit → Ast → Prop}
    (hv : c.heap.content (.expr e) = some (.expr v)) (hlist : v.list? = some list)
    (hw : w.refs = []) (hx : list[i]? = some child) (hy : list[i + 1]? = some child2)
    (hu : c.heap.content (.expr child) = some (.expr u)) (hleaf : u.refs = [])
    (hu2 : c.heap.content (.expr child2) = some (.expr u2)) (hleaf2 : u2.refs = [])
    (houtlives : Outlives c child child2)
    (hpost : ∀ c', Held c path c' → c'.heap.content (.expr child) = some (.expr u) → post () c') :
    wp lifetime (joinElements ndebug e i child child2 c.heap.next) post
      { c with heap := c.heap.alloc w } := by
  have he := h.isSome hchain (.inl rfl)
  have hchild := h.element hv hlist (List.mem_of_getElem? hx)
  have hchild2 := h.element hv hlist (List.mem_of_getElem? hy)
  have hne := ne_of_leaf hv hlist (List.mem_of_getElem? hx) hu hleaf
  have hne2 := ne_of_leaf hv hlist (List.mem_of_getElem? hx) hu2 hleaf2
  have hv₁ : (c.heap.alloc w).content (.expr e) = some (.expr v) :=
    (AstHeap.content_alloc_of_ne w (h.ne_next he)).trans hv
  have hn : (((c.heap.alloc w).setVariant e (v.setList (list.set i c.heap.next))).content
      (.expr c.heap.next)).isSome := by
    rw [AstHeap.content_setVariant_of_ne _ (h.ne_next he).symm, AstHeap.content_alloc_self]
    rfl
  rw [joinElements, wp_bind, wp_listSet hv₁ hlist, wp_bind, wp_retain hn]
  have hprepared := (((Prepared.start h : Prepared c path (.expr e) [] [] c.heap).alloc hw
    (h.onPath hchain)).write (v.setList (list.set i c.heap.next)) rfl (by rw [hv₁]; rfl)
      hout).retain hn
  have hother : ∀ p, p ≠ .expr e → p ≠ .expr c.heap.next →
      (((c.heap.alloc w).setVariant e (v.setList (list.set i c.heap.next))).setRefc
        (((c.heap.alloc w).setVariant e (v.setList (list.set i c.heap.next))).refc
          (.expr c.heap.next) + 1) (.expr c.heap.next)).content p = c.heap.content p := by
    intro p hpe hpn
    rw [AstHeap.content_setRefc, AstHeap.content_setVariant_of_ne _ hpe,
      AstHeap.content_alloc_of_ne w hpn]
  have hself : (((c.heap.alloc w).setVariant e (v.setList (list.set i c.heap.next))).setRefc
        (((c.heap.alloc w).setVariant e (v.setList (list.set i c.heap.next))).refc
          (.expr c.heap.next) + 1) (.expr c.heap.next)).content (.expr e) =
      some (.expr (v.setList (list.set i c.heap.next))) := by
    rw [AstHeap.content_setRefc, AstHeap.content_setVariant_self _ (by rw [hv₁]; rfl)]
  have hn' : ((((c.heap.alloc w).setVariant e (v.setList (list.set i c.heap.next))).setRefc
        (((c.heap.alloc w).setVariant e (v.setList (list.set i c.heap.next))).refc
          (.expr c.heap.next) + 1) (.expr c.heap.next)).content (.expr c.heap.next)).isSome := by
    rw [AstHeap.content_setRefc]
    exact hn
  show wp lifetime _ post { c with heap := _ }
  generalize ((c.heap.alloc w).setVariant e (v.setList (list.set i c.heap.next))).setRefc
        (((c.heap.alloc w).setVariant e (v.setList (list.set i c.heap.next))).refc
          (.expr c.heap.next) + 1) (.expr c.heap.next) = K at *
  have hsession := hprepared.joined h hv hlist hx hy hn' hout
  simp only [wp_bind]
  apply wp_release_both ndebug hsession hchain
  intro K' h' hself' hkeep
  rw [wp_listRemove (hself'.trans hself) (by rw [Variant.list_setList, hlist]; rfl),
    Variant.setList_setList]
  apply hpost
  · apply h'.finish
    · exact AstHeap.content_setVariant_self _ (by rw [hself', hself]; rfl)
    · exact fun p hp => AstHeap.content_setVariant_of_ne _ hp
    · exact fun p => AstHeap.refc_setVariant e _ p
    · rfl
    · rw [hself', hself]
      rfl
  · have hrefs : K.refs (.expr child2) = [] := by
      rw [AstHeap.refs, hother _ hne2 (h.ne_next hchild2), hu2]
      exact hleaf2
    have hrefc : K.refc (.expr child) = c.heap.refc (.expr child) := by
      rw [hprepared.refc]
      simp [Ne.symm (fun heq => h.ne_next hchild (congrArg Ptr.expr heq))]
    show (K'.setVariant e _).content (.expr child) = _
    rw [AstHeap.content_setVariant_of_ne _ hne, hkeep (by rw [hrefc]; exact houtlives) hrefs,
      hother _ hne (h.ne_next hchild), hu]

theorem wp_mozSequenceJoinBytes (ndebug : Bool) (h : c.Right)
    (hchain : Chain c.heap c.decls path (.expr e)) (hout : ∀ s ∈ path, s.owner ≠ .expr e)
    {post : Bool → Ast → Prop}
    (hchild : (c.heap.content (.expr child)).isSome)
    (hslot : ∀ b, c.heap.content (.expr child) = some (.expr (.byte b)) →
      c.heap.slot (.elem e i) = some child)
    (hpost : ∀ b c', Held c path c' → (c' = c ∨
      ∃ b, c'.heap.content (.expr child) = some (.expr (.byte b))) → post b c') :
    wp lifetime (mozSequenceJoinBytes ndebug e i child) post c := by
  obtain ⟨u, hu⟩ := exists_variant hchild
  have hsame : ∀ b, post b c := fun b => hpost b c (.refl h) (.inl rfl)
  rw [mozSequenceJoinBytes, wp_bind, wp_readExpr hu]
  split
  · rename_i b1
    rw [wp_bind]
    apply wp_listNext_of_isSome (h.isSome hchain (.inl rfl)) (lifetime_fault (by decide))
    intro v list hv hlist
    split
    · rename_i child2 hy
      have hx := hslot b1 hu
      rw [slot_elem hv hlist] at hx
      obtain ⟨u2, hu2⟩ := exists_variant (h.element hv hlist (List.mem_of_getElem? hy))
      rw [wp_bind, wp_readExpr hu2]
      split
      · rw [wp_bind]
        apply wp_note_held h rfl
        intro hsound
        rw [wp_bind, wp_exprAlloc, wp_bind]
        apply wp_joinElements ndebug h hchain hout hv hlist rfl hx hy hu rfl hu2 rfl hsound
        intro c' hheld' hchild'
        exact hpost true c' hheld' (.inr ⟨b1, hchild'⟩)
      · exact hsame false
    · exact hsame false
  · exact hsame false

/-- The end of a rewrite of two elements, when the new one has taken the place of the first. -/
theorem wp_replaced (ndebug : Bool) (h : c.Right) (hchain : Chain c.heap c.decls path (.expr e))
    (hout : ∀ s ∈ path, s.owner ≠ .expr e) {v : Variant} {list : List ExprPtr}
    {child2 : ExprPtr} {H : AstHeap} {post : Unit → Ast → Prop}
    (hv : c.heap.content (.expr e) = some (.expr v)) (hlist : v.list? = some list)
    (hx : list[i]? = some child) (hy : list[i + 1]? = some child2)
    (hprepared : Prepared c path (.expr e) [c.heap.next] [] H)
    (hself : H.content (.expr e) = some (.expr (v.setList (list.set i c.heap.next))))
    (hpost : ∀ K, Held c path { c with heap := K } →
      (Ptr.expr child ≠ .expr e → Ptr.expr child2 ≠ .expr e → Outlives c child child2 →
        H.refs (.expr child2) = [] → K.content (.expr child) = H.content (.expr child)) →
      post () { c with heap := K }) :
    wp lifetime (listRemove e (i + 1)) (fun _ => wp lifetime (retain c.heap.next) fun _ =>
      wp lifetime (release ndebug child) fun _ => wp lifetime (release ndebug child2) post)
      { c with heap := H } := by
  have hchild := h.element hv hlist (List.mem_of_getElem? hx)
  have he : (H.content (.expr e)).isSome := Option.isSome_iff_exists.2 ⟨_, hself⟩
  have hwritten :=
    hprepared.write (v.setList ((list.set i c.heap.next).eraseIdx (i + 1))) rfl he hout
  have hwritten_self :=
    AstHeap.content_setVariant_self (v.setList ((list.set i c.heap.next).eraseIdx (i + 1))) he
  have hn := (hwritten.isSome_iff (.expr c.heap.next)).2 (.inr List.mem_cons_self)
  have hretained := hwritten.retain hn
  have hsession := hretained.joined h hv hlist hx hy (by rwa [AstHeap.content_setRefc]) hout
  rw [wp_listRemove hself (by rw [Variant.list_setList, hlist]; rfl), Variant.setList_setList,
    wp_retain hn]
  apply wp_release_both ndebug hsession hchain
  intro K' h' hself' hkeep
  rw [AstHeap.content_setRefc, hwritten_self] at hself'
  apply hpost
  · apply h'.finish hself' (fun _ _ => rfl) (fun _ => rfl) rfl
    exact Option.isSome_iff_exists.2 ⟨_, hself'⟩
  · intro hne hne2 houtlives hrefs
    have hrefc := hretained.refc (.expr child)
    have hcount : ([c.heap.next].map Ptr.expr).count (.expr child) = 0 := by
      simp [Ne.symm (fun heq => h.ne_next hchild (congrArg Ptr.expr heq))]
    rw [hcount, Nat.cast_zero, add_zero] at hrefc
    rw [hkeep (by rw [hrefc]; exact houtlives) (by
      rw [AstHeap.refs_congr (AstHeap.content_setRefc _ _ _),
        AstHeap.refs_congr (AstHeap.content_setVariant_of_ne _ hne2)]
      exact hrefs), AstHeap.content_setRefc, AstHeap.content_setVariant_of_ne _ hne]

theorem wp_mozSequenceComplement (ndebug : Bool) (h : c.Right)
    (hchain : Chain c.heap c.decls path (.expr e)) (hout : ∀ s ∈ path, s.owner ≠ .expr e)
    {post : Bool → Ast → Prop}
    (hchild : (c.heap.content (.expr child)).isSome)
    (hslot : ∀ x, c.heap.content (.expr child) = some (.expr (.not x)) →
      c.heap.slot (.elem e i) = some child)
    (hpost : ∀ b c', Held c path c' → post b c') :
    wp lifetime (mozSequenceComplement ndebug e i child) post c := by
  obtain ⟨u, hu⟩ := exists_variant hchild
  have hsame : ∀ b, post b c := fun b => hpost b c (.refl h)
  have he := h.isSome hchain (.inl rfl)
  rw [mozSequenceComplement, wp_bind, wp_readExpr hu]
  split
  · rename_i expr
    rw [wp_bind]
    apply wp_listNext_of_isSome he (lifetime_fault (by decide))
    intro v list hv hlist
    split
    · rename_i child2 hy
      have hx := hslot expr hu
      rw [slot_elem hv hlist] at hx
      have hexpr : (c.heap.content (.expr expr)).isSome := by
        apply h.counted.isSome_of_child hchild
        rw [AstHeap.children_eq hu]
        exact List.mem_singleton_self _
      obtain ⟨w, hw⟩ := exists_variant hexpr
      rw [wp_bind, wp_readExpr hw]
      split
      · rename_i byte
        obtain ⟨u2, hu2⟩ := exists_variant (h.element hv hlist (List.mem_of_getElem? hy))
        rw [wp_bind, wp_readExpr hu2]
        split
        · rw [wp_bind]
          apply wp_note_held h rfl
          intro hsound
          have hv₁ : (c.heap.alloc (.set (~~~putByte (putByte 0 byte) 0))).content (.expr e) =
              some (.expr v) := (AstHeap.content_alloc_of_ne _ (h.ne_next he)).trans hv
          have he₁ := Option.isSome_iff_exists.2 ⟨_, hv₁⟩
          have hprepared := ((Prepared.start h : Prepared c path (.expr e) [] [] c.heap).alloc
            (v := .set (~~~putByte (putByte 0 byte) 0)) rfl (h.onPath hchain)).write
              (v.setList (list.set i c.heap.next)) rfl he₁ hout
          have hself := AstHeap.content_setVariant_self (v.setList (list.set i c.heap.next)) he₁
          simp only [wp_bind, wp_exprAlloc]
          rw [wp_listSet hv₁ hlist]
          apply wp_replaced ndebug h hchain hout hv hlist hx hy hprepared hself
          intro K hheld' _
          exact hpost true _ hheld'
        · exact hsame false
      · exact hsame false
    · exact hsame false
  · exact hsame false

/-- The rewrite `append` of a round: the Byte is put at the end of the Str, and taken out. -/
theorem wp_append (ndebug : Bool) (h : c.Right) (hchain : Chain c.heap c.decls path (.expr e))
    (hout : ∀ s ∈ path, s.owner ≠ .expr e) {v : Variant} {list : List ExprPtr}
    {child2 : ExprPtr} {s1 : List UInt8} {byte : UInt8} {post : Unit → Ast → Prop}
    (hv : c.heap.content (.expr e) = some (.expr v)) (hlist : v.list? = some list)
    (hy : list[i + 1]? = some child2)
    (hu : c.heap.content (.expr child) = some (.expr (.str s1)))
    (hu2 : c.heap.content (.expr child2) = some (.expr (.byte byte)))
    (hpost : ∀ c', Held c path c' →
      c'.heap.content (.expr child) = some (.expr (.str (s1 ++ [byte]))) → post () c') :
    wp lifetime (writeExpr child (.str (s1 ++ [byte]))) (fun _ =>
      wp lifetime (release ndebug child2) fun _ => wp lifetime (listRemove e (i + 1)) post) c := by
  have hchild := Option.isSome_iff_exists.2 ⟨_, hu⟩
  have hne := ne_of_leaf hv hlist (List.mem_of_getElem? hy) hu rfl
  have hne2 : Ptr.expr child ≠ .expr child2 := by
    intro heq
    rw [heq, hu2] at hu
    cases hu
  have hprepared := (Prepared.start h : Prepared c path (.expr e) [] [] c.heap).writeLeaf
    (v := .str (s1 ++ [byte])) hu rfl rfl (not_owner_of_leaf hchain hu rfl)
  have hsession := hprepared.erased h hv hlist hy hout
  have howner : Ptr.expr child2 ∈ Ptr.expr child2 ::ₘ 0 +
      (c.marks + declRefs c.decls.head?.toList) := by simp
  rw [wp_writeExpr hchild]
  apply wp_release_session ndebug hsession hchain
  intro K h' hspared hrun
  have hself : K.content (.expr e) = some (.expr v) := by
    rw [hspared.kept _ (.inl rfl), AstHeap.content_setVariant_of_ne _ hne.symm, hv]
  have hkept := mozRcRelease_leaf ndebug (hsession.counted.isSome_of_owner howner)
    (hsession.counted.owned.pos_of_owner howner) (by
      rw [AstHeap.refs, AstHeap.content_setVariant_of_ne _ hne2.symm, hu2]
      rfl) hrun hne2
  have he := Option.isSome_iff_exists.2 ⟨_, hself⟩
  rw [wp_listRemove hself hlist]
  apply hpost
  · apply h'.finish _ _ _ _ he
    · exact AstHeap.content_setVariant_self _ he
    · exact fun p hp => AstHeap.content_setVariant_of_ne _ hp
    · exact fun p => AstHeap.refc_setVariant e _ p
    · rfl
  · show (K.setVariant e _).content (.expr child) = _
    rw [AstHeap.content_setVariant_of_ne _ hne, hkept, AstHeap.content_setVariant_self _ hchild]

theorem wp_joinStrs (ndebug : Bool) (h : c.Right) (hchain : Chain c.heap c.decls path (.expr e))
    (hout : ∀ s ∈ path, s.owner ≠ .expr e) {v w : Variant} {list : List ExprPtr}
    {child2 : ExprPtr} {s1 s2 : List UInt8} {post : Unit → Ast → Prop}
    (hv : c.heap.content (.expr e) = some (.expr v)) (hlist : v.list? = some list)
    (hw : w.refs = []) (hx : list[i]? = some child) (hy : list[i + 1]? = some child2)
    (hu : c.heap.content (.expr child) = some (.expr (.str s1)))
    (hu2 : c.heap.content (.expr child2) = some (.expr (.str s2)))
    (houtlives : Outlives c child child2)
    (hpost : ∀ c', Held c path c' → c'.heap.content (.expr child) = some (.expr (.str [])) →
      post () c') :
    wp lifetime (exprAlloc w) (fun expr => wp lifetime (listSet e i expr) fun _ =>
      wp lifetime (writeExpr child (.str [])) fun _ =>
      wp lifetime (writeExpr child2 (.str [])) fun _ =>
      wp lifetime (listRemove e (i + 1)) fun _ => wp lifetime (retain expr) fun _ =>
      wp lifetime (release ndebug child) fun _ => wp lifetime (release ndebug child2) post) c := by
  have he := h.isSome hchain (.inl rfl)
  have hchild := h.element hv hlist (List.mem_of_getElem? hx)
  have hchild2 := h.element hv hlist (List.mem_of_getElem? hy)
  have hne := ne_of_leaf hv hlist (List.mem_of_getElem? hx) hu rfl
  have hne2 := ne_of_leaf hv hlist (List.mem_of_getElem? hx) hu2 rfl
  have hv₁ : (c.heap.alloc w).content (.expr e) = some (.expr v) :=
    (AstHeap.content_alloc_of_ne w (h.ne_next he)).trans hv
  have he₁ := Option.isSome_iff_exists.2 ⟨_, hv₁⟩
  have hset := ((Prepared.start h : Prepared c path (.expr e) [] [] c.heap).alloc hw
    (h.onPath hchain)).write (v.setList (list.set i c.heap.next)) rfl he₁ hout
  have hself := AstHeap.content_setVariant_self (v.setList (list.set i c.heap.next)) he₁
  have hother : ∀ p, p ≠ .expr e → p ≠ .expr c.heap.next →
      ((c.heap.alloc w).setVariant e (v.setList (list.set i c.heap.next))).content p =
        c.heap.content p := by
    intro p hpe hpn
    rw [AstHeap.content_setVariant_of_ne _ hpe, AstHeap.content_alloc_of_ne w hpn]
  rw [wp_exprAlloc, wp_listSet hv₁ hlist]
  show wp lifetime _ _ { c with heap := _ }
  generalize (c.heap.alloc w).setVariant e (v.setList (list.set i c.heap.next)) = H at *
  have hu₁ := (hother _ hne (h.ne_next hchild)).trans hu
  have hemptied := hset.writeLeaf (v := .str []) hu₁ rfl rfl (not_owner_of_leaf hchain hu rfl)
  have hchild₁ := AstHeap.content_setVariant_self (.str []) (Option.isSome_iff_exists.2 ⟨_, hu₁⟩)
  have hu2₁ : ∃ s, (H.setVariant child (.str [])).content (.expr child2) =
      some (.expr (.str s)) := by
    by_cases heq : child2 = child
    · exact ⟨[], heq ▸ hchild₁⟩
    · refine ⟨s2, ?_⟩
      rw [AstHeap.content_setVariant_of_ne _ fun h => heq (Ptr.expr.inj h),
        hother _ hne2 (h.ne_next hchild2), hu2]
  obtain ⟨s, hu2₁⟩ := hu2₁
  have hprepared := hemptied.writeLeaf (v := .str []) hu2₁ rfl rfl
    (not_owner_of_leaf hchain hu2 rfl)
  have hself2 := AstHeap.content_setVariant_self (.str [])
    (Option.isSome_iff_exists.2 ⟨_, hu2₁⟩)
  rw [wp_writeExpr (Option.isSome_iff_exists.2 ⟨_, hu₁⟩),
    wp_writeExpr (Option.isSome_iff_exists.2 ⟨_, hu2₁⟩)]
  apply wp_replaced ndebug h hchain hout hv hlist hx hy hprepared
  · rw [AstHeap.content_setVariant_of_ne _ hne2.symm, AstHeap.content_setVariant_of_ne _ hne.symm,
      hself]
  · intro K hheld' hkeep
    apply hpost _ hheld'
    show K.content (.expr child) = _
    rw [hkeep hne hne2 houtlives (by rw [AstHeap.refs, hself2]; rfl)]
    by_cases heq : child = child2
    · rw [show Ptr.expr child = .expr child2 from congrArg _ heq]
      exact hself2
    · rw [AstHeap.content_setVariant_of_ne _ fun h => heq (Ptr.expr.inj h)]
      exact hchild₁

theorem wp_mozSequenceConcat (ndebug : Bool) (hout : ∀ s ∈ path, s.owner ≠ .expr e) (fuel : ℕ) :
    ∀ {c : Ast} {post : Bool → Ast → Prop}, c.Right → Chain c.heap c.decls path (.expr e) →
    (c.heap.content (.expr child)).isSome →
    (∀ b c', Held c path c' → (c' = c ∨
      ∃ s, c'.heap.content (.expr child) = some (.expr (.str s))) → post b c') →
    wp lifetime (mozSequenceConcat ndebug e i child fuel) post c := by
  induction fuel with
  | zero =>
    intro c post _ _ _ _
    exact lifetime_fault (by decide)
  | succ fuel ih =>
    intro c post h hchain hchild hpost
    obtain ⟨u, hu⟩ := exists_variant hchild
    have hsame : ∀ b, post b c := fun b => hpost b c (.refl h) (.inl rfl)
    -- the rounds that follow a rewrite still find a Str
    have hnext : ∀ c' s, Held c path c' → c'.heap.content (.expr child) = some (.expr (.str s)) →
        wp lifetime (mozSequenceConcat ndebug e i child fuel) (fun _ => post true) c' := by
      intro c' s hheld' hchild'
      apply ih hheld'.right (hheld'.chain hchain) (Option.isSome_iff_exists.2 ⟨_, hchild'⟩)
      rintro b c'' hheld'' (rfl | hstr)
      · exact hpost true _ hheld' (.inr ⟨s, hchild'⟩)
      · exact hpost true _ (hheld'.trans hheld'') (.inr hstr)
    show wp lifetime (readExpr child >>= _) post c
    rw [wp_bind, wp_readExpr hu]
    split
    · rename_i s1
      rw [wp_bind]
      apply wp_listNext_of_isSome (h.isSome hchain (.inl rfl)) (lifetime_fault (by decide))
      intro v list hv hlist
      split
      · rename_i child2 hy
        obtain ⟨u2, hu2⟩ := exists_variant (h.element hv hlist (List.mem_of_getElem? hy))
        rw [wp_bind, wp_readExpr hu2]
        split
        · rw [wp_bind]
          apply wp_note_held h rfl
          intro hsound
          simp only [wp_bind]
          apply wp_append ndebug h hchain hout hv hlist hy hu hu2
          exact fun c' => hnext c' _
        · rw [wp_bind]
          apply wp_note_held h rfl
          intro hsound
          obtain ⟨hslot, houtlives⟩ := hsound
          rw [slot_elem hv hlist] at hslot
          simp only [wp_bind]
          apply wp_joinStrs ndebug h hchain hout hv hlist rfl hslot hy hu hu2 houtlives
          exact fun c' => hnext c' _
        · exact hsame false
      · exact hsame false
    · exact hsame false

end Rewrites

end AstM

end Moz.Compiler
