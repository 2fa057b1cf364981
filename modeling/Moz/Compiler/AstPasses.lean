import Moz.Compiler.AstSequences

/-!
# What a pass keeps

The rounds of a sequence, the rewrites of choices and invocations, and by induction
on the depth of the recursion what the optimiser does below a slot: the counts are
right afterwards, and what the slots above it held they still hold.
-/

namespace Moz.Compiler

open RefCount

namespace AstM

open Logged (wp Contract get set raise note lift wp_bind wp_note wp_lift)

section Rounds

variable {c : Ast} {path : List Slot} {e child : ExprPtr} {i : ℕ}

theorem wp_insertAll {v : Variant} (hout : ∀ s ∈ path, s.owner ≠ .expr e) (xs : List ExprPtr) :
    ∀ {i : ℕ} {list new : List ExprPtr} {K : AstHeap} {post : Unit → Ast → Prop},
    Prepared c path (.expr e) [] new K → K.content (.expr e) = some (.expr (v.setList list)) →
    v.list?.isSome → i ≤ list.length → (∀ x ∈ xs, (K.content (.expr x)).isSome) →
    (∀ K' list' new', Prepared c path (.expr e) [] new' K' → new'.Perm (xs ++ new) →
      K'.content (.expr e) = some (.expr (v.setList list')) → list'.Perm (xs ++ list) →
      (∀ p, p ≠ .expr e → K'.content p = K.content p) → post () { c with heap := K' }) →
    wp lifetime (insertAll e i xs) post { c with heap := K } := by
  induction xs with
  | nil =>
    intro i list new K post hprepared hself _ _ _ hpost
    exact hpost K list new hprepared (.refl _) hself (.refl _) fun _ _ => rfl
  | cons x xs ih =>
    intro i list new K post hprepared hself hv hi hxs hpost
    obtain ⟨list₀, hlist₀⟩ := Option.isSome_iff_exists.1 hv
    have hlist : (v.setList list).list? = some list := by simp [hlist₀]
    have he : (K.content (.expr e)).isSome := Option.isSome_iff_exists.2 ⟨_, hself⟩
    have hwritten := hprepared.write (v.setList (list.insertIdx i x)) rfl he hout
    have hself' := AstHeap.content_setVariant_self (v.setList (list.insertIdx i x)) he
    have hother : ∀ p, p ≠ .expr e →
        (K.setVariant e (v.setList (list.insertIdx i x))).content p = K.content p :=
      fun p hp => AstHeap.content_setVariant_of_ne _ hp
    have hsome : ∀ y ∈ x :: xs,
        ((K.setVariant e (v.setList (list.insertIdx i x))).content (.expr y)).isSome := by
      intro y hy
      by_cases hye : Ptr.expr y = .expr e
      · rw [hye, hself']
        rfl
      · rw [hother _ hye]
        exact hxs y hy
    have hx := hsome x List.mem_cons_self
    rw [insertAll, wp_bind, wp_readList hself hlist, wp_bind, wp_writeList hself,
      Variant.setList_setList, wp_bind, wp_retain hx]
    apply ih (hwritten.retain hx)
    · rw [AstHeap.content_setRefc, hself']
    · exact hv
    · rw [List.length_insertIdx_of_le_length hi]
      omega
    · intro y hy
      rw [AstHeap.content_setRefc]
      exact hsome y (List.mem_cons_of_mem x hy)
    · intro K' list' new' hprepared' hnew hself'' hlist' hother'
      refine hpost K' list' new' hprepared' (hnew.trans List.perm_middle) hself'' ?_ ?_
      · exact hlist'.trans (((List.perm_insertIdx x list hi).append_left xs).trans List.perm_middle)
      · intro p hp
        rw [hother' p hp, AstHeap.content_setRefc, hother p hp]

/-- `moz_Sequence_do_flatten` on a sequence with a further reference. -/
theorem wp_mozSequenceDoFlatten (ndebug : Bool) (h : c.Right)
    (hchain : Chain c.heap c.decls path (.expr e)) (hout : ∀ s ∈ path, s.owner ≠ .expr e)
    {post : Unit → Ast → Prop} {list : List ExprPtr}
    (hchild : c.heap.content (.expr child) = some (.expr (.sequence list)))
    (hslot : c.heap.slot (.elem e i) = some child) (hrefc : 1 < c.heap.refc (.expr child))
    (hpost : ∀ c', Held c path c' →
      c'.heap.content (.expr child) = some (.expr (.sequence list)) → post () c') :
    wp lifetime (mozSequenceDoFlatten ndebug e i child) post c := by
  rw [mozSequenceDoFlatten]
  split
  · exact lifetime_fault (by decide)
  · rename_i hself
    have hne : Ptr.expr child ≠ .expr e := fun heq => hself (Ptr.expr.inj heq)
    obtain ⟨C, hC, hx⟩ := Option.bind_eq_some_iff.1 hslot
    cases C with
    | decl name body => cases hx
    | expr v =>
      obtain ⟨elements, helements, hi⟩ := Option.bind_eq_some_iff.1 hx
      have hv : c.heap.content (.expr e) = some (.expr v) := hC
      have he : (c.heap.content (.expr e)).isSome := Option.isSome_iff_exists.2 ⟨_, hv⟩
      have hlength : i < elements.length := (List.getElem?_eq_some_iff.1 hi).1
      have hwritten := (Prepared.start h : Prepared c path (.expr e) [] [] c.heap).write
        (v.setList (elements.eraseIdx i)) rfl he hout
      have hchild₁ := (AstHeap.content_setVariant_of_ne (v.setList (elements.eraseIdx i)) hne).trans
        hchild
      rw [wp_bind, wp_listRemove hv helements, wp_bind, wp_readList hchild₁ rfl, wp_bind]
      apply wp_insertAll hout list hwritten (AstHeap.content_setVariant_self _ he)
      · rw [helements]
        rfl
      · rw [List.length_eraseIdx_of_lt hlength]
        omega
      · intro x hx
        apply (hwritten.isSome_iff _).2
        exact .inl (h.element hchild rfl hx)
      intro K list' new hprepared hnew hself' hlist' hother
      rw [List.append_nil] at hnew
      have hsession := hprepared.session (.expr (v.setList list')) [.expr child]
        ((elements.eraseIdx i).map Ptr.expr) h hv
        (by
          rw [Variant.children_of_list helements]
          exact (perm_eraseIdx hi).map _)
        (by
          rw [Variant.children_of_list (by rw [Variant.list_setList, helements]; rfl),
            ← List.map_append]
          exact (hlist'.trans (hnew.symm.append_right _)).map _)
        (by
          intro x hx
          apply (hprepared.isSome_iff _).2
          exact .inl (h.element hchild rfl (hnew.subset hx)))
        (fun s hs howner => absurd howner (hout s hs))
      have hpending : (([Ptr.expr child] : List Ptr) : Multiset Ptr) = .expr child ::ₘ 0 := rfl
      rw [hpending] at hsession
      have hchild' : K.content (.expr child) = some (.expr (.sequence list)) := by
        rw [hother _ hne, hchild₁]
      apply wp_release_session ndebug hsession hchain
      intro K' hsession' hspared hrun
      have hK' : K'.content (.expr e) = some (.expr (v.setList list')) := by
        rw [hspared.kept _ (.inl rfl), hself']
      have hmore := hprepared.refc (.expr child)
      rw [mozRcRelease_shared ndebug (Option.isSome_iff_exists.2 ⟨_, hchild'⟩) (by omega)] at hrun
      apply hpost
      · exact hsession'.finish hK' (fun _ _ => rfl) (fun _ => rfl) rfl
          (Option.isSome_iff_exists.2 ⟨_, hK'⟩)
      · cases hrun
        exact (AstHeap.content_setRefc (K.refc (.expr child) - 1) (.expr child) _).trans hchild'

theorem wp_mozSequenceFlatten (ndebug : Bool) (h : c.Right)
    (hchain : Chain c.heap c.decls path (.expr e)) (hout : ∀ s ∈ path, s.owner ≠ .expr e)
    {post : Bool → Ast → Prop}
    (hslot : c.heap.slot (.elem e i) = some child)
    (hpost : ∀ b c', Held c path c' → (c' = c ∨
      ∃ list, c'.heap.content (.expr child) = some (.expr (.sequence list))) → post b c') :
    wp lifetime (mozSequenceFlatten ndebug e i child) post c := by
  have hmem := AstHeap.slot_mem hslot
  have hchild := h.counted.isSome_of_child (AstHeap.isSome_of_mem_children hmem) hmem
  obtain ⟨u, hu⟩ := exists_variant hchild
  rw [mozSequenceFlatten, wp_bind, wp_readExpr hu]
  split
  · rename_i list
    rw [wp_bind]
    apply wp_note_held h rfl
    intro hsound
    rw [wp_bind]
    apply wp_mozSequenceDoFlatten ndebug h hchain hout hu hslot hsound
    intro c' hheld' hchild'
    exact hpost true c' hheld' (.inr ⟨list, hchild'⟩)
  · exact hpost false c (.refl h) (.inl rfl)

theorem wp_mozSequenceLoop (ndebug : Bool) (hout : ∀ s ∈ path, s.owner ≠ .expr e) (fuel : ℕ) :
    ∀ {c : Ast} {i : ℕ} {post : Bool → Ast → Prop}, c.Right →
    Chain c.heap c.decls path (.expr e) → (∀ b c', Held c path c' → post b c') →
    wp lifetime (mozSequenceLoop ndebug e fuel i) post c := by
  induction fuel with
  | zero =>
    intro c i post _ _ _
    exact lifetime_fault (by decide)
  | succ fuel ih =>
    intro c i post h hchain hpost
    rw [mozSequenceLoop, wp_bind]
    apply wp_readList_of_isSome (h.isSome hchain (.inl rfl)) (lifetime_fault (by decide))
    intro v list hv hlist
    split
    · exact hpost false c (.refl h)
    · rename_i child hi
      have hslot : c.heap.slot (.elem e i) = some child := (slot_elem hv hlist).trans hi
      have hchild := h.element hv hlist (List.mem_of_getElem? hi)
      rw [wp_bind]
      apply wp_mozSequenceFlatten ndebug h hchain hout hslot
      intro flattened c₁ hheld₁ hfirst
      have hchild₁ : (c₁.heap.content (.expr child)).isSome := by
        rcases hfirst with rfl | ⟨_, hseq⟩
        · exact hchild
        · rw [hseq]
          rfl
      rw [wp_bind]
      apply wp_mozSequenceJoinBytes ndebug hheld₁.right (hheld₁.chain hchain) hout hchild₁
      · intro b hb
        rcases hfirst with rfl | ⟨_, hseq⟩
        · exact hslot
        · rw [hseq] at hb
          cases hb
      intro joined c₂ hheld₂ hsecond
      have hchild₂ : (c₂.heap.content (.expr child)).isSome := by
        rcases hsecond with rfl | ⟨_, hbyte⟩
        · exact hchild₁
        · rw [hbyte]
          rfl
      have hheld₂' := hheld₁.trans hheld₂
      rw [wp_bind]
      apply wp_mozSequenceConcat ndebug hout fuel hheld₂.right (hheld₂'.chain hchain) hchild₂
      intro concat c₃ hheld₃ hthird
      have hchild₃ : (c₃.heap.content (.expr child)).isSome := by
        rcases hthird with rfl | ⟨_, hstr⟩
        · exact hchild₂
        · rw [hstr]
          rfl
      have hheld₃' := hheld₂'.trans hheld₃
      rw [wp_bind]
      apply wp_mozSequenceComplement ndebug hheld₃.right (hheld₃'.chain hchain) hout hchild₃
      · -- a Not is still what it was at the beginning of the round
        intro x hx
        rcases hthird with rfl | ⟨_, hstr⟩
        · rcases hsecond with rfl | ⟨_, hbyte⟩
          · rcases hfirst with rfl | ⟨_, hseq⟩
            · exact hslot
            · rw [hseq] at hx
              cases hx
          · rw [hbyte] at hx
            cases hx
        · rw [hstr] at hx
          cases hx
      intro complemented c₄ hheld₄
      have hheld₄' := hheld₃'.trans hheld₄
      rw [wp_bind]
      apply ih hheld₄.right (hheld₄'.chain hchain)
      intro modified c' hheld'
      exact hpost _ c' (hheld₄'.trans hheld')

theorem wp_mozSequenceDropEmpty (ndebug : Bool) (hout : ∀ s ∈ path, s.owner ≠ .expr e) (n : ℕ) :
    ∀ {c : Ast} {post : Bool → Ast → Prop}, c.Right → Chain c.heap c.decls path (.expr e) →
    (∀ b c', Held c path c' → post b c') →
    wp lifetime (mozSequenceDropEmpty ndebug e n) post c := by
  induction n with
  | zero =>
    intro c post h _ hpost
    exact hpost false c (.refl h)
  | succ i ih =>
    intro c post h hchain hpost
    rw [mozSequenceDropEmpty, wp_bind]
    apply wp_listGet_of_isSome (h.isSome hchain (.inl rfl)) (lifetime_fault (by decide))
    intro child hslot
    have hmem := AstHeap.slot_mem hslot
    have hchild := h.counted.isSome_of_child (AstHeap.isSome_of_mem_children hmem) hmem
    obtain ⟨u, hu⟩ := exists_variant hchild
    rw [wp_bind, wp_readExpr hu]
    split
    · rw [wp_bind]
      apply wp_note_held h rfl
      intro hsound
      obtain ⟨C, hC, hx⟩ := Option.bind_eq_some_iff.1 hslot
      cases C with
      | decl name body => cases hx
      | expr v =>
        obtain ⟨list, hlist, hi⟩ := Option.bind_eq_some_iff.1 hx
        have hv : c.heap.content (.expr e) = some (.expr v) := hC
        have he : (c.heap.content (.expr e)).isSome := Option.isSome_iff_exists.2 ⟨_, hv⟩
        have hwritten := (Prepared.start h : Prepared c path (.expr e) [] [] c.heap).write
          (v.setList (list.eraseIdx i)) rfl he hout
        rw [wp_bind, wp_listRemove hv hlist, wp_bind]
        apply wp_release_session ndebug (hwritten.erased h hv hlist hi hout) hchain
        intro K hsession hspared _
        have hK : K.content (.expr e) = some (.expr (v.setList (list.eraseIdx i))) := by
          rw [hspared.kept _ (.inl rfl), AstHeap.content_setVariant_self _ he]
        have hheld := hsession.finish hK (fun _ _ => rfl) (fun _ => rfl) rfl
          (Option.isSome_iff_exists.2 ⟨_, hK⟩)
        rw [wp_bind]
        apply ih hheld.right (hheld.chain hchain)
        intro b c' hheld'
        exact hpost true c' (hheld.trans hheld')
    · exact ih h hchain hpost

end Rounds

section Rewrites

variable {c : Ast} {path : List Slot} {ref : Slot} {e x : ExprPtr}

theorem AstHeap.isSome_of_slot {H : AstHeap} (h : H.slot ref = some x) :
    (H.content ref.owner).isSome :=
  AstHeap.isSome_of_mem_children (AstHeap.slot_mem h)

theorem isSome_of_slot (h : c.Right) (href : c.heap.slot ref = some x) :
    (c.heap.content (.expr x)).isSome :=
  h.counted.isSome_of_child (AstHeap.isSome_of_slot href) (AstHeap.slot_mem href)

/-- Everything a counted expression refers to is there. -/
theorem isPatternMatchOnly_fault (h : c.Right) (fuel : ℕ) : ∀ {e : ExprPtr},
    (c.heap.content (.expr e)).isSome → ∀ f, c.heap.isPatternMatchOnly fuel e = .error f →
      f ≠ .swept := by
  induction fuel with
  | zero =>
    intro e _ f hf
    cases hf
    decide
  | succ fuel ih =>
    intro e he f hf
    obtain ⟨v, hv⟩ := exists_variant he
    have hall : ∀ list : List ExprPtr, (∀ x ∈ list, (c.heap.content (.expr x)).isSome) →
        AstHeap.isPatternMatchOnlyAll (c.heap.isPatternMatchOnly fuel) list = .error f →
          f ≠ .swept := by
      intro list hlist hf
      induction list with
      | nil => cases hf
      | cons x list ihlist =>
        rw [AstHeap.isPatternMatchOnlyAll] at hf
        cases hx : c.heap.isPatternMatchOnly fuel x with
        | error f' =>
          rw [hx] at hf
          cases hf
          exact ih (hlist x List.mem_cons_self) f hx
        | ok b =>
          rw [hx] at hf
          cases b with
          | false => cases hf
          | true => exact ihlist (fun y hy => hlist y (List.mem_cons_of_mem x hy)) hf
    have hchild : ∀ x, Ptr.expr x ∈ (Content.expr v).children →
        (c.heap.content (.expr x)).isSome := by
      intro x hx
      rw [← AstHeap.children_eq hv] at hx
      exact h.counted.isSome_of_child he hx
    change (c.heap.variant e).bind _ = _ at hf
    rw [variant_eq hv] at hf
    have hlist : ∀ list, v.list? = some list → ∀ x ∈ list, (c.heap.content (.expr x)).isSome :=
      fun list hlist x hx => h.element hv hlist hx
    cases v with
    | and expr | not expr | option expr => exact ih (hchild expr List.mem_cons_self) f hf
    | choice list | sequence list | repetition list => exact hall list (hlist list rfl) hf
    | empty | invoke | any | byte | str | set | fail | tcapture | tdetree | tlfold | tpush | tpop
    | tnew | treplace | ttag | xblock | xexists | xif | xis | xisa | xon | xmatch | xlocal
    | xsymbol => cases hf

theorem wp_mozAstDoInline (ndebug : Bool) (h : c.Right)
    (hchain : Chain c.heap c.decls path ref.owner) (hnew : ref ∉ path)
    (href : c.heap.slot ref = some e) {decl : DeclPtr}
    (hdecl : (c.heap.content (.decl decl)).isSome) {post : Unit → Ast → Prop}
    (hpost : ∀ c', Held c path c' → post () c') :
    wp lifetime (mozAstDoInline ndebug ref e decl) post c := by
  obtain ⟨obj, hobj, hcontent⟩ := exists_decl hdecl
  rw [mozAstDoInline, wp_bind]
  apply wp_note_held h rfl
  intro _
  rw [wp_bind, wp_readSlot href, wp_bind]
  apply wp_check
  rw [wp_bind, wp_readDecl hobj]
  split
  · rename_i body hbody
    have hsome : (c.heap.content (.expr body)).isSome := by
      apply h.counted.isSome_of_child hdecl
      rw [AstHeap.children_eq hcontent, hbody]
      exact List.mem_cons_self
    exact wp_rcAssign ndebug h hchain href hnew (.start h) rfl hsome hpost
  · exact lifetime_fault (by decide)

theorem wp_mozInvokeOptimize (ndebug : Bool) (fuel : ℕ) (h : c.Right)
    (hchain : Chain c.heap c.decls path ref.owner) (hnew : ref ∉ path)
    (href : c.heap.slot ref = some e) {name : List UInt8} {decl : Option DeclPtr}
    (he : c.heap.content (.expr e) = some (.expr (.invoke name decl))) {post : Bool → Ast → Prop}
    (hpost : ∀ b c', Held c path c' → post b c') :
    wp lifetime (mozInvokeOptimize ndebug fuel ref e decl) post c := by
  cases decl with
  | none => exact hpost false c (.refl h)
  | some decl =>
    have hdecl : (c.heap.content (.decl decl)).isSome := by
      apply h.counted.isSome_of_child (m := .expr e)
      · rw [he]
        rfl
      · rw [AstHeap.children_eq he]
        exact List.mem_cons_self
    obtain ⟨obj, hobj, hcontent⟩ := exists_decl hdecl
    have hinline : wp lifetime (mozAstDoInline ndebug ref e decl) (fun _ => post true) c :=
      wp_mozAstDoInline ndebug h hchain hnew href hdecl fun c' => hpost true c'
    show wp lifetime (readDecl decl >>= _) post c
    rw [wp_bind, wp_readDecl hobj]
    split
    · rw [wp_bind]
      exact hinline
    · split
      · exact lifetime_fault (by decide)
      · rename_i body hbody
        have hsome : (c.heap.content (.expr body)).isSome := by
          apply h.counted.isSome_of_child hdecl
          rw [AstHeap.children_eq hcontent, hbody]
          exact List.mem_cons_self
        obtain ⟨v, hv⟩ := exists_variant hsome
        rw [wp_bind, Logged.wp_get, wp_bind, wp_lift]
        refine ⟨fun only _ => ?_, fun f hf => isPatternMatchOnly_fault h fuel hsome f hf⟩
        split
        · rw [wp_bind]
          exact hinline
        · apply wp_bind.2
          apply (wp_readExpr hv).2
          cases v with
          | empty | any | byte | str | set | fail => exact wp_bind.2 hinline
          | invoke | and | choice | not | option | sequence | repetition | tcapture | tdetree
          | tlfold | tpush | tpop | tnew | treplace | ttag | xblock | xexists | xif | xis | xisa
          | xon | xmatch | xlocal | xsymbol => exact hpost false c (.refl h)

theorem wp_useByteMapOptimization (h : c.Right) {post : Bool → Ast → Prop}
    (hpost : ∀ b, post b c) (list : List ExprPtr)
    (hlist : ∀ x ∈ list, (c.heap.content (.expr x)).isSome) :
    wp lifetime (useByteMapOptimization list) post c := by
  induction list with
  | nil => exact hpost true
  | cons x list ih =>
    have hrest := ih fun y hy => hlist y (List.mem_cons_of_mem x hy)
    obtain ⟨v, hv⟩ := exists_variant (hlist x List.mem_cons_self)
    have hnext : ∀ b : Bool, wp lifetime
        (if b = true then useByteMapOptimization list else pure false) post c := by
      intro b
      cases b with
      | true => exact hrest
      | false => exact hpost false
    rw [useByteMapOptimization, wp_bind, isByteMapAlternative, wp_bind, wp_readExpr hv]
    split
    · exact hnext true
    · exact hnext true
    · rename_i expr
      have hexpr : (c.heap.content (.expr expr)).isSome := by
        apply h.counted.isSome_of_child (hlist x List.mem_cons_self)
        rw [AstHeap.children_eq hv]
        exact List.mem_cons_self
      obtain ⟨w, hw⟩ := exists_variant hexpr
      rw [wp_bind, wp_readExpr hw]
      split
      · exact hnext true
      · exact hnext true
      · exact hnext false
    · exact hnext false

theorem wp_putOperand {set : Bitset} (hx : (c.heap.content (.expr x)).isSome)
    {post : Bitset → Ast → Prop} (hpost : ∀ set, post set c) :
    wp lifetime (putOperand set x) post c := by
  obtain ⟨v, hv⟩ := exists_variant hx
  rw [putOperand, wp_bind, wp_readExpr hv]
  split
  all_goals exact hpost _

theorem wp_putAlternatives (ndebug : Bool) (h : c.Right) {post : Bitset → Ast → Prop}
    (hpost : ∀ set, post set c) (list : List ExprPtr)
    (hlist : ∀ x ∈ list, (c.heap.content (.expr x)).isSome) (set : Bitset) :
    wp lifetime (putAlternatives ndebug set list) post c := by
  induction list generalizing set with
  | nil => exact hpost set
  | cons x list ih =>
    have hrest := fun set => ih (fun y hy => hlist y (List.mem_cons_of_mem x hy)) set
    obtain ⟨v, hv⟩ := exists_variant (hlist x List.mem_cons_self)
    rw [putAlternatives, wp_bind, putAlternative, wp_bind, wp_readExpr hv]
    split
    · rename_i expr
      have hexpr : (c.heap.content (.expr expr)).isSome := by
        apply h.counted.isSome_of_child (hlist x List.mem_cons_self)
        rw [AstHeap.children_eq hv]
        exact List.mem_cons_self
      split
      · rw [wp_bind]
        exact wp_putOperand hexpr fun set => hrest _
      · exact lifetime_fault (by decide)
    · rw [wp_bind]
      exact wp_putOperand (hlist x List.mem_cons_self) fun set => hrest _

theorem wp_mozChoiceOptimize (ndebug : Bool) (h : c.Right)
    (hchain : Chain c.heap c.decls path ref.owner) (hnew : ref ∉ path)
    (href : c.heap.slot ref = some e)
    {modified : Bool} {post : Bool → Ast → Prop} (hpost : ∀ b c', Held c path c' → post b c') :
    wp lifetime (mozChoiceOptimize ndebug ref e modified) post c := by
  rw [mozChoiceOptimize, wp_bind]
  apply wp_readList_of_isSome (isSome_of_slot h href) (lifetime_fault (by decide))
  intro v list hv hlist
  have hlive : ∀ x ∈ list, (c.heap.content (.expr x)).isSome := fun x hx => h.element hv hlist hx
  split
  · rw [collapse, wp_bind, wp_bind]
    apply wp_note_held h rfl
    exact fun hsound => hsound.elim
  · rw [wp_bind]
    apply wp_useByteMapOptimization h _ _ hlive
    intro b
    split
    · rw [wp_bind]
      apply wp_putAlternatives ndebug h _ _ hlive
      intro set
      rw [wp_bind]
      apply wp_note_held h rfl
      intro _
      have hmade := (Prepared.start h : Prepared c path ref.owner [] [] c.heap).alloc
        (v := .set set) rfl (h.onPath hchain)
      rw [wp_bind, wp_exprAlloc, wp_bind]
      apply wp_rcAssign ndebug h hchain href hnew hmade
      · exact AstHeap.content_alloc_of_ne _ (h.ne_next (AstHeap.isSome_of_slot href))
      · rw [AstHeap.content_alloc_self]
        rfl
      · exact fun c' => hpost true c'
    · exact hpost modified c (.refl h)

theorem wp_mozSequenceOptimize (ndebug : Bool) (fuel : ℕ) (h : c.Right)
    (hchain : Chain c.heap c.decls path ref.owner) (href : c.heap.slot ref = some e)
    (hout : ∀ s ∈ ref :: path, s.owner ≠ .expr e)
    {modified : Bool} {post : Bool → Ast → Prop} (hpost : ∀ b c', Held c path c' → post b c') :
    wp lifetime (mozSequenceOptimize ndebug fuel ref e modified) post c := by
  have hpath := hchain.cons href
  rw [mozSequenceOptimize, wp_bind]
  apply wp_mozSequenceLoop ndebug hout fuel h hpath
  intro rewritten c₁ hheld₁
  have hpath₁ := hheld₁.chain hpath
  rw [wp_bind]
  apply wp_readList_of_isSome (hheld₁.right.isSome hpath₁ (.inl rfl)) (lifetime_fault (by decide))
  intro v list _ _
  rw [wp_bind]
  apply wp_mozSequenceDropEmpty ndebug hout list.length hheld₁.right hpath₁
  intro dropped c₂ hheld₂
  have hpath₂ := hheld₂.chain hpath₁
  rw [wp_bind]
  apply wp_readList_of_isSome (hheld₂.right.isSome hpath₂ (.inl rfl)) (lifetime_fault (by decide))
  intro v' list' _ _
  split
  · rw [collapse, wp_bind, wp_bind]
    apply wp_note_held hheld₂.right rfl
    exact fun hsound => hsound.elim
  · exact hpost _ c₂ ((hheld₁.trans hheld₂).sub (List.subset_cons_self ref path))

/-- What the optimiser keeps below a slot. It does not come back from an expression that the path
has come through before. -/
def Optimizes (optimize : Slot → ExprPtr → AstM Bool) : Prop :=
  ∀ {c : Ast} {path : List Slot} {ref : Slot} {e : ExprPtr} {post : Bool → Ast → Prop}, c.Right →
    Chain c.heap c.decls path ref.owner → c.heap.slot ref = some e →
    ((∀ s ∈ ref :: path, s.owner ≠ .expr e) → ∀ b c', Held c path c' → post b c') →
    wp lifetime (optimize ref e) post c

/-- The loop over the elements keeps the slots down to the list itself, and does not come past an
element that the path goes through. -/
theorem wp_mozListOptimize {optimize : Slot → ExprPtr → AstM Bool} (hoptimize : Optimizes optimize)
    (n : ℕ) : ∀ {c : Ast} {i : ℕ} {post : Bool → Ast → Prop}, c.Right →
    Chain c.heap c.decls path (.expr e) →
    ((∀ j, i ≤ j → j < i + n → Slot.elem e j ∉ path) → ∀ b c', Held c path c' → post b c') →
    wp lifetime (mozListOptimize optimize e n i) post c := by
  induction n with
  | zero =>
    intro c i post h _ hpost
    exact hpost (fun j hij hji => absurd hji (by omega)) false c (.refl h)
  | succ n ih =>
    intro c i post h hchain hpost
    rw [mozListOptimize, wp_bind]
    apply wp_readSlot_of_isSome (h.isSome hchain (.inl rfl)) (lifetime_fault (by decide))
      (lifetime_fault (by decide))
    intro x hx
    rw [wp_bind]
    apply hoptimize h hchain hx
    intro hout modified c₁ hheld₁
    have hnew : Slot.elem e i ∉ path := by
      intro hmem
      obtain ⟨s, hs, howner⟩ := hchain.again hmem rfl hx
      exact hout s hs howner
    rw [wp_bind]
    apply ih hheld₁.right (hheld₁.chain hchain)
    intro hrest modified' c₂ hheld₂
    apply hpost _ _ c₂ (hheld₁.trans hheld₂)
    intro j hij hji
    rcases Nat.eq_or_lt_of_le hij with rfl | hlt
    · exact hnew
    · exact hrest j hlt (by omega)

/-- An expression without slots is not one the path has come through. -/
theorem not_owner_of_variant {p : Ptr} {v : Variant} (hpath : Chain c.heap c.decls path p)
    (hv : c.heap.content (.expr e) = some (.expr v)) (hoperand : v.operand? = none)
    (hlist : v.list? = none) : ∀ s ∈ path, s.owner ≠ .expr e := by
  intro s hs howner
  obtain ⟨x, hx⟩ := hpath.slot_isSome hs
  rw [AstHeap.slot_eq howner hv] at hx
  cases s with
  | body decl => cases hx
  | operand e' =>
    rw [Content.slot, hoperand] at hx
    cases hx
  | elem e' i =>
    rw [Content.slot, hlist] at hx
    cases hx

/-- `moz_expr_optimize`, by induction on the depth of the recursion. -/
theorem optimizes_mozExprOptimize (ndebug : Bool) (fuel : ℕ) :
    Optimizes (mozExprOptimize ndebug fuel) := by
  induction fuel with
  | zero =>
    intro c path ref e post _ _ _ _
    exact lifetime_fault (by decide)
  | succ fuel ih =>
    intro c path ref e post h hchain href hpost
    have hpath := hchain.cons href
    have hsub := List.subset_cons_self ref path
    obtain ⟨v, hv⟩ := exists_variant (isSome_of_slot h href)
    have hleaf : v.operand? = none → v.list? = none → ∀ s ∈ ref :: path, s.owner ≠ .expr e :=
      not_owner_of_variant hpath hv
    have hoperand : ∀ expr, v.operand? = some expr →
        wp lifetime (mozExprOptimize ndebug fuel (.operand e) expr) post c := by
      intro expr hexpr
      apply ih h hpath (by simp [AstHeap.slot, Slot.owner, hv, Content.slot, hexpr])
      intro hout b c' hheld
      apply hpost _ b c' (hheld.sub hsub)
      intro s hs howner
      obtain ⟨x, hx⟩ := hpath.slot_isSome hs
      rw [AstHeap.slot_eq howner hv] at hx
      obtain ⟨rfl, rfl⟩ := Content.slot_of_operand hexpr howner hx
      obtain ⟨s', hs', howner'⟩ := hpath.again hs rfl (x := x) (by rwa [AstHeap.slot_eq rfl hv])
      exact hout s' hs' howner'
    have hlist : ∀ list, v.list? = some list → ∀ {post' : Bool → Ast → Prop},
        ((∀ s ∈ ref :: path, s.owner ≠ .expr e) → ∀ b c', Held c (ref :: path) c' → post' b c') →
        wp lifetime (mozListOptimize (mozExprOptimize ndebug fuel) e list.length 0) post' c := by
      intro list hlist post' hpost'
      apply wp_mozListOptimize ih list.length h hpath
      intro hnot
      apply hpost'
      intro s hs howner
      obtain ⟨x, hx⟩ := hpath.slot_isSome hs
      rw [AstHeap.slot_eq howner hv] at hx
      obtain ⟨j, rfl, hj⟩ := Content.slot_of_list hlist howner hx
      have hlength := (List.getElem?_eq_some_iff.1 hj).1
      exact hnot j (Nat.zero_le j) (by omega) hs
    rw [mozExprOptimize, wp_bind, wp_readExpr hv]
    cases v with
    | invoke name decl =>
      have hout := hleaf rfl rfl
      have hnew := hchain.new_slot href hout
      exact wp_mozInvokeOptimize ndebug fuel h hchain hnew href hv (hpost hout)
    | and expr | not expr | option expr | xblock expr | xlocal _ expr | xsymbol _ expr =>
      exact hoperand expr rfl
    | choice list =>
      show wp lifetime (mozListOptimize _ _ _ _ >>= _) post c
      rw [wp_bind]
      apply hlist list rfl
      intro hout modified c₁ hheld₁
      have href₁ := (hheld₁.slots ref List.mem_cons_self).trans href
      apply wp_mozChoiceOptimize ndebug hheld₁.right ((hheld₁.sub hsub).chain hchain)
        (hchain.new_slot href hout) href₁
      exact fun b c' hheld' => hpost hout b c' ((hheld₁.sub hsub).trans hheld')
    | sequence list =>
      show wp lifetime (mozListOptimize _ _ _ _ >>= _) post c
      rw [wp_bind]
      apply hlist list rfl
      intro hout modified c₁ hheld₁
      have href₁ := (hheld₁.slots ref List.mem_cons_self).trans href
      apply wp_mozSequenceOptimize ndebug fuel hheld₁.right ((hheld₁.sub hsub).chain hchain) href₁
        hout
      exact fun b c' hheld' => hpost hout b c' ((hheld₁.sub hsub).trans hheld')
    | repetition list =>
      apply hlist list rfl
      exact fun hout b c' hheld => hpost hout b c' (hheld.sub hsub)
    | empty | any | byte | str | set | fail | tcapture | tdetree | tlfold | tpush | tpop | tnew
    | treplace | ttag | xexists | xif | xis | xisa | xon | xmatch =>
      exact hpost (hleaf rfl rfl) false c (.refl h)

end Rewrites

end AstM

end Moz.Compiler
