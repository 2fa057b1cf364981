import Moz.Compiler.AstConstruction

/-!
# The lifetime of expressions

What `moz_node_to_ast` keeps from the first production it declares to the last
pass of the optimiser: whenever it comes to a rewrite, every count is the number of
references, and nothing that has been swept is read or written, as long as every
rewrite before was sound.
-/

namespace Moz.Compiler

open RefCount

theorem Ast.Right.counts {c : Ast} (h : c.Right) : c.Counts c.heap.live where
  owned := h.counted.owned
  mem_iff _ := h.counted.bounded.mem_live
  listed decl hdecl := h.listed decl (h.counted.bounded.mem_live.1 hdecl)

namespace AstM

open Logged (wp Contract get set raise note lift wp_bind wp_note wp_lift)

theorem mozAstMarkLiveDecl_spec {c : Ast} (h : c.Idle) :
    ∃ H, mozAstMarkLiveDecl c = .ok { c with heap := H } ∧
      Ast.Right { c with heap := H } := by
  have hfold : ∀ (decls : List DeclPtr) (H : AstHeap) (owners : Multiset Ptr),
      Counted H c.heap.children owners → (∀ p, H.content p = c.heap.content p) →
      (∀ decl ∈ decls, decl ∈ c.decls) → ∃ H',
        decls.foldlM (fun H decl => mozRcRetain H (.decl decl)) H = .ok H' ∧
        Counted H' c.heap.children (declRefs decls + owners) ∧
        ∀ p, H'.content p = c.heap.content p := by
    intro decls
    induction decls with
    | nil =>
      intro H owners hcounted hcontent _
      refine ⟨H, rfl, ?_, hcontent⟩
      rwa [declRefs_nil, zero_add]
    | cons decl decls ih =>
      intro H owners hcounted hcontent hdecls
      have hdecl : (H.content (.decl decl)).isSome := by
        rw [hcontent]
        exact (h.listed decl).2 (hdecls decl List.mem_cons_self)
      obtain ⟨H', hrun, hcounted', hcontent'⟩ := ih _ _ (hcounted.retain hdecl)
        (fun p => (AstHeap.content_setRefc _ _ p).trans (hcontent p))
        fun d hd => hdecls d (List.mem_cons_of_mem decl hd)
      refine ⟨H', ?_, ?_, hcontent'⟩
      · rw [List.foldlM_cons, mozRcRetain, if_pos hdecl]
        exact hrun
      · rw [declRefs_cons, Multiset.cons_add, ← Multiset.add_cons]
        exact hcounted'
  obtain ⟨H, hrun, hcounted, hcontent⟩ := hfold c.decls c.heap _ h.counted (fun _ => rfl)
    fun _ hd => hd
  refine ⟨H, ?_, ?_, ?_⟩
  · rw [mozAstMarkLiveDecl, hrun]
    rfl
  · exact hcounted.congr fun p _ => AstHeap.children_congr (hcontent p)
  · intro decl hdecl
    rw [hcontent] at hdecl
    exact (h.listed decl).1 hdecl

/-- `moz_ast_remove_unused_decl` leaves right counts, and lists what is there if each production is
removed in its turn. -/
theorem mozAstRemoveUnusedDecl_spec (ndebug : Bool) {c : Ast} (h : c.Right) :
    (∀ f, mozAstRemoveUnusedDecl ndebug c = .error f → f = .null) ∧
    ∀ c', mozAstRemoveUnusedDecl ndebug c = .ok c' →
      Counted c'.heap c'.heap.children (declRefs c'.decls.head?.toList) ∧
      (RemovedInTurn c → c'.Idle) := by
  have hrun := removeUnusedLoop_spec ndebug h.counted.bounded c.decls [] c.heap ∅ (.start c.heap)
  have hsame : ∀ p, ¬False → c.heap.children p = c.heap.children p := fun _ _ => rfl
  have hkept : ∀ p, False → p ∈ declRefs c.decls.head?.toList ∨
      ∃ m ∈ c.heap.live, False ∧ p ∈ c.heap.children m := fun _ hp => hp.elim
  cases hloop : removeUnusedLoop ndebug c.heap c.decls with
  | error f =>
    rw [hloop] at hrun
    have hremove : mozAstRemoveUnusedDecl ndebug c = .error f := by
      rw [mozAstRemoveUnusedDecl, hloop]
      rfl
    rw [hremove]
    constructor
    · intro f' hf
      cases hf
      exact h.counted.fault_eq hsame hkept hrun
    · intro c' hc'
      cases hc'
  | ok result =>
    have hremove : mozAstRemoveUnusedDecl ndebug c =
        .ok ⟨result.1, result.2.foldl List.erase c.decls⟩ := by
      rw [mozAstRemoveUnusedDecl, hloop]
      rfl
    rw [hloop] at hrun
    obtain ⟨opened, hreleasing, hnone, -, hnoted⟩ := hrun
    obtain ⟨hcounted, hspared⟩ := h.counted.released_spec hsame hkept hreleasing
    have hcounted' : Counted result.1 result.1.children _ :=
      hcounted.congr fun p hp => AstHeap.children_congr (hspared.left p hp)
    have hhead : (result.2.foldl List.erase c.decls).head? = c.decls.head? := by
      cases hdecls : c.decls with
      | nil => rw [← List.diff_eq_foldl, List.nil_diff]
      | cons first decls =>
        have hfirst : first ∉ result.2 := by
          intro hmem
          have hfirst : first ∈ c.decls.head? := by
            rw [hdecls]
            rfl
          exact h.counts.first_lives hfirst (hnoted.dies hmem)
        rw [← List.diff_eq_foldl, List.cons_diff_of_not_mem hfirst]
        rfl
    rw [hremove]
    constructor
    · intro f hf
      cases hf
    · intro c' hc'
      cases hc'
      refine ⟨?_, fun hturn => ⟨?_, ?_⟩⟩
      · rwa [hhead]
      · rwa [hhead]
      · have hwell : RemovesWell c := h.counts.removesWell_iff.2
          ⟨fun p hdies => hnone p (hreleasing.dies_iff.1 hdies) (Finset.notMem_empty p), hturn⟩
        have hkeeps := hwell.keeps hreleasing hnoted
        intro decl
        constructor
        · intro hdecl
          have hlives : ¬c.heap.Dies c.marks (.decl decl) := by
            intro hdies
            have hnone := hreleasing.content (.decl decl)
            rw [if_pos (hreleasing.dies_iff.1 hdies)] at hnone
            rw [hnone] at hdecl
            cases hdecl
          have hold : (c.heap.content (.decl decl)).isSome := by rwa [← hspared.left _ hdecl]
          exact hnoted.left (h.listed decl hold) hlives
        · intro hdecl
          exact ((hkeeps.intact decl hdecl).2 (.decl decl) .refl).1

theorem wp_mozDeclsOptimize (ndebug : Bool) (fuel : ℕ) (decls : List DeclPtr) :
    ∀ {c : Ast} {post : Bool → Ast → Prop}, c.Right → decls ⊆ c.decls →
    (∀ b c', Held c [] c' → post b c') →
      wp lifetime (mozDeclsOptimize ndebug fuel decls) post c := by
  induction decls with
  | nil =>
    intro c post h _ hpost
    exact hpost false c (.refl h)
  | cons decl decls ih =>
    intro c post h hdecls hpost
    have hchain : Chain c.heap c.decls [] (Slot.body decl).owner :=
      .nil (hdecls List.mem_cons_self)
    rw [mozDeclsOptimize, wp_bind]
    apply wp_readSlot_of_isSome (h.isSome hchain (.inl rfl)) (lifetime_fault (by decide))
      (lifetime_fault (by decide))
    intro body hbody
    rw [wp_bind]
    apply optimizes_mozExprOptimize ndebug fuel h hchain hbody
    intro _ modified c₁ hheld₁
    rw [wp_bind]
    apply ih hheld₁.right
    · rw [hheld₁.decls]
      exact fun d hd => hdecls (List.mem_cons_of_mem decl hd)
    · intro modified' c₂ hheld₂
      exact hpost _ c₂ (hheld₁.trans hheld₂)

/-- `moz_ast_optimize`, by induction on the passes. -/
theorem wp_mozAstOptimize (ndebug : Bool) (fuel passes : ℕ) : ∀ {c : Ast}, c.Idle →
    wp lifetime (mozAstOptimize ndebug fuel passes)
      (fun _ c' => CountsRight c' (declRefs c'.decls.head?.toList)) c := by
  induction passes with
  | zero =>
    intro c _
    exact lifetime_fault (by decide)
  | succ passes ih =>
    intro c h
    obtain ⟨H, hmark, hright⟩ := mozAstMarkLiveDecl_spec h
    rw [mozAstOptimize, wp_bind, wp_note]
    refine ⟨h.counted.right, fun _ => ?_⟩
    rw [wp_bind, Logged.wp_get, wp_bind, wp_lift, hmark]
    refine ⟨fun c₁ hc₁ => ?_, fun f hf => by cases hf⟩
    cases hc₁
    rw [wp_bind, Logged.wp_set, wp_bind, Logged.wp_get, wp_bind]
    apply wp_mozDeclsOptimize ndebug fuel c.decls hright (List.Subset.refl _)
    intro modified c₂ hheld
    obtain ⟨herror, hok⟩ := mozAstRemoveUnusedDecl_spec ndebug hheld.right
    rw [wp_bind]
    apply wp_note_held hheld.right rfl
    intro hsound
    rw [wp_bind, Logged.wp_get, wp_bind, wp_lift]
    refine ⟨fun c₃ hc₃ => ?_, fun f hf => ?_⟩
    · obtain ⟨hcounted, hidle⟩ := hok c₃ hc₃
      rw [wp_bind, Logged.wp_set]
      split
      · rename_i hmodified
        exact ih (hidle (hsound hmodified))
      · exact hcounted.right
    · rw [herror f hf]
      exact lifetime_fault (by decide)

/-- The productions have been declared and have no body yet. -/
structure Declared (c : Ast) (owners : Multiset Ptr) : Prop where
  counted : Counted c.heap c.heap.children owners
  listed : ∀ decl, (c.heap.content (.decl decl)).isSome ↔ decl ∈ c.decls
  bare : ∀ decl ∈ c.decls, ∃ name, c.heap.content (.decl decl) = some (.decl name none)
  nodup : c.decls.Nodup

theorem wp_mozDeclNew {c : Ast} (h : Declared c 0) (name : List UInt8)
    {post : Unit → Ast → Prop} (hpost : ∀ c', Declared c' 0 → post () c') :
    wp lifetime (mozDeclNew name) post c := by
  rw [mozDeclNew, wp_bind, wp_note]
  refine ⟨h.counted.right, fun _ => ?_⟩
  rw [wp_bind, Logged.wp_get, Logged.wp_set]
  apply hpost
  have hfresh : c.heap.next ∉ c.decls := by
    rw [← h.listed]
    exact fun hsome => lt_irrefl _ (h.counted.bounded _ hsome)
  have hself := AstHeap.content_declare_self (H := c.heap) name
  have hother := fun {p : Ptr} (hp : p ≠ .decl c.heap.next) =>
    AstHeap.content_declare_of_ne (H := c.heap) name hp
  refine ⟨?_, fun d => ?_, fun d hd => ?_, ?_⟩
  · exact h.counted.declare name
  · rw [List.mem_append, List.mem_singleton, ← h.listed]
    by_cases hd : d = c.heap.next
    · simp [hd]
    · simp [hd, hother fun heq => hd (Ptr.decl.inj heq)]
  · rcases List.mem_append.1 hd with hd | hd
    · obtain ⟨n, hn⟩ := h.bare d hd
      have hne : d ≠ c.heap.next := ne_of_mem_of_not_mem hd hfresh
      exact ⟨n, (hother fun heq => hne (Ptr.decl.inj heq)).trans hn⟩
    · rw [List.mem_singleton.1 hd]
      exact ⟨name, hself⟩
  · apply List.nodup_append.2 ⟨h.nodup, List.nodup_singleton _, fun a ha b hb => ?_⟩
    rw [List.mem_singleton.1 hb]
    exact ne_of_mem_of_not_mem ha hfresh

theorem wp_declareAll (ndebug : Bool) (children : List GrammarNode) {c : Ast} (h : Declared c 0)
    {post : Unit → Ast → Prop} (hpost : ∀ c', Declared c' 0 → post () c') :
    wp lifetime (declareAll ndebug children) post c := by
  induction children generalizing c with
  | nil => exact hpost c h
  | cons child children ih =>
    rw [declareAll]
    split
    · rw [wp_bind]
      apply wp_check
      split
      · rw [wp_bind]
        apply wp_check
        rw [wp_bind]
        exact wp_mozDeclNew h _ fun c' h' => ih h'
      · exact lifetime_fault (by decide)
    · exact ih h

theorem wp_mozAstPrepare (ndebug : Bool) (node : GrammarNode) {c : Ast} (h : Declared c 0)
    {post : Unit → Ast → Prop}
    (hpost : ∀ c', Declared c' (declRefs c'.decls.head?.toList) → post () c') :
    wp lifetime (mozAstPrepare ndebug node) post c := by
  rw [mozAstPrepare, wp_bind]
  apply wp_declareAll ndebug node.children h
  intro c₁ h₁
  rw [wp_bind, wp_note]
  refine ⟨h₁.counted.right, fun _ => ?_⟩
  rw [wp_bind, Logged.wp_get]
  split
  · rename_i decl decls hdecls
    have hdecl := (h₁.listed decl).2 (by rw [hdecls]; exact List.mem_cons_self)
    have hcontent := AstHeap.content_setRefc (H := c₁.heap) (c₁.heap.refc (.decl decl) + 1)
      (.decl decl)
    rw [wp_onHeap, mozRcRetain, if_pos hdecl]
    refine ⟨fun H hH => ?_, fun f hf => by cases hf⟩
    cases hH
    apply hpost
    refine ⟨?_, fun d => ?_, fun d hd => ?_, h₁.nodup⟩
    · have hretained := (h₁.counted.retain hdecl).congr
        fun p _ => AstHeap.children_congr (hcontent p)
      rw [hdecls]
      exact hretained
    · rw [← h₁.listed, hcontent]
    · rw [hcontent]
      exact h₁.bare d hd
  · rename_i hdecls
    apply hpost
    rw [hdecls]
    exact h₁

/-- The body of a production that has none is stored, and counted. -/
theorem wp_initBody (ndebug : Bool) {c : Ast} (h : c.Idle) {decl : DeclPtr} {name : List UInt8}
    {body : ExprPtr} (hdecl : c.heap.content (.decl decl) = some (.decl name none))
    (hbody : Made body c) {post : Unit → Ast → Prop}
    (hpost : ∀ c', c'.Idle → c'.decls = c.decls →
      (∀ d, d ≠ decl → c'.heap.content (.decl d) = c.heap.content (.decl d)) → post () c') :
    wp lifetime (initBody ndebug decl body) post c := by
  have hsome : (c.heap.content (.decl decl)).isSome := Option.isSome_iff_exists.2 ⟨_, hdecl⟩
  obtain ⟨obj, hobj, -⟩ := exists_decl hsome
  have hcontent := AstHeap.content_setRefc (H := c.heap) (c.heap.refc (.expr body) + 1)
    (.expr body)
  have hself := AstHeap.content_setBody_self (H := c.heap.setRefc (c.heap.refc (.expr body) + 1)
    (.expr body)) body ((hcontent _).trans hdecl)
  have hother : ∀ p, p ≠ .decl decl → ((c.heap.setRefc (c.heap.refc (.expr body) + 1)
      (.expr body)).setBody decl body).content p = c.heap.content p := fun p hp =>
    (AstHeap.content_setBody_of_ne body hp).trans (hcontent p)
  rw [initBody, wp_bind, wp_note]
  refine ⟨h.counted.right, fun _ => ?_⟩
  rw [wp_bind, wp_readDecl hobj, wp_bind]
  apply wp_check
  rw [wp_bind, wp_retain hbody, writeSlot, wp_onHeap,
    if_pos ((congrArg _ (hcontent _)).trans hsome)]
  refine ⟨fun H hH => ?_, fun f hf => by cases hf⟩
  cases hH
  refine hpost ⟨_, c.decls⟩ ⟨?_, fun d => ?_⟩ rfl fun d hd =>
    hother _ fun heq => hd (Ptr.decl.inj heq)
  · apply h.counted.adopt [.expr body] [] (m := .decl decl) (C := .decl name (some body)) hsome
    · rw [AstHeap.children_eq hdecl]
      exact .refl _
    · exact hself
    · exact .refl _
    · exact hother
    · intro p
      rw [AstHeap.refc_setBody]
      by_cases hp : p = .expr body
      · rw [hp, AstHeap.refc_setRefc_self _ hbody, List.count_singleton_self]
        rfl
      · rw [AstHeap.refc_setRefc_of_ne _ hp]
        simp [Ne.symm hp]
    · rw [AstHeap.next_setBody, AstHeap.next_setRefc]
    · intro p hp
      rw [List.mem_singleton.1 hp]
      exact hbody
  · by_cases hd : d = decl
    · rw [hd, hself, ← h.listed]
      simp [hsome]
    · rw [hother _ fun heq => hd (Ptr.decl.inj heq)]
      exact h.listed d

theorem wp_compileProductions (ndebug : Bool) (children : List GrammarNode) :
    ∀ {c : Ast} {decls : List DeclPtr} {post : Unit → Ast → Prop}, c.Idle → decls.Nodup →
    (∀ d ∈ decls, ∃ name, c.heap.content (.decl d) = some (.decl name none)) →
    (∀ c', c'.Idle → post () c') →
      wp lifetime (compileProductions ndebug children decls) post c := by
  induction children with
  | nil =>
    intro c decls post h _ _ hpost
    exact hpost c h
  | cons child children ih =>
    intro c decls post h hnodup hbare hpost
    show wp lifetime (if child.tag = .production then _ else _) post c
    split
    · split
      · rename_i decl decls
        obtain ⟨hnew, hnodup⟩ := List.nodup_cons.1 hnodup
        obtain ⟨name, hdecl⟩ := hbare decl List.mem_cons_self
        rw [wp_bind, compileProduction, wp_bind]
        apply (builds_compileNode ndebug child.children 2 c h).mono
        rintro body c₁ ⟨h₁, hgrown₁, hbody⟩
        apply wp_initBody ndebug h₁ ((hgrown₁.decl decl).trans hdecl) hbody
        intro c₂ h₂ _ hother
        apply ih h₂ hnodup _ hpost
        intro d hd
        obtain ⟨n, hn⟩ := hbare d (List.mem_cons_of_mem decl hd)
        have hne : d ≠ decl := ne_of_mem_of_not_mem hd hnew
        exact ⟨n, (hother d hne).trans ((hgrown₁.decl d).trans hn)⟩
      · exact lifetime_fault (by decide)
    · exact ih h hnodup hbare hpost

theorem wp_mozNodeToAst (ndebug : Bool) (fuel passes : ℕ) (node : GrammarNode) :
    wp lifetime (mozNodeToAst ndebug fuel passes node)
      (fun _ c' => CountsRight c' (declRefs c'.decls.head?.toList)) ⟨{}, []⟩ := by
  have hstart : Declared ⟨{}, []⟩ 0 := by
    have hnone : ∀ p, (({} : AstHeap).content p) = none := by
      intro p
      cases p <;> rfl
    have hbounded : ({} : AstHeap).Bounded := by
      intro p hp
      rw [hnone] at hp
      cases hp
    have hlive : ({} : AstHeap).live = ∅ := by
      ext p
      rw [hbounded.mem_live, hnone]
      simp
    refine ⟨⟨hbounded, ?_⟩, fun d => ?_, fun d hd => (List.not_mem_nil hd).elim, List.nodup_nil⟩
    · show RefCount.Owned ({} : AstHeap).live _ _ _
      rw [hlive]
      exact ⟨fun p hp => absurd hp (Finset.notMem_empty p), fun p hp => by simp [held] at hp⟩
    · rw [hnone]
      simp
  rw [mozNodeToAst, wp_bind]
  apply wp_mozAstPrepare ndebug node hstart
  intro c₁ h₁
  rw [wp_bind, Logged.wp_get, wp_bind]
  apply wp_compileProductions ndebug node.children ⟨h₁.counted, h₁.listed⟩ h₁.nodup h₁.bare
  exact fun c₂ h₂ => wp_mozAstOptimize ndebug fuel passes h₂

end AstM

end Moz.Compiler
