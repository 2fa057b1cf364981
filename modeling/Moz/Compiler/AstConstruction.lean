import Moz.Compiler.AstBuild
import Moz.Compiler.AstPasses

/-!
# What the construction keeps

While productions are declared and their bodies are built nothing is released: an
object that has been made stays, and each reference is counted where it is stored.
-/

namespace Moz.Compiler

open RefCount

namespace Counted

variable {H K : AstHeap} {children : Ptr → List Ptr} {owners : Multiset Ptr} {p : Ptr}

theorem retain (h : Counted H children owners) (hp : (H.content p).isSome) :
    Counted (H.setRefc (H.refc p + 1) p) children (p ::ₘ owners) := by
  have hcontent := AstHeap.content_setRefc (H := H) (H.refc p + 1) p
  have hbounded : (H.setRefc (H.refc p + 1) p).Bounded := by
    intro q hq
    rw [AstHeap.next_setRefc]
    exact h.bounded q (by rwa [hcontent] at hq)
  have hlive : (H.setRefc (H.refc p + 1) p).live = H.live := by
    ext q
    rw [hbounded.mem_live, h.bounded.mem_live, hcontent]
  refine ⟨hbounded, ?_⟩
  rw [hlive]
  apply h.owned.retain (h.bounded.mem_live.2 hp)
  · exact AstHeap.refc_setRefc_self _ hp
  · exact fun q hq => AstHeap.refc_setRefc_of_ne _ hq

/-- An object that is there gets further references, which are counted. -/
theorem adopt {m : Ptr} {C : Content} (new rest : List Ptr) (h : Counted H H.children owners)
    (hm : (H.content m).isSome) (hold : (H.children m).Perm rest) (hself : K.content m = some C)
    (hnew : C.children.Perm (new ++ rest)) (hother : ∀ p, p ≠ m → K.content p = H.content p)
    (hrefc : ∀ p, K.refc p = H.refc p + new.count p) (hnext : K.next = H.next)
    (hlive : ∀ p ∈ new, (H.content p).isSome) : Counted K K.children owners := by
  have hsome : ∀ p, (K.content p).isSome ↔ (H.content p).isSome := by
    intro p
    by_cases hpm : p = m
    · rw [hpm, hself]
      simp [hm]
    · rw [hother p hpm]
  have hbounded : K.Bounded := by
    intro p hp
    rw [hnext]
    exact h.bounded p ((hsome p).1 hp)
  have heq : K.live = H.live := by
    ext p
    rw [hbounded.mem_live, h.bounded.mem_live, hsome]
  refine ⟨hbounded, ?_⟩
  have hedit := h.owned.edit [] new rest (h.bounded.mem_live.2 hm) subset_rfl hold
    (AstHeap.children_eq hself ▸ hnew)
    (fun p _ hpm => AstHeap.children_congr (hother p hpm)) (fun p hp hp' => absurd hp hp')
    (fun p _ => hrefc p) (fun p hp => h.bounded.mem_live.2 (hlive p hp))
  rw [Multiset.coe_nil, zero_add] at hedit
  rwa [heq]

/-- A new object that refers to nothing. -/
theorem fresh (h : Counted H H.children owners) (hp : p.addr = H.next) (hself : K.children p = [])
    (hsome : (K.content p).isSome) (hrefc : K.refc p = 0) (hnext : K.next = H.next + 1)
    (hother : ∀ q, q ≠ p → K.content q = H.content q)
    (hrefc' : ∀ q, q ≠ p → K.refc q = H.refc q) : Counted K K.children owners := by
  have hbounded : K.Bounded := by
    intro q hq
    rw [hnext]
    by_cases hqp : q = p
    · rw [hqp, hp]
      exact Nat.lt_succ_self _
    · rw [hother q hqp] at hq
      exact (h.bounded q hq).trans (Nat.lt_succ_self _)
  have hlive : K.live = insert p H.live := by
    ext q
    rw [hbounded.mem_live, Finset.mem_insert, h.bounded.mem_live]
    by_cases hqp : q = p
    · simp [hqp, hsome]
    · simp [hqp, hother q hqp]
  refine ⟨hbounded, ?_⟩
  rw [hlive]
  apply h.owned.alloc
  · rw [h.bounded.mem_live]
    intro hsome'
    exact absurd (h.bounded p hsome') (by omega)
  · exact hself
  · exact hrefc
  · exact fun q hq => AstHeap.children_congr (hother q hq)
  · exact hrefc'

theorem alloc (h : Counted H H.children owners) {v : Variant} (hv : v.refs = []) :
    Counted (H.alloc v) (H.alloc v).children owners := by
  apply h.fresh (p := .expr H.next) rfl
  · rw [AstHeap.children_eq (AstHeap.content_alloc_self v)]
    simp [Content.children, Content.refs, hv]
  · rw [AstHeap.content_alloc_self]
    rfl
  · exact AstHeap.refc_alloc_self v
  · rfl
  · exact fun q hq => AstHeap.content_alloc_of_ne v hq
  · exact fun q hq => AstHeap.refc_alloc_of_ne v hq

theorem declare (h : Counted H H.children owners) (name : List UInt8) :
    Counted (H.declare name) (H.declare name).children owners := by
  apply h.fresh (p := .decl H.next) rfl
  · exact AstHeap.children_eq (AstHeap.content_declare_self name)
  · rw [AstHeap.content_declare_self]
    rfl
  · exact AstHeap.refc_declare_self name
  · rfl
  · exact fun q hq => AstHeap.content_declare_of_ne name hq
  · exact fun q hq => AstHeap.refc_declare_of_ne name hq

end Counted

/-- The counts are right outside a pass, and the productions that are there are those listed. -/
structure Ast.Idle (c : Ast) : Prop where
  counted : Counted c.heap c.heap.children (declRefs c.decls.head?.toList)
  listed : ∀ decl, (c.heap.content (.decl decl)).isSome ↔ decl ∈ c.decls

/-- What the construction of a body leaves as it was. -/
structure Grown (c c' : Ast) : Prop where
  decls : c'.decls = c.decls
  decl : ∀ decl, c'.heap.content (.decl decl) = c.heap.content (.decl decl)
  expr : ∀ e, (c.heap.content (.expr e)).isSome → (c'.heap.content (.expr e)).isSome

namespace Grown

variable {c c' c'' : Ast}

theorem refl (c : Ast) : Grown c c := ⟨rfl, fun _ => rfl, fun _ he => he⟩

theorem trans (h : Grown c c') (h' : Grown c' c'') : Grown c c'' where
  decls := h'.decls.trans h.decls
  decl d := (h'.decl d).trans (h.decl d)
  expr e he := h'.expr e (h.expr e he)

theorem isSome (h : Grown c c') {p : Ptr} (hp : (c.heap.content p).isSome) :
    (c'.heap.content p).isSome := by
  cases p with
  | decl d => rwa [h.decl]
  | expr e => exact h.expr e hp

end Grown

namespace AstM

open Logged (wp Contract get set raise note lift wp_bind wp_note wp_lift)

variable {α β : Type} {c : Ast}

/-- A part of the construction, from `c` on. -/
def Builds (m : AstM α) (good : α → Ast → Prop) (c : Ast) : Prop :=
  c.Idle → wp lifetime m (fun a c' => c'.Idle ∧ Grown c c' ∧ good a c') c

def Made (e : ExprPtr) (c : Ast) : Prop := (c.heap.content (.expr e)).isSome

namespace Builds

variable {m : AstM α} {f : α → AstM β} {good : α → Ast → Prop} {good' : β → Ast → Prop}

theorem bind (hm : Builds m good c)
    (hf : ∀ a c', c'.Idle → Grown c c' → good a c' → Builds (f a) good' c') :
    Builds (m >>= f) good' c := by
  intro h
  rw [wp_bind]
  apply (hm h).mono
  rintro a c₁ ⟨hidle, hgrown, hgood⟩
  apply (hf a c₁ hidle hgrown hgood hidle).mono
  rintro b c₂ ⟨hidle', hgrown', hgood'⟩
  exact ⟨hidle', hgrown.trans hgrown', hgood'⟩

theorem pure {a : α} (h : good a c) : Builds (pure a) good c :=
  fun hidle => ⟨hidle, .refl c, h⟩

theorem raise {e : Fault} (h : e ≠ .swept) : Builds (raise e : AstM α) good c :=
  fun _ => lifetime_fault h

theorem check (ndebug cond : Bool) : Builds (check ndebug cond) (fun _ _ => True) c := by
  rw [AstM.check]
  split
  · exact .pure trivial
  · exact .raise (by decide)

theorem note (hm : Builds m good c) : Builds (note .build >>= fun _ => m) good c := by
  intro h
  rw [wp_bind, wp_note]
  exact ⟨h.counted.right, fun _ => hm h⟩

theorem get : Builds get (fun a c' => a = c ∧ c' = c) c :=
  fun h => ⟨h, .refl c, rfl, rfl⟩

theorem readDecl {decl : DeclPtr} (hdecl : decl ∈ c.decls) :
    Builds (readDecl decl) (fun _ c' => c' = c) c := by
  intro h
  obtain ⟨obj, hobj, -⟩ := exists_decl ((h.listed decl).2 hdecl)
  exact (wp_readDecl hobj).2 ⟨h, .refl c, rfl⟩

theorem readList {e : ExprPtr} (he : Made e c) :
    Builds (readList e) (fun list c' => c' = c ∧ ∀ x ∈ list, Made x c) c := by
  intro h
  apply wp_readList_of_isSome he (lifetime_fault (by decide))
  intro v list hv hlist
  refine ⟨h, .refl c, rfl, fun x hx => ?_⟩
  apply h.counted.isSome_of_child he
  rw [AstHeap.children_eq hv, Variant.children_of_list hlist]
  exact List.mem_map_of_mem hx

end Builds

theorem Idle.next {c : Ast} (h : c.Idle) : c.heap.content (.expr c.heap.next) = none := by
  rw [← Option.not_isSome_iff_eq_none]
  exact fun hsome => lt_irrefl _ (h.counted.bounded _ hsome)

theorem grown_alloc {c : Ast} (h : c.Idle) {K : AstHeap} {v : Variant}
    (hcontent : ∀ p, K.content p = (c.heap.alloc v).content p) :
    Grown c { c with heap := K } ∧ Made c.heap.next { c with heap := K } := by
  have hnone := Idle.next h
  refine ⟨⟨rfl, fun d => ?_, fun e he => ?_⟩, ?_⟩
  · exact (hcontent _).trans (AstHeap.content_alloc_of_ne v (by simp))
  · have hne : Ptr.expr e ≠ .expr c.heap.next := by
      intro heq
      rw [heq, hnone] at he
      cases he
    show (K.content _).isSome
    rwa [hcontent, AstHeap.content_alloc_of_ne v hne]
  · show (K.content _).isSome
    rw [hcontent, AstHeap.content_alloc_self]
    rfl

theorem idle_of_grown {c : Ast} (h : c.Idle) {K : AstHeap}
    (hcounted : Counted K K.children (declRefs c.decls.head?.toList))
    (hgrown : Grown c { c with heap := K }) : Ast.Idle { c with heap := K } where
  counted := hcounted
  listed decl := by
    show (K.content _).isSome ↔ decl ∈ c.decls
    rw [show K.content (.decl decl) = c.heap.content (.decl decl) from hgrown.decl decl]
    exact h.listed decl

theorem builds_exprNew {v : Variant} (hv : v.refs = []) : Builds (exprNew v) Made c := by
  apply Builds.note
  intro h
  obtain ⟨hgrown, hmade⟩ := grown_alloc h (K := c.heap.alloc v) fun _ => rfl
  rw [wp_exprAlloc]
  exact ⟨idle_of_grown h (h.counted.alloc hv) hgrown, hgrown, hmade⟩

/-- An object with one pointer is made, and the reference is counted. -/
theorem counted_pointer {c : Ast} (h : c.Idle) {v : Variant} {p : Ptr}
    (hv : (Content.expr v).children = [p]) (hp : (c.heap.content p).isSome) :
    Ast.Idle { c with heap := (c.heap.alloc v).setRefc ((c.heap.alloc v).refc p + 1) p } ∧
      Grown c { c with heap := (c.heap.alloc v).setRefc ((c.heap.alloc v).refc p + 1) p } ∧
      Made c.heap.next
        { c with heap := (c.heap.alloc v).setRefc ((c.heap.alloc v).refc p + 1) p } := by
  have hcontent := AstHeap.content_setRefc (H := c.heap.alloc v) ((c.heap.alloc v).refc p + 1) p
  obtain ⟨hgrown, hmade⟩ := grown_alloc h hcontent
  have hne : p ≠ .expr c.heap.next := by
    rintro rfl
    rw [Idle.next h] at hp
    cases hp
  have hp' : ((c.heap.alloc v).content p).isSome := by
    rwa [AstHeap.content_alloc_of_ne v hne]
  refine ⟨idle_of_grown h ?_ hgrown, hgrown, hmade⟩
  apply (h.counted.alloc (v := .empty) rfl).adopt [p] [] (m := .expr c.heap.next) (C := .expr v)
  · rw [AstHeap.content_alloc_self]
    rfl
  · rw [AstHeap.children_eq (AstHeap.content_alloc_self _)]
    exact .refl _
  · rw [hcontent, AstHeap.content_alloc_self]
  · rw [hv, List.append_nil]
  · intro q hq
    rw [hcontent, AstHeap.content_alloc_of_ne v hq, AstHeap.content_alloc_of_ne _ hq]
  · intro q
    have hsame : (c.heap.alloc v).refc q = (c.heap.alloc .empty).refc q := by
      by_cases hq : q = .expr c.heap.next
      · rw [hq, AstHeap.refc_alloc_self, AstHeap.refc_alloc_self]
      · rw [AstHeap.refc_alloc_of_ne v hq, AstHeap.refc_alloc_of_ne _ hq]
    by_cases hqp : q = p
    · rw [hqp, AstHeap.refc_setRefc_self _ hp', List.count_singleton_self, ← hqp, hsame]
      push_cast
      rfl
    · rw [AstHeap.refc_setRefc_of_ne _ hqp, hsame]
      simp [Ne.symm hqp]
  · rw [AstHeap.next_setRefc]
    rfl
  · intro q hq
    rw [List.mem_singleton.1 hq, AstHeap.content_alloc_of_ne _ hne]
    exact hp

theorem builds_exprNewUnary {v : ExprPtr → Variant} {expr : ExprPtr}
    (hv : (Content.expr (v expr)).children = [.expr expr]) (hexpr : Made expr c) :
    Builds (exprNewUnary v expr) Made c := by
  apply Builds.note
  intro h
  obtain ⟨hidle, hgrown, hmade⟩ := counted_pointer h hv hexpr
  have hsome : ((c.heap.alloc (v expr)).content (.expr expr)).isSome := by
    have hne : Ptr.expr expr ≠ .expr c.heap.next := by
      intro heq
      rw [Made, heq, Idle.next h] at hexpr
      cases hexpr
    rwa [AstHeap.content_alloc_of_ne _ hne]
  rw [wp_bind, wp_exprAlloc, wp_bind, wp_retain hsome]
  exact ⟨hidle, hgrown, hmade⟩

theorem builds_mozExprNewInvoke {name : List UInt8} {decl : Option DeclPtr}
    (hdecl : ∀ d ∈ decl, d ∈ c.decls) : Builds (mozExprNewInvoke name decl) Made c := by
  apply Builds.note
  intro h
  rw [wp_bind, wp_exprAlloc]
  cases decl with
  | none =>
    obtain ⟨hgrown, hmade⟩ := grown_alloc h (K := c.heap.alloc (.invoke name none)) fun _ => rfl
    have hcounted : Counted (c.heap.alloc (.invoke name none))
        (c.heap.alloc (.invoke name none)).children (declRefs c.decls.head?.toList) := by
      apply (h.counted.alloc (v := .empty) rfl).adopt [] [] (m := .expr c.heap.next)
        (C := .expr (.invoke name none))
      · rw [AstHeap.content_alloc_self]
        rfl
      · rw [AstHeap.children_eq (AstHeap.content_alloc_self _)]
        exact .refl _
      · exact AstHeap.content_alloc_self _
      · exact .refl _
      · intro q hq
        rw [AstHeap.content_alloc_of_ne _ hq, AstHeap.content_alloc_of_ne _ hq]
      · intro q
        by_cases hq : q = .expr c.heap.next
        · rw [hq, AstHeap.refc_alloc_self, AstHeap.refc_alloc_self]
          rfl
        · rw [AstHeap.refc_alloc_of_ne _ hq, AstHeap.refc_alloc_of_ne _ hq]
          simp
      · rfl
      · intro q hq
        cases hq
    exact ⟨idle_of_grown h hcounted hgrown, hgrown, hmade⟩
  | some d =>
    have hd := (h.listed d).2 (hdecl d rfl)
    have hsome : ((c.heap.alloc (.invoke name (some d))).content (.decl d)).isSome := by
      rwa [AstHeap.content_alloc_of_ne _ (by simp)]
    obtain ⟨hidle, hgrown, hmade⟩ := counted_pointer h (v := .invoke name (some d)) rfl hd
    rw [wp_bind, wp_onHeap, mozRcRetain, if_pos hsome]
    refine ⟨fun H hH => ?_, fun f hf => by cases hf⟩
    cases hH
    exact ⟨hidle, hgrown, hmade⟩

theorem builds_listAdd {e x : ExprPtr} (he : Made e c) (hx : Made x c) :
    Builds (listAdd e x) (fun _ _ => True) c := by
  apply Builds.note
  intro h
  obtain ⟨v, hv⟩ := exists_variant he
  rw [wp_bind]
  apply wp_readList_of_isSome he (lifetime_fault (by decide))
  intro v' list hv' hlist
  rw [hv] at hv'
  cases hv'
  have hself := AstHeap.content_setVariant_self (v.setList (list ++ [x])) he
  have hother := fun {p : Ptr} (hp : p ≠ .expr e) =>
    AstHeap.content_setVariant_of_ne (H := c.heap) (v.setList (list ++ [x])) hp
  have hkept : ∀ p, (c.heap.content p).isSome →
      ((c.heap.setVariant e (v.setList (list ++ [x]))).content p).isSome := by
    intro p hp
    by_cases hpe : p = .expr e
    · rw [hpe, hself]
      rfl
    · rwa [hother hpe]
  have hx' := hkept _ hx
  have hcontent := AstHeap.content_setRefc (H := c.heap.setVariant e (v.setList (list ++ [x])))
    ((c.heap.setVariant e (v.setList (list ++ [x]))).refc (.expr x) + 1) (.expr x)
  have hgrown : Grown c ⟨(c.heap.setVariant e (v.setList (list ++ [x]))).setRefc
      ((c.heap.setVariant e (v.setList (list ++ [x]))).refc (.expr x) + 1) (.expr x), c.decls⟩ := by
    refine ⟨rfl, fun d => ?_, fun y hy => ?_⟩
    · exact (hcontent _).trans (hother (by simp))
    · exact (congrArg Option.isSome (hcontent _)).trans (hkept _ hy)
  rw [wp_bind, wp_writeList hv, wp_retain hx']
  refine ⟨idle_of_grown h ?_ hgrown, hgrown, trivial⟩
  apply h.counted.adopt [.expr x] (list.map Ptr.expr) (m := .expr e)
    (C := .expr (v.setList (list ++ [x]))) he
  · rw [AstHeap.children_eq hv, Variant.children_of_list hlist]
  · rw [hcontent, hself]
  · rw [Variant.children_of_list (by rw [Variant.list_setList, hlist]; rfl), List.map_append]
    exact List.perm_append_comm
  · intro p hp
    rw [hcontent, hother hp]
  · intro p
    by_cases hpx : p = .expr x
    · rw [hpx, AstHeap.refc_setRefc_self _ hx', AstHeap.refc_setVariant, List.count_singleton_self]
      rfl
    · rw [AstHeap.refc_setRefc_of_ne _ hpx, AstHeap.refc_setVariant]
      simp [Ne.symm hpx]
  · rw [AstHeap.next_setRefc]
    rfl
  · intro p hp
    rw [List.mem_singleton.1 hp]
    exact hx

theorem builds_findDecl (pos : List UInt8) (len : ℕ) (decls : List DeclPtr)
    (hdecls : ∀ d ∈ decls, d ∈ c.decls) :
    Builds (findDecl pos len decls) (fun decl c' => ∀ d ∈ decl, d ∈ c'.decls) c := by
  induction decls with
  | nil => exact .pure fun d hd => by cases hd
  | cons decl decls ih =>
    have hdecl := hdecls decl List.mem_cons_self
    apply (Builds.readDecl hdecl).bind
    rintro obj c' - hgrown rfl
    split
    · refine .pure fun d hd => ?_
      cases hd
      exact hdecl
    · exact ih fun d hd => hdecls d (List.mem_cons_of_mem decl hd)

theorem builds_exprNewLeaf (expr : Expr) : Builds (exprNewLeaf expr) Made c := by
  cases expr with
  | empty | byte | str | set => exact builds_exprNew rfl
  | invoke | any | and | choice | fail | not | option | sequence | repetition | tcapture | tpush
  | tpop | tnew | ttag | todo => exact .raise (by decide)

theorem builds_compileInvoke (pos : List UInt8) (len : ℕ) :
    Builds (compileInvoke pos len) Made c := by
  apply Builds.get.bind
  rintro _ c' - - ⟨rfl, rfl⟩
  apply (builds_findDecl pos len c'.decls fun d hd => hd).bind
  intro decl c'' _ _ hdecl
  exact builds_mozExprNewInvoke hdecl

section Compile

variable (ndebug : Bool)

theorem builds_compileStr (pos : List UInt8) (len : ℕ) :
    Builds (compileStr ndebug pos len) Made c :=
  (Builds.check ndebug _).bind fun _ _ _ _ _ => builds_exprNewLeaf _

theorem builds_compileInvokeOrStr (pos : List UInt8) (len : ℕ) :
    Builds (compileInvokeOrStr ndebug pos len) Made c := by
  apply Builds.get.bind
  rintro _ c' - - ⟨rfl, rfl⟩
  apply (builds_findDecl pos len c'.decls fun d hd => hd).bind
  intro decl c'' _ _ _
  split
  · exact builds_compileInvoke pos len
  · exact builds_compileStr ndebug pos len

theorem builds_classNodes (children : List GrammarNode) :
    Builds (classNodes ndebug children) (fun _ _ => True) c := by
  induction children generalizing c with
  | nil => exact .pure trivial
  | cons child children ih =>
    have hnode : Builds (classNode ndebug child) (fun _ _ => True) c := by
      rw [classNode]
      split
      · exact .pure trivial
      · apply (Builds.check ndebug _).bind
        intro _ c' _ _ _
        split
        · exact .pure trivial
        · exact .raise (by decide)
      · exact (Builds.check ndebug _).bind fun _ _ _ _ _ => .pure trivial
    apply hnode.bind
    intro node c' _ _ _
    exact ih.bind fun _ _ _ _ _ => .pure trivial

theorem builds_compileSet (children : List GrammarNode) :
    Builds (compileSet ndebug children) Made c := by
  apply (builds_classNodes ndebug children).bind
  intro nodes c' _ _ _
  split
  · exact builds_exprNewLeaf _
  · exact .raise (by decide)
  · exact .raise (by decide)

theorem builds_exprNewTodo {v : Variant} (hv : v.refs = []) :
    Builds (exprNewTodo ndebug v) Made c :=
  (Builds.check ndebug _).bind fun _ _ _ _ _ => builds_exprNew hv

theorem builds_addAll {e : ExprPtr} (list : List ExprPtr) (he : Made e c)
    (hlist : ∀ x ∈ list, Made x c) : Builds (addAll e list) (fun _ _ => True) c := by
  induction list generalizing c with
  | nil => exact .pure trivial
  | cons x list ih =>
    apply (builds_listAdd he (hlist x List.mem_cons_self)).bind
    intro _ c' _ hgrown _
    apply ih (hgrown.isSome he)
    exact fun y hy => hgrown.isSome (hlist y (List.mem_cons_of_mem x hy))

theorem builds_compileElements {v : List ExprPtr → Variant} {list : ExprPtr → AstM Unit}
    (hv : (v []).refs = []) (hlist : ∀ e c', Made e c' → Builds (list e) (fun _ _ => True) c') :
    Builds (compileElements v list) Made c := by
  apply (builds_exprNew hv).bind
  intro e c' _ _ he
  apply (hlist e c' he).bind
  intro _ c'' _ hgrown _
  exact .pure (hgrown.isSome he)

theorem builds_compileRepetition {list : ExprPtr → AstM Unit} (length : ℕ)
    (hlist : ∀ e c', Made e c' → Builds (list e) (fun _ _ => True) c') :
    Builds (compileRepetition ndebug length list) Made c := by
  apply (builds_exprNew rfl).bind
  intro e c₁ _ _ he
  apply (Builds.check ndebug _).bind
  intro _ c₂ _ hgrown₂ _
  apply (hlist e c₂ (hgrown₂.isSome he)).bind
  intro _ c₃ _ hgrown₃ _
  exact .pure (hgrown₃.isSome (hgrown₂.isSome he))

theorem builds_compileRepetition1 {list : ExprPtr → AstM Unit} (length : ℕ)
    (hlist : ∀ e c', Made e c' → Builds (list e) (fun _ _ => True) c') :
    Builds (compileRepetition1 ndebug length list) Made c := by
  apply (builds_exprNew rfl).bind
  intro e c₁ _ _ he
  apply (builds_compileRepetition ndebug length hlist).bind
  intro rep c₂ _ hgrown₂ hrep
  have he₂ := hgrown₂.isSome he
  apply (Builds.readList hrep).bind
  rintro elements c₃ - hgrown₃ ⟨rfl, helements⟩
  apply (builds_addAll elements he₂ helements).bind
  intro _ c₄ _ hgrown₄ _
  have he₄ := hgrown₄.isSome he₂
  apply (builds_listAdd he₄ (hgrown₄.isSome hrep)).bind
  intro _ c₅ _ hgrown₅ _
  exact .pure (hgrown₅.isSome he₄)

theorem builds_compileTlink {label : List UInt8} {child : AstM ExprPtr}
    (hchild : ∀ c', Builds child Made c') : Builds (compileTlink label child) Made c := by
  apply (builds_exprNew rfl).bind
  intro seq c₁ _ _ hseq
  apply (builds_exprNew rfl).bind
  intro push c₂ _ hgrown₂ hpush
  apply (hchild c₂).bind
  intro body c₃ _ hgrown₃ hbody
  apply (builds_exprNew rfl).bind
  intro pop c₄ _ hgrown₄ hpop
  have hseq₄ : Made seq c₄ := hgrown₄.isSome (hgrown₃.isSome (hgrown₂.isSome hseq))
  have hlist : ∀ x ∈ [push, body, pop], Made x c₄ := by
    simp only [List.forall_mem_cons]
    exact ⟨hgrown₄.isSome (hgrown₃.isSome hpush), hgrown₄.isSome hbody, hpop, by simp⟩
  apply (builds_addAll [push, body, pop] hseq₄ hlist).bind
  intro _ c₅ _ hgrown₅ _
  exact .pure (hgrown₅.isSome hseq₄)

theorem builds_compileTnew {child : AstM ExprPtr} (hchild : ∀ c', Builds child Made c') :
    Builds (compileTnew child) Made c := by
  apply (builds_exprNew rfl).bind
  intro seq c₁ _ _ hseq
  apply (builds_exprNew rfl).bind
  intro tnew c₂ _ hgrown₂ htnew
  apply (builds_exprNew rfl).bind
  intro tcap c₃ _ hgrown₃ htcap
  apply (hchild c₃).bind
  intro body c₄ _ hgrown₄ hbody
  have hseq₄ : Made seq c₄ := hgrown₄.isSome (hgrown₃.isSome (hgrown₂.isSome hseq))
  have hlist : ∀ x ∈ [tnew, body, tcap], Made x c₄ := by
    simp only [List.forall_mem_cons]
    exact ⟨hgrown₄.isSome (hgrown₃.isSome htnew), hbody, hgrown₄.isSome htcap, by simp⟩
  apply (builds_addAll [tnew, body, tcap] hseq₄ hlist).bind
  intro _ c₅ _ hgrown₅ _
  exact .pure (hgrown₅.isSome hseq₄)

theorem builds_compileUnary {v : ExprPtr → Variant} {child : AstM ExprPtr} (length : ℕ)
    (hv : ∀ x, (Content.expr (v x)).children = [.expr x]) (hchild : ∀ c', Builds child Made c') :
    Builds (compileUnary ndebug v length child) Made c := by
  apply (Builds.check ndebug _).bind
  intro _ c₁ _ _ _
  exact (hchild c₁).bind fun x _ _ _ hx => builds_exprNewUnary (hv x) hx

theorem builds_compileNamed {v : List UInt8 → Variant} (hv : ∀ name, (v name).refs = [])
    (children : List GrammarNode) : Builds (compileNamed v children) Made c := by
  cases children with
  | nil => exact .raise (by decide)
  | cons name children => exact builds_exprNew (hv _)

theorem builds_compileNameUnary {v : List UInt8 → ExprPtr → Variant} {child : AstM ExprPtr}
    (hv : ∀ name x, (Content.expr (v name x)).children = [.expr x])
    (hchild : ∀ c', Builds child Made c') (children : List GrammarNode) :
    Builds (compileNameUnary v children child) Made c := by
  cases children with
  | nil => exact .raise (by decide)
  | cons name children =>
    exact (hchild c).bind fun x _ _ _ hx => builds_exprNewUnary (hv _ x) hx

mutual

/-- By recursion on the node, with one case for each tag. -/
theorem builds_compileExpression : ∀ (node : GrammarNode) (c : Ast),
    Builds (compileExpression ndebug node) Made c
  | .mk tag pos len children, c => by
    have hnode := fun i c => builds_compileNode children i c
    have hlist := fun e c he => builds_compileList children e c he
    cases tag with
    | nonTerminal => exact builds_compileInvoke pos len
    | any | empty | tcapture | tagging => exact builds_exprNew rfl
    | character => exact (Builds.check ndebug _).bind fun _ _ _ _ _ => builds_exprNewLeaf _
    | string => exact builds_compileInvokeOrStr ndebug pos len
    | class_ => exact builds_compileSet ndebug children
    | and | not | option => exact builds_compileUnary ndebug _ (fun _ => rfl) (hnode 0)
    | choice | sequence => exact builds_compileElements rfl hlist
    | fail | tdetree | tlfold | replace | if_ | xmatch | xon => exact builds_exprNewTodo ndebug rfl
    | repetition => exact builds_compileRepetition ndebug _ hlist
    | repetition1 => exact builds_compileRepetition1 ndebug _ hlist
    | link | label =>
      show Builds (if children.length = 1 then _ else _) Made c
      split
      · exact builds_compileTlink (hnode 0)
      · split
        · exact builds_compileTlink (hnode 1)
        · exact .raise (by decide)
    | new => exact builds_compileTnew (hnode 0)
    | block => exact (hnode 0 c).bind fun x _ _ _ hx => builds_exprNewUnary rfl hx
    | exists_ | is | isa => exact builds_compileNamed (fun _ => rfl) children
    | local_ | def_ | sym => exact builds_compileNameUnary (fun _ _ => rfl) (hnode 1) children
    | list | production | comment | format | name | other =>
      exact (Builds.check ndebug _).bind fun _ _ _ _ _ => .raise (by decide)

theorem builds_compileNode : ∀ (children : List GrammarNode) (i : ℕ) (c : Ast),
    Builds (compileNode ndebug children i) Made c
  | [], _, _ => .raise (by decide)
  | child :: _, 0, c => builds_compileExpression child c
  | _ :: children, i + 1, c => builds_compileNode children i c

theorem builds_compileList : ∀ (children : List GrammarNode) (e : ExprPtr) (c : Ast), Made e c →
    Builds (compileList ndebug e children) (fun _ _ => True) c
  | [], _, _, _ => .pure trivial
  | child :: children, e, c, he => by
    apply (builds_compileExpression child c).bind
    intro x c₁ _ hgrown₁ hx
    have he₁ := hgrown₁.isSome he
    apply (builds_listAdd he₁ hx).bind
    intro _ c₂ _ hgrown₂ _
    exact builds_compileList children e c₂ (hgrown₂.isSome he₁)

end

end Compile

end AstM

end Moz.Compiler
