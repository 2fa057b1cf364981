import Moz.Compiler.AstRelease

/-!
# Removing unused productions

`moz_ast_remove_unused_decl` takes the live mark off each production of `C->decls`
in order, and notes for removal those that had no other reference. What dies then
is what the marks and the dying objects use the counts up of. A production is noted
if it dies with its own mark; if it dies later, with the mark of another one, it
stays in the list.
-/

namespace Moz.Compiler

open RefCount

/-- What of `moz_compiler_t` holds productions. -/
structure Ast where
  heap : AstHeap
  decls : List DeclPtr

def mozAstMarkLiveDecl (c : Ast) : Except Fault Ast := do
  let heap ← c.decls.foldlM (fun H decl => mozRcRetain H (.decl decl)) c.heap
  return { c with heap := heap }

/-- The loop of `moz_ast_remove_unused_decl`, with the productions it notes for removal. -/
def removeUnusedLoop (ndebug : Bool) (H : AstHeap) :
    List DeclPtr → Except Fault (AstHeap × List DeclPtr)
  | [] => .ok (H, [])
  | decl :: decls => do
    let H' ← mozRcRelease ndebug H (.decl decl)
    let (H'', removed) ← removeUnusedLoop ndebug H' decls
    return (H'', if H.refc (.decl decl) = 1 then decl :: removed else removed)

def mozAstRemoveUnusedDecl (ndebug : Bool) (c : Ast) : Except Fault Ast := do
  let (heap, removed) ← removeUnusedLoop ndebug c.heap c.decls
  return ⟨heap, removed.foldl List.erase c.decls⟩

def declRefs (decls : List DeclPtr) : Multiset Ptr := (decls.map Ptr.decl : List Ptr)

def Ast.marks (c : Ast) : Multiset Ptr := declRefs c.decls

@[simp] theorem declRefs_nil : declRefs [] = 0 := rfl

@[simp] theorem declRefs_cons (decl : DeclPtr) (decls : List DeclPtr) :
    declRefs (decl :: decls) = .decl decl ::ₘ declRefs decls := rfl

theorem declRefs_append (decls decls' : List DeclPtr) :
    declRefs (decls ++ decls') = declRefs decls + declRefs decls' := by
  simp [declRefs]

theorem declRefs_concat (decls : List DeclPtr) (decl : DeclPtr) :
    declRefs (decls ++ [decl]) = .decl decl ::ₘ declRefs decls := by
  rw [declRefs_append, declRefs_cons, declRefs_nil, Multiset.add_cons, add_zero]

@[simp] theorem mem_declRefs {p : Ptr} {decls : List DeclPtr} :
    p ∈ declRefs decls ↔ ∃ decl ∈ decls, Ptr.decl decl = p := by
  simp [declRefs]

/-- The production dies when its own mark is taken, after those of `before`. -/
def DiesAt (H : AstHeap) (before : List DeclPtr) (decl : DeclPtr) : Prop :=
  ¬H.Dies (declRefs before) (.decl decl) ∧ H.Dies (declRefs (before ++ [decl])) (.decl decl)

def Noted (H : AstHeap) : List DeclPtr → List DeclPtr → List DeclPtr → Prop
  | _, [], removed => removed = []
  | before, decl :: decls, removed => ∃ removed', Noted H (before ++ [decl]) decls removed' ∧
      (DiesAt H before decl ∧ removed = decl :: removed' ∨
        ¬DiesAt H before decl ∧ removed = removed')

namespace Noted

variable {H : AstHeap} {before decls removed : List DeclPtr} {decl : DeclPtr}

theorem sublist (h : Noted H before decls removed) : removed.Sublist decls := by
  induction decls generalizing before removed with
  | nil =>
    rw [Noted] at h
    rw [h]
  | cons decl decls ih =>
    obtain ⟨removed', hrest, ⟨-, rfl⟩ | ⟨-, rfl⟩⟩ := h
    · exact (ih hrest).cons_cons decl
    · exact (ih hrest).cons decl

theorem dies (h : Noted H before decls removed) (hdecl : decl ∈ removed) :
    H.Dies (declRefs (before ++ decls)) (.decl decl) := by
  induction decls generalizing before removed with
  | nil =>
    rw [Noted] at h
    simp [h] at hdecl
  | cons decl' decls ih =>
    obtain ⟨removed', hrest, hremoved⟩ := h
    rw [List.append_cons]
    rcases hremoved with ⟨hdies, rfl⟩ | ⟨-, rfl⟩
    · rcases List.mem_cons.1 hdecl with rfl | hdecl
      · apply hdies.2.mono
        rw [declRefs_append (before ++ [decl])]
        exact Multiset.le_add_right _ _
      · exact ih hrest hdecl
    · exact ih hrest hdecl

/-- A production is noted each time it is listed exactly if it dies with its own mark each time. -/
theorem count_eq_iff (h : Noted H before decls removed) :
    removed.count decl = decls.count decl ↔
      ∀ l l', decls = l ++ decl :: l' → DiesAt H (before ++ l) decl := by
  induction decls generalizing before removed with
  | nil =>
    rw [Noted] at h
    simp [h]
  | cons decl' decls ih =>
    obtain ⟨removed', hrest, hremoved⟩ := h
    have hle := hrest.sublist.count_le decl
    have hsplit : (∀ l l', decl' :: decls = l ++ decl :: l' → DiesAt H (before ++ l) decl) ↔
        (decl' = decl → DiesAt H before decl) ∧
          ∀ l l', decls = l ++ decl :: l' → DiesAt H (before ++ [decl'] ++ l) decl := by
      constructor
      · intro hall
        constructor
        · rintro rfl
          simpa using hall [] decls rfl
        · rintro l l' rfl
          simpa using hall (decl' :: l) l' rfl
      · rintro ⟨hhead, htail⟩ l l' hl
        cases l with
        | nil =>
          obtain ⟨rfl, rfl⟩ := List.cons.inj hl
          simpa using hhead rfl
        | cons x l =>
          obtain ⟨rfl, hrest⟩ := List.cons.inj hl
          simpa using htail l l' hrest
    rw [hsplit, ← ih hrest, List.count_cons]
    by_cases heq : decl' = decl
    · subst heq
      rcases hremoved with ⟨hdies, rfl⟩ | ⟨hnot, rfl⟩
      · simp [hdies]
      · apply iff_of_false
        · rw [beq_self_eq_true, if_pos rfl]
          omega
        · exact fun hall => hnot (hall.1 rfl)
    · rcases hremoved with ⟨-, rfl⟩ | ⟨-, rfl⟩
      · simp [heq]
      · simp [heq]

end Noted

theorem Wrong.mono {H : AstHeap} {released released' : Multiset Ptr} {f : Fault}
    (h : Wrong H released f) (hle : released ≤ released') : Wrong H released' f := by
  rcases h with ⟨hf, p, hdies, hnull⟩ | ⟨D, hD, p, hmem, hcount⟩
  · exact .inl ⟨hf, p, hdies.mono hle, hnull⟩
  · have hmore : released + held D H.children ≤ released' + held D H.children :=
      add_le_add_left hle _
    refine .inr ⟨D, fun m hm => (hD m hm).mono hle, p, Multiset.mem_of_le hmore hmem,
      hcount.trans_le ?_⟩
    exact_mod_cast Multiset.count_le_of_le p hmore

theorem Noticed.anti {ndebug : Bool} {H : AstHeap} {released released' : Multiset Ptr}
    (h : Noticed ndebug H released') (hle : released ≤ released') : Noticed ndebug H released := by
  intro hndebug
  obtain ⟨hcounts, hcycle⟩ := h hndebug
  exact ⟨hcounts, fun p hdies => hcycle p (hdies.mono hle)⟩

theorem Exact.add {H : AstHeap} {released pending : Multiset Ptr} {opened : Finset Ptr}
    (h : Exact H released opened pending) (o : Ptr) :
    Exact H (o ::ₘ released) opened (o ::ₘ pending) := by
  intro p hlt
  have hp := h p
  rw [Multiset.cons_add, Multiset.count_cons, Multiset.count_cons] at hlt
  rw [Multiset.cons_add, Multiset.count_cons, Multiset.count_cons]
  push_cast
  omega

section Loop

variable {H₀ H : AstHeap} {before : List DeclPtr} {opened : Finset Ptr} {decl : DeclPtr}

/-- The count of a production is 1 at its turn exactly if it dies with its own mark. -/
theorem refc_eq_one_iff (h : Releasing H₀ H (declRefs before) opened opened 0) :
    H.refc (.decl decl) = 1 ↔ DiesAt H₀ before decl := by
  rw [DiesAt, h.dies_iff, declRefs_concat]
  constructor
  · intro h1
    have hdead : Ptr.decl decl ∉ opened := by
      intro hmem
      have hnone := h.content (.decl decl)
      rw [if_pos hmem] at hnone
      rw [AstHeap.refc_eq_zero hnone] at h1
      cases h1
    have hrefc := h.refc _ hdead
    rw [Multiset.count_zero] at hrefc
    refine ⟨hdead, .intro _ opened (fun m hm => (h.dies m hm).mono (Multiset.le_cons_self _ _)) ?_ ?_⟩
    · omega
    · rw [Multiset.cons_add, Multiset.count_cons_self]
      push_cast
      omega
  · rintro ⟨hdead, hdies⟩
    have hrefc := h.refc _ hdead
    have hpos := h.refc_pos hdead hdies.pos
    rw [Multiset.count_zero] at hrefc
    by_contra h1
    -- one more reference does not use the count up, so that nothing more dies
    apply hdead
    rw [← Dies.iff_mem (fun m hm => (h.dies m hm).mono (Multiset.le_cons_self _ _))]
    · exact hdies
    · intro q hq hqpos
      have hleft := h.left q hq hqpos
      rw [Multiset.count_zero] at hleft
      rw [Multiset.cons_add, Multiset.count_cons]
      split_ifs with hqd
      · subst hqd
        push_cast
        omega
      · push_cast
        omega

def LoopDone (ndebug : Bool) (H₀ : AstHeap) (before decls : List DeclPtr) (opened : Finset Ptr) :
    Except Fault (AstHeap × List DeclPtr) → Prop
  | .ok (H', removed) => ∃ opened',
      Releasing H₀ H' (declRefs (before ++ decls)) opened' opened' 0 ∧
      (∀ p ∈ opened', p ∉ opened → none ∉ H₀.refs p) ∧
      (Noticed ndebug H₀ (declRefs (before ++ decls)) → Exact H₀ (declRefs before) opened 0 →
        Exact H₀ (declRefs (before ++ decls)) opened' 0) ∧
      Noted H₀ before decls removed
  | .error f => Wrong H₀ (declRefs (before ++ decls)) f

theorem removeUnusedLoop_spec (ndebug : Bool) (hH : H₀.Bounded) (decls : List DeclPtr) :
    ∀ (before : List DeclPtr) (H : AstHeap) (opened : Finset Ptr),
      Releasing H₀ H (declRefs before) opened opened 0 →
        LoopDone ndebug H₀ before decls opened (removeUnusedLoop ndebug H decls) := by
  induction decls with
  | nil =>
    intro before H opened h
    rw [removeUnusedLoop, LoopDone, List.append_nil]
    exact ⟨opened, h, fun p hp hp' => absurd hp hp', fun _ hexact => hexact, rfl⟩
  | cons decl decls ih =>
    intro before H opened h
    have hle : declRefs (before ++ [decl]) ≤ declRefs (before ++ [decl] ++ decls) := by
      rw [declRefs_append (before ++ [decl])]
      exact Multiset.le_add_right _ _
    have hadd := h.add (.decl decl)
    rw [← declRefs_concat] at hadd
    have hrelease := @mozRcRelease_spec ndebug _ _ hH _ _ _ hadd
    have hone : H.refc (.decl decl) = 1 ↔ DiesAt H₀ before decl := refc_eq_one_iff h
    cases hrun : mozRcRelease ndebug H (.decl decl) with
    | error f =>
      rw [hrun] at hrelease
      have hloop : removeUnusedLoop ndebug H (decl :: decls) = .error f := by
        rw [removeUnusedLoop, hrun]
        rfl
      rw [hloop, LoopDone, List.append_cons]
      exact Wrong.mono hrelease hle
    | ok H₁ =>
      rw [hrun] at hrelease
      obtain ⟨opened₁, hreleasing₁, hsub₁, hnone₁, hexact₁⟩ := hrelease
      have hrest := ih (before ++ [decl]) H₁ opened₁ hreleasing₁
      cases hloop₁ : removeUnusedLoop ndebug H₁ decls with
      | error f =>
        have hloop : removeUnusedLoop ndebug H (decl :: decls) = .error f := by
          rw [removeUnusedLoop, hrun]
          show (removeUnusedLoop ndebug H₁ decls).bind _ = _
          rw [hloop₁]
          rfl
        rw [hloop₁] at hrest
        rw [hloop, LoopDone, List.append_cons]
        exact hrest
      | ok result =>
        have hloop : removeUnusedLoop ndebug H (decl :: decls) = .ok (result.1,
            if H.refc (.decl decl) = 1 then decl :: result.2 else result.2) := by
          rw [removeUnusedLoop, hrun]
          show (removeUnusedLoop ndebug H₁ decls).bind _ = _
          rw [hloop₁]
          rfl
        rw [hloop₁] at hrest
        obtain ⟨opened', hreleasing', hnone', hexact', hnoted⟩ := hrest
        rw [hloop, LoopDone, List.append_cons]
        refine ⟨opened', hreleasing', ?_, ?_, result.2, hnoted, ?_⟩
        · intro p hp hp'
          by_cases hmid : p ∈ opened₁
          · exact hnone₁ p hmid hp'
          · exact hnone' p hp hmid
        · intro hnoticed hexact
          apply hexact' hnoticed
          apply hexact₁ (hnoticed.anti hle)
          rw [declRefs_concat]
          exact hexact.add (.decl decl)
        · by_cases h1 : H.refc (.decl decl) = 1
          · exact .inl ⟨hone.1 h1, if_pos h1⟩
          · exact .inr ⟨fun hdies => h1 (hone.2 hdies), if_neg h1⟩

end Loop

/-- A chain of pointers leads from one object to another. -/
def AstHeap.Leads (H : AstHeap) : Ptr → Ptr → Prop := Relation.ReflTransGen H.Refers

/-- Every production that is still listed is as it was with all it leads to, it has a reference, and
what the first production leads to is still listed. -/
structure KeepsUsed (c c' : Ast) : Prop where
  intact : ∀ decl ∈ c'.decls, 0 < c'.heap.refc (.decl decl) ∧
    ∀ p, c.heap.Leads (.decl decl) p →
      (c'.heap.content p).isSome ∧ c'.heap.content p = c.heap.content p
  reached : ∀ first ∈ c.decls.head?, ∀ decl,
    c'.heap.Leads (.decl first) (.decl decl) → decl ∈ c'.decls

/-- Nothing that dies holds a null pointer, and no object is released more often than it counts. A
listed production that dies does so by its own turn. One that stays leads only to what is there and
stays, and so does the first one, to productions that are listed. -/
structure RemovesWell (c : Ast) : Prop where
  null : ∀ p, c.heap.Dies c.marks p → none ∉ c.heap.refs p
  counts : ∀ D : Finset Ptr, (∀ m ∈ D, c.heap.Dies c.marks m) →
    ∀ p ∈ c.marks + held D c.heap.children,
      ((c.marks + held D c.heap.children).count p : ℤ) ≤ c.heap.refc p
  turn : ∀ before decl after, c.decls = before ++ decl :: after →
    c.heap.Dies c.marks (.decl decl) → c.heap.Dies (declRefs (before ++ [decl])) (.decl decl)
  stays : ∀ decl ∈ c.decls, ¬c.heap.Dies c.marks (.decl decl) →
    ∀ p, c.heap.Leads (.decl decl) p → (c.heap.content p).isSome ∧ ¬c.heap.Dies c.marks p
  first : ∀ first ∈ c.decls.head?, ¬c.heap.Dies c.marks (.decl first) ∧
    ∀ decl, c.heap.Leads (.decl first) (.decl decl) → decl ∈ c.decls

section Exact

variable {c : Ast} {H' : AstHeap} {opened : Finset Ptr} {removed : List DeclPtr} {decl : DeclPtr}

theorem mem_left_iff : decl ∈ removed.foldl List.erase c.decls ↔
    removed.count decl < c.decls.count decl := by
  rw [← List.diff_eq_foldl, ← List.count_pos_iff, List.count_diff]
  omega

theorem Noted.left (h : Noted c.heap [] c.decls removed) (hdecl : decl ∈ c.decls)
    (hstays : ¬c.heap.Dies c.marks (.decl decl)) : decl ∈ removed.foldl List.erase c.decls := by
  rw [mem_left_iff, List.count_eq_zero_of_not_mem fun hmem => hstays (h.dies hmem)]
  exact List.count_pos_iff.2 hdecl

/-- What a chain leads to in the heap that is left, it led to before. -/
theorem Releasing.leads {released : Multiset Ptr} {dead : Finset Ptr} {pending : Multiset Ptr}
    {p q : Ptr} (h : Releasing c.heap H' released opened dead pending) (hleads : H'.Leads p q) :
    c.heap.Leads p q := by
  induction hleads with
  | refl => exact .refl
  | @tail m x _ hlast ih =>
    apply ih.tail
    have hlast' : x ∈ H'.children m := hlast
    by_cases hm : m ∈ dead
    · have hnone := h.content m
      rw [if_pos hm] at hnone
      simp [AstHeap.children, AstHeap.refs, hnone] at hlast'
    · rwa [AstHeap.children, h.refs_eq hm] at hlast'

/-- Where the removal is as it should be, its conditions hold. -/
theorem removesWell_of_keeps (h : Releasing c.heap H' c.marks opened opened 0)
    (hnone : ∀ p ∈ opened, none ∉ c.heap.refs p) (hexact : Exact c.heap c.marks opened 0)
    (hnoted : Noted c.heap [] c.decls removed)
    (hkeeps : KeepsUsed c ⟨H', removed.foldl List.erase c.decls⟩) : RemovesWell c := by
  have hcontent : ∀ p, (H'.content p).isSome → ¬c.heap.Dies c.marks p := by
    intro p hsome hdies
    rw [h.content, if_pos (h.dies_iff.1 hdies)] at hsome
    cases hsome
  have hgone : ∀ decl, c.heap.Dies c.marks (.decl decl) →
      decl ∉ removed.foldl List.erase c.decls := fun decl hdies hmem =>
    hcontent _ ((hkeeps.intact decl hmem).2 _ .refl).1 hdies
  have hstays : ∀ decl ∈ c.decls, ¬c.heap.Dies c.marks (.decl decl) →
      ∀ p, c.heap.Leads (.decl decl) p → (c.heap.content p).isSome ∧ ¬c.heap.Dies c.marks p := by
    intro decl hdecl hlives p hleads
    obtain ⟨hsome, heq⟩ := (hkeeps.intact decl (hnoted.left hdecl hlives)).2 p hleads
    exact ⟨heq ▸ hsome, hcontent p hsome⟩
  constructor
  · exact fun p hdies => hnone p (h.dies_iff.1 hdies)
  · intro D hD p hp
    have hsub : D ⊆ opened := fun m hm => h.dies_iff.1 (hD m hm)
    have hmore : (held D c.heap.children).count p ≤ (held opened c.heap.children).count p :=
      count_held_mono hsub
    have hpos := Multiset.count_pos.2 hp
    have hcount := hexact p
    rw [Multiset.count_add, Multiset.count_zero] at hcount
    rw [Multiset.count_add] at hpos ⊢
    push_cast at hcount ⊢
    omega
  · intro before decl after hdecls hdies
    have hcount : removed.count decl = c.decls.count decl := by
      have hle := hnoted.sublist.count_le decl
      have hnot := hgone decl hdies
      rw [mem_left_iff] at hnot
      omega
    exact (hnoted.count_eq_iff.1 hcount before after hdecls).2
  · exact hstays
  · intro first hfirst
    have hmem := hkeeps.reached first hfirst first .refl
    have hlives := hcontent _ ((hkeeps.intact first hmem).2 _ .refl).1
    have hfirst_mem : first ∈ c.decls := List.mem_of_mem_head? hfirst
    refine ⟨hlives, fun decl hleads => ?_⟩
    have hleft : ∀ p, c.heap.Leads (.decl first) p → H'.Leads (.decl first) p := by
      intro p hp
      induction hp with
      | refl => exact .refl
      | @tail m x hm hlast ih =>
        apply ih.tail
        have hm' : m ∉ opened := fun hmem => (hstays first hfirst_mem hlives m hm).2 (h.dies m hmem)
        show x ∈ H'.children m
        rwa [AstHeap.children, h.refs_eq hm']
    have hdecl := hkeeps.reached first hfirst decl (hleft _ hleads)
    rw [mem_left_iff] at hdecl
    exact List.count_pos_iff.1 (Nat.zero_lt_of_lt hdecl)

/-- A production does not die before its own mark is taken off. -/
theorem RemovesWell.not_early (hc : RemovesWell c) {before after : List DeclPtr}
    (hdecls : c.decls = before ++ decl :: after) :
    ¬c.heap.Dies (declRefs before) (.decl decl) := by
  intro hearly
  have hmarks : c.marks = declRefs before + .decl decl ::ₘ declRefs after := by
    rw [Ast.marks, hdecls, declRefs_append, declRefs_cons]
  have hle : declRefs before ≤ c.marks := hmarks ▸ Multiset.le_add_right _ _
  cases hearly with
  | intro _ D hD hpos hcount =>
    have hmem : Ptr.decl decl ∈ c.marks + held D c.heap.children := by
      rw [hmarks]
      simp
    have hall := hc.counts D (fun m hm => (hD m hm).mono hle) _ hmem
    rw [hmarks] at hall
    simp only [Multiset.count_add, Multiset.count_cons_self] at hall hcount
    push_cast at hall hcount
    omega

/-- Under its conditions the removal is as it should be. -/
theorem RemovesWell.keeps (hc : RemovesWell c) (h : Releasing c.heap H' c.marks opened opened 0)
    (hnoted : Noted c.heap [] c.decls removed) :
    KeepsUsed c ⟨H', removed.foldl List.erase c.decls⟩ := by
  have hlisted : ∀ decl ∈ removed.foldl List.erase c.decls,
      decl ∈ c.decls ∧ ¬c.heap.Dies c.marks (.decl decl) := by
    intro decl hdecl
    rw [mem_left_iff] at hdecl
    refine ⟨List.count_pos_iff.1 (Nat.zero_lt_of_lt hdecl), fun hdies => hdecl.ne ?_⟩
    rw [hnoted.count_eq_iff]
    intro before after hdecls
    exact ⟨hc.not_early hdecls, hc.turn before decl after hdecls hdies⟩
  constructor
  · intro decl hdecl
    obtain ⟨hmem, hlives⟩ := hlisted decl hdecl
    have hkept : ∀ p, ¬c.heap.Dies c.marks p → H'.content p = c.heap.content p := by
      intro p hp
      rw [h.content, if_neg fun hopened => hp (h.dies p hopened)]
    constructor
    · apply h.refc_pos fun hopened => hlives (h.dies _ hopened)
      have hmark : Ptr.decl decl ∈ c.marks := mem_declRefs.2 ⟨decl, hmem, rfl⟩
      have hpos := Multiset.count_pos.2 hmark
      have hcount := hc.counts opened h.dies _ (Multiset.mem_add.2 (.inl hmark))
      rw [Multiset.count_add] at hcount
      push_cast at hcount
      omega
    · intro p hleads
      obtain ⟨hsome, hp⟩ := hc.stays decl hmem hlives p hleads
      have hp' := hkept p hp
      exact ⟨by rwa [hp'], hp'⟩
  · intro first hfirst decl hleads
    obtain ⟨hlives, hall⟩ := hc.first first hfirst
    have hleads' := h.leads hleads
    apply hnoted.left (hall decl hleads')
    exact (hc.stays first (List.mem_of_mem_head? hfirst) hlives _ hleads').2

/-- Removal is as it should be under its conditions, and only then: in a build with assertions, and
without them where too many releases are noticed. -/
theorem mozAstRemoveUnusedDecl_iff (ndebug : Bool) (hc : c.heap.Bounded) :
    (RemovesWell c → ∃ c', mozAstRemoveUnusedDecl ndebug c = .ok c' ∧ KeepsUsed c c') ∧
      (Noticed ndebug c.heap c.marks →
        (∃ c', mozAstRemoveUnusedDecl ndebug c = .ok c' ∧ KeepsUsed c c') → RemovesWell c) := by
  have hrun := removeUnusedLoop_spec ndebug hc c.decls [] c.heap ∅ (.start c.heap)
  cases hloop : removeUnusedLoop ndebug c.heap c.decls with
  | error f =>
    have hremove : mozAstRemoveUnusedDecl ndebug c = .error f := by
      rw [mozAstRemoveUnusedDecl, hloop]
      rfl
    rw [hloop] at hrun
    rw [hremove]
    constructor
    · intro hwell
      rcases hrun with ⟨-, p, hdies, hnull⟩ | ⟨D, hD, p, hmem, hcount⟩
      · exact absurd hnull (hwell.null p hdies)
      · exact absurd hcount (not_lt.2 (hwell.counts D hD p hmem))
    · rintro - ⟨c', hc', -⟩
      cases hc'
  | ok result =>
    have hremove : mozAstRemoveUnusedDecl ndebug c =
        .ok ⟨result.1, result.2.foldl List.erase c.decls⟩ := by
      rw [mozAstRemoveUnusedDecl, hloop]
      rfl
    rw [hloop] at hrun
    obtain ⟨opened, hreleasing, hnone, hexact, hnoted⟩ := hrun
    rw [hremove]
    constructor
    · exact fun hwell => ⟨_, rfl, hwell.keeps hreleasing hnoted⟩
    · rintro hnoticed ⟨c', hc', hkeeps⟩
      cases hc'
      refine removesWell_of_keeps hreleasing (fun p hp => hnone p hp (Finset.notMem_empty p))
        (hexact hnoticed ?_) hnoted hkeeps
      intro p hlt
      simp [held] at hlt

end Exact

/-- `File = A . / A . . / A 'cd' 'ef' .; A = 'ab'; X = Y Y; Y = { 'b' }`, when the first pass has
inlined `A` and marked the productions: the string of `A` has been released once too often, and the
string `abcd` is lost. -/
def unevenCounts : Ast where
  heap :=
    { decls := fun decl => [(0, ⟨2, [70], some 4⟩), (1, ⟨1, [65], some 8⟩), (2, ⟨1, [88], some 15⟩),
        (3, ⟨3, [89], some 18⟩)].lookup decl
      exprs := fun e => [(4, ⟨1, .choice [5, 6, 7]⟩), (5, ⟨1, .sequence [8, 9]⟩),
        (6, ⟨1, .sequence [8, 10, 11]⟩), (7, ⟨1, .sequence [12, 13]⟩), (8, ⟨2, .str []⟩),
        (9, ⟨1, .any⟩), (10, ⟨1, .any⟩), (11, ⟨1, .any⟩), (12, ⟨1, .str [101, 102]⟩),
        (13, ⟨1, .any⟩), (14, ⟨1, .str [97, 98, 99, 100]⟩), (15, ⟨1, .sequence [16, 17]⟩),
        (16, ⟨1, .invoke [89] (some 3)⟩), (17, ⟨1, .invoke [89] (some 3)⟩),
        (18, ⟨1, .sequence [19, 20, 21]⟩), (19, ⟨1, .tnew⟩), (20, ⟨1, .byte 98⟩),
        (21, ⟨1, .tcapture⟩)].lookup e
      next := 22 }
  decls := [0, 1, 2, 3]

theorem lookup_isSome {α : Type} {n a : ℕ} {l : List (ℕ × α)} (hl : ∀ x ∈ l, x.1 < n)
    (h : (l.lookup a).isSome) : a < n := by
  induction l with
  | nil => cases h
  | cons x l ih =>
    rw [List.lookup_cons] at h
    by_cases hx : a = x.1
    · exact hx ▸ hl x List.mem_cons_self
    · rw [beq_false_of_ne hx] at h
      exact ih (fun y hy => hl y (List.mem_cons_of_mem x hy)) h

theorem unevenCounts_bounded : unevenCounts.heap.Bounded := by
  intro p hsome
  cases p with
  | decl decl =>
    rw [AstHeap.content, Option.isSome_map] at hsome
    exact lookup_isSome (by decide) hsome
  | expr e =>
    rw [AstHeap.content, Option.isSome_map] at hsome
    exact lookup_isSome (by decide) hsome

def unevenDying (released : Multiset Ptr) : Finset Ptr :=
  dying unevenCounts.heap.refc unevenCounts.heap.children released unevenCounts.heap.universe 6

theorem unevenCounts_dies_iff (p : Ptr) :
    unevenCounts.heap.Dies unevenCounts.marks p ↔ p ∈ unevenDying unevenCounts.marks := by
  apply dies_iff_mem_dying
  · exact fun y hy => unevenCounts_bounded.mem_universe (AstHeap.isSome_of_refc_pos hy)
  · decide +kernel

theorem unevenCounts_leads {p : Ptr} (h : unevenCounts.heap.Leads (.decl 0) p) :
    p ∈ insert (Ptr.decl 0) ((Finset.Icc 4 13).image Ptr.expr) := by
  induction h with
  | refl => decide
  | @tail m x _ hlast ih =>
    have hclosed : ∀ m ∈ insert (Ptr.decl 0) ((Finset.Icc 4 13).image Ptr.expr),
        ∀ x ∈ unevenCounts.heap.children m,
          x ∈ insert (Ptr.decl 0) ((Finset.Icc 4 13).image Ptr.expr) := by
      decide +kernel
    exact hclosed m ih x hlast

theorem unevenCounts_stays : ∀ p ∈ insert (Ptr.decl 0) ((Finset.Icc 4 13).image Ptr.expr),
    (unevenCounts.heap.content p).isSome ∧ p ∉ unevenDying unevenCounts.marks := by
  decide +kernel

/-- `A`, `X` and `Y` are removed, and `File` is kept. -/
theorem mozAstRemoveUnusedDecl_iff_unevenCounts : ∃ c',
    mozAstRemoveUnusedDecl true unevenCounts = .ok c' ∧ KeepsUsed unevenCounts c' := by
  refine (mozAstRemoveUnusedDecl_iff true unevenCounts_bounded).1 ⟨?_, ?_, ?_, ?_, ?_⟩
  · have hnull : ∀ p ∈ unevenDying unevenCounts.marks, none ∉ unevenCounts.heap.refs p := by
      decide +kernel
    exact fun p hdies => hnull p ((unevenCounts_dies_iff p).1 hdies)
  · intro D hD p hp
    have hcounts : ∀ p ∈ unevenCounts.marks +
        held (unevenDying unevenCounts.marks) unevenCounts.heap.children,
        ((unevenCounts.marks + held (unevenDying unevenCounts.marks)
          unevenCounts.heap.children).count p : ℤ) ≤ unevenCounts.heap.refc p := by
      decide +kernel
    have hle : unevenCounts.marks + held D unevenCounts.heap.children ≤
        unevenCounts.marks + held (unevenDying unevenCounts.marks) unevenCounts.heap.children :=
      add_le_add_right (held_mono fun m hm => (unevenCounts_dies_iff m).1 (hD m hm)) _
    refine le_trans ?_ (hcounts p (Multiset.mem_of_le hle hp))
    exact_mod_cast Multiset.count_le_of_le p hle
  · intro before decl after hdecls hdies
    have hturn : ∀ k < 4, ∀ decl ∈ unevenCounts.decls[k]?,
        Ptr.decl decl ∈ unevenDying unevenCounts.marks →
          Ptr.decl decl ∈ unevenDying (declRefs (unevenCounts.decls.take (k + 1))) := by
      decide +kernel
    have hlength := congrArg List.length hdecls
    have hbefore : before ++ [decl] = unevenCounts.decls.take (before.length + 1) := by
      simp [hdecls, List.take_append]
    rw [hbefore]
    apply dies_of_mem_dying
    apply hturn before.length _ decl _ ((unevenCounts_dies_iff _).1 hdies)
    · simp [unevenCounts] at hlength
      omega
    · simp [hdecls]
  · intro decl hdecl hlives p hleads
    have hfile : decl = 0 := by
      have honly : ∀ decl ∈ unevenCounts.decls,
          Ptr.decl decl ∉ unevenDying unevenCounts.marks → decl = 0 := by
        decide +kernel
      exact honly decl hdecl fun hmem => hlives ((unevenCounts_dies_iff _).2 hmem)
    subst hfile
    obtain ⟨hsome, hp⟩ := unevenCounts_stays p (unevenCounts_leads hleads)
    exact ⟨hsome, fun hdies => hp ((unevenCounts_dies_iff p).1 hdies)⟩
  · intro first hfirst
    cases hfirst
    constructor
    · intro hdies
      exact (unevenCounts_stays _ (by decide)).2 ((unevenCounts_dies_iff _).1 hdies)
    · intro decl hleads
      have hmem := unevenCounts_leads hleads
      simp at hmem
      simp [hmem, unevenCounts]

/-- The counts are right: an object is there for the live marks, the top level mark and the objects
that refer to it, and the productions are those that are listed. -/
structure Ast.Counts (c : Ast) (live : Finset Ptr) : Prop where
  owned : Owned live c.heap.children c.heap.refc (c.marks + declRefs c.decls.head?.toList)
  mem_iff : ∀ p, p ∈ live ↔ (c.heap.content p).isSome
  listed : ∀ decl, Ptr.decl decl ∈ live → decl ∈ c.decls

namespace Ast.Counts

variable {c : Ast} {live : Finset Ptr} {p m : Ptr}

theorem mem_live (h : c.Counts live) (hdies : c.heap.Dies c.marks p) : p ∈ live :=
  (h.mem_iff p).2 (AstHeap.isSome_of_refc_pos hdies.pos)

theorem dies_parent (h : c.Counts live) (hdies : c.heap.Dies c.marks p) (hm : m ∈ live)
    (hp : p ∈ c.heap.children m) : c.heap.Dies c.marks m := by
  by_contra hlives
  have hcount := h.owned.count p (h.mem_live hdies)
  cases hdies with
  | intro _ D hD _ hused =>
    have hnew : m ∉ D := fun hmem => hlives (hD m hmem)
    have hsub : insert m D ⊆ live := Finset.insert_subset hm fun x hx => h.mem_live (hD x hx)
    have hmore : (held (insert m D) c.heap.children).count p ≤ (held live c.heap.children).count p :=
      count_held_mono hsub
    have hpos : 0 < (c.heap.children m : Multiset Ptr).count p := Multiset.count_pos.2 hp
    rw [held_insert hnew, Multiset.count_add] at hmore
    simp only [Multiset.count_add] at hcount hused
    omega

theorem first_lives (h : c.Counts live) {first : DeclPtr} (hfirst : first ∈ c.decls.head?) :
    ¬c.heap.Dies c.marks (.decl first) := by
  intro hdies
  have hcount := h.owned.count _ (h.mem_live hdies)
  have hpos : 0 < (declRefs c.decls.head?.toList).count (.decl first) :=
    Multiset.count_pos.2 (mem_declRefs.2 ⟨first, by simpa using hfirst, rfl⟩)
  cases hdies with
  | intro _ D hD _ hused =>
    have hmore : (held D c.heap.children).count (.decl first) ≤
        (held live c.heap.children).count (.decl first) :=
      count_held_mono fun x hx => h.mem_live (hD x hx)
    simp only [Multiset.count_add] at hcount hused
    omega

/-- A production that does not die leads to live objects that do not die. -/
theorem stays (h : c.Counts live) {decl : DeclPtr} (hdecl : decl ∈ c.decls)
    (hlives : ¬c.heap.Dies c.marks (.decl decl)) (hleads : c.heap.Leads (.decl decl) p) :
    p ∈ live ∧ ¬c.heap.Dies c.marks p := by
  induction hleads with
  | refl =>
    refine ⟨h.owned.mem_of_owner ?_, hlives⟩
    exact Multiset.mem_add.2 (.inl (mem_declRefs.2 ⟨decl, hdecl, rfl⟩))
  | @tail m x _ hlast ih =>
    exact ⟨h.owned.mem_of_child ih.1 hlast, fun hdies => ih.2 (h.dies_parent hdies ih.1 hlast)⟩

/-- Where the counts are right, removal goes wrong in two ways only. -/
theorem removesWell_iff (h : c.Counts live) : RemovesWell c ↔
    (∀ p, c.heap.Dies c.marks p → none ∉ c.heap.refs p) ∧
      ∀ before decl after, c.decls = before ++ decl :: after →
        c.heap.Dies c.marks (.decl decl) → c.heap.Dies (declRefs (before ++ [decl])) (.decl decl) := by
  constructor
  · exact fun hc => ⟨hc.null, hc.turn⟩
  · rintro ⟨hnull, hturn⟩
    have hstays : ∀ decl ∈ c.decls, ¬c.heap.Dies c.marks (.decl decl) →
        ∀ p, c.heap.Leads (.decl decl) p → (c.heap.content p).isSome ∧ ¬c.heap.Dies c.marks p := by
      intro decl hdecl hlives p hleads
      obtain ⟨hlive, hp⟩ := h.stays hdecl hlives hleads
      exact ⟨(h.mem_iff p).1 hlive, hp⟩
    refine ⟨hnull, ?_, hturn, hstays, ?_⟩
    · intro D hD p hp
      have hsub : D ⊆ live := fun m hm => h.mem_live (hD m hm)
      have hle : c.marks + held D c.heap.children ≤
          c.marks + declRefs c.decls.head?.toList + held live c.heap.children :=
        add_le_add (Multiset.le_add_right _ _) (held_mono hsub)
      rw [h.owned.count p (h.owned.mem_live p (Multiset.mem_of_le hle hp))]
      exact_mod_cast Multiset.count_le_of_le p hle
    · intro first hfirst
      have hmem : first ∈ c.decls := List.mem_of_mem_head? hfirst
      have hlives := h.first_lives hfirst
      exact ⟨hlives, fun decl hleads => h.listed decl (h.stays hmem hlives hleads).1⟩

end Ast.Counts

/-- `File = 'a'; Y = { 'b' }; X = Y Y`, when the productions of the pass are marked. -/
def laterUnused : Ast where
  heap :=
    { decls := fun decl => [(0, ⟨2, [70], some 3⟩), (1, ⟨3, [89], some 4⟩),
        (2, ⟨1, [88], some 8⟩)].lookup decl
      exprs := fun e => [(3, ⟨1, .byte 97⟩), (4, ⟨1, .sequence [5, 6, 7]⟩), (5, ⟨1, .tnew⟩),
        (6, ⟨1, .byte 98⟩), (7, ⟨1, .tcapture⟩), (8, ⟨1, .sequence [9, 10]⟩),
        (9, ⟨1, .invoke [89] (some 1)⟩), (10, ⟨1, .invoke [89] (some 1)⟩)].lookup e
      next := 11 }
  decls := [0, 1, 2]

/-- `Y` is swept with `X`, and stays in the list. -/
theorem laterUnused_left : ¬∃ c', mozAstRemoveUnusedDecl true laterUnused = .ok c' ∧
    KeepsUsed laterUnused c' := by
  rintro ⟨c', hc', hkeeps⟩
  have hdecls : c'.decls = [0, 1] := by
    cases hc'
    rfl
  have hrefc : c'.heap.refc (.decl 1) = 0 := by
    cases hc'
    rfl
  have hpos := (hkeeps.intact 1 (by simp [hdecls])).1
  omega

end Moz.Compiler
