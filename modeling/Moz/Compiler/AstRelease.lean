import Moz.Compiler.AstHeap
import Moz.Lib.Cascade

/-!
# Releasing productions and expressions

A heap whose counts may be wrong is released from. While a cascade runs, some
objects have been opened, because their counts were used up, and what they hold is
pending. It ends well unless an object that dies holds a null pointer, or the
references that are released to an object are more than its count.
-/

namespace Moz.Compiler

open RefCount

def AstHeap.Dies (H : AstHeap) (released : Multiset Ptr) (p : Ptr) : Prop :=
  RefCount.Dies H.refc H.children released p

/-- No object is beyond the addresses that were handed out. -/
def AstHeap.Bounded (H : AstHeap) : Prop := ∀ p, (H.content p).isSome → p.addr < H.next

def AstHeap.universe (H : AstHeap) : Finset Ptr :=
  (Finset.range H.next).image Ptr.decl ∪ (Finset.range H.next).image Ptr.expr

def AstHeap.Refers (H : AstHeap) (m p : Ptr) : Prop := p ∈ H.children m

namespace AstHeap

variable {H : AstHeap} {p : Ptr}

theorem refc_eq_zero (h : H.content p = none) : H.refc p = 0 := by
  cases p with
  | decl decl => simp_all [content, AstHeap.refc]
  | expr e => simp_all [content, AstHeap.refc]

theorem isSome_of_refc_pos (h : 0 < H.refc p) : (H.content p).isSome := by
  rw [Option.isSome_iff_ne_none]
  intro hnone
  rw [refc_eq_zero hnone] at h
  exact lt_irrefl 0 h

theorem Bounded.mem_universe (hH : H.Bounded) (h : (H.content p).isSome) : p ∈ H.universe := by
  have hbound := hH p h
  cases p with
  | decl decl => exact Finset.mem_union_left _ (by simpa [Ptr.addr] using hbound)
  | expr e => exact Finset.mem_union_right _ (by simpa [Ptr.addr] using hbound)

theorem card_universe (H : AstHeap) : H.universe.card ≤ 2 * H.next := by
  have hdecls := Finset.card_image_le (s := Finset.range H.next) (f := Ptr.decl)
  have hexprs := Finset.card_image_le (s := Finset.range H.next) (f := Ptr.expr)
  have hunion := Finset.card_union_le ((Finset.range H.next).image Ptr.decl)
    ((Finset.range H.next).image Ptr.expr)
  rw [Finset.card_range] at hdecls hexprs
  rw [AstHeap.universe]
  omega

end AstHeap

/-- Why a release fails: something that dies holds a null pointer, or more references to an object
are released than it counts. -/
def Wrong (H : AstHeap) (released : Multiset Ptr) (f : Fault) : Prop :=
  (f = .null ∧ ∃ p, H.Dies released p ∧ none ∈ H.refs p) ∨
    ∃ D : Finset Ptr, (∀ m ∈ D, H.Dies released m) ∧
      ∃ p ∈ released + held D H.children, H.refc p < (released + held D H.children).count p

/-- The cascade from `H₀` has come to `H`. The objects of `opened` have their counts used up, those
of `dead` are freed, and `pending` is what is still to be released of `released` and of what the
opened objects hold. -/
structure Releasing (H₀ H : AstHeap) (released : Multiset Ptr) (opened dead : Finset Ptr)
    (pending : Multiset Ptr) : Prop where
  subset : dead ⊆ opened
  content : ∀ p, H.content p = if p ∈ dead then none else H₀.content p
  next : H.next = H₀.next
  covered : pending ≤ released + held opened H₀.children
  refc : ∀ p ∉ dead, H.refc p + (released + held opened H₀.children).count p =
    H₀.refc p + pending.count p
  dies : ∀ p ∈ opened, H₀.Dies released p
  reached : ∀ p ∈ opened,
    H₀.refc p + pending.count p ≤ (released + held opened H₀.children).count p
  left : ∀ p ∉ opened, 0 < H₀.refc p →
    ((released + held opened H₀.children).count p : ℤ) < H₀.refc p + pending.count p

/-- No object has been released more often than it counts. -/
def Exact (H₀ : AstHeap) (released : Multiset Ptr) (opened : Finset Ptr) (pending : Multiset Ptr) :
    Prop :=
  ∀ p, pending.count p < (released + held opened H₀.children).count p →
    ((released + held opened H₀.children).count p : ℤ) ≤ H₀.refc p + pending.count p

/-- Where the assertion of `MOZ_RC_RELEASE` is compiled out, a release is noticed to be one too many
only if the object is freed: every object counts, and none that dies leads back to itself. -/
def Noticed (ndebug : Bool) (H₀ : AstHeap) (released : Multiset Ptr) : Prop :=
  ndebug = true → (∀ p, (H₀.content p).isSome → 0 < H₀.refc p) ∧
    ∀ p, H₀.Dies released p → ¬Relation.TransGen H₀.Refers p p

/-- What a release has done, or why it has failed. `path` leads to what is released from the objects
that are being swept. -/
def Released (ndebug : Bool) (H₀ : AstHeap) (released : Multiset Ptr) (opened dead : Finset Ptr)
    (start pending : Multiset Ptr) (path : Prop) : Except Fault AstHeap → Prop
  | .ok H' => ∃ opened', opened ⊆ opened' ∧
      Releasing H₀ H' released opened' (dead ∪ opened' \ opened) pending ∧
      (∀ p ∈ opened', p ∉ opened → none ∉ H₀.refs p) ∧
      (path → Noticed ndebug H₀ released → Exact H₀ released opened start →
        Exact H₀ released opened' pending)
  | .error f => Wrong H₀ released f

namespace Releasing

variable {H₀ H : AstHeap} {released pending : Multiset Ptr} {opened dead : Finset Ptr} {o p : Ptr}

theorem start (H : AstHeap) : Releasing H H 0 ∅ ∅ 0 where
  subset := subset_rfl
  content p := by simp
  next := rfl
  covered := by simp
  refc p _ := by simp [held]
  dies p hp := absurd hp (Finset.notMem_empty p)
  reached p hp := absurd hp (Finset.notMem_empty p)
  left p _ hpos := by simpa [held] using hpos

theorem add (h : Releasing H₀ H released opened dead pending) (o : Ptr) :
    Releasing H₀ H (o ::ₘ released) opened dead (o ::ₘ pending) where
  subset := h.subset
  content := h.content
  next := h.next
  covered := by
    rw [Multiset.cons_add]
    exact Multiset.cons_le_cons o h.covered
  refc p hp := by
    have hrefc := h.refc p hp
    rw [Multiset.cons_add, Multiset.count_cons, Multiset.count_cons]
    push_cast
    omega
  dies p hp := (h.dies p hp).mono (Multiset.le_cons_self released o)
  reached p hp := by
    have hreached := h.reached p hp
    rw [Multiset.cons_add, Multiset.count_cons, Multiset.count_cons]
    push_cast
    omega
  left p hp hpos := by
    have hleft := h.left p hp hpos
    rw [Multiset.cons_add, Multiset.count_cons, Multiset.count_cons]
    push_cast
    omega

/-- Between two releases the objects that are gone are those that die. -/
theorem dies_iff (h : Releasing H₀ H released opened opened 0) : H₀.Dies released p ↔ p ∈ opened :=
  Dies.iff_mem h.dies fun q hq hpos => by simpa using h.left q hq hpos

theorem wrong {f : Fault} (h : Releasing H₀ H released opened dead (o ::ₘ pending))
    (hrefc : H₀.refc o + (o ::ₘ pending).count o ≤
      (released + held opened H₀.children).count o) : Wrong H₀ released f := by
  have hmem : o ∈ released + held opened H₀.children :=
    Multiset.mem_of_le h.covered (Multiset.mem_cons_self o pending)
  refine .inr ⟨opened, h.dies, o, hmem, ?_⟩
  rw [Multiset.count_cons_self] at hrefc
  push_cast at hrefc ⊢
  omega

/-- What is released is there, or it is released too often. -/
theorem content_isSome {f : Fault} (h : Releasing H₀ H released opened dead (o ::ₘ pending))
    (hw : ¬Wrong H₀ released f) : (H.content o).isSome := by
  rw [h.content]
  by_cases hdead : o ∈ dead
  · exact absurd (h.wrong (h.reached o (h.subset hdead))) hw
  rw [if_neg hdead, Option.isSome_iff_ne_none]
  intro hnone
  have hpending : (o ::ₘ pending).count o ≤ (released + held opened H₀.children).count o :=
    Multiset.count_le_of_le o h.covered
  apply hw
  apply h.wrong
  rw [AstHeap.refc_eq_zero hnone, zero_add]
  exact_mod_cast hpending

theorem refs_eq (h : Releasing H₀ H released opened dead pending) (hp : p ∉ dead) :
    H.refs p = H₀.refs p := by
  apply AstHeap.refs_congr
  rw [h.content, if_neg hp]

/-- Something that has not been opened counts as long as it is not released for the last time. -/
theorem refc_pos (h : Releasing H₀ H released opened dead pending) (hp : p ∉ opened)
    (hpos : 0 < H₀.refc p) : 0 < H.refc p := by
  have hrefc := h.refc p fun hdead => hp (h.subset hdead)
  have hleft := h.left p hp hpos
  omega

theorem notMem_opened (h : Releasing H₀ H released opened dead pending) (hdead : p ∉ dead)
    (hpos : 0 < H.refc p) : p ∉ opened := by
  intro hp
  have hrefc := h.refc p hdead
  have hreached := h.reached p hp
  omega

theorem drop (h : Releasing H₀ H released opened dead (o ::ₘ pending)) (hdead : o ∉ dead)
    (hsome : (H.content o).isSome) (hne : H.refc o - 1 ≠ 0) :
    Releasing H₀ (H.setRefc (H.refc o - 1) o) released opened dead pending := by
  have hself := AstHeap.refc_setRefc_self (H.refc o - 1) hsome
  have hother : ∀ p, p ≠ o → (H.setRefc (H.refc o - 1) o).refc p = H.refc p := fun p hp =>
    AstHeap.refc_setRefc_of_ne _ hp
  have hcount : ∀ p, p ≠ o → (o ::ₘ pending).count p = pending.count p := fun p hp =>
    Multiset.count_cons_of_ne hp pending
  have hcount_self := Multiset.count_cons_self o pending
  constructor
  · exact h.subset
  · intro p
    rw [AstHeap.content_setRefc, h.content]
  · rw [AstHeap.next_setRefc, h.next]
  · exact (Multiset.le_cons_self pending o).trans h.covered
  · intro p hp
    have hrefc := h.refc p hp
    by_cases hpo : p = o
    · subst hpo
      rw [hself]
      omega
    · rw [hother p hpo, hrefc, hcount p hpo]
  · exact h.dies
  · intro p hp
    have hreached := h.reached p hp
    have hle := Multiset.count_le_count_cons p o pending
    omega
  · intro p hp hpos
    have hleft := h.left p hp hpos
    by_cases hpo : p = o
    · subst hpo
      have hrefc := h.refc p hdead
      omega
    · rwa [hcount p hpo] at hleft

/-- The last reference is given up: what the object holds is to be released. -/
theorem openLast (h : Releasing H₀ H released opened dead (o ::ₘ pending)) (hdead : o ∉ dead)
    (hsome : (H.content o).isSome) (h1 : H.refc o = 1) :
    Releasing H₀ (H.setRefc (H.refc o - 1) o) released (insert o opened) dead
      ((H₀.children o : Multiset Ptr) + pending) := by
  have hnew : o ∉ opened := h.notMem_opened hdead (by omega)
  have hheld : released + held (insert o opened) H₀.children =
      (H₀.children o : Multiset Ptr) + (released + held opened H₀.children) := by
    rw [held_insert hnew]
    exact add_left_comm _ _ _
  have hself := AstHeap.refc_setRefc_self (H.refc o - 1) hsome
  have hother : ∀ p, p ≠ o → (H.setRefc (H.refc o - 1) o).refc p = H.refc p := fun p hp =>
    AstHeap.refc_setRefc_of_ne _ hp
  have hcount : ∀ p, p ≠ o → (o ::ₘ pending).count p = pending.count p := fun p hp =>
    Multiset.count_cons_of_ne hp pending
  have hcount_self := Multiset.count_cons_self o pending
  have hrefc_o := h.refc o hdead
  have hcovered_o := Multiset.count_le_of_le o h.covered
  have hdies : H₀.Dies released o := by
    refine .intro o opened h.dies ?_ ?_
    · omega
    · omega
  constructor
  · exact h.subset.trans (Finset.subset_insert o opened)
  · intro p
    rw [AstHeap.content_setRefc, h.content]
  · rw [AstHeap.next_setRefc, h.next]
  · rw [hheld]
    exact add_le_add_right ((Multiset.le_cons_self pending o).trans h.covered) _
  · intro p hp
    have hrefc := h.refc p hp
    rw [hheld, Multiset.count_add _ (H₀.children o : Multiset Ptr),
      Multiset.count_add _ (H₀.children o : Multiset Ptr)]
    by_cases hpo : p = o
    · subst hpo
      rw [hself]
      push_cast
      omega
    · rw [hother p hpo]
      rw [hcount p hpo] at hrefc
      push_cast
      omega
  · intro p hp
    rcases Finset.mem_insert.1 hp with rfl | hp
    · exact hdies
    · exact h.dies p hp
  · intro p hp
    rw [hheld, Multiset.count_add _ (H₀.children o : Multiset Ptr),
      Multiset.count_add _ (H₀.children o : Multiset Ptr)]
    rcases Finset.mem_insert.1 hp with rfl | hp
    · push_cast
      omega
    · have hreached := h.reached p hp
      have hle := Multiset.count_le_count_cons p o pending
      push_cast
      omega
  · intro p hp hpos
    have hpo : p ≠ o := fun heq => hp (heq ▸ Finset.mem_insert_self o opened)
    have hleft := h.left p (fun hmem => hp (Finset.mem_insert_of_mem hmem)) hpos
    rw [hcount p hpo] at hleft
    rw [hheld, Multiset.count_add _ (H₀.children o : Multiset Ptr),
      Multiset.count_add _ (H₀.children o : Multiset Ptr)]
    push_cast
    omega

/-- What an opened object holds has been released, and the object is freed. -/
theorem free (h : Releasing H₀ H released opened dead pending) (ho : o ∈ opened) :
    Releasing H₀ (H.free o) released opened (insert o dead) pending where
  subset := Finset.insert_subset ho h.subset
  content p := by
    by_cases hpo : p = o
    · subst hpo
      rw [AstHeap.content_free_self, if_pos (Finset.mem_insert_self p dead)]
    · rw [AstHeap.content_free_of_ne hpo, h.content]
      simp [hpo]
  next := by rw [AstHeap.next_free, h.next]
  covered := h.covered
  refc p hp := by
    have hpo : p ≠ o := fun heq => hp (heq ▸ Finset.mem_insert_self o dead)
    rw [AstHeap.refc_free_of_ne hpo]
    exact h.refc p fun hdead => hp (Finset.mem_insert_of_mem hdead)
  dies := h.dies
  reached := h.reached
  left := h.left

end Releasing

theorem Exact.open {H₀ : AstHeap} {released pending : Multiset Ptr} {opened : Finset Ptr} {o : Ptr}
    (h : Exact H₀ released opened pending) (ho : o ∉ opened) :
    Exact H₀ released (insert o opened) ((H₀.children o : Multiset Ptr) + pending) := by
  intro p hlt
  have hp := h p
  have hheld : released + held (insert o opened) H₀.children =
      (H₀.children o : Multiset Ptr) + (released + held opened H₀.children) := by
    rw [held_insert ho]
    exact add_left_comm _ _ _
  rw [hheld, Multiset.count_add _ (H₀.children o : Multiset Ptr),
    Multiset.count_add _ (H₀.children o : Multiset Ptr)] at hlt ⊢
  push_cast
  omega

section Release

variable {ndebug : Bool} {H₀ : AstHeap} {released : Multiset Ptr}

theorem freed_trans {opened opened₁ opened₂ dead : Finset Ptr} (h : opened ⊆ opened₁)
    (h' : opened₁ ⊆ opened₂) :
    dead ∪ opened₁ \ opened ∪ opened₂ \ opened₁ = dead ∪ opened₂ \ opened := by
  ext p
  have hp := @h p
  have hp' := @h' p
  simp only [Finset.mem_union, Finset.mem_sdiff]
  tauto

/-- The loop over the pointers of a swept object releases one reference each. -/
theorem sweepRefs_spec {release : AstHeap → Ptr → Except Fault AstHeap} {bound : ℕ}
    (hrelease : ∀ H opened dead pending o, Releasing H₀ H released opened dead (o ::ₘ pending) →
      (H₀.universe \ opened).card < bound →
      Released ndebug H₀ released opened dead (o ::ₘ pending) pending
        (∀ q ∈ opened, q ∉ dead → Relation.TransGen H₀.Refers q o) (release H o))
    (refs : List (Option Ptr)) (hnull : none ∈ refs → Wrong H₀ released .null) {H : AstHeap}
    {opened dead : Finset Ptr} {pending : Multiset Ptr}
    (h : Releasing H₀ H released opened dead ((refs.reduceOption : Multiset Ptr) + pending))
    (hcard : (H₀.universe \ opened).card < bound) :
    Released ndebug H₀ released opened dead ((refs.reduceOption : Multiset Ptr) + pending) pending
        (∀ q ∈ opened, q ∉ dead → ∀ o ∈ refs.reduceOption, Relation.TransGen H₀.Refers q o)
        (sweepRefs release H refs) ∧
      ∀ H', sweepRefs release H refs = .ok H' → none ∉ refs := by
  induction refs generalizing H opened dead with
  | nil =>
    refine ⟨⟨opened, subset_rfl, ?_, fun p hp hp' => absurd hp hp', fun _ _ hexact => ?_⟩, by simp⟩
    · simpa using h
    · simpa using hexact
  | cons ref refs ih =>
    cases ref with
    | none => exact ⟨hnull List.mem_cons_self, fun _ hok => by cases hok⟩
    | some o =>
      have hcons : (((some o :: refs).reduceOption : List Ptr) : Multiset Ptr) + pending =
          o ::ₘ ((refs.reduceOption : Multiset Ptr) + pending) := by
        rw [List.reduceOption_cons_of_some, ← Multiset.cons_coe, Multiset.cons_add]
      rw [hcons] at h ⊢
      have hfirst := hrelease H opened dead _ o h hcard
      have hstep : sweepRefs release H (some o :: refs) =
          (release H o).bind fun H => sweepRefs release H refs := rfl
      rw [hstep]
      cases hrun : release H o with
      | error f =>
        rw [hrun] at hfirst
        exact ⟨hfirst, fun _ hok => by cases hok⟩
      | ok H₁ =>
        rw [hrun] at hfirst
        obtain ⟨opened₁, hsub₁, hreleasing₁, hnone₁, hexact₁⟩ := hfirst
        have hcard₁ : (H₀.universe \ opened₁).card < bound :=
          (Finset.card_le_card (Finset.sdiff_subset_sdiff subset_rfl hsub₁)).trans_lt hcard
        obtain ⟨hrest, hnone⟩ :=
          ih (fun hmem => hnull (List.mem_cons_of_mem _ hmem)) hreleasing₁ hcard₁
        constructor
        · show Released ndebug H₀ released opened dead _ pending _ (sweepRefs release H₁ refs)
          cases hloop : sweepRefs release H₁ refs with
          | error f =>
            rw [hloop] at hrest
            exact hrest
          | ok H₂ =>
            rw [hloop] at hrest
            obtain ⟨opened₂, hsub₂, hreleasing₂, hnone₂, hexact₂⟩ := hrest
            rw [freed_trans hsub₁ hsub₂] at hreleasing₂
            refine ⟨opened₂, hsub₁.trans hsub₂, hreleasing₂, ?_, ?_⟩
            · intro p hp hp'
              by_cases hmid : p ∈ opened₁
              · exact hnone₁ p hmid hp'
              · exact hnone₂ p hp hmid
            · intro hpath hnoticed hexact
              apply hexact₂ _ hnoticed
              · apply hexact₁ _ hnoticed hexact
                exact fun q hq hq' => hpath q hq hq' o (by simp [List.reduceOption_cons_of_some])
              · intro q hq hq' x hx
                have hold : q ∈ opened ∧ q ∉ dead := by
                  simp only [Finset.mem_union, Finset.mem_sdiff, not_or, not_and, not_not] at hq'
                  exact ⟨hq'.2 hq, hq'.1⟩
                exact hpath q hold.1 hold.2 x (by simp [List.reduceOption_cons_of_some, hx])
        · intro H' hok
          simp [hnone H' hok]

theorem mozRcReleaseFuel_succ (ndebug : Bool) (fuel : ℕ) {H : AstHeap} {o : Ptr}
    (hheld : (H.content o).isSome) (hassert : ndebug = true ∨ 0 < H.refc o) :
    mozRcReleaseFuel ndebug (fuel + 1) H o =
      if (H.setRefc (H.refc o - 1) o).refc o = 0 then
        (sweepRefs (mozRcReleaseFuel ndebug fuel) (H.setRefc (H.refc o - 1) o)
          ((H.setRefc (H.refc o - 1) o).refs o)).map (·.free o)
      else .ok (H.setRefc (H.refc o - 1) o) := by
  have hnone : ¬(H.content o).isNone := by simp [Option.isSome_iff_ne_none.1 hheld]
  have hcheck : ¬(!ndebug && decide (H.refc o ≤ 0)) := by
    rcases hassert with rfl | hpos
    · simp
    · simp [hpos]
  rw [mozRcReleaseFuel, if_neg hnone, if_neg hcheck]
  dsimp only
  split_ifs
  · cases sweepRefs (mozRcReleaseFuel ndebug fuel) (H.setRefc (H.refc o - 1) o)
      ((H.setRefc (H.refc o - 1) o).refs o) <;> rfl
  · rfl

/-- An object that is released is counted, where that is noticed. -/
theorem Noticed.refc_pos (hnoticed : Noticed ndebug H₀ released) {H : AstHeap}
    {opened dead : Finset Ptr} {pending : Multiset Ptr} {o : Ptr}
    (h : Releasing H₀ H released opened dead (o ::ₘ pending)) (hdead : o ∉ dead)
    (hsome : (H.content o).isSome) (hassert : ndebug = true ∨ 0 < H.refc o)
    (hpath : ∀ q ∈ opened, q ∉ dead → Relation.TransGen H₀.Refers q o) : 0 < H.refc o := by
  rcases hassert with hndebug | hpos
  · obtain ⟨hcounts, hcycle⟩ := hnoticed hndebug
    rw [h.content, if_neg hdead] at hsome
    apply h.refc_pos _ (hcounts o hsome)
    exact fun ho => hcycle o (h.dies o ho) (hpath o ho hdead)
  · exact hpos

theorem Exact.drop {H : AstHeap} {opened dead : Finset Ptr} {pending : Multiset Ptr} {o : Ptr}
    (hexact : Exact H₀ released opened (o ::ₘ pending))
    (h : Releasing H₀ H released opened dead (o ::ₘ pending)) (hdead : o ∉ dead)
    (hpos : 0 < H.refc o) : Exact H₀ released opened pending := by
  intro p hlt
  have hp := hexact p
  by_cases hpo : p = o
  · subst hpo
    have hrefc := h.refc p hdead
    rw [Multiset.count_cons_self] at hrefc
    push_cast at hrefc
    omega
  · rw [Multiset.count_cons_of_ne hpo] at hp
    exact hp hlt

/-- The last reference is gone: what the object holds is released on its behalf. -/
theorem released_last (hH : H₀.Bounded) {fuel : ℕ}
    (ih : ∀ (H : AstHeap) (opened dead : Finset Ptr) (pending : Multiset Ptr) (o : Ptr),
      Releasing H₀ H released opened dead (o ::ₘ pending) → (H₀.universe \ opened).card < fuel →
      Released ndebug H₀ released opened dead (o ::ₘ pending) pending
        (∀ q ∈ opened, q ∉ dead → Relation.TransGen H₀.Refers q o)
        (mozRcReleaseFuel ndebug fuel H o))
    {H : AstHeap} {opened dead : Finset Ptr} {pending : Multiset Ptr} {o : Ptr}
    (h : Releasing H₀ H released opened dead (o ::ₘ pending)) (hdead : o ∉ dead)
    (hsome : (H.content o).isSome) (h1 : H.refc o = 1)
    (hcard : (H₀.universe \ opened).card < fuel + 1) :
    Released ndebug H₀ released opened dead (o ::ₘ pending) pending
      (∀ q ∈ opened, q ∉ dead → Relation.TransGen H₀.Refers q o)
      ((sweepRefs (mozRcReleaseFuel ndebug fuel) (H.setRefc (H.refc o - 1) o) (H₀.refs o)).map
        (·.free o)) := by
  have hpos : 0 < H.refc o := by omega
  have hnew : o ∉ opened := h.notMem_opened hdead hpos
  have hopen := h.openLast hdead hsome h1
  have hcard' : (H₀.universe \ insert o opened).card < fuel := by
    have ho : o ∈ H₀.universe \ opened := by
      rw [h.content, if_neg hdead] at hsome
      exact Finset.mem_sdiff.2 ⟨hH.mem_universe hsome, hnew⟩
    have hless := Finset.card_erase_lt_of_mem ho
    rw [Finset.sdiff_insert]
    omega
  have hnull : none ∈ H₀.refs o → Wrong H₀ released .null := fun hmem =>
    .inl ⟨rfl, o, hopen.dies o (Finset.mem_insert_self o opened), hmem⟩
  obtain ⟨hrun, hnone⟩ := sweepRefs_spec ih (H₀.refs o) hnull hopen hcard'
  cases hsweep : sweepRefs (mozRcReleaseFuel ndebug fuel) (H.setRefc (H.refc o - 1) o)
      (H₀.refs o) with
  | error f =>
    rw [hsweep] at hrun
    exact hrun
  | ok H₂ =>
    rw [hsweep] at hrun
    obtain ⟨opened₂, hsub, hreleasing, hnone₂, hexact₂⟩ := hrun
    obtain ⟨ho₂, hsub₂⟩ := Finset.insert_subset_iff.1 hsub
    have hfreed : insert o (dead ∪ opened₂ \ insert o opened) = dead ∪ opened₂ \ opened := by
      ext p
      simp only [Finset.mem_insert, Finset.mem_union, Finset.mem_sdiff]
      by_cases hpo : p = o
      · subst hpo
        simp [ho₂, hnew]
      · simp [hpo]
    have hfree := hreleasing.free ho₂
    rw [hfreed] at hfree
    refine ⟨opened₂, hsub₂, hfree, ?_, ?_⟩
    · intro p hp hp'
      by_cases hpo : p = o
      · exact hpo ▸ hnone H₂ hsweep
      · exact hnone₂ p hp (by simp [hpo, hp'])
    · intro hpath hnoticed hexact
      apply hexact₂ _ hnoticed
      · exact (hexact.drop h hdead hpos).open hnew
      · intro q hq hq' x hx
        rcases Finset.mem_insert.1 hq with rfl | hq
        · exact .single hx
        · exact (hpath q hq hq').tail hx

/-- Fuel above the number of objects that can still be opened is enough for a release. -/
theorem mozRcReleaseFuel_spec (hH : H₀.Bounded) (fuel : ℕ) : ∀ (H : AstHeap)
    (opened dead : Finset Ptr) (pending : Multiset Ptr) (o : Ptr),
    Releasing H₀ H released opened dead (o ::ₘ pending) → (H₀.universe \ opened).card < fuel →
    Released ndebug H₀ released opened dead (o ::ₘ pending) pending
      (∀ q ∈ opened, q ∉ dead → Relation.TransGen H₀.Refers q o)
      (mozRcReleaseFuel ndebug fuel H o) := by
  induction fuel with
  | zero =>
    intro H opened dead pending o _ hcard
    exact absurd hcard (Nat.not_lt_zero _)
  | succ fuel ih =>
    intro H opened dead pending o h hcard
    by_cases hsome : (H.content o).isSome
    swap
    · -- the object is not there
      have hswept : mozRcReleaseFuel ndebug (fuel + 1) H o = .error .swept := by
        rw [mozRcReleaseFuel, if_pos (by simpa using hsome)]
      rw [hswept]
      by_contra hw
      exact hsome (h.content_isSome hw)
    have hdead : o ∉ dead := by
      intro hmem
      rw [h.content, if_pos hmem] at hsome
      cases hsome
    by_cases hassert : ndebug = true ∨ 0 < H.refc o
    swap
    · -- it has no count
      rw [not_or, not_lt, Bool.not_eq_true] at hassert
      have hfails : mozRcReleaseFuel ndebug (fuel + 1) H o = .error .assertion := by
        rw [mozRcReleaseFuel, if_neg (by simp [Option.isSome_iff_ne_none.1 hsome]),
          if_pos (by simp [hassert.1, hassert.2])]
      rw [hfails]
      have hrefc := h.refc o hdead
      exact h.wrong (by omega)
    rw [mozRcReleaseFuel_succ ndebug fuel hsome hassert,
      AstHeap.refc_setRefc_self (H.refc o - 1) hsome]
    split_ifs with h0
    · have hrefs : (H.setRefc (H.refc o - 1) o).refs o = H₀.refs o :=
        AstHeap.refs_congr ((AstHeap.content_setRefc _ o o).trans (by rw [h.content, if_neg hdead]))
      rw [hrefs]
      exact released_last hH ih h hdead hsome (by omega) hcard
    · -- other references are left
      refine ⟨opened, subset_rfl, ?_, fun p hp hp' => absurd hp hp', ?_⟩
      · simpa using h.drop hdead hsome h0
      · intro hpath hnoticed hexact
        exact hexact.drop h hdead (hnoticed.refc_pos h hdead hsome hassert hpath)

/-- A release between the turns of a loop: what has been opened is freed. -/
theorem mozRcRelease_spec (hH : H₀.Bounded) {H : AstHeap} {opened : Finset Ptr} {o : Ptr}
    (h : Releasing H₀ H released opened opened (o ::ₘ 0)) :
    match mozRcRelease ndebug H o with
    | .ok H' => ∃ opened', Releasing H₀ H' released opened' opened' 0 ∧ opened ⊆ opened' ∧
        (∀ p ∈ opened', p ∉ opened → none ∉ H₀.refs p) ∧
        (Noticed ndebug H₀ released → Exact H₀ released opened (o ::ₘ 0) →
          Exact H₀ released opened' 0)
    | .error f => Wrong H₀ released f := by
  have hcard : (H₀.universe \ opened).card < 2 * H.next + 1 := by
    have hle := (Finset.card_le_card (Finset.sdiff_subset (s := H₀.universe) (t := opened))).trans
      H₀.card_universe
    rw [h.next]
    omega
  have hrun := @mozRcReleaseFuel_spec ndebug _ _ hH _ H opened opened 0 o h hcard
  rw [mozRcRelease]
  cases hres : mozRcReleaseFuel ndebug (2 * H.next + 1) H o with
  | error f =>
    rw [hres] at hrun
    exact hrun
  | ok H' =>
    rw [hres] at hrun
    obtain ⟨opened', hsub, hreleasing, hnone, hexact⟩ := hrun
    rw [Finset.union_sdiff_of_subset hsub] at hreleasing
    exact ⟨opened', hreleasing, hsub, hnone, hexact fun q hq hq' => absurd hq hq'⟩

end Release

end Moz.Compiler
