import Mathlib.Data.Fintype.EquivFin
import Mathlib.Logic.Relation
import Moz.Lib.Linked

/-!
# The node pool

`alloc_page`, `node_alloc` and `node_free` on a memory of pages. A page is an array of
nodes whose first one is the page header. `calloc` gives an address that is not in use;
reading or writing what is not allocated is `none`, and so is a failed `assert`. The free
list is threaded through the tags of dead nodes; the rest of the program writes what it
likes to a node that it holds.
-/

namespace Moz

/-- `MOZVM_NODE_ARENA_SIZE` -/
def nodeArenaSize : ℕ := 8

/-- `sizeof(Node)`, with pointers of eight bytes. -/
def sizeofNode : ℕ := 64

def pageObjectSize : ℕ := nodeArenaSize * 4096 / sizeofNode - 1

/-- A `Node *`: a page and a slot of it. -/
structure NodePtr where
  page : ℕ
  slot : ℕ
  deriving DecidableEq, Repr

/-- The first word of a slot: the reference count, or the next page. -/
inductive FirstWord
  | refc (n : ℤ)
  | next (page : Option ℕ)
  deriving DecidableEq, Repr

/-- The tag of a slot: the text of a tag, or the next dead node. -/
inductive TagWord
  | text (address : ℕ)
  | link (o : Option NodePtr)
  deriving DecidableEq, Repr

/-- What the pool uses of a slot, as `calloc` leaves it. -/
structure Slot where
  word0 : FirstWord := .refc 0
  tag : TagWord := .link none
  deriving DecidableEq, Repr

/-- The memory and the static variables. The counter does not overflow: a node takes more than one
byte. -/
structure Pool where
  mem : NodePtr → Option Slot := fun _ => none
  currentPage : Option ℕ := none
  freeList : Option NodePtr := none
  freeObjectCount : ℤ := 0

namespace Pool

def store (pool : Pool) (o : NodePtr) (slot : Slot) : Option Pool := do
  let _ ← pool.mem o
  return { pool with mem := Function.update pool.mem o (some slot) }

/-- `o->tag = tag` -/
def setTag (pool : Pool) (o : NodePtr) (tag : TagWord) : Option Pool := do
  let slot ← pool.mem o
  pool.store o { slot with tag := tag }

/-- `calloc` of a page at an address. -/
def calloc (pool : Pool) (page : ℕ) : Pool :=
  { pool with
    mem := fun o =>
      if o.page = page then if o.slot ≤ pageObjectSize then some {} else none else pool.mem o }

/-- The body of the loop of `alloc_page`. -/
def linkNode (page : ℕ) (pool : Pool) (cur : ℕ) : Option Pool :=
  pool.setTag ⟨page, cur⟩ (.link (some ⟨page, cur + 1⟩))

/-- `alloc_page`, where `calloc` gives `page`. -/
def allocPage (page : ℕ) (pool : Pool) : Option Pool := do
  let pool := pool.calloc page
  let pool ← pool.store ⟨page, 0⟩ { word0 := .next pool.currentPage }
  let pool := { pool with currentPage := some page }
  if pool.freeObjectCount ≠ 0 then none
  else
    let pool ← (List.range' 1 (pageObjectSize - 1)).foldlM (linkNode page) pool
    let pool := { pool with freeObjectCount := pool.freeObjectCount + pageObjectSize }
    let pool ← pool.setTag ⟨page, pageObjectSize⟩ (.link pool.freeList)
    return { pool with freeList := some ⟨page, 1⟩ }

/-- `node_alloc` once the free list is not empty. -/
def takeNode (pool : Pool) : Option (Pool × NodePtr) := do
  let o ← pool.freeList
  let slot ← pool.mem o
  match slot.tag with
  | .link next =>
    return ({ pool with freeList := next, freeObjectCount := pool.freeObjectCount - 1 }, o)
  | .text _ => none

/-- `node_alloc`, where `calloc` would give `page`. -/
def nodeAlloc (page : ℕ) (pool : Pool) : Option (Pool × NodePtr) :=
  if pool.freeList = none then do
    let pool ← pool.allocPage page
    pool.takeNode
  else pool.takeNode

def nodeFree (o : NodePtr) (pool : Pool) : Option Pool := do
  let slot ← pool.mem o
  if slot.word0 ≠ .refc 0 then none
  else
    let pool ← pool.store o { word0 := .refc (-1), tag := .link pool.freeList }
    return { pool with freeList := some o, freeObjectCount := pool.freeObjectCount + 1 }

/-- The loop of `NodeManager_dispose`, for a number of rounds. -/
def freePages : ℕ → Pool → Option Pool
  | 0, _ => none
  | rounds + 1, pool =>
    match pool.currentPage with
    | none => some pool
    | some page => do
      let header ← pool.mem ⟨page, 0⟩
      match header.word0 with
      | .next next =>
        freePages rounds { pool with
          mem := fun o => if o.page = page then none else pool.mem o
          currentPage := next }
      | .refc _ => none

/-- `NodeManager_dispose` -/
def dispose (rounds : ℕ) (pool : Pool) : Option Pool := do
  let pool ← freePages rounds pool
  return { pool with freeList := none, freeObjectCount := 0, currentPage := none }

/-- `NodeManager_reset` -/
def reset (rounds page : ℕ) (pool : Pool) : Option Pool := do
  let pool ← dispose rounds pool
  allocPage page pool

def Fresh (pool : Pool) (page : ℕ) : Prop := ∀ slot, pool.mem ⟨page, slot⟩ = none

def header (pool : Pool) (page : ℕ) : Option (Option ℕ) :=
  match pool.mem ⟨page, 0⟩ with
  | some ⟨.next next, _⟩ => some next
  | _ => none

def link (pool : Pool) (o : NodePtr) : Option (Option NodePtr) :=
  match pool.mem o with
  | some ⟨_, .link next⟩ => some next
  | _ => none

/-- The nodes of a page without its header, in the order of the free list. -/
def nodesOf (page : ℕ) : List NodePtr := (List.range' 1 pageObjectSize).map (NodePtr.mk page)

/-- The pages, the free list and the allocated nodes of the pool. -/
structure Shaped (pool : Pool) (pages : List ℕ) (free : List NodePtr) (allocated : Finset NodePtr) :
    Prop where
  headers : Linked pool.header pool.currentPage pages
  pages_nodup : pages.Nodup
  slots : ∀ o, (pool.mem o).isSome ↔ o.page ∈ pages ∧ o.slot ≤ pageObjectSize
  links : Linked pool.link pool.freeList free
  free_nodup : free.Nodup
  count : pool.freeObjectCount = free.length
  disjoint : ∀ o ∈ free, o ∉ allocated
  nodes : ∀ o, o ∈ free ∨ o ∈ allocated ↔ o.page ∈ pages ∧ 0 < o.slot ∧ o.slot ≤ pageObjectSize

variable {pool pool' : Pool} {page : ℕ} {pages : List ℕ} {free : List NodePtr}
  {allocated : Finset NodePtr} {o : NodePtr} {slot : Slot}

theorem pageObjectSize_pos : 0 < pageObjectSize := by decide

theorem store_eq (h : (pool.mem o).isSome) (slot : Slot) :
    pool.store o slot = some { pool with mem := Function.update pool.mem o (some slot) } := by
  obtain ⟨old, hold⟩ := Option.isSome_iff_exists.1 h
  rw [store, hold]
  rfl

theorem exists_store (h : (pool.mem o).isSome) (slot : Slot) :
    ∃ pool', pool.store o slot = some pool' ∧ pool'.mem o = some slot :=
  ⟨_, store_eq h slot, Function.update_self _ _ _⟩

theorem setTag_eq (h : pool.mem o = some slot) (tag : TagWord) :
    pool.setTag o tag =
      some { pool with mem := Function.update pool.mem o (some { slot with tag := tag }) } := by
  have hsome : (pool.mem o).isSome := by
    rw [h]
    rfl
  rw [setTag, h]
  exact store_eq hsome _

theorem mem_nodesOf : o ∈ nodesOf page ↔ o.page = page ∧ 0 < o.slot ∧ o.slot ≤ pageObjectSize := by
  rw [nodesOf, List.mem_map]
  constructor
  · rintro ⟨i, hi, rfl⟩
    rw [List.mem_range'_1] at hi
    dsimp only
    omega
  · rintro ⟨hpage, hpos, hle⟩
    refine ⟨o.slot, List.mem_range'_1.2 (by omega), ?_⟩
    rw [← hpage]

theorem nodup_nodesOf : (nodesOf page).Nodup := by
  apply List.Nodup.map _ List.nodup_range'
  intro i j h
  exact congrArg NodePtr.slot h

theorem length_nodesOf : (nodesOf page).length = pageObjectSize := by
  rw [nodesOf, List.length_map, List.length_range']

/-- The loop of `alloc_page` links each slot to the one behind it. -/
theorem linkNodes_eq (s n : ℕ) (hmem : ∀ i, s ≤ i → i < s + n → pool.mem ⟨page, i⟩ = some {}) :
    (List.range' s n).foldlM (linkNode page) pool = some { pool with
      mem := fun o =>
        if o.page = page ∧ s ≤ o.slot ∧ o.slot < s + n then
          some { tag := .link (some ⟨page, o.slot + 1⟩) }
        else pool.mem o } := by
  induction n generalizing s pool with
  | zero =>
    have hnone : ∀ o : NodePtr, ¬ (o.page = page ∧ s ≤ o.slot ∧ o.slot < s + 0) := by
      intro o
      omega
    simp only [hnone, if_false]
    rfl
  | succ n ih =>
    have hfirst := setTag_eq (hmem s (Nat.le_refl s) (by omega)) (.link (some ⟨page, s + 1⟩))
    have hrest : ∀ i, s + 1 ≤ i → i < s + 1 + n → Function.update pool.mem ⟨page, s⟩
        (some { tag := .link (some ⟨page, s + 1⟩) }) ⟨page, i⟩ = some {} := by
      intro i hle hlt
      rw [Function.update_of_ne (fun h => by cases h; omega)]
      exact hmem i (by omega) (by omega)
    rw [List.range'_succ, List.foldlM_cons, linkNode, hfirst]
    refine (ih (s + 1) hrest).trans ?_
    congr 2
    funext o
    obtain ⟨page', i⟩ := o
    dsimp only
    by_cases hpage : page' = page
    · subst hpage
      rcases Nat.lt_trichotomy i s with hlt | rfl | hgt
      · rw [if_neg (by omega), if_neg (by omega), Function.update_of_ne (fun h => by cases h; omega)]
      · rw [if_neg (by omega), if_pos (by omega), Function.update_self]
      · rw [Function.update_of_ne (fun h => by cases h; omega)]
        split_ifs <;> first | rfl | omega
    · rw [if_neg (fun h => hpage h.1), if_neg (fun h => hpage h.1),
        Function.update_of_ne (fun h => hpage (congrArg NodePtr.page h))]

def withPage (pool : Pool) (page : ℕ) (o : NodePtr) : Option Slot :=
  if o.page = page then
    if o.slot = 0 then some { word0 := .next pool.currentPage }
    else if o.slot < pageObjectSize then some { tag := .link (some ⟨page, o.slot + 1⟩) }
    else if o.slot = pageObjectSize then some { tag := .link pool.freeList }
    else none
  else pool.mem o

theorem calloc_mem {i : ℕ} (hi : i ≤ pageObjectSize) : (pool.calloc page).mem ⟨page, i⟩ = some {} := by
  simp [calloc, hi]

def headed (pool : Pool) (page : ℕ) : Pool :=
  { pool with
    mem := Function.update (pool.calloc page).mem ⟨page, 0⟩ (some { word0 := .next pool.currentPage })
    currentPage := some page }

theorem headed_mem (o : NodePtr) : (pool.headed page).mem o =
    if o.page = page then
      if o.slot = 0 then some { word0 := .next pool.currentPage }
      else if o.slot ≤ pageObjectSize then some {}
      else none
    else pool.mem o := by
  obtain ⟨page', i⟩ := o
  have heq : (⟨page', i⟩ : NodePtr) = ⟨page, 0⟩ ↔ page' = page ∧ i = 0 := by
    rw [NodePtr.mk.injEq]
  simp only [headed, Function.update_apply, heq, calloc]
  split_ifs <;> first | rfl | omega

theorem headed_node {i : ℕ} (hpos : 0 < i) (hi : i ≤ pageObjectSize) :
    (pool.headed page).mem ⟨page, i⟩ = some {} := by
  rw [headed_mem, if_pos rfl, if_neg (by dsimp only; omega), if_pos hi]

/-- What the loop leaves, with the link of the last node. -/
theorem update_last (pool : Pool) (page : ℕ) : Function.update (fun o : NodePtr =>
      if o.page = page ∧ 1 ≤ o.slot ∧ o.slot < 1 + (pageObjectSize - 1) then
        some { tag := .link (some ⟨page, o.slot + 1⟩) }
      else (pool.headed page).mem o) ⟨page, pageObjectSize⟩ (some { tag := .link pool.freeList }) =
    pool.withPage page := by
  have hpos := pageObjectSize_pos
  funext o
  obtain ⟨page', i⟩ := o
  have heq : (⟨page', i⟩ : NodePtr) = ⟨page, pageObjectSize⟩ ↔ page' = page ∧ i = pageObjectSize := by
    rw [NodePtr.mk.injEq]
  simp only [Function.update_apply, heq, headed_mem, withPage]
  split_ifs <;> first | rfl | omega

theorem allocPage_eq (page : ℕ) (h : pool.freeObjectCount = 0) :
    pool.allocPage page = some ⟨pool.withPage page, some page, some ⟨page, 1⟩, pageObjectSize⟩ := by
  have hpos := pageObjectSize_pos
  have hheader : ((pool.calloc page).mem ⟨page, 0⟩).isSome := by
    rw [calloc_mem (Nat.zero_le _)]
    rfl
  have hloop : (List.range' 1 (pageObjectSize - 1)).foldlM (linkNode page) (pool.headed page) = _ :=
    linkNodes_eq 1 (pageObjectSize - 1) fun i hle hlt => headed_node (by omega) (by omega)
  have hcount : ¬ (pool.calloc page).freeObjectCount ≠ 0 := not_not.2 h
  have hlast : ¬ (page = page ∧ 1 ≤ pageObjectSize ∧ pageObjectSize < 1 + (pageObjectSize - 1)) := by
    omega
  rw [allocPage, store_eq hheader]
  simp only [Option.bind_eq_bind, Option.bind_some]
  rw [if_neg hcount]
  refine (congrArg (Option.bind · _) hloop).trans ?_
  rw [Option.bind_some, setTag_eq ((if_neg hlast).trans (headed_node hpos (Nat.le_refl _))),
    Option.bind_some]
  simp only [headed, calloc, h, Int.zero_add]
  rw [← update_last]
  rfl

theorem header_congr (pool' : Pool) (h : pool'.mem ⟨page, 0⟩ = pool.mem ⟨page, 0⟩) :
    pool'.header page = pool.header page := by
  rw [header, header, h]

theorem link_congr (pool' : Pool) (h : pool'.mem o = pool.mem o) : pool'.link o = pool.link o := by
  rw [link, link, h]

theorem shaped_init : Shaped {} [] [] ∅ where
  headers := .nil
  pages_nodup := .nil
  slots o := by simp
  links := .nil
  free_nodup := .nil
  count := rfl
  disjoint o h := by cases h
  nodes o := by simp

theorem Fresh.notMem (h : pool.Fresh page) (hs : Shaped pool pages free allocated) : page ∉ pages := by
  intro hmem
  have hsome := (hs.slots ⟨page, 0⟩).2 ⟨hmem, Nat.zero_le _⟩
  rw [h 0] at hsome
  cases hsome

theorem linked_nodesOf {currentPage : Option ℕ} {count : ℤ} (h : pool.freeList = none) :
    Linked (link ⟨pool.withPage page, currentPage, some ⟨page, 1⟩, count⟩) (some ⟨page, 1⟩)
      (nodesOf page) := by
  have hpos := pageObjectSize_pos
  have hsplit : nodesOf page = (List.range' 1 (pageObjectSize - 1)).map (NodePtr.mk page) ++
      [⟨page, pageObjectSize⟩] := by
    obtain ⟨n, hn⟩ := Nat.exists_eq_succ_of_ne_zero hpos.ne'
    rw [nodesOf, hn, List.range'_concat, List.map_append, Nat.succ_sub_one]
    simp [Nat.add_comm]
  have hend : 1 + (pageObjectSize - 1) = pageObjectSize := by omega
  rw [hsplit]
  apply Linked.range (NodePtr.mk page) 1 (pageObjectSize - 1)
  · intro i hle hlt
    simp only [link, withPage, if_true]
    rw [if_neg (by omega), if_pos (by omega)]
  · rw [hend]
    apply Linked.cons _ Linked.nil
    simp only [link, withPage, if_true, lt_irrefl, if_false]
    rw [if_neg (by omega), h]

theorem Shaped.fresh (h : Shaped pool pages free allocated) (hpage : page ∉ pages) :
    pool.Fresh page := by
  intro slot
  rw [← Option.not_isSome_iff_eq_none, h.slots]
  exact fun hmem => hpage hmem.1

/-- `alloc_page` puts the nodes of the new page on the free list. -/
theorem Shaped.allocPage (h : Shaped pool pages [] allocated) (hfresh : pool.Fresh page) :
    ∃ pool', pool.allocPage page = some pool' ∧
      Shaped pool' (page :: pages) (nodesOf page) allocated := by
  have hpos := pageObjectSize_pos
  have hnew := hfresh.notMem h
  refine ⟨_, allocPage_eq page h.count, ?_⟩
  have hold : ∀ p ∈ pages, ∀ i, pool.withPage page ⟨p, i⟩ = pool.mem ⟨p, i⟩ := by
    intro p hp i
    exact if_neg (ne_of_mem_of_not_mem hp hnew)
  constructor
  · apply Linked.cons (b := pool.currentPage)
    · simp [header, withPage]
    · exact h.headers.congr fun p hp => header_congr _ (hold p hp 0)
  · exact List.nodup_cons.2 ⟨hnew, h.pages_nodup⟩
  · intro o
    simp only [withPage, List.mem_cons]
    by_cases hpage : o.page = page
    · rw [if_pos hpage]
      split_ifs <;> simp [hpage] <;> omega
    · rw [if_neg hpage, h.slots o]
      simp [hpage]
  · exact linked_nodesOf (h.links.eq_none)
  · exact nodup_nodesOf
  · rw [length_nodesOf]
  · intro o ho hmem
    have hpages := ((h.nodes o).1 (.inr hmem)).1
    exact hnew ((mem_nodesOf.1 ho).1 ▸ hpages)
  · intro o
    have hnodes := h.nodes o
    rw [List.mem_cons, mem_nodesOf]
    simp only [List.not_mem_nil, false_or] at hnodes
    rw [hnodes]
    tauto

/-- `node_alloc` takes the first node of the free list. -/
theorem Shaped.takeNode (h : Shaped pool pages (o :: free) allocated) :
    ∃ pool', pool.takeNode = some (pool', o) ∧ Shaped pool' pages free (insert o allocated) := by
  obtain ⟨hnotMem, hnodup⟩ := List.nodup_cons.1 h.free_nodup
  obtain ⟨next, hfirst, hnext, htail⟩ := h.links.cons_inv
  obtain ⟨w, hslot⟩ : ∃ w, pool.mem o = some ⟨w, .link next⟩ := by
    unfold link at hnext
    split at hnext
    · rename_i w next' hmem
      cases hnext
      exact ⟨w, hmem⟩
    · cases hnext
  have hrun : pool.takeNode =
      some ({ pool with freeList := next, freeObjectCount := pool.freeObjectCount - 1 }, o) := by
    rw [Pool.takeNode, hfirst, Option.bind_eq_bind, Option.bind_some, hslot]
    rfl
  refine ⟨_, hrun, h.headers, h.pages_nodup, h.slots, htail, hnodup, ?_, ?_, ?_⟩
  · show pool.freeObjectCount - 1 = free.length
    rw [h.count, List.length_cons]
    omega
  · intro o' ho' hmem
    rcases Finset.mem_insert.1 hmem with rfl | hmem
    · exact hnotMem ho'
    · exact h.disjoint o' (List.mem_cons_of_mem o ho') hmem
  · intro o'
    rw [← h.nodes o', Finset.mem_insert, List.mem_cons]
    tauto

theorem Shaped.nodeAlloc_cons (h : Shaped pool pages (o :: free) allocated) (page : ℕ) :
    ∃ pool', pool.nodeAlloc page = some (pool', o) ∧ Shaped pool' pages free (insert o allocated) := by
  obtain ⟨pool', htake, h'⟩ := h.takeNode
  obtain ⟨-, hfirst, -, -⟩ := h.links.cons_inv
  have hne : pool.freeList ≠ none := by
    rw [hfirst]
    exact Option.some_ne_none o
  refine ⟨pool', ?_, h'⟩
  rw [Pool.nodeAlloc, if_neg hne]
  exact htake

theorem nodesOf_eq_cons (page : ℕ) : nodesOf page = ⟨page, 1⟩ :: (nodesOf page).tail := rfl

theorem Shaped.nodeAlloc_nil (h : Shaped pool pages [] allocated) (hfresh : pool.Fresh page) :
    ∃ pool', pool.nodeAlloc page = some (pool', ⟨page, 1⟩) ∧
      Shaped pool' (page :: pages) (nodesOf page).tail (insert ⟨page, 1⟩ allocated) := by
  obtain ⟨pool₁, hpage, h₁⟩ := h.allocPage hfresh
  rw [nodesOf_eq_cons] at h₁
  obtain ⟨pool', htake, h'⟩ := h₁.takeNode
  refine ⟨pool', ?_, h'⟩
  rw [Pool.nodeAlloc, if_pos h.links.eq_none, hpage]
  exact htake

/-- `node_alloc` gives a node that is not allocated. -/
theorem Shaped.nodeAlloc (h : Shaped pool pages free allocated) (hfresh : pool.Fresh page) :
    ∃ pool' o pages' free', pool.nodeAlloc page = some (pool', o) ∧ o ∉ allocated ∧ 0 < o.slot ∧
      Shaped pool' pages' free' (insert o allocated) := by
  cases free with
  | nil =>
    obtain ⟨pool', halloc, h'⟩ := h.nodeAlloc_nil hfresh
    have hnew : (⟨page, 1⟩ : NodePtr) ∉ allocated := by
      intro hmem
      exact hfresh.notMem h ((h.nodes _).1 (.inr hmem)).1
    exact ⟨pool', _, _, _, halloc, hnew, Nat.one_pos, h'⟩
  | cons o free =>
    obtain ⟨pool', halloc, h'⟩ := h.nodeAlloc_cons page
    exact ⟨pool', o, _, _, halloc, h.disjoint o List.mem_cons_self,
      ((h.nodes o).1 (.inl List.mem_cons_self)).2.1, h'⟩

/-- Writing an allocated node touches neither a header nor a link. -/
theorem Shaped.store (h : Shaped pool pages free allocated) (ho : o ∈ allocated)
    (hstore : pool.store o slot = some pool') : Shaped pool' pages free allocated := by
  obtain ⟨hpage, hpos, hle⟩ := (h.nodes o).1 (.inr ho)
  have hsome := (h.slots o).2 ⟨hpage, hle⟩
  rw [store_eq hsome] at hstore
  cases hstore
  have hother : ∀ {a : NodePtr}, a ≠ o → Function.update pool.mem o (some slot) a = pool.mem a :=
    fun hne => Function.update_of_ne hne _ _
  constructor
  · apply h.headers.congr
    intro p _
    exact header_congr _ (hother fun heq => by subst heq; exact Nat.lt_irrefl 0 hpos)
  · exact h.pages_nodup
  · intro a
    rw [← h.slots a]
    by_cases heq : a = o
    · subst heq
      exact iff_of_true (by simp) hsome
    · exact iff_of_eq (congrArg (Option.isSome · = true) (hother heq))
  · apply h.links.congr
    intro a ha
    exact link_congr _ (hother (ne_of_mem_of_not_mem ho (h.disjoint a ha)).symm)
  · exact h.free_nodup
  · exact h.count
  · exact h.disjoint
  · exact h.nodes

/-- `node_free` puts an allocated node on the free list. -/
theorem Shaped.nodeFree (h : Shaped pool pages free allocated) (ho : o ∈ allocated)
    (hfree : pool.nodeFree o = some pool') : Shaped pool' pages (o :: free) (allocated.erase o) := by
  obtain ⟨hpage, hpos, hle⟩ := (h.nodes o).1 (.inr ho)
  have hsome := (h.slots o).2 ⟨hpage, hle⟩
  have hnotMem : o ∉ free := fun hmem => h.disjoint o hmem ho
  rw [Pool.nodeFree, Option.bind_eq_bind, Option.bind_eq_some_iff] at hfree
  obtain ⟨slot, hslot, hrest⟩ := hfree
  split_ifs at hrest
  rw [Option.bind_eq_bind, Option.bind_eq_some_iff] at hrest
  obtain ⟨pool₁, hstore, hpool'⟩ := hrest
  cases hpool'
  have hlinks : Linked (link pool₁) (some o) (o :: free) := by
    have hshaped := h.store ho hstore
    rw [store_eq hsome] at hstore
    cases hstore
    apply Linked.cons _ hshaped.links
    simp [link]
  have h₁ := h.store ho hstore
  refine ⟨h₁.headers, h₁.pages_nodup, h₁.slots, hlinks, List.nodup_cons.2 ⟨hnotMem, h.free_nodup⟩, ?_, ?_, ?_⟩
  · show pool₁.freeObjectCount + 1 = (o :: free).length
    rw [h₁.count, List.length_cons]
    omega
  · intro a ha hmem
    obtain ⟨hne, hmem⟩ := Finset.mem_erase.1 hmem
    rcases List.mem_cons.1 ha with rfl | ha
    · exact hne rfl
    · exact h.disjoint a ha hmem
  · intro a
    rw [← h.nodes a, Finset.mem_erase, List.mem_cons]
    by_cases heq : a = o
    · subst heq
      tauto
    · tauto

theorem nodeFree_isSome (hmem : pool.mem o = some slot) (hword : slot.word0 = .refc 0) :
    (pool.nodeFree o).isSome := by
  have hsome : (pool.mem o).isSome := by
    rw [hmem]
    rfl
  rw [nodeFree, hmem, Option.bind_eq_bind, Option.bind_some, if_neg (not_not.2 hword), store_eq hsome]
  rfl

/-- `NodeManager_dispose` frees every page once, in as many rounds as there are pages. -/
theorem freePages_eq (rounds : ℕ) (hheaders : Linked pool.header pool.currentPage pages)
    (hnodup : pages.Nodup)
    (hslots : ∀ o, (pool.mem o).isSome ↔ o.page ∈ pages ∧ o.slot ≤ pageObjectSize) :
    freePages rounds pool = if pages.length < rounds then
      some { pool with mem := fun _ => none, currentPage := none } else none := by
  induction pages generalizing pool rounds with
  | nil =>
    cases rounds with
    | zero => rfl
    | succ rounds =>
      have hnone : pool.mem = fun _ => none := by
        funext o
        simpa using hslots o
      have hend := hheaders.eq_none
      have hlt : ([] : List ℕ).length < rounds + 1 := Nat.succ_pos rounds
      rw [freePages, hend, if_pos hlt]
      show some pool = _
      rw [← hnone, ← hend]
  | cons page pages ih =>
    cases rounds with
    | zero => rfl
    | succ rounds =>
      obtain ⟨hnotMem, hnodup⟩ := List.nodup_cons.1 hnodup
      obtain ⟨next, hcurrent, hheader, htail⟩ := hheaders.cons_inv
      obtain ⟨tag, hslot⟩ : ∃ tag, pool.mem ⟨page, 0⟩ = some ⟨.next next, tag⟩ := by
        unfold header at hheader
        split at hheader
        · rename_i next' tag hmem
          cases hheader
          exact ⟨tag, hmem⟩
        · cases hheader
      rw [freePages, hcurrent]
      simp only [hslot, Option.bind_eq_bind, Option.bind_some, List.length_cons,
        Nat.add_lt_add_iff_right]
      apply ih
      · apply htail.congr
        intro p hp
        exact header_congr _ (if_neg (ne_of_mem_of_not_mem hp hnotMem))
      · exact hnodup
      · intro o
        have hold := hslots o
        dsimp only
        split_ifs with hpage
        · rw [hpage]
          simp [hnotMem]
        · simpa [hpage] using hold

theorem Shaped.dispose (h : Shaped pool pages free allocated) (rounds : ℕ) :
    pool.dispose rounds = if pages.length < rounds then some {} else none := by
  rw [Pool.dispose, freePages_eq rounds h.headers h.pages_nodup h.slots]
  split_ifs <;> rfl

theorem fresh_init (page : ℕ) : Fresh {} page := fun _ => rfl

/-- A reset leaves the pool of `NodeManager_init`: no page from before is in its memory. -/
theorem Shaped.reset_eq {rounds : ℕ} (h : Shaped pool pages free allocated)
    (hreset : pool.reset rounds page = some pool') : Pool.allocPage page {} = some pool' := by
  rw [Pool.reset, h.dispose] at hreset
  split_ifs at hreset
  · exact hreset
  · cases hreset

theorem Shaped.reset {rounds : ℕ} (h : Shaped pool pages free allocated)
    (hreset : pool.reset rounds page = some pool') : Shaped pool' [page] (nodesOf page) ∅ := by
  obtain ⟨pool₁, hpage, h₁⟩ := shaped_init.allocPage (fresh_init page)
  have hsame : pool₁ = pool' := Option.some.inj (hpage.symm.trans (h.reset_eq hreset))
  exact hsame ▸ h₁

end Pool

/-- The pool and the nodes that it has handed out. -/
structure PoolState where
  pool : Pool
  allocated : Finset NodePtr

/-- A use of the pool, or a write of the rest of the program to a node it holds. -/
inductive PoolStep : PoolState → PoolState → Prop
  | alloc {s : PoolState} {pool : Pool} {o : NodePtr} (page : ℕ) (hfresh : s.pool.Fresh page)
    (hrun : s.pool.nodeAlloc page = some (pool, o)) : PoolStep s ⟨pool, insert o s.allocated⟩
  | free {s : PoolState} {pool : Pool} (o : NodePtr) (ho : o ∈ s.allocated)
    (hrun : s.pool.nodeFree o = some pool) : PoolStep s ⟨pool, s.allocated.erase o⟩
  | write {s : PoolState} {pool : Pool} (o : NodePtr) (ho : o ∈ s.allocated) (slot : Slot)
    (hrun : s.pool.store o slot = some pool) : PoolStep s ⟨pool, s.allocated⟩
  | reset {s : PoolState} {pool : Pool} (rounds page : ℕ)
    (hrun : s.pool.reset rounds page = some pool) : PoolStep s ⟨pool, ∅⟩

/-- The states that the program reaches from `NodeManager_init`. -/
def PoolState.Reachable (s : PoolState) : Prop :=
  ∃ page pool, Pool.allocPage page {} = some pool ∧ Relation.ReflTransGen PoolStep ⟨pool, ∅⟩ s

structure PoolState.HandsOutOnce (s : PoolState) : Prop where
  shaped : ∃ pages free, s.pool.Shaped pages free s.allocated
  alloc : ∀ page, s.pool.Fresh page → ∃ pool o, s.pool.nodeAlloc page = some (pool, o) ∧
    o ∉ s.allocated ∧ 0 < o.slot

namespace PoolState

open Pool

variable {s s' : PoolState}

theorem shaped_step {pages : List ℕ} {free : List NodePtr} (hs : s.pool.Shaped pages free s.allocated)
    (h : PoolStep s s') : ∃ pages' free', s'.pool.Shaped pages' free' s'.allocated := by
  cases h with
  | alloc page hfresh hrun =>
    obtain ⟨pool', o', pages', free', hrun', -, -, hshaped⟩ := hs.nodeAlloc hfresh
    cases hrun'.symm.trans hrun
    exact ⟨pages', free', hshaped⟩
  | free o ho hrun => exact ⟨pages, o :: free, hs.nodeFree ho hrun⟩
  | write o ho slot hrun => exact ⟨pages, free, hs.store ho hrun⟩
  | reset rounds page hrun => exact ⟨[page], nodesOf page, hs.reset hrun⟩

theorem Reachable.shaped (h : Reachable s) : ∃ pages free, s.pool.Shaped pages free s.allocated := by
  obtain ⟨page, pool, hpage, hrun⟩ := h
  induction hrun with
  | refl =>
    obtain ⟨pool', hpool', hshaped⟩ := shaped_init.allocPage (fresh_init page)
    cases hpool'.symm.trans hpage
    exact ⟨_, _, hshaped⟩
  | tail _ hstep ih =>
    obtain ⟨pages, free, hshaped⟩ := ih
    exact shaped_step hshaped hstep

/-- In every state the pool is one of allocated nodes and of free nodes, each once, and what it
hands out next is neither allocated nor a header. -/
theorem handsOutOnce (h : Reachable s) : HandsOutOnce s := by
  obtain ⟨pages, free, hshaped⟩ := h.shaped
  refine ⟨⟨pages, free, hshaped⟩, fun page hfresh => ?_⟩
  obtain ⟨pool, o, -, -, hrun, hnotMem, hpos, -⟩ := hshaped.nodeAlloc hfresh
  exact ⟨pool, o, hrun, hnotMem, hpos⟩

theorem Reachable.step (h : Reachable s) (hstep : PoolStep s s') : Reachable s' := by
  obtain ⟨page, pool, hpage, hrun⟩ := h
  exact ⟨page, pool, hpage, hrun.tail hstep⟩

theorem Reachable.allocAll {pool : Pool} {pages : List ℕ} {free : List NodePtr}
    {allocated : Finset NodePtr} (h : Reachable ⟨pool, allocated⟩)
    (hs : pool.Shaped pages free allocated) :
    ∃ pool', Reachable ⟨pool', free.toFinset ∪ allocated⟩ ∧
      pool'.Shaped pages [] (free.toFinset ∪ allocated) := by
  induction free generalizing pool allocated with
  | nil => exact ⟨pool, by simpa using h, by simpa using hs⟩
  | cons o free ih =>
    obtain ⟨page, hpage⟩ := Infinite.exists_notMem_finset pages.toFinset
    have hfresh := hs.fresh fun hmem => hpage (List.mem_toFinset.2 hmem)
    obtain ⟨pool₁, halloc, hs₁⟩ := hs.nodeAlloc_cons page
    obtain ⟨pool', h', hs'⟩ := ih (h.step (.alloc page hfresh halloc)) hs₁
    have hunion : free.toFinset ∪ insert o allocated = (o :: free).toFinset ∪ allocated := by
      rw [List.toFinset_cons, Finset.union_insert, Finset.insert_union]
    exact ⟨pool', hunion ▸ h', hunion ▸ hs'⟩

/-- The program takes all nodes of the first page and one of a second, writes to a node and gives
it back. -/
theorem reachable_secondPage : ∃ pool : Pool,
    Reachable ⟨pool, (insert ⟨1, 1⟩ (nodesOf 0).toFinset).erase ⟨0, 7⟩⟩ ∧
      pool.currentPage = some 1 ∧ pool.freeList = some ⟨0, 7⟩ ∧
      pool.freeObjectCount = pageObjectSize := by
  obtain ⟨pool₀, hpool₀, hs₀⟩ := shaped_init.allocPage (fresh_init 0)
  obtain ⟨pool₁, h₁, hs₁⟩ := Reachable.allocAll ⟨0, pool₀, hpool₀, .refl⟩ hs₀
  rw [Finset.union_empty] at h₁ hs₁
  have hfresh : pool₁.Fresh 1 := hs₁.fresh (by simp)
  obtain ⟨pool₂, halloc, hs₂⟩ := hs₁.nodeAlloc_nil hfresh
  have h₂ := h₁.step (.alloc 1 hfresh halloc)
  have ho : (⟨0, 7⟩ : NodePtr) ∈ insert (⟨1, 1⟩ : NodePtr) (nodesOf 0).toFinset :=
    Finset.mem_insert_of_mem (List.mem_toFinset.2 (mem_nodesOf.2 ⟨rfl, by decide, by decide⟩))
  have hsome : (pool₂.mem ⟨0, 7⟩).isSome := (hs₂.slots _).2 ⟨by simp, by decide⟩
  obtain ⟨pool₃, hstore, hmem⟩ := exists_store hsome { word0 := .refc 0, tag := .text 4096 }
  have h₃ := h₂.step (.write _ ho _ hstore)
  have hs₃ := hs₂.store ho hstore
  obtain ⟨pool₄, hfree⟩ := Option.isSome_iff_exists.1 (nodeFree_isSome hmem rfl)
  have hs₄ := hs₃.nodeFree ho hfree
  obtain ⟨-, hfirst, -, -⟩ := hs₄.links.cons_inv
  obtain ⟨-, hpage, -, -⟩ := hs₄.headers.cons_inv
  have hcount : pool₄.freeObjectCount = pageObjectSize := by
    rw [hs₄.count, List.length_cons, List.length_tail, length_nodesOf,
      Nat.sub_add_cancel pageObjectSize_pos]
  exact ⟨pool₄, h₃.step (.free _ ho hfree), hpage, hfirst, hcount⟩

theorem handsOutOnce_secondPage : ∃ pool : Pool,
    HandsOutOnce ⟨pool, (insert ⟨1, 1⟩ (nodesOf 0).toFinset).erase ⟨0, 7⟩⟩ ∧
      pool.currentPage = some 1 ∧ pool.freeList = some ⟨0, 7⟩ ∧
      pool.freeObjectCount = pageObjectSize := by
  obtain ⟨pool, h, hfacts⟩ := reachable_secondPage
  exact ⟨pool, handsOutOnce h, hfacts⟩

end PoolState

end Moz
