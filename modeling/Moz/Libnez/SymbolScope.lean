import Mathlib.Data.List.TakeWhile
import Mathlib.Tactic
import Moz.Libnez.Symtable

/-!
# The symbol table as a scoped list of definitions

What a symbol table is for: definitions and masks are pushed, a rollback takes the
last ones away, and a name is looked up among the definitions after its last mask.
The token of a mask is not written by `symtable_push`; what the memory held is a
part of the operation here. The three searches are compared with the scoped
reading for every sequence of operations.
-/

namespace Moz

inductive SymValue
  | definition (s : ℕ) (len : UInt32)
  | mask (uninit : Token)
  deriving DecidableEq, Repr

namespace SymValue

/-- `entry.sym`. -/
def token : SymValue → Token
  | definition s len => { s := some s, len := len }
  | mask uninit => uninit

/-- `entry.hash`. -/
def hash (byteAt : ℕ → UInt8) : SymValue → UInt32
  | definition s len => fnv1a (Token.bytes byteAt { s := some s, len := len })
  | mask _ => 0

def isDefinition : SymValue → Bool
  | definition _ _ => true
  | mask _ => false

def seen (v : SymValue) : Bool := v.token.s.isSome

end SymValue

inductive SymOp
  | push (tableName : UInt16) (value : SymValue)
  | rollback (saved : ℕ)

variable (byteAt : ℕ → UInt8)

def symStep (tbl : Symtable) : SymOp → Option Symtable
  | .push tableName (.definition s len) =>
    some (symtableAddSymbol byteAt tbl tableName { s := some s, len := len })
  | .push tableName (.mask uninit) => some (symtableAddSymbolMask tbl tableName uninit)
  | .rollback saved => symtableRollback tbl saved

def symRun : Symtable → List SymOp → Option Symtable
  | tbl, [] => some tbl
  | tbl, op :: ops => (symStep byteAt tbl op).bind fun tbl => symRun tbl ops

def survivors : List (UInt16 × SymValue) → List SymOp → List (UInt16 × SymValue)
  | entries, [] => entries
  | entries, .push tableName value :: ops => survivors (entries ++ [(tableName, value)]) ops
  | entries, .rollback saved :: ops => survivors (entries.take saved) ops

def valuesOf (entries : List (UInt16 × SymValue)) (tableName : UInt16) : List SymValue :=
  (entries.reverse.filter fun e => e.1 = tableName).map Prod.snd

def visible (values : List SymValue) : List SymValue := values.takeWhile SymValue.isDefinition

/-- What the three searches have to give for a name with these entries. -/
structure Scoped (tbl : Symtable) (tableName : UInt16) (values : List SymValue) : Prop where
  hasSymbol : symtableHasSymbol tbl tableName = (values.head?.any SymValue.isDefinition)
  getSymbol : symtableGetSymbol tbl tableName = (visible values).head?.map SymValue.token
  contains : ∀ t, symtableContains byteAt tbl tableName t = true ↔
    ∃ v ∈ visible values, v.token.bytes byteAt = t

/-- What must be so for the searches to stop at the last mask: if the last entry is a mask, there is
no definition and no mask reads as one; and the entries after a mask that does, down to one that
does not, have only bytes of visible definitions. -/
structure MasksRead (values : List SymValue) : Prop where
  masked : (visible values = [] → ∀ v ∈ values, v.seen = false)
  hidden : ∀ v ∈ (values.dropWhile SymValue.isDefinition).takeWhile SymValue.seen,
    v.hash byteAt = fnv1a (v.token.bytes byteAt) →
      ∃ w ∈ visible values, w.token.bytes byteAt = v.token.bytes byteAt

def SymRepresents (tbl : Symtable) (entries : List (UInt16 × SymValue)) : Prop :=
  (tbl.table.map fun e => (e.tag, e.hash, e.sym)) =
    entries.map fun e => (e.1, e.2.hash byteAt, e.2.token)

/-- A table whose entries of a name read as these values. -/
def SymReads (tbl : Symtable) (tableName : UInt16) (values : List SymValue) : Prop :=
  ((tbl.entriesOf tableName).map fun e => (e.hash, e.sym)) =
    values.map fun v => (v.hash byteAt, v.token)

section Table

variable {byteAt} {tbl tbl' : Symtable} {entries : List (UInt16 × SymValue)} {tableName : UInt16}
  {values : List SymValue}

theorem symStep_represents {op : SymOp} (h : SymRepresents byteAt tbl entries)
    (hstep : symStep byteAt tbl op = some tbl') :
    SymRepresents byteAt tbl' (survivors entries [op]) := by
  unfold SymRepresents at h ⊢
  cases op with
  | push tableName value =>
    cases value with
    | definition s len =>
      cases hstep
      simp only [symtableAddSymbol, symtablePush, survivors, List.map_append, h]
      rfl
    | mask uninit =>
      cases hstep
      simp only [symtableAddSymbolMask, symtablePush, survivors, List.map_append, h]
      rfl
  | rollback saved =>
    change symtableRollback tbl saved = some tbl' at hstep
    unfold symtableRollback at hstep
    split_ifs at hstep
    cases hstep
    simp only [survivors, List.map_take, h]

theorem survivors_cons (op : SymOp) (ops : List SymOp) :
    survivors entries (op :: ops) = survivors (survivors entries [op]) ops := by
  cases op <;> rfl

theorem symRun_represents {ops : List SymOp} (h : SymRepresents byteAt tbl entries)
    (hrun : symRun byteAt tbl ops = some tbl') :
    SymRepresents byteAt tbl' (survivors entries ops) := by
  induction ops generalizing tbl entries with
  | nil =>
    cases hrun
    exact h
  | cons op ops ih =>
    obtain ⟨tbl₁, hstep, hrun⟩ := Option.bind_eq_some_iff.1 hrun
    rw [survivors_cons]
    exact ih (symStep_represents h hstep) hrun

theorem entriesOf_eq (h : SymRepresents byteAt tbl entries) (tableName : UInt16) :
    ((tbl.entriesOf tableName).map fun e => (e.hash, e.sym)) =
      (valuesOf entries tableName).map fun v => (v.hash byteAt, v.token) := by
  have hrev := congrArg List.reverse h
  rw [← List.map_reverse, ← List.map_reverse] at hrev
  have hfilter := congrArg (List.filter fun e => e.1 = tableName) hrev
  rw [List.filter_map, List.filter_map] at hfilter
  have hsnd := congrArg (List.map Prod.snd) hfilter
  rw [List.map_map, List.map_map] at hsnd
  unfold valuesOf Symtable.entriesOf
  rw [List.map_map]
  exact hsnd

theorem symtableHasSymbol_eq (h : SymReads byteAt tbl tableName values) :
    symtableHasSymbol tbl tableName = values.head?.any SymValue.seen := by
  unfold SymReads at h
  unfold symtableHasSymbol
  cases hentries : tbl.entriesOf tableName with
  | nil =>
    rw [hentries] at h
    obtain rfl := List.map_eq_nil_iff.1 h.symm
    rfl
  | cons cur rest =>
    rw [hentries] at h
    cases values with
    | nil => cases h
    | cons v values =>
      simp only [List.map_cons, List.cons.injEq, Prod.mk.injEq] at h
      simp [SymValue.seen, h.1.2]

theorem symtableGetSymbol_eq (h : SymReads byteAt tbl tableName values) :
    symtableGetSymbol tbl tableName = (values.find? SymValue.seen).map SymValue.token := by
  unfold SymReads at h
  unfold symtableGetSymbol
  generalize tbl.entriesOf tableName = list at h
  induction list generalizing values with
  | nil =>
    obtain rfl := List.map_eq_nil_iff.1 h.symm
    rfl
  | cons cur rest ih =>
    cases values with
    | nil => cases h
    | cons v values =>
      simp only [List.map_cons, List.cons.injEq, Prod.mk.injEq] at h
      rw [List.find?_cons, List.find?_cons]
      have hseen : cur.sym.s.isSome = v.seen := by rw [SymValue.seen, h.1.2]
      rw [hseen]
      cases v.seen with
      | true => exact congrArg some h.1.2
      | false => exact ih h.2

/-- `symtable_contains` looks at the entries down to one whose token is null. -/
theorem symtableContains_iff (h : SymReads byteAt tbl tableName values) (t : List UInt8) :
    symtableContains byteAt tbl tableName t = true ↔ ∃ v ∈ values.takeWhile SymValue.seen,
      v.hash byteAt = fnv1a t ∧ v.token.bytes byteAt = t := by
  unfold SymReads at h
  unfold symtableContains
  generalize tbl.entriesOf tableName = list at h
  induction list generalizing values with
  | nil =>
    obtain rfl := List.map_eq_nil_iff.1 h.symm
    simp [symtableContainsLoop]
  | cons cur rest ih =>
    cases values with
    | nil => cases h
    | cons v values =>
      simp only [List.map_cons, List.cons.injEq, Prod.mk.injEq] at h
      obtain ⟨⟨hhash, hsym⟩, hrest⟩ := h
      have hloop := ih hrest
      rw [symtableContainsLoop, hhash, hsym, List.takeWhile_cons]
      cases hseen : v.seen with
      | false =>
        have hnone : v.token.s = none := by simpa [SymValue.seen] using hseen
        simp [hnone]
      | true =>
        have hsome : v.token.s ≠ none := by
          intro hnone
          simp [SymValue.seen, hnone] at hseen
        rw [if_neg hsome]
        simp only [if_true, List.mem_cons, exists_eq_or_imp]
        split_ifs with heq
        · exact iff_of_true rfl (.inl ⟨heq.1.symm, heq.2.symm⟩)
        · rw [hloop]
          refine ⟨.inr, ?_⟩
          rintro (hv | hrest)
          · exact absurd ⟨hv.1.symm, hv.2.symm⟩ heq
          · exact hrest

end Table

section Search

variable {byteAt} {tbl : Symtable} {tableName : UInt16} {values : List SymValue}

theorem SymValue.seen_of_isDefinition {v : SymValue} (h : v.isDefinition) : v.seen := by
  cases v with
  | definition s len => rfl
  | mask uninit => cases h

theorem SymValue.hash_of_isDefinition {v : SymValue} (h : v.isDefinition) :
    v.hash byteAt = fnv1a (v.token.bytes byteAt) := by
  cases v with
  | definition s len => rfl
  | mask uninit => cases h

/-- The entries that are read are the visible definitions, and those from a mask on. -/
theorem takeWhile_seen (values : List SymValue) : values.takeWhile SymValue.seen =
    visible values ++ (values.dropWhile SymValue.isDefinition).takeWhile SymValue.seen := by
  unfold visible
  induction values with
  | nil => rfl
  | cons v values ih =>
    cases hv : v.isDefinition with
    | true =>
      rw [List.takeWhile_cons, List.takeWhile_cons, List.dropWhile_cons, hv,
        SymValue.seen_of_isDefinition hv]
      simpa using ih
    | false => simp [List.takeWhile_cons, hv]

/-- The searches find what is in scope exactly when the masks read as masks. -/
theorem scoped_iff (h : SymReads byteAt tbl tableName values) :
    Scoped byteAt tbl tableName values ↔ MasksRead byteAt values := by
  have hhas := symtableHasSymbol_eq h
  have hget := symtableGetSymbol_eq h
  have hcontains := symtableContains_iff h
  have hvisible : ∀ v ∈ visible values, v.isDefinition := fun v hv =>
    List.mem_takeWhile_imp hv
  constructor
  · intro hscoped
    refine ⟨fun hnil v hv => ?_, fun v hv hhash => ?_⟩
    · have hfind : values.find? SymValue.seen = none := by
        have heq := hscoped.getSymbol
        rw [hget, hnil] at heq
        simpa using heq
      simpa using List.find?_eq_none.1 hfind v hv
    · refine (hscoped.contains _).1 ((hcontains _).2 ⟨v, ?_, hhash, rfl⟩)
      rw [takeWhile_seen]
      exact List.mem_append_right _ hv
  · intro hmasks
    cases values with
    | nil =>
      refine ⟨hhas, hget, fun t => ?_⟩
      rw [hcontains]
      simp [visible]
    | cons v values =>
      cases hv : v.isDefinition with
      | true =>
        have hseen := SymValue.seen_of_isDefinition hv
        refine ⟨?_, ?_, fun t => ?_⟩
        · rw [hhas]
          simp [hv, hseen]
        · rw [hget]
          simp [visible, hv, hseen]
        · rw [hcontains, takeWhile_seen]
          constructor
          · rintro ⟨w, hw, hhash, rfl⟩
            rcases List.mem_append.1 hw with hin | hin
            · exact ⟨w, hin, rfl⟩
            · exact hmasks.hidden w hin hhash
          · rintro ⟨w, hw, rfl⟩
            exact ⟨w, List.mem_append_left _ hw,
              SymValue.hash_of_isDefinition (hvisible w hw), rfl⟩
      | false =>
        have hnil : visible (v :: values) = [] := by simp [visible, hv]
        have hunseen := hmasks.masked hnil
        have hseen := hunseen v (List.mem_cons_self ..)
        refine ⟨?_, ?_, fun t => ?_⟩
        · rw [hhas]
          simp [hv, hseen]
        · rw [hget, hnil]
          simp only [List.head?_nil, Option.map_none, Option.map_eq_none_iff]
          exact List.find?_eq_none.2 fun w hw => by simp [hunseen w hw]
        · rw [hcontains, hnil]
          simp [hseen]

end Search

/-- After any operations the searches for a name find what is in scope exactly when its masks read
as masks. -/
theorem symtable_scoped_iff {ops : List SymOp} {tbl : Symtable}
    (hrun : symRun byteAt {} ops = some tbl) (tableName : UInt16) :
    Scoped byteAt tbl tableName (valuesOf (survivors [] ops) tableName) ↔
      MasksRead byteAt (valuesOf (survivors [] ops) tableName) := by
  have hempty : SymRepresents byteAt {} [] := rfl
  exact scoped_iff (entriesOf_eq (symRun_represents hempty hrun) tableName)

/-- A definition and a mask with a null token: `symtable_has_symbol` fails, and
`symtable_get_symbol` finds the definition. -/
theorem masked_definition_found :
    ∃ tbl, symRun (fun _ => 97) {} [.push 0 (.definition 0 1), .push 0 (.mask ⟨none, 0⟩)] =
        some tbl ∧
      symtableHasSymbol tbl 0 = false ∧ symtableGetSymbol tbl 0 = some ⟨some 0, 1⟩ ∧
      ¬ Scoped (fun _ => 97) tbl 0
        (valuesOf (survivors [] [.push 0 (.definition 0 1), .push 0 (.mask ⟨none, 0⟩)]) 0) := by
  refine ⟨_, rfl, by decide, by decide, fun h => ?_⟩
  exact absurd h.getSymbol (by decide)

/-- Definitions after a mask with a null token are found. -/
theorem definition_after_mask :
    ∃ tbl, symRun (fun _ => 97) {} [.push 0 (.mask ⟨none, 0⟩), .push 0 (.definition 0 1)] =
        some tbl ∧
      (Scoped (fun _ => 97) tbl 0
          (valuesOf (survivors [] [.push 0 (.mask ⟨none, 0⟩), .push 0 (.definition 0 1)]) 0) ↔
        MasksRead (fun _ => 97)
          (valuesOf (survivors [] [.push 0 (.mask ⟨none, 0⟩), .push 0 (.definition 0 1)]) 0)) :=
  ⟨_, rfl, symtable_scoped_iff (fun _ => 97) rfl 0⟩

end Moz
