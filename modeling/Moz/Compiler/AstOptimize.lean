import Moz.Compiler.Rewriting
import Moz.Compiler.Unused
import Moz.Lib.Logged

/-!
# The optimiser on the heap

`moz_ast_optimize` with the counts it keeps, the nodes it shares and the pointers
its local variables hold. Every read or write of a field goes through the heap.
The program notes each rewrite before it is made, and the beginning and the end of
a pass. A recursion or a loop that may not come to an end is given fuel.
-/

namespace Moz.Compiler

/-- What an `expr_t **` points to. -/
inductive Slot
  | body (decl : DeclPtr)
  | operand (e : ExprPtr)
  | elem (e : ExprPtr) (i : ℕ)
  deriving DecidableEq, Repr

def Variant.operand? : Variant → Option ExprPtr
  | .and expr | .not expr | .option expr | .xblock expr => some expr
  | .xlocal _ expr | .xsymbol _ expr => some expr
  | _ => none

def Variant.setOperand (o : ExprPtr) : Variant → Variant
  | .and _ => .and o
  | .not _ => .not o
  | .option _ => .option o
  | .xblock _ => .xblock o
  | .xlocal name _ => .xlocal name o
  | .xsymbol name _ => .xsymbol name o
  | v => v

def Variant.list? : Variant → Option (List ExprPtr)
  | .choice list | .sequence list | .repetition list => some list
  | _ => none

def Variant.setList (list : List ExprPtr) : Variant → Variant
  | .choice _ => .choice list
  | .sequence _ => .sequence list
  | .repetition _ => .repetition list
  | v => v

namespace AstHeap

variable (H : AstHeap)

def variant (e : ExprPtr) : Except Fault Variant :=
  match H.exprs e with
  | some obj => .ok obj.variant
  | none => .error .swept

def setVariant (e : ExprPtr) (v : Variant) : AstHeap :=
  { H with exprs := fun x => if x = e then (H.exprs x).map ({ · with variant := v })
                             else H.exprs x }

def setBody (decl : DeclPtr) (body : ExprPtr) : AstHeap :=
  { H with decls := fun d => if d = decl then (H.decls d).map ({ · with body := some body })
                             else H.decls d }

def alloc (v : Variant) : AstHeap :=
  { H with exprs := fun x => if x = H.next then some ⟨0, v⟩ else H.exprs x
           next := H.next + 1 }

/-- `VM_CALLOC` of a production. -/
def declare (name : List UInt8) : AstHeap :=
  { H with decls := fun d => if d = H.next then some { name := name } else H.decls d
           next := H.next + 1 }

section Writes

variable {H}

theorem content_setVariant_self {e : ExprPtr} (v : Variant) (h : (H.content (.expr e)).isSome) :
    (H.setVariant e v).content (.expr e) = some (.expr v) := by
  obtain ⟨obj, hobj⟩ := Option.isSome_iff_exists.1 (by simpa [content] using h)
  simp [setVariant, content, hobj]

theorem content_setVariant_of_ne {e : ExprPtr} (v : Variant) {p : Ptr} (h : p ≠ .expr e) :
    (H.setVariant e v).content p = H.content p := by
  cases p <;> simp_all [setVariant, content]

@[simp] theorem refc_setVariant (e : ExprPtr) (v : Variant) (p : Ptr) :
    (H.setVariant e v).refc p = H.refc p := by
  cases p with
  | decl decl => rfl
  | expr x =>
    simp only [setVariant, refc]
    split_ifs <;> simp [Option.map_map, Function.comp_def]

theorem content_setBody_self {decl : DeclPtr} {name : List UInt8} {body : Option ExprPtr}
    (o : ExprPtr) (h : H.content (.decl decl) = some (.decl name body)) :
    (H.setBody decl o).content (.decl decl) = some (.decl name (some o)) := by
  simp only [content, Option.map_eq_some_iff] at h
  obtain ⟨obj, hobj, hdecl⟩ := h
  cases hdecl
  simp [setBody, content, hobj]

theorem content_setBody_of_ne {decl : DeclPtr} (o : ExprPtr) {p : Ptr} (h : p ≠ .decl decl) :
    (H.setBody decl o).content p = H.content p := by
  cases p <;> simp_all [setBody, content]

@[simp] theorem refc_setBody (decl : DeclPtr) (o : ExprPtr) (p : Ptr) :
    (H.setBody decl o).refc p = H.refc p := by
  cases p with
  | decl d =>
    simp only [setBody, refc]
    split_ifs <;> simp [Option.map_map, Function.comp_def]
  | expr e => rfl

@[simp] theorem next_setBody (decl : DeclPtr) (o : ExprPtr) : (H.setBody decl o).next = H.next :=
  rfl

@[simp] theorem content_alloc_self (v : Variant) :
    (H.alloc v).content (.expr H.next) = some (.expr v) := by
  simp [alloc, content]

theorem content_alloc_of_ne (v : Variant) {p : Ptr} (h : p ≠ .expr H.next) :
    (H.alloc v).content p = H.content p := by
  cases p <;> simp_all [alloc, content]

theorem refc_alloc_self (v : Variant) : (H.alloc v).refc (.expr H.next) = 0 := by
  simp [alloc, refc]

theorem refc_alloc_of_ne (v : Variant) {p : Ptr} (h : p ≠ .expr H.next) :
    (H.alloc v).refc p = H.refc p := by
  cases p <;> simp_all [alloc, refc]

@[simp] theorem content_declare_self (name : List UInt8) :
    (H.declare name).content (.decl H.next) = some (.decl name none) := by
  simp [declare, content]

theorem content_declare_of_ne (name : List UInt8) {p : Ptr} (h : p ≠ .decl H.next) :
    (H.declare name).content p = H.content p := by
  cases p <;> simp_all [declare, content]

theorem refc_declare_self (name : List UInt8) : (H.declare name).refc (.decl H.next) = 0 := by
  simp [declare, refc]

theorem refc_declare_of_ne (name : List UInt8) {p : Ptr} (h : p ≠ .decl H.next) :
    (H.declare name).refc p = H.refc p := by
  cases p <;> simp_all [declare, refc]

@[simp] theorem next_alloc (v : Variant) : (H.alloc v).next = H.next + 1 := rfl

theorem children_eq_nil {p : Ptr} (h : H.content p = none) : H.children p = [] := by
  simp [children, refs, h]

theorem children_congr {H' : AstHeap} {p : Ptr} (h : H'.content p = H.content p) :
    H'.children p = H.children p := by
  rw [children, refs_congr h, ← children]

end Writes

def isPatternMatchOnlyAll (test : ExprPtr → Except Fault Bool) : List ExprPtr → Except Fault Bool
  | [] => .ok true
  | x :: list => do
    if ← test x then
      isPatternMatchOnlyAll test list
    else
      return false

def isPatternMatchOnly : ℕ → ExprPtr → Except Fault Bool
  | 0, _ => .error .depth
  | fuel + 1, e => do
    match ← H.variant e with
    | .empty | .any | .byte _ | .str _ | .set _ | .fail => return true
    | .and expr | .not expr | .option expr => isPatternMatchOnly fuel expr
    | .choice list | .sequence list | .repetition list =>
      isPatternMatchOnlyAll (isPatternMatchOnly fuel) list
    | _ => return false

end AstHeap

/-- What the compiler is about to do to the productions. -/
inductive AstStep
  /-- `moz_decl_new`, before the first production is marked -/
  | declare
  /-- an expression is made, or a reference to it is stored -/
  | build
  /-- `moz_ast_mark_live_decl` -/
  | mark
  /-- an Invoke is replaced by the body of its production -/
  | inline (ref : Slot) (e : ExprPtr)
  /-- a Choice or a Sequence is replaced by its only element -/
  | collapse (ref : Slot) (e : ExprPtr)
  /-- a Choice is replaced by a set -/
  | merge (ref : Slot) (e : ExprPtr)
  /-- a Sequence in a Sequence is replaced by its elements -/
  | flatten (e : ExprPtr) (i : ℕ) (child : ExprPtr)
  /-- two Byte elements are replaced by a Str -/
  | joinBytes (e : ExprPtr) (i : ℕ) (child child2 : ExprPtr)
  /-- a Byte is put at the end of the Str before it -/
  | append (e : ExprPtr) (i : ℕ) (child child2 : ExprPtr)
  /-- two Str elements are replaced by one -/
  | joinStrs (e : ExprPtr) (i : ℕ) (child child2 : ExprPtr)
  /-- a Not of a Byte and an Any are replaced by a set -/
  | complement (e : ExprPtr) (i : ℕ) (child child2 : ExprPtr)
  /-- an Empty element is taken out -/
  | drop (e : ExprPtr) (i : ℕ) (child : ExprPtr)
  /-- `moz_ast_remove_unused_decl`, with the `modified` of the pass -/
  | remove (modified : Bool)
  deriving DecidableEq, Repr

abbrev AstM := Logged Ast AstStep Fault

namespace AstM

open Logged (get set raise note lift)

def onHeap (f : AstHeap → Except Fault AstHeap) : AstM Unit := do
  let c ← get
  let heap ← lift (f c.heap)
  set { c with heap := heap }

def readExpr (e : ExprPtr) : AstM Variant := do
  let c ← get
  lift (c.heap.variant e)

def writeExpr (e : ExprPtr) (v : Variant) : AstM Unit := onHeap fun H =>
  if (H.content (.expr e)).isSome then .ok (H.setVariant e v) else .error .swept

def readDecl (decl : DeclPtr) : AstM DeclObj := do
  let c ← get
  match c.heap.decls decl with
  | some obj => pure obj
  | none => raise .swept

def readList (e : ExprPtr) : AstM (List ExprPtr) := do
  match (← readExpr e).list? with
  | some list => pure list
  | none => raise .range

def writeList (e : ExprPtr) (list : List ExprPtr) : AstM Unit := do
  let v ← readExpr e
  writeExpr e (v.setList list)

/-- `ARRAY_get(expr_ptr_t, &e->list, i)` -/
def listGet (e : ExprPtr) (i : ℕ) : AstM ExprPtr := do
  match (← readList e)[i]? with
  | some x => pure x
  | none => raise .range

def listSet (e : ExprPtr) (i : ℕ) (x : ExprPtr) : AstM Unit := do
  let list ← readList e
  writeList e (list.set i x)

def listRemove (e : ExprPtr) (i : ℕ) : AstM Unit := do
  let list ← readList e
  writeList e (list.eraseIdx i)

/-- `*ref` -/
def readSlot : Slot → AstM ExprPtr
  | .body decl => do
    match (← readDecl decl).body with
    | some e => pure e
    | none => raise .null
  | .operand e => do
    match (← readExpr e).operand? with
    | some x => pure x
    | none => raise .range
  | .elem e i => listGet e i

def writeSlot (ref : Slot) (o : ExprPtr) : AstM Unit :=
  match ref with
  | .body decl => onHeap fun H =>
    if (H.content (.decl decl)).isSome then .ok (H.setBody decl o) else .error .swept
  | .operand e => do
    let v ← readExpr e
    writeExpr e (v.setOperand o)
  | .elem e i => listSet e i o

def retain (e : ExprPtr) : AstM Unit := onHeap fun H => mozRcRetain H (.expr e)

/-- `assert` in a build with or without `NDEBUG`. -/
def check (ndebug : Bool) (cond : Bool) : AstM Unit :=
  if ndebug || cond then return () else raise .assertion

section Build

variable (ndebug : Bool)

def release (e : ExprPtr) : AstM Unit := onHeap fun H => mozRcRelease ndebug H (.expr e)

/-- `MOZ_RC_ASSIGN(*ref, o, moz_expr_sweep)` -/
def rcAssign (ref : Slot) (o : ExprPtr) : AstM Unit := do
  retain o
  let v ← readSlot ref
  release ndebug v
  writeSlot ref o

/-- `EXPR_ALLOC_T` with the fields that are stored next. -/
def exprAlloc (v : Variant) : AstM ExprPtr := do
  let c ← get
  set { c with heap := c.heap.alloc v }
  return c.heap.next

def mozAstDoInline (ref : Slot) (e : ExprPtr) (decl : DeclPtr) : AstM Unit := do
  note (.inline ref e)
  check ndebug ((← readSlot ref) == e)
  match (← readDecl decl).body with
  | some body => rcAssign ndebug ref body
  | none => raise .null

def mozInvokeOptimize (fuel : ℕ) (ref : Slot) (e : ExprPtr) (decl : Option DeclPtr) :
    AstM Bool := do
  match decl with
  | none => return false
  | some decl =>
    let obj ← readDecl decl
    -- `moz_decl_use_once`
    if obj.refc == 2 then
      mozAstDoInline ndebug ref e decl
      return true
    else
      match obj.body with
      | none => raise .null
      | some body =>
        let c ← get
        if ← lift (c.heap.isPatternMatchOnly fuel body) then
          mozAstDoInline ndebug ref e decl
          return true
        else
          match ← readExpr body with
          | .empty | .any | .byte _ | .str _ | .set _ | .fail => do
            mozAstDoInline ndebug ref e decl
            return true
          | _ => return false

def isByteMapAlternative (x : ExprPtr) : AstM Bool := do
  match ← readExpr x with
  | .byte _ | .set _ => return true
  | .not expr =>
    match ← readExpr expr with
    | .byte _ | .set _ => return true
    | _ => return false
  | _ => return false

def useByteMapOptimization : List ExprPtr → AstM Bool
  | [] => return true
  | x :: list => do
    if ← isByteMapAlternative x then
      useByteMapOptimization list
    else
      return false

/-- What the `switch` of `moz_Choice_optimize` puts into the set. -/
def putOperand (set : Bitset) (x : ExprPtr) : AstM Bitset := do
  match ← readExpr x with
  | .byte byte => return putByte set byte
  | .set set' => return putSet set set'
  | _ => return set

/-- A round of the loop of `moz_Choice_optimize`. -/
def putAlternative (set : Bitset) (x : ExprPtr) : AstM Bitset := do
  match ← readExpr x with
  | .not expr =>
    if ndebug then
      return putSet (← putOperand set expr) (~~~putByte 0 0)
    else
      raise .assertion
  | _ => return putSet (← putOperand set x) 0

def putAlternatives (set : Bitset) : List ExprPtr → AstM Bitset
  | [] => return set
  | x :: list => do
    let set ← putAlternative ndebug set x
    putAlternatives set list

/-- `MOZ_RC_ASSIGN(*ref, child, moz_expr_sweep); ARRAY_dispose(expr_ptr_t, &expr->list);` -/
def collapse (ref : Slot) (e child : ExprPtr) : AstM Unit := do
  note (.collapse ref e)
  rcAssign ndebug ref child
  writeList e []

/-- `moz_Choice_optimize` after the loop over the alternatives. -/
def mozChoiceOptimize (ref : Slot) (e : ExprPtr) (modified : Bool) : AstM Bool := do
  match ← readList e with
  | [child] =>
    collapse ndebug ref e child
    return true
  | list =>
    if ← useByteMapOptimization list then
      let set ← putAlternatives ndebug 0 list
      note (.merge ref e)
      let set ← exprAlloc (.set set)
      rcAssign ndebug ref set
      return true
    else
      return modified

def insertAll (e : ExprPtr) : ℕ → List ExprPtr → AstM Unit
  | _, [] => return ()
  | i, x :: list => do
    writeList e ((← readList e).insertIdx i x)
    retain x
    insertAll e (i + 1) list

/-- `moz_Sequence_do_flatten`. A sequence that is its own element is walked over while it grows. -/
def mozSequenceDoFlatten (e : ExprPtr) (offset : ℕ) (seq : ExprPtr) : AstM Unit := do
  if seq = e then
    raise .range
  else
    listRemove e offset
    insertAll e offset (← readList seq)
    release ndebug seq

/-- The first rewrite of a round of `_moz_Sequence_optimize`. -/
def mozSequenceFlatten (e : ExprPtr) (i : ℕ) (child : ExprPtr) : AstM Bool := do
  match ← readExpr child with
  | .sequence _ =>
    note (.flatten e i child)
    mozSequenceDoFlatten ndebug e i child
    return true
  | _ => return false

def listNext (e : ExprPtr) (i : ℕ) : AstM (Option ExprPtr) := do
  let list ← readList e
  return list[i + 1]?

/-- Two elements give way to a new one. -/
def joinElements (e : ExprPtr) (i : ℕ) (child child2 expr : ExprPtr) : AstM Unit := do
  listSet e i expr
  retain expr
  release ndebug child
  release ndebug child2
  listRemove e (i + 1)

def mozSequenceJoinBytes (e : ExprPtr) (i : ℕ) (child : ExprPtr) : AstM Bool := do
  match ← readExpr child with
  | .byte b1 =>
    match ← listNext e i with
    | some child2 =>
      match ← readExpr child2 with
      | .byte b2 =>
        note (.joinBytes e i child child2)
        let expr ← exprAlloc (.str [b1, b2])
        joinElements ndebug e i child child2 expr
        return true
      | _ => return false
    | none => return false
  | _ => return false

/-- The `while` loop of a round: a Str takes in the Byte and the Str that follow. -/
def mozSequenceConcat (e : ExprPtr) (i : ℕ) (child : ExprPtr) : ℕ → AstM Bool
  | 0 => raise .depth
  | fuel + 1 => do
    match ← readExpr child with
    | .str s1 =>
      match ← listNext e i with
      | some child2 =>
        match ← readExpr child2 with
        | .byte byte =>
          note (.append e i child child2)
          writeExpr child (.str (s1 ++ [byte]))
          release ndebug child2
          listRemove e (i + 1)
          let _ ← mozSequenceConcat e i child fuel
          return true
        | .str s2 =>
          note (.joinStrs e i child child2)
          let expr ← exprAlloc (.str (s1 ++ s2))
          listSet e i expr
          writeExpr child (.str [])
          writeExpr child2 (.str [])
          listRemove e (i + 1)
          retain expr
          release ndebug child
          release ndebug child2
          let _ ← mozSequenceConcat e i child fuel
          return true
        | _ => return false
      | none => return false
    | _ => return false

def mozSequenceComplement (e : ExprPtr) (i : ℕ) (child : ExprPtr) : AstM Bool := do
  match ← readExpr child with
  | .not expr =>
    match ← listNext e i with
    | some child2 =>
      match ← readExpr expr with
      | .byte byte =>
        match ← readExpr child2 with
        | .any =>
          note (.complement e i child child2)
          let set ← exprAlloc (.set (~~~putByte (putByte 0 byte) 0))
          listSet e i set
          listRemove e (i + 1)
          retain set
          release ndebug child
          release ndebug child2
          return true
        | _ => return false
      | _ => return false
    | none => return false
  | _ => return false

/-- `_moz_Sequence_optimize` from an index on. -/
def mozSequenceLoop (e : ExprPtr) : ℕ → ℕ → AstM Bool
  | 0, _ => raise .depth
  | fuel + 1, i => do
    match (← readList e)[i]? with
    | none => return false
    | some child =>
      let flattened ← mozSequenceFlatten ndebug e i child
      let joined ← mozSequenceJoinBytes ndebug e i child
      let concat ← mozSequenceConcat ndebug e i child fuel
      let complemented ← mozSequenceComplement ndebug e i child
      let modified ← mozSequenceLoop e fuel (i + 1)
      return flattened || joined || concat || complemented || modified

/-- The loop of `moz_Sequence_optimize` that takes out the Empty elements before an index. -/
def mozSequenceDropEmpty (e : ExprPtr) : ℕ → AstM Bool
  | 0 => return false
  | i + 1 => do
    let child ← listGet e i
    match ← readExpr child with
    | .empty =>
      note (.drop e i child)
      listRemove e i
      release ndebug child
      let _ ← mozSequenceDropEmpty e i
      return true
    | _ => mozSequenceDropEmpty e i

/-- `moz_Sequence_optimize` after the loop over the elements. -/
def mozSequenceOptimize (fuel : ℕ) (ref : Slot) (e : ExprPtr) (modified : Bool) : AstM Bool := do
  let rewritten ← mozSequenceLoop ndebug e fuel 0
  let dropped ← mozSequenceDropEmpty ndebug e (← readList e).length
  match ← readList e with
  | [child] =>
    collapse ndebug ref e child
    return true
  | _ => return modified || rewritten || dropped

def mozListOptimize (optimize : Slot → ExprPtr → AstM Bool) (e : ExprPtr) : ℕ → ℕ → AstM Bool
  | 0, _ => return false
  | n + 1, i => do
    let x ← readSlot (.elem e i)
    let modified ← optimize (.elem e i) x
    let modified' ← mozListOptimize optimize e n (i + 1)
    return modified || modified'

def mozExprOptimize : ℕ → Slot → ExprPtr → AstM Bool
  | 0, _, _ => raise .depth
  | fuel + 1, ref, e => do
    match ← readExpr e with
    | .invoke _ decl => mozInvokeOptimize ndebug fuel ref e decl
    | .and expr | .not expr | .option expr | .xblock expr | .xlocal _ expr | .xsymbol _ expr =>
      mozExprOptimize fuel (.operand e) expr
    | .choice list => do
      let modified ← mozListOptimize (mozExprOptimize fuel) e list.length 0
      mozChoiceOptimize ndebug ref e modified
    | .sequence list => do
      let modified ← mozListOptimize (mozExprOptimize fuel) e list.length 0
      mozSequenceOptimize ndebug fuel ref e modified
    | .repetition list => mozListOptimize (mozExprOptimize fuel) e list.length 0
    | _ => return false

def mozDeclsOptimize (fuel : ℕ) : List DeclPtr → AstM Bool
  | [] => return false
  | decl :: decls => do
    let body ← readSlot (.body decl)
    let modified ← mozExprOptimize ndebug fuel (.body decl) body
    let modified' ← mozDeclsOptimize fuel decls
    return modified || modified'

def mozAstOptimize (fuel : ℕ) : ℕ → AstM Unit
  | 0 => raise .depth
  | passes + 1 => do
    note .mark
    set (← lift (mozAstMarkLiveDecl (← get)))
    let modified ← mozDeclsOptimize ndebug fuel (← get).decls
    note (.remove modified)
    set (← lift (mozAstRemoveUnusedDecl ndebug (← get)))
    if modified then
      mozAstOptimize fuel passes

end Build

end AstM

end Moz.Compiler
