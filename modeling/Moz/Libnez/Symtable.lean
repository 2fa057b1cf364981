import Mathlib.Data.Int.Notation
import Mathlib.Data.Nat.Notation

/-!
# The symbol table

`symtable.c` and `token.h`. A token points into the input, whose bytes `byteAt`
gives; a symbol that is looked up is the list of its bytes. Table names are
compared as pointers and are the indices of the names here. `symtable_push` does
not write the token of a mask, which is then what the memory held (`uninit`).
-/

namespace Moz

/-- `token_t`. -/
structure Token where
  s : Option ℕ
  len : UInt32
  deriving DecidableEq, Repr

def tokenInit (s e : ℕ) : Token where
  s := some s
  len := UInt32.ofInt ((e : ℤ) - s)

def Token.bytes (byteAt : ℕ → UInt8) (t : Token) : List UInt8 :=
  (List.range t.len.toNat).map fun i => byteAt (t.s.getD 0 + i)

def tokenEqualString (byteAt : ℕ → UInt8) (t : Token) (s : ℕ) : Bool :=
  (List.range t.len.toNat).all fun i => byteAt (t.s.getD 0 + i) == byteAt (s + i)

def fnv1a (bytes : List UInt8) : UInt32 :=
  bytes.foldl (fun hash b => (b.toUInt32 ^^^ hash) * 0x01000193) 0x811c9dc5

/-- `struct symtable_entry_t`. -/
structure SymEntry where
  state : UInt32
  hash : UInt32
  tag : UInt16
  sym : Token
  deriving DecidableEq, Repr

/-- `struct symtable_t`. -/
structure Symtable where
  state : UInt32 := 0
  table : List SymEntry := []
  deriving DecidableEq, Repr

/-- `symtable_push`, where `sym` is what the entry's token holds. -/
def symtablePush (tbl : Symtable) (tag : UInt16) (hash : UInt32) (sym : Token) : Symtable where
  state := tbl.state + 1
  table := tbl.table ++ [{ state := tbl.state, hash := hash, tag := tag, sym := sym }]

def symtableAddSymbolMask (tbl : Symtable) (tableName : UInt16) (uninit : Token) : Symtable :=
  symtablePush tbl tableName 0 uninit

def symtableAddSymbol (byteAt : ℕ → UInt8) (tbl : Symtable) (tableName : UInt16)
    (captured : Token) : Symtable :=
  symtablePush tbl tableName (fnv1a (captured.bytes byteAt)) captured

def Symtable.entriesOf (tbl : Symtable) (tableName : UInt16) : List SymEntry :=
  tbl.table.reverse.filter fun cur => cur.tag = tableName

def symtableHasSymbol (tbl : Symtable) (tableName : UInt16) : Bool :=
  match tbl.entriesOf tableName with
  | [] => false
  | cur :: _ => cur.sym.s.isSome

def symtableGetSymbol (tbl : Symtable) (tableName : UInt16) : Option Token :=
  ((tbl.entriesOf tableName).find? fun cur => cur.sym.s.isSome).map (·.sym)

/-- The loop of `symtable_contains` over the entries with the name. -/
def symtableContainsLoop (byteAt : ℕ → UInt8) (t : List UInt8) : List SymEntry → Bool
  | [] => false
  | cur :: entries =>
    if cur.sym.s = none then false
    else if fnv1a t = cur.hash ∧ t = cur.sym.bytes byteAt then true
    else symtableContainsLoop byteAt t entries

def symtableContains (byteAt : ℕ → UInt8) (tbl : Symtable) (tableName : UInt16)
    (t : List UInt8) : Bool :=
  symtableContainsLoop byteAt t (tbl.entriesOf tableName)

def symtableSavepoint (tbl : Symtable) : ℕ := tbl.table.length

/-- `symtable_rollback`; a table that is shorter than `saved` would get back stale entries. -/
def symtableRollback (tbl : Symtable) (saved : ℕ) : Option Symtable :=
  if saved ≤ tbl.table.length then some { tbl with table := tbl.table.take saved } else none

end Moz
