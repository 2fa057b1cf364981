import Mathlib.Tactic
import Moz.Compiler.Expression
import Moz.Libnez.Symtable

/-!
# The parts of a runtime that a run does not change

The input and the constant pools. A position is the distance from `head`. The
input is followed by zeros; no run of a C program may rely on more than the first
of them, and an instruction that loops past the end never stops here.
-/

namespace Moz

open Compiler (Bitset bitsetGet)

/-- `jump_table1_t`. -/
structure JumpTable1 where
  b0 : Bitset
  jumps : List ℤ

def jumpTable1Jump (tbl : JumpTable1) (ch : UInt8) : Option ℤ :=
  let idx0 := if bitsetGet tbl.b0 ch then 1 else 0
  tbl.jumps[idx0]?

/-- `jump_table2_t`. -/
structure JumpTable2 where
  b0 : Bitset
  b1 : Bitset
  jumps : List ℤ

def jumpTable2Jump (tbl : JumpTable2) (ch : UInt8) : Option ℤ :=
  let idx0 := if bitsetGet tbl.b0 ch then 1 else 0
  let idx1 := if bitsetGet tbl.b1 ch then 1 else 0
  tbl.jumps[idx1 * 2 + idx0]?

/-- `jump_table3_t`. -/
structure JumpTable3 where
  b0 : Bitset
  b1 : Bitset
  b2 : Bitset
  jumps : List ℤ

def jumpTable3Jump (tbl : JumpTable3) (ch : UInt8) : Option ℤ :=
  let idx0 := if bitsetGet tbl.b0 ch then 1 else 0
  let idx1 := if bitsetGet tbl.b1 ch then 1 else 0
  let idx2 := if bitsetGet tbl.b2 ch then 1 else 0
  tbl.jumps[idx2 * 4 + idx1 * 2 + idx0]?

/-- How a matching instruction ends: at a position, by `FAIL`, or in no defined way. -/
inductive Effect
  | next (current : ℕ)
  | fail
  | stuck
  deriving DecidableEq, Repr

/-- The input and the constants of `moz_runtime_t`. -/
structure Runtime where
  input : List UInt8
  head : UInt64 := 0
  strs : List (List UInt8) := []
  sets : List Bitset := []
  tags : List (List UInt8) := []
  tables : List (List UInt8) := []
  jumps : List (List ℤ) := []
  jumps1 : List JumpTable1 := []
  jumps2 : List JumpTable2 := []
  jumps3 : List JumpTable3 := []
  /-- whether plain `char` is signed on the target -/
  charSigned : Bool := true
  /-- what the token of a new mask entry holds -/
  uninit : Symtable → Token := fun _ => { s := none, len := 0 }

namespace Runtime

variable (R : Runtime)

def tail : ℕ := R.input.length

/-- `*CURRENT`. -/
def byteAt (current : ℕ) : UInt8 := (R.input[current]?).getD 0

/-- `*CURRENT` as a plain `char`. -/
def charAt (current : ℕ) : ℤ :=
  if R.charSigned then (R.byteAt current).toInt8.toInt else (R.byteAt current).toNat

def eos (current : ℕ) : Bool := current == R.tail

/-- `pstring_starts_with`. -/
def startsWith (current : ℕ) : List UInt8 → Bool
  | [] => true
  | c :: text => R.byteAt current == c && startsWith (current + 1) text

end Runtime

/-- `if (!match) { FAIL(); } CONSUME_N(width);` -/
def accept (test : ℕ → Option (Bool × ℕ)) (current : ℕ) : Effect :=
  match test current with
  | some (true, width) => .next (current + width)
  | some (false, _) => .fail
  | none => .stuck

/-- `if (match) { FAIL(); }` -/
def reject (test : ℕ → Option (Bool × ℕ)) (current : ℕ) : Effect :=
  match test current with
  | some (true, _) => .fail
  | some (false, _) => .next current
  | none => .stuck

/-- `if (match) { CONSUME_N(width); }` -/
def acceptOption (test : ℕ → Option (Bool × ℕ)) (current : ℕ) : Option ℕ :=
  match test current with
  | some (true, width) => some (current + width)
  | some (false, _) => some current
  | none => none

/-- `while (match) { CONSUME_N(width); }`, for at most `fuel` tests. -/
def acceptLoop (test : ℕ → Option (Bool × ℕ)) : ℕ → ℕ → Option ℕ
  | 0, _ => none
  | fuel + 1, current =>
    match test current with
    | some (true, width) => acceptLoop test fuel (current + width)
    | some (false, _) => some current
    | none => none

/-- The loop, with enough tests to leave the input: past its end all bytes are the same, and the
loop never stops. -/
def acceptWhile (R : Runtime) (test : ℕ → Option (Bool × ℕ)) (current : ℕ) : Option ℕ :=
  acceptLoop test (R.tail + 2) current

def moved : Option ℕ → Effect
  | some current => .next current
  | none => .stuck

section Forward

variable {R : Runtime} {test : ℕ → Option (Bool × ℕ)} {current stop : ℕ}

theorem accept_le (h : accept test current = .next stop) : current ≤ stop := by
  unfold accept at h
  split at h
  · cases h
    exact Nat.le_add_right _ _
  · cases h
  · cases h

theorem reject_eq (h : reject test current = .next stop) : current = stop := by
  unfold reject at h
  split at h
  · cases h
  · cases h
    rfl
  · cases h

theorem acceptOption_le (h : acceptOption test current = some stop) : current ≤ stop := by
  unfold acceptOption at h
  split at h
  · cases h
    exact Nat.le_add_right _ _
  · cases h
    exact le_rfl
  · cases h

theorem acceptLoop_le {fuel : ℕ} (h : acceptLoop test fuel current = some stop) :
    current ≤ stop := by
  induction fuel generalizing current with
  | zero => cases h
  | succ fuel ih =>
    rw [acceptLoop] at h
    split at h
    · exact (Nat.le_add_right _ _).trans (ih h)
    · cases h
      exact le_rfl
    · cases h

theorem acceptWhile_le (h : acceptWhile R test current = some stop) : current ≤ stop :=
  acceptLoop_le h

end Forward

end Moz
