import Moz.Compiler.Meaning

/-!
# Literals

`compile_Byte` turns the text of a `Character` node into an expression. A text is
described by its items: a byte that stands for itself, one of the escapes
`parseEscapedChar` knows, or `\x` with two hexadecimal digits. Only the first item
is ever decoded, and a text that begins with an escape becomes the one byte of it;
of the two digits only the second is kept.
-/

namespace Moz.Compiler

open Peg (Exp)

/-- `to_hex`, whose result is an `unsigned`. -/
def toHex (c : UInt8) : UInt32 :=
  if '0'.toUInt8 ≤ c ∧ c ≤ '9'.toUInt8 then c.toUInt32 - '0'.toUInt8.toUInt32
  else if 'a'.toUInt8 ≤ c ∧ c ≤ 'f'.toUInt8 then c.toUInt32 - 'a'.toUInt8.toUInt32 + 10
  else if 'A'.toUInt8 ≤ c ∧ c ≤ 'F'.toUInt8 then c.toUInt32 - 'A'.toUInt8.toUInt32 + 10
  else -1

/-- `c = to_hex(*p++); c = c << 8 | to_hex(*p);` for a `uint8_t c`. -/
def hexByte (p : List UInt8) : UInt8 :=
  let c := (toHex (p.getD 0 0)).toUInt8
  (c.toUInt32 <<< 8 ||| toHex (p.getD 1 0)).toUInt8

/-- The cases of the `switch` that name one character, with what they store. -/
def escapedChars : List (UInt8 × UInt8) :=
  [('\\', '\\'), ('b', '\x08'), ('f', '\x0c'), ('v', '\x0b'), ('n', '\n'), ('r', '\r'),
    ('t', '\t')].map fun (c, out) => (c.toUInt8, out.toUInt8)

/-- `parseEscapedChar`: `none` is the result 0, with nothing stored. -/
def parseEscapedChar (p : List UInt8) : Option UInt8 :=
  if p.getD 0 0 == '\\'.toUInt8 then
    let c := p.getD 1 0
    match escapedChars.lookup c with
    | some out => some out
    | none => if c == 'x'.toUInt8 then some (hexByte (p.drop 2)) else none
  else none

def compileEmpty : Expr := .empty

/-- `compile_Str` on the `len` bytes at `pos`. -/
def compileStr (pos : List UInt8) (len : ℕ) : Expr := .str (pos.take len)

/-- `compile_Byte` on a node whose text is the first `len` bytes of what is at `pos`. -/
def compileByte (pos : List UInt8) (len : ℕ) : Expr :=
  if len = 0 then compileEmpty
  else if len = 1 then .byte (pos.getD 0 0)
  else
    match parseEscapedChar pos with
    | some byte => .byte byte
    | none => compileStr pos len

def IsHex (c : UInt8) : Prop := (toHex c).toNat < 16

instance (c : UInt8) : Decidable (IsHex c) := inferInstanceAs (Decidable (_ < _))

/-- The first digit is shifted out of the `uint8_t`. -/
theorem hexByte_eq (a b : UInt8) (p : List UInt8) :
    hexByte (a :: b :: p) = (toHex b).toUInt8 := by
  apply UInt8.toNat_inj.1
  simp only [hexByte, List.getD_cons_zero, List.getD_cons_succ, UInt32.toNat_toUInt8,
    UInt32.toNat_or, UInt32.toNat_shiftLeft]
  have hshift (n : ℕ) : n <<< 8 % 2 ^ 32 % 2 ^ 8 = 0 := by
    rw [Nat.shiftLeft_eq, Nat.mod_mod_of_dvd _ (by decide : 2 ^ 8 ∣ 2 ^ 32)]
    exact Nat.mul_mod_left n (2 ^ 8)
  rw [Nat.or_mod_two_pow]
  have hdigit := hshift (toHex a).toUInt8.toUInt32.toNat
  simp_all

/-- The value `\x` and two digits stand for. -/
def hexValue (a b : UInt8) : UInt8 := 16 * (toHex a).toUInt8 + (toHex b).toUInt8

theorem hexByte_eq_hexValue {a : UInt8} (ha : IsHex a) (b : UInt8) (p : List UInt8) :
    hexByte (a :: b :: p) = hexValue a b ↔ toHex a = 0 := by
  rw [hexByte_eq, hexValue, ← UInt32.toNat_inj, ← UInt8.toNat_inj]
  unfold IsHex at ha
  simp only [UInt8.toNat_add, UInt8.toNat_mul, UInt32.toNat_toUInt8]
  have hb := (toHex b).toNat_lt
  simp
  omega

inductive LiteralItem
  | raw (c : UInt8) (h : c ≠ '\\'.toUInt8)
  | escape (c out : UInt8) (h : escapedChars.lookup c = some out)
  | hex (a b : UInt8) (ha : IsHex a) (hb : IsHex b)

namespace LiteralItem

def text : LiteralItem → List UInt8
  | raw c _ => [c]
  | escape c _ _ => ['\\'.toUInt8, c]
  | hex a b _ _ => ['\\'.toUInt8, 'x'.toUInt8, a, b]

def value : LiteralItem → UInt8
  | raw c _ => c
  | escape _ out _ => out
  | hex a b _ _ => hexValue a b

def IsRaw : LiteralItem → Prop
  | raw _ _ => True
  | _ => False

end LiteralItem

def literalText (items : List LiteralItem) : List UInt8 := items.flatMap LiteralItem.text

def literalValue (items : List LiteralItem) : List UInt8 := items.map LiteralItem.value

@[simp] theorem literalText_cons (item : LiteralItem) (items : List LiteralItem) :
    literalText (item :: items) = item.text ++ literalText items := by
  simp [literalText]

@[simp] theorem literalValue_cons (item : LiteralItem) (items : List LiteralItem) :
    literalValue (item :: items) = item.value :: literalValue items := by
  simp [literalValue]

theorem length_le_literalText (items : List LiteralItem) :
    items.length ≤ (literalText items).length := by
  induction items with
  | nil => simp
  | cons item items ih =>
    have hitem : 1 ≤ item.text.length := by cases item <;> simp [LiteralItem.text]
    simp only [literalText_cons, List.length_append, List.length_cons]
    omega

/-- A text stands for itself if nothing in it is escaped. -/
theorem literalText_eq_value {items : List LiteralItem} :
    literalText items = literalValue items ↔ ∀ item ∈ items, item.IsRaw := by
  induction items with
  | nil => simp [literalText, literalValue]
  | cons item items ih =>
    cases item with
    | raw c h => simp [LiteralItem.text, LiteralItem.value, LiteralItem.IsRaw, ih]
    | escape c out h =>
      have hlength := length_le_literalText items
      constructor
      · intro heq
        have := congrArg List.length heq
        simp [LiteralItem.text, literalValue] at this
        omega
      · intro hraw
        exact (hraw _ List.mem_cons_self).elim
    | hex a b ha hb =>
      have hlength := length_le_literalText items
      constructor
      · intro heq
        have := congrArg List.length heq
        simp [LiteralItem.text, literalValue] at this
        omega
      · intro hraw
        exact (hraw _ List.mem_cons_self).elim

def compiledWord : List LiteralItem → List UInt8
  | [] => []
  | .raw c h :: items => literalText (.raw c h :: items)
  | .escape _ out _ :: _ => [out]
  | .hex _ b _ _ :: _ => [(toHex b).toUInt8]

theorem compileByte_word (items : List LiteralItem) (after : List UInt8) :
    Exp.Equiv (compileByte (literalText items ++ after) (literalText items).length).peg
      (Exp.word (compiledWord items)) := by
  cases items with
  | nil => exact empty_peg
  | cons item items =>
    cases item with
    | raw c h =>
      cases hrest : literalText items with
      | nil => simpa [compileByte, LiteralItem.text, compiledWord, hrest] using byte_peg c
      | cons d rest =>
        have hparse : parseEscapedChar (c :: d :: (rest ++ after)) = none := by
          simp [parseEscapedChar, h]
        simpa [compileByte, LiteralItem.text, compiledWord, hrest, hparse, compileStr]
          using str_peg (c :: d :: rest)
    | escape c out h =>
      have hparse : parseEscapedChar ('\\'.toUInt8 :: c :: (literalText items ++ after)) =
          some out := by
        simp [parseEscapedChar, h]
      simpa [compileByte, LiteralItem.text, compiledWord, hparse] using byte_peg out
    | hex a b ha hb =>
      have hparse : parseEscapedChar
          ('\\'.toUInt8 :: 'x'.toUInt8 :: a :: b :: (literalText items ++ after)) =
          some (toHex b).toUInt8 := by
        have hx : escapedChars.lookup 'x'.toUInt8 = none := by decide
        simp [parseEscapedChar, hx, hexByte_eq]
      simpa [compileByte, LiteralItem.text, compiledWord, hparse]
        using byte_peg (toHex b).toUInt8

/-- Nothing is escaped, or there is one escape and no first digit is lost. -/
def LiteralKept : List LiteralItem → Prop
  | [.escape _ _ _] => True
  | [.hex a _ _ _] => toHex a = 0
  | items => ∀ item ∈ items, item.IsRaw

theorem compiledWord_eq_value (items : List LiteralItem) :
    compiledWord items = literalValue items ↔ LiteralKept items := by
  cases items with
  | nil => simp [compiledWord, literalValue, LiteralKept]
  | cons item items =>
    cases item with
    | raw c h => exact literalText_eq_value
    | escape c out h =>
      cases items with
      | nil => simp [compiledWord, literalValue, LiteralKept, LiteralItem.value]
      | cons item items =>
        simp [compiledWord, literalValue, LiteralKept, LiteralItem.IsRaw]
    | hex a b ha hb =>
      cases items with
      | nil =>
        have hkept := hexByte_eq_hexValue ha b []
        rw [hexByte_eq] at hkept
        simpa [compiledWord, literalValue, LiteralKept, LiteralItem.value] using hkept
      | cons item items =>
        simp [compiledWord, literalValue, LiteralKept, LiteralItem.IsRaw]

/-- A literal matches the byte string it stands for exactly if no escape in it is lost. -/
theorem literal_exact (items : List LiteralItem) (after : List UInt8) :
    MatchesWord (compileByte (literalText items ++ after) (literalText items).length)
      (literalValue items) ↔ LiteralKept items := by
  rw [matchesWord_iff (compileByte_word items after), compiledWord_eq_value]

/-- The literal `\na`. -/
def lineFeedThenA : List LiteralItem :=
  [.escape 'n'.toUInt8 '\n'.toUInt8 (by decide), .raw 'a'.toUInt8 (by decide)]

/-- The `a` after the line feed is lost. -/
theorem literal_lost :
    ¬MatchesWord (compileByte (literalText lineFeedThenA ++ []) (literalText lineFeedThenA).length)
      (literalValue lineFeedThenA) := by
  have hne : compiledWord lineFeedThenA ≠ literalValue lineFeedThenA := by decide
  intro h
  exact hne ((matchesWord_iff (compileByte_word _ [])).1 h)

end Moz.Compiler
