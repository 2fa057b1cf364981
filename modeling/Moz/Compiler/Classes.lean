import Moz.Compiler.Literals

/-!
# Character classes

`compile_Set` reads the ends of the items with `parseClass`, orders them and lets
`moz_expr_new_Set` put every value of every item into a bitset. A value is at most
`0xffff`; the bitset has 256 bits, and a bit from 256 on is written behind it. The
checks are assertions, which a build with `NDEBUG` does not have.
-/

namespace Moz.Compiler

open Peg (Exp)

/-- How the compilation of a class ends without an expression. -/
inductive ClassError
  | assertFailed
  | outOfBounds
  deriving DecidableEq, Repr

/-- `assert` in a build with or without `NDEBUG`. -/
def cAssert (ndebug : Bool) (cond : Prop) [Decidable cond] : Except ClassError Unit :=
  if ndebug ∨ cond then .ok () else .error .assertFailed

def parseUnicode4 (p : List UInt8) : UInt32 :=
  toHex (p.getD 0 0) * 4096 + toHex (p.getD 1 0) * 256 + toHex (p.getD 2 0) * 16 +
    toHex (p.getD 3 0) * 1

/-- The cases of the `switch` of `parseClass` that name one character. -/
def classChars : List (UInt8 × UInt8) :=
  ('-'.toUInt8, '-'.toUInt8) :: (']'.toUInt8, ']'.toUInt8) :: escapedChars

/-- `parseClass`; an unknown escape stands for its second byte. -/
def parseClass (p : List UInt8) : UInt32 :=
  let c := p.getD 0 0
  if c == '\\'.toUInt8 then
    let c := p.getD 1 0
    match classChars.lookup c with
    | some out => out.toUInt32
    | none =>
      if c == 'x'.toUInt8 then (hexByte (p.drop 2)).toUInt32
      else if c == 'u'.toUInt8 then parseUnicode4 (p.drop 2)
      else c.toUInt32
  else c.toUInt32

/-- A child of the node of a class, by its tag; the bytes are those from `pos` on. -/
inductive ClassNode
  | cls (pos : List UInt8)
  | list (left right : List UInt8)
  deriving DecidableEq, Repr

/-- `data[i * 2 + 0]` and `data[i * 2 + 1]` for a child. -/
def ClassNode.data : ClassNode → UInt32 × UInt32
  | .cls pos => (parseClass pos, parseClass pos)
  | .list left right =>
    let ch1 := parseClass left
    let ch2 := parseClass right
    if ch1 > ch2 then (ch2, ch1) else (ch1, ch2)

/-- `bitset_set`, which writes outside of `data` for an index from 256 on. -/
def bitsetSet (set : Bitset) (index : ℕ) : Except ClassError Bitset :=
  if index < 256 then .ok (set ||| 1#256 <<< index) else .error .outOfBounds

/-- `for (; ch1 <= ch2; ch1++)` with the number of rounds left. -/
def bitsetSetRange (set : Bitset) (ch1 : ℕ) : ℕ → Except ClassError Bitset
  | 0 => .ok set
  | rounds + 1 => do
    let set ← bitsetSet set ch1
    bitsetSetRange set (ch1 + 1) rounds

/-- The loop of `moz_expr_new_Set` over what is left of `data`. -/
def mozExprNewSetLoop (ndebug : Bool) : List (UInt32 × UInt32) → Bitset → Except ClassError Bitset
  | [], set => .ok set
  | (ch1, ch2) :: data, set => do
    cAssert ndebug (¬(ch1 > 256 ∨ ch2 > 256))
    let set ← bitsetSetRange set ch1.toNat (ch2.toNat + 1 - ch1.toNat)
    mozExprNewSetLoop ndebug data set

def mozExprNewSet (ndebug : Bool) (data : List (UInt32 × UInt32)) : Except ClassError Expr := do
  let set ← mozExprNewSetLoop ndebug data 0
  return .set set

def compileSet (ndebug : Bool) (nodes : List ClassNode) : Except ClassError Expr := do
  cAssert ndebug (0 < nodes.length)
  match nodes.map ClassNode.data with
  | [(ch1, ch2)] =>
    if ch1 = ch2 then
      if ch1 < 256 then return .byte ch1.toUInt8
      cAssert ndebug False
    mozExprNewSet ndebug [(ch1, ch2)]
  | data => mozExprNewSet ndebug data

inductive ClassChar
  | raw (c : UInt8) (h : c ≠ '\\'.toUInt8)
  | escape (c out : UInt8) (h : classChars.lookup c = some out)
  | hex (a b : UInt8) (ha : IsHex a) (hb : IsHex b)
  | unicode (a b c d : UInt8) (ha : IsHex a) (hb : IsHex b) (hc : IsHex c) (hd : IsHex d)

namespace ClassChar

def text : ClassChar → List UInt8
  | raw c _ => [c]
  | escape c _ _ => ['\\'.toUInt8, c]
  | hex a b _ _ => ['\\'.toUInt8, 'x'.toUInt8, a, b]
  | unicode a b c d _ _ _ _ => ['\\'.toUInt8, 'u'.toUInt8, a, b, c, d]

def value : ClassChar → ℕ
  | raw c _ => c.toNat
  | escape _ out _ => out.toNat
  | hex a b _ _ => 16 * (toHex a).toNat + (toHex b).toNat
  | unicode a b c d _ _ _ _ =>
    4096 * (toHex a).toNat + 256 * (toHex b).toNat + 16 * (toHex c).toNat + (toHex d).toNat

/-- The end with the first of the two digits of `\x` replaced by `0`. -/
def shorten : ClassChar → ClassChar
  | hex _ b _ hb => hex '0'.toUInt8 b (by decide) hb
  | char => char

theorem parseClass_text (char : ClassChar) (after : List UInt8) :
    (parseClass (char.text ++ after)).toNat = char.shorten.value := by
  cases char with
  | raw c h => simp [parseClass, text, value, shorten, h]
  | escape c out h => simp [parseClass, text, value, shorten, h]
  | hex a b ha hb =>
    have hx : classChars.lookup 'x'.toUInt8 = none := by decide
    have hzero : toHex '0'.toUInt8 = 0 := by decide
    have hb' : (toHex b).toNat < 256 := Nat.lt_trans hb (by decide)
    simp [parseClass, text, value, shorten, hx, hexByte_eq, hzero, Nat.mod_eq_of_lt hb']
  | unicode a b c d ha hb hc hd =>
    have hu : classChars.lookup 'u'.toUInt8 = none := by decide
    have hux : ¬ 'u'.toUInt8 = 'x'.toUInt8 := by decide
    unfold IsHex at ha hb hc hd
    simp [parseClass, text, value, shorten, hu, hux, parseUnicode4]
    omega

/-- Only the escape `\x` is read wrong, and its value is below 256. -/
theorem shorten_value (char : ClassChar) :
    char.shorten.value = char.value ∨ char.shorten.value < 256 ∧ char.value < 256 := by
  cases char with
  | raw c h => exact .inl rfl
  | escape c out h => exact .inl rfl
  | hex a b ha hb =>
    have hzero : (toHex '0'.toUInt8).toNat = 0 := by decide
    unfold IsHex at ha hb
    simp only [shorten, value, hzero]
    omega
  | unicode a b c d ha hb hc hd => exact .inl rfl

end ClassChar

/-- An end in the text of the grammar, with what comes after it there. -/
structure ClassEnd where
  char : ClassChar
  after : List UInt8

def ClassEnd.pos (ch : ClassEnd) : List UInt8 := ch.char.text ++ ch.after

def ClassEnd.shorten (ch : ClassEnd) : ClassEnd := { ch with char := ch.char.shorten }

theorem ClassEnd.parseClass_pos (ch : ClassEnd) :
    (parseClass ch.pos).toNat = ch.char.shorten.value :=
  ch.char.parseClass_text ch.after

/-- A single character or a range with its ends in either order. -/
inductive ClassItem
  | single (ch : ClassEnd)
  | range (left right : ClassEnd)

namespace ClassItem

def node : ClassItem → ClassNode
  | single ch => .cls ch.pos
  | range left right => .list left.pos right.pos

def shorten : ClassItem → ClassItem
  | single ch => single ch.shorten
  | range left right => range left.shorten right.shorten

def lower : ClassItem → ℕ
  | single ch => ch.char.value
  | range left right => min left.char.value right.char.value

def upper : ClassItem → ℕ
  | single ch => ch.char.value
  | range left right => max left.char.value right.char.value

def Has (item : ClassItem) (b : UInt8) : Prop := item.lower ≤ b.toNat ∧ b.toNat ≤ item.upper

theorem lower_le_upper (item : ClassItem) : item.lower ≤ item.upper := by
  cases item with
  | single ch => exact le_refl ch.char.value
  | range left right => exact min_le_max

theorem node_data (item : ClassItem) :
    item.node.data.1.toNat = item.shorten.lower ∧ item.node.data.2.toNat = item.shorten.upper := by
  cases item with
  | single ch => exact ⟨ch.parseClass_pos, ch.parseClass_pos⟩
  | range left right =>
    have hleft := left.parseClass_pos
    have hright := right.parseClass_pos
    simp only [node, ClassNode.data, shorten, lower, upper, ClassEnd.shorten]
    split <;> next h =>
      simp only [gt_iff_lt, UInt32.lt_iff_toNat_lt] at h
      simp only [hleft, hright] at h ⊢
      omega

theorem shorten_upper (item : ClassItem) :
    item.shorten.upper = item.upper ∨ item.shorten.upper < 256 ∧ item.upper < 256 := by
  cases item with
  | single ch => exact ch.char.shorten_value
  | range left right =>
    have hleft := left.char.shorten_value
    have hright := right.char.shorten_value
    simp only [shorten, upper, ClassEnd.shorten]
    omega

theorem shorten_lower (item : ClassItem) :
    item.shorten.lower = item.lower ∨ item.shorten.lower < 256 ∧ item.lower < 256 := by
  cases item with
  | single ch => exact ch.char.shorten_value
  | range left right =>
    have hleft := left.char.shorten_value
    have hright := right.char.shorten_value
    simp only [shorten, lower, ClassEnd.shorten]
    omega

end ClassItem

theorem bitsetSetRange_ok (set : Bitset) (ch1 rounds : ℕ) (h : ch1 + rounds ≤ 256) :
    ∃ set', bitsetSetRange set ch1 rounds = .ok set' ∧
      ∀ i, set'.getLsbD i = (set.getLsbD i || decide (ch1 ≤ i ∧ i < ch1 + rounds)) := by
  induction rounds generalizing set ch1 with
  | zero => exact ⟨set, rfl, fun i => by simp⟩
  | succ rounds ih =>
    obtain ⟨set', hrange, hbits⟩ := ih (set ||| 1#256 <<< ch1) (ch1 + 1) (by omega)
    refine ⟨set', ?_, fun i => ?_⟩
    · have hset : bitsetSet set ch1 = .ok (set ||| 1#256 <<< ch1) := if_pos (by omega)
      simp only [bitsetSetRange, hset]
      exact hrange
    · rw [hbits i]
      rw [getLsbD_setBit set (by omega) i, Bool.or_assoc, ← Bool.decide_or]
      congr 2
      apply propext
      omega

theorem bitsetSetRange_outOfBounds (set : Bitset) (ch1 rounds : ℕ) (h : 256 < ch1 + rounds)
    (hrounds : 0 < rounds) : bitsetSetRange set ch1 rounds = .error .outOfBounds := by
  induction rounds generalizing set ch1 with
  | zero => omega
  | succ rounds ih =>
    by_cases hch1 : ch1 < 256
    · have hset : bitsetSet set ch1 = .ok (set ||| 1#256 <<< ch1) := if_pos hch1
      simp only [bitsetSetRange, hset]
      exact ih _ _ (by omega) (by omega)
    · have hset : bitsetSet set ch1 = .error .outOfBounds := if_neg hch1
      simp only [bitsetSetRange, hset]
      rfl

/-- The values in the ranges of `data`. -/
def InData (data : List (UInt32 × UInt32)) (i : ℕ) : Prop :=
  ∃ range ∈ data, range.1.toNat ≤ i ∧ i ≤ range.2.toNat

/-- Where every range ends below 256, the bitset is their union. -/
theorem mozExprNewSetLoop_ok (ndebug : Bool) (data : List (UInt32 × UInt32)) (set : Bitset)
    (h : ∀ range ∈ data, range.1.toNat ≤ range.2.toNat ∧ range.2.toNat < 256) :
    ∃ set', mozExprNewSetLoop ndebug data set = .ok set' ∧
      ∀ i, set'.getLsbD i = true ↔ set.getLsbD i = true ∨ InData data i := by
  induction data generalizing set with
  | nil => exact ⟨set, rfl, fun i => by simp [InData]⟩
  | cons range data ih =>
    obtain ⟨ch1, ch2⟩ := range
    obtain ⟨hle, hlt⟩ := h _ List.mem_cons_self
    simp only at hle hlt
    obtain ⟨set₁, hrange, hbits₁⟩ :=
      bitsetSetRange_ok set ch1.toNat (ch2.toNat + 1 - ch1.toNat) (by omega)
    obtain ⟨set', hloop, hbits⟩ := ih set₁ fun range hrange => h range (List.mem_cons_of_mem _ hrange)
    refine ⟨set', ?_, fun i => ?_⟩
    · have hassert : cAssert ndebug (¬(ch1 > 256 ∨ ch2 > 256)) = .ok () := by
        apply if_pos
        simp only [gt_iff_lt, UInt32.lt_iff_toNat_lt, UInt32.reduceToNat]
        omega
      simp only [mozExprNewSetLoop, hassert, hrange]
      exact hloop
    · rw [hbits i, hbits₁ i]
      simp only [InData, List.mem_cons, exists_eq_or_imp, Bool.or_eq_true, decide_eq_true_eq]
      constructor
      · rintro ((hset | hin) | hin)
        · exact .inl hset
        · exact .inr (.inl (by omega))
        · exact .inr (.inr hin)
      · rintro (hset | hin | hin)
        · exact .inl (.inl hset)
        · exact .inl (.inr (by omega))
        · exact .inr hin

/-- The first range that goes up to 256 or further ends the loop: with the assertion, or with
a write behind the bitset. -/
theorem mozExprNewSetLoop_error (ndebug : Bool) {data : List (UInt32 × UInt32)}
    (rest : List (UInt32 × UInt32)) {ch1 ch2 : UInt32} (set : Bitset)
    (h : ∀ range ∈ data, range.1.toNat ≤ range.2.toNat ∧ range.2.toNat < 256)
    (hle : ch1.toNat ≤ ch2.toNat) (hlt : 256 ≤ ch2.toNat) :
    mozExprNewSetLoop ndebug (data ++ (ch1, ch2) :: rest) set =
      .error (if ndebug = false ∧ 256 < ch2.toNat then .assertFailed else .outOfBounds) := by
  induction data generalizing set with
  | nil =>
    have hwrite : bitsetSetRange set ch1.toNat (ch2.toNat + 1 - ch1.toNat) = .error .outOfBounds :=
      bitsetSetRange_outOfBounds set _ _ (by omega) (by omega)
    by_cases hassert : ndebug = false ∧ 256 < ch2.toNat
    · have hfails : cAssert ndebug (¬(ch1 > 256 ∨ ch2 > 256)) = .error .assertFailed := by
        apply if_neg
        simp only [gt_iff_lt, UInt32.lt_iff_toNat_lt, UInt32.reduceToNat, hassert.1]
        simp [hassert.2]
      simp only [List.nil_append, mozExprNewSetLoop, hfails, if_pos hassert]
      rfl
    · have hholds : cAssert ndebug (¬(ch1 > 256 ∨ ch2 > 256)) = .ok () := by
        apply if_pos
        simp only [gt_iff_lt, UInt32.lt_iff_toNat_lt, UInt32.reduceToNat]
        cases ndebug with
        | true => exact .inl rfl
        | false =>
          right
          simp only [true_and] at hassert
          omega
      simp only [List.nil_append, mozExprNewSetLoop, hholds, hwrite, if_neg hassert]
      rfl
  | cons range data ih =>
    obtain ⟨ch1', ch2'⟩ := range
    obtain ⟨hle', hlt'⟩ := h _ List.mem_cons_self
    simp only at hle' hlt'
    obtain ⟨set₁, hrange, -⟩ :=
      bitsetSetRange_ok set ch1'.toNat (ch2'.toNat + 1 - ch1'.toNat) (by omega)
    have hholds : cAssert ndebug (¬(ch1' > 256 ∨ ch2' > 256)) = .ok () := by
      apply if_pos
      simp only [gt_iff_lt, UInt32.lt_iff_toNat_lt, UInt32.reduceToNat]
      omega
    simp only [List.cons_append, mozExprNewSetLoop, hholds, hrange]
    exact ih set₁ fun range hrange => h range (List.mem_cons_of_mem _ hrange)

theorem mozExprNewSet_ok (ndebug : Bool) (data : List (UInt32 × UInt32))
    (h : ∀ range ∈ data, range.1.toNat ≤ range.2.toNat ∧ range.2.toNat < 256) :
    ∃ e, mozExprNewSet ndebug data = .ok e ∧ MatchesBytes e fun b => InData data b.toNat := by
  obtain ⟨set, hloop, hbits⟩ := mozExprNewSetLoop_ok ndebug data 0 h
  refine ⟨.set set, ?_, ?_⟩
  · simp only [mozExprNewSet, hloop]
    rfl
  · have hpeg : (Expr.set set).peg = .one (bitsetGet set) := by simp only [Expr.peg]
    rw [matchesBytes_iff hpeg]
    intro b
    simpa [bitsetGet] using hbits b.toNat

theorem items_data {items : List ClassItem} (h : ∀ item ∈ items, item.upper < 256) :
    ∀ range ∈ (items.map ClassItem.node).map ClassNode.data,
      range.1.toNat ≤ range.2.toNat ∧ range.2.toNat < 256 := by
  intro range hrange
  simp only [List.map_map, List.mem_map, Function.comp_apply] at hrange
  obtain ⟨item, hitem, rfl⟩ := hrange
  rw [item.node_data.1, item.node_data.2]
  have hupper := item.shorten_upper
  have := h item hitem
  exact ⟨item.shorten.lower_le_upper, by omega⟩

theorem inData_items (items : List ClassItem) (b : UInt8) :
    InData ((items.map ClassItem.node).map ClassNode.data) b.toNat ↔
      ∃ item ∈ items, item.shorten.Has b := by
  simp only [InData, List.map_map, List.mem_map, Function.comp_apply, ClassItem.Has]
  constructor
  · rintro ⟨_, ⟨item, hitem, rfl⟩, hlower, hupper⟩
    rw [item.node_data.1] at hlower
    rw [item.node_data.2] at hupper
    exact ⟨item, hitem, hlower, hupper⟩
  · rintro ⟨item, hitem, hlower, hupper⟩
    rw [← item.node_data.1] at hlower
    rw [← item.node_data.2] at hupper
    exact ⟨_, ⟨item, hitem, rfl⟩, hlower, hupper⟩

theorem compileSet_one (ndebug : Bool) (node : ClassNode) : compileSet ndebug [node] =
    if node.data.1 = node.data.2 ∧ node.data.1 < 256 then .ok (.byte node.data.1.toUInt8)
    else if node.data.1 = node.data.2 ∧ ndebug = false then .error .assertFailed
    else mozExprNewSet ndebug [node.data] := by
  have hassert : cAssert ndebug (0 < [node].length) = .ok () := if_pos (.inr (by simp))
  simp only [compileSet, hassert, List.map_cons, List.map_nil]
  by_cases heq : node.data.1 = node.data.2
  · by_cases hlt : node.data.1 < 256
    · rw [if_pos heq, if_pos hlt, if_pos ⟨heq, hlt⟩]
      rfl
    · rw [if_pos heq, if_neg hlt, if_neg (fun h => hlt h.2)]
      cases ndebug with
      | true =>
        rw [if_neg (fun h => Bool.noConfusion h.2)]
        rfl
      | false =>
        rw [if_pos ⟨heq, rfl⟩]
        rfl
  · rw [if_neg heq, if_neg (fun h => heq h.1), if_neg (fun h => heq h.1)]
    rfl

theorem compileSet_many (ndebug : Bool) (node node' : ClassNode) (nodes : List ClassNode) :
    compileSet ndebug (node :: node' :: nodes) =
      mozExprNewSet ndebug ((node :: node' :: nodes).map ClassNode.data) := by
  have hassert : cAssert ndebug (0 < (node :: node' :: nodes).length) = .ok () :=
    if_pos (.inr (by simp))
  simp only [compileSet, hassert]
  rfl

/-- A class without a value from 256 on becomes the union of its items as they are read. -/
theorem compileSet_ok (ndebug : Bool) {items : List ClassItem} (hne : items ≠ [])
    (h : ∀ item ∈ items, item.upper < 256) :
    ∃ e, compileSet ndebug (items.map ClassItem.node) = .ok e ∧
      MatchesBytes e fun b => ∃ item ∈ items, item.shorten.Has b := by
  obtain ⟨e, hnew, hmatch⟩ := mozExprNewSet_ok ndebug _ (items_data h)
  simp only [inData_items] at hmatch
  cases items with
  | nil => exact absurd rfl hne
  | cons item items =>
    cases items with
    | cons item' items => exact ⟨e, (compileSet_many ndebug _ _ _).trans hnew, hmatch⟩
    | nil =>
      have hdata := items_data h item.node.data (by simp)
      have hlt : item.node.data.1 < 256 := by
        rw [UInt32.lt_iff_toNat_lt]
        exact Nat.lt_of_le_of_lt hdata.1 hdata.2
      by_cases heq : item.node.data.1 = item.node.data.2
      · refine ⟨.byte item.node.data.1.toUInt8, ?_, ?_⟩
        · rw [List.map_singleton, compileSet_one, if_pos ⟨heq, hlt⟩]
        · have hpeg : (Expr.byte item.node.data.1.toUInt8).peg =
              .one (· == item.node.data.1.toUInt8) := by
            simp only [Expr.peg]
          rw [matchesBytes_iff hpeg]
          intro b
          rw [beq_iff_eq, ← UInt8.toNat_inj, ← inData_items [item] b]
          rw [UInt32.lt_iff_toNat_lt] at hlt
          simp only [UInt32.reduceToNat] at hlt
          simp only [InData, List.map_singleton, List.mem_singleton, exists_eq_left, ← heq,
            UInt32.toNat_toUInt8]
          omega
      · refine ⟨e, ?_, hmatch⟩
        rw [List.map_singleton, compileSet_one, if_neg (fun h => heq h.1), if_neg (fun h => heq h.1)]
        exact hnew

/-- The first item with a value from 256 on decides how the compilation ends. -/
theorem compileSet_error (ndebug : Bool) {items : List ClassItem} {item : ClassItem}
    (hfind : items.find? (fun item => decide (256 ≤ item.upper)) = some item) :
    compileSet ndebug (items.map ClassItem.node) =
      .error (if ndebug = false ∧
          (256 < item.upper ∨ items.length = 1 ∧ item.lower = item.upper) then
        .assertFailed else .outOfBounds) := by
  obtain ⟨hupper, before, rest, rfl, hbefore⟩ := List.find?_eq_some_iff_append.1 hfind
  simp only [decide_eq_true_eq] at hupper
  have hread : item.shorten.upper = item.upper := by
    have := item.shorten_upper
    omega
  have hdata := item.node_data
  have hle : item.node.data.1.toNat ≤ item.node.data.2.toNat := by
    rw [hdata.1, hdata.2]
    exact item.shorten.lower_le_upper
  have hlt : 256 ≤ item.node.data.2.toNat := by
    rw [hdata.2, hread]
    exact hupper
  have hnew : mozExprNewSet ndebug
      (((before ++ item :: rest).map ClassItem.node).map ClassNode.data) =
      .error (if ndebug = false ∧ 256 < item.upper then .assertFailed else .outOfBounds) := by
    have hsmall : ∀ item ∈ before, item.upper < 256 := by
      intro item hitem
      simpa using hbefore item hitem
    have herror := mozExprNewSetLoop_error ndebug
      ((rest.map ClassItem.node).map ClassNode.data) 0 (items_data hsmall) hle hlt
    rw [hdata.2, hread] at herror
    simp only [mozExprNewSet, List.map_append, List.map_cons]
    rw [herror]
    rfl
  by_cases hone : (before ++ item :: rest).length = 1
  · have hnil : before = [] ∧ rest = [] := by
      simp only [List.length_append, List.length_cons] at hone
      exact ⟨List.length_eq_zero_iff.1 (by omega), List.length_eq_zero_iff.1 (by omega)⟩
    obtain ⟨rfl, rfl⟩ := hnil
    have hends : item.node.data.1 = item.node.data.2 ↔ item.lower = item.upper := by
      rw [← UInt32.toNat_inj, hdata.1, hdata.2, hread]
      have := item.shorten_lower
      omega
    have hbyte : ¬(item.node.data.1 = item.node.data.2 ∧ item.node.data.1 < 256) := by
      rintro ⟨heq, hlt'⟩
      rw [heq, UInt32.lt_iff_toNat_lt] at hlt'
      exact absurd hlt' (Nat.not_lt.2 hlt)
    simp only [List.nil_append, List.map_cons, List.map_nil] at hnew ⊢
    rw [compileSet_one, if_neg hbyte, hnew]
    by_cases heq : item.lower = item.upper <;> cases ndebug <;> simp [hends, heq]
  · have hmany : compileSet ndebug ((before ++ item :: rest).map ClassItem.node) =
        mozExprNewSet ndebug (((before ++ item :: rest).map ClassItem.node).map ClassNode.data) := by
      cases hitems : before ++ item :: rest with
      | nil => simp at hitems
      | cons first items =>
        cases items with
        | nil => simp [hitems] at hone
        | cons second items => exact compileSet_many ndebug _ _ _
    rw [hmany, hnew]
    simp only [hone, false_and, or_false]

/-- The class matches what its items denote, and an item with a value from 256 on is rejected. -/
def ClassExact (ndebug : Bool) (items : List ClassItem) : Prop :=
  ((∀ item ∈ items, item.upper < 256) →
    ∃ e, compileSet ndebug (items.map ClassItem.node) = .ok e ∧
      MatchesBytes e fun b => ∃ item ∈ items, item.Has b) ∧
  ((∃ item ∈ items, 256 ≤ item.upper) →
    compileSet ndebug (items.map ClassItem.node) = .error .assertFailed)

/-- The first digits of `\x` make no difference. -/
def DigitsKept (items : List ClassItem) : Prop :=
  ∀ b : UInt8, (∃ item ∈ items, item.shorten.Has b) ↔ ∃ item ∈ items, item.Has b

/-- There are assertions, and the first item with a value from 256 on has one beyond 256 or is the
only item and holds no other. -/
def Rejected (ndebug : Bool) (items : List ClassItem) : Prop :=
  ∀ item, items.find? (fun item => decide (256 ≤ item.upper)) = some item →
    ndebug = false ∧ (256 < item.upper ∨ items.length = 1 ∧ item.lower = item.upper)

theorem class_exact (ndebug : Bool) {items : List ClassItem} (hne : items ≠ []) :
    ClassExact ndebug items ↔
      ((∀ item ∈ items, item.upper < 256) → DigitsKept items) ∧ Rejected ndebug items := by
  apply and_congr
  · apply forall_congr'
    intro hsmall
    obtain ⟨e, hok, hread⟩ := compileSet_ok ndebug hne hsmall
    constructor
    · rintro ⟨e', hok', hmatch⟩
      obtain rfl : e = e' := Except.ok.inj (hok.symm.trans hok')
      intro b
      exact hread.unique hmatch b
    · intro hkept
      refine ⟨e, hok, ?_⟩
      rwa [← funext fun b => propext (hkept b)]
  · constructor
    · intro hrejects item hfind
      have hupper : 256 ≤ item.upper := by simpa using List.find?_some hfind
      have herror := hrejects ⟨item, List.mem_of_find?_eq_some hfind, hupper⟩
      rw [compileSet_error ndebug hfind] at herror
      by_contra hnot
      rw [if_neg hnot] at herror
      cases herror
    · rintro hrejected ⟨item, hitem, hupper⟩
      have hsome : (items.find? fun item => decide (256 ≤ item.upper)).isSome := by
        rw [List.find?_isSome]
        exact ⟨item, hitem, by simpa using hupper⟩
      obtain ⟨first, hfind⟩ := Option.isSome_iff_exists.1 hsome
      rw [compileSet_error ndebug hfind, if_pos (hrejected first hfind)]

/-- The item `\u0100`. -/
def justBeyond : ClassItem :=
  .single ⟨.unicode '0'.toUInt8 '1'.toUInt8 '0'.toUInt8 '0'.toUInt8 (by decide) (by decide)
    (by decide) (by decide), []⟩

theorem a_ne_backslash : 'a'.toUInt8 ≠ '\\'.toUInt8 := by decide

/-- The class `[a\u0100]`. -/
def beyondItems : List ClassItem :=
  [.single ⟨.raw 'a'.toUInt8 a_ne_backslash, []⟩, justBeyond]

theorem class_exact_beyond :
    ClassExact false beyondItems ↔
      ((∀ item ∈ beyondItems, item.upper < 256) → DigitsKept beyondItems) ∧
        Rejected false beyondItems :=
  class_exact false (by simp [beyondItems])

/-- A bit behind the bitset is written. -/
theorem class_outOfBounds : ¬ClassExact false beyondItems := by
  intro h
  have hupper : justBeyond.upper = 256 := by decide
  have hfind : beyondItems.find? (fun item => decide (256 ≤ item.upper)) = some justBeyond := rfl
  have hreject := h.2 ⟨justBeyond, by simp [beyondItems], hupper.ge⟩
  rw [compileSet_error false hfind, if_neg] at hreject
  · cases hreject
  · rw [hupper]
    decide

end Moz.Compiler
