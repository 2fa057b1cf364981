import Mathlib.Tactic

/-!
# Comparing strings with vectors

`pstring_starts_with` and `pstring_find_not_char` of `pstring.h` with SSE 4.2 and AVX2.
Reading an address that is not mapped is `none`, and so is a failed `assert` or a load
that goes beyond a local array. A loop is given a number of rounds. A plain `char` is
signed or not.
-/

namespace Moz.Core

abbrev Memory := ℕ → Option UInt8

/-- `_mm_loadu_si128` and `_mm256_loadu_si256`: a load of `n` bytes. -/
def load (mem : Memory) (addr : ℕ) : ℕ → Option (List UInt8)
  | 0 => some []
  | n + 1 => do
    let b ← mem addr
    let rest ← load mem (addr + 1) n
    return b :: rest

/-- `_mm_loadu_si128` of a local array: it reads 16 bytes of the array. -/
def loadArray (array : List UInt8) : Option (List UInt8) :=
  if 16 ≤ array.length then some (array.take 16) else none

/-- `_mm256_cmpeq_epi8` -/
def cmpeqEpi8 (s t : List UInt8) : List UInt8 := List.zipWith (fun a b => if a = b then 0xff else 0) s t

/-- `_mm256_movemask_epi8`: the highest bit of each byte. -/
def movemaskEpi8 (s : List UInt8) : BitVec 32 :=
  (BitVec.ofBoolListLE (s.map fun b => decide (0x80 ≤ b))).setWidth 32

/-- The byte is in one of the ranges, of which a pair of bytes is the ends. -/
def inRanges (ranges : List UInt8) (size : ℕ) (b : UInt8) : Bool :=
  (List.range (size / 2)).any fun k =>
    decide (ranges.getD (2 * k) 0 ≤ b) && decide (b ≤ ranges.getD (2 * k + 1) 0)

/-- `_mm_cmpestri` with `_SIDD_LEAST_SIGNIFICANT | _SIDD_CMP_RANGES | _SIDD_UBYTE_OPS`. -/
def cmpestri (ranges : List UInt8) (size : ℕ) (s : List UInt8) (length : ℕ) : ℕ :=
  ((s.take length).findIdx? (inRanges ranges size)).getD 16

/-- `pstring_starts_with_simple` -/
def startsWithSimple (mem : Memory) (p text : ℕ) : ℕ → Option Bool
  | 0 => some true
  | len + 1 => do
    let a ← mem p
    let b ← mem text
    if a ≠ b then return false
    else startsWithSimple mem (p + 1) (text + 1) len

/-- `pstring_starts_with_avx2` -/
def startsWithAvx2 (mem : Memory) (str text len : ℕ) : Option Bool := do
  let s ← load mem str 32
  let t ← load mem text 32
  if 32 < len then none
  else
    let m : BitVec 64 := (movemaskEpi8 (cmpeqEpi8 s t)).signExtend 64
    let mask := (1#64 <<< len) - 1#64
    return (m &&& mask) == mask

/-- `pstring_starts_with` -/
def startsWith (mem : Memory) (str text len : ℕ) : Option Bool :=
  if len ≤ 32 then startsWithAvx2 mem str text len else startsWithSimple mem str text len

/-- `*str == c`, where `*str` is a `char` and `c` a `uint8_t`. -/
def charEq (charSigned : Bool) (b c : UInt8) : Bool :=
  (if charSigned then b.toInt8.toInt else b.toNat) == (c.toNat : ℤ)

/-- `while (*str == c) str++` -/
def findLoop (mem : Memory) (charSigned : Bool) (c : UInt8) : ℕ → ℕ → Option ℕ
  | 0, _ => none
  | rounds + 1, str => do
    let b ← mem str
    if charEq charSigned b c then findLoop mem charSigned c rounds (str + 1) else return str

/-- `ranges` and `range_size` of `pstring_find_not_char`. -/
def notCharRanges (c : UInt8) : List UInt8 × ℕ :=
  if c = 0 then ([1, 0xff, 0, 0], 2)
  else if c = 0xff then ([0, 0xfe, 0, 0], 2)
  else ([0, c - 1, c + 1, 0xff], 4)

/-- The loop over blocks of 16 bytes, with `ranges2` and `rest` as they were set before. -/
def blockLoop (mem : Memory) (charSigned : Bool) (c : UInt8) (ranges2 : List UInt8)
    (rangeSize rest : ℕ) : ℕ → ℕ → Option ℕ
  | 0, _ => none
  | rounds + 1, str => do
    let s ← load mem str 16
    let offset := cmpestri ranges2 rangeSize s 16
    if offset ≠ 16 then return str + offset
    else if rest ≠ 0 then blockLoop mem charSigned c ranges2 rangeSize rest rounds (str + 16)
    else findLoop mem charSigned c rounds (str + 16)

/-- `pstring_find_not_char`, where `str` is not behind `tail`. `ranges` has four bytes. -/
def findNotChar (mem : Memory) (charSigned : Bool) (rounds str tail : ℕ) (c : UInt8) : Option ℕ :=
  let (ranges, rangeSize) := notCharRanges c
  let len := tail - str
  if 16 < len then do
    let ranges2 ← loadArray ranges
    blockLoop mem charSigned c ranges2 rangeSize (len - len % 16) rounds str
  else findLoop mem charSigned c rounds str

/-- The bytes from `addr` on can be read. -/
def Readable (mem : Memory) (addr n : ℕ) : Prop := ∀ i < n, (mem (addr + i)).isSome

variable {mem : Memory} {addr n : ℕ} {s t : List UInt8}

theorem load_eq_some : load mem addr n = some s ↔ s.length = n ∧ ∀ i < n, mem (addr + i) = s[i]? := by
  induction n generalizing addr s with
  | zero =>
    rw [load, Option.some_inj, List.length_eq_zero_iff]
    constructor
    · rintro rfl
      exact ⟨rfl, fun i hi => absurd hi (Nat.not_lt_zero i)⟩
    · exact fun h => h.1.symm
  | succ n ih =>
    simp only [load, Option.bind_eq_bind, Option.bind_eq_some_iff]
    constructor
    · rintro ⟨b, hb, rest, hrest, hs⟩
      cases hs
      obtain ⟨hlength, hmem⟩ := ih.1 hrest
      refine ⟨congrArg (· + 1) hlength, fun i hi => ?_⟩
      cases i with
      | zero => exact hb
      | succ i =>
        have hnext := hmem i (by omega)
        rw [Nat.add_assoc, Nat.add_comm 1 i] at hnext
        exact hnext
    · rintro ⟨hlength, hmem⟩
      cases s with
      | nil => cases hlength
      | cons b rest =>
        refine ⟨b, hmem 0 (Nat.succ_pos n), rest, ih.2 ⟨Nat.succ.inj hlength, fun i hi => ?_⟩, rfl⟩
        have hnext := hmem (i + 1) (by omega)
        rw [Nat.add_comm i 1, ← Nat.add_assoc] at hnext
        rw [hnext, Nat.add_comm 1 i]
        rfl

theorem load_isSome : (∃ s, load mem addr n = some s) ↔ Readable mem addr n := by
  induction n generalizing addr with
  | zero => exact iff_of_true ⟨[], rfl⟩ fun i hi => absurd hi (Nat.not_lt_zero i)
  | succ n ih =>
    simp only [load, Option.bind_eq_bind, Option.bind_eq_some_iff]
    constructor
    · rintro ⟨s, b, hb, rest, hrest, -⟩ i hi
      cases i with
      | zero => exact Option.isSome_of_eq_some hb
      | succ i =>
        have hnext := ih.1 ⟨rest, hrest⟩ i (by omega)
        rwa [Nat.add_assoc, Nat.add_comm 1 i] at hnext
    · intro h
      obtain ⟨b, hb⟩ := Option.isSome_iff_exists.1 (h 0 (Nat.succ_pos n))
      have htail : Readable mem (addr + 1) n := by
        intro i hi
        rw [Nat.add_assoc, Nat.add_comm 1 i]
        exact h (i + 1) (by omega)
      obtain ⟨rest, hrest⟩ := ih.2 htail
      exact ⟨b :: rest, b, hb, rest, hrest, rfl⟩

/-- The comparison byte by byte reads what is not mapped: before that the bytes agree. -/
def CompareFaults (mem : Memory) (p text len : ℕ) : Prop :=
  ∃ i < len, (mem (p + i) = none ∨ mem (text + i) = none) ∧
    ∀ j < i, ∃ b, mem (p + j) = some b ∧ mem (text + j) = some b

variable {p text len : ℕ}

theorem startsWithSimple_eq_none : startsWithSimple mem p text len = none ↔ CompareFaults mem p text len := by
  induction len generalizing p text with
  | zero =>
    constructor
    · intro h
      cases h
    · rintro ⟨i, hi, -⟩
      exact absurd hi (Nat.not_lt_zero i)
  | succ len ih =>
    have hshift : ∀ a i : ℕ, a + 1 + i = a + (i + 1) := by
      intro a i
      omega
    rw [startsWithSimple]
    rcases ha : mem p with _ | a
    · exact iff_of_true rfl ⟨0, Nat.succ_pos len, .inl ha, fun j hj => absurd hj (Nat.not_lt_zero j)⟩
    rcases hb : mem text with _ | b
    · exact iff_of_true rfl ⟨0, Nat.succ_pos len, .inr hb, fun j hj => absurd hj (Nat.not_lt_zero j)⟩
    simp only [Option.bind_eq_bind, Option.bind_some]
    by_cases hne : a = b
    · subst hne
      rw [if_neg (not_not.2 rfl), ih]
      constructor
      · rintro ⟨i, hi, hnone, hbefore⟩
        rw [hshift, hshift] at hnone
        refine ⟨i + 1, by omega, hnone, fun j hj => ?_⟩
        cases j with
        | zero => exact ⟨a, ha, hb⟩
        | succ j =>
          have hprev := hbefore j (by omega)
          rwa [hshift, hshift] at hprev
      · rintro ⟨i, hi, hnone, hbefore⟩
        cases i with
        | zero =>
          rw [Nat.add_zero, Nat.add_zero, ha, hb] at hnone
          simp at hnone
        | succ i =>
          refine ⟨i, by omega, ?_, fun j hj => ?_⟩
          · rwa [hshift, hshift]
          · rw [hshift, hshift]
            exact hbefore (j + 1) (by omega)
    · rw [if_pos hne]
      refine iff_of_false (by simp) ?_
      rintro ⟨i, hi, hnone, hbefore⟩
      cases i with
      | zero =>
        rw [Nat.add_zero, Nat.add_zero, ha, hb] at hnone
        simp at hnone
      | succ i =>
        obtain ⟨b', hb₁, hb₂⟩ := hbefore 0 (Nat.succ_pos i)
        exact hne (Option.some.inj ((ha.symm.trans hb₁).trans (hb₂.symm.trans hb)))

/-- The comparison byte by byte, of bytes that can be read. -/
theorem startsWithSimple_eq (hp : Readable mem p len) (htext : Readable mem text len) :
    startsWithSimple mem p text len = some (decide (∀ i < len, mem (p + i) = mem (text + i))) := by
  induction len generalizing p text with
  | zero => simp [startsWithSimple]
  | succ len ih =>
    have hshift : ∀ a i : ℕ, a + 1 + i = a + (i + 1) := by
      intro a i
      omega
    obtain ⟨a, ha⟩ := Option.isSome_iff_exists.1 (hp 0 (Nat.succ_pos len))
    obtain ⟨b, hb⟩ := Option.isSome_iff_exists.1 (htext 0 (Nat.succ_pos len))
    rw [Nat.add_zero] at ha hb
    have hp' : Readable mem (p + 1) len := fun i hi => hshift p i ▸ hp (i + 1) (by omega)
    have htext' : Readable mem (text + 1) len := fun i hi => hshift text i ▸ htext (i + 1) (by omega)
    have hall : (∀ i < len + 1, mem (p + i) = mem (text + i)) ↔
        a = b ∧ ∀ i < len, mem (p + 1 + i) = mem (text + 1 + i) := by
      rw [Nat.forall_lt_succ_left, Nat.add_zero, Nat.add_zero, ha, hb, Option.some_inj]
      simp only [hshift]
    rw [startsWithSimple, ha, hb, Option.bind_eq_bind, Option.bind_some, Option.bind_some]
    by_cases heq : a = b
    · rw [if_neg (not_not.2 heq), ih hp' htext']
      simp only [hall, heq, true_and]
    · rw [if_pos heq]
      simp only [hall, heq, false_and, decide_false]
      rfl

theorem getLsbD_mask {i : ℕ} (hlen : len ≤ 32) : ((1#64 <<< len) - 1#64).getLsbD i = decide (i < len) := by
  have hpow : 2 ^ len ≤ 2 ^ 32 := Nat.pow_le_pow_right (by norm_num) hlen
  have hpos := Nat.two_pow_pos len
  have hvalue : (1#64).toNat = 1 := rfl
  have hone : (1#64 <<< len).toNat = 2 ^ len := by
    rw [BitVec.toNat_shiftLeft, hvalue, Nat.shiftLeft_eq, one_mul, Nat.mod_eq_of_lt (by omega)]
  have htoNat : ((1#64 <<< len) - 1#64).toNat = 2 ^ len - 1 := by
    have hle : 1#64 ≤ 1#64 <<< len := by
      rw [BitVec.le_def, hone, hvalue]
      exact hpos
    rw [BitVec.toNat_sub_of_le hle, hone, hvalue]
  rw [BitVec.getLsbD, htoNat, Nat.testBit_two_pow_sub_one]

theorem getLsbD_movemask (hs : s.length = 32) (ht : t.length = 32) {i : ℕ} (hi : i < 32) :
    (movemaskEpi8 (cmpeqEpi8 s t)).getLsbD i = decide (s[i]? = t[i]?) := by
  rw [movemaskEpi8, BitVec.getLsbD_setWidth, BitVec.getLsbD_ofBoolListLE, List.getD_eq_getElem?_getD,
    List.getElem?_map, cmpeqEpi8, List.getElem?_zipWith, List.getElem?_eq_getElem (by omega),
    List.getElem?_eq_getElem (by omega)]
  by_cases heq : s[i] = t[i]
  · simp [heq, hi]
  · simp [heq]

/-- The comparison of vectors is that of the bytes below `len`. -/
theorem startsWithAvx2_eq (hlen : len ≤ 32) (hp : Readable mem p 32) (htext : Readable mem text 32) :
    startsWithAvx2 mem p text len = some (decide (∀ i < len, mem (p + i) = mem (text + i))) := by
  obtain ⟨s, hs⟩ := load_isSome.2 hp
  obtain ⟨t, ht⟩ := load_isSome.2 htext
  obtain ⟨hslength, hsmem⟩ := load_eq_some.1 hs
  obtain ⟨htlength, htmem⟩ := load_eq_some.1 ht
  have hbit : ∀ i < 32, (BitVec.signExtend 64 (movemaskEpi8 (cmpeqEpi8 s t))).getLsbD i =
      decide (mem (p + i) = mem (text + i)) := by
    intro i hi
    rw [BitVec.getLsbD_signExtend, if_pos hi, getLsbD_movemask hslength htlength hi, hsmem i hi,
      htmem i hi]
    simp [show i < 64 by omega]
  rw [startsWithAvx2, hs, ht]
  simp only [Option.bind_eq_bind, Option.bind_some]
  rw [if_neg (by omega)]
  refine congrArg some (Bool.eq_iff_iff.2 ?_)
  rw [beq_iff_eq, decide_eq_true_iff]
  constructor
  · intro hmask i hi
    have hand := congrArg (BitVec.getLsbD · i) hmask
    simp only [BitVec.getLsbD_and, getLsbD_mask hlen, hi, hbit i (by omega)] at hand
    simpa using hand
  · intro hall
    apply BitVec.eq_of_getLsbD_eq
    intro i _
    rw [BitVec.getLsbD_and, getLsbD_mask hlen]
    by_cases hi : i < len
    · simp [hbit i (by omega), hall i hi]
    · simp [hi]

/-- The routine with vectors agrees with the one byte by byte exactly if it reads what is mapped. -/
theorem startsWith_eq_simple_iff : startsWith mem p text len = startsWithSimple mem p text len ↔
    (len ≤ 32 → Readable mem p 32 ∧ Readable mem text 32 ∨ CompareFaults mem p text len) := by
  rw [startsWith]
  split_ifs with hlen
  · by_cases hread : Readable mem p 32 ∧ Readable mem text 32
    · refine iff_of_true ?_ fun _ => .inl hread
      rw [startsWithAvx2_eq hlen hread.1 hread.2, startsWithSimple_eq]
      · exact fun i hi => hread.1 i (by omega)
      · exact fun i hi => hread.2 i (by omega)
    · have hnone : startsWithAvx2 mem p text len = none := by
        rw [startsWithAvx2]
        rcases hs : load mem p 32 with _ | s
        · rfl
        rcases ht : load mem text 32 with _ | t
        · rfl
        exact absurd ⟨load_isSome.1 ⟨s, hs⟩, load_isSome.1 ⟨t, ht⟩⟩ hread
      rw [hnone, eq_comm, startsWithSimple_eq_none]
      constructor
      · exact fun h _ => .inr h
      · exact fun h => (h hlen).resolve_left hread
  · exact iff_of_true rfl fun h => absurd h hlen

/-- `q` is the first place from `str` on that has a byte at which to stop. -/
structure First (mem : Memory) (stop : UInt8 → Prop) (str q : ℕ) : Prop where
  le : str ≤ q
  before : ∀ i, str ≤ i → i < q → ∃ b, mem i = some b ∧ ¬ stop b
  stops : ∃ b, mem q = some b ∧ stop b

theorem First.unique {stop : UInt8 → Prop} {str q q' : ℕ} (h : First mem stop str q)
    (h' : First mem stop str q') : q = q' := by
  have hge : ∀ {q q' : ℕ}, First mem stop str q → First mem stop str q' → q ≤ q' := by
    intro q q' h h'
    by_contra hlt
    obtain ⟨b, hb, hgo⟩ := h.before q' h'.le (by omega)
    obtain ⟨b', hb', hstop⟩ := h'.stops
    cases hb.symm.trans hb'
    exact hgo hstop
  exact le_antisymm (hge h h') (hge h' h)

/-- A block of 16 bytes can be read if only `c` is before it. -/
def BlocksReadable (mem : Memory) (c : UInt8) (str : ℕ) : Prop :=
  ∀ k, (∀ i < 16 * k, mem (str + i) = some c) → Readable mem (str + 16 * k) 16

theorem length_notCharRanges (c : UInt8) : (notCharRanges c).1.length = 4 := by
  rw [notCharRanges]
  split_ifs <;> rfl

theorem notCharRanges_size_le (c : UInt8) : (notCharRanges c).2 ≤ 4 := by
  rw [notCharRanges]
  split_ifs <;> simp

theorem inRanges_append {ranges : List UInt8} {size : ℕ} (hsize : size ≤ ranges.length)
    (beyond : List UInt8) (b : UInt8) :
    inRanges (ranges ++ beyond) size b = inRanges ranges size b := by
  rw [Bool.eq_iff_iff, inRanges, inRanges, List.any_eq_true, List.any_eq_true]
  refine exists_congr fun k => and_congr_right fun hk => ?_
  rw [List.mem_range] at hk
  simp only [List.getD_eq_getElem?_getD]
  rw [List.getElem?_append_left (by omega), List.getElem?_append_left (by omega)]

theorem inRanges_notChar (c b : UInt8) :
    inRanges (notCharRanges c).1 (notCharRanges c).2 b = true ↔ b ≠ c := by
  have hb := b.toNat_lt
  have hc := c.toNat_lt
  have hne : b ≠ c ↔ b.toNat ≠ c.toNat := UInt8.toNat_inj.not.symm
  rw [hne, notCharRanges]
  split_ifs with hzero hmax
  · subst hzero
    simp [inRanges, UInt8.le_iff_toNat_le]
    omega
  · subst hmax
    simp [inRanges, UInt8.le_iff_toNat_le]
    omega
  · have hpos : 0 < c.toNat := by
      by_contra h
      exact hzero (UInt8.toNat_inj.1 (by rw [Nat.eq_zero_of_not_pos h]; rfl))
    have hlt : c.toNat < 255 := by
      by_contra h
      exact hmax (UInt8.toNat_inj.1 (by rw [show c.toNat = 255 by omega]; rfl))
    have hpred : (c - 1).toNat = c.toNat - 1 :=
      UInt8.toNat_sub_of_le _ _ (UInt8.le_iff_toNat_le.2 hpos)
    have hsucc : (c + 1).toNat = c.toNat + 1 := by
      rw [UInt8.toNat_add]
      exact Nat.mod_eq_of_lt (by show c.toNat + 1 < 256; omega)
    have hranges : inRanges [0, c - 1, c + 1, 0xff] 4 b = true ↔ b ≤ c - 1 ∨ c + 1 ≤ b := by
      have hmax' : b ≤ 0xff := UInt8.le_iff_toNat_le.2 (by show b.toNat ≤ 255; omega)
      simp [inRanges, List.range_succ, hmax']
    rw [hranges, UInt8.le_iff_toNat_le, UInt8.le_iff_toNat_le, hpred, hsucc]
    omega

variable {c : UInt8} {charSigned : Bool} {str q rest tail : ℕ} {beyond : List UInt8}

theorem findLoop_iff : (∃ rounds, findLoop mem charSigned c rounds str = some q) ↔
    First mem (fun b => charEq charSigned b c = false) str q := by
  constructor
  · rintro ⟨rounds, h⟩
    induction rounds generalizing str with
    | zero => cases h
    | succ rounds ih =>
      rw [findLoop, Option.bind_eq_bind, Option.bind_eq_some_iff] at h
      obtain ⟨b, hb, h⟩ := h
      split_ifs at h with heq
      · have hfirst := ih h
        refine ⟨by have := hfirst.le; omega, fun i hi hlt => ?_, hfirst.stops⟩
        rcases Nat.eq_or_lt_of_le hi with rfl | hi
        · exact ⟨b, hb, by simp [heq]⟩
        · exact hfirst.before i hi hlt
      · cases h
        exact ⟨le_rfl, fun i hi hlt => by omega, b, hb, by simpa using heq⟩
  · intro h
    obtain ⟨d, rfl⟩ := Nat.exists_eq_add_of_le h.le
    refine ⟨d + 1, ?_⟩
    induction d generalizing str with
    | zero =>
      obtain ⟨b, hb, hstop⟩ := h.stops
      rw [Nat.add_zero] at hb ⊢
      rw [findLoop, hb, Option.bind_eq_bind, Option.bind_some, if_neg (by simp [hstop])]
      rfl
    | succ d ih =>
      obtain ⟨b, hb, hgo⟩ := h.before str le_rfl (by omega)
      have hindex : str + (d + 1) = str + 1 + d := by omega
      rw [hindex] at h ⊢
      have hrest : First mem (fun b => charEq charSigned b c = false) (str + 1) (str + 1 + d) :=
        ⟨by omega, fun i hi hlt => h.before i (by omega) hlt, h.stops⟩
      rw [findLoop, hb, Option.bind_eq_bind, Option.bind_some, if_pos (by simpa using hgo)]
      exact ih hrest

/-- The search in a block finds the first byte other than `c`, or nothing. -/
theorem cmpestri_notChar (c : UInt8) (beyond : List UInt8) (hs : s.length = 16) :
    (cmpestri ((notCharRanges c).1 ++ beyond) (notCharRanges c).2 s 16 = 16 ∧
        ∀ i < 16, s[i]? = some c) ∨
      ∃ offset < 16, cmpestri ((notCharRanges c).1 ++ beyond) (notCharRanges c).2 s 16 = offset ∧
        (∃ b, s[offset]? = some b ∧ b ≠ c) ∧ ∀ i < offset, s[i]? = some c := by
  have htake : s.take 16 = s := List.take_of_length_le hs.le
  have hsize : (notCharRanges c).2 ≤ (notCharRanges c).1.length := by
    rw [length_notCharRanges]
    exact notCharRanges_size_le c
  have hranges : inRanges ((notCharRanges c).1 ++ beyond) (notCharRanges c).2 =
      inRanges (notCharRanges c).1 (notCharRanges c).2 :=
    funext fun b => inRanges_append hsize beyond b
  have hsame : ∀ {b : UInt8}, ¬ inRanges (notCharRanges c).1 (notCharRanges c).2 b = true → b = c :=
    fun h => not_not.1 fun hne => h ((inRanges_notChar c _).2 hne)
  rw [cmpestri, htake, hranges]
  rcases hfind : s.findIdx? (inRanges (notCharRanges c).1 (notCharRanges c).2) with _ | offset
  · left
    refine ⟨rfl, fun i hi => ?_⟩
    have hi' : i < s.length := by omega
    rw [List.getElem?_eq_getElem hi']
    exact congrArg some (hsame (by simp [List.findIdx?_eq_none_iff.1 hfind _ (List.getElem_mem hi')]))
  · right
    obtain ⟨hlt, hstop, hbefore⟩ := List.findIdx?_eq_some_iff_getElem.1 hfind
    refine ⟨offset, by omega, rfl, ?_, fun i hi => ?_⟩
    · exact ⟨s[offset], List.getElem?_eq_getElem hlt, (inRanges_notChar c _).1 hstop⟩
    · rw [List.getElem?_eq_getElem (by omega)]
      exact congrArg some (hsame (hbefore i hi))

/-- With `ranges2` loaded, whatever follows the ranges in it, the blocks find the first byte other
than `c`. -/
theorem blockLoop_iff (hrest : rest ≠ 0) :
    (∃ rounds, blockLoop mem charSigned c ((notCharRanges c).1 ++ beyond) (notCharRanges c).2 rest
        rounds str = some q) ↔
      First mem (· ≠ c) str q ∧ BlocksReadable mem c str := by
  constructor
  · rintro ⟨rounds, h⟩
    induction rounds generalizing str with
    | zero => cases h
    | succ rounds ih =>
      rw [blockLoop, Option.bind_eq_bind, Option.bind_eq_some_iff] at h
      obtain ⟨s, hs, h⟩ := h
      have hread := load_isSome.1 ⟨s, hs⟩
      obtain ⟨hlength, hmem⟩ := load_eq_some.1 hs
      rcases cmpestri_notChar c beyond hlength with ⟨hnone, hall⟩ | ⟨offset, hlt, hoffset, ⟨b, hb, hne⟩, hbefore⟩
      · -- the block has only `c`
        rw [if_neg (not_not.2 hnone), if_pos hrest] at h
        obtain ⟨hfirst, hblocks⟩ := ih h
        have hle := hfirst.le
        refine ⟨⟨by omega, fun i hi hlt => ?_, hfirst.stops⟩, fun k hk => ?_⟩
        · rcases Nat.lt_or_ge i (str + 16) with hin | hout
          · have hbyte := hmem (i - str) (by omega)
            rw [hall _ (by omega), Nat.add_sub_cancel' hi] at hbyte
            exact ⟨c, hbyte, not_not.2 rfl⟩
          · exact hfirst.before i hout hlt
        · cases k with
          | zero => exact hread
          | succ k =>
            have hindex : str + 16 * (k + 1) = str + 16 + 16 * k := by omega
            rw [hindex]
            apply hblocks k
            intro i hi
            rw [Nat.add_assoc]
            exact hk (16 + i) (by omega)
      · -- the block has another byte
        rw [hoffset, if_pos (by omega)] at h
        cases h
        refine ⟨⟨by omega, fun i hi hlt => ?_, b, (hmem offset hlt).trans hb, hne⟩, fun k hk => ?_⟩
        · have hbyte := hmem (i - str) (by omega)
          rw [hbefore _ (by omega), Nat.add_sub_cancel' hi] at hbyte
          exact ⟨c, hbyte, not_not.2 rfl⟩
        · cases k with
          | zero => exact hread
          | succ k =>
            have hbyte := (hk offset (by omega)).symm.trans ((hmem offset hlt).trans hb)
            exact absurd (Option.some.inj hbyte).symm hne
  · rintro ⟨hfirst, hblocks⟩
    obtain ⟨d, rfl⟩ := Nat.exists_eq_add_of_le hfirst.le
    induction d using Nat.strong_induction_on generalizing str with
    | _ d ih =>
      obtain ⟨s, hs⟩ := load_isSome.2 (hblocks 0 fun i hi => absurd hi (Nat.not_lt_zero i))
      obtain ⟨hlength, hmem⟩ := load_eq_some.1 hs
      obtain ⟨b, hb, hne⟩ := hfirst.stops
      rw [Nat.mul_zero, Nat.add_zero] at hs hmem
      rcases cmpestri_notChar c beyond hlength with ⟨hnone, hall⟩ | ⟨offset, hlt, hoffset, ⟨b', hb', hne'⟩, hbefore⟩
      · have hfar : 16 ≤ d := by
          by_contra hnear
          have hbyte := (hmem d (by omega)).trans (hall d (by omega))
          exact hne (Option.some.inj (hb.symm.trans hbyte))
        obtain ⟨d, rfl⟩ := Nat.exists_eq_add_of_le hfar
        rw [← Nat.add_assoc] at hfirst ⊢
        have hnext : First mem (· ≠ c) (str + 16) (str + 16 + d) :=
          ⟨by omega, fun i hi hlt => hfirst.before i (by omega) hlt, hfirst.stops⟩
        have hblocks' : BlocksReadable mem c (str + 16) := by
          intro k hk
          have hindex : str + 16 + 16 * k = str + 16 * (k + 1) := by omega
          rw [hindex]
          apply hblocks (k + 1)
          intro i hi
          rcases Nat.lt_or_ge i 16 with hin | hout
          · exact (hmem i hin).trans (hall i hin)
          · obtain ⟨j, rfl⟩ := Nat.exists_eq_add_of_le hout
            rw [← Nat.add_assoc]
            exact hk j (by omega)
        obtain ⟨rounds, hrounds⟩ := ih d (by omega) hblocks' hnext
        refine ⟨rounds + 1, ?_⟩
        rw [blockLoop, hs, Option.bind_eq_bind, Option.bind_some]
        dsimp only
        rw [if_neg (not_not.2 hnone), if_pos hrest]
        exact hrounds
      · have hfound : First mem (· ≠ c) str (str + offset) := by
          refine ⟨by omega, fun i hi hlt' => ?_, b', (hmem offset hlt).trans hb', hne'⟩
          have hbyte := hmem (i - str) (by omega)
          rw [hbefore _ (by omega), Nat.add_sub_cancel' hi] at hbyte
          exact ⟨c, hbyte, not_not.2 rfl⟩
        refine ⟨1, ?_⟩
        rw [blockLoop, hs, Option.bind_eq_bind, Option.bind_some]
        dsimp only
        rw [hoffset, if_pos (by omega), hfirst.unique hfound]
        rfl

/-- A text of an input: its bytes up to the terminator can be read. -/
structure InInput (mem : Memory) (str tail : ℕ) : Prop where
  le : str ≤ tail
  readable : ∀ i, str ≤ i → i < tail → (mem i).isSome
  terminator : mem tail = some 0

/-- `find` returns what the loop does, and this is in the input. -/
def FindsAs (mem : Memory) (charSigned : Bool) (str tail : ℕ) (c : UInt8) (find : ℕ → Option ℕ) :
    Prop :=
  (∀ q, (∃ rounds, find rounds = some q) ↔
    ∃ rounds, findLoop mem charSigned c rounds str = some q) ∧
  ∃ rounds q, find rounds = some q ∧ q ≤ tail

/-- `pstring_find_not_char` does. -/
def FindsNotChar (mem : Memory) (charSigned : Bool) (str tail : ℕ) (c : UInt8) : Prop :=
  FindsAs mem charSigned str tail c fun rounds => findNotChar mem charSigned rounds str tail c

/-- Zero bytes are sought in a text that has another byte. -/
def StopsBefore (mem : Memory) (str tail : ℕ) (c : UInt8) : Prop :=
  c = 0 → ∃ i, str ≤ i ∧ i < tail ∧ mem i ≠ some 0

/-- The blocks can be read, and a signed `char` does not keep the loop from its first byte. -/
structure BlocksWhen (mem : Memory) (charSigned : Bool) (str tail : ℕ) (c : UInt8) : Prop where
  zero : StopsBefore mem str tail c
  blocks : BlocksReadable mem c str
  signed : charSigned = true → 0x80 ≤ c → mem str ≠ some c

theorem toInt_toInt8 (b : UInt8) :
    b.toInt8.toInt = if b < 0x80 then (b.toNat : ℤ) else (b.toNat : ℤ) - 256 := by
  have hbits : b.toInt8.toInt = b.toBitVec.toInt := rfl
  have hlt : b < 0x80 ↔ b.toBitVec.toNat < 128 := UInt8.lt_iff_toNat_lt
  rw [hbits, BitVec.toInt_eq_toNat_cond]
  refine if_congr ?_ rfl rfl
  rw [hlt]
  omega

/-- The comparison of a `char` with a byte is that of bytes, unless it is signed and the byte large. -/
theorem charEq_iff {b : UInt8} (h : charSigned = false ∨ c < 0x80) :
    charEq charSigned b c = false ↔ b ≠ c := by
  have hc := c.toNat_lt
  have hne : b ≠ c ↔ b.toNat ≠ c.toNat := UInt8.toNat_inj.not.symm
  rw [charEq, beq_eq_false_iff_ne, hne]
  rcases h with rfl | hsmall
  · rw [if_neg Bool.false_ne_true]
    exact Nat.cast_injective.ne_iff
  · have hc' : c.toNat < 128 := UInt8.lt_iff_toNat_lt.1 hsmall
    split_ifs
    · rw [toInt_toInt8]
      split_ifs with hb
      · exact Nat.cast_injective.ne_iff
      · have hb' : 128 ≤ b.toNat := UInt8.le_iff_toNat_le.1 (UInt8.not_lt.1 hb)
        have hlt := b.toNat_lt
        exact iff_of_true (by omega) (by omega)
    · exact Nat.cast_injective.ne_iff

theorem charEq_signed {b : UInt8} (hc : 0x80 ≤ c) : charEq true b c = false := by
  have hc' : 128 ≤ c.toNat := UInt8.le_iff_toNat_le.1 hc
  rw [charEq, beq_eq_false_iff_ne, if_pos rfl, toInt_toInt8]
  have hlt := b.toNat_lt
  split_ifs with hb
  · have hb' : b.toNat < 128 := UInt8.lt_iff_toNat_lt.1 hb
    omega
  · omega

theorem InInput.isSome (h : InInput mem str tail) {i : ℕ} (hi : str ≤ i) (hle : i ≤ tail) :
    (mem i).isSome := by
  rcases Nat.eq_or_lt_of_le hle with rfl | hlt
  · rw [h.terminator]
    rfl
  · exact h.readable i hi hlt

/-- The first byte other than `c` is in the input. -/
theorem InInput.exists_first (h : InInput mem str tail)
    (hzero : StopsBefore mem str tail c) : ∃ q ≤ tail, First mem (· ≠ c) str q := by
  have hexists : ∃ i, (str ≤ i ∧ mem i ≠ some c) ∧ i ≤ tail := by
    by_cases hc : c = 0
    · obtain ⟨i, hi, hlt, hne⟩ := hzero hc
      exact ⟨i, ⟨hi, hc ▸ hne⟩, hlt.le⟩
    · refine ⟨tail, ⟨h.le, ?_⟩, le_rfl⟩
      rw [h.terminator]
      exact fun heq => hc (Option.some.inj heq).symm
  classical
  obtain ⟨⟨hle, hne⟩, htail⟩ := Nat.find_spec hexists
  refine ⟨Nat.find hexists, htail, hle, fun i hi hlt => ?_, ?_⟩
  · have hmin := Nat.find_min hexists hlt
    refine ⟨c, ?_, not_not.2 rfl⟩
    by_contra hne
    exact hmin ⟨⟨hi, hne⟩, by omega⟩
  · obtain ⟨b, hb⟩ := Option.isSome_iff_exists.1 (h.isSome hle htail)
    exact ⟨b, hb, fun heq => hne (heq ▸ hb)⟩

/-- A place within the input with a byte other than zero. -/
theorem First.exists_nonzero (h : InInput mem str tail) (hfirst : First mem (· ≠ c) str q)
    (hle : q ≤ tail) : StopsBefore mem str tail c := by
  intro hc
  obtain ⟨b, hb, hne⟩ := hfirst.stops
  have hq : mem q ≠ some 0 := by
    rw [hb]
    exact fun heq => hne (hc ▸ Option.some.inj heq)
  refine ⟨q, hfirst.le, Nat.lt_of_le_of_ne hle ?_, hq⟩
  rintro rfl
  exact hq h.terminator

/-- Where a `char` is compared as a byte, the loop stops at the first byte other than `c`. -/
theorem findLoop_iff_unsigned (hsmall : charSigned = false ∨ c < 0x80) :
    (∃ rounds, findLoop mem charSigned c rounds str = some q) ↔ First mem (· ≠ c) str q := by
  have hstop : (fun b => charEq charSigned b c = false) = (· ≠ c) :=
    funext fun b => propext (charEq_iff hsmall)
  rw [findLoop_iff, hstop]

/-- A signed `char` is never a large byte: the loop stops where it begins. -/
theorem findLoop_iff_signed (h : InInput mem str tail) (hsigned : charSigned = true)
    (hlarge : 0x80 ≤ c) : (∃ rounds, findLoop mem charSigned c rounds str = some q) ↔ q = str := by
  subst hsigned
  have hbegin : First mem (fun b => charEq true b c = false) str str := by
    obtain ⟨b, hb⟩ := Option.isSome_iff_exists.1 (h.isSome le_rfl h.le)
    exact ⟨le_rfl, fun i hi hlt => by omega, b, hb, charEq_signed hlarge⟩
  rw [findLoop_iff]
  constructor
  · exact fun hfirst => hfirst.unique hbegin
  · rintro rfl
    exact hbegin

theorem not_small {charSigned : Bool} {c : UInt8} (h : ¬(charSigned = false ∨ c < 0x80)) :
    charSigned = true ∧ 0x80 ≤ c := by
  rw [not_or, Bool.not_eq_false, UInt8.not_lt] at h
  exact h

/-- The blocks, were they reached with all of `ranges2`, would agree with the loop exactly under
their conditions. -/
theorem blocks_agree_iff (mem : Memory) (charSigned : Bool) (str tail rest : ℕ) (c : UInt8)
    (beyond : List UInt8) (h : InInput mem str tail) (hrest : rest ≠ 0) :
    FindsAs mem charSigned str tail c (fun rounds => blockLoop mem charSigned c
        ((notCharRanges c).1 ++ beyond) (notCharRanges c).2 rest rounds str) ↔
      BlocksWhen mem charSigned str tail c := by
  simp only [FindsAs, blockLoop_iff hrest]
  constructor
  · rintro ⟨hsame, rounds, q, hq, hle⟩
    obtain ⟨hfirst, hblocks⟩ := (blockLoop_iff hrest).1 ⟨rounds, hq⟩
    refine ⟨hfirst.exists_nonzero h hle, hblocks, fun hsigned hlarge hmem => ?_⟩
    obtain rfl := (findLoop_iff_signed h hsigned hlarge).1 ((hsame q).1 ⟨hfirst, hblocks⟩)
    obtain ⟨b, hb, hne⟩ := hfirst.stops
    exact hne (Option.some.inj (hb.symm.trans hmem))
  · intro hwhen
    obtain ⟨q, hle, hfirst⟩ := h.exists_first hwhen.zero
    obtain ⟨rounds, hq⟩ : ∃ rounds, blockLoop mem charSigned c ((notCharRanges c).1 ++ beyond)
        (notCharRanges c).2 rest rounds str = some q := (blockLoop_iff hrest).2 ⟨hfirst, hwhen.blocks⟩
    refine ⟨fun q' => ?_, rounds, q, hq, hle⟩
    rw [and_iff_left hwhen.blocks]
    by_cases hsmall : charSigned = false ∨ c < 0x80
    · exact (findLoop_iff_unsigned hsmall).symm
    · obtain ⟨hsigned, hlarge⟩ := not_small hsmall
      rw [findLoop_iff_signed h hsigned hlarge]
      have hbegin : First mem (· ≠ c) str str := by
        obtain ⟨b, hb⟩ := Option.isSome_iff_exists.1 (h.isSome le_rfl h.le)
        exact ⟨le_rfl, fun i hi hlt => by omega, b, hb,
          fun heq => hwhen.signed hsigned hlarge (heq ▸ hb)⟩
      constructor
      · exact fun hfirst' => hfirst'.unique hbegin
      · rintro rfl
        exact hbegin

/-- Twenty letters before an `x`, and zero bytes after the ranges. -/
theorem blocks_agree_iff_twentyLetters :
    let mem : Memory := fun i => some (if i < 20 then 97 else if i = 20 then 120 else 0)
    FindsAs mem true 0 21 97 (fun rounds => blockLoop mem true 97
      ((notCharRanges 97).1 ++ List.replicate 12 0) (notCharRanges 97).2 16 rounds 0) := by
  intro mem
  have hinput : InInput mem 0 21 := ⟨by decide, fun i hi hlt => rfl, rfl⟩
  refine (blocks_agree_iff mem true 0 21 16 97 _ hinput (by decide)).2 ⟨?_, ?_, ?_⟩
  · intro hzero
    cases hzero
  · exact fun k hk i hi => rfl
  · intro _ hlarge
    exact absurd hlarge (by decide)

/-- The load of `ranges2` goes beyond the four bytes of `ranges`. -/
theorem findNotChar_long (hlong : 16 < tail - str) (rounds : ℕ) :
    findNotChar mem charSigned rounds str tail c = none := by
  have hload : loadArray (notCharRanges c).1 = none := by
    rw [loadArray, length_notCharRanges, if_neg (by omega)]
  simp only [findNotChar, if_pos hlong, hload]
  rfl

theorem findNotChar_short (hshort : ¬ 16 < tail - str) (rounds : ℕ) :
    findNotChar mem charSigned rounds str tail c = findLoop mem charSigned c rounds str :=
  if_neg hshort

theorem findsNotChar_iff (h : InInput mem str tail) : FindsNotChar mem charSigned str tail c ↔
    tail - str ≤ 16 ∧ StopsBefore mem str tail c := by
  rw [FindsNotChar, FindsAs]
  by_cases hlong : 16 < tail - str
  · simp only [findNotChar_long hlong]
    constructor
    · rintro ⟨-, rounds, q, hq, -⟩
      cases hq
    · intro hwhen
      omega
  · simp only [findNotChar_short hlong, true_and, implies_true]
    rw [and_iff_right (by omega)]
    by_cases hsmall : charSigned = false ∨ c < 0x80
    · constructor
      · rintro ⟨rounds, q, hq, hle⟩
        exact ((findLoop_iff_unsigned hsmall).1 ⟨rounds, hq⟩).exists_nonzero h hle
      · intro hzero
        obtain ⟨q, hle, hfirst⟩ := h.exists_first hzero
        obtain ⟨rounds, hq⟩ := (findLoop_iff_unsigned hsmall).2 hfirst
        exact ⟨rounds, q, hq, hle⟩
    · obtain ⟨hsigned, hlarge⟩ := not_small hsmall
      obtain ⟨rounds, hq⟩ := (findLoop_iff_signed h hsigned hlarge).2 rfl
      refine iff_of_true ⟨rounds, str, hq, h.le⟩ ?_
      rintro rfl
      exact absurd hlarge (by decide)

/-- The routines with vectors agree with the loops over bytes, exactly under their conditions. -/
theorem vectors_agree_iff (mem : Memory) (charSigned : Bool) (str tail : ℕ) (h : InInput mem str tail)
    (text len : ℕ) (c : UInt8) :
    startsWith mem str text len = startsWithSimple mem str text len ∧
        FindsNotChar mem charSigned str tail c ↔
      (len ≤ 32 → Readable mem str 32 ∧ Readable mem text 32 ∨ CompareFaults mem str text len) ∧
        tail - str ≤ 16 ∧ StopsBefore mem str tail c := by
  rw [startsWith_eq_simple_iff, findsNotChar_iff h]

/-- Sixteen letters before the end of an input. -/
theorem vectors_agree_iff_letters :
    let mem : Memory := fun i => some (if i < 40 then 97 else 0)
    startsWith mem 24 0 5 = startsWithSimple mem 24 0 5 ∧ FindsNotChar mem true 24 40 97 := by
  intro mem
  have hinput : InInput mem 24 40 := ⟨by decide, fun i hi hlt => rfl, rfl⟩
  refine (vectors_agree_iff mem true 24 40 hinput 0 5 97).2 ⟨?_, by decide, ?_⟩
  · exact fun _ => .inl ⟨fun i hi => rfl, fun i hi => rfl⟩
  · intro hzero
    cases hzero

/-- In such a text the loop stops at the `x`. -/
theorem findsNotChar_twentyLetters :
    let mem : Memory := fun i => some (if i < 20 then 97 else if i = 20 then 120 else 0)
    ¬ (startsWith mem 0 0 1 = startsWithSimple mem 0 0 1 ∧ FindsNotChar mem true 0 21 97) := by
  rintro mem ⟨-, hfinds⟩
  have hinput : InInput mem 0 21 := ⟨by decide, fun i hi hlt => rfl, rfl⟩
  have hshort := ((findsNotChar_iff hinput).1 hfinds).1
  omega

end Moz.Core
