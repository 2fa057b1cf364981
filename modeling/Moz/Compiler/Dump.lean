import Mathlib.Algebra.BigOperators.Intervals
import Moz.Compiler.Expression

/-!
# Printing a set

`write_char` and `dump_set` of `dump.h` give the bytes they write, the terminator
included; a loop is given a number of rounds. A byte is printed with one, two or three
bytes, and a range of set bits with its two ends.
-/

namespace Moz.Compiler

open Finset

/-- `"0123456789abcdef"[n]` -/
def hexDigit (n : UInt8) : UInt8 := if n < 10 then 48 + n else 87 + n

def writeChar (ch : UInt8) : List UInt8 :=
  if ch = 92 then [92]
  else if ch = 8 then [92, 98]
  else if ch = 12 then [92, 102]
  else if ch = 10 then [92, 110]
  else if ch = 13 then [92, 114]
  else if ch = 9 then [92, 116]
  else if 32 ≤ ch ∧ ch ≤ 126 then [ch]
  else [92, hexDigit (ch / 16), hexDigit (ch % 16)]

/-- The inner loop of `dump_set`: where it leaves `j`. -/
def rangeEnd (set : Bitset) : ℕ → ℕ → Option ℕ
  | 0, _ => none
  | rounds + 1, j =>
    if j < 256 then
      if set.getLsbD j then rangeEnd set rounds (j + 1) else some j
    else some j

/-- The outer loop of `dump_set`. -/
def dumpFrom (set : Bitset) : ℕ → ℕ → Option (List UInt8)
  | 0, _ => none
  | rounds + 1, i =>
    if i < 256 then
      if set.getLsbD i then do
        let first := writeChar (.ofNat i)
        let j ← rangeEnd set (rounds + 1) (i + 1)
        let last := 45 :: writeChar (.ofNat (j - 1))
        if j = 256 then return first ++ last
        else if j = i + 1 then
          let rest ← dumpFrom set rounds (i + 1)
          return first ++ rest
        else
          let i := j - 1
          let rest ← dumpFrom set rounds (i + 1)
          return first ++ last ++ rest
      else dumpFrom set rounds (i + 1)
    else some []

def dumpSet (rounds : ℕ) (set : Bitset) : Option (List UInt8) := do
  let ranges ← dumpFrom set rounds 0
  return 91 :: ranges ++ [93, 0]

/-- `dump_set` ends, and writes within a buffer of so many bytes. -/
def FitsBuffer (set : Bitset) (size : ℕ) : Prop :=
  ∃ rounds buf, dumpSet rounds set = some buf ∧ buf.length ≤ size

def charWidth (ch : UInt8) : ℕ :=
  if ch ∈ [8, 9, 10, 12, 13] then 2 else if 32 ≤ ch ∧ ch ≤ 126 then 1 else 3

def BeginsRange (set : Bitset) (i : ℕ) : Prop :=
  set.getLsbD i ∧ ¬ (0 < i ∧ set.getLsbD (i - 1))

/-- The end of a range is printed here: of one of several bits, or of one with the last bit. -/
def EndsRange (set : Bitset) (i : ℕ) : Prop :=
  set.getLsbD i ∧ (i = 255 ∨ 0 < i ∧ set.getLsbD (i - 1) ∧ ¬ set.getLsbD (i + 1))

instance (set : Bitset) (i : ℕ) : Decidable (BeginsRange set i) :=
  inferInstanceAs (Decidable (_ ∧ _))

instance (set : Bitset) (i : ℕ) : Decidable (EndsRange set i) :=
  inferInstanceAs (Decidable (_ ∧ _))

def bitWidth (set : Bitset) (i : ℕ) : ℕ :=
  (if BeginsRange set i then charWidth (.ofNat i) else 0) +
    if EndsRange set i then 1 + charWidth (.ofNat i) else 0

/-- The length of the text: the brackets, the terminator and the ends of the ranges. -/
def textLength (set : Bitset) : ℕ := 3 + ∑ i ∈ range 256, bitWidth set i

variable {set : Bitset} {rounds i j e : ℕ}

theorem length_writeChar (ch : UInt8) : (writeChar ch).length = charWidth ch := by
  unfold writeChar charWidth
  split_ifs <;> simp_all

/-- The inner loop passes the set bits, and stops at a bit that is not set or at the end. -/
theorem rangeEnd_spec (h : rangeEnd set rounds j = some e) (hj : j ≤ 256) :
    j ≤ e ∧ e ≤ 256 ∧ (∀ k, j ≤ k → k < e → set.getLsbD k) ∧ ¬ set.getLsbD e := by
  induction rounds generalizing j with
  | zero => cases h
  | succ rounds ih =>
    rw [rangeEnd] at h
    split_ifs at h with hlt hset
    · obtain ⟨hle, hend, hall, hstop⟩ := ih h hlt
      refine ⟨by omega, hend, fun k hk hke => ?_, hstop⟩
      rcases Nat.eq_or_lt_of_le hk with rfl | hk
      · exact hset
      · exact hall k hk hke
    · cases h
      exact ⟨le_rfl, hj, fun k hk hke => by omega, hset⟩
    · cases h
      refine ⟨le_rfl, hj, fun k hk hke => by omega, ?_⟩
      rw [BitVec.getLsbD_of_ge set _ (by omega)]
      exact Bool.false_ne_true

theorem rangeEnd_isSome (h : 256 - j < rounds) : ∃ e, rangeEnd set rounds j = some e := by
  induction rounds generalizing j with
  | zero => omega
  | succ rounds ih =>
    rw [rangeEnd]
    split_ifs with hlt hset
    · exact ih (by omega)
    · exact ⟨j, rfl⟩
    · exact ⟨j, rfl⟩

theorem bitWidth_unset (h : ¬ set.getLsbD i) : bitWidth set i = 0 := by
  rw [bitWidth, if_neg (fun hb => h hb.1), if_neg (fun he => h he.1)]

theorem bitWidth_inside (hi : i < 255) (hpos : 0 < i) (hbefore : set.getLsbD (i - 1))
    (hafter : set.getLsbD (i + 1)) : bitWidth set i = 0 := by
  rw [bitWidth, if_neg (fun hb => hb.2 ⟨hpos, hbefore⟩), if_neg]
  rintro ⟨-, rfl | ⟨-, -, hunset⟩⟩
  · omega
  · exact hunset hafter

theorem sum_bitWidth (hlt : i < e) (he : e ≤ 256) (hbefore : ¬ (0 < i ∧ set.getLsbD (i - 1)))
    (hall : ∀ k, i ≤ k → k < e → set.getLsbD k) (hstop : ¬ set.getLsbD e) :
    ∑ k ∈ Ico i e, bitWidth set k = charWidth (.ofNat i) +
      if e = 256 ∨ i + 1 < e then 1 + charWidth (.ofNat (e - 1)) else 0 := by
  have hbegins : BeginsRange set i := ⟨hall i le_rfl hlt, hbefore⟩
  have hset := hall (e - 1) (by omega) (by omega)
  rcases Nat.eq_or_lt_of_le (Nat.succ_le_of_lt hlt) with rfl | hlong
  · -- a range of one bit
    have hends : EndsRange set i ↔ i + 1 = 256 := by
      constructor
      · rintro ⟨-, h | ⟨hpos, hprev, -⟩⟩
        · omega
        · exact absurd ⟨hpos, hprev⟩ hbefore
      · intro h
        exact ⟨hbegins.1, .inl (by omega)⟩
    rw [Nat.succ_eq_add_one, Nat.Ico_succ_singleton, sum_singleton, bitWidth, if_pos hbegins]
    simp only [hends, lt_irrefl, or_false, Nat.add_sub_cancel]
  · have hinside : ∑ k ∈ Ico (i + 1) (e - 1), bitWidth set k = 0 := by
      apply sum_eq_zero
      intro k hk
      rw [mem_Ico] at hk
      exact bitWidth_inside (by omega) (by omega) (hall _ (by omega) (by omega))
        (hall _ (by omega) (by omega))
    have hfirst : bitWidth set i = charWidth (.ofNat i) := by
      have hnot : ¬ EndsRange set i := by
        rintro ⟨-, h | ⟨-, -, hunset⟩⟩
        · omega
        · exact hunset (hall _ (by omega) hlong)
      rw [bitWidth, if_pos hbegins, if_neg hnot, add_zero]
    have hlast : bitWidth set (e - 1) = 1 + charWidth (.ofNat (e - 1)) := by
      have hnot : ¬ BeginsRange set (e - 1) := fun h => h.2 ⟨by omega, hall _ (by omega) (by omega)⟩
      have hends : EndsRange set (e - 1) := by
        refine ⟨hset, .inr ⟨by omega, hall _ (by omega) (by omega), ?_⟩⟩
        rwa [Nat.sub_add_cancel (by omega)]
      rw [bitWidth, if_neg hnot, if_pos hends, zero_add]
    have hsucc : e - 1 + 1 = e := by omega
    rw [sum_eq_sum_Ico_succ_bot hlt, hfirst, if_pos (.inr hlong)]
    nth_rewrite 1 [← hsucc]
    rw [sum_Ico_succ_top (by omega), hinside, hlast, zero_add]

theorem dumpFrom_isSome (h : 256 - i < rounds) : ∃ out, dumpFrom set rounds i = some out := by
  induction rounds generalizing i with
  | zero => omega
  | succ rounds ih =>
    rw [dumpFrom]
    split_ifs with hlt hset
    · have hinner : ∃ e, rangeEnd set (rounds + 1) (i + 1) = some e := rangeEnd_isSome (by omega)
      obtain ⟨e, he⟩ := hinner
      obtain ⟨hle, -, -, -⟩ := rangeEnd_spec he hlt
      obtain ⟨rest, hrest⟩ := ih (i := i + 1) (by omega)
      obtain ⟨rest', hrest'⟩ := ih (i := e - 1 + 1) (by omega)
      rw [he, Option.bind_eq_bind, Option.bind_some]
      dsimp only
      rw [hrest, hrest']
      split_ifs <;> exact ⟨_, rfl⟩
    · exact ih (by omega)
    · exact ⟨[], rfl⟩

/-- The loop writes what the bits from `i` on add to the text. -/
theorem dumpFrom_length {out : List UInt8} (h : dumpFrom set rounds i = some out) (hi : i ≤ 256)
    (hstart : set.getLsbD i → ¬ (0 < i ∧ set.getLsbD (i - 1))) :
    out.length = ∑ k ∈ Ico i 256, bitWidth set k := by
  induction rounds generalizing i out with
  | zero => cases h
  | succ rounds ih =>
    rw [dumpFrom] at h
    split_ifs at h with hlt hset
    · rw [Option.bind_eq_bind, Option.bind_eq_some_iff] at h
      obtain ⟨e, he, h⟩ := h
      obtain ⟨hle, hend, hall, hstop⟩ := rangeEnd_spec he hlt
      have hrange := sum_bitWidth (by omega) hend (hstart hset)
        (fun k hk hke => (Nat.eq_or_lt_of_le hk).elim (fun h => h ▸ hset) fun h => hall k h hke) hstop
      split_ifs at h with hfull hone
      · -- the range goes up to the last bit
        subst hfull
        cases h
        rw [hrange, if_pos (.inl rfl), List.length_append, List.length_cons, length_writeChar,
          length_writeChar]
        omega
      · -- a range of one bit
        subst hone
        rw [Option.bind_eq_bind, Option.bind_eq_some_iff] at h
        obtain ⟨rest, hrest, hout⟩ := h
        cases hout
        have hlength := ih hrest hend fun h => absurd h hstop
        rw [← sum_Ico_consecutive _ (Nat.le_succ i) hend, hrange, if_neg (by omega), List.length_append,
          length_writeChar, hlength, add_zero]
      · have hsucc : e - 1 + 1 = e := by omega
        dsimp only at h
        rw [hsucc, Option.bind_eq_bind, Option.bind_eq_some_iff] at h
        obtain ⟨rest, hrest, hout⟩ := h
        cases hout
        have hlength := ih hrest hend fun h => absurd h hstop
        rw [← sum_Ico_consecutive _ (by omega : i ≤ e) hend, hrange, if_pos (.inr (by omega)),
          List.length_append, List.length_append, List.length_cons, length_writeChar,
          length_writeChar, hlength]
        omega
    · rw [sum_eq_sum_Ico_succ_bot hlt, bitWidth_unset hset, zero_add]
      exact ih h hlt fun _ h => hset h.2
    · cases h
      rw [Ico_eq_empty_of_le (by omega)]
      rfl

theorem fitsBuffer_iff (set : Bitset) (size : ℕ) : FitsBuffer set size ↔ textLength set ≤ size := by
  have hlength : ∀ rounds ranges, dumpFrom set rounds 0 = some ranges →
      (91 :: ranges ++ [93, 0]).length = textLength set := by
    intro rounds ranges h
    have hranges := dumpFrom_length h (Nat.zero_le _) fun _ h => absurd h.1 (lt_irrefl 0)
    rw [← range_eq_Ico] at hranges
    simp only [List.length_append, List.length_cons, List.length_nil, textLength, hranges]
    omega
  constructor
  · rintro ⟨rounds, buf, hbuf, hle⟩
    rw [dumpSet, Option.bind_eq_bind, Option.bind_eq_some_iff] at hbuf
    obtain ⟨ranges, hranges, hbuf⟩ := hbuf
    cases hbuf
    rwa [← hlength rounds ranges hranges]
  · intro hle
    have hends : ∃ ranges, dumpFrom set 257 0 = some ranges := dumpFrom_isSome (Nat.lt_succ_self 256)
    obtain ⟨ranges, hranges⟩ := hends
    refine ⟨257, _, ?_, (hlength 257 ranges hranges).trans_le hle⟩
    rw [dumpSet, hranges]
    rfl

theorem bitWidth_le (hi : i < 255) : bitWidth set i ≤ 1 + charWidth (.ofNat i) := by
  have hone : ¬ (BeginsRange set i ∧ EndsRange set i) := by
    rintro ⟨⟨-, hbefore⟩, -, h | ⟨hpos, hprev, -⟩⟩
    · omega
    · exact hbefore ⟨hpos, hprev⟩
  rw [bitWidth]
  split_ifs with hbegins hends
  · exact absurd ⟨hbegins, hends⟩ hone
  all_goals omega

theorem textLength_le (set : Bitset) : textLength set ≤ 1024 := by
  have hlast : bitWidth set 255 ≤ 7 := by
    rw [bitWidth]
    have hwidth : charWidth (.ofNat 255) = 3 := by decide
    rw [hwidth]
    split_ifs <;> omega
  have hsum : ∑ i ∈ range 255, bitWidth set i ≤ ∑ i ∈ range 255, (1 + charWidth (.ofNat i)) :=
    sum_le_sum fun i hi => bitWidth_le (mem_range.1 hi)
  have hvalue : ∑ i ∈ range 255, (1 + charWidth (.ofNat i)) = 825 := by decide +kernel
  rw [textLength, sum_range_succ]
  omega

/-- Printing a set always fits 1024 bytes, and fits 128 bytes exactly if its ranges are short
enough. -/
theorem dumpSet_fits (set : Bitset) :
    (FitsBuffer set 128 ∧ FitsBuffer set 1024 ↔ textLength set ≤ 128) ∧ FitsBuffer set 1024 := by
  have hlarge := (fitsBuffer_iff set 1024).2 (textLength_le set)
  exact ⟨(and_iff_left hlarge).trans (fitsBuffer_iff set 128), hlarge⟩

/-- The even bytes from 128 on take 195 bytes. -/
theorem dumpSet_evenBytes :
    ¬ (FitsBuffer 0x5555555555555555555555555555555500000000000000000000000000000000 128 ∧
      FitsBuffer 0x5555555555555555555555555555555500000000000000000000000000000000 1024) := by
  rintro ⟨hfits, -⟩
  have hlength := (fitsBuffer_iff _ _).1 hfits
  revert hlength
  decide +kernel

end Moz.Compiler
