import Mathlib.Data.Nat.Log
import Mathlib.Tactic

/-!
# Capacities

The arithmetic of `ARRAY_ensureSize` in `karray.h`, in an `unsigned` of 32 bits. What
C leaves undefined (a leading zero count of zero, a shift out of the type) is `none`.
The loop is given a number of rounds.
-/

namespace Moz.Core

/-- `__builtin_clzl` on a word of 64 bits. -/
def clzl (x : ℕ) : Option ℕ := if x = 0 then none else some (63 - Nat.log 2 x)

/-- `LOG2` of an `unsigned`: the subtraction is in 32 bits. -/
def LOG2 (n : ℕ) : Option ℕ := (clzl ((n + (2 ^ 32 - 1)) % 2 ^ 32)).map (64 - ·)

/-- `1 << shift` in an `int`. -/
def shiftOne (shift : ℕ) : Option ℕ := if shift < 31 then some (2 ^ shift) else none

/-- A round of the loop of `ARRAY_ensureSize`. -/
def growCapacity (capacity : ℕ) : Option ℕ := do
  let shift ← LOG2 ((capacity * 2 + 1) % 2 ^ 32)
  shiftOne shift

theorem clzl_of_pos {x : ℕ} (h : 0 < x) : clzl x = some (63 - Nat.log 2 x) :=
  if_neg (Nat.pos_iff_ne_zero.1 h)

theorem LOG2_of_lt {n : ℕ} (h : 1 < n) (hlt : n < 2 ^ 32) : LOG2 n = some (Nat.log 2 (n - 1) + 1) := by
  have hsub : (n + (2 ^ 32 - 1)) % 2 ^ 32 = n - 1 := by omega
  have hlog : Nat.log 2 (n - 1) < 32 := Nat.log_lt_of_lt_pow (by omega) (by omega)
  have hclz : 64 - (63 - Nat.log 2 (n - 1)) = Nat.log 2 (n - 1) + 1 := by omega
  rw [LOG2, hsub, clzl_of_pos (by omega), Option.map_some, hclz]

theorem growCapacity_of_lt {c : ℕ} (h : 0 < c) (hlt : c < 2 ^ 31) :
    growCapacity c = shiftOne (Nat.log 2 c + 2) := by
  have hmod : (c * 2 + 1) % 2 ^ 32 = c * 2 + 1 := Nat.mod_eq_of_lt (by omega)
  have hlog : Nat.log 2 (c * 2) = Nat.log 2 c + 1 := Nat.log_mul_base (by norm_num) (by omega)
  rw [growCapacity, hmod, LOG2_of_lt (by omega) (by omega), Nat.add_sub_cancel, hlog]
  rfl

theorem growCapacity_zero : growCapacity 0 = none := by
  have hlog : LOG2 ((0 * 2 + 1) % 2 ^ 32) = none := by
    rw [LOG2]
    norm_num
    rfl
  rw [growCapacity, hlog]
  rfl

theorem shiftOne_eq_some {shift x : ℕ} : shiftOne shift = some x ↔ shift < 31 ∧ 2 ^ shift = x := by
  simp [shiftOne]

theorem growCapacity_le {c c' : ℕ} (h : growCapacity c = some c') : c' ≤ 2 ^ 30 := by
  rw [growCapacity, Option.bind_eq_bind, Option.bind_eq_some_iff] at h
  obtain ⟨shift, -, hshift⟩ := h
  obtain ⟨hlt, rfl⟩ := shiftOne_eq_some.1 hshift
  exact Nat.pow_le_pow_right (by norm_num) (by omega)

theorem lt_growCapacity {c c' : ℕ} (hlt : c < 2 ^ 31) (h : growCapacity c = some c') : c < c' := by
  rcases Nat.eq_zero_or_pos c with rfl | hpos
  · rw [growCapacity_zero] at h
    cases h
  · rw [growCapacity_of_lt hpos hlt] at h
    obtain ⟨-, rfl⟩ := shiftOne_eq_some.1 h
    calc c < 2 ^ (Nat.log 2 c + 1) := Nat.lt_pow_succ_log_self (by norm_num) c
      _ ≤ 2 ^ (Nat.log 2 c + 2) := Nat.pow_le_pow_right (by norm_num) (by omega)

/-- The `while` loop of `ARRAY_ensureSize` for a number of rounds; `none` if a round is undefined or
they are not enough. -/
def growLoop (need : ℕ) : ℕ → ℕ → Option ℕ
  | 0, _ => none
  | rounds + 1, capacity =>
    if need ≤ capacity then some capacity
    else (growCapacity capacity).bind (growLoop need rounds)

theorem growLoop_of_le {need rounds c : ℕ} (h : need ≤ c) : growLoop need (rounds + 1) c = some c :=
  if_pos h

theorem growLoop_of_lt {need rounds c : ℕ} (h : c < need) :
    growLoop need (rounds + 1) c = (growCapacity c).bind (growLoop need rounds) :=
  if_neg (by omega)

/-- The largest capacity that growing leads to: the logarithm goes up by 2 in each round. -/
def maxCapacity (c : ℕ) : ℕ :=
  if c = 0 ∨ 2 ^ 29 ≤ c then c
  else if Even (Nat.log 2 c) then 2 ^ 30 else 2 ^ 29

theorem log_lt_iff {c : ℕ} (hpos : 0 < c) (n : ℕ) : Nat.log 2 c < n ↔ c < 2 ^ n :=
  Nat.log_lt_iff_lt_pow (by norm_num) (by omega)

theorem le_maxCapacity (c : ℕ) : c ≤ maxCapacity c := by
  unfold maxCapacity
  split_ifs <;> omega

/-- A round leads to a capacity from which the same can be reached. -/
theorem maxCapacity_growCapacity {c c' : ℕ} (hlt : c < 2 ^ 31) (h : growCapacity c = some c') :
    0 < c ∧ c < 2 ^ 29 ∧ Nat.log 2 c' = Nat.log 2 c + 2 ∧ maxCapacity c' = maxCapacity c := by
  have hpos : 0 < c := by
    rcases Nat.eq_zero_or_pos c with rfl | hpos
    · rw [growCapacity_zero] at h
      cases h
    · exact hpos
  rw [growCapacity_of_lt hpos hlt] at h
  obtain ⟨hshift, rfl⟩ := shiftOne_eq_some.1 h
  have hsmall : c < 2 ^ 29 := (log_lt_iff hpos 29).1 (by omega)
  have hlog : Nat.log 2 (2 ^ (Nat.log 2 c + 2)) = Nat.log 2 c + 2 := Nat.log_pow (by norm_num) _
  refine ⟨hpos, hsmall, hlog, ?_⟩
  have hc : maxCapacity c = if Even (Nat.log 2 c) then 2 ^ 30 else 2 ^ 29 := if_neg (by omega)
  rw [hc]
  rcases Nat.lt_or_ge (Nat.log 2 c + 2) 29 with hlow | hhigh
  · have hsmall' := Nat.pow_lt_pow_right (a := 2) (by norm_num) hlow
    have hpos' : 0 < 2 ^ (Nat.log 2 c + 2) := by positivity
    rw [maxCapacity, if_neg (by omega), hlog]
    simp [Nat.even_add]
  · have hcases : Nat.log 2 c = 27 ∨ Nat.log 2 c = 28 := by omega
    rcases hcases with hlast | hlast <;> rw [hlast] <;> rfl

/-- The loop ends with enough room, in what it began with or in 2 ^ 30 cells at most. -/
theorem growLoop_le {need rounds c x : ℕ} (h : growLoop need rounds c = some x) :
    need ≤ x ∧ (x = c ∨ x ≤ 2 ^ 30) := by
  induction rounds generalizing c with
  | zero => cases h
  | succ rounds ih =>
    rcases Nat.lt_or_ge c need with hlt | hle
    · rw [growLoop_of_lt hlt, Option.bind_eq_some_iff] at h
      obtain ⟨c', hgrow, hrest⟩ := h
      have hc' := growCapacity_le hgrow
      obtain ⟨hneed, rfl | hx⟩ := ih hrest
      · exact ⟨hneed, .inr hc'⟩
      · exact ⟨hneed, .inr hx⟩
    · rw [growLoop_of_le hle] at h
      cases h
      exact ⟨hle, .inl rfl⟩

/-- The loop ends only if the request is within reach, and leaves it so. -/
theorem growLoop_reach {need rounds c x : ℕ} (h : growLoop need rounds c = some x) :
    need ≤ maxCapacity c ∧ c ≤ x ∧ maxCapacity x = maxCapacity c := by
  induction rounds generalizing c with
  | zero => cases h
  | succ rounds ih =>
    rcases Nat.lt_or_ge c need with hlt | hle
    · rw [growLoop_of_lt hlt, Option.bind_eq_some_iff] at h
      obtain ⟨c', hgrow, hrest⟩ := h
      rcases Nat.lt_or_ge c (2 ^ 31) with hsmall | hlarge
      · obtain ⟨hneed, hx, hmax⟩ := ih hrest
        obtain ⟨-, -, -, hmax'⟩ := maxCapacity_growCapacity hsmall hgrow
        have hstep := lt_growCapacity hsmall hgrow
        rw [hmax'] at hneed hmax
        exact ⟨hneed, by omega, hmax⟩
      · -- the doubling has wrapped around, and what follows is too small
        have hc' := growCapacity_le hgrow
        obtain ⟨hneed, hx⟩ := growLoop_le hrest
        omega
    · rw [growLoop_of_le hle] at h
      cases h
      exact ⟨hle.trans (le_maxCapacity _), le_rfl, rfl⟩

/-- Each round adds 2 to the logarithm, so that a few rounds are enough. -/
theorem growLoop_isSome {need rounds c : ℕ} (hrounds : 29 ≤ Nat.log 2 c + 2 * rounds)
    (h : need ≤ maxCapacity c) : ∃ x, growLoop need (rounds + 1) c = some x := by
  induction rounds generalizing c with
  | zero =>
    have hpos : 0 < c := by
      rcases Nat.eq_zero_or_pos c with rfl | hpos
      · simp at hrounds
      · exact hpos
    have hlarge : 2 ^ 29 ≤ c := by
      by_contra hsmall
      have := (log_lt_iff hpos 29).2 (by omega)
      omega
    rw [maxCapacity, if_pos (.inr hlarge)] at h
    exact ⟨c, growLoop_of_le h⟩
  | succ rounds ih =>
    rcases Nat.lt_or_ge c need with hlt | hle
    · have hgrows : 0 < c ∧ c < 2 ^ 29 := by
        by_contra hlast
        rw [maxCapacity, if_pos (by omega)] at h
        omega
      have hlog := (log_lt_iff hgrows.1 29).2 hgrows.2
      have hgrow : growCapacity c = some (2 ^ (Nat.log 2 c + 2)) := by
        rw [growCapacity_of_lt hgrows.1 (by omega)]
        exact shiftOne_eq_some.2 ⟨by omega, rfl⟩
      obtain ⟨-, -, hlog', hmax⟩ := maxCapacity_growCapacity (by omega) hgrow
      rw [growLoop_of_lt hlt, hgrow]
      exact ih (by omega) (by rwa [hmax])
    · exact ⟨c, growLoop_of_le hle⟩

def growRounds : ℕ := 16

theorem growLoop_iff {need c : ℕ} :
    (∃ x, growLoop need growRounds c = some x) ↔ need ≤ maxCapacity c := by
  constructor
  · rintro ⟨x, hx⟩
    exact (growLoop_reach hx).1
  · exact growLoop_isSome (by omega)

end Moz.Core
