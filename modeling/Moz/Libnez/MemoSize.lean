import Mathlib.Data.Nat.Size
import Moz.Libnez.Memo

/-!
# The size of the memo table

`memo_elastic_init` with what C leaves undefined in it as `none`. Where it is defined it
gives the table of `memoTable`. The window is a power of two, the number of ids is read
from 16 bits, and positions are those of an input of `len` bytes at `head`, its end
included.
-/

namespace Moz

open Moz.Core

/-- The table has a power of two of slots, enough for the window, and different pairs of a position
and an id have different hashes. -/
structure MemoSized (w n : UInt32) (head : UInt64) (len : ℕ) (m : Memo) : Prop where
  power : ∃ k, m.ary.length = 2 ^ k
  room : w.toNat * n.toNat ≤ m.ary.length
  shift : m.shift.toNat < 64
  injective : ∀ pos ≤ len, ∀ pos' ≤ len, ∀ memoId < n, ∀ memoId' < n,
    m.hash (head + UInt64.ofNat pos) memoId = m.hash (head + UInt64.ofNat pos') memoId' →
    pos = pos' ∧ memoId = memoId'

variable {w n : UInt32} {head : UInt64} {len k : ℕ} {m : Memo}

theorem ceilLog2_toNat (n : UInt32) : (ceilLog2 n).toNat = (n - 1).toNat.size := by
  have hsize : (n - 1).toNat.size ≤ 32 := Nat.size_le.2 (n - 1).toNat_lt
  unfold ceilLog2
  apply UInt32.toNat_ofNat_of_lt'
  exact hsize.trans_lt (by decide)

theorem shift_toNat (n : UInt32) : (ceilLog2 n + 1).toNat = (n - 1).toNat.size + 1 := by
  have hsize : (n - 1).toNat.size ≤ 32 := Nat.size_le.2 (n - 1).toNat_lt
  rw [UInt32.toNat_add, ceilLog2_toNat]
  exact Nat.mod_eq_of_lt (by show _ + 1 < 2 ^ 32; omega)

/-- The ids below `n` fit the bits in front of the position. -/
theorem lt_two_pow_shift {n memoId : UInt32} (h : memoId < n) :
    memoId.toNat < 2 ^ (ceilLog2 n + 1).toNat := by
  have hlt : memoId.toNat < n.toNat := UInt32.lt_iff_toNat_lt.1 h
  have hone : (1 : UInt32) ≤ n := UInt32.le_iff_toNat_le.2 (by show 1 ≤ n.toNat; omega)
  have hsub : (n - 1).toNat = n.toNat - 1 := UInt32.toNat_sub_of_le _ _ hone
  have hsize : (n - 1).toNat < 2 ^ (n - 1).toNat.size := Nat.lt_size_self _
  rw [shift_toNat, Nat.pow_succ]
  omega

theorem shift_lt (n : UInt32) : (ceilLog2 n + 1).toNat < 64 := by
  have hsize : (n - 1).toNat.size ≤ 32 := Nat.size_le.2 (n - 1).toNat_lt
  rw [shift_toNat]
  omega

theorem Memo.hash_toNat {pos : UInt64} {memoId : UInt32} (hshift : m.shift.toNat < 64)
    (hid : memoId.toNat < 2 ^ m.shift.toNat) :
    (m.hash pos memoId).toNat =
      2 ^ m.shift.toNat * (pos.toNat % 2 ^ (64 - m.shift.toNat)) + memoId.toNat := by
  have hpow : 2 ^ m.shift.toNat * 2 ^ (64 - m.shift.toNat) = 2 ^ 64 := by
    rw [← Nat.pow_add]
    congr 1
    omega
  have hshifted : (pos <<< m.shift.toUInt64).toNat =
      2 ^ m.shift.toNat * (pos.toNat % 2 ^ (64 - m.shift.toNat)) := by
    rw [UInt64.toNat_shiftLeft, UInt32.toNat_toUInt64, Nat.mod_eq_of_lt hshift, Nat.shiftLeft_eq,
      Nat.mul_comm, ← hpow, Nat.mul_mod_mul_left]
  unfold Memo.hash
  rw [UInt64.toNat_or, hshifted, UInt32.toNat_toUInt64, Nat.two_pow_add_eq_or_of_lt hid]

theorem address_mod (shift : ℕ) (head : UInt64) (i : ℕ) :
    (head + UInt64.ofNat i).toNat % 2 ^ (64 - shift) = (head.toNat + i) % 2 ^ (64 - shift) := by
  have hdvd : 2 ^ (64 - shift) ∣ 2 ^ 64 := Nat.pow_dvd_pow 2 (by omega)
  rw [UInt64.toNat_add, UInt64.toNat_ofNat', Nat.mod_mod_of_dvd _ hdvd, Nat.add_mod,
    Nat.mod_mod_of_dvd _ hdvd, ← Nat.add_mod]

/-- Two positions of an input have different shifted addresses. -/
theorem address_inj {shift : ℕ} {head : UInt64} {len p q : ℕ} (hlen : len < 2 ^ (64 - shift))
    (hp : p ≤ len) (hq : q ≤ len)
    (h : (head + UInt64.ofNat p).toNat % 2 ^ (64 - shift) =
      (head + UInt64.ofNat q).toNat % 2 ^ (64 - shift)) : p = q := by
  rw [address_mod, address_mod] at h
  have hsame : p ≡ q [MOD 2 ^ (64 - shift)] := Nat.ModEq.add_left_cancel' head.toNat h
  exact Nat.ModEq.eq_of_lt_of_lt hsame (by omega) (by omega)

theorem Memo.hash_inj {head : UInt64} {n : UInt32} {len pos pos' : ℕ} {memoId memoId' : UInt32}
    (hm : m.shift = ceilLog2 n + 1) (hlen : len < 2 ^ (64 - m.shift.toNat)) (hpos : pos ≤ len)
    (hpos' : pos' ≤ len) (hid : memoId < n) (hid' : memoId' < n)
    (h : m.hash (head + UInt64.ofNat pos) memoId = m.hash (head + UInt64.ofNat pos') memoId') :
    pos = pos' ∧ memoId = memoId' := by
  have hshift : m.shift.toNat < 64 := hm ▸ shift_lt n
  have hlow : memoId.toNat < 2 ^ m.shift.toNat := hm ▸ lt_two_pow_shift hid
  have hlow' : memoId'.toNat < 2 ^ m.shift.toNat := hm ▸ lt_two_pow_shift hid'
  have hnat := congrArg UInt64.toNat h
  rw [Memo.hash_toNat hshift hlow, Memo.hash_toNat hshift hlow'] at hnat
  have hmod := congrArg (· % 2 ^ m.shift.toNat) hnat
  simp only [Nat.mul_add_mod, Nat.mod_eq_of_lt hlow, Nat.mod_eq_of_lt hlow'] at hmod
  rw [hmod] at hnat
  have haddr := Nat.eq_of_mul_eq_mul_left (Nat.two_pow_pos _) (Nat.add_right_cancel hnat)
  exact ⟨address_inj hlen hpos hpos' haddr, UInt32.toNat_inj.1 hmod⟩

theorem clog_eq {n : ℕ} (h : 1 < n) : Nat.clog 2 n = Nat.log 2 (n - 1) + 1 := by
  have hlow : 2 ^ Nat.log 2 (n - 1) ≤ n - 1 := Nat.pow_log_le_self 2 (by omega)
  have hhigh : n - 1 < 2 ^ (Nat.log 2 (n - 1) + 1) := Nat.lt_pow_succ_log_self (by norm_num) _
  apply le_antisymm
  · exact Nat.clog_le_of_le_pow (by omega)
  · exact (Nat.lt_clog_iff_pow_lt (by norm_num)).2 (by omega)

theorem size_eq {n : ℕ} (h : 1 < n) : (n - 1).size = Nat.clog 2 n := by
  have hlow : 2 ^ Nat.log 2 (n - 1) ≤ n - 1 := Nat.pow_log_le_self 2 (by omega)
  have hhigh : n - 1 < 2 ^ (Nat.log 2 (n - 1) + 1) := Nat.lt_pow_succ_log_self (by norm_num) _
  rw [clog_eq h]
  apply le_antisymm
  · exact Nat.size_le.2 hhigh
  · exact Nat.lt_size.2 hlow

theorem sub_one_toNat (h : 0 < n.toNat) : (n - 1).toNat = n.toNat - 1 :=
  UInt32.toNat_sub_of_le _ _ (UInt32.le_iff_toNat_le.2 h)

theorem ceilLog2_eq (h : 1 < n.toNat) : ceilLog2 n = UInt32.ofNat (Nat.clog 2 n.toNat) := by
  rw [ceilLog2, sub_one_toNat (by omega), size_eq h]

theorem one_shiftLeft_ceilLog2 (h : 1 < n.toNat) (hclog : Nat.clog 2 n.toNat < 32) :
    ((1 : UInt32) <<< ceilLog2 n).toNat = 2 ^ Nat.clog 2 n.toNat := by
  have hpow : 2 ^ Nat.clog 2 n.toNat < 2 ^ 32 := Nat.pow_lt_pow_right (by norm_num) hclog
  have htoNat : (UInt32.ofNat (Nat.clog 2 n.toNat)).toNat = Nat.clog 2 n.toNat :=
    UInt32.toNat_ofNat_of_lt' (by show _ < 2 ^ 32; omega)
  rw [UInt32.toNat_shiftLeft, ceilLog2_eq h, htoNat, Nat.mod_eq_of_lt hclog, Nat.shiftLeft_eq]
  show 1 * _ % _ = _
  rw [one_mul, Nat.mod_eq_of_lt hpow]

/-- Where nothing is undefined, the table is that of `memoTable`. -/
theorem memoElasticInit_eq (h : 1 < n.toNat) (hclog : Nat.clog 2 n.toNat < 31) :
    memoElasticInit w n = some (memoTable w n) := by
  have hlog : LOG2 n.toNat = some (Nat.clog 2 n.toNat) := by
    rw [LOG2_of_lt h n.toNat_lt, clog_eq h]
  have hone : UInt32.ofNat (2 ^ Nat.clog 2 n.toNat) = 1 <<< ceilLog2 n := by
    rw [← one_shiftLeft_ceilLog2 h (by omega), UInt32.ofNat_toNat]
  rw [memoElasticInit, hlog, Option.bind_eq_bind, Option.bind_some, shiftOne, if_pos hclog,
    Option.bind_some, hone, ← ceilLog2_eq h]
  rfl

/-- For no id the shift is by 32 bits, and for one id the leading zeros of 0 are counted. -/
theorem memoElasticInit_eq_none (h : n.toNat ≤ 1) : memoElasticInit w n = none := by
  have hcases : n.toNat = 0 ∨ n.toNat = 1 := by omega
  rcases hcases with h | h
  · have hlog : LOG2 0 = some 32 := by
      have hvalue : Nat.log 2 (2 ^ 32 - 1) = 31 := by
        rw [Nat.log_eq_iff (by norm_num)]
        norm_num
      have hclz : clzl (2 ^ 32 - 1) = some 32 := by
        rw [clzl_of_pos (by norm_num), hvalue]
      have hmod : (0 + (2 ^ 32 - 1)) % 2 ^ 32 = 2 ^ 32 - 1 := by norm_num
      rw [LOG2, hmod, hclz]
      rfl
    rw [memoElasticInit, h, hlog]
    rfl
  · have hlog : LOG2 1 = none := by
      have hmod : (1 + (2 ^ 32 - 1)) % 2 ^ 32 = 0 := by norm_num
      rw [LOG2, hmod]
      rfl
    rw [memoElasticInit, h, hlog]
    rfl

/-- `memo_elastic_init` is defined exactly for at least two ids and few enough of them. -/
theorem memoElasticInit_eq_some {m₀ : Memo} (h : memoElasticInit w n = some m₀) :
    1 < n.toNat ∧ Nat.clog 2 n.toNat < 31 ∧ m₀ = memoTable w n := by
  rcases Nat.lt_or_ge 1 n.toNat with hn | hn
  · have hlog : LOG2 n.toNat = some (Nat.clog 2 n.toNat) := by
      rw [LOG2_of_lt hn n.toNat_lt, clog_eq hn]
    have hclog : Nat.clog 2 n.toNat < 31 := by
      rw [memoElasticInit, hlog, Option.bind_eq_bind, Option.bind_some] at h
      obtain ⟨one, hone, -⟩ := Option.bind_eq_some_iff.1 h
      exact (shiftOne_eq_some.1 hone).1
    rw [memoElasticInit_eq hn hclog] at h
    exact ⟨hn, hclog, (Option.some.inj h).symm⟩
  · rw [memoElasticInit_eq_none hn] at h
    cases h

theorem clog_le (n : UInt16) : Nat.clog 2 n.toNat ≤ 16 := Nat.clog_le_of_le_pow n.toNat_lt.le

theorem memoTable_length (h : 1 < n.toNat) (hclog : Nat.clog 2 n.toNat < 32) (hw : w.toNat = 2 ^ k) :
    (memoTable w n).ary.length = 2 ^ (k + Nat.clog 2 n.toNat) % 2 ^ 32 := by
  rw [memoTable, List.length_replicate, UInt32.toNat_mul, one_shiftLeft_ceilLog2 h hclog, hw, pow_add]

theorem memoTable_shift (h : 1 < n.toNat) : (memoTable w n).shift.toNat = Nat.clog 2 n.toNat + 1 := by
  show (ceilLog2 n + 1).toNat = _
  rw [shift_toNat, sub_one_toNat (by omega), size_eq h]

theorem Memo.hash_far (hm : m.shift.toNat < 64) :
    m.hash (head + UInt64.ofNat 0) 0 = m.hash (head + UInt64.ofNat (2 ^ (64 - m.shift.toNat))) 0 := by
  have hid : UInt32.toNat 0 < 2 ^ m.shift.toNat := Nat.two_pow_pos _
  apply UInt64.toNat_inj.1
  rw [Memo.hash_toNat hm hid, Memo.hash_toNat hm hid, address_mod, address_mod, Nat.add_zero,
    Nat.add_mod_right]

/-- Sizing the memo table is well defined, and its hashes tell the questions of an input, exactly
for at least two ids, a table of less than 2 ^ 32 slots and an input that is short enough. -/
theorem memoSized_iff (w : UInt32) (k : ℕ) (hw : w.toNat = 2 ^ k) (n : UInt16) (head : UInt64) (len : ℕ) :
    (∃ m, memoElasticInit w n.toUInt32 = some m ∧ MemoSized w n.toUInt32 head len m) ↔
      2 ≤ n.toNat ∧ k + Nat.clog 2 n.toNat < 32 ∧ len < 2 ^ (63 - Nat.clog 2 n.toNat) := by
  have htoNat : n.toUInt32.toNat = n.toNat := UInt16.toNat_toUInt32 n
  have hclog := clog_le n
  rcases Nat.lt_or_ge n.toNat 2 with hsmall | hlarge
  · rw [memoElasticInit_eq_none (by omega)]
    constructor
    · rintro ⟨m, hm, -⟩
      cases hm
    · rintro ⟨hn, -, -⟩
      omega
  · have hone : 1 < n.toUInt32.toNat := by omega
    rw [← htoNat] at hclog
    have hlength := memoTable_length hone (by omega) hw
    have hshift : (memoTable w n.toUInt32).shift.toNat = _ := memoTable_shift hone
    have hbits : 64 - (memoTable w n.toUInt32).shift.toNat = 63 - Nat.clog 2 n.toUInt32.toNat := by omega
    have hlt : (memoTable w n.toUInt32).shift.toNat < 64 := by omega
    rw [memoElasticInit_eq hone (by omega), ← htoNat, ← hbits]
    constructor
    · rintro ⟨m, hm, hsized⟩
      cases hm
      refine ⟨hone, ?_, ?_⟩
      · by_contra hge
        obtain ⟨j, hj⟩ := hsized.power
        have hdvd : 2 ^ 32 ∣ 2 ^ (k + Nat.clog 2 n.toUInt32.toNat) := Nat.pow_dvd_pow 2 (by omega)
        rw [hlength, Nat.mod_eq_zero_of_dvd hdvd] at hj
        exact absurd hj.symm (Nat.two_pow_pos j).ne'
      · by_contra hge
        have hid : (0 : UInt32) < n.toUInt32 := UInt32.lt_iff_toNat_lt.2 (by show 0 < _; omega)
        have hsame := (hsized.injective 0 (Nat.zero_le _) _ (Nat.le_of_not_lt hge) 0 hid 0 hid
          (Memo.hash_far hlt)).1
        exact absurd hsame.symm (Nat.two_pow_pos _).ne'
    · rintro ⟨-, hfit, hlen⟩
      refine ⟨_, rfl, ?_, ?_, ?_, ?_⟩
      · refine ⟨k + Nat.clog 2 n.toUInt32.toNat, ?_⟩
        rw [hlength, Nat.mod_eq_of_lt (Nat.pow_lt_pow_right (by norm_num) hfit)]
      · rw [hlength, Nat.mod_eq_of_lt (Nat.pow_lt_pow_right (by norm_num) hfit), hw, pow_add]
        exact Nat.mul_le_mul_left _ (Nat.le_pow_clog (by norm_num) _)
      · exact hlt
      · intro pos hpos pos' hpos' memoId hid memoId' hid' heq
        exact Memo.hash_inj rfl hlen hpos hpos' hid hid' heq

theorem memoSized_iff_twentyIds :
    (∃ m, memoElasticInit 32 (20 : UInt16).toUInt32 = some m ∧
      MemoSized 32 (20 : UInt16).toUInt32 4096 100 m) ↔
      2 ≤ (20 : UInt16).toNat ∧ 5 + Nat.clog 2 (20 : UInt16).toNat < 32 ∧
        100 < 2 ^ (63 - Nat.clog 2 (20 : UInt16).toNat) :=
  memoSized_iff 32 5 rfl 20 4096 100

/-- The table of a module of the second machine, which is made for no id. -/
theorem memoSized_noIds :
    ¬ ∃ m, memoElasticInit 32 (0 : UInt16).toUInt32 = some m ∧
      MemoSized 32 (0 : UInt16).toUInt32 4096 100 m := by
  have hnone : memoElasticInit 32 (0 : UInt16).toUInt32 = none := memoElasticInit_eq_none (by decide)
  rw [hnone]
  rintro ⟨m, hm, -⟩
  cases hm

end Moz
