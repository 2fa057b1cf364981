import Mathlib.Data.Int.ModEq
import Mathlib.Tactic

/-!
# Little-endian words in byte lists

Words are stored least significant byte first. `encode k n` keeps the `k` low
bytes of `n`, `decode` reads a byte list back, and `readAt`/`patch` address a
word inside a longer list. Signed 32-bit values are the balanced residues of
`Int.bmod`, so that storing an integer and reading it back is `Int.bmod`.
-/

namespace Moz.LittleEndian

/-- The `k` low-order bytes of `n`, least significant first. -/
def encode : ℕ → ℕ → List UInt8
  | 0, _ => []
  | k + 1, n => UInt8.ofNat n :: encode k (n / 256)

def decode : List UInt8 → ℕ
  | [] => 0
  | b :: bs => b.toNat + 256 * decode bs

@[simp] theorem encode_length (k n : ℕ) : (encode k n).length = k := by
  induction k generalizing n with
  | zero => rfl
  | succ k ih => simp [encode, ih]

theorem decode_encode (k n : ℕ) : decode (encode k n) = n % 256 ^ k := by
  induction k generalizing n with
  | zero => simp [encode, decode, Nat.mod_one]
  | succ k ih =>
    have hb : (UInt8.ofNat n).toNat = n % 256 := by simp
    rw [encode, decode, ih, hb, pow_succ, mul_comm (256 ^ k), Nat.mod_mul]

/-- `k` bytes of `code` from offset `off` on. -/
def slice (code : List UInt8) (off k : ℕ) : List UInt8 := (code.drop off).take k

/-- The unsigned `k`-byte word stored at `off`. -/
def readAt (code : List UInt8) (off k : ℕ) : ℕ := decode (slice code off k)

/-- The signed 32-bit word stored at `off`. -/
def readInt32 (code : List UInt8) (off : ℕ) : ℤ := Int.bmod (readAt code off 4) (2 ^ 32)

/-- The four bytes of the 32-bit word `z` is truncated to. -/
def encodeInt32 (z : ℤ) : List UInt8 := encode 4 (z % 2 ^ 32).toNat

/-- Overwrite `code` with `bs` from offset `off` on. -/
def patch (code : List UInt8) (off : ℕ) (bs : List UInt8) : List UInt8 :=
  code.take off ++ bs ++ code.drop (off + bs.length)

@[simp] theorem encodeInt32_length (z : ℤ) : (encodeInt32 z).length = 4 := encode_length _ _

theorem patch_length {code bs : List UInt8} {off : ℕ} (h : off + bs.length ≤ code.length) :
    (patch code off bs).length = code.length := by
  simp only [patch, List.length_append, List.length_take, List.length_drop]
  omega

theorem slice_append (pre bs post : List UInt8) :
    slice (pre ++ bs ++ post) pre.length bs.length = bs := by
  simp [slice]

theorem slice_patch_self {code bs : List UInt8} {off : ℕ} (h : off ≤ code.length) :
    slice (patch code off bs) off bs.length = bs := by
  have hlen : (code.take off).length = off := by simp [h]
  simpa [patch, hlen] using
    slice_append (code.take off) bs (code.drop (off + bs.length))

/-- A patch leaves every slice alone that ends before it or starts after it. -/
theorem slice_patch_of_disjoint {code bs : List UInt8} {off p k : ℕ}
    (h : off + bs.length ≤ code.length) (hd : p + k ≤ off ∨ off + bs.length ≤ p) :
    slice (patch code off bs) p k = slice code p k := by
  apply List.ext_getElem?
  intro i
  simp only [slice, patch, List.getElem?_take, List.getElem?_drop]
  split_ifs with hi
  · rcases hd with hd | hd
    · rw [List.append_assoc, List.getElem?_append_left (by simp; omega),
        List.getElem?_take_of_lt (by omega)]
    · have hlen : (code.take off ++ bs).length = off + bs.length := by simp; omega
      rw [List.getElem?_append_right (by omega), hlen, List.getElem?_drop]
      congr 1
      omega
  · rfl

theorem decode_encodeInt32 (z : ℤ) : (decode (encodeInt32 z) : ℤ) = z % 2 ^ 32 := by
  have hnn : 0 ≤ z % 2 ^ 32 := Int.emod_nonneg z (by norm_num)
  have hlt : z % 2 ^ 32 < 2 ^ 32 := Int.emod_lt_of_pos z (by norm_num)
  have hpow : (256 : ℕ) ^ 4 = 2 ^ 32 := by norm_num
  have hcap : (z % 2 ^ 32).toNat < 256 ^ 4 := by
    rw [hpow, Int.toNat_lt hnn]
    exact_mod_cast hlt
  rw [encodeInt32, decode_encode, Nat.mod_eq_of_lt hcap, Int.toNat_of_nonneg hnn]

theorem emod_bmod_int32 (z : ℤ) : Int.bmod (z % 2 ^ 32) (2 ^ 32) = Int.bmod z (2 ^ 32) := by
  have hcast : ((2 ^ 32 : ℕ) : ℤ) = 2 ^ 32 := by norm_num
  rw [← hcast, Int.emod_bmod]

/-- Storing `z` in four bytes and reading them back signed is `Int.bmod z 2^32`. -/
theorem readInt32_of_slice {code : List UInt8} {off : ℕ} {z : ℤ}
    (h : slice code off 4 = encodeInt32 z) : readInt32 code off = Int.bmod z (2 ^ 32) :=
  calc readInt32 code off = Int.bmod (decode (slice code off 4)) (2 ^ 32) := rfl
    _ = Int.bmod (z % 2 ^ 32) (2 ^ 32) := by rw [h, decode_encodeInt32]
    _ = Int.bmod z (2 ^ 32) := emod_bmod_int32 z

theorem readAt_of_slice {code : List UInt8} {off k n : ℕ}
    (h : slice code off k = encode k n) : readAt code off k = n % 256 ^ k := by
  rw [readAt, h, decode_encode]

/-- A balanced residue is the number itself exactly when the number fits. -/
theorem bmod_eq_iff (z w : ℤ) :
    Int.bmod z (2 ^ 32) = w ↔ z ≡ w [ZMOD 2 ^ 32] ∧ -2 ^ 31 ≤ w ∧ w < 2 ^ 31 := by
  unfold Int.ModEq
  rw [Int.bmod_def]
  constructor
  · rintro rfl
    split_ifs <;> refine ⟨?_, ?_, ?_⟩ <;> omega
  · rintro ⟨h, hl, hu⟩
    split_ifs <;> omega

section Loop

variable {β : Type} (g : β → ℕ → ℤ)

/-- Replace the word at every listed offset by one computed from it. -/
def patchAll (code : List UInt8) (entries : List (ℕ × β)) : List UInt8 :=
  entries.foldl (fun code e => patch code e.1 (encodeInt32 (g e.2 (readAt code e.1 4)))) code

theorem patchAll_length {entries : List (ℕ × β)} {code : List UInt8}
    (hb : ∀ e ∈ entries, e.1 + 4 ≤ code.length) :
    (patchAll g code entries).length = code.length := by
  induction entries generalizing code with
  | nil => rfl
  | cons e es ih =>
    have he := hb e (by simp)
    have hlen : (patch code e.1 (encodeInt32 (g e.2 (readAt code e.1 4)))).length = code.length :=
      patch_length (by simpa using he)
    rw [patchAll, List.foldl_cons, ← patchAll, ih, hlen]
    intro e' he'
    rw [hlen]
    exact hb e' (by simp [he'])

/-- A loop of patches leaves every slice alone that no listed word meets. -/
theorem slice_patchAll_of_disjoint {entries : List (ℕ × β)} {code : List UInt8} {p k : ℕ}
    (hb : ∀ e ∈ entries, e.1 + 4 ≤ code.length)
    (hd : ∀ e ∈ entries, p + k ≤ e.1 ∨ e.1 + 4 ≤ p) :
    slice (patchAll g code entries) p k = slice code p k := by
  induction entries generalizing code with
  | nil => rfl
  | cons e es ih =>
    have he := hb e (by simp)
    have hlen : (patch code e.1 (encodeInt32 (g e.2 (readAt code e.1 4)))).length = code.length :=
      patch_length (by simpa using he)
    rw [patchAll, List.foldl_cons, ← patchAll, ih, slice_patch_of_disjoint]
    · simpa using he
    · simpa using hd e (by simp)
    · intro e' he'
      rw [hlen]
      exact hb e' (by simp [he'])
    · intro e' he'
      exact hd e' (by simp [he'])

/-- When the listed words do not overlap, each ends up patched from its first value. -/
theorem slice_patchAll_of_mem {entries : List (ℕ × β)} {code : List UInt8} {e : ℕ × β}
    (hb : ∀ e ∈ entries, e.1 + 4 ≤ code.length)
    (hs : entries.Pairwise fun e e' => e.1 + 4 ≤ e'.1) (he : e ∈ entries) :
    slice (patchAll g code entries) e.1 4 = encodeInt32 (g e.2 (readAt code e.1 4)) := by
  induction entries generalizing code with
  | nil => cases he
  | cons x es ih =>
    have hx := hb x (by simp)
    have hxp : ∀ e' ∈ es, x.1 + 4 ≤ e'.1 := fun e' he' => List.rel_of_pairwise_cons hs he'
    have hlen : (patch code x.1 (encodeInt32 (g x.2 (readAt code x.1 4)))).length = code.length :=
      patch_length (by simpa using hx)
    have hb' : ∀ e ∈ es, e.1 + 4 ≤
        (patch code x.1 (encodeInt32 (g x.2 (readAt code x.1 4)))).length := by
      intro e' he'
      rw [hlen]
      exact hb e' (by simp [he'])
    rw [patchAll, List.foldl_cons, ← patchAll]
    cases he with
    | head =>
      rw [slice_patchAll_of_disjoint g hb' fun e' he' => .inl (hxp e' he')]
      have hself : ∀ z, slice (patch code e.1 (encodeInt32 z)) e.1 4 = encodeInt32 z := fun z => by
        have hle : e.1 ≤ code.length := by omega
        have hz := @slice_patch_self code (encodeInt32 z) e.1 hle
        rwa [encodeInt32_length] at hz
      exact hself _
    | tail _ he =>
      rw [ih hb' hs.of_cons he, readAt, slice_patch_of_disjoint (by simpa using hx), ← readAt]
      exact .inr (by simpa using hxp e he)

end Loop

end Moz.LittleEndian
