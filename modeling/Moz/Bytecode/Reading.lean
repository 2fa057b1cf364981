import Moz.Bytecode.File

/-!
# Reading what was written

A reader reads given bytes as a value when it returns the value on every stream that
goes on with the bytes, and moves behind them. The readers of the loader read what
`encode` writes, up to the instructions of the file.
-/

namespace Moz.Bytecode

open LittleEndian

def InputStream.rest (is : InputStream) : List UInt8 := is.data.drop is.pos

theorem rest_skip (is : InputStream) (shift : ℕ) : (skip is shift).rest = is.rest.drop shift := by
  simp [InputStream.rest, skip, List.drop_drop]

theorem rest_skip_length {is : InputStream} {bytes rest : List UInt8}
    (h : is.rest = bytes ++ rest) : (skip is bytes.length).rest = rest := by
  rw [rest_skip, h, List.drop_left]

theorem skip_skip (is : InputStream) (m n : ℕ) : skip (skip is m) n = skip is (m + n) := by
  simp [skip, Nat.add_assoc]

/-- On a stream that goes on with `bytes`, `read` returns `a` and moves behind them. -/
def Reads {α : Type} (read : InputStream → Except LoadError (α × InputStream))
    (bytes : List UInt8) (a : α) : Prop :=
  ∀ is rest, is.rest = bytes ++ rest → read is = .ok (a, skip is bytes.length)

section Reads

variable {α β : Type} {read : InputStream → Except LoadError (α × InputStream)}
  {bytes bytes' : List UInt8}
  {a : α} {b : β}

theorem Reads.step (h : Reads read bytes a) {is : InputStream} {rest : List UInt8}
    (hrest : is.rest = bytes ++ rest) (f : α × InputStream → Except LoadError β) :
    (read is >>= f) = f (a, skip is bytes.length) ∧ (skip is bytes.length).rest = rest := by
  rw [h is rest hrest]
  exact ⟨rfl, rest_skip_length hrest⟩

theorem Reads.bind (next : α → InputStream → Except LoadError (β × InputStream))
    (h : Reads read bytes a) (h' : Reads (next a) bytes' b) :
    Reads (fun is => read is >>= fun x => next x.1 x.2) (bytes ++ bytes') b := by
  intro is rest hrest
  rw [List.append_assoc] at hrest
  obtain ⟨hread, hafter⟩ := h.step hrest fun x => next x.1 x.2
  show (read is >>= fun x => next x.1 x.2) = _
  rw [hread, h' _ rest hafter, skip_skip, List.length_append]

theorem Reads.pure (f : α → β) (a : α) : Reads (fun is => .ok (f a, is)) [] (f a) := by
  intro is rest _
  rfl

theorem Reads.map (h : Reads read bytes a) (f : α → β) :
    Reads (fun is => read is >>= fun x => .ok (f x.1, x.2)) bytes (f a) := by
  have hbind := Reads.bind (fun a is => .ok (f a, is)) h (.pure f a)
  rwa [List.append_nil] at hbind

theorem reads_read8 (b : UInt8) : Reads read8 [b] b := by
  intro is rest hrest
  have hget : is.data[is.pos]? = some b := by
    have hhead := congrArg List.head? hrest
    rwa [InputStream.rest, List.head?_drop, List.singleton_append, List.head?_cons] at hhead
  rw [read8, peek, hget]
  rfl

theorem toNat_ofNat_of_lt {n : ℕ} (h : n < 256) : (UInt8.ofNat n).toNat = n := by
  rw [UInt8.toNat_ofNat', Nat.mod_eq_of_lt h]

theorem reads_bytes16 (d1 d2 : UInt8) :
    Reads read16 [d1, d2] (d1.toNat * 256 + d2.toNat) := by
  intro is rest hrest
  obtain ⟨h1, hrest1⟩ := (reads_read8 d1).step hrest fun x => do
    let y ← read8 x.2
    return (x.1.toNat * 256 + y.1.toNat, y.2)
  obtain ⟨h2, -⟩ := (reads_read8 d2).step hrest1 fun x => return (d1.toNat * 256 + x.1.toNat, x.2)
  exact h1.trans h2

theorem reads_bytes24 (d1 d2 d3 : UInt8) :
    Reads read24 [d1, d2, d3] (d1.toNat * 65536 + d2.toNat * 256 + d3.toNat) := by
  intro is rest hrest
  obtain ⟨h1, hrest1⟩ := (reads_read8 d1).step hrest fun x => do
    let y ← read8 x.2
    let z ← read8 y.2
    return (x.1.toNat * 65536 + y.1.toNat * 256 + z.1.toNat, z.2)
  obtain ⟨h2, hrest2⟩ := (reads_read8 d2).step hrest1 fun x => do
    let y ← read8 x.2
    return (d1.toNat * 65536 + x.1.toNat * 256 + y.1.toNat, y.2)
  obtain ⟨h3, -⟩ := (reads_read8 d3).step hrest2 fun x =>
    return (d1.toNat * 65536 + d2.toNat * 256 + x.1.toNat, x.2)
  exact h1.trans (h2.trans h3)

theorem reads_read16 {n : ℕ} (h : n < 2 ^ 16) : Reads read16 (word16 n) n := by
  have hvalue : (UInt8.ofNat (n / 256)).toNat * 256 + (UInt8.ofNat n).toNat = n := by
    rw [toNat_ofNat_of_lt (by omega), UInt8.toNat_ofNat']
    omega
  have hread := reads_bytes16 (UInt8.ofNat (n / 256)) (UInt8.ofNat n)
  rwa [hvalue] at hread

theorem reads_read24 {n : ℕ} (h : n < 2 ^ 24) : Reads read24 (word24 n) n := by
  have hvalue : (UInt8.ofNat (n / 65536)).toNat * 65536 + (UInt8.ofNat (n / 256)).toNat * 256 +
      (UInt8.ofNat n).toNat = n := by
    rw [toNat_ofNat_of_lt (by omega), UInt8.toNat_ofNat', UInt8.toNat_ofNat']
    omega
  have hread := reads_bytes24 (UInt8.ofNat (n / 65536)) (UInt8.ofNat (n / 256)) (UInt8.ofNat n)
  rwa [hvalue] at hread

theorem reads_read32 {n : ℕ} (h : n < 2 ^ 32) : Reads read32 (word32 n) n := by
  have hread : Reads read32 (word32 n) (n / 65536 * 65536 + n % 65536) := by
    have hlow : word16 n = word16 (n % 65536) := by
      unfold word16
      congr 1
      · apply UInt8.toNat_inj.1
        rw [UInt8.toNat_ofNat', UInt8.toNat_ofNat']
        omega
      · congr 1
        apply UInt8.toNat_inj.1
        rw [UInt8.toNat_ofNat', UInt8.toNat_ofNat']
        omega
    unfold word32
    rw [hlow]
    have hhigh : n / 65536 < 2 ^ 16 := by omega
    have hlow' : n % 65536 < 2 ^ 16 := by omega
    exact Reads.bind (fun d1 is => read16 is >>= fun x => .ok (d1 * 65536 + x.1, x.2))
      (reads_read16 hhigh) ((reads_read16 hlow').map fun d2 => _ * 65536 + d2)
  rwa [Nat.div_add_mod'] at hread

theorem reads_readTimes_map {γ : Type} {encode : γ → List UInt8} (value : γ → α) (cs : List γ)
    (h : ∀ c ∈ cs, Reads read (encode c) (value c)) :
    Reads (readTimes read cs.length) (cs.flatMap encode) (cs.map value) := by
  induction cs with
  | nil =>
    intro is rest _
    rfl
  | cons c cs ih =>
    rw [List.flatMap_cons]
    have htail := ih fun c hc => h c (List.mem_cons_of_mem _ hc)
    exact Reads.bind (fun a is => readTimes read cs.length is >>= fun x => .ok (a :: x.1, x.2))
      (h c List.mem_cons_self) (htail.map fun as => value c :: as)

theorem reads_readTimes {encode : α → List UInt8} (as : List α)
    (h : ∀ a ∈ as, Reads read (encode a) a) :
    Reads (readTimes read as.length) (as.flatMap encode) as := by
  have hread := reads_readTimes_map id as h
  rwa [List.map_id] at hread

theorem reads_readString {s : List UInt8} (h : s.length < 2 ^ 16) :
    Reads readString (encodeString s) s := by
  intro is rest hrest
  have hrest' : is.rest = word16 s.length ++ (s ++ 0 :: rest) := by
    rw [hrest, encodeString]
    simp
  have hafter : (skip is (word16 s.length).length).rest = s ++ 0 :: rest :=
    rest_skip_length hrest'
  have hread := reads_read16 h is _ hrest'
  show (read16 is >>= fun x => if x.2.pos + x.1 ≤ x.2.data.length then
    pure (slice x.2.data x.2.pos x.1, skip x.2 (x.1 + 1)) else throw LoadError.read) = _
  rw [hread]
  generalize hmid : skip is (word16 s.length).length = mid at hafter
  have hslice : slice mid.data mid.pos s.length = s := by
    rw [slice, ← InputStream.rest, hafter, List.take_left]
  have hlen : mid.pos + s.length ≤ mid.data.length := by
    have hlength := congrArg List.length hafter
    rw [InputStream.rest, List.length_drop, List.length_append, List.length_cons] at hlength
    omega
  show (if mid.pos + s.length ≤ mid.data.length then
    pure (slice mid.data mid.pos s.length, skip mid (s.length + 1))
    else throw LoadError.read : Except LoadError (List UInt8 × InputStream)) = _
  rw [if_pos hlen, hslice, ← hmid, skip_skip]
  simp only [encodeString, List.length_append, List.length_singleton, Nat.add_assoc]
  rfl

theorem reads_readSet {words : List ℕ} (hlen : words.length = 8) (h : ∀ w ∈ words, w < 2 ^ 32) :
    Reads readSet (words.flatMap word32) (wordsSet words) := by
  have hread := reads_readTimes words fun w hw => reads_read32 (h w hw)
  rw [hlen] at hread
  exact hread.map wordsSet

end Reads

end Moz.Bytecode
