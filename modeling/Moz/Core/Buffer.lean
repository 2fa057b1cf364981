import Mathlib.Data.UInt
import Moz.Core.ArrayLists
import Moz.Lib.LittleEndian

/-!
# Byte buffers

The writer and the reader of `buffer.h`. The writer stores a word in the order of
the host, at any offset; the reader puts it together from two halves. `little` says
that the host is little-endian.
-/

namespace Moz.Core

open LittleEndian

/-- `moz_buffer_t`, which a reader and a writer hold. -/
structure MozBuffer where
  buf : Karray UInt8
  pos : ℕ := 0
  deriving DecidableEq, Repr

def hostBytes (little : Bool) (n v : ℕ) : List UInt8 :=
  if little then encode n v else (encode n v).reverse

inductive Width
  | w8 | w16 | w32 | w64
  deriving DecidableEq, Repr

def Width.bytes : Width → ℕ
  | w8 => 1
  | w16 => 2
  | w32 => 4
  | w64 => 8

inductive Word
  | w8 (v : UInt8)
  | w16 (v : UInt16)
  | w32 (v : UInt32)
  | w64 (v : UInt64)
  deriving DecidableEq, Repr

namespace Word

def width : Word → Width
  | w8 _ => .w8
  | w16 _ => .w16
  | w32 _ => .w32
  | w64 _ => .w64

def toNat : Word → ℕ
  | w8 v => v.toNat
  | w16 v => v.toNat
  | w32 v => v.toNat
  | w64 v => v.toNat

def bytes (w : Word) : ℕ := w.width.bytes

end Word

/-- A store of some bytes at `list + size`, after which they belong to the array. -/
def Karray.storeBytes (a : Karray UInt8) (bytes : List UInt8) : Option (Karray UInt8) :=
  if a.size + bytes.length ≤ a.list.length then
    some { a with
      list := a.list.take a.size ++ bytes ++ a.list.drop (a.size + bytes.length)
      size := a.size + bytes.length }
  else none

def writeWide (little : Bool) (n : ℕ) (W : MozBuffer) (v : ℕ) : Option MozBuffer := do
  let buf ← W.buf.ensureSize n
  let buf ← buf.storeBytes (hostBytes little n v)
  return { W with buf := buf }

def mozBufferWriterWrite8 (W : MozBuffer) (v : UInt8) : Option MozBuffer := do
  let buf ← W.buf.add v
  return { W with buf := buf }

def mozBufferWriterWrite16 (little : Bool) (W : MozBuffer) (v : UInt16) : Option MozBuffer :=
  writeWide little 2 W v.toNat

def mozBufferWriterWrite32 (little : Bool) (W : MozBuffer) (v : UInt32) : Option MozBuffer :=
  writeWide little 4 W v.toNat

def mozBufferWriterWrite64 (little : Bool) (W : MozBuffer) (v : UInt64) : Option MozBuffer :=
  writeWide little 8 W v.toNat

/-- `moz_buffer_writer_init`, on what the new cells happen to hold. -/
def mozBufferWriterInit (cells : List UInt8) : MozBuffer := { buf := .init cells }

def mozBufferWriterLength (W : MozBuffer) : ℕ := W.buf.size

def write (little : Bool) (W : MozBuffer) : Word → Option MozBuffer
  | .w8 v => mozBufferWriterWrite8 W v
  | .w16 v => mozBufferWriterWrite16 little W v
  | .w32 v => mozBufferWriterWrite32 little W v
  | .w64 v => mozBufferWriterWrite64 little W v

def writeAll (little : Bool) : MozBuffer → List Word → Option MozBuffer
  | W, [] => some W
  | W, w :: words => do
    let W ← write little W w
    writeAll little W words

def mozBufferReaderInitFromWriter (W : MozBuffer) : MozBuffer :=
  { buf := { list := W.buf.list, size := W.buf.size, capacity := W.buf.capacity }, pos := 0 }

def mozBufferReaderHasNext (R : MozBuffer) : Bool := R.pos < R.buf.size

def mozBufferReaderRead8 (R : MozBuffer) : Option (UInt8 × MozBuffer) := do
  let v ← R.buf.list[R.pos]?
  return (v, { R with pos := R.pos + 1 })

/-- The readers of more than one byte: two halves, the first of which is the low one on a
little-endian host. -/
def readTwice {α β : Type} (little : Bool) (read : MozBuffer → Option (α × MozBuffer))
    (join : α → α → β) (R : MozBuffer) : Option (β × MozBuffer) := do
  let (d1, R) ← read R
  let (d2, R) ← read R
  return (if little then join d2 d1 else join d1 d2, R)

def mozBufferReaderRead16 (little : Bool) : MozBuffer → Option (UInt16 × MozBuffer) :=
  readTwice little mozBufferReaderRead8 fun hi lo => hi.toUInt16 <<< 8 ||| lo.toUInt16

def mozBufferReaderRead32 (little : Bool) : MozBuffer → Option (UInt32 × MozBuffer) :=
  readTwice little (mozBufferReaderRead16 little) fun hi lo => hi.toUInt32 <<< 16 ||| lo.toUInt32

def mozBufferReaderRead64 (little : Bool) : MozBuffer → Option (UInt64 × MozBuffer) :=
  readTwice little (mozBufferReaderRead32 little) fun hi lo => hi.toUInt64 <<< 32 ||| lo.toUInt64

def read (little : Bool) (R : MozBuffer) : Width → Option (Word × MozBuffer)
  | .w8 => (mozBufferReaderRead8 R).map fun (v, R) => (.w8 v, R)
  | .w16 => (mozBufferReaderRead16 little R).map fun (v, R) => (.w16 v, R)
  | .w32 => (mozBufferReaderRead32 little R).map fun (v, R) => (.w32 v, R)
  | .w64 => (mozBufferReaderRead64 little R).map fun (v, R) => (.w64 v, R)

def readAll (little : Bool) : MozBuffer → List Width → Option (List Word × MozBuffer)
  | R, [] => some ([], R)
  | R, width :: widths => do
    let (w, R) ← read little R width
    let (words, R) ← readAll little R widths
    return (w :: words, R)

theorem hostBytes_length (little : Bool) (n v : ℕ) : (hostBytes little n v).length = n := by
  unfold hostBytes
  split_ifs <;> simp

theorem encode_add (m n v : ℕ) : encode (m + n) v = encode m v ++ encode n (v / 256 ^ m) := by
  induction m generalizing v with
  | zero => simp [encode]
  | succ m ih =>
    rw [Nat.succ_add, encode, encode, ih, Nat.div_div_eq_div_mul, ← pow_succ']
    rfl

theorem hostBytes_add (little : Bool) (n v : ℕ) : hostBytes little (n + n) v =
    hostBytes little n (if little then v else v / 256 ^ n) ++
      hostBytes little n (if little then v / 256 ^ n else v) := by
  cases little with
  | true => exact encode_add n n v
  | false =>
    have hsplit := congrArg List.reverse (encode_add n n v)
    rw [List.reverse_append] at hsplit
    exact hsplit

/-- The reader returns the word of `n` bytes that is ahead. -/
def Reads {α : Type} (little : Bool) (toNat : α → ℕ) (n : ℕ)
    (read : MozBuffer → Option (α × MozBuffer)) : Prop :=
  ∀ R v rest, R.buf.list.drop R.pos = hostBytes little n v ++ rest →
    ∃ x, read R = some (x, { R with pos := R.pos + n }) ∧ toNat x = v % 256 ^ n

theorem reads_read8 (little : Bool) : Reads little UInt8.toNat 1 mozBufferReaderRead8 := by
  intro R v rest h
  have hbytes : hostBytes little 1 v = [UInt8.ofNat v] := by cases little <;> rfl
  have hcell : R.buf.list[R.pos]? = some (UInt8.ofNat v) := by
    rw [← Nat.add_zero R.pos, ← List.getElem?_drop, h, hbytes]
    rfl
  refine ⟨UInt8.ofNat v, ?_, by simp⟩
  rw [mozBufferReaderRead8, hcell]
  rfl

theorem Reads.twice {α β : Type} {little : Bool} {n : ℕ} {toNat : α → ℕ} {toNat' : β → ℕ}
    {read : MozBuffer → Option (α × MozBuffer)} {join : α → α → β} (h : Reads little toNat n read)
    (hjoin : ∀ hi lo, toNat' (join hi lo) = toNat hi * 256 ^ n + toNat lo) :
    Reads little toNat' (n + n) (readTwice little read join) := by
  intro R v rest hahead
  rw [hostBytes_add, List.append_assoc] at hahead
  obtain ⟨d1, hread1, hd1⟩ := h R _ _ hahead
  have hahead2 : R.buf.list.drop (R.pos + n) =
      hostBytes little n (if little then v / 256 ^ n else v) ++ rest := by
    rw [← List.drop_drop, hahead, List.drop_append_of_le_length (by rw [hostBytes_length])]
    rw [List.drop_of_length_le (by rw [hostBytes_length]), List.nil_append]
  obtain ⟨d2, hread2, hd2⟩ := h { R with pos := R.pos + n } _ _ hahead2
  refine ⟨if little then join d2 d1 else join d1 d2, ?_, ?_⟩
  · rw [readTwice, hread1]
    show ((read { R with pos := R.pos + n }).bind _) = _
    rw [hread2, ← Nat.add_assoc]
    rfl
  · have hmod : v % 256 ^ (n + n) = v / 256 ^ n % 256 ^ n * 256 ^ n + v % 256 ^ n := by
      rw [pow_add, Nat.mod_mul, mul_comm, Nat.add_comm]
    cases little with
    | true =>
      rw [if_pos rfl, hjoin, hmod]
      rw [if_pos rfl] at hd1 hd2
      rw [hd1, hd2]
    | false =>
      rw [if_neg (by decide), hjoin, hmod]
      rw [if_neg (by decide)] at hd1 hd2
      rw [hd1, hd2]

theorem shiftLeft_or {k hi lo : ℕ} (hhi : hi < 2 ^ k) (hlo : lo < 2 ^ k) :
    hi <<< k % 2 ^ (k + k) ||| lo = hi * 2 ^ k + lo := by
  have hlt : hi <<< k < 2 ^ (k + k) := by
    rw [Nat.shiftLeft_eq, pow_add]
    exact Nat.mul_lt_mul_of_pos_right hhi (by positivity)
  rw [Nat.mod_eq_of_lt hlt, ← Nat.shiftLeft_add_eq_or_of_lt hlo, Nat.shiftLeft_eq]

theorem reads_read16 (little : Bool) : Reads little UInt16.toNat 2 (mozBufferReaderRead16 little) := by
  apply (reads_read8 little).twice
  intro hi lo
  have h := shiftLeft_or (k := 8) hi.toNat_lt lo.toNat_lt
  simpa using h

theorem reads_read32 (little : Bool) : Reads little UInt32.toNat 4 (mozBufferReaderRead32 little) := by
  apply (reads_read16 little).twice
  intro hi lo
  have h := shiftLeft_or (k := 16) hi.toNat_lt lo.toNat_lt
  simpa using h

theorem reads_read64 (little : Bool) : Reads little UInt64.toNat 8 (mozBufferReaderRead64 little) := by
  apply (reads_read32 little).twice
  intro hi lo
  have h := shiftLeft_or (k := 32) hi.toNat_lt lo.toNat_lt
  simpa using h

variable {little : Bool} {W W' R : MozBuffer} {w : Word} {words : List Word} {l : List UInt8}

def Word.memory (little : Bool) (w : Word) : List UInt8 := hostBytes little w.bytes w.toNat

theorem Word.memory_length (w : Word) : (w.memory little).length = w.bytes := hostBytes_length _ _ _

theorem read_memory {rest : List UInt8} (h : R.buf.list.drop R.pos = w.memory little ++ rest) :
    read little R w.width = some (w, { R with pos := R.pos + w.bytes }) := by
  cases w with
  | w8 v =>
    obtain ⟨x, hread, hx⟩ := reads_read8 little R v.toNat rest h
    have hv : x = v := UInt8.toNat_inj.1 (hx.trans (Nat.mod_eq_of_lt v.toNat_lt))
    simp [read, Word.width, hread, hv, Word.bytes, Width.bytes]
  | w16 v =>
    obtain ⟨x, hread, hx⟩ := reads_read16 little R v.toNat rest h
    have hv : x = v := UInt16.toNat_inj.1 (hx.trans (Nat.mod_eq_of_lt v.toNat_lt))
    simp [read, Word.width, hread, hv, Word.bytes, Width.bytes]
  | w32 v =>
    obtain ⟨x, hread, hx⟩ := reads_read32 little R v.toNat rest h
    have hv : x = v := UInt32.toNat_inj.1 (hx.trans (Nat.mod_eq_of_lt v.toNat_lt))
    simp [read, Word.width, hread, hv, Word.bytes, Width.bytes]
  | w64 v =>
    obtain ⟨x, hread, hx⟩ := reads_read64 little R v.toNat rest h
    have hv : x = v := UInt64.toNat_inj.1 (hx.trans (Nat.mod_eq_of_lt v.toNat_lt))
    simp [read, Word.width, hread, hv, Word.bytes, Width.bytes]

def totalBytes (words : List Word) : ℕ := (words.map Word.bytes).sum

theorem readAll_memory {rest : List UInt8}
    (h : R.buf.list.drop R.pos = words.flatMap (Word.memory little) ++ rest) :
    readAll little R (words.map Word.width) =
      some (words, { R with pos := R.pos + totalBytes words }) := by
  induction words generalizing R with
  | nil => rfl
  | cons w words ih =>
    rw [List.flatMap_cons, List.append_assoc] at h
    have hrest : R.buf.list.drop (R.pos + w.bytes) = words.flatMap (Word.memory little) ++ rest := by
      rw [← List.drop_drop, h, List.drop_append_of_le_length (by rw [Word.memory_length]),
        List.drop_of_length_le (by rw [Word.memory_length]), List.nil_append]
    have hwords := ih (R := { R with pos := R.pos + w.bytes }) hrest
    rw [List.map_cons, readAll, read_memory h]
    show ((readAll little { R with pos := R.pos + w.bytes } (words.map Word.width)).bind _) = _
    rw [hwords]
    simp [totalBytes, Nat.add_assoc]

/-- The word can be written: it is within the capacities, and a byte has an `int` for its index. -/
def Word.Fits (W : MozBuffer) (w : Word) : Prop :=
  W.buf.size + w.bytes ≤ maxCapacity W.buf.capacity ∧ (w.width = .w8 → W.buf.size < 2 ^ 31)

theorem storeBytes_holds {a : Karray UInt8} (bytes : List UInt8) (h : a.Holds l)
    (hroom : a.size + bytes.length ≤ a.capacity) :
    ∃ a', a.storeBytes bytes = some a' ∧ a'.Holds (l ++ bytes) ∧ a'.capacity = a.capacity := by
  obtain ⟨rest, hlist, hsize, hcap⟩ := h.cells
  have hlen : a.list.length = a.capacity := h.valid.length
  refine ⟨_, if_pos (by omega), ?_, rfl⟩
  have htake : a.list.take a.size = l := h.contents
  have hmk := Karray.holds_mk (l ++ bytes) (a.list.drop (a.size + bytes.length))
    (show _ = a.capacity by simp [hlen]; omega) h.valid.unsigned
  rw [htake]
  rwa [List.length_append, ← hsize] at hmk

theorem writeWide_holds {n v : ℕ} (h : W.buf.Holds l)
    (hroom : W.buf.size + n ≤ maxCapacity W.buf.capacity) :
    ∃ W', writeWide little n W v = some W' ∧ W'.buf.Holds (l ++ hostBytes little n v) ∧
      maxCapacity W'.buf.capacity = maxCapacity W.buf.capacity := by
  obtain ⟨a₁, ha₁⟩ := Karray.ensureSize_isSome hroom
  obtain ⟨h₁, hsize₁, hcap₁⟩ := Karray.ensureSize_holds h ha₁
  obtain ⟨a₂, ha₂, h₂, hcap₂⟩ := storeBytes_holds (hostBytes little n v) h₁
    (by rw [hostBytes_length, hsize₁]; exact hcap₁)
  refine ⟨{ W with buf := a₂ }, ?_, h₂, ?_⟩
  · rw [writeWide, ha₁]
    show ((a₁.storeBytes (hostBytes little n v)).bind _) = _
    rw [ha₂]
    rfl
  · rw [hcap₂]
    exact (Karray.ensureSize_reach ha₁).2

theorem writeWide_room {n v : ℕ} (h : writeWide little n W v = some W') :
    W.buf.size + n ≤ maxCapacity W.buf.capacity := by
  rw [writeWide, Option.bind_eq_bind, Option.bind_eq_some_iff] at h
  obtain ⟨a₁, ha₁, -⟩ := h
  exact (Karray.ensureSize_reach ha₁).1

/-- A word that fits is put behind the bytes that are there. -/
theorem write_holds (little : Bool) (h : W.buf.Holds l) (hfits : w.Fits W) :
    ∃ W', write little W w = some W' ∧ W'.buf.Holds (l ++ w.memory little) ∧
      maxCapacity W'.buf.capacity = maxCapacity W.buf.capacity := by
  cases w with
  | w8 v =>
    obtain ⟨a', ha', hholds⟩ := Karray.add_holds h ⟨hfits.1, hfits.2 rfl⟩ v
    have hbytes : (Word.w8 v).memory little = [v] := by
      have hv : UInt8.ofNat v.toNat = v := UInt8.ofNat_toNat
      cases little <;> simp [Word.memory, hostBytes, Word.bytes, Width.bytes, Word.width, Word.toNat, encode]
    refine ⟨{ W with buf := a' }, ?_, hbytes ▸ hholds, Karray.add_reach ha'⟩
    rw [write, mozBufferWriterWrite8, ha']
    rfl
  | w16 v => exact writeWide_holds h hfits.1
  | w32 v => exact writeWide_holds h hfits.1
  | w64 v => exact writeWide_holds h hfits.1

theorem write_fits (h : W.buf.Holds l) (hwrite : write little W w = some W') : w.Fits W := by
  cases w with
  | w8 v =>
    rw [write, mozBufferWriterWrite8, Option.bind_eq_bind, Option.bind_eq_some_iff] at hwrite
    obtain ⟨a', ha', -⟩ := hwrite
    have hroom := Karray.hasRoom_of_add ha' h.valid
    exact ⟨hroom.1, fun _ => hroom.2⟩
  | w16 v => exact ⟨writeWide_room hwrite, nofun⟩
  | w32 v => exact ⟨writeWide_room hwrite, nofun⟩
  | w64 v => exact ⟨writeWide_room hwrite, nofun⟩

/-- Every single byte has an `int` for its index, from an offset on. -/
def ByteIndices : ℕ → List Word → Prop
  | _, [] => True
  | offset, w :: words => (w.width = .w8 → offset < 2 ^ 31) ∧ ByteIndices (offset + w.bytes) words

theorem totalBytes_cons (w : Word) (words : List Word) :
    totalBytes (w :: words) = w.bytes + totalBytes words := by
  simp [totalBytes]

/-- The words that are written stand one behind the other, and there was room for them. -/
theorem writeAll_holds (h : W.buf.Holds l) (hwrite : writeAll little W words = some W') :
    W'.buf.Holds (l ++ words.flatMap (Word.memory little)) ∧
      l.length + totalBytes words ≤ maxCapacity W.buf.capacity ∧ ByteIndices l.length words := by
  obtain ⟨-, -, hsize, -⟩ := h.cells
  induction words generalizing W l with
  | nil =>
    cases hwrite
    have hle := h.valid.size.trans (le_maxCapacity _)
    exact ⟨by simpa using h, by simpa [totalBytes, hsize] using hle, trivial⟩
  | cons w words ih =>
    rw [writeAll, Option.bind_eq_bind, Option.bind_eq_some_iff] at hwrite
    obtain ⟨W₁, hw, hwords⟩ := hwrite
    have hfit := write_fits h hw
    obtain ⟨W₂, hw₂, hholds₂, hreach⟩ := write_holds little h hfit
    obtain rfl : W₁ = W₂ := Option.some.inj (hw.symm.trans hw₂)
    obtain ⟨-, -, hsize₂, -⟩ := hholds₂.cells
    obtain ⟨hholds, hroom, hindices⟩ := ih hholds₂ hwords hsize₂
    rw [List.length_append, Word.memory_length] at hroom hindices
    rw [hreach] at hroom
    rw [List.flatMap_cons, ← List.append_assoc, totalBytes_cons]
    exact ⟨hholds, by omega, fun hw8 => hsize ▸ hfit.2 hw8, hindices⟩

theorem writeAll_isSome (little : Bool) (h : W.buf.Holds l)
    (hroom : l.length + totalBytes words ≤ maxCapacity W.buf.capacity)
    (hindices : ByteIndices l.length words) : ∃ W', writeAll little W words = some W' := by
  obtain ⟨-, -, hsize, -⟩ := h.cells
  induction words generalizing W l with
  | nil => exact ⟨W, rfl⟩
  | cons w words ih =>
    rw [totalBytes_cons] at hroom
    have hfit : w.Fits W := by
      rw [Word.Fits, hsize]
      exact ⟨by omega, hindices.1⟩
    obtain ⟨W₁, hw₁, hholds₁, hreach⟩ := write_holds little h hfit
    obtain ⟨-, -, hsize₁, -⟩ := hholds₁.cells
    have hlength : (l ++ w.memory little).length = l.length + w.bytes := by
      rw [List.length_append, Word.memory_length]
    obtain ⟨W', hwords⟩ := ih hholds₁ (by rw [hlength, hreach]; omega)
      (hlength ▸ hindices.2) hsize₁
    refine ⟨W', ?_⟩
    rw [writeAll, hw₁]
    exact hwords

/-- The words are written, the length is the sum of their widths, and a reader returns them and has
nothing left. -/
def RoundTrips (little : Bool) (cells : List UInt8) (words : List Word) : Prop :=
  ∃ W, writeAll little (mozBufferWriterInit cells) words = some W ∧
    mozBufferWriterLength W = totalBytes words ∧
    ∃ R, readAll little (mozBufferReaderInitFromWriter W) (words.map Word.width) = some (words, R) ∧
      mozBufferReaderHasNext R = false

/-- What is written is read back exactly if the capacities that growing leads to have room for it. -/
theorem roundTrips_iff (little : Bool) (cells : List UInt8) (words : List Word)
    (hlt : cells.length < 2 ^ 32) : RoundTrips little cells words ↔
      totalBytes words ≤ maxCapacity cells.length ∧ ByteIndices 0 words := by
  have hinit : (mozBufferWriterInit cells).buf.Holds [] := ⟨Karray.valid_init hlt, rfl⟩
  constructor
  · rintro ⟨W, hW, -⟩
    have hwrites := (writeAll_holds hinit hW).2
    rwa [List.length_nil, Nat.zero_add] at hwrites
  · rintro ⟨hroom, hindices⟩
    obtain ⟨W, hW⟩ := writeAll_isSome little hinit ((Nat.zero_add _).trans_le hroom) hindices
    obtain ⟨hholds, -⟩ := writeAll_holds hinit hW
    obtain ⟨rest, hlist, hsize, -⟩ := hholds.cells
    have hmemory : (words.flatMap (Word.memory little)).length = totalBytes words := by
      simp [totalBytes, List.length_flatMap, Word.memory_length]
    rw [List.nil_append] at hlist hsize
    rw [hmemory] at hsize
    have hread := @readAll_memory little (mozBufferReaderInitFromWriter W) words rest hlist
    have hend : ¬ 0 + totalBytes words < W.buf.size := by omega
    exact ⟨W, hW, hsize, _, hread, decide_eq_false hend⟩

theorem roundTrips_iff_eightCells :
    RoundTrips false [0, 0, 0, 0, 0, 0, 0, 0] [.w16 258, .w8 7, .w32 1] ↔
      totalBytes [.w16 258, .w8 7, .w32 1] ≤ maxCapacity 8 ∧ ByteIndices 0 [.w16 258, .w8 7, .w32 1] :=
  roundTrips_iff false _ _ (by decide)

/-- A writer that begins with no cells writes nothing. -/
theorem roundTrips_noCells : ¬ RoundTrips true [] [.w8 7] := by
  rintro ⟨W, hW, -⟩
  have hinit : (mozBufferWriterInit []).buf.Holds [] := ⟨Karray.valid_init (by decide), rfl⟩
  exact absurd (writeAll_holds hinit hW).2.1 (by decide)

end Moz.Core
