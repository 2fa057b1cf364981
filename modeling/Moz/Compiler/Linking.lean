import Moz.Compiler.Module

/-!
# Where the linker is right

`mozlinker_resolve` computes an offset from the table entries of two IR ids, and
these describe the last occurrence of each object. An offset is therefore right
exactly when the occurrence that carries it and the first instruction of the
block it names lie equally far before their last occurrences.
-/

namespace Moz.Compiler

open LittleEndian

/-- The labels of an instruction in the order they are encoded; `none` is a label
whose block pointer is not set. -/
def labelTargets (C : MozCompiler) (ir : Ir) : List (Option BlockId) :=
  match ir.op with
  | .iJump target => [some target]
  | .iInvoke decl => [some ir.fail, declInst C decl]
  | .iAny | .iByte _ | .iStr _ | .iSet _ | .iNAny | .iNByte _ | .iNStr _ | .iNSet _ =>
    [some ir.fail]
  | _ => []

def Op.labelCount : Op → ℕ
  | iInvoke _ => 2
  | iJump _ | iAny | iByte _ | iStr _ | iSet _ | iNAny | iNByte _ | iNStr _ | iNSet _ => 1
  | iLabel | iPLoad | iPStore | iRet | iFail | iRByte _ | iRAny | iRStr _ | iRSet _ | iOByte _
  | iOStr _ | iOSet _ | iTPush | iTPop _ | iTNew _ | iTCapture _ | iTTag _ => 0

def Op.constants : Op → List UInt8
  | iByte byte | iNByte byte | iRByte byte | iOByte byte => [byte]
  | iStr id | iSet id | iNStr id | iNSet id | iRStr id | iRSet id | iOStr id | iOSet id
  | iTPop id | iTTag id => encode 2 id.toNat
  | iTNew _ | iTCapture _ => [0]
  | _ => []

def Op.size (op : Op) : ℕ := 1 + 4 * op.labelCount + op.constants.length

/-- The offset of the `n`-th instruction of a layout. -/
def offsetOf (l : List Ir) (n : ℕ) : ℕ := ((l.take n).map fun ir => ir.op.size).sum

def lastIndex : List Ir → UInt32 → Option ℕ
  | [], _ => none
  | ir :: l, id =>
    match lastIndex l id with
    | some n => some (n + 1)
    | none => if ir.id = id then some 0 else none

/-- The address of the first instruction of a block, if the block is listed and has one. -/
def blockAddress (C : MozCompiler) (bb : BlockId) : Option ℕ :=
  if bb ∈ C.blocks ∧ (C.mem bb).insts ≠ [] then
    some (offsetOf C.layout
      ((C.blocks.take (C.blocks.idxOf bb)).flatMap fun b => (C.mem b).insts).length)
  else none

def firstId (C : MozCompiler) (bb : BlockId) : Option UInt32 :=
  (C.mem bb).insts.head?.map (·.id)

/-- The module is compiled, and the offset of every label of every occurrence, added to the
address just after that occurrence, is the address of the block the label names. -/
def Linked (C : MozCompiler) : Prop :=
  ∃ code, mozVm2ModuleCompile C = some code ∧
    ∀ (n : ℕ) (ir : Ir), C.layout[n]? = some ir →
    ∀ (k : ℕ) (label : Option BlockId), (labelTargets C ir)[k]? = some label →
      ∃ bb a, label = some bb ∧ blockAddress C bb = some a ∧
        offsetOf C.layout (n + 1) + readInt32 code (offsetOf C.layout n + 1 + 4 * k) = a

/-- For every label of every occurrence: the named block is listed and not empty, it lies
within reach of a 32-bit offset, and the distance from its first instruction to the last
occurrence of that object is the distance from this occurrence to the last one of its object. -/
def EqualDrift (C : MozCompiler) : Prop :=
  ∀ (n : ℕ) (ir : Ir), C.layout[n]? = some ir →
  ∀ (k : ℕ) (label : Option BlockId), (labelTargets C ir)[k]? = some label →
    ∃ bb a id m m', label = some bb ∧ blockAddress C bb = some a ∧ firstId C bb = some id ∧
      lastIndex C.layout id = some m ∧ lastIndex C.layout ir.id = some m' ∧
      ((offsetOf C.layout m : ℤ) - a ≡
        offsetOf C.layout (m' + 1) - offsetOf C.layout (n + 1) [ZMOD 2 ^ 32]) ∧
      -2 ^ 31 ≤ (a : ℤ) - offsetOf C.layout (n + 1) ∧
      (a : ℤ) - offsetOf C.layout (n + 1) < 2 ^ 31

/-- What `moz_ir_encode` writes: the labels still hold the id of the instruction. -/
def Ir.bytes (ir : Ir) : List UInt8 :=
  ir.op.opcode :: (List.replicate ir.op.labelCount (encode 4 ir.id.toNat)).flatten ++
    ir.op.constants

theorem Ir.bytes_length (ir : Ir) : ir.bytes.length = ir.op.size := by
  simp [bytes, Op.size, mul_comm]
  omega

theorem labelTargets_length (C : MozCompiler) (ir : Ir) :
    (labelTargets C ir).length = ir.op.labelCount := by
  unfold labelTargets Op.labelCount
  cases ir.op <;> rfl

/-- The id of the first instruction of each labelled block. -/
def labelIds (C : MozCompiler) (ir : Ir) : Option (List UInt32) :=
  (labelTargets C ir).mapM fun label => label.bind (firstId C)

def labelOffsets (base : ℕ) (ir : Ir) : List ℕ :=
  (List.range ir.op.labelCount).map fun k => base + 1 + 4 * k

/-- The writer after one instruction whose labels name objects with the given ids. -/
def BytecodeWriter.encoded (W : BytecodeWriter) (ir : Ir) (ids : List UInt32) :
    BytecodeWriter where
  writer := W.writer ++ ir.bytes
  linker :=
    { addressHead := fun id => if id = ir.id then W.writer.length else W.linker.addressHead id
      addressTail := fun id =>
        if id = ir.id then W.writer.length + ir.op.size else W.linker.addressTail id
      labels := W.linker.labels ++ labelOffsets W.writer.length ir
      targets := W.linker.targets ++ ids }

theorem mozlinkerAddLabel_eq (C : MozCompiler) (W : BytecodeWriter) (target : BlockId)
    (calleeId : UInt32) :
    mozlinkerAddLabel C W target calleeId = (firstId C target).map fun id =>
      { writer := W.writer ++ encode 4 calleeId.toNat
        linker := { W.linker with
          labels := W.linker.labels ++ [W.writer.length]
          targets := W.linker.targets ++ [id] } } := by
  unfold mozlinkerAddLabel firstId
  cases (C.mem target).insts <;> rfl

theorem mozOpEncode_eq (C : MozCompiler) (W : BytecodeWriter) (ir : Ir) :
    mozOpEncode C W ir = (labelIds C ir).map fun ids =>
      { writer := W.writer ++ ((List.replicate ir.op.labelCount (encode 4 ir.id.toNat)).flatten ++
          ir.op.constants)
        linker := { W.linker with
          labels := W.linker.labels ++
            (List.range ir.op.labelCount).map fun k => W.writer.length + 4 * k
          targets := W.linker.targets ++ ids } } := by
  unfold mozOpEncode labelIds labelTargets
  cases hop : ir.op
  case iJump target =>
    cases h : firstId C target <;>
      simp [mozlinkerAddLabel_eq, Op.labelCount, Op.constants, h]
  case iInvoke decl =>
    cases h : firstId C ir.fail <;> cases hd : declInst C decl with
    | none => simp [mozlinkerAddLabel_eq, h, hd]
    | some inst =>
      cases hi : firstId C inst <;>
        simp [mozlinkerAddLabel_eq, Op.labelCount, Op.constants, h, hd, hi, List.range_succ]
  -- every other kind has the fail label or none
  all_goals
    cases h : firstId C ir.fail <;>
      simp [mozlinkerAddLabel_eq, Op.labelCount, Op.constants, BytecodeWriter.write8,
        BytecodeWriter.write16, h]

theorem mozIrEncode_eq (C : MozCompiler) (W : BytecodeWriter) (ir : Ir) :
    mozIrEncode C W ir = (labelIds C ir).map (W.encoded ir) := by
  have hsize : W.writer.length + (4 * ir.op.labelCount + ir.op.constants.length + 1) =
      W.writer.length + ir.op.size := by
    unfold Op.size
    omega
  unfold mozIrEncode
  rw [mozOpEncode_eq]
  cases labelIds C ir with
  | none => rfl
  | some ids =>
    simp only [Option.map_some, Option.bind_eq_bind, Option.bind_some, Option.pure_def,
      BytecodeWriter.encoded, BytecodeWriter.write8, Ir.bytes, labelOffsets]
    simp [← hsize, mul_comm]

theorem forall₂_of_mapM {α β : Type} {f : α → Option β} {l : List α} {l' : List β}
    (h : l.mapM f = some l') : List.Forall₂ (fun a b => f a = some b) l l' := by
  induction l generalizing l' with
  | nil =>
    obtain rfl : [] = l' := by simpa using h
    exact .nil
  | cons x l ih =>
    cases hx : f x with
    | none => simp [hx] at h
    | some y =>
      cases hl : l.mapM f with
      | none => simp [hx, hl] at h
      | some ys =>
        obtain rfl : y :: ys = l' := by simpa [hx, hl] using h
        exact .cons hx (ih hl)

theorem exists_mapM {α β : Type} {f : α → Option β} {l : List α}
    (h : ∀ a ∈ l, ∃ b, f a = some b) : ∃ l', l.mapM f = some l' := by
  induction l with
  | nil => exact ⟨[], rfl⟩
  | cons x l ih =>
    obtain ⟨y, hy⟩ := h x (by simp)
    obtain ⟨ys, hys⟩ := ih fun a ha => h a (by simp [ha])
    exact ⟨y :: ys, by simp [hy, hys]⟩

theorem labelIds_length {C : MozCompiler} {ir : Ir} {ids : List UInt32}
    (h : labelIds C ir = some ids) : ids.length = ir.op.labelCount := by
  rw [← labelTargets_length C ir]
  exact (forall₂_of_mapM h).length_eq.symm

/-- Every label of an instruction that could be encoded names a block with a first object. -/
theorem labelIds_getElem? {C : MozCompiler} {ir : Ir} {ids : List UInt32}
    (h : labelIds C ir = some ids) {k : ℕ} {label : Option BlockId}
    (hk : (labelTargets C ir)[k]? = some label) :
    ∃ bb id, label = some bb ∧ firstId C bb = some id ∧ ids[k]? = some id := by
  obtain ⟨hlt, rfl⟩ := List.getElem?_eq_some_iff.1 hk
  have hall := List.forall₂_iff_get.1 (forall₂_of_mapM h)
  have hlt' : k < ids.length := hall.1 ▸ hlt
  have hk' := hall.2 k hlt hlt'
  obtain ⟨bb, hbb, hid⟩ := Option.bind_eq_some_iff.1 hk'
  exact ⟨bb, ids[k], by simpa using hbb, by simpa using hid, by simp [hlt']⟩

theorem offsetOf_append {l : List Ir} {n : ℕ} (h : n ≤ l.length) (l' : List Ir) :
    offsetOf (l ++ l') n = offsetOf l n := by
  simp [offsetOf, List.take_append_of_le_length h]

theorem offsetOf_succ {l : List Ir} {n : ℕ} {ir : Ir} (h : l[n]? = some ir) :
    offsetOf l (n + 1) = offsetOf l n + ir.op.size := by
  simp [offsetOf, List.take_add_one, h]

theorem length_flatMap_bytes (l : List Ir) : (l.flatMap Ir.bytes).length = offsetOf l l.length := by
  simp [offsetOf, List.length_flatMap, Ir.bytes_length]

theorem lastIndex_concat (l : List Ir) (ir : Ir) (id : UInt32) :
    lastIndex (l ++ [ir]) id = if ir.id = id then some l.length else lastIndex l id := by
  induction l with
  | nil => simp [lastIndex]
  | cons x l ih =>
    rw [List.cons_append, lastIndex, ih]
    by_cases h : ir.id = id
    · simp [h]
    · simp only [h, if_false]
      rfl

theorem lastIndex_lt {l : List Ir} {id : UInt32} {m : ℕ} (h : lastIndex l id = some m) :
    m < l.length := by
  induction l using List.reverseRecOn with
  | nil => simp [lastIndex] at h
  | append_singleton l ir ih =>
    rw [lastIndex_concat] at h
    split_ifs at h with hid
    · simp at h
      simp [← h]
    · have := ih h
      simp
      omega

theorem exists_lastIndex {l : List Ir} {ir : Ir} (h : ir ∈ l) :
    ∃ m, lastIndex l ir.id = some m := by
  induction l using List.reverseRecOn with
  | nil => cases h
  | append_singleton l x ih =>
    rw [lastIndex_concat]
    split_ifs with hid
    · exact ⟨_, rfl⟩
    · refine ih ?_
      rcases List.mem_append.1 h with h | h
      · exact h
      · obtain rfl : ir = x := by simpa using h
        exact absurd rfl hid

/-- The word of the `k`-th label holds the id of its instruction before linking. -/
theorem slice_label {l : List Ir} {n k : ℕ} {ir : Ir} (h : l[n]? = some ir)
    (hk : k < ir.op.labelCount) :
    slice (l.flatMap Ir.bytes) (offsetOf l n + 1 + 4 * k) 4 = encode 4 ir.id.toNat := by
  obtain ⟨hlt, hir⟩ := List.getElem?_eq_some_iff.1 h
  have hl : l = l.take n ++ ir :: l.drop (n + 1) := by
    rw [← hir, ← List.drop_eq_getElem_cons hlt, List.take_append_drop]
  have hrep : List.replicate ir.op.labelCount (encode 4 ir.id.toNat) =
      List.replicate k (encode 4 ir.id.toNat) ++ encode 4 ir.id.toNat ::
        List.replicate (ir.op.labelCount - k - 1) (encode 4 ir.id.toNat) := by
    rw [← List.replicate_succ, List.replicate_append_replicate]
    congr 1
    omega
  have hsplit : l.flatMap Ir.bytes =
      ((l.take n).flatMap Ir.bytes ++ ir.op.opcode ::
        (List.replicate k (encode 4 ir.id.toNat)).flatten) ++ encode 4 ir.id.toNat ++
      ((List.replicate (ir.op.labelCount - k - 1) (encode 4 ir.id.toNat)).flatten ++
        ir.op.constants ++ (l.drop (n + 1)).flatMap Ir.bytes) := by
    conv_lhs => rw [hl]
    simp [Ir.bytes, hrep]
  have hpre : ((l.take n).flatMap Ir.bytes ++ ir.op.opcode ::
      (List.replicate k (encode 4 ir.id.toNat)).flatten).length = offsetOf l n + 1 + 4 * k := by
    simp [offsetOf, List.length_flatMap, Ir.bytes_length, mul_comm]
    omega
  have hsl := slice_append ((l.take n).flatMap Ir.bytes ++ ir.op.opcode ::
      (List.replicate k (encode 4 ir.id.toNat)).flatten) (encode 4 ir.id.toNat)
    ((List.replicate (ir.op.labelCount - k - 1) (encode 4 ir.id.toNat)).flatten ++
        ir.op.constants ++ (l.drop (n + 1)).flatMap Ir.bytes)
  rw [hpre, encode_length] at hsl
  rw [hsplit, hsl]

/-- The labels the linker has collected, with the object each one refers to. -/
def Linker.entries (L : Linker) : List (ℕ × UInt32) := L.labels.zip L.targets

/-- What the writer holds after the instructions of `l`. -/
structure Encoded (C : MozCompiler) (l : List Ir) (W : BytecodeWriter) : Prop where
  writer : W.writer = l.flatMap Ir.bytes
  head : ∀ id m, lastIndex l id = some m → W.linker.addressHead id = offsetOf l m
  tail : ∀ id m, lastIndex l id = some m → W.linker.addressTail id = offsetOf l (m + 1)
  lengths : W.linker.labels.length = W.linker.targets.length
  bound : ∀ e ∈ W.linker.entries, e.1 + 4 ≤ W.writer.length
  sorted : W.linker.entries.Pairwise fun e e' => e.1 + 4 ≤ e'.1
  entry : ∀ (n : ℕ) (ir : Ir), l[n]? = some ir →
    ∀ (k : ℕ) (label : Option BlockId), (labelTargets C ir)[k]? = some label →
      ∃ bb id, label = some bb ∧ firstId C bb = some id ∧
        (offsetOf l n + 1 + 4 * k, id) ∈ W.linker.entries

theorem Encoded.nil (C : MozCompiler) : Encoded C [] {} where
  writer := rfl
  head := by simp [lastIndex]
  tail := by simp [lastIndex]
  lengths := rfl
  bound := by simp [Linker.entries]
  sorted := .nil
  entry := by simp

theorem labelOffsets_length (base : ℕ) (ir : Ir) :
    (labelOffsets base ir).length = ir.op.labelCount := by
  simp [labelOffsets]

theorem labelOffsets_sorted (base : ℕ) (ir : Ir) (ids : List UInt32) :
    ((labelOffsets base ir).zip ids).Pairwise fun e e' => e.1 + 4 ≤ e'.1 := by
  rw [List.pairwise_iff_getElem]
  intro i j hi hj hij
  simp only [List.getElem_zip, labelOffsets, List.getElem_map, List.getElem_range]
  omega

theorem mem_labelOffsets {base : ℕ} {ir : Ir} {ids : List UInt32} {e : ℕ × UInt32}
    (h : e ∈ (labelOffsets base ir).zip ids) :
    base + 1 ≤ e.1 ∧ e.1 + 4 ≤ base + ir.op.size := by
  have hmem := (List.of_mem_zip h).1
  obtain ⟨k, hk, hek⟩ := List.mem_map.1 hmem
  have hklt := List.mem_range.1 hk
  unfold Op.size
  omega

theorem Encoded.concat {C : MozCompiler} {l : List Ir} {W : BytecodeWriter} {ir : Ir}
    {ids : List UInt32} (h : Encoded C l W) (hids : labelIds C ir = some ids) :
    Encoded C (l ++ [ir]) (W.encoded ir ids) := by
  have hlen : W.writer.length = offsetOf l l.length := by
    rw [h.writer, length_flatMap_bytes]
  have hend : offsetOf (l ++ [ir]) l.length = W.writer.length := by
    rw [offsetOf_append le_rfl, hlen]
  have hlast : offsetOf (l ++ [ir]) (l.length + 1) = W.writer.length + ir.op.size := by
    rw [offsetOf_succ (show (l ++ [ir])[l.length]? = some ir by simp), hend]
  have hentries : (W.encoded ir ids).linker.entries =
      W.linker.entries ++ (labelOffsets W.writer.length ir).zip ids :=
    List.zip_append h.lengths
  have hwriter : (W.encoded ir ids).writer.length = W.writer.length + ir.op.size := by
    simp [BytecodeWriter.encoded, Ir.bytes_length]
  constructor
  case writer => simp [BytecodeWriter.encoded, h.writer]
  case head =>
    intro id m hm
    rw [lastIndex_concat] at hm
    by_cases hid : ir.id = id
    · obtain rfl : l.length = m := by simpa [hid] using hm
      simp [BytecodeWriter.encoded, hid, hend]
    · have hm' : lastIndex l id = some m := by simpa [hid] using hm
      have hlt := lastIndex_lt hm'
      simp [BytecodeWriter.encoded, Ne.symm hid, h.head id m hm', offsetOf_append hlt.le]
  case tail =>
    intro id m hm
    rw [lastIndex_concat] at hm
    by_cases hid : ir.id = id
    · obtain rfl : l.length = m := by simpa [hid] using hm
      simp [BytecodeWriter.encoded, hid, hlast]
    · have hm' : lastIndex l id = some m := by simpa [hid] using hm
      have hlt := lastIndex_lt hm'
      simp [BytecodeWriter.encoded, Ne.symm hid, h.tail id m hm', offsetOf_append hlt]
  case lengths =>
    simp [BytecodeWriter.encoded, h.lengths, labelOffsets_length, labelIds_length hids]
  case bound =>
    intro e he
    rw [hentries, List.mem_append] at he
    rw [hwriter]
    rcases he with he | he
    · have := h.bound e he
      omega
    · exact (mem_labelOffsets he).2
  case sorted =>
    rw [hentries, List.pairwise_append]
    refine ⟨h.sorted, labelOffsets_sorted _ _ _, fun e he e' he' => ?_⟩
    have := h.bound e he
    have := (mem_labelOffsets he').1
    omega
  case entry =>
    intro n x hn k label hk
    rw [hentries]
    rcases Nat.lt_or_ge n l.length with hlt | hge
    · rw [List.getElem?_append_left hlt] at hn
      obtain ⟨bb, id, hbb, hid, hmem⟩ := h.entry n x hn k label hk
      refine ⟨bb, id, hbb, hid, List.mem_append_left _ ?_⟩
      rwa [offsetOf_append hlt.le]
    · rw [List.getElem?_append_right hge] at hn
      obtain ⟨hz, rfl⟩ : n - l.length = 0 ∧ ir = x := by
        cases hd : n - l.length with
        | zero => simpa [hd] using hn
        | succ d => simp [hd] at hn
      obtain rfl : n = l.length := by omega
      obtain ⟨bb, id, hbb, hid, hget⟩ := labelIds_getElem? hids hk
      refine ⟨bb, id, hbb, hid, List.mem_append_right _ ?_⟩
      have hklt : k < ir.op.labelCount := by
        rw [← labelTargets_length C ir]
        exact (List.getElem?_eq_some_iff.1 hk).1
      have hoff : (labelOffsets W.writer.length ir)[k]? =
          some (offsetOf (l ++ [ir]) l.length + 1 + 4 * k) := by
        simp [labelOffsets, hklt, hend]
      exact List.mem_of_getElem? (List.getElem?_zip_eq_some.2 ⟨hoff, hget⟩)

/-- The writer after a layout, by induction on the layout from its end. -/
theorem encoded_of_foldlM {C : MozCompiler} {l : List Ir} {W : BytecodeWriter}
    (h : l.foldlM (mozIrEncode C) {} = some W) : Encoded C l W := by
  induction l using List.reverseRecOn generalizing W with
  | nil =>
    obtain rfl : {} = W := by simpa using h
    exact .nil C
  | append_singleton l ir ih =>
    rw [List.foldlM_append] at h
    cases hl : l.foldlM (mozIrEncode C) {} with
    | none => simp [hl] at h
    | some W' =>
      simp only [hl, Option.bind_eq_bind, Option.bind_some, List.foldlM_cons, List.foldlM_nil,
        mozIrEncode_eq] at h
      cases hids : labelIds C ir with
      | none => simp [hids] at h
      | some ids =>
        obtain rfl : W'.encoded ir ids = W := by simpa [hids] using h
        exact (ih hl).concat hids

theorem exists_foldlM {C : MozCompiler} {l : List Ir}
    (h : ∀ ir ∈ l, ∃ ids, labelIds C ir = some ids) :
    ∃ W, l.foldlM (mozIrEncode C) {} = some W := by
  induction l using List.reverseRecOn with
  | nil => exact ⟨{}, rfl⟩
  | append_singleton l ir ih =>
    obtain ⟨W, hW⟩ := ih fun x hx => h x (by simp [hx])
    obtain ⟨ids, hids⟩ := h ir (by simp)
    exact ⟨W.encoded ir ids, by simp [List.foldlM_append, hW, mozIrEncode_eq, hids]⟩

theorem mozlinkerResolve_eq (L : Linker) (code : List UInt8) :
    mozlinkerResolve L code =
      patchAll (fun id word => (L.addressHead id : ℤ) - L.addressTail (UInt32.ofNat word)) code
        L.entries := rfl

theorem readInt32_resolved {C : MozCompiler} {l : List Ir} {W : BytecodeWriter}
    (h : Encoded C l W) {n k m m' : ℕ} {ir : Ir} {id : UInt32} (hn : l[n]? = some ir)
    (hk : k < ir.op.labelCount) (hmem : (offsetOf l n + 1 + 4 * k, id) ∈ W.linker.entries)
    (hm : lastIndex l id = some m) (hm' : lastIndex l ir.id = some m') :
    readInt32 (mozlinkerResolve W.linker W.writer) (offsetOf l n + 1 + 4 * k) =
      Int.bmod ((offsetOf l m : ℤ) - offsetOf l (m' + 1)) (2 ^ 32) := by
  have hword : readAt W.writer (offsetOf l n + 1 + 4 * k) 4 = ir.id.toNat := by
    rw [h.writer, readAt_of_slice (slice_label hn hk)]
    exact Nat.mod_eq_of_lt ir.id.toNat_lt
  have hslice := slice_patchAll_of_mem
    (fun id word => (W.linker.addressHead id : ℤ) - W.linker.addressTail (UInt32.ofNat word))
    h.bound h.sorted hmem
  rw [mozlinkerResolve_eq, readInt32_of_slice hslice, hword, UInt32.ofNat_toNat,
    h.head id m hm, h.tail ir.id m' hm']

theorem mem_layout {C : MozCompiler} {bb : BlockId} {ir : Ir} (hbb : bb ∈ C.blocks)
    (hir : ir ∈ (C.mem bb).insts) : ir ∈ C.layout :=
  List.mem_flatMap.2 ⟨bb, hbb, hir⟩

/-- The first object of a block with an address occurs in the layout. -/
theorem exists_lastIndex_of_blockAddress {C : MozCompiler} {bb : BlockId} {a : ℕ} {id : UInt32}
    (ha : blockAddress C bb = some a) (hid : firstId C bb = some id) :
    ∃ m, lastIndex C.layout id = some m := by
  unfold blockAddress at ha
  split_ifs at ha with hc
  obtain ⟨first, hfirst, rfl⟩ := Option.map_eq_some_iff.1 hid
  exact exists_lastIndex (mem_layout hc.1 (List.mem_of_head? hfirst))

/-- An offset, reduced to 32 bits, leads to `a` exactly when both drifts agree and `a` is in
reach of a signed offset. -/
theorem offset_eq_iff (tail head lastTail a : ℤ) :
    tail + Int.bmod (head - lastTail) (2 ^ 32) = a ↔
      (head - a ≡ lastTail - tail [ZMOD 2 ^ 32]) ∧ -2 ^ 31 ≤ a - tail ∧ a - tail < 2 ^ 31 := by
  have hmove : tail + Int.bmod (head - lastTail) (2 ^ 32) = a ↔
      Int.bmod (head - lastTail) (2 ^ 32) = a - tail := by
    constructor <;> intro h <;> linarith
  have hmod : (head - lastTail ≡ a - tail [ZMOD 2 ^ 32]) ↔
      (head - a ≡ lastTail - tail [ZMOD 2 ^ 32]) := by
    rw [Int.modEq_iff_dvd, Int.modEq_iff_dvd]
    have hsub : a - tail - (head - lastTail) = lastTail - tail - (head - a) := by ring
    rw [hsub]
  rw [hmove, bmod_eq_iff, hmod]

/-- When every label can be encoded, the module is compiled from an `Encoded` writer. -/
theorem mozVm2ModuleCompile_eq_some_iff {C : MozCompiler} {code : List UInt8} :
    mozVm2ModuleCompile C = some code ↔
      ∃ W, C.layout.foldlM (mozIrEncode C) {} = some W ∧
        mozlinkerResolve W.linker W.writer = code := by
  unfold mozVm2ModuleCompile
  cases C.layout.foldlM (mozIrEncode C) {} <;> simp

/-- The linker is right exactly on the block lists whose labels have equal drifts. -/
theorem linked_iff_equalDrift (C : MozCompiler) : Linked C ↔ EqualDrift C := by
  constructor
  · rintro ⟨code, hcode, hlabels⟩ n ir hn k label hk
    obtain ⟨W, hW, rfl⟩ := mozVm2ModuleCompile_eq_some_iff.1 hcode
    have henc := encoded_of_foldlM hW
    obtain ⟨bb, a, rfl, ha, hoff⟩ := hlabels n ir hn k label hk
    obtain ⟨bb', id, hbb, hid, hmem⟩ := henc.entry n ir hn k _ hk
    obtain rfl : bb = bb' := by simpa using hbb
    have hklt : k < ir.op.labelCount := by
      rw [← labelTargets_length C ir]
      exact (List.getElem?_eq_some_iff.1 hk).1
    obtain ⟨m, hm⟩ := exists_lastIndex_of_blockAddress ha hid
    obtain ⟨m', hm'⟩ := exists_lastIndex (List.mem_of_getElem? hn)
    rw [readInt32_resolved henc hn hklt hmem hm hm', offset_eq_iff] at hoff
    exact ⟨bb, a, id, m, m', rfl, ha, hid, hm, hm', hoff⟩
  · intro hdrift
    have hids : ∀ ir ∈ C.layout, ∃ ids, labelIds C ir = some ids := by
      intro ir hir
      obtain ⟨n, hn⟩ := List.getElem?_of_mem hir
      refine exists_mapM fun label hlabel => ?_
      obtain ⟨k, hk⟩ := List.getElem?_of_mem hlabel
      obtain ⟨bb, a, id, m, m', rfl, ha, hid, hm, hm', hoff⟩ := hdrift n ir hn k label hk
      exact ⟨id, hid⟩
    obtain ⟨W, hW⟩ := exists_foldlM hids
    have henc := encoded_of_foldlM hW
    refine ⟨_, mozVm2ModuleCompile_eq_some_iff.2 ⟨W, hW, rfl⟩, fun n ir hn k label hk => ?_⟩
    obtain ⟨bb, a, id, m, m', rfl, ha, hid, hm, hm', hoff⟩ := hdrift n ir hn k label hk
    obtain ⟨bb', id', hbb, hid', hmem⟩ := henc.entry n ir hn k _ hk
    obtain rfl : bb = bb' := by simpa using hbb
    obtain rfl : id = id' := by simpa [hid] using hid'
    have hklt : k < ir.op.labelCount := by
      rw [← labelTargets_length C ir]
      exact (List.getElem?_eq_some_iff.1 hk).1
    refine ⟨bb, a, rfl, ha, ?_⟩
    rw [readInt32_resolved henc hn hklt hmem hm hm', offset_eq_iff]
    exact hoff

theorem getElem?_lastIndex {l : List Ir} {id : UInt32} {m : ℕ} (h : lastIndex l id = some m) :
    ∃ ir, l[m]? = some ir ∧ ir.id = id := by
  induction l using List.reverseRecOn generalizing m with
  | nil => simp [lastIndex] at h
  | append_singleton l x ih =>
    rw [lastIndex_concat] at h
    split_ifs at h with hid
    · obtain rfl : l.length = m := by simpa using h
      exact ⟨x, by simp, hid⟩
    · obtain ⟨ir, hir, hid'⟩ := ih h
      exact ⟨ir, by rw [List.getElem?_append_left (lastIndex_lt h), hir], hid'⟩

/-- An object that occurs once has its only occurrence as the last one. -/
theorem lastIndex_of_nodup {l : List Ir} (hl : (l.map (·.id)).Nodup) {n : ℕ} {ir : Ir}
    (hn : l[n]? = some ir) : lastIndex l ir.id = some n := by
  obtain ⟨m, hm⟩ := exists_lastIndex (List.mem_of_getElem? hn)
  obtain ⟨ir', hir', hid⟩ := getElem?_lastIndex hm
  have hget : (l.map (·.id))[m]? = (l.map (·.id))[n]? := by simp [hn, hir', hid]
  have hlt : m < (l.map (·.id)).length := by simpa using lastIndex_lt hm
  rw [hm, (List.getElem?_inj hlt hl).1 hget]

/-- A block address is the offset of the block's first object in the layout. -/
theorem blockAddress_spec {C : MozCompiler} {bb : BlockId} {a : ℕ}
    (h : blockAddress C bb = some a) :
    ∃ first m, (C.mem bb).insts.head? = some first ∧ C.layout[m]? = some first ∧
      a = offsetOf C.layout m := by
  unfold blockAddress at h
  split_ifs at h with hc
  obtain ⟨hbb, hne⟩ := hc
  obtain ⟨first, rest, hinsts⟩ := List.exists_cons_of_ne_nil hne
  have hlt := List.idxOf_lt_length_iff.2 hbb
  refine ⟨first, _, by simp [hinsts], ?_, (Option.some.inj h).symm⟩
  have hsplit : C.layout = (C.blocks.take (C.blocks.idxOf bb)).flatMap (fun b => (C.mem b).insts) ++
      (first :: rest ++ (C.blocks.drop (C.blocks.idxOf bb + 1)).flatMap
        (fun b => (C.mem b).insts)) := by
    have hblocks : C.blocks = C.blocks.take (C.blocks.idxOf bb) ++
        bb :: C.blocks.drop (C.blocks.idxOf bb + 1) := by
      conv_lhs => rw [← List.take_append_drop (C.blocks.idxOf bb) C.blocks,
        List.drop_eq_getElem_cons hlt, List.getElem_idxOf]
    conv_lhs => rw [MozCompiler.layout, hblocks]
    simp [hinsts]
  rw [hsplit, List.getElem?_append_right le_rfl]
  simp

theorem offsetOf_mono {l : List Ir} {m n : ℕ} (h : m ≤ n) : offsetOf l m ≤ offsetOf l n := by
  have htake : l.take n = l.take m ++ (l.drop m).take (n - m) := by
    rw [← List.take_add]
    congr 1
    omega
  simp [offsetOf, htake]

theorem offsetOf_le (l : List Ir) (n : ℕ) : offsetOf l n ≤ offsetOf l l.length := by
  rcases Nat.le_total n l.length with h | h
  · exact offsetOf_mono h
  · simp [offsetOf, List.take_of_length_le h]

/-- As long as no object is in two places, the module is small and every label names a listed
block, the linker is right. -/
theorem equalDrift_of_nodup {C : MozCompiler} (hnodup : (C.layout.map (·.id)).Nodup)
    (hsize : offsetOf C.layout C.layout.length < 2 ^ 31)
    (hlabels : ∀ ir ∈ C.layout, ∀ label ∈ labelTargets C ir,
      ∃ bb a, label = some bb ∧ blockAddress C bb = some a) : EqualDrift C := by
  intro n ir hn k label hk
  obtain ⟨bb, a, hbb, ha⟩ :=
    hlabels ir (List.mem_of_getElem? hn) label (List.mem_of_getElem? hk)
  obtain ⟨first, m, hfirst, hm, rfl⟩ := blockAddress_spec ha
  have hle := offsetOf_le C.layout m
  have hle' := offsetOf_le C.layout (n + 1)
  refine ⟨bb, _, first.id, m, n, hbb, ha, by simp [firstId, hfirst],
    lastIndex_of_nodup hnodup hm, lastIndex_of_nodup hnodup hn, by simp, ?_, ?_⟩ <;> omega

/-- `File = ('ab' / 'cd') 'e'`. -/
def sharedTail : MozCompiler where
  decls := [{ body := .sequence [.choice [.str [97, 98], .str [99, 100]], .byte 101] }]

/-- The first copy of the shared `IByte` fails to the byte before the code, not to its `IFail`. -/
theorem sharedTail_not_linked :
    ∃ C, mozIrOptimize 40 (mozAstToIr sharedTail) = some C ∧ ¬ Linked C := by
  have hfacts : (mozIrOptimize 40 (mozAstToIr sharedTail)).map (fun C =>
      (mozVm2ModuleCompile C, C.layout[1]?, blockAddress C 2,
        offsetOf C.layout 1, offsetOf C.layout 2)) =
      some (some [11, 8, 0, 0, 0, 0, 0, 10, 242, 255, 255, 255, 101, 7, 8,
          11, 248, 255, 255, 255, 1, 0, 10, 242, 255, 255, 255, 101, 7],
        some { addr := 7, id := 7, parent := 5, fail := 2, op := .iByte 101 }, some 14, 7, 13) := by
    decide +kernel
  obtain ⟨C, hC, hC'⟩ := Option.map_eq_some_iff.1 hfacts
  simp only [Prod.mk.injEq] at hC'
  obtain ⟨hcode, hir, hfail, hhead, htail⟩ := hC'
  refine ⟨C, hC, ?_⟩
  rintro ⟨code, hcode', hlabels⟩
  obtain rfl := Option.some.inj (hcode'.symm.trans hcode)
  obtain ⟨bb, a, hbb, ha, hoff⟩ := hlabels 1 _ hir 0 (some 2) rfl
  obtain rfl : 2 = bb := by simpa using hbb
  obtain rfl : 14 = a := by simpa [hfail] using ha
  rw [hhead, htail] at hoff
  revert hoff
  decide +kernel

end Moz.Compiler
