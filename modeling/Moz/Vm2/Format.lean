import Moz.Compiler.Linking
import Moz.Vm2.Instruction

/-!
# One format for encoder, VM2 and dumper

What `moz_ir_encode` writes by hand is read by code that is generated from
`vm2.vmdef`. Where no object stands twice, and no shift is set, the walk of
`moz_vm2_module_dump` meets the instructions as they were encoded, before and after
linking.
-/

namespace Moz.Vm2

open LittleEndian Compiler

/-- The types of the operands of `vm2.vmdef`. -/
inductive OperandType
  | int8
  | uint8
  | uint16
  | string
  | bitset
  | tag
  | mozaddr

def OperandType.sizeof : OperandType → ℕ
  | int8 | uint8 => 1
  | uint16 | string | bitset | tag => 2
  | mozaddr => 4

/-- The operands in `vm2.vmdef`, by the place of the opcode. -/
def vmdef : ℕ → Option (List OperandType)
  | 0 | 5 | 6 | 7 | 8 | 20 | 23 | 24 | 28 | 29 | 33 | 35 | 36 | 45 | 46 => some []
  | 1 | 39 | 40 => some [.int8]
  | 2 | 9 | 13 | 14 | 15 => some [.mozaddr]
  | 3 | 31 | 44 => some [.uint16]
  | 4 => some [.mozaddr, .mozaddr]
  | 10 | 16 => some [.mozaddr, .uint8]
  | 11 | 17 => some [.mozaddr, .string]
  | 12 | 18 => some [.mozaddr, .bitset]
  | 19 | 25 => some [.uint8]
  | 21 | 26 | 42 => some [.string]
  | 22 | 27 => some [.bitset]
  | 30 => some [.uint16, .mozaddr]
  | 32 => some [.mozaddr, .uint16]
  | 34 | 37 | 41 | 47 | 48 => some [.tag]
  | 38 => some [.int8, .tag]
  | 43 => some [.tag, .uint16, .mozaddr]
  | 49 => some [.mozaddr, .tag, .string]
  | 50 | 51 | 52 | 53 => some [.mozaddr, .tag]
  | _ => none

/-- The place that `mozvm2_dump` returns; `NULL` for an opcode it does not know. -/
def mozvm2Dump (code : List UInt8) (inst : ℕ) : Option ℕ :=
  ((code[inst]?).map UInt8.toNat).bind fun opcode =>
    (vmdef opcode).map fun operands =>
      operands.foldl (fun inst type => inst + type.sizeof) (inst + 1)

/-- The loop of `moz_vm2_module_dump`: the instructions it prints, with the places it goes on at. It
ends at `compiled_code_end` only. -/
def mozVm2ModuleDump : ℕ → List UInt8 → ℕ → Option (List (Inst × ℕ))
  | 0, _, _ => none
  | rounds + 1, code, inst =>
    if inst = code.length then some []
    else do
      let (printed, _) ← decode code inst
      let inst ← mozvm2Dump code inst
      let rest ← mozVm2ModuleDump rounds code inst
      return (printed, inst) :: rest

theorem decode_end (code : List UInt8) (pc : ℕ) :
    (decode code pc).map Prod.snd = mozvm2Dump code pc := by
  unfold decode mozvm2Dump
  generalize (code[pc]?).map UInt8.toNat = o
  cases o with
  | none => rfl
  | some n =>
    by_cases hn : n < 54
    · interval_cases n <;> rfl
    · obtain ⟨m, rfl⟩ : ∃ m, n = m + 54 := ⟨n - 54, by omega⟩
      rfl

/-- The instruction of `vm2.vmdef` of the same kind with the same operands, where the words of the
labels are given. -/
def inst (op : Op) (labels : ℕ → ℤ) : Inst :=
  match op with
  | .iLabel => .iLabel
  | .iJump _ => .iJump (labels 0)
  | .iInvoke _ => .iInvoke (labels 0) (labels 1)
  | .iPLoad => .iPLoad
  | .iPStore => .iPStore
  | .iRet => .iRet
  | .iFail => .iFail
  | .iAny => .iAny (labels 0)
  | .iByte byte => .iByte (labels 0) byte
  | .iStr strId => .iStr (labels 0) strId
  | .iSet setId => .iSet (labels 0) setId
  | .iNAny => .iNAny (labels 0)
  | .iNByte byte => .iNByte (labels 0) byte
  | .iNStr strId => .iNStr (labels 0) strId
  | .iNSet setId => .iNSet (labels 0) setId
  | .iRByte byte => .iRByte byte
  | .iRAny => .iRAny
  | .iRStr strId => .iRStr strId
  | .iRSet setId => .iRSet setId
  | .iOByte byte => .iOByte byte
  | .iOStr strId => .iOStr strId
  | .iOSet setId => .iOSet setId
  | .iTPush => .iTPush
  | .iTPop tagId => .iTPop tagId
  | .iTNew shift => .iTNew shift
  | .iTCapture shift => .iTCapture shift
  | .iTTag tagId => .iTTag tagId

/-- The shift of a `New` or `Capture`. -/
def shiftOf : Op → Int8
  | .iTNew shift | .iTCapture shift => shift
  | _ => 0

/-- `moz_ITNew_encode` and `moz_ITCapture_encode` write no shift. -/
def unshifted : Op → Op
  | .iTNew _ => .iTNew 0
  | .iTCapture _ => .iTCapture 0
  | op => op

theorem one_le_size (op : Op) : 1 ≤ op.size := by
  unfold Op.size
  omega

theorem length_le_offsetOf (l : List Ir) : l.length ≤ offsetOf l l.length := by
  have hsum := List.length_le_sum_of_one_le (l.map fun ir => ir.op.size) fun i hi => by
    obtain ⟨ir, -, rfl⟩ := List.mem_map.1 hi
    exact one_le_size ir.op
  rw [offsetOf, List.take_length]
  rwa [List.length_map] at hsum

section Instruction

variable {code : List UInt8} {off : ℕ} {op : Op}

theorem unshifted_eq_iff (op : Op) (labels : ℕ → ℤ) :
    inst (unshifted op) labels = inst op labels ↔ shiftOf op = 0 := by
  cases op with
  | iTNew shift =>
    rw [unshifted, inst, inst, shiftOf, Inst.iTNew.injEq]
    exact eq_comm
  | iTCapture shift =>
    rw [unshifted, inst, inst, shiftOf, Inst.iTCapture.injEq]
    exact eq_comm
  | _ => exact iff_of_true rfl rfl

theorem read8_of_slice {byte : UInt8} (h : slice code off 1 = [byte]) : read8 code off = byte := by
  rw [read8, readAt, h]
  show UInt8.ofNat (byte.toNat + 256 * 0) = byte
  simp

theorem read16_of_slice {id : UInt16} (h : slice code off 2 = encode 2 id.toNat) :
    read16 code off = id := by
  have hlt : id.toNat < 256 ^ 2 := id.toNat_lt
  rw [read16, readAt_of_slice h, Nat.mod_eq_of_lt hlt, UInt16.ofNat_toNat]

theorem getElem?_of_slice {byte : UInt8} (h : slice code off 1 = [byte]) : code[off]? = some byte := by
  have hget : (slice code off 1)[0]? = some byte := by rw [h]; rfl
  rwa [slice, List.getElem?_take_of_lt Nat.one_pos, List.getElem?_drop, Nat.add_zero] at hget

/-- An opcode followed by the words of its labels and its constants is read as the instruction. -/
theorem decode_inst (hop : slice code off 1 = [op.opcode])
    (hconstants : slice code (off + 1 + 4 * op.labelCount) op.constants.length = op.constants) :
    decode code off = some (inst (unshifted op) fun k => readInt32 code (off + 1 + 4 * k),
      off + op.size) := by
  have hget := getElem?_of_slice hop
  cases op with
  | iByte byte | iNByte byte =>
    have hbyte : read8 code (off + 5) = byte := read8_of_slice hconstants
    rw [decode, hget, ← hbyte]
    rfl
  | iStr id | iSet id | iNStr id | iNSet id =>
    have hid : read16 code (off + 5) = id := read16_of_slice hconstants
    rw [decode, hget, ← hid]
    rfl
  | iRByte byte | iOByte byte =>
    have hbyte : read8 code (off + 1) = byte := read8_of_slice hconstants
    rw [decode, hget, ← hbyte]
    rfl
  | iRStr id | iRSet id | iOStr id | iOSet id | iTPop id | iTTag id =>
    have hid : read16 code (off + 1) = id := read16_of_slice hconstants
    rw [decode, hget, ← hid]
    rfl
  | iTNew shift =>
    have hzero : (read8 code (off + 1)).toInt8 = 0 :=
      congrArg UInt8.toInt8 (read8_of_slice hconstants)
    rw [decode, hget]
    show some (Inst.iTNew (read8 code (off + 1)).toInt8, off + 2) = _
    rw [hzero]
    rfl
  | iTCapture shift =>
    have hzero : (read8 code (off + 1)).toInt8 = 0 :=
      congrArg UInt8.toInt8 (read8_of_slice hconstants)
    rw [decode, hget]
    show some (Inst.iTCapture (read8 code (off + 1)).toInt8, off + 2) = _
    rw [hzero]
    rfl
  | iLabel | iJump | iInvoke | iPLoad | iPStore | iRet | iFail | iAny | iNAny | iRAny | iTPush =>
    rw [decode, hget]
    rfl

end Instruction

/-- The walk of the dumper over `code` prints the instructions of `l`, in order and with their
operands, and each ends where `address_tail` says. -/
def Decodes (W : BytecodeWriter) (l : List Ir) (code : List UInt8) (labels : Ir → ℕ → ℤ) : Prop :=
  ∃ decoded, mozVm2ModuleDump (code.length + 1) code 0 = some decoded ∧
    List.Forall₂ (fun ir d => d = (inst ir.op (labels ir), W.linker.addressTail ir.id)) l decoded

/-- The word that `mozlinker_add_label` leaves in the place of a label. -/
def calleeWord (ir : Ir) (_ : ℕ) : ℤ := Int.bmod ir.id.toNat (2 ^ 32)

/-- The distance that `mozlinker_resolve` puts there. -/
def resolvedWord (C : MozCompiler) (W : BytecodeWriter) (ir : Ir) (k : ℕ) : ℤ :=
  match ((labelTargets C ir)[k]?).bind fun label => label.bind (firstId C) with
  | some id => Int.bmod ((W.linker.addressHead id : ℤ) - W.linker.addressTail ir.id) (2 ^ 32)
  | none => 0

/-- The code is read as it was written, before and after linking. -/
def SharesFormat (C : MozCompiler) (l : List Ir) (W : BytecodeWriter) : Prop :=
  Decodes W l W.writer calleeWord ∧
    Decodes W l (mozlinkerResolve W.linker W.writer) (resolvedWord C W)

section Sequences

variable {C : MozCompiler} {l : List Ir} {W : BytecodeWriter} {code : List UInt8} {ir : Ir} {n : ℕ}

theorem flatMap_bytes_split (h : l[n]? = some ir) : ∃ pre post,
    l.flatMap Ir.bytes = pre ++ ir.bytes ++ post ∧ pre.length = offsetOf l n := by
  obtain ⟨hlt, hir⟩ := List.getElem?_eq_some_iff.1 h
  refine ⟨(l.take n).flatMap Ir.bytes, (l.drop (n + 1)).flatMap Ir.bytes, ?_, ?_⟩
  · conv_lhs => rw [← List.take_append_drop n l, List.drop_eq_getElem_cons hlt, hir]
    rw [List.flatMap_append, List.flatMap_cons, List.append_assoc]
  · rw [List.length_flatMap, offsetOf]
    simp only [Ir.bytes_length]

/-- The opcode and the constants of each instruction are in place. -/
structure InPlace (l : List Ir) (code : List UInt8) : Prop where
  length : code.length = offsetOf l l.length
  opcode : ∀ n ir, l[n]? = some ir → slice code (offsetOf l n) 1 = [ir.op.opcode]
  constants : ∀ n ir, l[n]? = some ir →
    slice code (offsetOf l n + 1 + 4 * ir.op.labelCount) ir.op.constants.length = ir.op.constants

theorem inPlace_bytes (l : List Ir) : InPlace l (l.flatMap Ir.bytes) where
  length := length_flatMap_bytes l
  opcode n ir h := by
    obtain ⟨pre, post, hcode, hpre⟩ := flatMap_bytes_split h
    rw [hcode, ← hpre, Ir.bytes]
    have hslice := slice_append pre [ir.op.opcode]
      ((List.replicate ir.op.labelCount (encode 4 ir.id.toNat)).flatten ++ ir.op.constants ++ post)
    simpa using hslice
  constants n ir h := by
    obtain ⟨pre, post, hcode, hpre⟩ := flatMap_bytes_split h
    have hslice := slice_append (pre ++ ir.op.opcode ::
      (List.replicate ir.op.labelCount (encode 4 ir.id.toNat)).flatten) ir.op.constants post
    have hlength : (pre ++ ir.op.opcode ::
        (List.replicate ir.op.labelCount (encode 4 ir.id.toNat)).flatten).length =
        offsetOf l n + 1 + 4 * ir.op.labelCount := by
      simp [hpre, mul_comm]
      omega
    rw [hlength] at hslice
    rw [hcode, Ir.bytes]
    simpa using hslice

/-- What the dumper reads at the offset of the `n`-th instruction, and where it goes on. -/
def printed (l : List Ir) (code : List UInt8) (n : ℕ) (ir : Ir) : Inst × ℕ :=
  (inst (unshifted ir.op) fun j => readInt32 code (offsetOf l n + 1 + 4 * j), offsetOf l (n + 1))

theorem InPlace.dump (h : InPlace l code) (rounds : ℕ) : ∀ {n : ℕ}, n ≤ l.length →
    l.length < n + rounds →
    ∃ decoded, mozVm2ModuleDump rounds code (offsetOf l n) = some decoded ∧
      decoded.length = l.length - n ∧ ∀ k ir, l[n + k]? = some ir →
        decoded[k]? = some (printed l code (n + k) ir) := by
  induction rounds with
  | zero =>
    intro n hn hlt
    omega
  | succ rounds ih =>
    intro n hn hlt
    rcases Nat.eq_or_lt_of_le hn with rfl | hlen
    · refine ⟨[], if_pos h.length.symm, by simp, fun k ir hk => ?_⟩
      have hbound := (List.getElem?_eq_some_iff.1 hk).1
      omega
    · obtain ⟨ir, hir⟩ : ∃ ir, l[n]? = some ir := ⟨l[n], List.getElem?_eq_getElem hlen⟩
      have hsize : offsetOf l (n + 1) = offsetOf l n + ir.op.size := offsetOf_succ hir
      have hpos := one_le_size ir.op
      have hle : offsetOf l (n + 1) ≤ offsetOf l l.length := offsetOf_mono hlen
      have hne : offsetOf l n ≠ code.length := by
        rw [h.length]
        omega
      have hdecode := decode_inst (h.opcode n ir hir) (h.constants n ir hir)
      have hdump : mozvm2Dump code (offsetOf l n) = some (offsetOf l (n + 1)) := by
        rw [← decode_end, hdecode, hsize]
        rfl
      obtain ⟨decoded, hrest, hlength, hdecoded⟩ := ih hlen (by omega)
      refine ⟨printed l code n ir :: decoded, ?_, ?_, ?_⟩
      · rw [mozVm2ModuleDump, if_neg hne, hdecode, hdump]
        show (do
          let rest ← mozVm2ModuleDump rounds code (offsetOf l (n + 1))
          return printed l code n ir :: rest) = _
        rw [hrest]
        rfl
      · rw [List.length_cons, hlength]
        omega
      · intro k ir' hk
        cases k with
        | zero =>
          obtain rfl : ir = ir' := Option.some.inj (hir.symm.trans hk)
          rfl
        | succ k =>
          have hk' : l[n + 1 + k]? = some ir' := by rwa [Nat.add_right_comm]
          rw [List.getElem?_cons_succ, hdecoded k ir' hk', Nat.succ_add_eq_add_succ]

/-- The words of the labels are the only operands that linking changes. -/
theorem inst_congr {op : Op} {labels labels' : ℕ → ℤ}
    (h : ∀ k < op.labelCount, labels k = labels' k) : inst op labels = inst op labels' := by
  cases op with
  | iInvoke decl => exact congrArg₂ Inst.iInvoke (h 0 Nat.two_pos) (h 1 Nat.one_lt_two)
  | iJump target => exact congrArg Inst.iJump (h 0 Nat.one_pos)
  | iAny => exact congrArg Inst.iAny (h 0 Nat.one_pos)
  | iNAny => exact congrArg Inst.iNAny (h 0 Nat.one_pos)
  | iByte byte => exact congrArg (Inst.iByte · byte) (h 0 Nat.one_pos)
  | iNByte byte => exact congrArg (Inst.iNByte · byte) (h 0 Nat.one_pos)
  | iStr id => exact congrArg (Inst.iStr · id) (h 0 Nat.one_pos)
  | iNStr id => exact congrArg (Inst.iNStr · id) (h 0 Nat.one_pos)
  | iSet id => exact congrArg (Inst.iSet · id) (h 0 Nat.one_pos)
  | iNSet id => exact congrArg (Inst.iNSet · id) (h 0 Nat.one_pos)
  | _ => rfl

theorem labelCount_unshifted (op : Op) : (unshifted op).labelCount = op.labelCount := by
  cases op <;> rfl

/-- An object is described by `address_tail` where it occurs for the last time. -/
theorem tail_eq_iff (h : Encoded C l W) (hn : l[n]? = some ir) :
    offsetOf l (n + 1) = W.linker.addressTail ir.id ↔ lastIndex l ir.id = some n := by
  obtain ⟨m, hm⟩ := exists_lastIndex (List.mem_of_getElem? hn)
  rw [h.tail ir.id m hm, hm, Option.some_inj]
  constructor
  · intro hoff
    rcases Nat.lt_trichotomy m n with hlt | heq | hlt
    · have hmono := @offsetOf_mono l (m + 1) n hlt
      rw [offsetOf_succ hn] at hoff
      have hpos := one_le_size ir.op
      omega
    · exact heq
    · obtain ⟨last, hlast, -⟩ := getElem?_lastIndex hm
      have hmono := @offsetOf_mono l (n + 1) m hlt
      rw [offsetOf_succ hlast] at hoff
      have hpos := one_le_size last.op
      omega
  · rintro rfl
    rfl

theorem nodup_iff_lastIndex : (l.map (·.id)).Nodup ↔
    ∀ n ir, l[n]? = some ir → lastIndex l ir.id = some n := by
  refine ⟨fun h n ir hn => lastIndex_of_nodup h hn, fun h => ?_⟩
  rw [List.nodup_iff_getElem?_ne_getElem?]
  intro i j hij hj heq
  rw [List.length_map] at hj
  have hget := List.getElem?_eq_getElem hj
  have hi := hij.trans hj
  have hget' := List.getElem?_eq_getElem hi
  rw [List.getElem?_map, List.getElem?_map, hget, hget'] at heq
  have hid : l[i].id = l[j].id := Option.some.inj heq
  have hlast := h i _ hget'
  rw [hid, h j _ hget] at hlast
  exact hij.ne' (Option.some.inj hlast)

/-- The walk shows the format exactly when no shift is set and no object occurs twice. -/
theorem InPlace.decodes_iff (h : InPlace l code) (henc : Encoded C l W) {labels : Ir → ℕ → ℤ}
    (hlabels : ∀ n ir, l[n]? = some ir → ∀ k < ir.op.labelCount,
      readInt32 code (offsetOf l n + 1 + 4 * k) = labels ir k) :
    Decodes W l code labels ↔ (∀ ir ∈ l, shiftOf ir.op = 0) ∧ (l.map (·.id)).Nodup := by
  have hlen : l.length ≤ code.length := by
    rw [h.length]
    exact length_le_offsetOf l
  obtain ⟨decoded, hdump, hlength, hdecoded⟩ := h.dump (code.length + 1) (Nat.zero_le l.length)
    (by omega)
  have hprinted : ∀ n ir, l[n]? = some ir →
      (printed l code n ir = (inst ir.op (labels ir), W.linker.addressTail ir.id) ↔
        shiftOf ir.op = 0 ∧ lastIndex l ir.id = some n) := by
    intro n ir hn
    have hinst : inst (unshifted ir.op) (fun j => readInt32 code (offsetOf l n + 1 + 4 * j)) =
        inst (unshifted ir.op) (labels ir) :=
      inst_congr fun k hk => hlabels n ir hn k (labelCount_unshifted ir.op ▸ hk)
    rw [printed, hinst, Prod.mk.injEq, unshifted_eq_iff, tail_eq_iff henc hn]
  rw [nodup_iff_lastIndex]
  constructor
  · rintro ⟨decoded', hdump', hall⟩
    obtain rfl : decoded = decoded' := Option.some.inj (hdump.symm.trans hdump')
    have hboth : ∀ n ir, l[n]? = some ir → shiftOf ir.op = 0 ∧ lastIndex l ir.id = some n := by
      intro n ir hn
      obtain ⟨hlt, rfl⟩ := List.getElem?_eq_some_iff.1 hn
      have hlt' : n < decoded.length := hall.length_eq ▸ hlt
      have hget := hdecoded n l[n] (by rwa [Nat.zero_add])
      rw [Nat.zero_add, List.getElem?_eq_getElem hlt'] at hget
      have hpair := (List.forall₂_iff_get.1 hall).2 n hlt hlt'
      exact (hprinted n l[n] hn).1 ((Option.some.inj hget).symm.trans hpair)
    refine ⟨fun ir hir => ?_, fun n ir hn => (hboth n ir hn).2⟩
    obtain ⟨n, hn⟩ := List.getElem?_of_mem hir
    exact (hboth n ir hn).1
  · rintro ⟨hshift, hlast⟩
    refine ⟨decoded, hdump, List.forall₂_iff_get.2 ⟨by omega, fun n hlt hlt' => ?_⟩⟩
    have hn : l[n]? = some l[n] := List.getElem?_eq_getElem hlt
    have hget := hdecoded n l[n] (by rwa [Nat.zero_add])
    rw [Nat.zero_add, List.getElem?_eq_getElem hlt'] at hget
    have hpair := (hprinted n l[n] hn).2 ⟨hshift l[n] (List.getElem_mem hlt), hlast n l[n] hn⟩
    exact (Option.some.inj hget).trans hpair

/-- Each label of the linker lies in the place of a label of an instruction. -/
theorem mem_entries (h : l.foldlM (mozIrEncode C) {} = some W) : ∀ e ∈ W.linker.entries,
    ∃ n ir, l[n]? = some ir ∧ ∃ k < ir.op.labelCount, e.1 = offsetOf l n + 1 + 4 * k := by
  induction l using List.reverseRecOn generalizing W with
  | nil =>
    obtain rfl : {} = W := Option.some.inj h
    intro e he
    cases he
  | append_singleton l ir ih =>
    rw [List.foldlM_append] at h
    obtain ⟨W', hW', hlast⟩ := Option.bind_eq_some_iff.1 h
    rw [List.foldlM_cons, mozIrEncode_eq] at hlast
    obtain ⟨W'', hids, hnil⟩ := Option.bind_eq_some_iff.1 hlast
    obtain rfl : W'' = W := Option.some.inj hnil
    obtain ⟨ids, hids, rfl⟩ := Option.map_eq_some_iff.1 hids
    have henc := encoded_of_foldlM hW'
    have hentries : (W'.encoded ir ids).linker.entries =
        W'.linker.entries ++ (labelOffsets W'.writer.length ir).zip ids :=
      List.zip_append henc.lengths
    have hlen : W'.writer.length = offsetOf (l ++ [ir]) l.length := by
      rw [henc.writer, length_flatMap_bytes, offsetOf_append le_rfl]
    intro e he
    rw [hentries, List.mem_append] at he
    rcases he with he | he
    · obtain ⟨n, x, hn, k, hk, hek⟩ := ih hW' e he
      have hlt := (List.getElem?_eq_some_iff.1 hn).1
      refine ⟨n, x, ?_, k, hk, ?_⟩
      · rwa [List.getElem?_append_left hlt]
      · rw [offsetOf_append hlt.le, hek]
    · obtain ⟨k, hk, hek⟩ := List.mem_map.1 (List.of_mem_zip he).1
      refine ⟨l.length, ir, by simp, k, List.mem_range.1 hk, ?_⟩
      rw [← hek, hlen]

/-- A slice of an instruction beside its labels is disjoint from every label. -/
theorem disjoint_entries (h : l.foldlM (mozIrEncode C) {} = some W) (hn : l[n]? = some ir)
    {p size : ℕ} (hlow : offsetOf l n ≤ p) (hhigh : p + size ≤ offsetOf l (n + 1))
    (hbeside : p + size ≤ offsetOf l n + 1 ∨ offsetOf l n + 1 + 4 * ir.op.labelCount ≤ p) :
    ∀ e ∈ W.linker.entries, p + size ≤ e.1 ∨ e.1 + 4 ≤ p := by
  intro e he
  obtain ⟨m, x, hm, k, hk, hek⟩ := mem_entries h e he
  have hsize : offsetOf l m + 1 + 4 * x.op.labelCount ≤ offsetOf l (m + 1) := by
    rw [offsetOf_succ hm, Op.size]
    omega
  rcases Nat.lt_trichotomy m n with hlt | rfl | hlt
  · have hmono := @offsetOf_mono l (m + 1) n hlt
    omega
  · obtain rfl : x = ir := Option.some.inj (hm.symm.trans hn)
    omega
  · have hmono := @offsetOf_mono l (n + 1) m hlt
    omega

theorem InPlace.mozlinkerResolve (h : l.foldlM (mozIrEncode C) {} = some W)
    (hplace : InPlace l W.writer) : InPlace l (mozlinkerResolve W.linker W.writer) := by
  have henc := encoded_of_foldlM h
  constructor
  case length => rw [mozlinkerResolve_eq, patchAll_length _ henc.bound, hplace.length]
  case opcode =>
    intro n ir hn
    have hsize := one_le_size ir.op
    rw [mozlinkerResolve_eq, slice_patchAll_of_disjoint _ henc.bound, hplace.opcode n ir hn]
    refine disjoint_entries h hn le_rfl ?_ (.inl le_rfl)
    rw [offsetOf_succ hn]
    omega
  case constants =>
    intro n ir hn
    rw [mozlinkerResolve_eq, slice_patchAll_of_disjoint _ henc.bound, hplace.constants n ir hn]
    refine disjoint_entries h hn (by omega) ?_ (.inr le_rfl)
    rw [offsetOf_succ hn, Op.size]
    omega

theorem readInt32_callee (henc : Encoded C l W) (hn : l[n]? = some ir) {k : ℕ}
    (hk : k < ir.op.labelCount) :
    readInt32 W.writer (offsetOf l n + 1 + 4 * k) = calleeWord ir k := by
  have hword : readAt W.writer (offsetOf l n + 1 + 4 * k) 4 = ir.id.toNat := by
    rw [henc.writer, readAt_of_slice (slice_label hn hk)]
    exact Nat.mod_eq_of_lt ir.id.toNat_lt
  exact congrArg (fun word : ℕ => Int.bmod word (2 ^ 32)) hword

theorem readInt32_resolvedWord (henc : Encoded C l W) (hn : l[n]? = some ir) {k : ℕ}
    (hk : k < ir.op.labelCount) :
    readInt32 (mozlinkerResolve W.linker W.writer) (offsetOf l n + 1 + 4 * k) =
      resolvedWord C W ir k := by
  have hword : readAt W.writer (offsetOf l n + 1 + 4 * k) 4 = ir.id.toNat := by
    rw [henc.writer, readAt_of_slice (slice_label hn hk)]
    exact Nat.mod_eq_of_lt ir.id.toNat_lt
  rw [← labelTargets_length C ir] at hk
  have hlabel := List.getElem?_eq_getElem hk
  obtain ⟨bb, id, hbb, hid, hmem⟩ := henc.entry n ir hn k _ hlabel
  have hslice := slice_patchAll_of_mem
    (fun id word => (W.linker.addressHead id : ℤ) - W.linker.addressTail (UInt32.ofNat word))
    henc.bound henc.sorted hmem
  have htarget : (((labelTargets C ir)[k]?).bind fun label => label.bind (firstId C)) = some id := by
    rw [hlabel, hbb]
    exact hid
  rw [mozlinkerResolve_eq, readInt32_of_slice hslice, hword, UInt32.ofNat_toNat, resolvedWord,
    htarget]

end Sequences

/-- Every label names a block that has a first instruction, as `mozlinker_add_label` needs. -/
def LabelsEncode (C : MozCompiler) (l : List Ir) : Prop :=
  ∀ ir ∈ l, ∀ label ∈ labelTargets C ir, ∃ bb, label = some bb ∧ (C.mem bb).insts ≠ []

theorem labelsEncode_iff (C : MozCompiler) (l : List Ir) :
    LabelsEncode C l ↔ ∃ W, l.foldlM (mozIrEncode C) {} = some W := by
  constructor
  · intro h
    refine exists_foldlM fun ir hir => exists_mapM fun label hlabel => ?_
    obtain ⟨bb, rfl, hinsts⟩ := h ir hir label hlabel
    obtain ⟨first, rest, hcons⟩ := List.exists_cons_of_ne_nil hinsts
    exact ⟨first.id, by simp [firstId, hcons]⟩
  · rintro ⟨W, hW⟩ ir hir label hlabel
    obtain ⟨n, hn⟩ := List.getElem?_of_mem hir
    obtain ⟨k, hk⟩ := List.getElem?_of_mem hlabel
    obtain ⟨bb, id, rfl, hid, -⟩ := (encoded_of_foldlM hW).entry n ir hn k label hk
    refine ⟨bb, rfl, fun hnil => ?_⟩
    simp [firstId, hnil] at hid

/-- Encoder, VM and dumper agree on a sequence of instructions exactly when it has no shift, which
the encoders leave out, and no object twice, of which `address_tail` would know one place only. -/
theorem sharesFormat_iff (C : MozCompiler) (l : List Ir) :
    (∃ W, l.foldlM (mozIrEncode C) {} = some W ∧ SharesFormat C l W) ↔
      LabelsEncode C l ∧ (∀ ir ∈ l, shiftOf ir.op = 0) ∧ (l.map (·.id)).Nodup := by
  rw [labelsEncode_iff]
  constructor
  · rintro ⟨W, hW, hbefore, -⟩
    have henc := encoded_of_foldlM hW
    have hplace : InPlace l W.writer := henc.writer ▸ inPlace_bytes l
    refine ⟨⟨W, hW⟩, ?_⟩
    rwa [← hplace.decodes_iff henc fun n ir hn k hk => readInt32_callee henc hn hk]
  · rintro ⟨⟨W, hW⟩, hexact⟩
    have henc := encoded_of_foldlM hW
    have hplace : InPlace l W.writer := henc.writer ▸ inPlace_bytes l
    refine ⟨W, hW, ?_, ?_⟩
    · rwa [hplace.decodes_iff henc fun n ir hn k hk => readInt32_callee henc hn hk]
    · rwa [(hplace.mozlinkerResolve hW).decodes_iff henc
        fun n ir hn k hk => readInt32_resolvedWord henc hn hk]

/-- The last instructions of `sharedTail` are one object in two blocks. -/
theorem sharedTail_not_sharesFormat :
    ∃ C, mozIrOptimize 40 (mozAstToIr sharedTail) = some C ∧
      ∃ W, C.layout.foldlM (mozIrEncode C) {} = some W ∧ ¬ SharesFormat C C.layout W := by
  have hfacts : (mozIrOptimize 40 (mozAstToIr sharedTail)).map (fun C =>
      ((C.layout.foldlM (mozIrEncode C) {}).isSome, C.layout.map (·.id))) =
      some (true, [2, 7, 10, 11, 4, 7, 10]) := by
    decide +kernel
  obtain ⟨C, hC, hC'⟩ := Option.map_eq_some_iff.1 hfacts
  obtain ⟨W, hW⟩ := Option.isSome_iff_exists.1 (congrArg Prod.fst hC')
  refine ⟨C, hC, W, hW, fun h => ?_⟩
  have henc := encoded_of_foldlM hW
  have hplace : InPlace C.layout W.writer := henc.writer ▸ inPlace_bytes C.layout
  have hexact := (hplace.decodes_iff henc fun n ir hn k hk => readInt32_callee henc hn hk).1 h.1
  rw [show C.layout.map (·.id) = _ from congrArg Prod.snd hC'] at hexact
  exact absurd hexact.2 (by decide)

end Moz.Vm2
