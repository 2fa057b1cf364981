import Moz.Bytecode.Listing
import Moz.Bytecode.Loading

/-!
# What VM1 reads of a piece

An instruction is read from its own bytes only. The pieces of an instruction, with
the words of its targets replaced, are read as the instruction itself.
-/

namespace Moz.Bytecode

open LittleEndian (slice readAt readInt32 encodeInt32 encode)
open Vm1 (Inst decode)

section Shift

variable {pre bs post : List UInt8}

theorem slice_shift {off w : ℕ} (h : off + w ≤ bs.length) :
    slice (pre ++ bs ++ post) (pre.length + off) w = slice bs off w := by
  unfold slice
  rw [List.append_assoc, ← List.drop_drop, List.drop_left, List.drop_append_of_le_length (by omega),
    List.take_append_of_le_length]
  rw [List.length_drop]
  omega

theorem read8_shift {off : ℕ} (h : off + 1 ≤ bs.length) :
    Vm1.read8 (pre ++ bs ++ post) (pre.length + off) = Vm1.read8 bs off := by
  rw [Vm1.read8, Vm1.read8, readAt, readAt, slice_shift h]

theorem read16_shift {off : ℕ} (h : off + 2 ≤ bs.length) :
    Vm1.read16 (pre ++ bs ++ post) (pre.length + off) = Vm1.read16 bs off := by
  rw [Vm1.read16, Vm1.read16, readAt, readAt, slice_shift h]

theorem readInt32_shift {off : ℕ} (h : off + 4 ≤ bs.length) :
    readInt32 (pre ++ bs ++ post) (pre.length + off) = readInt32 bs off := by
  have hslice := @slice_shift pre bs post off 4 h
  unfold readInt32 readAt
  rw [hslice]

end Shift

/-- An instruction is read from the bytes of its piece. -/
theorem decode_shift {pre post : List UInt8} {p : Piece} (h : p.args.length = p.op.operandSize) :
    decode (pre ++ p.bytes ++ post) pre.length =
      (decode p.bytes 0).map fun x => (x.1, pre.length + x.2) := by
  have hlen : p.bytes.length = p.op.operandSize + 1 := by rw [Piece.bytes_length, h]
  have hopcode := getElem?_opcode pre post p
  have hopcode' : p.bytes[0]? = some p.op.toByte := rfl
  unfold decode
  rw [hopcode, hopcode']
  generalize p.bytes = bs at hlen
  generalize p.op = op at hlen
  cases op with
  | nop | fail | succ | pos | back | skip | any | nAny | oAny | rAny | tPush | tStart | tAbort
  | sOpen | sClose | sDefNum | sCount => rfl
  | label => rfl
  | alt | jump | ret =>
    have h1 : 1 + 4 ≤ bs.length := hlen.ge
    show some (_, _) = some (_, _)
    rw [readInt32_shift h1]
  | call =>
    have h1 : 1 + 4 ≤ bs.length := by rw [hlen]; decide
    have h5 : 5 + 4 ≤ bs.length := hlen.ge
    show some (_, _) = some (_, _)
    rw [readInt32_shift h1, readInt32_shift h5]
  | byte | nByte | oByte | rByte =>
    have h1 : 1 + 1 ≤ bs.length := hlen.ge
    show some (_, _) = some (_, _)
    rw [read8_shift h1]
  | consume | tNew | tCapture | exit =>
    have h1 : 1 + 1 ≤ bs.length := hlen.ge
    show some (_, _) = some (_, _)
    beta_reduce
    rw [read8_shift h1]
  | str | nStr | oStr | rStr | set | nSet | oSet | rSet | first | tPop | tTag | tReplace | tCommit
  | sMask | sDef | sExists | sMatch | sIs | sIsa | tblJump1 | tblJump2 | tblJump3 =>
    have h1 : 1 + 2 ≤ bs.length := hlen.ge
    show some (_, _) = some (_, _)
    rw [read16_shift h1]
  | tLeftFold | memo | memoFail | tMemo =>
    have h1 : 1 + 1 ≤ bs.length := by rw [hlen]; decide
    have h2 : 2 + 2 ≤ bs.length := hlen.ge
    show some (_, _) = some (_, _)
    beta_reduce
    rw [read8_shift h1, read16_shift h2]
  | sIsDef =>
    have h1 : 1 + 2 ≤ bs.length := by rw [hlen]; decide
    have h3 : 3 + 2 ≤ bs.length := hlen.ge
    show some (_, _) = some (_, _)
    rw [read16_shift h1, read16_shift h3]
  | lookup =>
    have h1 : 1 + 1 ≤ bs.length := by rw [hlen]; decide
    have h2 : 2 + 2 ≤ bs.length := by rw [hlen]; decide
    have h4 : 4 + 4 ≤ bs.length := hlen.ge
    show some (_, _) = some (_, _)
    rw [read8_shift h1, read16_shift h2, readInt32_shift h4]
  | tLookup =>
    have h1 : 1 + 1 ≤ bs.length := by rw [hlen]; decide
    have h2 : 2 + 2 ≤ bs.length := by rw [hlen]; decide
    have h4 : 4 + 2 ≤ bs.length := by rw [hlen]; decide
    have h6 : 6 + 4 ≤ bs.length := hlen.ge
    show some (_, _) = some (_, _)
    rw [read8_shift h1, read16_shift h2, read16_shift h4, readInt32_shift h6]

section Operands

variable {code pre post : List UInt8}

theorem read8_middle {b : UInt8} (h : code = pre ++ [b] ++ post) :
    Vm1.read8 code pre.length = b := by
  have hslice : slice code pre.length 1 = [b] := by
    rw [h]
    exact LittleEndian.slice_append pre [b] post
  rw [Vm1.read8, readAt, hslice]
  simp [LittleEndian.decode]

theorem read16_middle {id : ℕ} (h : code = pre ++ encode 2 id ++ post) :
    Vm1.read16 code pre.length = UInt16.ofNat id := by
  have hslice : slice code pre.length 2 = encode 2 id := by
    rw [h]
    have hmiddle := LittleEndian.slice_append pre (encode 2 id) post
    rwa [LittleEndian.encode_length] at hmiddle
  rw [Vm1.read16, LittleEndian.readAt_of_slice hslice]
  apply UInt16.toNat_inj.1
  simp

theorem readInt32_word {d : ℤ} (h : code = pre ++ encodeInt32 d ++ post) (hlow : -2 ^ 31 ≤ d)
    (hhigh : d < 2 ^ 31) : readInt32 code pre.length = d := by
  have hslice : slice code pre.length 4 = encodeInt32 d := by
    rw [h]
    have hmiddle := LittleEndian.slice_append pre (encodeInt32 d) post
    rwa [LittleEndian.encodeInt32_length] at hmiddle
  rw [LittleEndian.readInt32_of_slice hslice, LittleEndian.bmod_eq_iff]
  exact ⟨rfl, hlow, hhigh⟩

end Operands

theorem decode_quiet {op : MozOpcode} (hop : IsQuiet op) (hlabel : op ≠ .label)
    (operands : op.shape.Operands) (next : ℤ) (byte : UInt8) :
    ∃ inst, decode (⟨op, operandBytes op.shape operands⟩ : Piece).bytes 0 =
      some (inst, op.operandSize + 1) ∧
        (inst = vmInst next byte op operands ∨ ∃ d, op = .ret ∧ inst = .ret d) := by
  cases op with
  | tblJump1 | tblJump2 | tblJump3 | tAbort | sDefNum | sCount => cases operands
  | first => exact absurd (.inl rfl) hop.2.1
  | alt => exact absurd (.inl rfl) hop.1
  | lookup => exact absurd (.inr (.inl rfl)) hop.1
  | tLookup => exact absurd (.inr (.inr rfl)) hop.1
  | jump => exact absurd rfl hop.2.2.1
  | call => exact absurd rfl hop.2.2.2
  | label => exact absurd rfl hlabel
  | nop | fail | succ | pos | back | skip | any | nAny | oAny | rAny | tPush | tStart
  | sOpen | sClose => exact ⟨_, rfl, .inl rfl⟩
  | ret => exact ⟨_, rfl, .inr ⟨_, rfl, rfl⟩⟩
  | byte | nByte | oByte | rByte =>
    refine ⟨_, rfl, .inl ?_⟩
    exact congrArg _ (@read8_middle _ [_] [] operands rfl)
  | consume | tNew | tCapture | exit =>
    refine ⟨_, rfl, .inl ?_⟩
    exact congrArg _ (congrArg UInt8.toInt8 (@read8_middle _ [_] [] operands rfl))
  | str | nStr | oStr | rStr | set | nSet | oSet | rSet | tPop | tTag | tReplace | tCommit
  | sMask | sDef | sExists | sMatch | sIs | sIsa =>
    refine ⟨_, rfl, .inl ?_⟩
    exact congrArg _ (@read16_middle _ [_] [] operands rfl)
  | tLeftFold =>
    obtain ⟨shift, id⟩ := operands
    refine ⟨_, rfl, .inl ?_⟩
    exact congrArg₂ _ (congrArg UInt8.toInt8 (@read8_middle _ [_] (encode 2 id) shift rfl))
      (@read16_middle _ [_, shift] [] id rfl)
  | memo | memoFail | tMemo =>
    obtain ⟨state, memoId⟩ := operands
    refine ⟨_, rfl, .inl ?_⟩
    exact congrArg₂ _ (@read8_middle _ [_] (encode 2 memoId) state rfl)
      (@read16_middle _ [_, state] [] memoId rfl)
  | sIsDef =>
    obtain ⟨tbl, id⟩ := operands
    refine ⟨_, rfl, .inl ?_⟩
    exact congrArg₂ _ (@read16_middle _ [_] (encode 2 id) tbl rfl)
      (@read16_middle _ (_ :: encode 2 tbl) [] id (by rw [List.append_nil]; rfl))

def IsWord (d : ℤ) : Prop := -2 ^ 31 ≤ d ∧ d < 2 ^ 31

section Targets

variable {d n : ℤ}

theorem decode_alt (hd : IsWord d) :
    decode (⟨.alt, encodeInt32 d⟩ : Piece).bytes 0 = some (.alt d, 5) := by
  have hread := @readInt32_word _ [MozOpcode.alt.toByte] [] d (List.append_nil _).symm hd.1 hd.2
  exact congrArg (fun d => some (Inst.alt d, 5)) hread

theorem decode_jump (hd : IsWord d) :
    decode (⟨.jump, encodeInt32 d⟩ : Piece).bytes 0 = some (.jump d, 5) := by
  have hread := @readInt32_word _ [MozOpcode.jump.toByte] [] d (List.append_nil _).symm hd.1 hd.2
  exact congrArg (fun d => some (Inst.jump d, 5)) hread

theorem decode_call (hn : IsWord n) (hd : IsWord d) :
    decode (⟨.call, encodeInt32 n ++ encodeInt32 d⟩ : Piece).bytes 0 = some (.call n d, 9) := by
  have hreadNext := @readInt32_word _ [MozOpcode.call.toByte] (encodeInt32 d) n rfl hn.1 hn.2
  have hread := @readInt32_word _ (MozOpcode.call.toByte :: encodeInt32 n) [] d
    (List.append_nil _).symm hd.1 hd.2
  exact congrArg₂ (fun n d => some (Inst.call n d, 9)) hreadNext hread

theorem decode_lookup {state : UInt8} {memoId : ℕ} (hd : IsWord d) :
    decode (⟨.lookup, (state :: encode 2 memoId) ++ encodeInt32 d⟩ : Piece).bytes 0 =
      some (.lookup state (UInt16.ofNat memoId) d, 8) := by
  generalize hcode : (⟨.lookup, (state :: encode 2 memoId) ++ encodeInt32 d⟩ : Piece).bytes = code
  have hopcode : code[0]? = some MozOpcode.lookup.toByte := hcode ▸ rfl
  have hstate : Vm1.read8 code 1 = state :=
    @read8_middle _ [MozOpcode.lookup.toByte] (encode 2 memoId ++ encodeInt32 d) state hcode.symm
  have hmemoId : Vm1.read16 code 2 = UInt16.ofNat memoId :=
    @read16_middle _ [MozOpcode.lookup.toByte, state] (encodeInt32 d) memoId hcode.symm
  have hread : readInt32 code 4 = d :=
    @readInt32_word _ (MozOpcode.lookup.toByte :: state :: encode 2 memoId) [] d
      (hcode.symm.trans (List.append_nil _).symm) hd.1 hd.2
  unfold decode
  rw [hopcode]
  show some (Inst.lookup (Vm1.read8 code 1) (Vm1.read16 code 2) (readInt32 code 4), 8) = _
  rw [hstate, hmemoId, hread]

theorem decode_tLookup {state : UInt8} {memoId id : ℕ} (hd : IsWord d) :
    decode (⟨.tLookup, (state :: encode 2 id ++ encode 2 memoId) ++ encodeInt32 d⟩ : Piece).bytes 0 =
      some (.tLookup state (UInt16.ofNat id) (UInt16.ofNat memoId) d, 10) := by
  generalize hcode :
    (⟨.tLookup, (state :: encode 2 id ++ encode 2 memoId) ++ encodeInt32 d⟩ : Piece).bytes = code
  have hopcode : code[0]? = some MozOpcode.tLookup.toByte := hcode ▸ rfl
  have hstate : Vm1.read8 code 1 = state :=
    @read8_middle _ [MozOpcode.tLookup.toByte] (encode 2 id ++ encode 2 memoId ++ encodeInt32 d)
      state hcode.symm
  have hid : Vm1.read16 code 2 = UInt16.ofNat id :=
    @read16_middle _ [MozOpcode.tLookup.toByte, state] (encode 2 memoId ++ encodeInt32 d) id
      hcode.symm
  have hmemoId : Vm1.read16 code 4 = UInt16.ofNat memoId :=
    @read16_middle _ (MozOpcode.tLookup.toByte :: state :: encode 2 id) (encodeInt32 d) memoId
      hcode.symm
  have hread : readInt32 code 6 = d :=
    @readInt32_word _ (MozOpcode.tLookup.toByte :: state :: (encode 2 id ++ encode 2 memoId)) [] d
      (hcode.symm.trans (List.append_nil _).symm) hd.1 hd.2
  unfold decode
  rw [hopcode]
  show some (Inst.tLookup (Vm1.read8 code 1) (Vm1.read16 code 2) (Vm1.read16 code 4)
    (readInt32 code 6), 10) = _
  rw [hstate, hid, hmemoId, hread]

def tableInst : MozOpcode → UInt16 → Inst
  | .first => .first
  | .tblJump1 => .tblJump1
  | .tblJump2 => .tblJump2
  | .tblJump3 => .tblJump3
  | _ => fun _ => .nop

theorem decode_table {op : MozOpcode} {id : ℕ} (hop : IsTable op) :
    decode (Piece.table op id).bytes 0 = some (tableInst op (UInt16.ofNat id), 3) := by
  obtain rfl | rfl | rfl | rfl := hop
  · exact congrArg (fun id => some (Inst.first id, 3))
      (@read16_middle _ [MozOpcode.first.toByte] [] id rfl)
  · exact congrArg (fun id => some (Inst.tblJump1 id, 3))
      (@read16_middle _ [MozOpcode.tblJump1.toByte] [] id rfl)
  · exact congrArg (fun id => some (Inst.tblJump2 id, 3))
      (@read16_middle _ [MozOpcode.tblJump2.toByte] [] id rfl)
  · exact congrArg (fun id => some (Inst.tblJump3 id, 3))
      (@read16_middle _ [MozOpcode.tblJump3.toByte] [] id rfl)

end Targets

end Moz.Bytecode
