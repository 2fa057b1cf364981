import Moz.Bytecode.SecondPass
import Moz.Lib.Sweep

/-!
# How far the second pass gets

The second loop of `mozvm_loader_load` sweeps over the buffer of the first one by
`mozvm1_opcode_size`, whatever the bytes of the file were. It ends at the end of the
buffer when the first loop has written whole instructions only, which it does not
for opcodes that are not defined.
-/

namespace Moz.Bytecode

open LittleEndian Sweep

theorem bind_eq_ok {α β : Type} {x : Except LoadError α} {f : α → Except LoadError β} {b : β} :
    x >>= f = .ok b ↔ ∃ a, x = .ok a ∧ f a = .ok b := by
  cases x with
  | error e =>
    constructor
    · rintro ⟨⟩
    · rintro ⟨a, ha, -⟩
      cases ha
  | ok a =>
    constructor
    · intro h
      exact ⟨a, rfl, h⟩
    · rintro ⟨a', ha, h⟩
      cases ha
      exact h

theorem ofByte_eq_some {b : UInt8} {op : MozOpcode} (h : MozOpcode.ofByte b = some op) :
    op.toByte = b := by
  have hfound := List.find?_some h
  simpa using hfound

theorem mozvm1OpcodeSize_of_op {b : UInt8} {op : MozOpcode} (h : MozOpcode.ofByte b = some op) :
    mozvm1OpcodeSize b = some (op.operandSize + 1) := by
  rw [mozvm1OpcodeSize, h]
  rfl

theorem mozvm1OpcodeSize_toByte (op : MozOpcode) :
    mozvm1OpcodeSize op.toByte = some (op.operandSize + 1) :=
  mozvm1OpcodeSize_of_op (MozOpcode.ofByte_toByte op)

theorem mozvm1OpcodeSize_ne_zero (b : UInt8) : mozvm1OpcodeSize b ≠ some 0 := by
  cases hop : MozOpcode.ofByte b with
  | none =>
    rw [mozvm1OpcodeSize, hop]
    exact (Option.some_ne_none 0).symm
  | some op =>
    rw [mozvm1OpcodeSize_of_op hop]
    exact fun h => Nat.succ_ne_zero _ (Option.some.inj h)

section Patch

variable {L L' : Loader} {j n : ℕ}

/-- A target at the end of the instruction is rewritten. -/
theorem patchRef_rewrites {back : ℕ} (hback : 4 ≤ back) (hn : back ≤ n)
    (hlen : j + n ≤ L.buf.length) (h : L.patchRef (j + n) back = .ok L') :
    Rewrites j n L.buf L'.buf ∧ L'.table = L.table := by
  obtain ⟨addr, -, h⟩ := bind_eq_ok.1 h
  cases h
  generalize hbs : encodeInt32 ((addr : ℤ) - ((j + n : ℕ) : ℤ)) = bs
  have hbytes : bs.length = 4 := by
    rw [← hbs]
    exact encodeInt32_length _
  refine ⟨⟨patch_length (by omega), ?_⟩, rfl⟩
  intro k hk
  show (patch L.buf (j + n - back) bs)[k]? = _
  have htake : (L.buf.take (j + n - back)).length = j + n - back := List.length_take_of_le (by omega)
  rw [patch]
  rcases hk with hk | hk
  · rw [List.append_assoc, List.getElem?_append_left (by omega), List.getElem?_take_of_lt (by omega)]
  · have hlength : (L.buf.take (j + n - back) ++ bs).length = j + n - back + bs.length := by
      rw [List.length_append, htake]
    have hindex : j + n - back + bs.length + (k - (j + n - back + bs.length)) = k := by omega
    rw [List.getElem?_append_right (by omega), hlength, List.getElem?_drop, hindex]

/-- The `switch` writes to the instruction and to jump tables only. -/
theorem patchOperands_rewrites {op : MozOpcode} (hlen : j + (op.operandSize + 1) ≤ L.buf.length)
    (h : patchOperands L j (j + (op.operandSize + 1)) op = .ok L') :
    Rewrites j (op.operandSize + 1) L.buf L'.buf := by
  cases op with
  | jump =>
    simp only [patchOperands, bind_eq_ok] at h
    obtain ⟨addr, -, opcode, -, h⟩ := h
    split_ifs at h with hret
    · have hset : Rewrites j 5 L.buf (L.buf.set j MozOpcode.ret.toByte) := by
        refine ⟨List.length_set, fun k hk => List.getElem?_set_ne (by omega)⟩
      refine hset.trans (patchRef_rewrites (by omega) (by decide) ?_ h).1
      show _ ≤ (L.buf.set j _).length
      rwa [List.length_set]
    · exact (patchRef_rewrites le_rfl (by decide) hlen h).1
  | call =>
    obtain ⟨L₁, h₁, h⟩ := bind_eq_ok.1 h
    have hfirst := (patchRef_rewrites (by omega) (by decide) hlen h₁).1
    refine hfirst.trans (patchRef_rewrites le_rfl (by decide) ?_ h).1
    rwa [hfirst.length]
  | alt | lookup | tLookup => exact (patchRef_rewrites le_rfl (by decide) hlen h).1
  | first | tblJump1 | tblJump2 | tblJump3 =>
    simp only [patchOperands, bind_eq_ok] at h
    obtain ⟨⟨tblId, table⟩, -, jumps, -, h⟩ := h
    cases h
    exact .refl _ _ _
  | _ =>
    cases h
    exact .refl _ _ _

/-- A round of the second loop is a round of the sweep. -/
theorem patchRound_step {j j' : ℤ} (h : patchRound L j = .ok (L', j')) :
    Step mozvm1OpcodeSize (L.buf, j) (L'.buf, j') := by
  obtain ⟨opcode, hget, h⟩ := bind_eq_ok.1 h
  have hj : 0 ≤ j ∧ L.buf[j.toNat]? = some opcode := by
    unfold Loader.getOpcode at hget
    by_cases hneg : 0 ≤ j
    · refine ⟨hneg, ?_⟩
      rw [if_pos hneg] at hget
      cases hbyte : L.buf[j.toNat]? with
      | none =>
        rw [hbyte] at hget
        cases hget
      | some b =>
        rw [hbyte] at hget
        cases hget
        rfl
    · rw [if_neg hneg] at hget
      cases hget
  obtain ⟨hneg, hbyte⟩ := hj
  have hcast : ((j.toNat : ℕ) : ℤ) = j := Int.toNat_of_nonneg hneg
  cases hop : MozOpcode.ofByte opcode with
  | none =>
    have hsize : mozvm1OpcodeSize opcode = none := by
      rw [mozvm1OpcodeSize, hop]
      rfl
    rw [hop, hsize] at h
    cases h
    have hstep := Step.unknown hbyte hsize
    rwa [hcast] at hstep
  | some op =>
    have hsize := mozvm1OpcodeSize_of_op hop
    rw [hop, hsize] at h
    dsimp only at h
    split_ifs at h with hcut
    · cases h
    · obtain ⟨L₁, hpatch, h⟩ := bind_eq_ok.1 h
      cases h
      have hstep := Step.known hbyte hsize (patchOperands_rewrites (by omega) hpatch)
      rw [hcast] at hstep
      exact hstep

def InTime {α : Type} (x : Except LoadError α) : Prop := x ≠ .error .rounds

theorem InTime.ok {α : Type} (a : α) : InTime (.ok a : Except LoadError α) := nofun

theorem InTime.bind {α β : Type} {x : Except LoadError α} {f : α → Except LoadError β}
    (hx : InTime x) (hf : ∀ a, x = .ok a → InTime (f a)) : InTime (x >>= f) := by
  cases x with
  | error e =>
    intro h
    cases h
    exact hx rfl
  | ok a => exact hf a rfl

theorem InTime.mapM {α β : Type} {f : α → Except LoadError β} (hf : ∀ a, InTime (f a)) (l : List α) :
    InTime (l.mapM f) := by
  induction l with
  | nil => exact .ok []
  | cons a l ih =>
    rw [List.mapM_cons]
    exact (hf a).bind fun b _ => ih.bind fun bs _ => .ok _

theorem tableAt_inTime (L : Loader) (ref : ℤ) : InTime (L.tableAt ref) := by
  unfold Loader.tableAt
  split <;> nofun

theorem getOpcode_inTime (L : Loader) (idx : ℤ) : InTime (L.getOpcode idx) := by
  unfold Loader.getOpcode
  split <;> nofun

theorem tableOperand_inTime {α : Type} (L : Loader) (pool : List α) (stop : ℕ) :
    InTime (tableOperand L pool stop) := by
  unfold tableOperand
  split <;> nofun

theorem patchRef_inTime (L : Loader) (stop back : ℕ) : InTime (L.patchRef stop back) :=
  (tableAt_inTime L _).bind fun _ _ => .ok _

theorem encodeJump_inTime (L : Loader) (stop : ℕ) (jump : ℤ) : InTime (L.encodeJump stop jump) := by
  unfold Loader.encodeJump
  split_ifs
  · exact (tableAt_inTime L _).bind fun _ _ => .ok _
  · exact .ok _

theorem patchOperands_inTime (L : Loader) (j stop : ℕ) (op : MozOpcode) :
    InTime (patchOperands L j stop op) := by
  cases op with
  | jump =>
    exact (tableAt_inTime L _).bind fun _ _ => (getOpcode_inTime L _).bind fun _ _ =>
      patchRef_inTime _ _ _
  | call => exact (patchRef_inTime L _ _).bind fun _ _ => patchRef_inTime _ _ _
  | alt | lookup | tLookup => exact patchRef_inTime L _ _
  | first =>
    exact (tableOperand_inTime L _ _).bind fun _ _ =>
      (InTime.mapM (fun _ => (tableAt_inTime L _).bind fun _ _ => .ok _) _).bind fun _ _ => .ok _
  | tblJump1 | tblJump2 | tblJump3 =>
    exact (tableOperand_inTime L _ _).bind fun _ _ =>
      (InTime.mapM (encodeJump_inTime L stop) _).bind fun _ _ => .ok _
  | _ => exact .ok L

theorem patchRound_inTime (L : Loader) (j : ℤ) : InTime (patchRound L j) := by
  apply (getOpcode_inTime L j).bind
  intro opcode _
  split
  · split_ifs
    · nofun
    · exact (patchOperands_inTime L _ _ _).bind fun _ _ => .ok _
  · exact .ok _

/-- On whole instructions the second loop needs a round for each byte at most, and one to see that
it is at the end. -/
theorem patchLoop_inTime {buf : List UInt8} (rounds : ℕ) : ∀ {L : Loader} {j : ℤ},
    Between mozvm1OpcodeSize buf (L.buf, j) → (buf.length : ℤ) - j < rounds →
    InTime (patchLoop rounds L j) := by
  induction rounds with
  | zero =>
    intro L j h hrounds
    obtain ⟨k, hk, hle, -⟩ := h.place
    dsimp only at hk
    omega
  | succ rounds ih =>
    intro L j h hrounds
    rw [patchLoop]
    split_ifs
    · apply (patchRound_inTime L j).bind
      rintro ⟨L', j'⟩ hround
      obtain ⟨hnext, hlt⟩ := h.step (patchRound_step hround)
      dsimp only at hlt
      exact ih hnext (by push_cast at hrounds; omega)
    · exact .ok L

end Patch

/-- The jump tables have no operands in the file, and an unoptimised `First` is written twice. -/
def Regular (opt : Bool) (op : Option MozOpcode) : Prop :=
  op ≠ some .tblJump1 ∧ op ≠ some .tblJump2 ∧ op ≠ some .tblJump3 ∧ (op = some .first → opt = true)

def loadOpcodes (opt : Bool) : ℕ → Loader → InputStream → ℕ → List UInt8
  | 0, _, _, _ => []
  | rounds + 1, L, is, prodId =>
    if is.pos < is.data.length then
      match peek is, loadRound L is prodId opt with
      | .ok byte, .ok (L, is, prodId) => (byte &&& 0x7f) :: loadOpcodes opt rounds L is prodId
      | _, _ => []
    else []

section Load

variable {L L' : Loader} {is is' : InputStream} {opt hasJump : Bool} {loaded : LoadInst}
  {prodId prodId' : ℕ}

/-- The operands are written as `mozvm1_opcode_size` counts them. -/
theorem loadOperands_writes {op : MozOpcode} (hregular : Regular opt (some op)) (hop : op ≠ .first)
    (h : loadOperands L is hasJump opt (some op) = .ok loaded) :
    ∃ operands : List UInt8, loaded.L.buf = L.buf ++ operands ∧ operands.length = op.operandSize := by
  cases op with
  | first => exact absurd rfl hop
  | tblJump1 => exact absurd rfl hregular.1
  | tblJump2 => exact absurd rfl hregular.2.1
  | tblJump3 => exact absurd rfl hregular.2.2.1
  | tAbort | sDefNum | sCount => cases h
  | nop | fail | succ | pos | back | skip | any | nAny | oAny | rAny | tPush | tStart | sOpen
  | sClose =>
    cases h
    exact ⟨[], (List.append_nil _).symm, rfl⟩
  | ret =>
    cases h
    exact ⟨_, rfl, encodeInt32_length _⟩
  | label =>
    simp only [loadOperands, bind_eq_ok, Prod.exists] at h
    obtain ⟨label, is₁, -, h⟩ := h
    cases h
    exact ⟨[], (List.append_nil _).symm, rfl⟩
  | alt | jump =>
    simp only [loadOperands, bind_eq_ok, Prod.exists] at h
    obtain ⟨addr, is₁, -, h⟩ := h
    cases h
    exact ⟨_, rfl, encodeInt32_length _⟩
  | byte | nByte | oByte | rByte | consume | tNew | tCapture | exit =>
    simp only [loadOperands, bind_eq_ok, Prod.exists] at h
    obtain ⟨ch, is₁, -, h⟩ := h
    cases h
    exact ⟨_, rfl, rfl⟩
  | str | nStr | oStr | rStr | tReplace | set | nSet | oSet | rSet | tPop | tTag | tCommit | sMask
  | sDef | sExists | sMatch | sIs | sIsa =>
    simp only [loadOperands, bind_eq_ok, Prod.exists] at h
    obtain ⟨id, is₁, -, _, -, h⟩ := h
    cases h
    exact ⟨_, rfl, encode_length _ _⟩
  | call =>
    simp only [loadOperands, bind_eq_ok, Prod.exists] at h
    obtain ⟨next, is₁, -, _, is₂, -, jump, is₃, -, h⟩ := h
    cases h
    exact ⟨encodeInt32 next ++ encodeInt32 jump, List.append_assoc _ _ _, by simp; rfl⟩
  | lookup =>
    simp only [loadOperands, bind_eq_ok, Prod.exists] at h
    obtain ⟨state, is₁, -, memoId, is₂, -, skip, is₃, -, h⟩ := h
    cases h
    refine ⟨[state] ++ (encode 2 memoId ++ encodeInt32 skip), ?_, by simp; rfl⟩
    simp only [Loader.write8, Loader.write16, Loader.writeAddr, List.append_assoc]
  | memo | memoFail | tMemo =>
    simp only [loadOperands, bind_eq_ok, Prod.exists] at h
    obtain ⟨state, is₁, -, memoId, is₂, -, h⟩ := h
    cases h
    exact ⟨[state] ++ encode 2 memoId, List.append_assoc _ _ _, by simp; rfl⟩
  | tLeftFold =>
    simp only [loadOperands, bind_eq_ok, Prod.exists] at h
    obtain ⟨shift, is₁, -, tagId, is₂, -, _, -, h⟩ := h
    cases h
    exact ⟨[shift] ++ encode 2 tagId, List.append_assoc _ _ _, by simp; rfl⟩
  | tLookup =>
    simp only [loadOperands, bind_eq_ok, Prod.exists] at h
    obtain ⟨state, is₁, -, memoId, is₂, -, skip, is₃, -, tagId, is₄, -, _, -, h⟩ := h
    cases h
    refine ⟨[state] ++ (encode 2 tagId ++ (encode 2 memoId ++ encodeInt32 skip)), ?_, by simp; rfl⟩
    simp only [Loader.write8, Loader.write16, Loader.writeAddr, List.append_assoc]
  | sIsDef =>
    simp only [loadOperands, bind_eq_ok, Prod.exists] at h
    obtain ⟨tblId, is₁, -, strId, is₂, -, _, -, _, -, h⟩ := h
    cases h
    exact ⟨encode 2 tblId ++ encode 2 strId, List.append_assoc _ _ _, by simp; rfl⟩

/-- A `First` that is optimised is written as one instruction. -/
theorem loadFirst_writes (L : Loader) (table : List ℤ) :
    ∃ bytes, (loadFirst L table opt).buf = L.buf ++ bytes ∧ Tiles mozvm1OpcodeSize bytes := by
  have hpiece : ∀ (op : MozOpcode) (id : ℕ), op.operandSize = 2 →
      Tiles mozvm1OpcodeSize (op.toByte :: encode 2 id) := by
    intro op id hop
    apply tiles_single
    rw [mozvm1OpcodeSize_toByte, encode_length, hop]
  unfold loadFirst
  dsimp only
  split_ifs
  · exact ⟨_, List.append_assoc _ _ _, hpiece .tblJump1 _ rfl⟩
  · exact ⟨_, List.append_assoc _ _ _, hpiece .tblJump2 _ rfl⟩
  · exact ⟨_, List.append_assoc _ _ _, hpiece .tblJump3 _ rfl⟩
  · exact ⟨_, List.append_assoc _ _ _, hpiece .first _ rfl⟩

/-- What is written for one instruction: whole instructions when its opcode is defined, and first
of all the opcode when it is not. -/
def Writes (opcode : UInt8) (bytes : List UInt8) : Prop :=
  match MozOpcode.ofByte opcode with
  | some _ => Tiles mozvm1OpcodeSize bytes
  | none => ∃ rest, bytes = opcode :: rest

theorem Writes.append {opcode : UInt8} {bytes bytes' : List UInt8} (h : Writes opcode bytes)
    (h' : Tiles mozvm1OpcodeSize bytes') : Writes opcode (bytes ++ bytes') := by
  unfold Writes at h ⊢
  split at h
  · exact h.append h'
  · obtain ⟨rest, rfl⟩ := h
    exact ⟨rest ++ bytes', rfl⟩

theorem operation_writes {opcode : UInt8} (hregular : Regular opt (MozOpcode.ofByte opcode))
    (h : loadOperands (if opt ∧ elided (MozOpcode.ofByte opcode) then L else L.write8 opcode) is
      hasJump opt (MozOpcode.ofByte opcode) = .ok loaded) :
    ∃ bytes, loaded.L.buf = L.buf ++ bytes ∧ Writes opcode bytes := by
  unfold Writes
  cases hop : MozOpcode.ofByte opcode with
  | none =>
    have helided : ¬(opt ∧ elided (none : Option MozOpcode)) := by simp [elided]
    rw [hop, if_neg helided] at h
    cases h
    exact ⟨[opcode], rfl, [], rfl⟩
  | some op =>
    have hbyte := ofByte_eq_some hop
    rw [hop] at h hregular
    dsimp only
    by_cases hfirst : op = .first
    · subst hfirst
      have hopt := hregular.2.2.2 rfl
      subst hopt
      rw [if_pos (by decide)] at h
      simp only [loadOperands, bind_eq_ok, Prod.exists] at h
      obtain ⟨table, is₁, -, h⟩ := h
      cases h
      exact loadFirst_writes L _
    · obtain ⟨operands, hbuf, hlength⟩ := loadOperands_writes hregular hfirst h
      split_ifs at hbuf with helided
      · -- what is left out has no operands either
        have hempty : operands = [] := by
          rw [← List.length_eq_zero_iff, hlength]
          obtain ⟨-, helided⟩ := helided
          simp only [elided, Option.some.injEq, decide_eq_true_eq] at helided
          rcases helided with rfl | rfl | rfl
          · rfl
          · exact absurd rfl hfirst
          · rfl
        exact ⟨operands, hbuf, hempty ▸ .nil⟩
      · refine ⟨opcode :: operands, hbuf.trans (List.append_assoc _ _ _), ?_⟩
        apply tiles_single
        rw [mozvm1OpcodeSize_of_op hop, hlength]

theorem loadInst_writes {opcode : UInt8} {byte : UInt8} {prod : ℕ} (hpeek : peek is = .ok byte)
    (hopcode : byte &&& 0x7f = opcode) (hregular : Regular opt (MozOpcode.ofByte opcode))
    (h : loadInst L is opt = .ok (L', is', prod)) :
    ∃ bytes, L'.buf = L.buf ++ bytes ∧ Writes opcode bytes := by
  simp only [loadInst, read8, hpeek, bind_eq_ok, Prod.exists] at h
  obtain ⟨byte', is₁, ⟨b, hb, hpair⟩, loaded, hloaded, h⟩ := h
  cases hb
  cases hpair
  rw [hopcode] at hloaded
  obtain ⟨bytes, hbuf, hwrites⟩ := operation_writes hregular hloaded
  split_ifs at h with hjump
  · simp only [bind_eq_ok, Prod.exists] at h
    obtain ⟨jump, is₂, -, h⟩ := h
    cases h
    refine ⟨bytes ++ (MozOpcode.jump.toByte :: encodeInt32 jump), ?_, hwrites.append ?_⟩
    · simp only [Loader.writeOpcode, Loader.write8, Loader.writeAddr, hbuf, List.append_assoc,
        List.singleton_append]
    · apply tiles_single
      rw [mozvm1OpcodeSize_toByte, encodeInt32_length]
      rfl
  · cases h
    exact ⟨bytes, hbuf, hwrites⟩

theorem updateProd_buf {f : Production → Production} (h : updateProd L prodId f = .ok L') :
    L'.buf = L.buf := by
  obtain ⟨_, -, h⟩ := bind_eq_ok.1 h
  cases h
  rfl

theorem loadRound_writes {opcode byte : UInt8} (hpeek : peek is = .ok byte)
    (hopcode : byte &&& 0x7f = opcode) (hregular : Regular opt (MozOpcode.ofByte opcode))
    (h : loadRound L is prodId opt = .ok (L', is', prodId')) :
    ∃ bytes, L'.buf = L.buf ++ bytes ∧ Writes opcode bytes := by
  simp only [loadRound, hpeek, bind_eq_ok] at h
  obtain ⟨byte', hbyte, h⟩ := h
  cases hbyte
  by_cases hfull : L.instSize ≤ L.table.length
  · rw [if_pos hfull] at h
    obtain ⟨_, hthrow, -⟩ := bind_eq_ok.1 h
    cases hthrow
  · rw [if_neg hfull] at h
    obtain ⟨⟨L₁, is₁, prod⟩, hinst, h⟩ := bind_eq_ok.1 h
    obtain ⟨bytes, hbuf, hwrites⟩ := loadInst_writes hpeek hopcode hregular hinst
    refine ⟨bytes, Eq.trans ?_ hbuf, hwrites⟩
    by_cases hlabel : byte = MozOpcode.label.toByte
    · rw [if_pos hlabel] at h
      obtain ⟨L₂, hbegin, h⟩ := bind_eq_ok.1 h
      obtain ⟨pair, hpair, h⟩ := bind_eq_ok.1 h
      cases hpair
      obtain ⟨L₃, hstop, h⟩ := bind_eq_ok.1 h
      cases h
      exact (updateProd_buf hstop).trans (updateProd_buf hbegin)
    · rw [if_neg hlabel] at h
      obtain ⟨pair, hpair, h⟩ := bind_eq_ok.1 h
      cases hpair
      obtain ⟨L₃, hstop, h⟩ := bind_eq_ok.1 h
      cases h
      exact updateProd_buf hstop

theorem loadLoop_appends (rounds : ℕ) : ∀ {L : Loader} {is : InputStream} {prodId : ℕ},
    loadLoop opt rounds L is prodId = .ok L' →
    (∀ b ∈ loadOpcodes opt rounds L is prodId, Regular opt (MozOpcode.ofByte b)) →
    ∃ bytes, L'.buf = L.buf ++ bytes := by
  induction rounds with
  | zero =>
    intro L is prodId h
    cases h
  | succ rounds ih =>
    intro L is prodId h hregular
    rw [loadLoop] at h
    rw [loadOpcodes] at hregular
    split_ifs at h hregular with hmore
    · obtain ⟨⟨L₁, is₁, prodId₁⟩, hround, hrest⟩ := bind_eq_ok.1 h
      obtain ⟨byte, hpeek, -⟩ := bind_eq_ok.1 hround
      rw [hpeek, hround] at hregular
      obtain ⟨bytes, hbuf, -⟩ := loadRound_writes hpeek rfl (hregular _ List.mem_cons_self) hround
      obtain ⟨bytes', hbuf'⟩ := ih hrest fun b hb => hregular b (List.mem_cons_of_mem _ hb)
      exact ⟨bytes ++ bytes', by rw [hbuf', hbuf, List.append_assoc]⟩
    · cases h
      exact ⟨[], (List.append_nil _).symm⟩

/-- The first loop writes whole instructions exactly when it reads defined opcodes. -/
theorem loadLoop_tiles (rounds : ℕ) : ∀ {L : Loader} {is : InputStream} {prodId : ℕ},
    loadLoop opt rounds L is prodId = .ok L' → Tiles mozvm1OpcodeSize L.buf →
    (∀ b ∈ loadOpcodes opt rounds L is prodId, Regular opt (MozOpcode.ofByte b)) →
    (Tiles mozvm1OpcodeSize L'.buf ↔
      ∀ b ∈ loadOpcodes opt rounds L is prodId, MozOpcode.ofByte b ≠ none) := by
  induction rounds with
  | zero =>
    intro L is prodId h
    cases h
  | succ rounds ih =>
    intro L is prodId h ht hregular
    rw [loadLoop] at h
    rw [loadOpcodes] at hregular ⊢
    split_ifs at h hregular ⊢ with hmore
    · obtain ⟨⟨L₁, is₁, prodId₁⟩, hround, hrest⟩ := bind_eq_ok.1 h
      obtain ⟨byte, hpeek, -⟩ := bind_eq_ok.1 hround
      rw [hpeek, hround] at hregular ⊢
      dsimp only at hregular ⊢ hrest
      obtain ⟨bytes, hbuf, hwrites⟩ := loadRound_writes hpeek rfl
        (hregular _ List.mem_cons_self) hround
      have hlater := fun b hb => hregular b (List.mem_cons_of_mem _ hb)
      unfold Writes at hwrites
      cases hop : MozOpcode.ofByte (byte &&& 0x7f) with
      | some op =>
        rw [hop] at hwrites
        have ht₁ : Tiles mozvm1OpcodeSize L₁.buf := by
          rw [hbuf]
          exact ht.append hwrites
        rw [ih hrest ht₁ hlater, List.forall_mem_cons, hop]
        exact (and_iff_right (Option.some_ne_none op)).symm
      | none =>
        rw [hop] at hwrites
        obtain ⟨rest, rfl⟩ := hwrites
        obtain ⟨bytes', hbuf'⟩ := loadLoop_appends rounds hrest hlater
        have hunknown : mozvm1OpcodeSize (byte &&& 0x7f) = none := by
          rw [mozvm1OpcodeSize, hop]
          rfl
        refine iff_of_false ?_ fun hall => hall _ List.mem_cons_self hop
        rw [hbuf', hbuf, List.append_assoc, ht.append_iff]
        exact not_tiles_of_unknown hunknown
    · cases h
      exact iff_of_true ht fun b hb => absurd hb List.not_mem_nil

/-- The second loop advances to the end of the buffer, and ends, exactly when the first loop has
written whole instructions; and where the instructions are regular, exactly when their opcodes are
defined. -/
theorem patch_pass_ends_iff {rounds : ℕ} (hbuf : L.buf = [])
    (hload : loadLoop opt rounds L is prodId = .ok L') :
    (Ends mozvm1OpcodeSize L'.buf ↔ Tiles mozvm1OpcodeSize L'.buf) ∧
    ((∀ b ∈ loadOpcodes opt rounds L is prodId, Regular opt (MozOpcode.ofByte b)) →
      (Ends mozvm1OpcodeSize L'.buf ↔
        ∀ b ∈ loadOpcodes opt rounds L is prodId, MozOpcode.ofByte b ≠ none)) ∧
    (Tiles mozvm1OpcodeSize L'.buf → ∀ rounds' > L'.buf.length, InTime (patchLoop rounds' L' 0)) := by
  have hends := @ends_iff _ mozvm1OpcodeSize L'.buf mozvm1OpcodeSize_ne_zero
  have hnil : Tiles mozvm1OpcodeSize L.buf := by
    rw [hbuf]
    exact .nil
  refine ⟨hends, fun hregular => ?_, fun ht rounds' hrounds => ?_⟩
  · rw [hends]
    exact loadLoop_tiles rounds hload hnil hregular
  · have hstart : Between mozvm1OpcodeSize L'.buf (L'.buf, 0) := ⟨rfl, 0, rfl, Nat.zero_le _, ht⟩
    exact patchLoop_inTime rounds' hstart (by omega)

end Load

/-- A loader behind the header of a file with one production and `instSize` instructions. -/
def headedLoader (instSize : ℕ) : Loader where
  instSize := instSize
  C := { prods := [{ name := [] }] }

/-- `Alt 3; Byte 'a', then go on at 3; Succ; Exit 0` of a file. -/
def letterInsts : InputStream := ⟨[2, 0, 0, 3, 138, 97, 0, 0, 3, 3, 54, 0], 0⟩

/-- A `Jump` is written for the jump flag of the `Byte`. -/
theorem patch_pass_ends_letter : ∃ L', loadLoop true 5 (headedLoader 4) letterInsts 0 = .ok L' ∧
    L'.buf = [2, 3, 0, 0, 0, 10, 97, 4, 3, 0, 0, 0, 3, 54, 0] ∧
    Ends mozvm1OpcodeSize L'.buf ∧ ∀ rounds > 15, InTime (patchLoop rounds L' 0) := by
  obtain ⟨L', hload, hbuf⟩ : ∃ L', loadLoop true 5 (headedLoader 4) letterInsts 0 = .ok L' ∧
      L'.buf = [2, 3, 0, 0, 0, 10, 97, 4, 3, 0, 0, 0, 3, 54, 0] := ⟨_, rfl, rfl⟩
  have hopcodes : ∀ b ∈ loadOpcodes true 5 (headedLoader 4) letterInsts 0,
      b = 2 ∨ b = 10 ∨ b = 3 ∨ b = 54 := by
    intro b hb
    have hlist : loadOpcodes true 5 (headedLoader 4) letterInsts 0 = [2, 10, 3, 54] := rfl
    simpa [hlist] using hb
  obtain ⟨htiles, hdefined, htime⟩ := patch_pass_ends_iff rfl hload
  have hends : Ends mozvm1OpcodeSize L'.buf := by
    refine (hdefined fun b hb => ?_).2 fun b hb => ?_
    · rcases hopcodes b hb with rfl | rfl | rfl | rfl <;>
        exact ⟨by decide, by decide, by decide, by decide⟩
    · rcases hopcodes b hb with rfl | rfl | rfl | rfl <;> exact Option.some_ne_none _
  refine ⟨L', hload, hbuf, hends, fun rounds hrounds => htime (htiles.1 hends) rounds ?_⟩
  rw [hbuf]
  exact hrounds

/-- The file whose instructions are a `Succ` and the opcode 58, which is not defined. -/
def stuckFile : List UInt8 :=
  [78, 69, 90, 0, 0, 2, 0, 0, 0, 0, 0, 1, 0, 0, 0, 0, 0, 0, 0, 0, 0, 0, 0, 3, 58]

def stuckLoader : Loader where
  instSize := 2
  table := [0, 1]
  buf := [3, 58]
  C := { prods := [{ name := [], stop := some 2 }] }

/-- The second loop goes to the undefined opcode and back. -/
theorem patchLoop_stuck (rounds : ℕ) : patchLoop rounds stuckLoader 0 = .error .rounds ∧
    patchLoop rounds stuckLoader 1 = .error .rounds := by
  induction rounds with
  | zero => exact ⟨rfl, rfl⟩
  | succ rounds ih => exact ⟨ih.2, ih.1⟩

set_option maxRecDepth 4000 in
/-- The load of that file does not end. -/
theorem patch_pass_stuck : (∀ rounds, mozvmLoaderLoadSyntax rounds stuckFile true = .error .rounds) ∧
    loadLoop true 3 (headedLoader 2) ⟨[3, 58], 0⟩ 0 = .ok stuckLoader ∧
    ¬Ends mozvm1OpcodeSize stuckLoader.buf := by
  refine ⟨?_, rfl, ?_⟩
  · rintro (_ | _ | _ | rounds)
    · rfl
    · rfl
    · rfl
    · have hheader : readHeader ⟨stuckFile, 0⟩ = .ok (headedLoader 2, ⟨stuckFile, 23⟩) := rfl
      have hfirst : loadLoop true (rounds + 3) (headedLoader 2) ⟨stuckFile, 23⟩ 0 =
          .ok stuckLoader := rfl
      rw [mozvmLoaderLoadSyntax, hheader]
      show mozvmLoaderLoad (rounds + 3) (headedLoader 2) ⟨stuckFile, 23⟩ true = _
      rw [mozvmLoaderLoad, hfirst]
      exact (patchLoop_stuck (rounds + 3)).1
  · rw [ends_iff mozvm1OpcodeSize_ne_zero]
    intro ht
    have hsucc : Tiles mozvm1OpcodeSize [3] := tiles_single rfl
    exact not_tiles_of_unknown rfl ((@Tiles.append_iff _ _ _ [58] hsucc).1 ht)

end Moz.Bytecode
