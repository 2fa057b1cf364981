import Moz.Bytecode.Dispatch

/-!
# VM1 on a loaded file

VM1 on the buffer follows the machine that runs the instructions of the file. Where
the file has an index, VM1 has the place of the instruction; when a jump to a `Ret`
was turned into a `Ret`, it stays there until the file's machine comes to a `Ret`.
-/

namespace Moz.Bytecode

open LittleEndian (encodeInt32 encode)
open Vm1 (Inst Machine Program Outcome exec failImpl decode FrameTyped SameInst)

section Split

variable {table : List ℕ} {buf : List UInt8} {C C' : Constants} {start : ℕ}

theorem PatchedFrom.length {ps ps' : List Piece} (h : PatchedFrom table buf C C' start ps ps') :
    (ps'.flatMap Piece.bytes).length = (ps.flatMap Piece.bytes).length := by
  induction h with
  | nil => rfl
  | cons h _ ih =>
    rw [List.flatMap_cons, List.flatMap_cons, List.length_append, List.length_append, ih, h.length]

theorem PatchedFrom.split {ps qs rs : List Piece}
    (h : PatchedFrom table buf C C' start (ps ++ qs) rs) :
    ∃ ps' qs', rs = ps' ++ qs' ∧ PatchedFrom table buf C C' start ps ps' ∧
      PatchedFrom table buf C C' (start + (ps.flatMap Piece.bytes).length) qs qs' := by
  induction ps generalizing start rs with
  | nil => exact ⟨[], rs, rfl, .nil, h⟩
  | cons p ps ih =>
    cases h with
    | cons hp hs =>
      obtain ⟨ps', qs', rfl, hps, hqs⟩ := ih hs
      refine ⟨_ :: ps', qs', rfl, .cons hp hps, ?_⟩
      rwa [List.flatMap_cons, List.length_append, ← Nat.add_assoc]

end Split

section At

variable {F : BytecodeFile} {opt : Bool} {L₁ L : Loader} {pss : List (List Piece)}
  {ps' : List Piece}

/-- The pieces of the instruction `i` at the index `k`, as they are loaded. -/
structure PiecesAt (F : BytecodeFile) (opt : Bool) (L₁ L : Loader) (pss : List (List Piece)) (k : ℕ)
    (i : FileInst) (main main' tail' : List Piece) : Prop where
  body : Body opt L₁.C i.op i.operands main
  patched : PatchedFrom L.table L.buf L₁.C L.C (place pss k) main main'
  tail : PatchedFrom L.table L.buf L₁.C L.C (place pss k + (main.flatMap Piece.bytes).length)
    (i.nextTarget.map Piece.jump).toList tail'
  buf : ∃ pre post, L.buf = pre ++ (main' ++ tail').flatMap Piece.bytes ++ post ∧
    pre.length = place pss k
  next : place pss (k + 1) = place pss k + ((main' ++ tail').flatMap Piece.bytes).length

theorem LoadedFile.piecesAt (h : LoadedFile F opt L₁ L pss ps') {k : ℕ} {i : FileInst}
    (hi : F.insts[k]? = some i) : ∃ body body' tail', PiecesAt F opt L₁ L pss k i body body' tail' := by
  have hk : k < pss.length := h.first.length ▸ (List.getElem?_eq_some_iff.1 hi).1
  obtain ⟨ps, hps⟩ : ∃ ps, pss[k]? = some ps := ⟨pss.get ⟨k, hk⟩, List.getElem?_eq_getElem hk⟩
  obtain ⟨body, hbody, hemits⟩ := h.first.emits_at hi hps
  have hsplit : pss.flatten = (pss.take k).flatten ++ (ps ++ (pss.drop (k + 1)).flatten) := by
    conv_lhs => rw [← List.take_append_drop k pss, List.flatten_append]
    rw [List.drop_eq_getElem_cons hk, List.flatten_cons]
    obtain ⟨-, rfl⟩ := List.getElem?_eq_some_iff.1 hps
    rfl
  have hpatched := h.second.patched
  rw [hsplit] at hpatched
  obtain ⟨before', rest', rfl, hbefore, hrest⟩ := hpatched.split
  obtain ⟨mid', after', rfl, hmid, -⟩ := hrest.split
  subst hemits
  obtain ⟨body', tail', rfl, hbody', htail'⟩ := hmid.split
  have hstart : ([] : List UInt8).length + ((pss.take k).flatten.flatMap Piece.bytes).length =
      place pss k := Nat.zero_add _
  rw [hstart] at hbody' htail'
  rw [← h.second.table] at hbody' htail'
  refine ⟨body, body', tail', hbody, hbody', htail', ?_, ?_⟩
  · refine ⟨before'.flatMap Piece.bytes, after'.flatMap Piece.bytes, ?_, ?_⟩
    · rw [h.second.buf]
      simp
    · rw [hbefore.length]
      rfl
  · rw [place_succ hps, List.flatMap_append, List.flatMap_append, List.length_append,
      List.length_append, hbody'.length, htail'.length]

end At

/-- The address in VM1 for an address of the file's machine. -/
def codeAddress (P : Program) (L : Loader) (k : ℤ) : ℤ :=
  if 0 ≤ k then P.base + ((L.table[k.toNat]?).getD L.buf.length : ℕ) else P.stub + (k - listStub)

/-- The opcode at an address of the program is `Ret`. -/
def IsRet (P : Program) (pc : ℤ) : Prop :=
  P.base ≤ pc ∧ P.code[(pc - P.base).toNat]? = some MozOpcode.ret.toByte

section Fetch

variable {P : Program}

theorem fetch_piece {pre post : List UInt8} {p : Piece} (hcode : P.code = pre ++ p.bytes ++ post)
    (hlen : p.args.length = p.op.operandSize) :
    P.fetch (P.base + pre.length) =
      (decode p.bytes 0).map fun x => (x.1, P.base + (pre.length + x.2 : ℕ)) := by
  have hinside : P.base ≤ P.base + pre.length ∧ P.base + pre.length < P.base + P.code.length := by
    rw [hcode, List.length_append, List.length_append, Piece.bytes_length]
    omega
  have hoffset : (P.base + pre.length - P.base).toNat = pre.length := by omega
  unfold Program.fetch
  rw [if_pos hinside, hoffset, hcode, decode_shift hlen, Option.map_map]
  rfl

theorem isRet_piece {pre post : List UInt8} {p : Piece} (hcode : P.code = pre ++ p.bytes ++ post)
    (hop : p.op = .ret) : IsRet P (P.base + pre.length) := by
  have hoffset : (P.base + pre.length - P.base).toNat = pre.length := by omega
  refine ⟨by omega, ?_⟩
  rw [hoffset, hcode, getElem?_opcode, hop]

theorem IsRet.fetch {pc : ℤ} (h : IsRet P pc) : ∃ d, P.fetch pc = some (.ret d, pc + 5) := by
  obtain ⟨hbase, hopcode⟩ := h
  have hlt : (pc - P.base).toNat < P.code.length := (List.getElem?_eq_some_iff.1 hopcode).1
  have hinside : P.base ≤ pc ∧ pc < P.base + P.code.length := by omega
  refine ⟨LittleEndian.readInt32 P.code ((pc - P.base).toNat + 1), ?_⟩
  have hdecode : decode P.code (pc - P.base).toNat =
      some (.ret (LittleEndian.readInt32 P.code ((pc - P.base).toNat + 1)),
        (pc - P.base).toNat + 5) := by
    unfold decode
    rw [hopcode]
    rfl
  unfold Program.fetch
  rw [if_pos hinside, hdecode, Option.map_some]
  simp only [Option.some.injEq, Prod.mk.injEq, true_and]
  push_cast
  omega

end Fetch

section Address

variable {F : BytecodeFile} {opt : Bool} {L₁ L : Loader} {pss : List (List Piece)}
  {ps' : List Piece} {P : Program}

theorem LoadedFile.codeAddress_eq (h : LoadedFile F opt L₁ L pss ps') {k : ℕ}
    (hk : k ≤ F.insts.length) : codeAddress P L k = P.base + place pss k := by
  unfold codeAddress
  rw [if_pos (Int.natCast_nonneg k), Int.toNat_natCast, h.second.table]
  obtain hlt | rfl := hk.lt_or_eq
  · rw [h.first.getElem?_table hlt, Option.getD_some]
  · have hlength : L.buf.length = place pss F.insts.length := by
      rw [h.second.buf, List.nil_append, h.second.patched.length, h.first.length, place_length]
    rw [List.getElem?_eq_none h.first.table_length.le, Option.getD_none, hlength]

theorem LoadedFile.size (h : LoadedFile F opt L₁ L pss ps') (hF : F.WellFormed opt) :
    L.buf.length < 2 ^ 31 := by
  have hpieces : ∀ p ∈ pss.flatten, p.bytes.length ≤ 10 := by
    intro p hp
    have hok := pieceOk_flatten h.first.emits (fun i hi =>
      (hF.insts i hi).mono h.first.grows (fun _ => id) fun _ => id) p hp
    rw [Piece.bytes_length, hok.length]
    cases p.op <;> decide
  have hsum : ∀ ps : List Piece, (∀ p ∈ ps, p.bytes.length ≤ 10) →
      (ps.flatMap Piece.bytes).length ≤ 10 * ps.length := by
    intro ps
    induction ps with
    | nil => exact fun _ => le_rfl
    | cons p ps ih =>
      intro hps
      rw [List.flatMap_cons, List.length_append, List.length_cons]
      have hp := hps p List.mem_cons_self
      have hrest := ih fun q hq => hps q (List.mem_cons_of_mem _ hq)
      omega
  have hcount := flatten_length_le h.first.emits
  have hbytes := hsum _ hpieces
  have hsize : F.insts.length < 2 ^ 16 := hF.size.trans_lt hF.instSize
  rw [h.second.buf, List.nil_append, h.second.patched.length]
  omega

/-- The distance to a target, from a place in the buffer. -/
theorem LoadedFile.distance_eq (h : LoadedFile F opt L₁ L pss ps') (hF : F.WellFormed opt)
    {stop k : ℕ} {d : ℤ} (hd : Distance L.table stop k d) (hstop : stop ≤ L.buf.length) :
    IsWord d ∧ P.base + stop + d = codeAddress P L k := by
  obtain ⟨addr, hget, rfl⟩ := hd
  have hsize := h.size hF
  have hk : k < F.insts.length := by
    have hlt := (List.getElem?_eq_some_iff.1 hget).1
    rw [h.second.table, h.first.table_length] at hlt
    exact hlt
  have hplace : addr = place pss k := by
    rw [h.second.table, h.first.getElem?_table hk] at hget
    exact (Option.some.inj hget).symm
  have haddr : addr ≤ L.buf.length := by
    have hmono := place_mono pss (show k ≤ pss.length from h.first.length ▸ hk.le)
    rw [h.second.buf, List.nil_append, h.second.patched.length, ← place_length, hplace]
    exact hmono
  constructor
  · unfold IsWord
    omega
  · rw [h.codeAddress_eq hk.le, hplace]
    omega

end Address

/-- The condition under which the byte at `current` has its own entry in the table of a `First` that
is loaded as a table. -/
def FirstOk (R : Runtime) (current : ℕ) : (op : MozOpcode) → op.shape.Operands → Prop
  | .first, ks => 8 < (distinctTargets (ks.map Nat.cast)).length →
    R.charAt current = (R.byteAt current).toNat
  | _, _ => True

/-- No target of a `First` is 0. -/
def FirstPos : (s : Shape) → s.Operands → Prop
  | .first, ks => ∀ k ∈ ks, k ≠ 0
  | _, _ => True

/-- The end of an instruction, at the place `b`. -/
inductive TailAt (P : Program) (L : Loader) (i : FileInst) (k b : ℕ) : Prop
  | none (h : i.nextTarget = none) (hb : P.base + b = codeAddress P L (k + 1 : ℕ))
  | jump {target : ℕ} {d : ℤ} (h : i.nextTarget = some target)
      (hfetch : P.fetch (P.base + b) = some (.jump d, P.base + (b + 5 : ℕ)))
      (hd : P.base + (b + 5 : ℕ) + d = codeAddress P L target)
  | ret {target : ℕ} (h : i.nextTarget = some target) (hb : IsRet P (P.base + b))
      (htarget : IsRet P (codeAddress P L target))

/-- The operation of an instruction, up to the place `b`. -/
inductive MainAt (P : Program) (R : Runtime) (opt : Bool) (L : Loader) (i : FileInst) (a b : ℕ) :
    Prop
  | elided (ho : opt) (hop : i.op = .nop ∨ i.op = .label) (hb : b = a)
  | label (ho : ¬ opt) (hop : i.op = .label)
  | inst {inst : Inst} (hfetch : P.fetch (P.base + a) = some (inst, P.base + b))
      (hsame : ∀ (current : ℕ) (next : ℤ), FirstOk R current i.op i.operands → ∃ inst',
        (∀ c : Machine, c.current = current → exec R c inst = exec R c inst') ∧
        SameInst (codeAddress P L) next (P.base + b)
          (vmInst next (R.byteAt current) i.op i.operands) inst')
      (hret : ∀ d, inst = .ret d → i.op = .ret)
  | ret {target : ℕ} (hvm : ∀ next byte, vmInst next byte i.op i.operands =
      .jump (distance target next)) (ha : IsRet P (P.base + a))
      (htarget : IsRet P (codeAddress P L target))

section Find

variable {F : BytecodeFile} {opt : Bool} {L₁ L : Loader} {pss : List (List Piece)}
  {ps' : List Piece} {P : Program} {R : Runtime} {k : ℕ} {i : FileInst}
  {main main' tail' : List Piece}

theorem encodeInt32_inj {m n : ℕ} (hm : m < 2 ^ 31) (hn : n < 2 ^ 31)
    (h : encodeInt32 m = encodeInt32 n) : m = n := by
  have hdecode := congrArg (fun bs => (LittleEndian.decode bs : ℤ)) h
  simp only [LittleEndian.decode_encodeInt32] at hdecode
  omega

theorem Patched.jump_inv {table : List ℕ} {buf : List UInt8} {C C' : Constants} {stop target : ℕ}
    {q : Piece} (htarget : target < 2 ^ 31) (hsmall : table.length < 2 ^ 31)
    (h : Patched table buf C C' stop (.jump target) q) :
    ∃ d, Distance table stop target d ∧ (q = ⟨.jump, encodeInt32 d⟩ ∨
      q = ⟨.ret, encodeInt32 d⟩ ∧ ∃ addr, table[target]? = some addr ∧
        buf[addr]? = some MozOpcode.ret.toByte) := by
  have hsame : ∀ {k : ℕ} {d : ℤ}, Distance table stop k d → Piece.jump target = .jump k →
      k = target := by
    rintro k d ⟨addr, hget, -⟩ heq
    have hk : k < table.length := (List.getElem?_eq_some_iff.1 hget).1
    exact (encodeInt32_inj htarget (hk.trans hsmall) (congrArg Piece.args heq)).symm
  generalize hp : Piece.jump target = p at h
  cases h with
  | jump h =>
    obtain rfl := hsame h hp
    exact ⟨_, h, .inl rfl⟩
  | ret h hk hret =>
    obtain rfl := hsame h hp
    exact ⟨_, h, .inr ⟨rfl, _, hk, hret⟩⟩
  | @addr op pre k d hop h =>
    have hjump : MozOpcode.jump = op := congrArg Piece.op hp
    rw [← hjump] at hop
    exact absurd hop (by decide)
  | call hnext h => cases hp
  | @table op id js js' hop hid hjs hjs' h =>
    have hjump : MozOpcode.jump = op := congrArg Piece.op hp
    rw [← hjump] at hop
    exact absurd hop (by decide)
  | quiet hop =>
    rw [← hp] at hop
    exact absurd rfl hop.2.2.1

/-- The piece of an instruction that ends with a target. -/
theorem Patched.addr_inv {table : List ℕ} {buf : List UInt8} {C C' : Constants} {stop k : ℕ}
    {op : MozOpcode} {pre : List UInt8} {q : Piece} (hop : EndsWithTarget op) (hk : k < 2 ^ 31)
    (hsmall : table.length < 2 ^ 31)
    (h : Patched table buf C C' stop ⟨op, pre ++ encodeInt32 k⟩ q) :
    ∃ d, Distance table stop k d ∧ q = ⟨op, pre ++ encodeInt32 d⟩ := by
  generalize hp : (⟨op, pre ++ encodeInt32 k⟩ : Piece) = p at h
  cases h with
  | jump h =>
    obtain rfl : op = .jump := congrArg Piece.op hp
    exact absurd hop (by decide)
  | ret h hk hret =>
    obtain rfl : op = .jump := congrArg Piece.op hp
    exact absurd hop (by decide)
  | @addr op' pre' k' d hop' h =>
    obtain ⟨rfl, hargs⟩ := Piece.mk.inj hp
    obtain ⟨rfl, hword⟩ := List.append_inj' hargs rfl
    obtain ⟨addr, hget, hd⟩ := h
    have hk' : k' < table.length := (List.getElem?_eq_some_iff.1 hget).1
    obtain rfl := encodeInt32_inj hk (hk'.trans hsmall) hword
    exact ⟨d, ⟨addr, hget, hd⟩, rfl⟩
  | call hnext h =>
    obtain rfl : op = .call := congrArg Piece.op hp
    exact absurd hop (by decide)
  | @table op' id js js' hop' hid hjs hjs' h =>
    obtain rfl : op = op' := congrArg Piece.op hp
    obtain rfl | rfl | rfl := hop <;> exact absurd hop' (by decide)
  | quiet hop' =>
    rw [← hp] at hop'
    exact absurd hop hop'.1

theorem Patched.call_inv {table : List ℕ} {buf : List UInt8} {C C' : Constants} {stop n k : ℕ}
    {q : Piece} (hn : n < 2 ^ 31) (hk : k < 2 ^ 31) (hsmall : table.length < 2 ^ 31)
    (h : Patched table buf C C' stop ⟨.call, encodeInt32 n ++ encodeInt32 k⟩ q) :
    ∃ d d', Distance table stop n d ∧ Distance table stop k d' ∧
      q = ⟨.call, encodeInt32 d ++ encodeInt32 d'⟩ := by
  generalize hp : (⟨.call, encodeInt32 n ++ encodeInt32 k⟩ : Piece) = p at h
  cases h with
  | jump h => cases congrArg Piece.op hp
  | ret h hk hret => cases congrArg Piece.op hp
  | @addr op' pre' k' d hop' h =>
    obtain rfl : MozOpcode.call = op' := congrArg Piece.op hp
    exact absurd hop' (by decide)
  | @call n' k' d d' hnext h =>
    obtain ⟨hword, hword'⟩ := List.append_inj' (congrArg Piece.args hp) rfl
    obtain ⟨addr, hget, hd⟩ := hnext
    obtain ⟨addr', hget', hd'⟩ := h
    have hn' : n' < table.length := (List.getElem?_eq_some_iff.1 hget).1
    have hk' : k' < table.length := (List.getElem?_eq_some_iff.1 hget').1
    obtain rfl := encodeInt32_inj hn (hn'.trans hsmall) hword
    obtain rfl := encodeInt32_inj hk (hk'.trans hsmall) hword'
    exact ⟨d, d', ⟨addr, hget, hd⟩, ⟨addr', hget', hd'⟩, rfl⟩
  | @table op' id js js' hop' hid hjs hjs' h =>
    obtain rfl : MozOpcode.call = op' := congrArg Piece.op hp
    exact absurd hop' (by decide)
  | quiet hop' =>
    rw [← hp] at hop'
    exact absurd rfl hop'.2.2.2

theorem Patched.table_inv {table : List ℕ} {buf : List UInt8} {C C' : Constants} {stop id : ℕ}
    {op : MozOpcode} {q : Piece} (hop : IsTable op) (hid : id < 2 ^ 16)
    (h : Patched table buf C C' stop (.table op id) q) :
    q = .table op id ∧ ∃ js js', jumpsOf C op id = some js ∧ jumpsOf C' op id = some js' ∧
      List.Forall₂ (EntryPatched table stop op) js js' := by
  generalize hp : Piece.table op id = p at h
  cases h with
  | jump h =>
    obtain rfl : op = .jump := congrArg Piece.op hp
    exact absurd hop (by decide)
  | ret h hk hret =>
    obtain rfl : op = .jump := congrArg Piece.op hp
    exact absurd hop (by decide)
  | @addr op' pre' k' d hop' h =>
    obtain rfl : op = op' := congrArg Piece.op hp
    obtain rfl | rfl | rfl := hop' <;> exact absurd hop (by decide)
  | call hnext h =>
    obtain rfl : op = .call := congrArg Piece.op hp
    exact absurd hop (by decide)
  | @table op' id' js js' hop' hid' hjs hjs' h =>
    obtain rfl : op = op' := congrArg Piece.op hp
    have hdecode := congrArg (fun p : Piece => LittleEndian.decode p.args) hp
    simp only [Piece.table, LittleEndian.decode_encode] at hdecode
    obtain rfl : id = id' := by omega
    exact ⟨rfl, js, js', hjs, hjs', h⟩
  | quiet hop' =>
    rw [← hp] at hop'
    exact absurd hop hop'.2.1

theorem Patched.quiet_inv {table : List ℕ} {buf : List UInt8} {C C' : Constants} {stop : ℕ}
    {p q : Piece} (hop : IsQuiet p.op) (h : Patched table buf C C' stop p q) : q = p := by
  cases h with
  | jump h => exact absurd rfl hop.2.2.1
  | ret h hk hret => exact absurd rfl hop.2.2.1
  | addr hop' h => exact absurd hop' hop.1
  | call hnext h => exact absurd rfl hop.2.2.2
  | table hop' hid hjs hjs' h => rfl
  | quiet hop' => rfl

/-- A loaded jump is a `Jump` to the target, or a `Ret` in place of one. -/
theorem LoadedFile.jumpAt (h : LoadedFile F opt L₁ L pss ps') (hF : F.WellFormed opt)
    (hcode : P.code = L.buf) {target : ℕ} (htarget : target < F.insts.length) {pre post : List UInt8}
    {q : Piece} (hbuf : L.buf = pre ++ q.bytes ++ post)
    (hq : Patched L.table L.buf L₁.C L.C (pre.length + 5) (.jump target) q) :
    (∃ d, P.fetch (P.base + pre.length) = some (.jump d, P.base + (pre.length + 5 : ℕ)) ∧
      P.base + (pre.length + 5 : ℕ) + d = codeAddress P L target) ∨
    IsRet P (P.base + pre.length) ∧ IsRet P (codeAddress P L target) := by
  have hsize : F.insts.length < 2 ^ 16 := hF.size.trans_lt hF.instSize
  have htable : L.table.length < 2 ^ 31 := by
    rw [h.second.table, h.first.table_length]
    omega
  obtain ⟨d, hdistance, rfl | ⟨rfl, addr, hget, hret⟩⟩ := hq.jump_inv (by omega) htable
  · left
    have hstop : pre.length + 5 ≤ L.buf.length := by
      rw [hbuf]
      simp
    obtain ⟨hd, haddress⟩ := h.distance_eq hF hdistance hstop
    refine ⟨d, ?_, haddress⟩
    rw [fetch_piece (hcode.trans hbuf) rfl, decode_jump hd]
    rfl
  · right
    refine ⟨isRet_piece (hcode.trans hbuf) rfl, ?_⟩
    rw [h.second.table, h.first.getElem?_table htarget] at hget
    rw [h.codeAddress_eq htarget.le, Option.some.inj hget]
    have hoffset : (P.base + addr - P.base).toNat = addr := by omega
    refine ⟨by omega, ?_⟩
    rw [hoffset, hcode, hret]

theorem PiecesAt.tailAt (hat : PiecesAt F opt L₁ L pss k i main main' tail')
    (h : LoadedFile F opt L₁ L pss ps') (hF : F.WellFormed opt) (hcode : P.code = L.buf)
    (hi : F.insts[k]? = some i) :
    TailAt P L i k (place pss k + (main'.flatMap Piece.bytes).length) := by
  have hk : k < F.insts.length := (List.getElem?_eq_some_iff.1 hi).1
  obtain ⟨pre, post, hbuf, hpre⟩ := hat.buf
  rw [List.flatMap_append] at hbuf
  have htail := hat.tail
  have hnext := hat.next
  cases htarget : i.nextTarget with
  | none =>
    rw [htarget] at htail
    cases htail
    apply TailAt.none htarget
    rw [List.append_nil] at hnext
    rw [h.codeAddress_eq hk, ← hnext]
  | some target =>
    rw [htarget] at htail
    obtain ⟨q, rfl, hq⟩ : ∃ q, tail' = [q] ∧ Patched L.table L.buf L₁.C L.C
        (place pss k + (main.flatMap Piece.bytes).length + 5) (.jump target) q := by
      cases htail with
      | cons hq hs =>
        cases hs
        exact ⟨_, rfl, hq⟩
    have htargetLt : target < F.insts.length := by
      obtain ⟨n, hn, j, hj, -⟩ := (hF.insts i (List.mem_of_getElem? hi)).next target htarget
      exact lt_of_le_of_lt hn (List.getElem?_eq_some_iff.1 hj).1
    have hbuf' : L.buf = (pre ++ main'.flatMap Piece.bytes) ++ q.bytes ++ post := by
      rw [hbuf]
      simp
    have hlen : (pre ++ main'.flatMap Piece.bytes).length =
        place pss k + (main'.flatMap Piece.bytes).length := by
      rw [List.length_append, hpre]
    rw [← hat.patched.length, ← hlen] at hq
    obtain ⟨d, hfetch, hd⟩ | ⟨hret, hretTarget⟩ := h.jumpAt hF hcode htargetLt hbuf' hq
    · rw [hlen] at hfetch hd
      exact .jump htarget hfetch hd
    · rw [hlen] at hret
      exact .ret htarget hret hretTarget

theorem fetch_of_decode {pre post : List UInt8} {q : Piece} {inst : Inst} {a : ℕ}
    (hcode : P.code = pre ++ q.bytes ++ post) (hpre : pre.length = a)
    (hlen : q.args.length = q.op.operandSize)
    (hdecode : decode q.bytes 0 = some (inst, q.op.operandSize + 1)) :
    P.fetch (P.base + a) = some (inst, P.base + (a + q.bytes.length : ℕ)) := by
  rw [← hpre, fetch_piece hcode hlen, hdecode, Piece.bytes_length, hlen]
  rfl

/-- An instruction without targets is the same everywhere. -/
theorem vmInst_isControl {op : MozOpcode} (hop : IsQuiet op) (hret : op ≠ .ret)
    (operands : op.shape.Operands) (next : ℤ) (byte : UInt8) :
    (vmInst next byte op operands).isControl = false := by
  cases op with
  | tblJump1 | tblJump2 | tblJump3 | tAbort | sDefNum | sCount => cases operands
  | first => exact absurd (.inl rfl) hop.2.1
  | alt => exact absurd (.inl rfl) hop.1
  | lookup => exact absurd (.inr (.inl rfl)) hop.1
  | tLookup => exact absurd (.inr (.inr rfl)) hop.1
  | jump => exact absurd rfl hop.2.2.1
  | call => exact absurd rfl hop.2.2.2
  | ret => exact absurd rfl hret
  | _ => rfl

theorem vmInst_ne_ret {op : MozOpcode} (hret : op ≠ .ret) (operands : op.shape.Operands) (next d : ℤ)
    (byte : UInt8) : vmInst next byte op operands ≠ .ret d := by
  cases op with
  | tblJump1 | tblJump2 | tblJump3 | tAbort | sDefNum | sCount => cases operands
  | ret => exact absurd rfl hret
  | _ => exact fun h => by cases h

theorem mainAt_quiet {op : MozOpcode} {operands : op.shape.Operands} {next : Option ℕ} {a : ℕ}
    {pre post : List UInt8} (hop : IsQuiet op) (hlabel : op ≠ .label)
    (hcode : P.code = pre ++ (⟨op, operandBytes op.shape operands⟩ : Piece).bytes ++ post)
    (hpre : pre.length = a) :
    MainAt P R opt L ⟨op, operands, next⟩ a
      (a + (⟨op, operandBytes op.shape operands⟩ : Piece).bytes.length) := by
  have hf : op ≠ .first := by
    rintro rfl
    exact hop.2.1 (.inl rfl)
  obtain ⟨inst, hdecode, hinst⟩ := decode_quiet hop hlabel operands 0 0
  apply MainAt.inst (fetch_of_decode hcode hpre (operandBytes_length hf operands) hdecode)
  · intro current next' _
    obtain ⟨inst', hdecode', hinst'⟩ := decode_quiet hop hlabel operands next' (R.byteAt current)
    obtain rfl : inst = inst' := by
      rw [hdecode] at hdecode'
      exact congrArg Prod.fst (Option.some.inj hdecode')
    refine ⟨inst, fun _ _ => rfl, ?_⟩
    by_cases hret : op = .ret
    · subst hret
      obtain rfl | ⟨d, -, rfl⟩ := hinst'
      · exact .ret 0 0
      · exact .ret 0 d
    · obtain rfl | ⟨d, hret', -⟩ := hinst'
      · exact .plain (vmInst_isControl hop hret operands next' _)
      · exact absurd hret' hret
  · rintro d rfl
    by_contra hret
    obtain hvm | ⟨_, hret', -⟩ := hinst
    · exact vmInst_ne_ret hret operands 0 d 0 hvm.symm
    · exact hret hret'

theorem add_distance (k : ℕ) (next : ℤ) : next + distance k next = k := by
  unfold distance
  omega

theorem isIndex_of_isCode (h : F.IsCode opt k) : F.IsIndex k := by
  obtain ⟨n, hn, j, hj, -⟩ := h
  exact lt_of_le_of_lt hn (List.getElem?_eq_some_iff.1 hj).1

/-- The operation of an instruction that is loaded as the piece `q`. -/
theorem LoadedFile.mainAt_plain (h : LoadedFile F opt L₁ L pss ps') (hF : F.WellFormed opt)
    (hcode : P.code = L.buf) {op : MozOpcode} {operands : op.shape.Operands} {next : Option ℕ}
    (hok : OperandsOk F.constants F.IsIndex (F.IsCode opt) op.shape operands) (hf : op ≠ .first)
    (hlabel : op = .label → ¬ opt) {pre post : List UInt8} {q : Piece}
    (hbuf : L.buf = pre ++ q.bytes ++ post)
    (hq : Patched L.table L.buf L₁.C L.C (pre.length + q.bytes.length)
      ⟨op, operandBytes op.shape operands⟩ q) :
    MainAt P R opt L ⟨op, operands, next⟩ pre.length (pre.length + q.bytes.length) := by
  have hsize : F.insts.length < 2 ^ 16 := hF.size.trans_lt hF.instSize
  have hindex : ∀ k, F.IsIndex k → k < 2 ^ 31 := fun k hk => by
    unfold BytecodeFile.IsIndex at hk
    omega
  have htable : L.table.length < 2 ^ 31 := by
    rw [h.second.table, h.first.table_length]
    omega
  have hstop : pre.length + q.bytes.length ≤ L.buf.length := by
    rw [hbuf, List.length_append, List.length_append]
    omega
  have hplace : ∀ {k : ℕ} {d : ℤ}, Distance L.table (pre.length + q.bytes.length) k d → IsWord d ∧
      ∀ next', P.base + (pre.length + q.bytes.length : ℕ) + d =
        codeAddress P L (next' + distance k next') := by
    intro k d hd
    obtain ⟨hword, haddress⟩ := @LoadedFile.distance_eq _ _ _ _ _ _ P h hF _ _ _ hd hstop
    exact ⟨hword, fun next' => by rw [add_distance, haddress]⟩
  by_cases hquiet : IsQuiet op
  · obtain rfl := hq.quiet_inv hquiet
    by_cases hop : op = .label
    · exact .label (hlabel hop) hop
    · exact mainAt_quiet hquiet hop (hcode.trans hbuf) rfl
  cases op with
  | tblJump1 | tblJump2 | tblJump3 | tAbort | sDefNum | sCount => cases operands
  | first => exact absurd rfl hf
  | alt =>
    obtain ⟨d, hd, rfl⟩ := @Patched.addr_inv _ _ _ _ _ operands .alt [] _ (.inl rfl) (hindex _ hok)
      htable hq
    obtain ⟨hword, haddress⟩ := hplace hd
    apply MainAt.inst (fetch_of_decode (hcode.trans hbuf) rfl rfl (decode_alt hword))
    · intro current next' _
      exact ⟨_, fun _ _ => rfl, .alt (haddress next')⟩
    · rintro d' ⟨⟩
  | jump =>
    have htarget : F.IsIndex operands := isIndex_of_isCode hok
    have hlen : q.bytes.length = 5 := hq.length
    rw [hlen] at hq ⊢
    obtain ⟨d, hfetch, hd⟩ | ⟨hret, hretTarget⟩ := h.jumpAt hF hcode htarget hbuf hq
    · apply MainAt.inst hfetch
      · intro current next' _
        exact ⟨_, fun _ _ => rfl, .jump (hd.trans (congrArg _ (add_distance operands next').symm))⟩
      · rintro d' ⟨⟩
    · exact .ret (fun next' byte => rfl) hret hretTarget
  | call =>
    obtain ⟨n, prod, k⟩ := operands
    obtain ⟨hn, -, hk⟩ := hok
    obtain ⟨d, d', hd, hd', rfl⟩ := Patched.call_inv (hindex n hn) (hindex k hk) htable hq
    obtain ⟨hword, haddress⟩ := hplace hd
    obtain ⟨hword', haddress'⟩ := hplace hd'
    apply MainAt.inst (fetch_of_decode (hcode.trans hbuf) rfl rfl (decode_call hword hword'))
    · intro current next' _
      exact ⟨_, fun _ _ => rfl, .call (haddress next') (haddress' next')⟩
    · rintro d' ⟨⟩
  | lookup =>
    obtain ⟨state, memoId, k⟩ := operands
    obtain ⟨d, hd, rfl⟩ := @Patched.addr_inv _ _ _ _ _ k .lookup (state :: encode 2 memoId) _
      (.inr (.inl rfl)) (hindex _ hok.2) htable hq
    obtain ⟨hword, haddress⟩ := hplace hd
    apply MainAt.inst (fetch_of_decode (hcode.trans hbuf) rfl rfl (decode_lookup hword))
    · intro current next' _
      exact ⟨_, fun _ _ => rfl, .lookup _ _ (haddress next')⟩
    · rintro d' ⟨⟩
  | tLookup =>
    obtain ⟨state, memoId, k, id⟩ := operands
    obtain ⟨d, hd, rfl⟩ := @Patched.addr_inv _ _ _ _ _ k .tLookup
      (state :: encode 2 id ++ encode 2 memoId) _ (.inr (.inr rfl)) (hindex _ hok.2.1) htable hq
    obtain ⟨hword, haddress⟩ := hplace hd
    apply MainAt.inst (fetch_of_decode (hcode.trans hbuf) rfl rfl (decode_tLookup hword))
    · intro current next' _
      exact ⟨_, fun _ _ => rfl, .tLookup _ _ _ (haddress next')⟩
    · rintro d' ⟨⟩
  | _ => exact absurd (by decide) hquiet

theorem fetch_table {op : MozOpcode} {id : ℕ} (hop : IsTable op) {pre post : List UInt8}
    (hcode : P.code = pre ++ (Piece.table op id).bytes ++ post) :
    P.fetch (P.base + pre.length) = some (tableInst op (UInt16.ofNat id),
      P.base + (pre.length + (Piece.table op id).bytes.length : ℕ)) := by
  have hlen : (Piece.table op id).args.length = (Piece.table op id).op.operandSize := by
    obtain rfl | rfl | rfl | rfl := hop <;> rfl
  have hdecode : decode (Piece.table op id).bytes 0 = some (tableInst op (UInt16.ofNat id),
      (Piece.table op id).op.operandSize + 1) := by
    rw [decode_table hop]
    obtain rfl | rfl | rfl | rfl := hop <;> rfl
  exact fetch_of_decode hcode rfl hlen hdecode

theorem LoadedFile.mainAt_table (h : LoadedFile F opt L₁ L pss ps') (hF : F.WellFormed opt)
    (hcode : P.code = L.buf) {op : MozOpcode} {id : ℕ} {ks : List ℕ} {next : Option ℕ}
    (hop : IsTable op) {pre post : List UInt8}
    (hbuf : L.buf = pre ++ (Piece.table op id).bytes ++ post)
    (hexec : ∀ current, FirstOk R current .first ks → ∃ d,
      Distance L.table (pre.length + (Piece.table op id).bytes.length)
        (ks.getD (R.byteAt current).toNat 0) d ∧
      ∀ c : Machine, c.current = current →
        exec R c (tableInst op (UInt16.ofNat id)) = exec R c (.jump d)) :
    MainAt P R opt L ⟨.first, ks, next⟩ pre.length
      (pre.length + (Piece.table op id).bytes.length) := by
  have hstop : pre.length + (Piece.table op id).bytes.length ≤ L.buf.length := by
    rw [hbuf, List.length_append, List.length_append]
    omega
  apply MainAt.inst (fetch_table hop (hcode.trans hbuf))
  · intro current next' hfirst
    obtain ⟨d, hd, hjump⟩ := hexec current hfirst
    have haddress := (@LoadedFile.distance_eq _ _ _ _ _ _ P h hF _ _ _ hd hstop).2
    exact ⟨.jump d, hjump, .jump (haddress.trans (congrArg _ (add_distance _ next').symm))⟩
  · intro d hd
    obtain rfl | rfl | rfl | rfl := hop <;> cases hd

/-- A `First`, with its table or with one by bits. -/
theorem LoadedFile.mainAt_first (h : LoadedFile F opt L₁ L pss ps') (hF : F.WellFormed opt)
    (hcode : P.code = L.buf) (hR : RuntimeHas R L.C) {ks : List ℕ} {next : Option ℕ}
    (hlen : ks.length = 257) (hpos : ∀ k ∈ ks, k ≠ 0) {pre post : List UInt8} {p q : Piece}
    (hbody : Body opt L₁.C .first ks [p]) (hbuf : L.buf = pre ++ q.bytes ++ post)
    (hq : Patched L.table L.buf L₁.C L.C (pre.length + q.bytes.length) p q) :
    MainAt P R opt L ⟨.first, ks, next⟩ pre.length (pre.length + q.bytes.length) := by
  have hchooses : ∀ current, Chooses R ks current (ks.getD (R.byteAt current).toNat 0) := by
    intro current
    have hlt : (R.byteAt current).toNat < ks.length := by
      have hbyte := UInt8.toNat_lt (R.byteAt current)
      omega
    have hget : ks.getD (R.byteAt current).toNat 0 = ks.get ⟨_, hlt⟩ := by
      rw [List.getD_eq_getElem?_getD, List.getElem?_eq_getElem hlt]
      rfl
    have hmem : ks.getD (R.byteAt current).toNat 0 ∈ ks := hget ▸ List.get_mem ks ⟨_, hlt⟩
    refine ⟨hmem, ?_⟩
    rw [List.getD_eq_getElem?_getD, List.getElem?_map, hget, List.getElem?_eq_getElem hlt]
    rfl
  cases hbody with
  | plain hf => exact absurd rfl hf
  | @first _ id hid hmany hC =>
    obtain ⟨rfl, js, js', hjs, hjs', hentries⟩ := hq.table_inv (.inl rfl) hid
    obtain rfl := Option.some.inj (hC.symm.trans hjs)
    apply h.mainAt_table hF hcode (.inl rfl) hbuf
    intro current hfirst
    exact exec_first hR hid hjs' hlen hentries (hfirst hmany)
  | @tblJump1 _ id hid hfew hC =>
    obtain ⟨rfl, js, js', hjs, hjs', hentries⟩ := hq.table_inv (.inr (.inl rfl)) hid
    simp only [jumpsOf, hC, Option.map_some, Option.some.injEq] at hjs
    subst hjs
    apply h.mainAt_table hF hcode (.inr (.inl rfl)) hbuf
    intro current _
    obtain ⟨d, hd, hjump⟩ :=
      exec_tblJump1 hC h.second.same hR hid hjs' hfew hentries (hchooses current)
    exact ⟨d, hd.distance (hpos _ (hchooses current).mem), hjump⟩
  | @tblJump2 _ id hid hfew hC =>
    obtain ⟨rfl, js, js', hjs, hjs', hentries⟩ := hq.table_inv (.inr (.inr (.inl rfl))) hid
    simp only [jumpsOf, hC, Option.map_some, Option.some.injEq] at hjs
    subst hjs
    apply h.mainAt_table hF hcode (.inr (.inr (.inl rfl))) hbuf
    intro current _
    obtain ⟨d, hd, hjump⟩ :=
      exec_tblJump2 hC h.second.same hR hid hjs' hfew hentries (hchooses current)
    exact ⟨d, hd.distance (hpos _ (hchooses current).mem), hjump⟩
  | @tblJump3 _ id hid hfew hC =>
    obtain ⟨rfl, js, js', hjs, hjs', hentries⟩ := hq.table_inv (.inr (.inr (.inr rfl))) hid
    simp only [jumpsOf, hC, Option.map_some, Option.some.injEq] at hjs
    subst hjs
    apply h.mainAt_table hF hcode (.inr (.inr (.inr rfl))) hbuf
    intro current _
    obtain ⟨d, hd, hjump⟩ :=
      exec_tblJump3 hC h.second.same hR hid hjs' hfew hentries (hchooses current)
    exact ⟨d, hd.distance (hpos _ (hchooses current).mem), hjump⟩

theorem PiecesAt.single (hat : PiecesAt F opt L₁ L pss k i main main' tail')
    (hi : ¬ (opt ∧ (i.op = .nop ∨ i.op = .label))) :
    ∃ p q pre post, main = [p] ∧ main' = [q] ∧ L.buf = pre ++ q.bytes ++ post ∧
      pre.length = place pss k ∧
      Patched L.table L.buf L₁.C L.C (pre.length + q.bytes.length) p q := by
  obtain ⟨op, operands, next⟩ := i
  obtain ⟨pre, post, hbuf, hpre⟩ := hat.buf
  have hbody := hat.body
  have hpatched := hat.patched
  obtain ⟨p, rfl⟩ : ∃ p, main = [p] := by
    cases hbody with
    | elided ho hop => exact absurd ⟨ho, hop⟩ hi
    | plain | first | tblJump1 | tblJump2 | tblJump3 => exact ⟨_, rfl⟩
  obtain ⟨q, rfl, hq⟩ : ∃ q, main' = [q] ∧
      Patched L.table L.buf L₁.C L.C (place pss k + p.bytes.length) p q := by
    cases hpatched with
    | cons hq hs =>
      cases hs
      exact ⟨_, rfl, hq⟩
  rw [← hq.length, ← hpre] at hq
  refine ⟨p, q, pre, tail'.flatMap Piece.bytes ++ post, rfl, rfl, ?_, hpre, hq⟩
  rw [hbuf]
  simp

theorem PiecesAt.mainAt (hat : PiecesAt F opt L₁ L pss k i main main' tail')
    (h : LoadedFile F opt L₁ L pss ps') (hF : F.WellFormed opt) (hcode : P.code = L.buf)
    (hR : RuntimeHas R L.C) (hi : F.insts[k]? = some i) (hpos : FirstPos i.op.shape i.operands) :
    MainAt P R opt L i (place pss k) (place pss k + (main'.flatMap Piece.bytes).length) := by
  obtain ⟨op, operands, next⟩ := i
  have hok := hF.insts _ (List.mem_of_getElem? hi)
  have hbody := hat.body
  by_cases helided : opt ∧ (op = .nop ∨ op = .label)
  · obtain ⟨ho, hop⟩ := helided
    have hmain : main = [] := by
      cases hbody with
      | elided => rfl
      | plain hf h => exact absurd ⟨ho, hop⟩ h
      | first | tblJump1 | tblJump2 | tblJump3 => exact absurd hop (by decide)
    subst hmain
    cases hat.patched
    exact .elided ho hop rfl
  obtain ⟨p, q, pre, post, rfl, rfl, hbuf, hpre, hq⟩ := hat.single helided
  have hlen : ([q].flatMap Piece.bytes).length = q.bytes.length := by simp
  rw [hlen, ← hpre]
  by_cases hf : op = .first
  · subst hf
    exact h.mainAt_first hF hcode hR hok.operands.1 hpos hbody hbuf hq
  · cases hbody with
    | plain _ _ =>
      exact h.mainAt_plain hF hcode hok.operands hf (fun hop ho => helided ⟨ho, .inr hop⟩) hbuf hq
    | first | tblJump1 | tblJump2 | tblJump3 => exact absurd rfl hf

end Find

end Moz.Bytecode
