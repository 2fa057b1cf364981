import Moz.Bytecode.FirstPass

/-!
# The second loop of the loader

A round patches the piece at its place: targets become distances to the places that
the table gives for them, and a `Jump` to a `Ret` becomes a `Ret`. The loop patches
each piece once and leaves the places as they are.
-/

namespace Moz.Bytecode

open LittleEndian

section Words

variable {code pre post : List UInt8}

theorem readInt32_middle {k : ℕ} (h : code = pre ++ encodeInt32 k ++ post) (hk : k < 2 ^ 31) :
    readInt32 code pre.length = k := by
  have hslice : slice code pre.length 4 = encodeInt32 k := by
    rw [h]
    have hmiddle := slice_append pre (encodeInt32 k) post
    rwa [encodeInt32_length] at hmiddle
  rw [readInt32_of_slice hslice, bmod_eq_iff]
  refine ⟨rfl, by omega, by omega⟩

theorem patch_middle {bs : List UInt8} {z : ℤ} (h : code = pre ++ bs ++ post)
    (hbs : bs.length = 4) :
    patch code pre.length (encodeInt32 z) = pre ++ encodeInt32 z ++ post := by
  have hdrop : (pre ++ bs ++ post).drop (pre.length + 4) = post := by
    rw [← hbs, ← List.length_append, List.drop_left]
  rw [h, patch, encodeInt32_length, hdrop, List.append_assoc pre bs, List.take_left]

theorem readAt_middle {id : ℕ} (h : code = pre ++ encode 2 id ++ post) (hid : id < 2 ^ 16) :
    readAt code pre.length 2 = id := by
  have hslice : slice code pre.length 2 = encode 2 id := by
    rw [h]
    have hmiddle := slice_append pre (encode 2 id) post
    rwa [encode_length] at hmiddle
  rw [readAt_of_slice hslice]
  exact Nat.mod_eq_of_lt hid

end Words

def jumpsOf (C : Constants) : MozOpcode → ℕ → Option (List ℤ)
  | .first, id => C.jumps[id]?
  | .tblJump1, id => C.jumps1[id]?.map JumpTable1.jumps
  | .tblJump2, id => C.jumps2[id]?.map JumpTable2.jumps
  | .tblJump3, id => C.jumps3[id]?.map JumpTable3.jumps
  | _, _ => none

/-- `C'` is `C` up to the targets of jump tables. -/
structure SameUpToJumps (C C' : Constants) : Prop where
  memoSize : C'.memoSize = C.memoSize
  prods : C'.prods = C.prods
  sets : C'.sets = C.sets
  strs : C'.strs = C.strs
  tags : C'.tags = C.tags
  tables : C'.tables = C.tables
  bits1 : C'.jumps1.map JumpTable1.b0 = C.jumps1.map JumpTable1.b0
  bits2 : C'.jumps2.map (fun t => (t.b0, t.b1)) = C.jumps2.map fun t => (t.b0, t.b1)
  bits3 : C'.jumps3.map (fun t => (t.b0, t.b1, t.b2)) = C.jumps3.map fun t => (t.b0, t.b1, t.b2)

namespace SameUpToJumps

theorem refl (C : Constants) : SameUpToJumps C C where
  memoSize := rfl
  prods := rfl
  sets := rfl
  strs := rfl
  tags := rfl
  tables := rfl
  bits1 := rfl
  bits2 := rfl
  bits3 := rfl

theorem trans {C C' C'' : Constants} (h : SameUpToJumps C C') (h' : SameUpToJumps C' C'') :
    SameUpToJumps C C'' where
  memoSize := h'.memoSize.trans h.memoSize
  prods := h'.prods.trans h.prods
  sets := h'.sets.trans h.sets
  strs := h'.strs.trans h.strs
  tags := h'.tags.trans h.tags
  tables := h'.tables.trans h.tables
  bits1 := h'.bits1.trans h.bits1
  bits2 := h'.bits2.trans h.bits2
  bits3 := h'.bits3.trans h.bits3

end SameUpToJumps

/-- The distance from `stop` to the place of the target `k`. -/
def Distance (table : List ℕ) (stop k : ℕ) (d : ℤ) : Prop :=
  ∃ addr, table[k]? = some addr ∧ d = (addr : ℤ) - stop

/-- What an entry of the table of `op` becomes; only a `First` has a target 0. -/
def EntryPatched (table : List ℕ) (stop : ℕ) (op : MozOpcode) (t d : ℤ) : Prop :=
  (op ≠ .first ∧ t = 0 ∧ d = 2 ^ 31 - 1) ∨
    ((op = .first ∨ t ≠ 0) ∧ ∃ k : ℕ, t = k ∧ Distance table stop k d)

/-- An entry of the table of `op` that is a target or none. -/
def EntryOk (target : ℕ → Prop) (op : MozOpcode) (t : ℤ) : Prop :=
  (op ≠ .first ∧ t = 0) ∨ ∃ k : ℕ, t = k ∧ target k

theorem bind_of_ok {α β : Type} {x : Except LoadError α} {a : α} (h : x = .ok a)
    (f : α → Except LoadError β) : (x >>= f) = f a := by
  rw [h]
  rfl

theorem exists_mapM {α β : Type} {f : α → Except LoadError β} {R : α → β → Prop} (l : List α)
    (h : ∀ a ∈ l, ∃ b, f a = .ok b ∧ R a b) : ∃ l', l.mapM f = .ok l' ∧ List.Forall₂ R l l' := by
  induction l with
  | nil => exact ⟨[], rfl, .nil⟩
  | cons a l ih =>
    obtain ⟨b, hb, hR⟩ := h a List.mem_cons_self
    obtain ⟨l', hl', hRs⟩ := ih fun a ha => h a (List.mem_cons_of_mem _ ha)
    refine ⟨b :: l', ?_, .cons hR hRs⟩
    rw [List.mapM_cons, hb, hl']
    rfl

section Tables

variable {L : Loader} {target : ℕ → Prop} {stop k : ℕ}

theorem tableAt_ok {addr : ℕ} (h : L.table[k]? = some addr) : L.tableAt k = .ok addr := by
  simp [Loader.tableAt, h]

theorem encodeJump_ok {op : MozOpcode} {t : ℤ} (hop : op ≠ .first)
    (htarget : ∀ k, target k → k < L.table.length) (h : EntryOk target op t) :
    ∃ d, L.encodeJump stop t = .ok d ∧ EntryPatched L.table stop op t d := by
  unfold Loader.encodeJump
  by_cases hzero : t = 0
  · rw [if_neg (not_not.2 hzero)]
    exact ⟨_, rfl, .inl ⟨hop, hzero, rfl⟩⟩
  · obtain ⟨-, h0⟩ | ⟨k, rfl, hk⟩ := h
    · exact absurd h0 hzero
    · have hget := List.getElem?_eq_getElem (htarget k hk)
      rw [if_pos hzero, tableAt_ok hget]
      exact ⟨_, rfl, .inr ⟨.inr hzero, k, rfl, _, hget, rfl⟩⟩

theorem tableOperand_ok {α : Type} {pool : List α} {id : ℕ} {table : α}
    (hread : readAt L.buf (stop - 2) 2 = id) (h : pool[id]? = some table) :
    tableOperand L pool stop = .ok (id, table) := by
  unfold tableOperand
  rw [hread, h]

/-- What patching the table `id` of `op` changes. -/
structure TablePatched (table : List ℕ) (stop : ℕ) (C C' : Constants) (op : MozOpcode) (id : ℕ)
    (js js' : List ℤ) : Prop where
  same : SameUpToJumps C C'
  patched : jumpsOf C' op id = some js'
  entries : List.Forall₂ (EntryPatched table stop op) js js'
  others : ∀ op' id', (op', id') ≠ (op, id) → jumpsOf C' op' id' = jumpsOf C op' id'

theorem map_set_same {α β : Type} {f : α → β} {l : List α} {n : ℕ} {a b : α} (h : l[n]? = some a)
    (hab : f b = f a) : (l.set n b).map f = l.map f := by
  rw [List.map_set, hab]
  apply List.ext_getElem?
  intro m
  by_cases hm : n = m
  · subst hm
    have hn : n < (l.map f).length := by simpa using (List.getElem?_eq_some_iff.1 h).1
    rw [List.getElem?_set_self hn, List.getElem?_map, h, Option.map_some]
  · rw [List.getElem?_set_ne hm]

theorem map_getElem?_set {α β : Type} (f : α → β) {l : List α} {n m : ℕ} {b : α} (h : n ≠ m) :
    (l.set n b)[m]?.map f = l[m]?.map f := by
  rw [List.getElem?_set_ne h]

theorem patchTable_ok {op : MozOpcode} {id j : ℕ} {js : List ℤ} (hop : IsTable op)
    (htarget : ∀ k, target k → k < L.table.length) (hjs : jumpsOf L.C op id = some js)
    (hok : ∀ t ∈ js, EntryOk target op t) (hread : readAt L.buf (stop - 2) 2 = id) :
    ∃ C' js', patchOperands L j stop op = .ok { L with C := C' } ∧
      TablePatched L.table stop L.C C' op id js js' := by
  obtain rfl | rfl | rfl | rfl := hop
  · obtain ⟨js', hmap, hpatched⟩ : ∃ js', js.mapM (fun t => do
        let addr ← L.tableAt t
        return (addr : ℤ) - stop) = .ok js' ∧
          List.Forall₂ (EntryPatched L.table stop .first) js js' := by
      apply exists_mapM
      intro t ht
      obtain ⟨hne, -⟩ | ⟨k, rfl, hk⟩ := hok t ht
      · exact absurd rfl hne
      · have hget := List.getElem?_eq_getElem (htarget k hk)
        rw [tableAt_ok hget]
        exact ⟨_, rfl, .inr ⟨.inl rfl, k, rfl, _, hget, rfl⟩⟩
    have hid : id < L.C.jumps.length := (List.getElem?_eq_some_iff.1 hjs).1
    refine ⟨{ L.C with jumps := L.C.jumps.set id js' }, js', ?_, ?_⟩
    · simp only [patchOperands, tableOperand_ok hread hjs, bind, Except.bind] at hmap ⊢
      rw [hmap]
      rfl
    · exact {
        same := { SameUpToJumps.refl L.C with }
        patched := List.getElem?_set_self hid
        entries := hpatched
        others := by
          intro op' id' hne
          cases op' with
          | first =>
            apply List.getElem?_set_ne
            rintro rfl
            exact hne rfl
          | _ => rfl }
  · obtain ⟨t, ht, rfl⟩ := Option.map_eq_some_iff.1 hjs
    obtain ⟨js', hmap, hpatched⟩ := exists_mapM t.jumps fun e he =>
      @encodeJump_ok L target stop .tblJump1 e (by decide) htarget (hok e he)
    have hid : id < L.C.jumps1.length := (List.getElem?_eq_some_iff.1 ht).1
    refine ⟨{ L.C with jumps1 := L.C.jumps1.set id { t with jumps := js' } }, js', ?_, ?_⟩
    · simp only [patchOperands, tableOperand_ok hread ht, bind, Except.bind, hmap]
      rfl
    · exact {
        same := { SameUpToJumps.refl L.C with bits1 := map_set_same ht rfl }
        patched := by
          simp only [jumpsOf]
          rw [List.getElem?_set_self hid]
          rfl
        entries := hpatched
        others := by
          intro op' id' hne
          cases op' with
          | tblJump1 =>
            apply map_getElem?_set
            rintro rfl
            exact hne rfl
          | _ => rfl }
  · obtain ⟨t, ht, rfl⟩ := Option.map_eq_some_iff.1 hjs
    obtain ⟨js', hmap, hpatched⟩ := exists_mapM t.jumps fun e he =>
      @encodeJump_ok L target stop .tblJump2 e (by decide) htarget (hok e he)
    have hid : id < L.C.jumps2.length := (List.getElem?_eq_some_iff.1 ht).1
    refine ⟨{ L.C with jumps2 := L.C.jumps2.set id { t with jumps := js' } }, js', ?_, ?_⟩
    · simp only [patchOperands, tableOperand_ok hread ht, bind, Except.bind, hmap]
      rfl
    · exact {
        same := { SameUpToJumps.refl L.C with bits2 := map_set_same ht rfl }
        patched := by
          simp only [jumpsOf]
          rw [List.getElem?_set_self hid]
          rfl
        entries := hpatched
        others := by
          intro op' id' hne
          cases op' with
          | tblJump2 =>
            apply map_getElem?_set
            rintro rfl
            exact hne rfl
          | _ => rfl }
  · obtain ⟨t, ht, rfl⟩ := Option.map_eq_some_iff.1 hjs
    obtain ⟨js', hmap, hpatched⟩ := exists_mapM t.jumps fun e he =>
      @encodeJump_ok L target stop .tblJump3 e (by decide) htarget (hok e he)
    have hid : id < L.C.jumps3.length := (List.getElem?_eq_some_iff.1 ht).1
    refine ⟨{ L.C with jumps3 := L.C.jumps3.set id { t with jumps := js' } }, js', ?_, ?_⟩
    · simp only [patchOperands, tableOperand_ok hread ht, bind, Except.bind, hmap]
      rfl
    · exact {
        same := { SameUpToJumps.refl L.C with bits3 := map_set_same ht rfl }
        patched := by
          simp only [jumpsOf]
          rw [List.getElem?_set_self hid]
          rfl
        entries := hpatched
        others := by
          intro op' id' hne
          cases op' with
          | tblJump3 =>
            apply map_getElem?_set
            rintro rfl
            exact hne rfl
          | _ => rfl }

end Tables

def EndsWithTarget (op : MozOpcode) : Prop := op = .alt ∨ op = .lookup ∨ op = .tLookup

instance : DecidablePred EndsWithTarget := fun op =>
  inferInstanceAs (Decidable (op = .alt ∨ op = .lookup ∨ op = .tLookup))

def IsQuiet (op : MozOpcode) : Prop :=
  ¬ EndsWithTarget op ∧ ¬ IsTable op ∧ op ≠ .jump ∧ op ≠ .call

instance : DecidablePred IsQuiet := fun op =>
  inferInstanceAs (Decidable (¬ EndsWithTarget op ∧ ¬ IsTable op ∧ op ≠ .jump ∧ op ≠ .call))

/-- A piece as the first loop leaves it: its targets satisfy `target`, that of a `Jump` satisfies
`code`. -/
inductive PieceOk (C : Constants) (target code : ℕ → Prop) : Piece → Prop
  | jump {k : ℕ} (h : code k) : PieceOk C target code (.jump k)
  | addr {op : MozOpcode} {pre : List UInt8} {k : ℕ} (hop : EndsWithTarget op)
      (hlen : pre.length + 4 = op.operandSize) (h : target k) :
      PieceOk C target code ⟨op, pre ++ encodeInt32 k⟩
  | call {next k : ℕ} (hnext : target next) (h : target k) :
      PieceOk C target code ⟨.call, encodeInt32 next ++ encodeInt32 k⟩
  | table {op : MozOpcode} {id : ℕ} {js : List ℤ} (hop : IsTable op) (hid : id < 2 ^ 16)
      (hjs : jumpsOf C op id = some js) (h : ∀ t ∈ js, EntryOk target op t) :
      PieceOk C target code (.table op id)
  | quiet {op : MozOpcode} {args : List UInt8} (hop : IsQuiet op)
      (hlen : args.length = op.operandSize) : PieceOk C target code ⟨op, args⟩

/-- What the second loop makes of a piece that ends at `stop`, when the buffer is `buf` and the
constants are `C'` at the end. -/
inductive Patched (table : List ℕ) (buf : List UInt8) (C C' : Constants) (stop : ℕ) :
    Piece → Piece → Prop
  | jump {k : ℕ} {d : ℤ} (h : Distance table stop k d) :
      Patched table buf C C' stop (.jump k) ⟨.jump, encodeInt32 d⟩
  | ret {k addr : ℕ} {d : ℤ} (h : Distance table stop k d) (hk : table[k]? = some addr)
      (hret : buf[addr]? = some MozOpcode.ret.toByte) :
      Patched table buf C C' stop (.jump k) ⟨.ret, encodeInt32 d⟩
  | addr {op : MozOpcode} {pre : List UInt8} {k : ℕ} {d : ℤ} (hop : EndsWithTarget op)
      (h : Distance table stop k d) :
      Patched table buf C C' stop ⟨op, pre ++ encodeInt32 k⟩ ⟨op, pre ++ encodeInt32 d⟩
  | call {next k : ℕ} {d d' : ℤ} (hnext : Distance table stop next d)
      (h : Distance table stop k d') :
      Patched table buf C C' stop ⟨.call, encodeInt32 next ++ encodeInt32 k⟩
        ⟨.call, encodeInt32 d ++ encodeInt32 d'⟩
  | table {op : MozOpcode} {id : ℕ} {js js' : List ℤ} (hop : IsTable op) (hid : id < 2 ^ 16)
      (hjs : jumpsOf C op id = some js) (hjs' : jumpsOf C' op id = some js')
      (h : List.Forall₂ (EntryPatched table stop op) js js') :
      Patched table buf C C' stop (.table op id) (.table op id)
  | quiet {p : Piece} (hop : IsQuiet p.op) : Patched table buf C C' stop p p

/-- Consecutive pieces from the place `start` on. -/
inductive PatchedFrom (table : List ℕ) (buf : List UInt8) (C C' : Constants) :
    ℕ → List Piece → List Piece → Prop
  | nil {start : ℕ} : PatchedFrom table buf C C' start [] []
  | cons {start : ℕ} {p p' : Piece} {ps ps' : List Piece}
      (h : Patched table buf C C' (start + p.bytes.length) p p')
      (hs : PatchedFrom table buf C C' (start + p.bytes.length) ps ps') :
      PatchedFrom table buf C C' start (p :: ps) (p' :: ps')

theorem Patched.length {table : List ℕ} {buf : List UInt8} {C C' : Constants} {stop : ℕ}
    {p p' : Piece} (h : Patched table buf C C' stop p p') : p'.bytes.length = p.bytes.length := by
  cases h <;> simp [Piece.jump]

theorem PieceOk.length {C : Constants} {target code : ℕ → Prop} {p : Piece}
    (h : PieceOk C target code p) : p.args.length = p.op.operandSize := by
  cases h with
  | jump h => rfl
  | addr hop hlen h => simpa using hlen
  | call hnext h => rfl
  | table hop hid hjs h =>
    obtain rfl | rfl | rfl | rfl := hop <;> rfl
  | quiet hop hlen => exact hlen

section Round

variable {L : Loader} {done rest : List UInt8} {p : Piece} {target code : ℕ → Prop}

theorem patchOperands_quiet {op : MozOpcode} (hop : IsQuiet op) (L : Loader) (j stop : ℕ) :
    patchOperands L j stop op = .ok L := by
  obtain ⟨htarget, htable, hjump, hcall⟩ := hop
  cases op with
  | jump => exact absurd rfl hjump
  | call => exact absurd rfl hcall
  | alt => exact absurd (.inl rfl) htarget
  | lookup => exact absurd (.inr (.inl rfl)) htarget
  | tLookup => exact absurd (.inr (.inr rfl)) htarget
  | first => exact absurd (.inl rfl) htable
  | tblJump1 => exact absurd (.inr (.inl rfl)) htable
  | tblJump2 => exact absurd (.inr (.inr (.inl rfl))) htable
  | tblJump3 => exact absurd (.inr (.inr (.inr rfl))) htable
  | _ => rfl

theorem patchRef_ok {pre post : List UInt8} {k addr stop back : ℕ}
    (hbuf : L.buf = pre ++ encodeInt32 k ++ post) (hk : k < 2 ^ 31)
    (hget : L.table[k]? = some addr) (hstop : stop - back = pre.length) :
    L.patchRef stop back =
      .ok { L with buf := pre ++ encodeInt32 ((addr : ℤ) - stop) ++ post } := by
  unfold Loader.patchRef
  rw [hstop, readInt32_middle hbuf hk, tableAt_ok hget]
  simp only [bind, Except.bind, pure, Except.pure]
  rw [patch_middle hbuf (encodeInt32_length _)]

theorem getOpcode_ok {j : ℕ} {b : UInt8} (h : L.buf[j]? = some b) : L.getOpcode j = .ok b := by
  simp [Loader.getOpcode, h]

theorem getElem?_outside {bs bs' : List UInt8} (hlen : bs'.length = bs.length) {n : ℕ}
    (h : n < done.length ∨ done.length + bs.length ≤ n) :
    (done ++ bs' ++ rest)[n]? = (done ++ bs ++ rest)[n]? := by
  rw [List.append_assoc, List.append_assoc]
  obtain h | h := h
  · rw [List.getElem?_append_left h, List.getElem?_append_left h]
  · rw [List.getElem?_append_right (by omega), List.getElem?_append_right (by omega),
      List.getElem?_append_right (by omega), List.getElem?_append_right (by omega), hlen]

theorem getElem?_opcode (done rest : List UInt8) (p : Piece) :
    (done ++ p.bytes ++ rest)[done.length]? = some p.op.toByte := by
  rw [List.append_assoc, List.getElem?_append_right le_rfl, Nat.sub_self]
  rfl

/-- No place is inside of the piece `p`. -/
def Outside (table : List ℕ) (start : ℕ) (p : Piece) : Prop :=
  ∀ addr ∈ table, addr ≤ start ∨ start + p.bytes.length ≤ addr

/-- What a round does to the loader at the piece `p`. -/
structure RoundDone (L L' : Loader) (done rest : List UInt8) (p p' : Piece) : Prop where
  buf : L'.buf = done ++ p'.bytes ++ rest
  table : L'.table = L.table
  instSize : L'.instSize = L.instSize
  same : SameUpToJumps L.C L'.C
  others : ∀ op id, p ≠ .table op id → jumpsOf L'.C op id = jumpsOf L.C op id
  patched : ∀ {C : Constants} {buf : List UInt8}, (∀ op id, IsTable op → p = .table op id →
    jumpsOf C op id = jumpsOf L'.C op id) →
    (∀ addr ∈ L.table, L'.buf[addr]? = some MozOpcode.ret.toByte →
      buf[addr]? = some MozOpcode.ret.toByte) →
    Patched L.table buf L.C C (done.length + p.bytes.length) p p'

theorem patchJump_ok {k : ℕ} (hbuf : L.buf = done ++ (Piece.jump k).bytes ++ rest)
    (hk : k < 2 ^ 31) {addr : ℕ} (hget : L.table[k]? = some addr) (haddr : addr < L.buf.length)
    (hout : Outside L.table done.length (.jump k)) :
    ∃ L' p', patchOperands L done.length (done.length + (Piece.jump k).bytes.length) .jump = .ok L' ∧
      RoundDone L L' done rest (.jump k) p' := by
  have hlen : (Piece.jump k).bytes.length = 5 := rfl
  have hword : L.buf = (done ++ [MozOpcode.jump.toByte]) ++ encodeInt32 k ++ rest := by
    rw [hbuf, Piece.jump, Piece.bytes]
    simp
  have hstop : done.length + (Piece.jump k).bytes.length - 4 =
      (done ++ [MozOpcode.jump.toByte]).length := by
    rw [hlen, List.length_append, List.length_singleton]
    rfl
  have hopcode := getOpcode_ok (List.getElem?_eq_getElem haddr)
  have hdistance : Distance L.table (done.length + (Piece.jump k).bytes.length) k
      ((addr : ℤ) - (done.length + (Piece.jump k).bytes.length : ℕ)) := ⟨addr, hget, rfl⟩
  simp only [patchOperands]
  rw [hstop, readInt32_middle hword hk, tableAt_ok hget]
  simp only [bind, Except.bind]
  rw [hopcode]
  simp only
  split_ifs with hret
  · have hset : L.buf.set done.length MozOpcode.ret.toByte =
        (done ++ [MozOpcode.ret.toByte]) ++ encodeInt32 k ++ rest := by
      rw [hword, List.append_assoc, List.append_assoc, List.set_append_right _ _ le_rfl,
        Nat.sub_self, List.append_assoc, List.append_assoc]
      rfl
    have hstop' : done.length + (Piece.jump k).bytes.length - 4 =
        (done ++ [MozOpcode.ret.toByte]).length := by
      rw [hstop, List.length_append, List.length_append]
      rfl
    rw [@patchRef_ok { L with buf := L.buf.set done.length MozOpcode.ret.toByte } _ _ _ _ _ _ hset
      hk hget hstop']
    refine ⟨_, ⟨.ret, encodeInt32 ((addr : ℤ) - (done.length + (Piece.jump k).bytes.length : ℕ))⟩,
      rfl, ?_⟩
    have hbuf' : (done ++ [MozOpcode.ret.toByte]) ++
        encodeInt32 ((addr : ℤ) - (done.length + (Piece.jump k).bytes.length : ℕ)) ++ rest =
        done ++ (⟨.ret, encodeInt32 ((addr : ℤ) -
          (done.length + (Piece.jump k).bytes.length : ℕ))⟩ : Piece).bytes ++ rest := by
      simp [Piece.bytes]
    exact {
      buf := hbuf'
      table := rfl
      instSize := rfl
      same := .refl _
      others := fun _ _ _ => rfl
      patched := by
        intro C buf _ hkeeps
        apply Patched.ret hdistance hget
        apply hkeeps addr (List.mem_of_getElem? hget)
        have hplace : L.buf[addr]? = some MozOpcode.ret.toByte := by
          rw [List.getElem?_eq_getElem haddr, hret]
        have hne : addr ≠ done.length := by
          rintro rfl
          rw [hbuf, getElem?_opcode] at hplace
          cases hplace
        have hside : addr < done.length ∨ done.length + (Piece.jump k).bytes.length ≤ addr := by
          have := hout addr (List.mem_of_getElem? hget)
          omega
        simp only
        rw [hbuf', getElem?_outside (by simp [Piece.jump]) hside, ← hbuf, hplace] }
  · rw [patchRef_ok hword hk hget hstop]
    refine ⟨_, ⟨.jump, encodeInt32 ((addr : ℤ) - (done.length + (Piece.jump k).bytes.length : ℕ))⟩,
      rfl, ?_⟩
    exact {
      buf := by simp [Piece.bytes]
      table := rfl
      instSize := rfl
      same := .refl _
      others := fun _ _ _ => rfl
      patched := fun _ _ => .jump hdistance }

theorem patchAddr_ok {op : MozOpcode} {pre : List UInt8} {k addr : ℕ} (hop : EndsWithTarget op)
    (hbuf : L.buf = done ++ (⟨op, pre ++ encodeInt32 k⟩ : Piece).bytes ++ rest) (hk : k < 2 ^ 31)
    (hget : L.table[k]? = some addr) {stop : ℕ} (hstop : stop = done.length + (pre.length + 5)) :
    ∃ L' p', patchOperands L done.length stop op = .ok L' ∧
      RoundDone L L' done rest ⟨op, pre ++ encodeInt32 k⟩ p' := by
  have hword : L.buf = (done ++ op.toByte :: pre) ++ encodeInt32 k ++ rest := by
    rw [hbuf, Piece.bytes]
    simp
  have hplace : stop - 4 = (done ++ op.toByte :: pre).length := by
    simp
    omega
  have hpatch := patchRef_ok hword hk hget hplace
  refine ⟨_, ⟨op, pre ++ encodeInt32 ((addr : ℤ) - stop)⟩, Eq.trans ?_ hpatch, ?_⟩
  · obtain rfl | rfl | rfl := hop <;> rfl
  · have hend : done.length + (⟨op, pre ++ encodeInt32 k⟩ : Piece).bytes.length = stop := by
      simp
      omega
    exact {
      buf := by simp [Piece.bytes]
      table := rfl
      instSize := rfl
      same := .refl _
      others := fun _ _ _ => rfl
      patched := fun _ _ => hend.symm ▸ .addr hop ⟨addr, hget, rfl⟩ }

theorem patchCall_ok {next k addr addr' : ℕ}
    (hbuf : L.buf = done ++ (⟨.call, encodeInt32 next ++ encodeInt32 k⟩ : Piece).bytes ++ rest)
    (hnext : next < 2 ^ 31) (hk : k < 2 ^ 31) (hgetNext : L.table[next]? = some addr)
    (hget : L.table[k]? = some addr') {stop : ℕ} (hstop : stop = done.length + 9) :
    ∃ L' p', patchOperands L done.length stop .call = .ok L' ∧
      RoundDone L L' done rest ⟨.call, encodeInt32 next ++ encodeInt32 k⟩ p' := by
  have hword : L.buf = (done ++ [MozOpcode.call.toByte]) ++ encodeInt32 next ++
      (encodeInt32 k ++ rest) := by
    rw [hbuf, Piece.bytes]
    simp
  have hplace : stop - 8 = (done ++ [MozOpcode.call.toByte]).length := by
    simp [hstop]
  have hpatchNext := patchRef_ok hword hnext hgetNext hplace
  have hplace' : stop - 4 =
      ((done ++ [MozOpcode.call.toByte]) ++ encodeInt32 ((addr : ℤ) - stop)).length := by
    simp [hstop]
  have hpatch := @patchRef_ok
    { L with
      buf := (done ++ [MozOpcode.call.toByte]) ++ encodeInt32 ((addr : ℤ) - stop) ++
        (encodeInt32 k ++ rest) }
    _ rest k addr' stop 4 (by simp) hk hget hplace'
  refine ⟨_, ⟨.call, encodeInt32 ((addr : ℤ) - stop) ++ encodeInt32 ((addr' : ℤ) - stop)⟩,
    Eq.trans ?_ hpatch, ?_⟩
  · simp only [patchOperands]
    exact bind_of_ok hpatchNext _
  · have hend : done.length +
        (⟨.call, encodeInt32 next ++ encodeInt32 k⟩ : Piece).bytes.length = stop := by
      simp [hstop]
    exact {
      buf := by simp [Piece.bytes]
      table := rfl
      instSize := rfl
      same := .refl _
      others := fun _ _ _ => rfl
      patched := fun _ _ => hend.symm ▸ .call ⟨addr, hgetNext, rfl⟩ ⟨addr', hget, rfl⟩ }

theorem patchOperands_ok (hok : PieceOk L.C target code p)
    (hbuf : L.buf = done ++ p.bytes ++ rest) (htarget : ∀ k, target k → k < L.table.length)
    (hcode : ∀ k, code k → ∃ addr, L.table[k]? = some addr ∧ addr < L.buf.length)
    (hsmall : L.table.length < 2 ^ 31) (hout : Outside L.table done.length p) :
    ∃ L' p', patchOperands L done.length (done.length + p.bytes.length) p.op = .ok L' ∧
      RoundDone L L' done rest p p' := by
  cases hok with
  | @jump k h =>
    obtain ⟨addr, hget, haddr⟩ := hcode k h
    have hk : k < L.table.length := (List.getElem?_eq_some_iff.1 hget).1
    exact patchJump_ok hbuf (hk.trans hsmall) hget haddr hout
  | @addr op pre k hop hlen h =>
    have hk := htarget k h
    exact patchAddr_ok hop hbuf (hk.trans hsmall) (List.getElem?_eq_getElem hk) (by simp)
  | @call next k hnext h =>
    have hnext := htarget next hnext
    have hk := htarget k h
    exact patchCall_ok hbuf (hnext.trans hsmall) (hk.trans hsmall) (List.getElem?_eq_getElem hnext)
      (List.getElem?_eq_getElem hk) (by simp)
  | @table op id js hop hid hjs h =>
    have hword : L.buf = (done ++ [op.toByte]) ++ encode 2 id ++ rest := by
      rw [hbuf, Piece.bytes]
      simp [Piece.table]
    have hread : readAt L.buf (done.length + (Piece.table op id).bytes.length - 2) 2 = id := by
      have hmiddle := readAt_middle hword hid
      rwa [List.length_append, List.length_singleton] at hmiddle
    obtain ⟨C', js', hpatch, htable⟩ := patchTable_ok hop htarget hjs h hread
    refine ⟨_, .table op id, hpatch, ?_⟩
    exact {
      buf := hbuf
      table := rfl
      instSize := rfl
      same := htable.same
      others := by
        intro op' id' hne
        apply htable.others
        rintro ⟨⟩
        exact hne rfl
      patched := by
        intro C buf hC _
        exact .table hop hid hjs ((hC op id hop rfl).trans htable.patched) htable.entries }
  | @quiet op args hop hlen =>
    refine ⟨L, ⟨op, args⟩, patchOperands_quiet hop L _ _, ?_⟩
    exact {
      buf := hbuf
      table := rfl
      instSize := rfl
      same := .refl _
      others := fun _ _ _ => rfl
      patched := fun _ _ => .quiet hop }

theorem patchRound_ok (hok : PieceOk L.C target code p)
    (hbuf : L.buf = done ++ p.bytes ++ rest) (htarget : ∀ k, target k → k < L.table.length)
    (hcode : ∀ k, code k → ∃ addr, L.table[k]? = some addr ∧ addr < L.buf.length)
    (hsmall : L.table.length < 2 ^ 31) (hout : Outside L.table done.length p) :
    ∃ L' p', patchRound L done.length = .ok (L', ((done.length + p.bytes.length : ℕ) : ℤ)) ∧
      RoundDone L L' done rest p p' := by
  obtain ⟨L', p', hpatch, hround⟩ := patchOperands_ok hok hbuf htarget hcode hsmall hout
  refine ⟨L', p', ?_, hround⟩
  have hopcode : L.getOpcode done.length = .ok p.op.toByte := by
    apply getOpcode_ok
    rw [hbuf, getElem?_opcode]
  have hshift : p.bytes.length = p.op.operandSize + 1 := by rw [Piece.bytes_length, hok.length]
  have hend : ¬ L.buf.length < done.length + (p.op.operandSize + 1) := by
    rw [hbuf, List.length_append, List.length_append, hshift]
    omega
  rw [hshift] at hpatch ⊢
  unfold patchRound
  simp only [hopcode, bind, Except.bind, mozvm1OpcodeSize, MozOpcode.ofByte_toByte,
    Option.map_some, Int.toNat_natCast, hend, if_false, hpatch, pure, Except.pure]
  rfl

end Round

theorem PieceOk.congr {C C' : Constants} {target code : ℕ → Prop} {p : Piece}
    (h : PieceOk C target code p)
    (hC : ∀ op id, IsTable op → p = .table op id → jumpsOf C' op id = jumpsOf C op id) :
    PieceOk C' target code p := by
  cases h with
  | jump h => exact .jump h
  | addr hop hlen h => exact .addr hop hlen h
  | call hnext h => exact .call hnext h
  | table hop hid hjs h => exact .table hop hid ((hC _ _ hop rfl).trans hjs) h
  | quiet hop hlen => exact .quiet hop hlen

section Run

variable {table : List ℕ} {buf : List UInt8} {C C' D : Constants}

theorem Patched.congr {stop : ℕ} {p p' : Piece} (h : Patched table buf C C' stop p p')
    (hC : ∀ op id, IsTable op → p = .table op id → jumpsOf D op id = jumpsOf C op id) :
    Patched table buf D C' stop p p' := by
  cases h with
  | jump h => exact .jump h
  | ret h hk hret => exact .ret h hk hret
  | addr hop h => exact .addr hop h
  | call hnext h => exact .call hnext h
  | table hop hid hjs hjs' h => exact .table hop hid ((hC _ _ hop rfl).trans hjs) hjs' h
  | quiet hop => exact .quiet hop

theorem PatchedFrom.congr {start : ℕ} {ps ps' : List Piece}
    (h : PatchedFrom table buf C C' start ps ps')
    (hC : ∀ op id, IsTable op → .table op id ∈ ps → jumpsOf D op id = jumpsOf C op id) :
    PatchedFrom table buf D C' start ps ps' := by
  induction h with
  | nil => exact .nil
  | cons h _ ih =>
    apply PatchedFrom.cons
    · apply h.congr
      rintro op id hop rfl
      exact hC op id hop List.mem_cons_self
    · exact ih fun op id hop hmem => hC op id hop (List.mem_cons_of_mem _ hmem)

theorem Patched.op_of_ret {stop : ℕ} {p p' : Piece} (h : Patched table buf C C' stop p p')
    (hret : p.op = .ret) : p'.op = .ret := by
  cases h with
  | jump h => cases hret
  | ret h hk hret' => rfl
  | addr hop h => exact hret
  | call hnext h => exact hret
  | table hop hid hjs hjs' h => exact hret
  | quiet hop => exact hret

theorem toByte_injective : Function.Injective MozOpcode.toByte := by
  intro op op' h
  have hsome := congrArg MozOpcode.ofByte h
  rw [MozOpcode.ofByte_toByte, MozOpcode.ofByte_toByte] at hsome
  exact Option.some.inj hsome

end Run

def Distinct (p q : Piece) : Prop :=
  ∀ op id, IsTable op → p = .table op id → q ≠ .table op id

/-- A place up to `start` or at the start of one of the pieces behind it. -/
def Boundary (start : ℕ) (ps : List Piece) (addr : ℕ) : Prop :=
  addr ≤ start ∨ ∃ n, addr = start + ((ps.take n).flatMap Piece.bytes).length

theorem Boundary.outside {start addr : ℕ} {p : Piece} {ps : List Piece}
    (h : Boundary start (p :: ps) addr) : addr ≤ start ∨ start + p.bytes.length ≤ addr := by
  obtain h | ⟨n, rfl⟩ := h
  · exact .inl h
  · cases n with
    | zero => exact .inl (by simp)
    | succ n =>
      right
      rw [List.take_succ_cons, List.flatMap_cons, List.length_append]
      omega

theorem Boundary.next {start addr : ℕ} {p : Piece} {ps : List Piece}
    (h : Boundary start (p :: ps) addr) : Boundary (start + p.bytes.length) ps addr := by
  obtain h | ⟨n, rfl⟩ := h
  · exact .inl (by omega)
  · cases n with
    | zero => exact .inl (by simp)
    | succ n =>
      right
      refine ⟨n, ?_⟩
      rw [List.take_succ_cons, List.flatMap_cons, List.length_append, Nat.add_assoc]

theorem RoundDone.keeps {L L' : Loader} {done rest : List UInt8} {p p' : Piece}
    (h : RoundDone L L' done rest p p') (hbuf : L.buf = done ++ p.bytes ++ rest)
    (hout : Outside L.table done.length p) {addr : ℕ} (hmem : addr ∈ L.table)
    (hret : L.buf[addr]? = some MozOpcode.ret.toByte) :
    L'.buf[addr]? = some MozOpcode.ret.toByte := by
  have hpatched := h.patched (fun _ _ _ _ => rfl) fun _ _ => id
  rw [h.buf]
  rw [hbuf] at hret
  by_cases heq : addr = done.length
  · subst heq
    rw [getElem?_opcode] at hret ⊢
    rw [hpatched.op_of_ret (toByte_injective (Option.some.inj hret))]
  · have hside : addr < done.length ∨ done.length + p.bytes.length ≤ addr := by
      have := hout addr hmem
      omega
    rw [getElem?_outside hpatched.length hside, hret]

/-- What the second loop does to the pieces `ps` behind `done`. -/
structure LoopDone (L L' : Loader) (done : List UInt8) (ps ps' : List Piece) : Prop where
  buf : L'.buf = done ++ ps'.flatMap Piece.bytes
  table : L'.table = L.table
  same : SameUpToJumps L.C L'.C
  others : ∀ op id, .table op id ∉ ps → jumpsOf L'.C op id = jumpsOf L.C op id
  keeps : ∀ addr ∈ L.table, L.buf[addr]? = some MozOpcode.ret.toByte →
    L'.buf[addr]? = some MozOpcode.ret.toByte
  patched : PatchedFrom L.table L'.buf L.C L'.C done.length ps ps'

theorem patchLoop_ok {target code : ℕ → Prop} (ps : List Piece) {L : Loader} {done : List UInt8}
    {rounds : ℕ} (hok : ∀ p ∈ ps, PieceOk L.C target code p) (hdistinct : ps.Pairwise Distinct)
    (hbuf : L.buf = done ++ ps.flatMap Piece.bytes) (htarget : ∀ k, target k → k < L.table.length)
    (hcode : ∀ k, code k → ∃ addr, L.table[k]? = some addr ∧ addr < L.buf.length)
    (hsmall : L.table.length < 2 ^ 31) (hplaces : ∀ addr ∈ L.table, Boundary done.length ps addr)
    (hrounds : ps.length < rounds) :
    ∃ L' ps', patchLoop rounds L done.length = .ok L' ∧ LoopDone L L' done ps ps' := by
  induction ps generalizing L done rounds with
  | nil =>
    obtain ⟨rounds, rfl⟩ := Nat.exists_eq_succ_of_ne_zero (Nat.ne_zero_of_lt hrounds)
    have hend : ¬ (done.length : ℤ) < L.buf.length := by
      rw [hbuf]
      simp
    rw [patchLoop, if_neg hend]
    refine ⟨L, [], rfl, ?_⟩
    exact {
      buf := hbuf
      table := rfl
      same := .refl _
      others := fun _ _ _ => rfl
      keeps := fun _ _ => id
      patched := .nil }
  | cons p ps ih =>
    obtain ⟨rounds, rfl⟩ := Nat.exists_eq_succ_of_ne_zero (Nat.ne_zero_of_lt hrounds)
    rw [List.flatMap_cons, ← List.append_assoc] at hbuf
    have hmore : (done.length : ℤ) < L.buf.length := by
      rw [hbuf, List.length_append, List.length_append, Piece.bytes_length]
      omega
    have hout : Outside L.table done.length p := fun addr hmem => (hplaces addr hmem).outside
    obtain ⟨L₁, p', hround, h₁⟩ := patchRound_ok (hok p List.mem_cons_self) hbuf htarget hcode hsmall
      hout
    have hpatched := h₁.patched (fun _ _ _ _ => rfl) fun _ _ => id
    have hlen : (done ++ p'.bytes).length = done.length + p.bytes.length := by
      rw [List.length_append, hpatched.length]
    have hsize : L₁.buf.length = L.buf.length := by
      rw [h₁.buf, hbuf]
      simp only [List.length_append, hpatched.length]
    obtain ⟨hfirst, hrest⟩ := List.pairwise_cons.1 hdistinct
    have hunchanged : ∀ q ∈ ps, ∀ op id, IsTable op → q = .table op id →
        jumpsOf L₁.C op id = jumpsOf L.C op id := by
      rintro q hq op id hop rfl
      apply h₁.others
      intro heq
      exact hfirst _ hq op id hop heq rfl
    obtain ⟨L', ps', hloop, h'⟩ := @ih L₁ (done ++ p'.bytes) rounds
      (fun q hq => (hok q (List.mem_cons_of_mem _ hq)).congr (hunchanged q hq)) hrest h₁.buf
      (h₁.table ▸ htarget) (h₁.table ▸ hsize ▸ hcode) (h₁.table ▸ hsmall)
      (by
        rw [h₁.table, hlen]
        exact fun addr hmem => (hplaces addr hmem).next)
      (Nat.lt_of_succ_lt_succ hrounds)
    rw [hlen] at hloop
    rw [patchLoop, if_pos hmore, hround]
    refine ⟨L', p' :: ps', hloop, ?_⟩
    exact {
      buf := by rw [h'.buf, List.flatMap_cons, List.append_assoc]
      table := h'.table.trans h₁.table
      same := h₁.same.trans h'.same
      others := by
        intro op id hmem
        rw [List.mem_cons, not_or] at hmem
        rw [h'.others op id hmem.2, h₁.others op id (Ne.symm hmem.1)]
      keeps := fun addr hmem hret =>
        h'.keeps addr (h₁.table ▸ hmem) (h₁.keeps hbuf hout hmem hret)
      patched := by
        apply PatchedFrom.cons
        · apply h₁.patched
          · rintro op id hop rfl
            exact h'.others op id fun hmem => hfirst _ hmem op id hop rfl rfl
          · rw [← h₁.table]
            exact h'.keeps
        · have hpatched' := h'.patched
          rw [hlen, h₁.table] at hpatched'
          apply hpatched'.congr
          intro op id hop hmem
          exact (hunchanged _ hmem op id hop rfl).symm }

end Moz.Bytecode
