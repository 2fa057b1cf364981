import Moz.Bytecode.Reading

/-!
# The first pass

What the first loop of `mozvm_loader_load` makes of a list of instructions: the
buffer in which each instruction has its place, and the table of the places.
-/

namespace Moz.Bytecode

open LittleEndian

def writeOperands (L : Loader) (opt : Bool) : (s : Shape) → s.Operands → Loader
  | .plain, _ | .label, _ => L
  | .ret, _ => L.writeAddr 0
  | .addr, k | .jump, k => L.writeAddr k
  | .call, (next, _, jump) => (L.writeAddr next).writeAddr jump
  | .char, ch => L.write8 ch
  | .str, id | .set, id | .tag, id | .tbl, id => L.write16 id
  | .fold, (shift, id) => (L.write8 shift).write16 id
  | .first, table => loadFirst L (table.map Nat.cast) opt
  | .lookup, (state, memoId, skip) => ((L.write8 state).write16 memoId).writeAddr skip
  | .memo, (state, memoId) => (L.write8 state).write16 memoId
  | .tLookup, (state, memoId, skip, id) =>
    (((L.write8 state).write16 id).write16 memoId).writeAddr skip
  | .isDef, (tbl, id) => (L.write16 tbl).write16 id

/-- The production that a `Label` begins. -/
def labelOf : (s : Shape) → s.Operands → ℕ
  | .label, label => label
  | _, _ => 0

theorem checkId_ok {α : Type} {pool : List α} {id : ℕ} (h : id < pool.length) :
    checkId pool id = .ok () := if_pos h

/-- The pools are small enough for ids of 16 bits. -/
structure SmallPools (C : Constants) : Prop where
  strs : C.strs.length < 2 ^ 16
  sets : C.sets.length < 2 ^ 16
  tags : C.tags.length < 2 ^ 16
  tables : C.tables.length < 2 ^ 16
  prods : C.prods.length < 2 ^ 16

section Operands

variable {L : Loader} {is : InputStream} {rest : List UInt8} {hasJump opt : Bool}

/-- What is made of an instruction by `loadOperands`. -/
def Loads (L : Loader) (is : InputStream) (hasJump opt : Bool) (op : MozOpcode)
    (operands : op.shape.Operands) : Prop :=
  loadOperands L is hasJump opt (some op) = .ok {
    L := writeOperands L opt op.shape operands
    is := skip is (encodeOperands op.shape operands).length
    hasJump := if op = .jump ∨ op = .call then false else hasJump
    prod := labelOf op.shape operands }

/-- An index into a pool. -/
theorem loadId_ok {α : Type} {pool : List α} {id : ℕ} (hid : id < pool.length)
    (hpool : pool.length < 2 ^ 16) (hrest : is.rest = word16 id ++ rest) :
    (do
      let x ← read16 is
      checkId pool x.1
      return ({ L := L.write16 x.1, is := x.2, hasJump := hasJump } : LoadInst)) =
      .ok { L := L.write16 id, is := skip is (word16 id).length, hasJump := hasJump } := by
  have hread := ((reads_read16 (hid.trans hpool)).step hrest fun x => do
    checkId pool x.1
    return ({ L := L.write16 x.1, is := x.2, hasJump := hasJump } : LoadInst)).1
  rw [checkId_ok hid] at hread
  exact hread

theorem loads_call {operands : MozOpcode.call.shape.Operands}
    (hok : OperandsOk L.C (fun k => k < 2 ^ 24) (fun k => k < 2 ^ 24) MozOpcode.call.shape operands)
    (hrest : is.rest = encodeOperands MozOpcode.call.shape operands ++ rest) :
    Loads L is hasJump opt .call operands := by
  obtain ⟨next, prod, jump⟩ := operands
  obtain ⟨hnext, hprod, hjump⟩ := hok
  simp only [MozOpcode.shape, encodeOperands, List.append_assoc] at hrest
  obtain ⟨h1, hrest1⟩ := (reads_read24 hnext).step hrest fun x => do
    let y ← read16 x.2
    let z ← read24 y.2
    return ({ L := (L.writeAddr x.1).writeAddr z.1, is := z.2, hasJump := false } : LoadInst)
  obtain ⟨h2, hrest2⟩ := (reads_read16 hprod).step hrest1 fun x => do
    let y ← read24 x.2
    return ({ L := (L.writeAddr next).writeAddr y.1, is := y.2, hasJump := false } : LoadInst)
  obtain ⟨h3, -⟩ := (reads_read24 hjump).step hrest2 fun x => return ({
    L := (L.writeAddr next).writeAddr x.1, is := x.2, hasJump := false } : LoadInst)
  exact h1.trans (h2.trans h3)

theorem loads_lookup {operands : MozOpcode.lookup.shape.Operands}
    (hok : OperandsOk L.C (fun k => k < 2 ^ 24) (fun k => k < 2 ^ 24) MozOpcode.lookup.shape operands)
    (hrest : is.rest = encodeOperands MozOpcode.lookup.shape operands ++ rest) :
    Loads L is hasJump opt .lookup operands := by
  obtain ⟨state, memoId, target⟩ := operands
  obtain ⟨hmemo, htarget⟩ := hok
  simp only [MozOpcode.shape, encodeOperands, List.cons_append, List.append_assoc] at hrest
  obtain ⟨h1, hrest1⟩ := (reads_read8 state).step hrest fun x => do
    let y ← read32 x.2
    let z ← read24 y.2
    return ({
      L := ((L.write8 x.1).write16 y.1).writeAddr z.1
      is := z.2, hasJump := hasJump } : LoadInst)
  obtain ⟨h2, hrest2⟩ := (reads_read32 hmemo).step hrest1 fun x => do
    let y ← read24 x.2
    return ({
      L := ((L.write8 state).write16 x.1).writeAddr y.1
      is := y.2, hasJump := hasJump } : LoadInst)
  obtain ⟨h3, -⟩ := (reads_read24 htarget).step hrest2 fun x => return ({
    L := ((L.write8 state).write16 memoId).writeAddr x.1
    is := x.2, hasJump := hasJump } : LoadInst)
  exact h1.trans (h2.trans h3)

theorem loads_tLookup {operands : MozOpcode.tLookup.shape.Operands} (hC : SmallPools L.C)
    (hok : OperandsOk L.C (fun k => k < 2 ^ 24) (fun k => k < 2 ^ 24) MozOpcode.tLookup.shape operands)
    (hrest : is.rest = encodeOperands MozOpcode.tLookup.shape operands ++ rest) :
    Loads L is hasJump opt .tLookup operands := by
  obtain ⟨state, memoId, target, id⟩ := operands
  obtain ⟨hmemo, htarget, hid⟩ := hok
  simp only [MozOpcode.shape, encodeOperands, List.cons_append, List.append_assoc] at hrest
  obtain ⟨h1, hrest1⟩ := (reads_read8 state).step hrest fun x => do
    let y ← read32 x.2
    let z ← read24 y.2
    let w ← read16 z.2
    checkId L.C.tags w.1
    return ({
      L := (((L.write8 x.1).write16 w.1).write16 y.1).writeAddr z.1
      is := w.2, hasJump := hasJump } : LoadInst)
  obtain ⟨h2, hrest2⟩ := (reads_read32 hmemo).step hrest1 fun x => do
    let y ← read24 x.2
    let z ← read16 y.2
    checkId L.C.tags z.1
    return ({
      L := (((L.write8 state).write16 z.1).write16 x.1).writeAddr y.1
      is := z.2, hasJump := hasJump } : LoadInst)
  obtain ⟨h3, hrest3⟩ := (reads_read24 htarget).step hrest2 fun x => do
    let y ← read16 x.2
    checkId L.C.tags y.1
    return ({
      L := (((L.write8 state).write16 y.1).write16 memoId).writeAddr x.1
      is := y.2, hasJump := hasJump } : LoadInst)
  obtain ⟨h4, -⟩ := (reads_read16 (hid.trans hC.tags)).step hrest3 fun x => do
    checkId L.C.tags x.1
    return ({
      L := (((L.write8 state).write16 x.1).write16 memoId).writeAddr target
      is := x.2, hasJump := hasJump } : LoadInst)
  rw [checkId_ok hid] at h4
  exact h1.trans (h2.trans (h3.trans h4))

theorem loads_sIsDef {operands : MozOpcode.sIsDef.shape.Operands} (hC : SmallPools L.C)
    (hok : OperandsOk L.C (fun k => k < 2 ^ 24) (fun k => k < 2 ^ 24) MozOpcode.sIsDef.shape operands)
    (hrest : is.rest = encodeOperands MozOpcode.sIsDef.shape operands ++ rest) :
    Loads L is hasJump opt .sIsDef operands := by
  obtain ⟨tbl, id⟩ := operands
  obtain ⟨htbl, hid⟩ := hok
  simp only [MozOpcode.shape, encodeOperands, List.append_assoc] at hrest
  obtain ⟨h1, hrest1⟩ := (reads_read16 (htbl.trans hC.tables)).step hrest fun x => do
    let y ← read16 x.2
    checkId L.C.tables x.1
    checkId L.C.strs y.1
    return ({ L := (L.write16 x.1).write16 y.1, is := y.2, hasJump := hasJump } : LoadInst)
  obtain ⟨h2, -⟩ := (reads_read16 (hid.trans hC.strs)).step hrest1 fun x => do
    checkId L.C.tables tbl
    checkId L.C.strs x.1
    return ({ L := (L.write16 tbl).write16 x.1, is := x.2, hasJump := hasJump } : LoadInst)
  refine h1.trans (h2.trans ?_)
  simp only [checkId_ok htbl, checkId_ok hid]
  rfl

theorem loadOperands_ok (op : MozOpcode) (operands : op.shape.Operands) (hC : SmallPools L.C)
    (hok : OperandsOk L.C (fun k => k < 2 ^ 24) (fun k => k < 2 ^ 24) op.shape operands)
    (hrest : is.rest = encodeOperands op.shape operands ++ rest) :
    Loads L is hasJump opt op operands := by
  cases op with
  | tblJump1 | tblJump2 | tblJump3 | tAbort | sDefNum | sCount => cases operands
  | nop | fail | succ | pos | back | skip | any | nAny | oAny | rAny | tPush | tStart | sOpen
  | sClose | ret => rfl
  | alt =>
    exact ((reads_read24 hok).step hrest fun x => return ({
      L := L.writeAddr x.1, is := x.2, hasJump := hasJump } : LoadInst)).1
  | jump =>
    exact ((reads_read24 hok).step hrest fun x => return ({
      L := L.writeAddr x.1, is := x.2, hasJump := false } : LoadInst)).1
  | byte | nByte | oByte | rByte | consume | tNew | tCapture | exit =>
    exact ((reads_read8 operands).step hrest fun x => return ({
      L := L.write8 x.1, is := x.2, hasJump := hasJump } : LoadInst)).1
  | str | nStr | oStr | rStr | tReplace => exact loadId_ok hok hC.strs hrest
  | set | nSet | oSet | rSet => exact loadId_ok hok hC.sets hrest
  | tPop | tTag | tCommit => exact loadId_ok hok hC.tags hrest
  | sMask | sDef | sExists | sMatch | sIs | sIsa => exact loadId_ok hok hC.tables hrest
  | label =>
    exact ((reads_read16 (hok.trans hC.prods)).step hrest fun x => return ({
      L := L, is := x.2, hasJump := hasJump, prod := x.1 } : LoadInst)).1
  | call => exact loads_call hok hrest
  | tLeftFold =>
    obtain ⟨shift, id⟩ := operands
    have hrest0 : is.rest = [shift] ++ (word16 id ++ rest) := hrest
    obtain ⟨h1, hrest1⟩ := (reads_read8 shift).step hrest0 fun x => do
      let y ← read16 x.2
      checkId L.C.tags y.1
      return ({ L := (L.write8 x.1).write16 y.1, is := y.2, hasJump := hasJump } : LoadInst)
    obtain ⟨h2, -⟩ := (reads_read16 (hok.trans hC.tags)).step hrest1 fun x => do
      checkId L.C.tags x.1
      return ({ L := (L.write8 shift).write16 x.1, is := x.2, hasJump := hasJump } : LoadInst)
    rw [checkId_ok hok] at h2
    exact h1.trans h2
  | first =>
    obtain ⟨hlen, htable⟩ := hok
    have hreads := reads_readTimes operands fun k hk => reads_read24 (htable k hk)
    rw [hlen] at hreads
    exact (hreads.step hrest fun x => return ({
      L := loadFirst L (x.1.map Nat.cast) opt, is := x.2, hasJump := hasJump } :
        LoadInst)).1
  | lookup => exact loads_lookup hok hrest
  | memo | memoFail | tMemo =>
    obtain ⟨state, memoId⟩ := operands
    have hrest0 : is.rest = [state] ++ (word32 memoId ++ rest) := hrest
    obtain ⟨h1, hrest1⟩ := (reads_read8 state).step hrest0 fun x => do
      let y ← read32 x.2
      return ({ L := (L.write8 x.1).write16 y.1, is := y.2, hasJump := hasJump } : LoadInst)
    obtain ⟨h2, -⟩ := (reads_read32 hok).step hrest1 fun x => return ({
      L := (L.write8 state).write16 x.1, is := x.2, hasJump := hasJump } : LoadInst)
    exact h1.trans h2
  | tLookup => exact loads_tLookup hC hok hrest
  | sIsDef => exact loads_sIsDef hC hok hrest

end Operands

/-- An opcode of the buffer and the bytes of its operands. -/
structure Piece where
  op : MozOpcode
  args : List UInt8

namespace Piece

def bytes (p : Piece) : List UInt8 := p.op.toByte :: p.args

@[simp] theorem bytes_length (p : Piece) : p.bytes.length = p.args.length + 1 := rfl

/-- The piece that a jump to `k` becomes. -/
def jump (k : ℕ) : Piece := ⟨.jump, encodeInt32 k⟩

def table (op : MozOpcode) (id : ℕ) : Piece := ⟨op, encode 2 id⟩

end Piece

def operandBytes : (s : Shape) → s.Operands → List UInt8
  | .plain, _ | .label, _ | .first, _ => []
  | .ret, _ => encodeInt32 0
  | .addr, k | .jump, k => encodeInt32 k
  | .call, (next, _, jump) => encodeInt32 next ++ encodeInt32 jump
  | .char, ch => [ch]
  | .str, id | .set, id | .tag, id | .tbl, id => encode 2 id
  | .fold, (shift, id) => shift :: encode 2 id
  | .lookup, (state, memoId, skip) => state :: encode 2 memoId ++ encodeInt32 skip
  | .memo, (state, memoId) => state :: encode 2 memoId
  | .tLookup, (state, memoId, skip, id) =>
    state :: encode 2 id ++ encode 2 memoId ++ encodeInt32 skip
  | .isDef, (tbl, id) => encode 2 tbl ++ encode 2 id

theorem operandBytes_length {op : MozOpcode} (h : op ≠ .first) (operands : op.shape.Operands) :
    (operandBytes op.shape operands).length = op.operandSize := by
  cases op with
  | tblJump1 | tblJump2 | tblJump3 | tAbort | sDefNum | sCount => cases operands
  | first => exact absurd rfl h
  | _ => rfl

theorem writeOperands_eq {L : Loader} {opt : Bool} {op : MozOpcode} (h : op ≠ .first)
    (operands : op.shape.Operands) :
    writeOperands L opt op.shape operands =
      { L with buf := L.buf ++ operandBytes op.shape operands } := by
  cases op with
  | tblJump1 | tblJump2 | tblJump3 | tAbort | sDefNum | sCount => cases operands
  | first => exact absurd rfl h
  | nop | fail | succ | pos | back | skip | any | nAny | oAny | rAny | tPush | tStart | sOpen
  | sClose | label =>
    simp only [MozOpcode.shape, writeOperands, operandBytes, List.append_nil]
  | call | tLeftFold | memo | memoFail | tMemo | lookup | sIsDef | tLookup =>
    obtain ⟨_, _⟩ := operands
    simp [MozOpcode.shape, writeOperands, operandBytes, Loader.write8, Loader.write16,
      Loader.writeAddr]
  | _ => rfl

/-- What the operation of an instruction becomes, with jump tables from `C`. A `First` without
repetitions in its table becomes one of the jumps by bits. -/
inductive Body (opt : Bool) (C : Constants) :
    (op : MozOpcode) → op.shape.Operands → List Piece → Prop
  | elided {op : MozOpcode} {operands : op.shape.Operands} (ho : opt)
      (h : op = .nop ∨ op = .label) : Body opt C op operands []
  | plain {op : MozOpcode} {operands : op.shape.Operands} (hf : op ≠ .first)
      (h : ¬ (opt ∧ (op = .nop ∨ op = .label))) :
      Body opt C op operands [⟨op, operandBytes op.shape operands⟩]
  | first {ks : List ℕ} {id : ℕ} (hid : id < 2 ^ 16)
      (h : 8 < (distinctTargets (ks.map Nat.cast)).length)
      (hC : C.jumps[id]? = some ((ks.map Nat.cast).take 256)) :
      Body opt C .first ks [.table .first id]
  | tblJump1 {ks : List ℕ} {id : ℕ} (hid : id < 2 ^ 16)
      (h : (distinctTargets (ks.map Nat.cast)).length ≤ 1)
      (hC : C.jumps1[id]? =
        some (jumpTable1Init (distinctTargets (ks.map Nat.cast)) (ks.map Nat.cast))) :
      Body opt C .first ks [.table .tblJump1 id]
  | tblJump2 {ks : List ℕ} {id : ℕ} (hid : id < 2 ^ 16)
      (h : (distinctTargets (ks.map Nat.cast)).length ≤ 4)
      (hC : C.jumps2[id]? =
        some (jumpTable2Init (distinctTargets (ks.map Nat.cast)) (ks.map Nat.cast))) :
      Body opt C .first ks [.table .tblJump2 id]
  | tblJump3 {ks : List ℕ} {id : ℕ} (hid : id < 2 ^ 16)
      (h : (distinctTargets (ks.map Nat.cast)).length ≤ 8)
      (hC : C.jumps3[id]? =
        some (jumpTable3Init (distinctTargets (ks.map Nat.cast)) (ks.map Nat.cast))) :
      Body opt C .first ks [.table .tblJump3 id]

def Emits (opt : Bool) (C : Constants) (i : FileInst) (ps : List Piece) : Prop :=
  ∃ body, Body opt C i.op i.operands body ∧ ps = body ++ (i.nextTarget.map Piece.jump).toList

/-- `C'` has the pools of `C`, and its jump tables go on from those of `C`. -/
structure Extends (C C' : Constants) : Prop where
  strs : C'.strs = C.strs
  sets : C'.sets = C.sets
  tags : C'.tags = C.tags
  tables : C'.tables = C.tables
  prods : C'.prods.length = C.prods.length
  jumps : C.jumps <+: C'.jumps
  jumps1 : C.jumps1 <+: C'.jumps1
  jumps2 : C.jumps2 <+: C'.jumps2
  jumps3 : C.jumps3 <+: C'.jumps3

namespace Extends

theorem refl (C : Constants) : Extends C C where
  strs := rfl
  sets := rfl
  tags := rfl
  tables := rfl
  prods := rfl
  jumps := List.prefix_rfl
  jumps1 := List.prefix_rfl
  jumps2 := List.prefix_rfl
  jumps3 := List.prefix_rfl

theorem trans {C C' C'' : Constants} (h : Extends C C') (h' : Extends C' C'') : Extends C C'' where
  strs := h'.strs.trans h.strs
  sets := h'.sets.trans h.sets
  tags := h'.tags.trans h.tags
  tables := h'.tables.trans h.tables
  prods := h'.prods.trans h.prods
  jumps := h.jumps.trans h'.jumps
  jumps1 := h.jumps1.trans h'.jumps1
  jumps2 := h.jumps2.trans h'.jumps2
  jumps3 := h.jumps3.trans h'.jumps3

end Extends

theorem SmallPools.mono {C C' : Constants} (hC : Extends C C') (h : SmallPools C) : SmallPools C' where
  strs := hC.strs ▸ h.strs
  sets := hC.sets ▸ h.sets
  tags := hC.tags ▸ h.tags
  tables := hC.tables ▸ h.tables
  prods := hC.prods ▸ h.prods

theorem getElem?_of_isPrefix {α : Type} {l l' : List α} {n : ℕ} {a : α} (hp : l <+: l')
    (h : l[n]? = some a) : l'[n]? = some a := by
  obtain ⟨post, rfl⟩ := hp
  have hn : n < l.length := (List.getElem?_eq_some_iff.1 h).1
  rw [List.getElem?_append_left hn, h]

theorem Body.mono {opt : Bool} {C C' : Constants} {op : MozOpcode} {operands : op.shape.Operands}
    {ps : List Piece} (hC : Extends C C') (h : Body opt C op operands ps) :
    Body opt C' op operands ps := by
  cases h with
  | elided ho h => exact .elided ho h
  | plain hf h => exact .plain hf h
  | first hid h hjumps => exact .first hid h (getElem?_of_isPrefix hC.jumps hjumps)
  | tblJump1 hid h hjumps => exact .tblJump1 hid h (getElem?_of_isPrefix hC.jumps1 hjumps)
  | tblJump2 hid h hjumps => exact .tblJump2 hid h (getElem?_of_isPrefix hC.jumps2 hjumps)
  | tblJump3 hid h hjumps => exact .tblJump3 hid h (getElem?_of_isPrefix hC.jumps3 hjumps)

theorem Emits.mono {opt : Bool} {C C' : Constants} {i : FileInst} {ps : List Piece}
    (hC : Extends C C') (h : Emits opt C i ps) : Emits opt C' i ps := by
  obtain ⟨body, hbody, rfl⟩ := h
  exact ⟨body, hbody.mono hC, rfl⟩

def IsTable (op : MozOpcode) : Prop :=
  op = .first ∨ op = .tblJump1 ∨ op = .tblJump2 ∨ op = .tblJump3

instance : DecidablePred IsTable := fun op =>
  inferInstanceAs (Decidable (op = .first ∨ op = .tblJump1 ∨ op = .tblJump2 ∨ op = .tblJump3))

def tableCount (C : Constants) : MozOpcode → ℕ
  | .first => C.jumps.length
  | .tblJump1 => C.jumps1.length
  | .tblJump2 => C.jumps2.length
  | .tblJump3 => C.jumps3.length
  | _ => 0

/-- The pieces with an opcode that has jump tables name these one after the other. -/
def Numbered (C : Constants) (ps : List Piece) : Prop :=
  ∀ op, IsTable op →
    ps.filter (fun p => p.op = op) = (List.range (tableCount C op)).map (Piece.table op)

theorem Numbered.append_plain {C : Constants} {ps qs : List Piece} (h : Numbered C ps)
    (hq : ∀ q ∈ qs, ¬ IsTable q.op) : Numbered C (ps ++ qs) := by
  intro op hop
  have hnil : qs.filter (fun q => q.op = op) = [] := by
    apply List.filter_eq_nil_iff.2
    intro q hmem heq
    apply hq q hmem
    rwa [of_decide_eq_true heq]
  rw [List.filter_append, hnil, List.append_nil, h op hop]

theorem Numbered.append_table {C C' : Constants} {ps : List Piece} {op : MozOpcode}
    (h : Numbered C ps) (hcount : tableCount C' op = tableCount C op + 1)
    (hother : ∀ op', op' ≠ op → tableCount C' op' = tableCount C op') :
    Numbered C' (ps ++ [.table op (tableCount C op)]) := by
  intro op' hop'
  rw [List.filter_append, h op' hop']
  by_cases heq : op' = op
  · subst heq
    have hself : [Piece.table op' (tableCount C op')].filter (fun p => p.op = op') =
        [Piece.table op' (tableCount C op')] := by
      apply List.filter_eq_self.2
      intro p hp
      rw [List.mem_singleton.1 hp]
      exact decide_eq_true rfl
    rw [hself, hcount, List.range_succ, List.map_append, List.map_singleton]
  · have hnil : [Piece.table op (tableCount C op)].filter (fun p => p.op = op') = [] := by
      apply List.filter_eq_nil_iff.2
      intro p hp hpop
      rw [List.mem_singleton.1 hp] at hpop
      exact heq (of_decide_eq_true hpop).symm
    rw [hnil, List.append_nil, hother op' heq]

/-- How the loader goes on when `ps` are written for one instruction. -/
structure Emitted (L L' : Loader) (ps : List Piece) : Prop where
  buf : L'.buf = L.buf ++ ps.flatMap Piece.bytes
  grows : Extends L.C L'.C
  table : L'.table = L.table
  instSize : L'.instSize = L.instSize
  count : ∀ op, tableCount L'.C op ≤ tableCount L.C op + 1
  numbered : ∀ qs, Numbered L.C qs → Numbered L'.C (qs ++ ps)

namespace Emitted

variable {L L' : Loader} {ps : List Piece}

theorem nil (L : Loader) : Emitted L L [] where
  buf := by simp
  grows := .refl _
  table := rfl
  instSize := rfl
  count := fun _ => Nat.le_succ _
  numbered := fun qs hqs => by rwa [List.append_nil]

/-- A piece without a table is written after those of the instruction. -/
theorem append (h : Emitted L L' ps) (p : Piece) (hp : ¬ IsTable p.op) :
    Emitted L { L' with buf := L'.buf ++ p.bytes } (ps ++ [p]) where
  buf := by simp [h.buf]
  grows := h.grows
  table := h.table
  instSize := h.instSize
  count := h.count
  numbered := by
    intro qs hqs
    rw [← List.append_assoc]
    apply (h.numbered qs hqs).append_plain
    intro q hq
    rwa [List.mem_singleton.1 hq]

theorem newTable (op : MozOpcode) {C : Constants} (hgrows : Extends L.C C)
    (hcount : tableCount C op = tableCount L.C op + 1)
    (hother : ∀ op', op' ≠ op → tableCount C op' = tableCount L.C op') :
    Emitted L (({ L with C := C }.writeOpcode op).write16 (tableCount L.C op))
      [.table op (tableCount L.C op)] where
  buf := by simp [Loader.writeOpcode, Loader.write8, Loader.write16, Piece.table, Piece.bytes]
  grows := hgrows
  table := rfl
  instSize := rfl
  count := by
    intro op'
    by_cases heq : op' = op
    · rw [heq]
      exact hcount.le
    · exact (hother op' heq).le.trans (Nat.le_succ _)
  numbered := fun qs hqs => hqs.append_table hcount hother

end Emitted

theorem loadFirst_ok {L : Loader} {ks : List ℕ} (hcount : ∀ op, tableCount L.C op < 2 ^ 16) :
    ∃ ps, Emitted L (loadFirst L (ks.map Nat.cast) true) ps ∧
      Body true (loadFirst L (ks.map Nat.cast) true).C .first ks ps := by
  unfold loadFirst
  simp only [true_and]
  split_ifs with h1 h4 h8
  · refine ⟨[.table .tblJump1 L.C.jumps1.length], ?_, ?_⟩
    · apply Emitted.newTable .tblJump1
      · exact { Extends.refl L.C with jumps1 := List.prefix_append _ _ }
      · exact List.length_append
      · intro op' hne
        cases op' <;> first | rfl | exact absurd rfl hne
    · exact .tblJump1 (hcount .tblJump1) h1 List.getElem?_concat_length
  · refine ⟨[.table .tblJump2 L.C.jumps2.length], ?_, ?_⟩
    · apply Emitted.newTable .tblJump2
      · exact { Extends.refl L.C with jumps2 := List.prefix_append _ _ }
      · exact List.length_append
      · intro op' hne
        cases op' <;> first | rfl | exact absurd rfl hne
    · exact .tblJump2 (hcount .tblJump2) h4 List.getElem?_concat_length
  · refine ⟨[.table .tblJump3 L.C.jumps3.length], ?_, ?_⟩
    · apply Emitted.newTable .tblJump3
      · exact { Extends.refl L.C with jumps3 := List.prefix_append _ _ }
      · exact List.length_append
      · intro op' hne
        cases op' <;> first | rfl | exact absurd rfl hne
    · exact .tblJump3 (hcount .tblJump3) h8 List.getElem?_concat_length
  · refine ⟨[.table .first L.C.jumps.length], ?_, ?_⟩
    · apply Emitted.newTable .first
      · exact { Extends.refl L.C with jumps := List.prefix_append _ _ }
      · exact List.length_append
      · intro op' hne
        cases op' <;> first | rfl | exact absurd rfl hne
    · exact .first (hcount .first) (Nat.lt_of_not_le h8) List.getElem?_concat_length

/-- What is written for the operation of an instruction. A `First` needs `opt`. -/
theorem operation_ok {L : Loader} {opt : Bool} {op : MozOpcode} (operands : op.shape.Operands)
    (hfirst : op = .first → opt) (hcount : ∀ op, tableCount L.C op < 2 ^ 16) :
    ∃ L' ps, writeOperands (if opt ∧ elided (some op) then L else L.write8 op.toByte) opt
        op.shape operands = L' ∧
      Emitted L L' ps ∧ Body opt L'.C op operands ps := by
  by_cases hf : op = .first
  · subst hf
    obtain rfl := hfirst rfl
    obtain ⟨ps, hps, hbody⟩ := @loadFirst_ok L operands hcount
    exact ⟨_, ps, rfl, hps, hbody⟩
  · rw [writeOperands_eq hf operands]
    by_cases he : opt ∧ (op = .nop ∨ op = .label)
    · obtain ⟨ho, hop⟩ := he
      have helided : opt ∧ elided (some op) := ⟨ho, by obtain rfl | rfl := hop <;> rfl⟩
      have hbytes : operandBytes op.shape operands = [] := by obtain rfl | rfl := hop <;> rfl
      rw [if_pos helided, hbytes, List.append_nil]
      exact ⟨L, [], rfl, .nil L, .elided ho hop⟩
    · have helided : ¬ (opt ∧ elided (some op)) := by
        simp only [elided, decide_eq_true_eq, Option.some.injEq]
        grind
      have hop : ¬ IsTable op := by
        rintro (rfl | rfl | rfl | rfl)
        · exact hf rfl
        · cases operands
        · cases operands
        · cases operands
      rw [if_neg helided]
      refine ⟨_, [⟨op, operandBytes op.shape operands⟩], rfl, ?_, .plain hf he⟩
      have hemitted := (Emitted.nil L).append ⟨op, operandBytes op.shape operands⟩ hop
      simpa [Loader.write8, Piece.bytes] using hemitted

theorem flagged_byte (op : MozOpcode) :
    (op.toByte ||| 0x80) &&& 0x7f = op.toByte ∧ (op.toByte ||| 0x80) &&& 0x80 ≠ 0 := by
  cases op <;> decide

theorem plain_byte (op : MozOpcode) : op.toByte &&& 0x7f = op.toByte ∧ op.toByte &&& 0x80 = 0 := by
  cases op <;> decide

theorem loadInst_ok {L : Loader} {is : InputStream} {opt : Bool} {i : FileInst}
    {rest : List UInt8} (hC : SmallPools L.C)
    (hok : InstOk opt L.C (fun k => k < 2 ^ 24) (fun k => k < 2 ^ 24) i)
    (hcount : ∀ op, tableCount L.C op < 2 ^ 16) (hrest : is.rest = i.encode ++ rest) :
    ∃ L' ps, loadInst L is opt =
        .ok (L', skip is i.encode.length, labelOf i.op.shape i.operands) ∧
      Emitted L L' ps ∧ Emits opt L'.C i ps := by
  obtain ⟨L', ps, hwrite, hps, hbody⟩ := operation_ok i.operands hok.first hcount
  obtain ⟨b, hb, hbyte⟩ : ∃ b, b = (if i.next = none then i.op.toByte else i.op.toByte ||| 0x80) ∧
      b &&& 0x7f = i.op.toByte ∧ (b &&& 0x80 ≠ 0 ↔ i.next ≠ none) := by
    refine ⟨_, rfl, ?_⟩
    split_ifs with h
    · simp [plain_byte, h]
    · simp [flagged_byte, h]
  have hencode : i.encode = [b] ++ (encodeOperands i.op.shape i.operands ++
      (i.nextTarget.map word24).getD []) := by
    rw [hb]
    rfl
  rw [hencode, List.append_assoc, List.append_assoc] at hrest
  have hrest1 := rest_skip_length hrest
  have hrest2 := rest_skip_length hrest1
  have hload := @loadOperands_ok (if opt ∧ elided (some i.op) then L else L.write8 i.op.toByte)
    (skip is 1) _ (decide (b &&& 0x80 ≠ 0)) opt i.op i.operands (by split_ifs <;> exact hC)
    (by split_ifs <;> exact hok.operands) hrest1
  rw [Loads, hwrite] at hload
  unfold loadInst
  rw [reads_read8 b is _ hrest]
  simp only [bind, Except.bind]
  rw [hbyte.1, MozOpcode.ofByte_toByte, List.length_singleton, hload]
  have hlength : skip is i.encode.length = skip (skip (skip is 1)
      (encodeOperands i.op.shape i.operands).length)
        ((i.nextTarget.map word24).getD []).length := by
    rw [hencode, List.length_append, List.length_append, skip_skip, skip_skip]
    rfl
  rw [hlength]
  cases htarget : i.nextTarget with
  | none =>
    have hjump : (if i.op = MozOpcode.jump ∨ i.op = MozOpcode.call then false
        else decide (b &&& 128 ≠ 0)) = false := by
      unfold FileInst.nextTarget at htarget
      split_ifs at htarget ⊢ with hop
      · rfl
      · exact decide_eq_false fun hflag => hbyte.2.1 hflag htarget
    simp only [hjump]
    exact ⟨L', ps, rfl, hps, ps, hbody, by rw [htarget]; simp⟩
  | some k =>
    have hjump : (if i.op = MozOpcode.jump ∨ i.op = MozOpcode.call then false
        else decide (b &&& 128 ≠ 0)) = true := by
      unfold FileInst.nextTarget at htarget
      split_ifs at htarget ⊢ with hop
      exact decide_eq_true (hbyte.2.2 (by simp [htarget]))
    rw [htarget] at hrest2
    have hread := reads_read24 (hok.next k htarget) _ _ hrest2
    simp only [hjump, if_true]
    rw [List.length_singleton] at hread
    rw [hread]
    refine ⟨_, ps ++ [.jump k], rfl, ?_, ps, hbody, by rw [htarget]; rfl⟩
    have hemitted := hps.append (.jump k) (show ¬ IsTable .jump by decide)
    simpa [Loader.writeOpcode, Loader.writeAddr, Loader.write8, Piece.jump, Piece.bytes]
      using hemitted

end Moz.Bytecode
