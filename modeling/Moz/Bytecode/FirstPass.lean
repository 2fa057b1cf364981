import Moz.Bytecode.Emission

/-!
# The first loop of the loader

The loop writes the pieces of one instruction after the other. `Loaded` says what it
has done when a list of instructions is read; a round goes from a list to the list
with one instruction more.
-/

namespace Moz.Bytecode

/-- The place of the instruction `k` among pieces that are grouped by instruction. -/
def place (pss : List (List Piece)) (k : ℕ) : ℕ :=
  ((pss.take k).flatten.flatMap Piece.bytes).length

theorem place_append {pss qss : List (List Piece)} {k : ℕ} (h : k ≤ pss.length) :
    place (pss ++ qss) k = place pss k := by
  unfold place
  rw [List.take_append_of_le_length h]

theorem place_length (pss : List (List Piece)) :
    place pss pss.length = (pss.flatten.flatMap Piece.bytes).length := by
  unfold place
  rw [List.take_length]

theorem place_mono (pss : List (List Piece)) : Monotone (place pss) := by
  intro m n hmn
  obtain ⟨d, rfl⟩ := Nat.exists_eq_add_of_le hmn
  unfold place
  rw [List.take_add, List.flatten_append, List.flatMap_append, List.length_append]
  exact Nat.le_add_right _ _

/-- The loader `L` has loaded `insts` as `pss` since it was `L₀`. -/
structure Loaded (opt : Bool) (L₀ L : Loader) (insts : List FileInst)
    (pss : List (List Piece)) : Prop where
  emits : List.Forall₂ (Emits opt L.C) insts pss
  buf : L.buf = pss.flatten.flatMap Piece.bytes
  table : L.table = (List.range insts.length).map (place pss)
  grows : Extends L₀.C L.C
  instSize : L.instSize = L₀.instSize
  count : ∀ op, tableCount L.C op ≤ insts.length
  numbered : Numbered L.C pss.flatten

namespace Loaded

variable {opt : Bool} {L₀ L L' : Loader} {insts : List FileInst} {pss : List (List Piece)}
  {i : FileInst} {ps : List Piece}

theorem start (L : Loader) (hbuf : L.buf = []) (htable : L.table = [])
    (hcount : ∀ op, tableCount L.C op = 0) : Loaded opt L L [] [] where
  emits := .nil
  buf := hbuf
  table := htable
  grows := .refl _
  instSize := rfl
  count := fun op => (hcount op).le
  numbered := by
    intro op _
    rw [hcount op]
    rfl

theorem length (h : Loaded opt L₀ L insts pss) : insts.length = pss.length := h.emits.length_eq

theorem append (h : Loaded opt L₀ L insts pss)
    (hemitted : Emitted { L with table := L.table ++ [L.buf.length] } L' ps)
    (hemits : Emits opt L'.C i ps) : Loaded opt L₀ L' (insts ++ [i]) (pss ++ [ps]) where
  emits := by
    apply List.rel_append
    · exact h.emits.imp fun _ _ he => he.mono hemitted.grows
    · exact .cons hemits .nil
  buf := by
    rw [hemitted.buf, h.buf]
    simp
  table := by
    have htable : (List.range insts.length).map (place pss) =
        (List.range insts.length).map (place (pss ++ [ps])) := by
      apply List.map_congr_left
      intro k hk
      have hlt : k < insts.length := List.mem_range.1 hk
      rw [place_append (h.length ▸ hlt.le)]
    have hlast : L.buf.length = place (pss ++ [ps]) insts.length := by
      rw [h.buf, h.length, place_append le_rfl, place_length]
    rw [hemitted.table]
    simp only
    rw [h.table, htable, hlast, List.length_append, List.length_singleton, List.range_succ,
      List.map_append, List.map_singleton]
  grows := h.grows.trans hemitted.grows
  instSize := hemitted.instSize.trans h.instSize
  count := by
    intro op
    rw [List.length_append, List.length_singleton]
    exact (hemitted.count op).trans (Nat.succ_le_succ (h.count op))
  numbered := by
    have hnumbered := hemitted.numbered _ h.numbered
    simpa using hnumbered

theorem updateProd (h : Loaded opt L₀ L insts pss) {prods : List Production}
    (hlen : prods.length = L.C.prods.length) :
    Loaded opt L₀ { L with C := { L.C with prods := prods } } insts pss where
  emits := by
    apply h.emits.imp
    intro i ps hi
    exact hi.mono { Extends.refl L.C with prods := hlen }
  buf := h.buf
  table := h.table
  grows := h.grows.trans { Extends.refl L.C with prods := hlen }
  instSize := h.instSize
  count := by
    intro op
    have hcount := h.count op
    cases op <;> exact hcount
  numbered := by
    intro op hop
    have hnumbered := h.numbered op hop
    cases op <;> exact hnumbered

end Loaded

theorem OperandsOk.mono {C C' : Constants} {target target' code code' : ℕ → Prop} {s : Shape}
    {operands : s.Operands} (hC : Extends C C') (htarget : ∀ k, target k → target' k)
    (hcode : ∀ k, code k → code' k) (h : OperandsOk C target code s operands) :
    OperandsOk C' target' code' s operands := by
  cases s with
  | absent => cases operands
  | plain | ret | char | memo => exact h
  | addr => exact htarget _ h
  | jump => exact hcode _ h
  | call => exact ⟨htarget _ h.1, h.2.1, htarget _ h.2.2⟩
  | first => exact ⟨h.1, fun k hk => htarget k (h.2 k hk)⟩
  | lookup => exact ⟨h.1, htarget _ h.2⟩
  | tLookup =>
    obtain ⟨hmemo, hskip, hid⟩ := h
    exact ⟨hmemo, htarget _ hskip, hid.trans_eq (congrArg List.length hC.tags.symm)⟩
  | isDef =>
    obtain ⟨htbl, hid⟩ := h
    exact ⟨htbl.trans_eq (congrArg List.length hC.tables.symm),
      hid.trans_eq (congrArg List.length hC.strs.symm)⟩
  | str => exact h.trans_eq (congrArg List.length hC.strs.symm)
  | set => exact h.trans_eq (congrArg List.length hC.sets.symm)
  | tag | fold => exact h.trans_eq (congrArg List.length hC.tags.symm)
  | tbl => exact h.trans_eq (congrArg List.length hC.tables.symm)
  | label => exact h.trans_eq hC.prods.symm

theorem InstOk.mono {opt : Bool} {C C' : Constants} {target target' code code' : ℕ → Prop}
    {i : FileInst} (hC : Extends C C') (htarget : ∀ k, target k → target' k)
    (hcode : ∀ k, code k → code' k) (h : InstOk opt C target code i) :
    InstOk opt C' target' code' i where
  operands := h.operands.mono hC htarget hcode
  next := fun k hk => hcode k (h.next k hk)
  first := h.first

theorem labelOf_lt {C : Constants} {target code : ℕ → Prop} {s : Shape} {operands : s.Operands}
    (hok : OperandsOk C target code s operands) (hprods : 0 < C.prods.length) :
    labelOf s operands < C.prods.length := by
  cases s with
  | label => exact hok
  | _ => exact hprods

theorem updateProd_ok {L : Loader} {prodId : ℕ} (h : prodId < L.C.prods.length)
    (f : Production → Production) :
    updateProd L prodId f =
      .ok { L with C := { L.C with prods := L.C.prods.modify prodId f } } := by
  unfold updateProd
  rw [checkId_ok h]
  rfl

theorem peek_of_rest {is : InputStream} {b : UInt8} {rest : List UInt8}
    (h : is.rest = b :: rest) : peek is = .ok b := by
  have hget : is.data[is.pos]? = some b := by
    have hhead := congrArg List.head? h
    rwa [InputStream.rest, List.head?_drop] at hhead
  rw [peek, hget]

section Loop

variable {opt : Bool} {L₀ L : Loader} {insts : List FileInst} {pss : List (List Piece)}
  {i : FileInst} {is : InputStream} {rest : List UInt8} {prodId : ℕ}

theorem loadRound_ok (h : Loaded opt L₀ L insts pss) (hC : SmallPools L₀.C)
    (hok : InstOk opt L₀.C (fun k => k < 2 ^ 24) (fun k => k < 2 ^ 24) i)
    (hsize : insts.length < L₀.instSize) (hsmall : L₀.instSize < 2 ^ 16)
    (hprod : prodId < L₀.C.prods.length) (hrest : is.rest = i.encode ++ rest) :
    ∃ L' ps prodId', loadRound L is prodId opt = .ok (L', skip is i.encode.length, prodId') ∧
      prodId' < L₀.C.prods.length ∧ Loaded opt L₀ L' (insts ++ [i]) (pss ++ [ps]) := by
  have hlength : L.table.length = insts.length := by rw [h.table, List.length_map, List.length_range]
  have htable : ¬ L.instSize ≤ L.table.length := by
    rw [hlength, h.instSize]
    exact Nat.not_le_of_lt hsize
  have hcount : ∀ op, tableCount L.C op < 2 ^ 16 := fun op => by
    have := h.count op
    omega
  obtain ⟨L', ps, hload, hemitted, hemits⟩ :=
    @loadInst_ok { L with table := L.table ++ [L.buf.length] } is opt i rest
      (hC.mono h.grows) (hok.mono h.grows (fun _ => id) fun _ => id) hcount hrest
  have hloaded := h.append hemitted hemits
  have hlabel : labelOf i.op.shape i.operands < L'.C.prods.length := by
    rw [hloaded.grows.prods]
    exact labelOf_lt hok.operands (Nat.zero_lt_of_lt hprod)
  have hpeek : ∃ b, peek is = .ok b := ⟨_, peek_of_rest hrest⟩
  obtain ⟨b, hpeek⟩ := hpeek
  unfold loadRound
  rw [hpeek]
  simp only [bind, Except.bind, htable, if_false, hload, pure, Except.pure]
  split_ifs with hb
  · rw [updateProd_ok hlabel]
    have hmodify : ∀ f : Production → Production,
        (L'.C.prods.modify (labelOf i.op.shape i.operands) f).length = L'.C.prods.length :=
      fun f => List.length_modify ..
    simp only
    rw [updateProd_ok ((hmodify _).symm ▸ hlabel)]
    refine ⟨_, ps, _, rfl, ?_, (hloaded.updateProd (hmodify _)).updateProd (List.length_modify ..)⟩
    rwa [← hloaded.grows.prods]
  · rw [updateProd_ok (by rwa [hloaded.grows.prods])]
    exact ⟨_, ps, _, rfl, hprod, hloaded.updateProd (List.length_modify ..)⟩

theorem loadLoop_ok (post : List FileInst) {rounds : ℕ} (h : Loaded opt L₀ L insts pss)
    (hC : SmallPools L₀.C)
    (hok : ∀ i ∈ post, InstOk opt L₀.C (fun k => k < 2 ^ 24) (fun k => k < 2 ^ 24) i)
    (hsize : (insts ++ post).length ≤ L₀.instSize) (hsmall : L₀.instSize < 2 ^ 16)
    (hprod : post ≠ [] → prodId < L₀.C.prods.length)
    (hrest : is.rest = post.flatMap FileInst.encode) (hrounds : post.length < rounds) :
    ∃ L' pss', loadLoop opt rounds L is prodId = .ok L' ∧ Loaded opt L₀ L' (insts ++ post) pss' := by
  induction post generalizing L insts pss is prodId rounds with
  | nil =>
    obtain ⟨rounds, rfl⟩ := Nat.exists_eq_succ_of_ne_zero (Nat.ne_zero_of_lt hrounds)
    have hend : ¬ is.pos < is.data.length := by
      have hlength := congrArg List.length hrest
      rw [InputStream.rest, List.length_drop, List.flatMap_nil, List.length_nil] at hlength
      omega
    rw [loadLoop, if_neg hend]
    exact ⟨L, pss, rfl, by rwa [List.append_nil]⟩
  | cons i post ih =>
    obtain ⟨rounds, rfl⟩ := Nat.exists_eq_succ_of_ne_zero (Nat.ne_zero_of_lt hrounds)
    rw [List.flatMap_cons] at hrest
    have hmore : is.pos < is.data.length := by
      have hlength := congrArg List.length hrest
      rw [InputStream.rest, List.length_drop, FileInst.encode] at hlength
      simp only [List.length_append, List.length_cons] at hlength
      omega
    rw [List.length_append, List.length_cons] at hsize
    have hlt : insts.length < L₀.instSize := by omega
    obtain ⟨L', ps, prodId', hround, hprod', h'⟩ := loadRound_ok h hC (hok i List.mem_cons_self) hlt
      hsmall (hprod (List.cons_ne_nil i post)) hrest
    have hrest' := rest_skip_length hrest
    rw [List.length_cons] at hrounds
    obtain ⟨L'', pss', hloop, h''⟩ := @ih L' (insts ++ [i]) _ _ prodId' rounds h'
      (fun i hi => hok i (List.mem_cons_of_mem _ hi)) (by simp; omega) (fun _ => hprod') hrest'
      (by omega)
    rw [loadLoop, if_pos hmore, hround]
    rw [List.append_cons]
    exact ⟨L'', pss', hloop, h''⟩

end Loop

end Moz.Bytecode
