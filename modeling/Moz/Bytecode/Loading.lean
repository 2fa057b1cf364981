import Moz.Bytecode.SecondPass

/-!
# Loading a well-formed file

The pieces of the first loop are those that the second loop can patch. Together with
the header this gives the run of `mozvm_loader_load_syntax` on a file: no access is
out of range when the ids and targets of the file are in range.
-/

namespace Moz.Bytecode

open LittleEndian

theorem mem_of_mem_distinctTargets {table : List ℤ} {t : ℤ} (h : t ∈ distinctTargets table) :
    t ∈ table := by
  have hfold : ∀ (rest acc : List ℤ),
      t ∈ rest.foldl (fun target t => if t ∈ target then target else target ++ [t]) acc →
        t ∈ acc ∨ t ∈ rest := by
    intro rest
    induction rest with
    | nil => exact fun acc h => .inl h
    | cons a rest ih =>
      intro acc h
      rw [List.foldl_cons] at h
      obtain hacc | hrest := ih _ h
      · split_ifs at hacc with ha
        · exact .inl hacc
        · obtain hacc | heq := List.mem_append.1 hacc
          · exact .inl hacc
          · exact .inr (List.mem_cons.2 (.inl (List.mem_singleton.1 heq)))
      · exact .inr (List.mem_cons_of_mem a hrest)
  exact (hfold table [] h).resolve_left List.not_mem_nil

section Pieces

variable {opt : Bool} {C : Constants} {target code : ℕ → Prop}

theorem entryOk_of_getD {ks : List ℕ} {op : MozOpcode} {n : ℕ} (hop : op ≠ .first)
    (hks : ∀ k ∈ ks, target k) {t : ℤ}
    (ht : t ∈ (List.range n).map fun i => (distinctTargets (ks.map Nat.cast)).getD i 0) :
    EntryOk target op t := by
  obtain ⟨i, -, rfl⟩ := List.mem_map.1 ht
  cases hget : (distinctTargets (ks.map Nat.cast))[i]? with
  | none =>
    left
    rw [List.getD_eq_getElem?_getD, hget]
    exact ⟨hop, rfl⟩
  | some t =>
    right
    obtain ⟨k, hk, rfl⟩ := List.mem_map.1 (mem_of_mem_distinctTargets (List.mem_of_getElem? hget))
    rw [List.getD_eq_getElem?_getD, hget]
    exact ⟨k, rfl, hks k hk⟩

theorem Body.pieceOk {op : MozOpcode} {operands : op.shape.Operands} {ps : List Piece}
    (h : Body opt C op operands ps) (hok : OperandsOk C target code op.shape operands) :
    ∀ p ∈ ps, PieceOk C target code p := by
  cases h with
  | elided ho h =>
    intro p hp
    cases hp
  | plain hf h =>
    intro p hp
    obtain rfl := List.mem_singleton.1 hp
    have hlen := operandBytes_length hf operands
    cases op with
    | tblJump1 | tblJump2 | tblJump3 | tAbort | sDefNum | sCount => cases operands
    | first => exact absurd rfl hf
    | alt => exact @PieceOk.addr C target code .alt [] operands (.inl rfl) rfl hok
    | jump => exact .jump hok
    | call =>
      obtain ⟨next, prod, k⟩ := operands
      exact .call hok.1 hok.2.2
    | lookup =>
      obtain ⟨state, memoId, k⟩ := operands
      exact @PieceOk.addr C target code .lookup (state :: encode 2 memoId) k (.inr (.inl rfl)) rfl
        hok.2
    | tLookup =>
      obtain ⟨state, memoId, k, id⟩ := operands
      exact @PieceOk.addr C target code .tLookup (state :: encode 2 id ++ encode 2 memoId) k
        (.inr (.inr rfl)) rfl hok.2.1
    | _ => exact .quiet (by decide) hlen
  | @first ks id hid h hC =>
    intro p hp
    obtain rfl := List.mem_singleton.1 hp
    apply PieceOk.table (.inl rfl) hid hC
    intro t ht
    obtain ⟨k, hk, rfl⟩ := List.mem_map.1 (List.mem_of_mem_take ht)
    exact .inr ⟨k, rfl, hok.2 k hk⟩
  | @tblJump1 ks id hid h hC =>
    intro p hp
    obtain rfl := List.mem_singleton.1 hp
    apply PieceOk.table (.inr (.inl rfl)) hid
    · simp only [jumpsOf, hC, Option.map_some]
      rfl
    · exact fun t ht => entryOk_of_getD (by decide) hok.2 ht
  | @tblJump2 ks id hid h hC =>
    intro p hp
    obtain rfl := List.mem_singleton.1 hp
    apply PieceOk.table (.inr (.inr (.inl rfl))) hid
    · simp only [jumpsOf, hC, Option.map_some]
      rfl
    · exact fun t ht => entryOk_of_getD (by decide) hok.2 ht
  | @tblJump3 ks id hid h hC =>
    intro p hp
    obtain rfl := List.mem_singleton.1 hp
    apply PieceOk.table (.inr (.inr (.inr rfl))) hid
    · simp only [jumpsOf, hC, Option.map_some]
      rfl
    · exact fun t ht => entryOk_of_getD (by decide) hok.2 ht

theorem Emits.pieceOk {i : FileInst} {ps : List Piece} (h : Emits opt C i ps)
    (hok : InstOk opt C target code i) : ∀ p ∈ ps, PieceOk C target code p := by
  obtain ⟨body, hbody, rfl⟩ := h
  intro p hp
  obtain hp | hp := List.mem_append.1 hp
  · exact hbody.pieceOk hok.operands p hp
  · obtain ⟨k, hk, rfl⟩ : ∃ k, i.nextTarget = some k ∧ Piece.jump k = p := by
      simpa using hp
    exact .jump (hok.next k hk)

end Pieces

theorem Numbered.distinct {C : Constants} {ps : List Piece} (h : Numbered C ps)
    (hcount : ∀ op, tableCount C op ≤ 2 ^ 16) : ps.Pairwise Distinct := by
  apply List.pairwise_iff_forall_sublist.2
  rintro p q hsub op id hop rfl rfl
  have hfilter := hsub.filter fun p => decide (p.op = op)
  rw [h op hop] at hfilter
  have hnodup : ((List.range (tableCount C op)).map (Piece.table op)).Nodup := by
    apply List.nodup_range.map_on
    intro m hm n hn heq
    have hargs : encode 2 m = encode 2 n := congrArg Piece.args heq
    have hdecode := congrArg decode hargs
    rw [decode_encode, decode_encode] at hdecode
    have := hcount op
    rw [List.mem_range] at hm hn
    omega
  have hpair := hnodup.sublist hfilter
  simp [Piece.table] at hpair

theorem reads_checkFileType : Reads checkFileType [78, 69, 90] true := by
  intro is rest hrest
  have hrest1 : (skip is 1).rest = [69, 90] ++ rest := @rest_skip_length is [78] _ hrest
  have hrest2 : (skip (skip is 1) 1).rest = [90] ++ rest := @rest_skip_length _ [69] _ hrest1
  unfold checkFileType
  rw [reads_read8 78 is _ hrest]
  simp only [bind, Except.bind, List.length_singleton, ne_eq, not_true_eq_false, if_false]
  rw [reads_read8 69 _ _ hrest1]
  simp only [List.length_singleton, not_true_eq_false, if_false]
  rw [reads_read8 90 _ _ hrest2]
  rfl

theorem reads_checkVersion (version : UInt8) : Reads checkVersion [version] true := by
  intro is rest hrest
  unfold checkVersion
  rw [reads_read8 version is rest hrest]
  have hversion : decide (0 ≤ version) = true := decide_eq_true (UInt8.zero_le)
  simp only [bind, Except.bind, hversion]
  rfl

theorem reads_readPool {α γ : Type} {read : InputStream → Except LoadError (α × InputStream)}
    {encode : γ → List UInt8} {value : γ → α} {pool : List γ} (hlen : pool.length < 2 ^ 16)
    (h : ∀ a ∈ pool, Reads read (encode a) (value a)) :
    Reads (readPool read) (encodePool encode pool) (pool.map value) :=
  Reads.bind (fun size is => readTimes read size is) (reads_read16 hlen)
    (reads_readTimes_map value pool h)

theorem reads_strings {pool : List (List UInt8)}
    (h : pool.length < 2 ^ 16 ∧ ∀ s ∈ pool, s.length < 2 ^ 16) :
    Reads (readPool readString) (encodePool encodeString pool) pool := by
  have hread : Reads (readPool readString) (encodePool encodeString pool) (pool.map id) :=
    reads_readPool h.1 fun s hs => reads_readString (h.2 s hs)
  rwa [List.map_id] at hread

def BytecodeFile.loader (F : BytecodeFile) : Loader :=
  { instSize := F.instSize, C := F.constants }

theorem reads_readHeader {F : BytecodeFile} (hF : F.PoolsOk) :
    Reads readHeader (F.header ++ F.pools) F.loader := by
  intro is rest hrest
  have hbytes : F.header ++ F.pools = [78, 69, 90] ++ ([F.version] ++ (word16 F.instSize ++
      (word16 F.memoSize ++ (word16 F.jmptblSize ++ (word16 F.prods.length ++
        (F.prods.flatMap encodeString ++ (encodePool (fun set => set.flatMap word32) F.sets ++
          (encodePool encodeString F.strs ++ (encodePool encodeString F.tags ++
            encodePool encodeString F.tables))))))))) := by
    simp [BytecodeFile.header, BytecodeFile.pools, encodePool]
  rw [hbytes] at hrest ⊢
  simp only [List.append_assoc] at hrest
  have h1 := rest_skip_length hrest
  have h2 := rest_skip_length h1
  have h3 := rest_skip_length h2
  have h4 := rest_skip_length h3
  have h5 := rest_skip_length h4
  have h6 := rest_skip_length h5
  have h7 := rest_skip_length h6
  have h8 := rest_skip_length h7
  have h9 := rest_skip_length h8
  have h10 := rest_skip_length h9
  unfold readHeader
  rw [reads_checkFileType _ _ hrest]
  simp only [bind, Except.bind, Bool.not_true, Bool.false_eq_true, if_false]
  rw [reads_checkVersion _ _ _ h1]
  simp only [Bool.not_true, Bool.false_eq_true, if_false]
  rw [reads_read16 hF.instSize _ _ h2]
  simp only
  rw [reads_read16 hF.memoSize _ _ h3]
  simp only
  rw [reads_read16 hF.jmptblSize _ _ h4]
  simp only
  rw [reads_read16 hF.prods.1 _ _ h5]
  simp only
  rw [reads_readTimes F.prods (fun s hs => reads_readString (hF.prods.2 s hs)) _ _ h6]
  simp only
  rw [reads_readPool hF.sets.1 (fun set hset => reads_readSet (hF.sets.2 set hset).1
    (hF.sets.2 set hset).2) _ _ h7]
  simp only
  rw [reads_strings hF.strs _ _ h8]
  simp only
  rw [reads_strings hF.tags _ _ h9]
  simp only
  rw [reads_strings hF.tables _ _ h10]
  simp only [skip_skip, List.length_append, Nat.add_assoc]
  rfl

theorem place_succ {pss : List (List Piece)} {n : ℕ} {ps : List Piece} (h : pss[n]? = some ps) :
    place pss (n + 1) = place pss n + (ps.flatMap Piece.bytes).length := by
  obtain ⟨hn, rfl⟩ := List.getElem?_eq_some_iff.1 h
  unfold place
  rw [List.take_succ_eq_append_getElem hn, List.flatten_append, List.flatMap_append,
    List.length_append]
  simp

theorem place_boundary (pss : List (List Piece)) (k : ℕ) : Boundary 0 pss.flatten (place pss k) := by
  right
  refine ⟨(pss.take k).flatten.length, ?_⟩
  have hsplit : pss.flatten = (pss.take k).flatten ++ (pss.drop k).flatten := by
    rw [← List.flatten_append, List.take_append_drop]
  rw [hsplit, List.take_left, Nat.zero_add]
  rfl

theorem Body.ne_nil {opt : Bool} {C : Constants} {op : MozOpcode} {operands : op.shape.Operands}
    {ps : List Piece} (h : Body opt C op operands ps)
    (hop : ¬ (opt ∧ (op = .nop ∨ op = .label))) : ps ≠ [] := by
  cases h with
  | elided ho h => exact absurd ⟨ho, h⟩ hop
  | _ => exact List.cons_ne_nil _ _

theorem Emits.ne_nil {opt : Bool} {C : Constants} {i : FileInst} {ps : List Piece}
    (h : Emits opt C i ps) (hi : i.Written opt) : ps ≠ [] := by
  obtain ⟨body, hbody, rfl⟩ := h
  intro hnil
  obtain ⟨rfl, htarget⟩ := List.append_eq_nil_iff.1 hnil
  have hnone : i.nextTarget = none := by
    cases h : i.nextTarget with
    | none => rfl
    | some k =>
      rw [h] at htarget
      cases htarget
  obtain hi | hi := hi
  · exact hbody.ne_nil hi rfl
  · exact hi hnone

section Load

variable {F : BytecodeFile} {opt : Bool}

namespace Loaded

variable {L₀ L : Loader} {insts : List FileInst} {pss : List (List Piece)}

theorem getElem?_table (h : Loaded opt L₀ L insts pss) {k : ℕ} (hk : k < insts.length) :
    L.table[k]? = some (place pss k) := by
  rw [h.table, List.getElem?_map, List.getElem?_range hk, Option.map_some]

theorem table_length (h : Loaded opt L₀ L insts pss) : L.table.length = insts.length := by
  rw [h.table, List.length_map, List.length_range]

theorem boundary (h : Loaded opt L₀ L insts pss) {addr : ℕ} (hmem : addr ∈ L.table) :
    Boundary 0 pss.flatten addr := by
  rw [h.table] at hmem
  obtain ⟨k, -, rfl⟩ := List.mem_map.1 hmem
  exact place_boundary pss k

theorem emits_at (h : Loaded opt L₀ L insts pss) {n : ℕ} {i : FileInst} {ps : List Piece}
    (hi : insts[n]? = some i) (hps : pss[n]? = some ps) : Emits opt L.C i ps := by
  obtain ⟨hn, rfl⟩ := List.getElem?_eq_some_iff.1 hi
  obtain ⟨hn', rfl⟩ := List.getElem?_eq_some_iff.1 hps
  exact h.emits.get hn hn'

/-- The place of an instruction is one of an opcode when something is written from there on. -/
theorem place_lt (h : Loaded opt L₀ L insts pss) {k n : ℕ} {i : FileInst} (hkn : k ≤ n)
    (hi : insts[n]? = some i) (hwritten : i.Written opt) : place pss k < L.buf.length := by
  have hn : n < insts.length := (List.getElem?_eq_some_iff.1 hi).1
  have hn' : n < pss.length := h.length ▸ hn
  obtain ⟨ps, hps⟩ : ∃ ps, pss[n]? = some ps := ⟨pss.get ⟨n, hn'⟩, List.getElem?_eq_getElem hn'⟩
  have hgrow := place_succ hps
  have hpos : 0 < (ps.flatMap Piece.bytes).length := by
    obtain ⟨p, ps', rfl⟩ := List.exists_cons_of_ne_nil ((h.emits_at hi hps).ne_nil hwritten)
    rw [List.flatMap_cons, List.length_append, Piece.bytes_length]
    omega
  have hle := place_mono pss hkn
  have hend := place_mono pss (Nat.succ_le_of_lt hn')
  rw [place_length, ← h.buf] at hend
  simp only [Nat.succ_eq_add_one] at hend
  omega

end Loaded

theorem Body.length_le {C : Constants} {op : MozOpcode} {operands : op.shape.Operands}
    {ps : List Piece} (h : Body opt C op operands ps) : ps.length ≤ 1 := by
  cases h with
  | elided ho h => exact Nat.zero_le _
  | _ => exact le_rfl

theorem Emits.length_le {C : Constants} {i : FileInst} {ps : List Piece}
    (h : Emits opt C i ps) : ps.length ≤ 2 := by
  obtain ⟨body, hbody, rfl⟩ := h
  have hone := hbody.length_le
  rw [List.length_append]
  cases i.nextTarget <;> simp <;> omega

theorem flatten_length_le {C : Constants} {insts : List FileInst} {pss : List (List Piece)}
    (h : List.Forall₂ (Emits opt C) insts pss) : pss.flatten.length ≤ 2 * insts.length := by
  induction h with
  | nil => exact Nat.zero_le _
  | cons h _ ih =>
    rw [List.flatten_cons, List.length_append, List.length_cons]
    have := h.length_le
    omega

theorem pieceOk_flatten {C : Constants} {target code : ℕ → Prop} {insts : List FileInst}
    {pss : List (List Piece)} (h : List.Forall₂ (Emits opt C) insts pss)
    (hok : ∀ i ∈ insts, InstOk opt C target code i) :
    ∀ p ∈ pss.flatten, PieceOk C target code p := by
  induction h with
  | nil =>
    intro p hp
    cases hp
  | cons h _ ih =>
    intro p hp
    rw [List.flatten_cons, List.mem_append] at hp
    obtain hp | hp := hp
    · exact h.pieceOk (hok _ List.mem_cons_self) p hp
    · exact ih (fun i hi => hok i (List.mem_cons_of_mem _ hi)) p hp

/-- The result `L` of loading `F`: `pss` are the pieces of the first loop, `ps'` those of the
second one. -/
structure LoadedFile (F : BytecodeFile) (opt : Bool) (L₁ L : Loader) (pss : List (List Piece))
    (ps' : List Piece) : Prop where
  first : Loaded opt F.loader L₁ F.insts pss
  second : LoopDone L₁ L [] pss.flatten ps'

theorem mozvmLoaderLoadSyntax_ok (hF : F.WellFormed opt) {rounds : ℕ}
    (hrounds : 2 * F.insts.length < rounds) :
    ∃ L₁ L pss ps', mozvmLoaderLoadSyntax rounds F.encode opt = .ok L ∧
      LoadedFile F opt L₁ L pss ps' := by
  have hC : SmallPools F.loader.C := {
    strs := hF.strs.1
    sets := by
      show (F.sets.map wordsSet).length < _
      rw [List.length_map]
      exact hF.sets.1
    tags := hF.tags.1
    tables := hF.tables.1
    prods := by
      show (F.prods.map _).length < _
      rw [List.length_map]
      exact hF.prods.1 }
  have hstart : Loaded opt F.loader F.loader [] [] :=
    .start _ rfl rfl (by intro op; cases op <;> rfl)
  have hsize : F.insts.length < 2 ^ 16 := hF.size.trans_lt hF.instSize
  have hcodeIndex : ∀ k, F.IsCode opt k → F.IsIndex k := by
    rintro k ⟨n, hn, i, hi, -⟩
    exact lt_of_le_of_lt hn (List.getElem?_eq_some_iff.1 hi).1
  have hindex : ∀ k, F.IsIndex k → k < 2 ^ 24 := fun k hk => by
    unfold BytecodeFile.IsIndex at hk
    omega
  obtain ⟨is, hheader, hrest⟩ : ∃ is, readHeader { data := F.encode, pos := 0 } =
      .ok (F.loader, is) ∧ is.rest = F.insts.flatMap FileInst.encode := by
    have hdata : ({ data := F.encode, pos := 0 } : InputStream).rest =
        (F.header ++ F.pools) ++ F.insts.flatMap FileInst.encode := List.drop_zero
    exact ⟨_, reads_readHeader hF.toPoolsOk _ _ hdata, rest_skip_length hdata⟩
  obtain ⟨L₁, pss, hload, hloaded⟩ := @loadLoop_ok opt F.loader F.loader [] [] is 0 F.insts rounds
    hstart hC (fun i hi => (hF.insts i hi).mono (.refl _) hindex fun k hk => hindex k (hcodeIndex k hk))
    hF.size hF.instSize
    (fun hne => by
      show 0 < (F.prods.map _).length
      rw [List.length_map]
      exact List.length_pos_of_ne_nil (hF.production hne))
    hrest (by omega)
  obtain ⟨L, ps', hpatch, hdone⟩ := @patchLoop_ok F.IsIndex (F.IsCode opt) pss.flatten L₁ [] rounds
    (pieceOk_flatten hloaded.emits fun i hi =>
      (hF.insts i hi).mono hloaded.grows (fun _ => id) fun _ => id)
    (hloaded.numbered.distinct fun op => by
      have := hloaded.count op
      rw [List.nil_append] at this
      omega)
    hloaded.buf
    (by
      rw [hloaded.table_length]
      exact fun k => id)
    (by
      rintro k ⟨n, hkn, i, hi, hwritten⟩
      exact ⟨_, hloaded.getElem?_table (hcodeIndex k ⟨n, hkn, i, hi, hwritten⟩),
        hloaded.place_lt hkn hi hwritten⟩)
    (by
      rw [hloaded.table_length, List.nil_append]
      omega)
    (fun addr hmem => hloaded.boundary hmem)
    ((flatten_length_le hloaded.emits).trans_lt hrounds)
  refine ⟨L₁, L, pss, ps', ?_, hloaded, hdone⟩
  unfold mozvmLoaderLoadSyntax mozvmLoaderLoad
  rw [bind_of_ok hheader]
  simp only
  rw [bind_of_ok hload]
  exact hpatch

/-- One of the first three bytes is there and is not the one of a bytecode file. -/
inductive NotNez : List UInt8 → Prop
  | first {b : UInt8} {rest : List UInt8} (h : b ≠ 78) : NotNez (b :: rest)
  | second {b : UInt8} {rest : List UInt8} (h : b ≠ 69) : NotNez (78 :: b :: rest)
  | third {b : UInt8} {rest : List UInt8} (h : b ≠ 90) : NotNez (78 :: 69 :: b :: rest)

theorem checkFileType_notNez {memory : List UInt8} (h : NotNez memory) :
    ∃ is, checkFileType { data := memory, pos := 0 } = .ok (false, is) := by
  unfold checkFileType
  cases h with
  | @first b rest h =>
    rw [bind_of_ok (reads_read8 b { data := b :: rest, pos := 0 } rest rfl)]
    simp only [h, ne_eq, not_false_eq_true, if_true]
    exact ⟨_, rfl⟩
  | @second b rest h =>
    rw [bind_of_ok (reads_read8 78 { data := 78 :: b :: rest, pos := 0 } _ rfl)]
    simp only [ne_eq, not_true_eq_false, if_false]
    rw [bind_of_ok (reads_read8 b _ rest rfl)]
    simp only [h, not_false_eq_true, if_true]
    exact ⟨_, rfl⟩
  | @third b rest h =>
    rw [bind_of_ok (reads_read8 78 { data := 78 :: 69 :: b :: rest, pos := 0 } _ rfl)]
    simp only [ne_eq, not_true_eq_false, if_false]
    rw [bind_of_ok (reads_read8 69 _ (b :: rest) rfl)]
    simp only [not_true_eq_false, if_false]
    rw [bind_of_ok (reads_read8 b _ rest rfl)]
    simp only [h, decide_false]
    exact ⟨_, rfl⟩

theorem mozvmLoaderLoadSyntax_verify {memory : List UInt8} (h : NotNez memory) (rounds : ℕ) :
    mozvmLoaderLoadSyntax rounds memory opt = .error .verify := by
  obtain ⟨is, his⟩ := checkFileType_notNez h
  unfold mozvmLoaderLoadSyntax readHeader
  rw [bind_of_ok his]
  rfl

end Load

/-- What the loader can load without checks: the bytes are a well-formed file, or the first bytes
already show that they are none. -/
def Recognized (opt : Bool) (memory : List UInt8) : Prop :=
  NotNez memory ∨ ∃ F : BytecodeFile, F.WellFormed opt ∧ memory = F.encode

theorem loading_safe {opt : Bool} {memory : List UInt8} (h : Recognized opt memory) :
    ∃ n, ∀ rounds > n, mozvmLoaderLoadSyntax rounds memory opt = .error .verify ∨
      ∃ L, mozvmLoaderLoadSyntax rounds memory opt = .ok L := by
  obtain h | ⟨F, hF, rfl⟩ := h
  · exact ⟨0, fun rounds _ => .inl (mozvmLoaderLoadSyntax_verify h rounds)⟩
  · refine ⟨2 * F.insts.length, fun rounds hrounds => .inr ?_⟩
    obtain ⟨_, L, _, _, hload, -⟩ := mozvmLoaderLoadSyntax_ok hF hrounds
    exact ⟨L, hload⟩

/-- A file of one production with the instructions `insts`. -/
def smallFile (instSize : ℕ) (insts : List FileInst) : BytecodeFile :=
  { instSize := instSize, prods := [[]], insts := insts }

/-- An `Alt` whose target is the `Fail` behind it. -/
theorem alt_recognized : ∃ n, ∀ rounds > n,
    mozvmLoaderLoadSyntax rounds (smallFile 2 [⟨.alt, (1 : ℕ), none⟩, ⟨.fail, (), none⟩]).encode true =
      .error .verify ∨
    ∃ L, mozvmLoaderLoadSyntax rounds
      (smallFile 2 [⟨.alt, (1 : ℕ), none⟩, ⟨.fail, (), none⟩]).encode true = .ok L := by
  apply loading_safe
  refine .inr ⟨_, ?_, rfl⟩
  exact {
    instSize := by decide
    memoSize := by decide
    jmptblSize := by decide
    prods := by decide
    sets := by decide
    strs := by decide
    tags := by decide
    tables := by decide
    size := by decide
    production := by decide
    insts := by
      intro i hi
      obtain rfl | rfl | hnil := List.mem_cons.1 hi |>.imp_right List.mem_cons.1
      · exact {
          operands := Nat.one_lt_two
          next := by rintro k ⟨⟩
          first := by rintro ⟨⟩ }
      · exact {
          operands := trivial
          next := by rintro k ⟨⟩
          first := by rintro ⟨⟩ }
      · cases hnil }

/-- The loader reads, writes and indexes what is not there. -/
theorem loading_unsafe :
    (∀ rounds, mozvmLoaderLoadSyntax rounds [] true = .error .read) ∧
    (∀ rounds, mozvmLoaderLoadSyntax (rounds + 3)
      (smallFile 0 [⟨.fail, (), none⟩]).encode true = .error .table) ∧
    (∀ rounds, mozvmLoaderLoadSyntax (rounds + 3)
      (smallFile 1 [⟨.str, (0 : ℕ), none⟩]).encode true = .error .pool) ∧
    (∀ rounds, mozvmLoaderLoadSyntax (rounds + 3)
      (smallFile 1 [⟨.alt, (1 : ℕ), none⟩]).encode true = .error .jump) ∧
    ∀ rounds, mozvmLoaderLoadSyntax (rounds + 3)
      (smallFile 2 [⟨.jump, (1 : ℕ), none⟩, ⟨.nop, (), none⟩]).encode true = .error .opcode :=
  ⟨fun _ => rfl, fun _ => rfl, fun _ => rfl, fun _ => rfl, fun _ => rfl⟩

end Moz.Bytecode
