import Moz.Bytecode.Refinement

/-!
# The structures for a `First`

At a byte a loaded `First` goes to the place of the byte's entry, unless the entry is
0 and the targets are few, when the second pass takes it for a slot without a target,
or the targets are many and the byte is negative as a `char`.
-/

namespace Moz.Bytecode

open Vm1 (Inst Machine Program Outcome exec failImpl decode)

/-- When a `First` with the entries `ks` finds its entry `t` at a byte that is `char` as a `char`. -/
def FirstFinds (ks : List ℕ) (char : ℤ) (t : ℕ) : Prop :=
  if (distinctTargets (ks.map Nat.cast)).length ≤ 8 then t ≠ 0 else 0 ≤ char

section Step

variable {P : Program} {R : Runtime} {c : Machine} {inst : Inst} {stop d : ℤ}

theorem step_of_jump (hfetch : P.fetch c.pc = some (inst, stop))
    (hexec : ∀ c' : Machine, c'.current = c.current → exec R c' inst = exec R c' (.jump d)) :
    Vm1.step P R c = some (.next { c with pc := stop + d }) :=
  moves_of_next hfetch (hexec { c with pc := stop } rfl)

theorem charAt_of_nonneg {current : ℕ} (h : 0 ≤ R.charAt current) :
    R.charAt current = (R.byteAt current).toNat := by
  unfold Runtime.charAt at h ⊢
  split_ifs at h ⊢ with hsigned
  · have hint : (R.byteAt current).toInt8.toInt = (R.byteAt current).toBitVec.toInt := rfl
    have hnat : (R.byteAt current).toBitVec.toNat = (R.byteAt current).toNat := rfl
    rw [hint, BitVec.toInt_eq_toNat_cond] at h ⊢
    split_ifs at h ⊢ <;> omega
  · rfl

/-- A `First` with its table reads in front of it at a byte that is negative as a `char`. -/
theorem exec_first_negative {id : UInt16} (h : ¬ 0 ≤ R.charAt c.current) :
    exec R c (.first id) = none := by
  have hstuck : Vm1.first R c.current id = none := by
    unfold Vm1.first
    cases R.jumps[id.toNat]? with
    | none => rfl
    | some jmpTable => exact if_neg h
  simp only [exec, hstuck, bind, Option.bind]

end Step

section First

variable {F : BytecodeFile} {L₁ L : Loader} {pss : List (List Piece)} {ps' : List Piece}
  {P : Program} {R : Runtime} {c : Machine} {k t : ℕ} {ks : List ℕ} {next : Option ℕ}

/-- A slot that has the entry `t` leads to its place, unless it is taken for one without a target. -/
theorem LoadedFile.slot_iff (h : LoadedFile F true L₁ L pss ps') (hF : F.WellFormed true)
    {stop : ℕ} {op : MozOpcode} {d : ℤ} (hop : op ≠ .first) (hstop : stop ≤ L.buf.length)
    (hpatched : EntryPatched L.table stop op t d) (ht : F.IsIndex t) :
    P.base + stop + d = P.base + place pss t ↔ t ≠ 0 := by
  have haddress := @LoadedFile.codeAddress_eq _ _ _ _ _ _ P h t (le_of_lt ht)
  have hzero : place pss 0 = 0 := rfl
  obtain ⟨-, h0, rfl⟩ | ⟨hfirst, -⟩ := id hpatched
  · obtain rfl := Int.natCast_eq_zero.1 h0
    constructor
    · omega
    · exact fun hne => absurd rfl hne
  · have hne : t ≠ 0 := by
      obtain hfirst | hne := hfirst
      · exact absurd hfirst hop
      · exact Int.natCast_ne_zero.1 hne
    have hdistance := (@LoadedFile.distance_eq _ _ _ _ _ _ P h hF _ _ _ (hpatched.distance hne) hstop).2
    rw [haddress] at hdistance
    exact ⟨fun _ => hne, fun _ => hdistance⟩

theorem LoadedFile.first_iff (h : LoadedFile F true L₁ L pss ps') (hF : F.WellFormed true)
    (hcode : P.code = L.buf) (hR : RuntimeHas R L.C) (hi : F.insts[k]? = some ⟨.first, ks, next⟩)
    (hpc : c.pc = P.base + place pss k) (ht : ks[(R.byteAt c.current).toNat]? = some t) :
    Vm1.step P R c = some (.next { c with pc := P.base + place pss t }) ↔
      FirstFinds ks (R.charAt c.current) t := by
  have hok := (hF.insts _ (List.mem_of_getElem? hi)).operands
  have hindex : F.IsIndex t := hok.2 t (List.mem_of_getElem? ht)
  have hget : ks.getD (R.byteAt c.current).toNat 0 = t := by
    rw [List.getD_eq_getElem?_getD, ht, Option.getD_some]
  have hchooses : Chooses R ks c.current t := by
    refine ⟨List.mem_of_getElem? ht, ?_⟩
    rw [List.getD_eq_getElem?_getD, List.getElem?_map, ht]
    rfl
  obtain ⟨main, main', tail', hat⟩ := h.piecesAt hi
  obtain ⟨p, q, pre, post, rfl, rfl, hbuf, hpre, hq⟩ := hat.single fun helided => by
    obtain ⟨-, hop | hop⟩ := helided <;> cases hop
  have hbody : Body true L₁.C .first ks [p] := hat.body
  have hstop : pre.length + q.bytes.length ≤ L.buf.length := by
    rw [hbuf, List.length_append, List.length_append]
    omega
  have hnext : ∀ pc : ℤ, some (Outcome.next { c with pc := pc }) =
      some (.next { c with pc := P.base + place pss t }) ↔ pc = P.base + place pss t := by
    intro pc
    constructor
    · intro heq
      exact congrArg Machine.pc (Outcome.next.inj (Option.some.inj heq))
    · rintro rfl
      rfl
  have hslots : ∀ {op : MozOpcode} {id : ℕ}, IsTable op → op ≠ .first → q = .table op id →
      (∃ d, EntryPatched L.table (pre.length + q.bytes.length) op t d ∧
        ∀ c' : Machine, c'.current = c.current →
          exec R c' (tableInst op (UInt16.ofNat id)) = exec R c' (.jump d)) →
      (distinctTargets (ks.map Nat.cast)).length ≤ 8 →
      (Vm1.step P R c = some (.next { c with pc := P.base + place pss t }) ↔
        FirstFinds ks (R.charAt c.current) t) := by
    rintro op id htable hop rfl ⟨d, hpatched, hexec⟩ hfew
    have hfetch := fetch_table htable (hcode.trans hbuf)
    rw [hpre, ← hpc] at hfetch
    unfold FirstFinds
    rw [step_of_jump hfetch hexec, hnext, if_pos hfew]
    rw [← hpre]
    exact h.slot_iff hF hop hstop hpatched hindex
  cases hbody with
  | plain hf => exact absurd rfl hf
  | @first _ id hid hmany hC =>
    obtain ⟨rfl, js, js', hjs, hjs', hentries⟩ := hq.table_inv (.inl rfl) hid
    obtain rfl := Option.some.inj (hC.symm.trans hjs)
    have hfetch := fetch_table (.inl rfl) (hcode.trans hbuf)
    rw [hpre, ← hpc] at hfetch
    unfold FirstFinds
    rw [if_neg (Nat.not_le.2 hmany)]
    constructor
    · intro hstep
      by_contra hchar
      rw [step_of_stuck hfetch (exec_first_negative hchar)] at hstep
      cases hstep
    · intro hchar
      obtain ⟨d, hd, hexec⟩ :=
        exec_first hR hid hjs' hok.1 hentries (charAt_of_nonneg hchar)
      rw [hget] at hd
      have hdistance := (@LoadedFile.distance_eq _ _ _ _ _ _ P h hF _ _ _ hd hstop).2
      rw [h.codeAddress_eq (le_of_lt hindex), hpre] at hdistance
      rw [step_of_jump hfetch hexec, hnext]
      exact hdistance
  | @tblJump1 _ id hid hfew hC =>
    obtain ⟨rfl, js, js', hjs, hjs', hentries⟩ := hq.table_inv (.inr (.inl rfl)) hid
    simp only [jumpsOf, hC, Option.map_some, Option.some.injEq] at hjs
    subst hjs
    exact hslots (.inr (.inl rfl)) (by decide) rfl
      (exec_tblJump1 hC h.second.same hR hid hjs' hfew hentries hchooses) (hfew.trans (by decide))
  | @tblJump2 _ id hid hfew hC =>
    obtain ⟨rfl, js, js', hjs, hjs', hentries⟩ := hq.table_inv (.inr (.inr (.inl rfl))) hid
    simp only [jumpsOf, hC, Option.map_some, Option.some.injEq] at hjs
    subst hjs
    exact hslots (.inr (.inr (.inl rfl))) (by decide) rfl
      (exec_tblJump2 hC h.second.same hR hid hjs' hfew hentries hchooses) (hfew.trans (by decide))
  | @tblJump3 _ id hid hfew hC =>
    obtain ⟨rfl, js, js', hjs, hjs', hentries⟩ := hq.table_inv (.inr (.inr (.inr rfl))) hid
    simp only [jumpsOf, hC, Option.map_some, Option.some.injEq] at hjs
    subst hjs
    exact hslots (.inr (.inr (.inr rfl))) (by decide) rfl
      (exec_tblJump3 hC h.second.same hR hid hjs' hfew hentries hchooses) hfew

end First

/-- The file is loaded, and at a `First` VM1 goes on at the place of the byte's entry exactly when
`meets` holds of the entries, the byte as a `char` and its entry. -/
def FirstsJump (F : BytecodeFile) (rounds : ℕ) (meets : List ℕ → ℤ → ℕ → Prop) : Prop :=
  ∃ L, mozvmLoaderLoadSyntax rounds F.encode true = .ok L ∧
    ∀ (P : Program) (R : Runtime), P.code = L.buf → RuntimeHas R L.C →
      ∀ (k addr : ℕ) (ks : List ℕ) (next : Option ℕ), F.insts[k]? = some ⟨.first, ks, next⟩ →
        L.table[k]? = some addr → ∀ c : Machine, c.pc = P.base + addr →
          ∃ t target, ks[(R.byteAt c.current).toNat]? = some t ∧ L.table[t]? = some target ∧
            (Vm1.step P R c = some (.next { c with pc := P.base + target }) ↔
              meets ks (R.charAt c.current) t)

theorem firsts_jump {F : BytecodeFile} {rounds : ℕ} (hF : F.WellFormed true)
    (hrounds : 2 * F.insts.length < rounds) : FirstsJump F rounds FirstFinds := by
  obtain ⟨L₁, L, pss, ps', hload, hloaded⟩ := mozvmLoaderLoadSyntax_ok hF hrounds
  refine ⟨L, hload, ?_⟩
  intro P R hcode hR k addr ks next hi haddr c hpc
  have hok := (hF.insts _ (List.mem_of_getElem? hi)).operands
  have hbyte : (R.byteAt c.current).toNat < ks.length := by
    have hlt := UInt8.toNat_lt (R.byteAt c.current)
    have hlength : ks.length = 257 := hok.1
    omega
  have ht := List.getElem?_eq_getElem hbyte
  have hindex : F.IsIndex (ks.get ⟨_, hbyte⟩) := hok.2 _ (List.mem_of_getElem? ht)
  have hplace : addr = place pss k := by
    rw [hloaded.second.table, hloaded.first.getElem?_table (List.getElem?_eq_some_iff.1 hi).1] at haddr
    exact (Option.some.inj haddr).symm
  rw [hplace] at hpc
  refine ⟨_, place pss (ks.get ⟨_, hbyte⟩), ht, ?_, hloaded.first_iff hF hcode hR hi hpc ht⟩
  rw [hloaded.second.table]
  exact hloaded.first.getElem?_table hindex

/-- The byte `a` alone has a target of its own. -/
def twoTargets : List ℕ := (List.range 257).map fun n => if n = 97 then 3 else 2

/-- A `First` that gets a plain table and one that becomes a `TblJump1`. -/
def bothFile : BytecodeFile :=
  smallFile 11 (⟨.first, nineTargets, none⟩ :: ⟨.first, twoTargets, none⟩ ::
    List.replicate 9 ⟨.exit, (0 : UInt8), none⟩)

theorem mem_twoTargets {k : ℕ} (h : k ∈ twoTargets) : k = 2 ∨ k = 3 := by
  obtain ⟨n, -, rfl⟩ := List.mem_map.1 h
  split_ifs
  · exact .inr rfl
  · exact .inl rfl

theorem bothFile_pools : bothFile.PoolsOk := by
  constructor <;> decide

theorem bothFile_wellFormed : bothFile.WellFormed true where
  toPoolsOk := bothFile_pools
  size := by decide
  production := by decide
  insts := by
    intro i hi
    obtain rfl | hi := List.mem_cons.1 hi
    · have hindex : ∀ k ∈ nineTargets, k < 11 := fun k hk => by have := mem_nineTargets hk; omega
      exact {
        operands := ⟨by simp [nineTargets], hindex⟩
        next := by rintro k ⟨⟩
        first := fun _ => rfl }
    obtain rfl | hi := List.mem_cons.1 hi
    · have hindex : ∀ k ∈ twoTargets, k < 11 := fun k hk => by have := mem_twoTargets hk; omega
      exact {
        operands := ⟨by simp [twoTargets], hindex⟩
        next := by rintro k ⟨⟩
        first := fun _ => rfl }
    · obtain rfl := List.eq_of_mem_replicate hi
      exact {
        operands := trivial
        next := by rintro k ⟨⟩
        first := fun _ => rfl }

theorem firsts_jump_bothFile : 8 < (distinctTargets (nineTargets.map Nat.cast)).length ∧
    (distinctTargets (twoTargets.map Nat.cast)).length ≤ 2 ∧ FirstsJump bothFile 100 FirstFinds :=
  ⟨distinctTargets_nineTargets, by decide +kernel, firsts_jump bothFile_wellFormed (by decide)⟩

/-- A `First` all of whose targets are the `First` itself. -/
def zeroFile : BytecodeFile := smallFile 1 [⟨.first, List.replicate 257 (0 : ℕ), none⟩]

theorem zeroFile_wellFormed : zeroFile.WellFormed true where
  instSize := by decide
  memoSize := by decide
  jmptblSize := by decide
  prods := by decide
  sets := by decide
  strs := by decide
  tags := by decide
  tables := by decide
  size := by decide
  production := by decide
  insts := by
    intro i hi
    obtain rfl := List.mem_singleton.1 hi
    exact {
      operands := by
        refine ⟨List.length_replicate, ?_⟩
        intro k hk
        obtain rfl : k = 0 := List.eq_of_mem_replicate hk
        exact Nat.zero_lt_one
      next := by rintro k ⟨⟩
      first := fun _ => rfl }

theorem distinctTargets_replicate (n : ℕ) (t : ℤ) :
    (distinctTargets (List.replicate n t)).length ≤ 1 := by
  induction n with
  | zero => exact Nat.zero_le 1
  | succ n ih =>
    rw [List.replicate_succ', distinctTargets_concat]
    split_ifs with hmem
    · exact ih
    · cases n with
      | zero => exact le_rfl
      | succ n =>
        have hself : t ∈ List.replicate (n + 1) t := List.mem_replicate.2 ⟨by omega, rfl⟩
        exact absurd (mem_distinctTargets hself) hmem

/-- The target 0 is taken for a slot without a target. -/
theorem firsts_lose : ¬ ∀ F : BytecodeFile, F.WellFormed true → ∀ rounds > 2 * F.insts.length,
    FirstsJump F rounds fun _ _ _ => True := by
  intro hclaim
  obtain ⟨L₁, L, pss, ps', hload, hloaded⟩ :=
    @mozvmLoaderLoadSyntax_ok zeroFile true zeroFile_wellFormed 100 (by decide)
  obtain ⟨L', hload', hjumps⟩ := hclaim zeroFile zeroFile_wellFormed 100 (by decide)
  obtain rfl : L = L' := by
    rw [hload] at hload'
    exact Except.ok.inj hload'
  have htable : L.table[0]? = some (place pss 0) := by
    rw [hloaded.second.table]
    exact hloaded.first.getElem?_table (by decide)
  have hinst : zeroFile.insts[0]? = some ⟨.first, List.replicate 257 (0 : ℕ), none⟩ := rfl
  have hpc : (startMachine (place pss 0)).pc = (codeAt0 L.buf).base + place pss 0 := (zero_add _).symm
  obtain ⟨t, target, ht, htarget, hstep⟩ := hjumps (codeAt0 L.buf) (byteRuntime L.C 0) rfl
    (byteRuntime_has _ _) 0 _ _ none hinst htable (startMachine (place pss 0)) hpc
  have hmem : t ∈ List.replicate 257 0 := List.mem_of_getElem? ht
  obtain rfl := List.eq_of_mem_replicate hmem
  obtain rfl := Option.some.inj (htable.symm.trans htarget)
  have hiff := hloaded.first_iff zeroFile_wellFormed rfl (byteRuntime_has _ _) hinst hpc ht
  have hmoves := hstep.2 True.intro
  rw [hiff] at hmoves
  unfold FirstFinds at hmoves
  rw [if_pos] at hmoves
  · exact hmoves rfl
  · rw [List.map_replicate]
    exact (distinctTargets_replicate 257 _).trans (by decide)

end Moz.Bytecode
