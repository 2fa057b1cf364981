import Moz.Bytecode.Decoding

/-!
# Choosing the target of a byte

A `First` is loaded as a table of 256 targets, or, when its targets are few, as
sets of bytes whose bits make up the number of the target. Either way the byte gets
the target that it has in the file.
-/

namespace Moz.Bytecode

open Compiler (Bitset bitsetGet)

section Bits

variable (p : ℕ → Prop) [DecidablePred p]

theorem getLsbD_foldl (n j : ℕ) (hj : j < 256) :
    ((List.range n).foldl (fun b i => if p i then bitsetSet b i else b) (0 : Bitset)).getLsbD j =
      decide (j < n ∧ p j) := by
  induction n with
  | zero => simp
  | succ n ih =>
    rw [List.range_succ, List.foldl_append, List.foldl_cons, List.foldl_nil]
    by_cases hp : p n
    · rw [if_pos hp, bitsetSet, BitVec.getLsbD_or, ih, BitVec.getLsbD_twoPow]
      by_cases heq : n = j
      · subst heq
        simp [hp, hj]
      · have hlt : j < n + 1 ↔ j < n := by omega
        simp [heq, hlt]
    · rw [if_neg hp, ih]
      by_cases heq : n = j
      · subst heq
        simp [hp]
      · have hlt : j < n + 1 ↔ j < n := by omega
        simp [hlt]

theorem bitsetGet_foldl (ch : UInt8) :
    bitsetGet ((List.range 256).foldl (fun b i => if p i then bitsetSet b i else b) 0) ch =
      decide (p ch.toNat) := by
  have hlt : ch.toNat < 256 := ch.toNat_lt
  rw [bitsetGet, getLsbD_foldl p 256 ch.toNat hlt]
  simp [hlt]

end Bits

theorem distinctTargets_concat (table : List ℤ) (t : ℤ) :
    distinctTargets (table ++ [t]) =
      if t ∈ distinctTargets table then distinctTargets table else distinctTargets table ++ [t] := by
  unfold distinctTargets
  rw [List.foldl_append, List.foldl_cons, List.foldl_nil]

theorem mem_distinctTargets {table : List ℤ} {t : ℤ} (h : t ∈ table) :
    t ∈ distinctTargets table := by
  induction table using List.reverseRecOn with
  | nil => cases h
  | append_singleton table a ih =>
    rw [distinctTargets_concat]
    split_ifs with ha
    · obtain h | h := List.mem_append.1 h
      · exact ih h
      · rwa [List.mem_singleton.1 h]
    · obtain h | h := List.mem_append.1 h
      · exact List.mem_append_left _ (ih h)
      · exact List.mem_append_right _ h

theorem nodup_distinctTargets (table : List ℤ) : (distinctTargets table).Nodup := by
  induction table using List.reverseRecOn with
  | nil => exact List.nodup_nil
  | append_singleton table a ih =>
    rw [distinctTargets_concat]
    split_ifs with ha
    · exact ih
    · exact List.nodup_append.2 ⟨ih, List.nodup_singleton a, by
        intro x hx y hy
        rw [List.mem_singleton.1 hy]
        rintro rfl
        exact ha hx⟩

/-- The distance of a target other than 0 is in its entry. -/
theorem EntryPatched.distance {T : List ℕ} {stop k : ℕ} {op : MozOpcode} {d : ℤ}
    (h : EntryPatched T stop op k d) (hk : k ≠ 0) : Distance T stop k d := by
  obtain ⟨-, h0, -⟩ | ⟨-, k', hk', hdistance⟩ := h
  · exact absurd (Int.natCast_eq_zero.1 h0) hk
  · rwa [Int.natCast_inj.1 hk']

theorem getD_eq_iff {targets : List ℤ} (hnodup : targets.Nodup) {j n : ℕ} {t : ℤ}
    (hj : targets[j]? = some t) (ht : t ≠ 0) : targets.getD n 0 = t ↔ n = j := by
  rw [List.getD_eq_getElem?_getD]
  constructor
  · intro h
    cases hn : targets[n]? with
    | none =>
      rw [hn] at h
      exact absurd h.symm ht
    | some t' =>
      rw [hn, Option.getD_some] at h
      subst h
      obtain ⟨hnlt, hnget⟩ := List.getElem?_eq_some_iff.1 hn
      obtain ⟨hjlt, hjget⟩ := List.getElem?_eq_some_iff.1 hj
      exact hnodup.getElem_inj_iff.1 (hnget.trans hjget.symm)
  · rintro rfl
    rw [hj, Option.getD_some]

section Jump

variable {targets table : List ℤ} {ch : UInt8} {t : ℤ}

theorem jumpTable1Init_b0 (targets table : List ℤ) :
    (jumpTable1Init targets table).b0 = jumpTableBits targets table [1] := by
  unfold jumpTable1Init jumpTableBits
  simp

/-- The bits of a byte make up the number of a slot with its target: the number of the target, or,
when this is 0 and there are slots without a target, the last slot. -/
theorem exists_slot (hnodup : targets.Nodup) {n : ℕ} (hlen : targets.length ≤ n) (hmem : t ∈ targets)
    (hch : table.getD ch.toNat 0 = t) :
    ∃ j < n, targets.getD j 0 = t ∧ ∀ members : List ℕ, (∀ k ∈ members, k < n) → n - 1 ∈ members →
      bitsetGet (jumpTableBits targets table members) ch = decide (j ∈ members) := by
  obtain ⟨j, hj⟩ := List.mem_iff_getElem?.1 hmem
  have hjlt : j < targets.length := (List.getElem?_eq_some_iff.1 hj).1
  have hjget : targets.getD j 0 = t := by rw [List.getD_eq_getElem?_getD, hj, Option.getD_some]
  have hbits : ∀ members, bitsetGet (jumpTableBits targets table members) ch =
      decide ((members.any fun k => targets.getD k 0 = t) = true) := by
    intro members
    unfold jumpTableBits
    rw [bitsetGet_foldl (fun i => (members.any fun k => targets.getD k 0 = table.getD i 0) = true),
      hch]
  by_cases hlast : t = 0 ∧ targets.length < n
  · obtain ⟨rfl, hlt⟩ := hlast
    have hget : targets.getD (n - 1) 0 = 0 := by
      rw [List.getD_eq_getElem?_getD, List.getElem?_eq_none (by omega), Option.getD_none]
    refine ⟨n - 1, by omega, hget, ?_⟩
    intro members _ hmember
    rw [hbits]
    apply decide_eq_decide.2
    rw [List.any_eq_true]
    exact ⟨fun _ => hmember, fun _ => ⟨n - 1, hmember, decide_eq_true hget⟩⟩
  · refine ⟨j, hjlt.trans_le hlen, hjget, ?_⟩
    intro members hmembers _
    have hslot : ∀ k ∈ members, targets.getD k 0 = t ↔ k = j := by
      intro k hk
      by_cases ht : t = 0
      · have hklt : k < targets.length := by
          have := hmembers k hk
          omega
        have hkget : targets.getD k 0 = targets.get ⟨k, hklt⟩ := by
          rw [List.getD_eq_getElem?_getD, List.getElem?_eq_getElem hklt]
          rfl
        have hjget' : targets.get ⟨j, hjlt⟩ = t := (List.getElem?_eq_some_iff.1 hj).2
        rw [hkget, ← hjget']
        exact hnodup.getElem_inj_iff
      · exact getD_eq_iff hnodup hj ht
    rw [hbits]
    apply decide_eq_decide.2
    simp only [List.any_eq_true, decide_eq_true_eq]
    constructor
    · rintro ⟨k, hk, hget⟩
      rwa [← (hslot k hk).1 hget]
    · exact fun hk => ⟨j, hk, hjget⟩

end Jump

theorem forall₂_getElem? {α β : Type} {R : α → β → Prop} {l : List α} {l' : List β}
    (h : List.Forall₂ R l l') {n : ℕ} {a : α} (ha : l[n]? = some a) :
    ∃ b, l'[n]? = some b ∧ R a b := by
  obtain ⟨hn, rfl⟩ := List.getElem?_eq_some_iff.1 ha
  have hn' : n < l'.length := h.length_eq ▸ hn
  exact ⟨_, List.getElem?_eq_getElem hn', h.get hn hn'⟩

structure RuntimeHas (R : Runtime) (C : Constants) : Prop where
  strs : R.strs = C.strs
  sets : R.sets = C.sets
  tags : R.tags = C.tags
  tables : R.tables = C.tables
  jumps : R.jumps = C.jumps
  jumps1 : R.jumps1 = C.jumps1
  jumps2 : R.jumps2 = C.jumps2
  jumps3 : R.jumps3 = C.jumps3

section Table

open Vm1 (exec Machine Outcome)

variable {R : Runtime} {T : List ℕ} {C C' : Constants} {stop id : ℕ} {ks : List ℕ} {js' : List ℤ}
  {current : ℕ}

/-- The byte at `current` has the target `k` in the file. -/
structure Chooses (R : Runtime) (ks : List ℕ) (current k : ℕ) : Prop where
  mem : k ∈ ks
  byte : (ks.map (Nat.cast : ℕ → ℤ)).getD (R.byteAt current).toNat 0 = k

theorem Chooses.mem_targets {k : ℕ} (h : Chooses R ks current k) :
    (k : ℤ) ∈ distinctTargets (ks.map Nat.cast) :=
  mem_distinctTargets (List.mem_map.2 ⟨k, h.mem, rfl⟩)

/-- The entry in the slot `j` of a table by bits. -/
theorem slot_patched {op : MozOpcode} {n j : ℕ} {targets : List ℤ} {t : ℤ} (hj : j < n)
    (hget : targets.getD j 0 = t)
    (hentries : List.Forall₂ (EntryPatched T stop op)
      ((List.range n).map fun i => targets.getD i 0) js') :
    ∃ d, js'[j]? = some d ∧ EntryPatched T stop op t d := by
  have hentry : ((List.range n).map fun i => targets.getD i 0)[j]? = some t := by
    rw [List.getElem?_map, List.getElem?_range hj, Option.map_some, hget]
  exact forall₂_getElem? hentries hentry

theorem exec_tblJump1 (hbody : C.jumps1[id]? =
      some (jumpTable1Init (distinctTargets (ks.map Nat.cast)) (ks.map Nat.cast)))
    (hsame : SameUpToJumps C C') (hR : RuntimeHas R C') (hid : id < 2 ^ 16)
    (hjs' : jumpsOf C' .tblJump1 id = some js')
    (hlen : (distinctTargets (ks.map Nat.cast)).length ≤ 1)
    (hentries : List.Forall₂ (EntryPatched T stop .tblJump1)
      ((List.range 2).map fun i => (distinctTargets (ks.map Nat.cast)).getD i 0) js')
    {k : ℕ} (hk : Chooses R ks current k) :
    ∃ d, EntryPatched T stop .tblJump1 k d ∧ ∀ c : Machine, c.current = current →
      exec R c (.tblJump1 (UInt16.ofNat id)) = exec R c (.jump d) := by
  obtain ⟨j, hjlt, hjget, hmembers⟩ := exists_slot (nodup_distinctTargets _)
    (hlen.trans (by decide : 1 ≤ 2)) hk.mem_targets hk.byte
  obtain ⟨d, hd, hpatched⟩ := slot_patched hjlt hjget hentries
  refine ⟨d, hpatched, ?_⟩
  rintro c rfl
  obtain ⟨tbl, htbl, rfl⟩ := Option.map_eq_some_iff.1 hjs'
  have hbits := congrArg (fun l : List _ => l[id]?) hsame.bits1
  simp only [List.getElem?_map, htbl, hbody, Option.map_some, Option.some.injEq] at hbits
  have hb0 : bitsetGet tbl.b0 (R.byteAt c.current) = decide (j ∈ [1]) := by
    rw [hbits, jumpTable1Init_b0]
    exact hmembers [1] (by decide) (by decide)
  have hjump : jumpTable1Jump tbl (R.byteAt c.current) = some d := by
    unfold jumpTable1Jump
    rw [hb0]
    interval_cases j <;> simpa using hd
  have hget : R.jumps1[(UInt16.ofNat id).toNat]? = some tbl := by
    rw [hR.jumps1, UInt16.toNat_ofNat_of_lt' hid, htbl]
  simp only [exec, hget, bind, Option.bind, hjump]
  rfl

theorem exec_tblJump2 (hbody : C.jumps2[id]? =
      some (jumpTable2Init (distinctTargets (ks.map Nat.cast)) (ks.map Nat.cast)))
    (hsame : SameUpToJumps C C') (hR : RuntimeHas R C') (hid : id < 2 ^ 16)
    (hjs' : jumpsOf C' .tblJump2 id = some js')
    (hlen : (distinctTargets (ks.map Nat.cast)).length ≤ 4)
    (hentries : List.Forall₂ (EntryPatched T stop .tblJump2)
      ((List.range 4).map fun i => (distinctTargets (ks.map Nat.cast)).getD i 0) js')
    {k : ℕ} (hk : Chooses R ks current k) :
    ∃ d, EntryPatched T stop .tblJump2 k d ∧ ∀ c : Machine, c.current = current →
      exec R c (.tblJump2 (UInt16.ofNat id)) = exec R c (.jump d) := by
  obtain ⟨j, hjlt, hjget, hmembers⟩ :=
    exists_slot (nodup_distinctTargets _) hlen hk.mem_targets hk.byte
  obtain ⟨d, hd, hpatched⟩ := slot_patched hjlt hjget hentries
  refine ⟨d, hpatched, ?_⟩
  rintro c rfl
  obtain ⟨tbl, htbl, rfl⟩ := Option.map_eq_some_iff.1 hjs'
  have hbits := congrArg (fun l : List _ => l[id]?) hsame.bits2
  simp only [List.getElem?_map, htbl, hbody, Option.map_some, Option.some.injEq,
    Prod.mk.injEq, jumpTable2Init] at hbits
  have hb0 : bitsetGet tbl.b0 (R.byteAt c.current) = decide (j ∈ [3, 1]) := by
    rw [hbits.1]
    exact hmembers [3, 1] (by decide) (by decide)
  have hb1 : bitsetGet tbl.b1 (R.byteAt c.current) = decide (j ∈ [3, 2]) := by
    rw [hbits.2]
    exact hmembers [3, 2] (by decide) (by decide)
  have hjump : jumpTable2Jump tbl (R.byteAt c.current) = some d := by
    unfold jumpTable2Jump
    rw [hb0, hb1]
    interval_cases j <;> simpa using hd
  have hget : R.jumps2[(UInt16.ofNat id).toNat]? = some tbl := by
    rw [hR.jumps2, UInt16.toNat_ofNat_of_lt' hid, htbl]
  simp only [exec, hget, bind, Option.bind, hjump]
  rfl

theorem exec_tblJump3 (hbody : C.jumps3[id]? =
      some (jumpTable3Init (distinctTargets (ks.map Nat.cast)) (ks.map Nat.cast)))
    (hsame : SameUpToJumps C C') (hR : RuntimeHas R C') (hid : id < 2 ^ 16)
    (hjs' : jumpsOf C' .tblJump3 id = some js')
    (hlen : (distinctTargets (ks.map Nat.cast)).length ≤ 8)
    (hentries : List.Forall₂ (EntryPatched T stop .tblJump3)
      ((List.range 8).map fun i => (distinctTargets (ks.map Nat.cast)).getD i 0) js')
    {k : ℕ} (hk : Chooses R ks current k) :
    ∃ d, EntryPatched T stop .tblJump3 k d ∧ ∀ c : Machine, c.current = current →
      exec R c (.tblJump3 (UInt16.ofNat id)) = exec R c (.jump d) := by
  obtain ⟨j, hjlt, hjget, hmembers⟩ :=
    exists_slot (nodup_distinctTargets _) hlen hk.mem_targets hk.byte
  obtain ⟨d, hd, hpatched⟩ := slot_patched hjlt hjget hentries
  refine ⟨d, hpatched, ?_⟩
  rintro c rfl
  obtain ⟨tbl, htbl, rfl⟩ := Option.map_eq_some_iff.1 hjs'
  have hbits := congrArg (fun l : List _ => l[id]?) hsame.bits3
  simp only [List.getElem?_map, htbl, hbody, Option.map_some, Option.some.injEq,
    Prod.mk.injEq, jumpTable3Init] at hbits
  have hb0 : bitsetGet tbl.b0 (R.byteAt c.current) = decide (j ∈ [7, 5, 3, 1]) := by
    rw [hbits.1]
    exact hmembers [7, 5, 3, 1] (by decide) (by decide)
  have hb1 : bitsetGet tbl.b1 (R.byteAt c.current) = decide (j ∈ [7, 6, 3, 2]) := by
    rw [hbits.2.1]
    exact hmembers [7, 6, 3, 2] (by decide) (by decide)
  have hb2 : bitsetGet tbl.b2 (R.byteAt c.current) = decide (j ∈ [7, 6, 5, 4]) := by
    rw [hbits.2.2]
    exact hmembers [7, 6, 5, 4] (by decide) (by decide)
  have hjump : jumpTable3Jump tbl (R.byteAt c.current) = some d := by
    unfold jumpTable3Jump
    rw [hb0, hb1, hb2]
    interval_cases j <;> simpa using hd
  have hget : R.jumps3[(UInt16.ofNat id).toNat]? = some tbl := by
    rw [hR.jumps3, UInt16.toNat_ofNat_of_lt' hid, htbl]
  simp only [exec, hget, bind, Option.bind, hjump]
  rfl

/-- A `First` with its table finds the target of a plain `char` that is not negative. -/
theorem exec_first (hR : RuntimeHas R C') (hid : id < 2 ^ 16)
    (hjs' : jumpsOf C' .first id = some js') (hlen : ks.length = 257)
    (hentries : List.Forall₂ (EntryPatched T stop .first)
      ((ks.map (Nat.cast : ℕ → ℤ)).take 256) js')
    (hchar : R.charAt current = (R.byteAt current).toNat) :
    ∃ d, Distance T stop (ks.getD (R.byteAt current).toNat 0) d ∧
      ∀ c : Machine, c.current = current →
        exec R c (.first (UInt16.ofNat id)) = exec R c (.jump d) := by
  have hlt : (R.byteAt current).toNat < 256 := UInt8.toNat_lt _
  have hks : (R.byteAt current).toNat < ks.length := by omega
  have hentry : ((ks.map (Nat.cast : ℕ → ℤ)).take 256)[(R.byteAt current).toNat]? =
      some ((ks.getD (R.byteAt current).toNat 0 : ℕ) : ℤ) := by
    rw [List.getElem?_take_of_lt hlt, List.getElem?_map, List.getElem?_eq_getElem hks,
      Option.map_some, List.getD_eq_getElem?_getD, List.getElem?_eq_getElem hks, Option.getD_some]
  obtain ⟨d, hd, hpatched⟩ := forall₂_getElem? hentries hentry
  obtain ⟨hne, -⟩ | ⟨-, k, hk, hdistance⟩ := hpatched
  · exact absurd rfl hne
  · rw [← Int.natCast_inj.1 hk] at hdistance
    refine ⟨d, hdistance, ?_⟩
    rintro c rfl
    have hget : R.jumps[(UInt16.ofNat id).toNat]? = some js' := by
      rw [hR.jumps, UInt16.toNat_ofNat_of_lt' hid]
      exact hjs'
    have hjump : Vm1.first R c.current (UInt16.ofNat id) = some d := by
      unfold Vm1.first
      rw [hget, hchar]
      simpa using hd
    simp only [exec, hjump, bind, Option.bind]
    rfl

end Table

end Moz.Bytecode
