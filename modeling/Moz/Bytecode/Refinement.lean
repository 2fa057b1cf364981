import Moz.Bytecode.Simulation
import Moz.Lib.Simulation

/-!
# The loader refines the instruction list

VM1 follows each step of the machine that runs the list. It takes no step for what
was left out, two for an instruction that ends with a jump, and one for the others.
A jump to a `Ret` that became a `Ret` is no step: what it would do is done when the
file's machine is at the `Ret`.
-/

namespace Moz.Bytecode

open Relation (ReflTransGen)
open Vm1 (Inst Machine Program Outcome exec failImpl SameInst FrameTyped)

def Moves (P : Program) (R : Runtime) (c c' : Machine) : Prop := Vm1.step P R c = some (.next c')

section Step

variable {P : Program} {R : Runtime} {c c' : Machine} {inst : Inst} {stop : ℤ}

theorem moves_of_next (hfetch : P.fetch c.pc = some (inst, stop))
    (hexec : exec R { c with pc := stop } inst = some (.next c')) : Moves P R c c' := by
  unfold Moves Vm1.step
  rw [hfetch]
  simp only [Option.bind_eq_bind, Option.bind_some, hexec]
  rfl

theorem moves_of_failed {c₁ : Machine} (hfetch : P.fetch c.pc = some (inst, stop))
    (hexec : exec R { c with pc := stop } inst = some (.failed c₁)) (hfail : failImpl c₁ = some c') :
    Moves P R c c' := by
  unfold Moves Vm1.step
  rw [hfetch]
  simp only [Option.bind_eq_bind, Option.bind_some, hexec]
  rw [hfail]
  rfl

theorem step_of_stuck (hfetch : P.fetch c.pc = some (inst, stop))
    (hexec : exec R { c with pc := stop } inst = none) : Vm1.step P R c = none := by
  unfold Vm1.step
  rw [hfetch]
  simp only [Option.bind_eq_bind, Option.bind_some, hexec, Option.bind_none]

theorem step_of_exit {status : Int8} {current : ℕ} (hfetch : P.fetch c.pc = some (inst, stop))
    (hexec : exec R { c with pc := stop } inst = some (.exit status current)) :
    Vm1.step P R c = some (.exit status current) := by
  unfold Vm1.step
  rw [hfetch]
  simp only [Option.bind_eq_bind, Option.bind_some, hexec]
  rfl

end Step

/-- VM1 is at `pc'` when the file's machine is at `pc`. -/
def AtPlace (P : Program) (L : Loader) (pc pc' : ℤ) : Prop :=
  pc' = codeAddress P L pc ∨ IsRet P pc' ∧ IsRet P (codeAddress P L pc)

/-- VM1 has the state of the file's machine, with the addresses of the loaded code. -/
def Relocated (P : Program) (L : Loader) (s : Marked) (c : Machine) : Prop :=
  ∃ pc, AtPlace P L s.machine.pc pc ∧ c = s.machine.relocate (codeAddress P L) s.marks pc

/-- VM1 finds the instructions of the file where their addresses are. -/
def Placed (P : Program) (R : Runtime) (opt : Bool) (L : Loader) (insts : List FileInst) : Prop :=
  ∀ (k : ℕ) (i : FileInst), insts[k]? = some i → ∃ a b : ℕ, codeAddress P L k = P.base + a ∧
    MainAt P R opt L i a b ∧ TailAt P L i k b

/-- What VM1 needs of the instruction that is next: the byte has its own entry when it is a `First`
with a table, and it is a `Label` only if these were left out. -/
def CanFollow (opt : Bool) (R : Runtime) (insts : List FileInst) (s : Marked) : Prop :=
  ∀ (k : ℕ) (i : FileInst), s.machine.pc = k → insts[k]? = some i →
    FirstOk R s.machine.current i.op i.operands ∧ (i.op = .label → opt)

theorem LoadedFile.placed {F : BytecodeFile} {opt : Bool} {L₁ L : Loader} {pss : List (List Piece)}
    {ps' : List Piece} {P : Program} {R : Runtime} (h : LoadedFile F opt L₁ L pss ps')
    (hF : F.WellFormed opt) (hpos : ∀ i ∈ F.insts, FirstPos i.op.shape i.operands)
    (hcode : P.code = L.buf) (hR : RuntimeHas R L.C) : Placed P R opt L F.insts := by
  intro k i hi
  obtain ⟨main, main', tail', hat⟩ := h.piecesAt hi
  have hk : k < F.insts.length := (List.getElem?_eq_some_iff.1 hi).1
  exact ⟨_, _, h.codeAddress_eq hk.le,
    hat.mainAt h hF hcode hR hi (hpos i (List.mem_of_getElem? hi)), hat.tailAt h hF hcode hi⟩

section Follow

variable {P : Program} {R : Runtime} {opt : Bool} {L : Loader} {i : FileInst} {k a b : ℕ}
  {m m' : Machine} {t : ℕ → Bool} {pc' : ℤ}

/-- From the end of an instruction VM1 comes to where the file's machine goes on. -/
theorem TailAt.reaches (h : TailAt P L i k b) (hpc : m.pc = i.after k) :
    ∃ c', ReflTransGen (Moves P R) (m.relocate (codeAddress P L) t (P.base + b)) c' ∧
      Relocated P L ⟨m, t⟩ c' := by
  unfold FileInst.after at hpc
  cases h with
  | none hnone hb =>
    rw [hnone] at hpc
    have hplace : P.base + b = codeAddress P L m.pc := by
      rw [hb, hpc]
      rfl
    exact ⟨_, .refl, _, .inl hplace, rfl⟩
  | @jump target d hsome hfetch hd =>
    rw [hsome] at hpc
    refine ⟨_, .single (moves_of_next hfetch rfl), _, .inl rfl, ?_⟩
    rw [hpc]
    show Machine.jump { m.relocate (codeAddress P L) t _ with pc := P.base + (b + 5 : ℕ) } d =
      m.relocate (codeAddress P L) t (codeAddress P L target)
    rw [← hd]
    rfl
  | @ret target hsome hb htarget =>
    rw [hsome] at hpc
    refine ⟨_, .refl, _, .inr ⟨hb, ?_⟩, rfl⟩
    rw [hpc]
    exact htarget

/-- When a `Ret` is at the end of an instruction, the file's machine goes on at a `Ret`. -/
theorem TailAt.isRet (h : TailAt P L i k b) (hb : IsRet P (P.base + b)) :
    IsRet P (codeAddress P L (i.after k)) := by
  unfold FileInst.after
  cases h with
  | none hnone hplace =>
    rw [hnone]
    exact hplace ▸ hb
  | jump hsome hfetch hd =>
    obtain ⟨d, hret⟩ := hb.fetch
    rw [hfetch] at hret
    cases hret
  | ret hsome _ htarget =>
    rw [hsome]
    exact htarget

/-- What VM1 does at `pc'` for the operation `inst` of an instruction whose operands end at `stop`. -/
inductive MainDone (P : Program) (R : Runtime) (L : Loader) (m : Machine) (t : ℕ → Bool) (stop : ℤ)
    (inst : Inst) (b : ℕ) (pc' : ℤ) : Prop
  | executed {inst' : Inst} {stop' p : ℤ} (hfetch : P.fetch pc' = some (inst', stop'))
      (hexec : exec R (Machine.relocate (codeAddress P L) t stop' { m with pc := stop }) inst' =
        (exec R { m with pc := stop } inst).map
          (Outcome.relocate (codeAddress P L) (inst.marks t m) p))
      (hnext : ∀ m', exec R { m with pc := stop } inst = some (.next m') →
        m'.pc = stop ∧ p = P.base + b ∨ p = codeAddress P L m'.pc)
  | skipped {pc : ℤ}
      (hexec : exec R { m with pc := stop } inst = some (.next { m with pc := pc }))
      (hmarks : inst.marks t m = t)
      (hplace : ∃ c', ReflTransGen (Moves P R) (m.relocate (codeAddress P L) t pc') c' ∧
        Relocated P L ⟨{ m with pc := pc }, t⟩ c')

theorem MainAt.done (h : MainAt P R opt L i a b) (htail : TailAt P L i k b)
    (ha : codeAddress P L k = P.base + a) (hm : m.pc = k) (hplace : AtPlace P L m.pc pc')
    (hfirst : FirstOk R m.current i.op i.operands) (hlabel : i.op = .label → opt)
    (htyped : (vmInst (i.after k) (R.byteAt m.current) i.op i.operands).Typed t m) :
    MainDone P R L m t (i.after k) (vmInst (i.after k) (R.byteAt m.current) i.op i.operands) b pc' := by
  rw [hm] at hplace
  cases h with
  | label ho hop => exact absurd (hlabel hop) ho
  | elided ho hop hb =>
    subst hb
    obtain ⟨op, operands, next⟩ := i
    have hnop : vmInst (FileInst.after ⟨op, operands, next⟩ k) (R.byteAt m.current) op operands =
          .nop ∨
        vmInst (FileInst.after ⟨op, operands, next⟩ k) (R.byteAt m.current) op operands = .label := by
      obtain rfl | rfl := hop
      · exact .inl rfl
      · exact .inr rfl
    have hreaches : ∃ c', ReflTransGen (Moves P R) (m.relocate (codeAddress P L) t pc') c' ∧
        Relocated P L ⟨{ m with pc := FileInst.after ⟨op, operands, next⟩ k }, t⟩ c' := by
      obtain rfl | ⟨hret, hretPlace⟩ := hplace
      · rw [ha]
        exact @TailAt.reaches P R L _ k b
          { m with pc := FileInst.after ⟨op, operands, next⟩ k } t htail rfl
      · rw [ha] at hretPlace
        exact ⟨_, .refl, pc', .inr ⟨hret, htail.isRet hretPlace⟩, rfl⟩
    simp only at hnop ⊢
    obtain hnop | hnop := hnop <;> rw [hnop] <;> exact .skipped rfl rfl hreaches
  | @inst inst₁ hfetch hsame hret =>
    obtain rfl | ⟨hretHere, hretPlace⟩ := hplace
    · rw [← ha] at hfetch
      obtain ⟨inst', hexec', hinst⟩ := hsame m.current (i.after k) hfirst
      obtain ⟨p, hexec, hnext⟩ := @Vm1.exec_relocate _ t { m with pc := i.after k } R _ _ inst' hinst
        htyped
      refine .executed hfetch ?_ hnext
      exact (hexec' (Machine.relocate _ t _ { m with pc := i.after k }) rfl).trans hexec
    · rw [ha] at hretPlace
      obtain ⟨d, hd⟩ := hretPlace.fetch
      obtain ⟨d', hd'⟩ := hretHere.fetch
      rw [hfetch] at hd
      obtain ⟨rfl, -⟩ := Prod.mk.inj (Option.some.inj hd)
      obtain ⟨op, operands, next⟩ := i
      obtain rfl : op = .ret := hret d rfl
      refine .executed hd' (@Vm1.exec_ret_relocate _ t _ { m with pc := _ } R d' htyped) ?_
      rintro m' ⟨⟩
      exact .inr rfl
  | @ret target hvm hretHere htarget =>
    rw [hvm]
    have hexec : exec R { m with pc := i.after k } (.jump (distance target (i.after k))) =
        some (.next { m with pc := target }) := by
      show some (Outcome.next { m with pc := i.after k + distance target (i.after k) }) = _
      rw [add_distance]
    refine .skipped hexec rfl ⟨_, .refl, pc', .inr ⟨?_, htarget⟩, rfl⟩
    obtain rfl | ⟨hret, -⟩ := hplace
    · rwa [ha]
    · exact hret

end Follow

section Run

variable {insts : List FileInst} {P : Program} {R : Runtime} {opt : Bool} {L : Loader}
  {s s' : Marked} {c : Machine}

theorem listFetch_inv {byte : UInt8} {pc stop : ℤ} {inst : Inst}
    (h : listFetch insts byte pc = some (inst, stop)) :
    (∃ (k : ℕ) (i : FileInst), pc = k ∧ insts[k]? = some i ∧ stop = i.after k ∧
      inst = vmInst (i.after k) byte i.op i.operands) ∨
    (pc = listStub ∧ inst = .exit 0) ∨ (pc = listStub + 2 ∧ inst = .exit 1) := by
  unfold listFetch at h
  split_ifs at h with hpos hstub hstub'
  · obtain ⟨i, hi, heq⟩ := Option.map_eq_some_iff.1 h
    obtain ⟨rfl, rfl⟩ := Prod.mk.inj heq
    have hk : ((pc.toNat : ℕ) : ℤ) = pc := Int.toNat_of_nonneg hpos
    exact .inl ⟨pc.toNat, i, hk.symm, hi, by rw [hk], by rw [hk]⟩
  · obtain ⟨rfl, -⟩ := Prod.mk.inj (Option.some.inj h)
    exact .inr (.inl ⟨hstub, rfl⟩)
  · obtain ⟨rfl, -⟩ := Prod.mk.inj (Option.some.inj h)
    exact .inr (.inr ⟨hstub', rfl⟩)

theorem Placed.follows (h : Placed P R opt L insts) :
    Simulation.Follows (ListStep insts R) (Moves P R) (CanFollow opt R insts) (Relocated P L) := by
  intro s s' c hok hstep hc
  obtain ⟨pc', hplace, rfl⟩ := hc
  cases hstep with
  | @next m m' t inst stop hfetch hexec htyped =>
    obtain ⟨k, i, hk, hi, rfl, rfl⟩ | ⟨-, rfl⟩ | ⟨-, rfl⟩ := listFetch_inv hfetch
    · obtain ⟨a, b, ha, hmain, htail⟩ := h k i hi
      obtain ⟨hfirst, hlabel⟩ := hok k i hk hi
      cases hmain.done htail ha hk hplace hfirst hlabel htyped with
      | @executed inst' stop' p hfetch' hexec' hnext =>
        rw [hexec] at hexec'
        have hmove : Moves P R (m.relocate (codeAddress P L) t pc')
            (m'.relocate (codeAddress P L) (Inst.marks t m _) p) := moves_of_next hfetch' hexec'
        obtain ⟨hpc, rfl⟩ | rfl := hnext m' hexec
        · obtain ⟨c', hc', hrelocated⟩ := htail.reaches hpc
          exact ⟨c', .head hmove hc', hrelocated⟩
        · exact ⟨_, .single hmove, _, .inl rfl, rfl⟩
      | skipped hexec' hmarks hreaches =>
        rw [hexec] at hexec'
        cases hexec'
        rwa [hmarks]
    · cases hexec
    · cases hexec
  | @fail m m₁ m' t inst stop hfetch hexec htyped hframe hfail =>
    obtain ⟨k, i, hk, hi, rfl, rfl⟩ | ⟨-, rfl⟩ | ⟨-, rfl⟩ := listFetch_inv hfetch
    · obtain ⟨a, b, ha, hmain, htail⟩ := h k i hi
      obtain ⟨hfirst, hlabel⟩ := hok k i hk hi
      cases hmain.done htail ha hk hplace hfirst hlabel htyped with
      | @executed inst' stop' p hfetch' hexec' hnext =>
        rw [hexec] at hexec'
        have hmarks : Inst.marks t m _ = t :=
          @Vm1.marks_of_failed t { m with pc := i.after k } m₁ R _ hexec
        rw [hmarks] at hexec'
        have hmove : Moves P R (m.relocate (codeAddress P L) t pc')
            (m'.relocate (codeAddress P L) t (codeAddress P L m'.pc)) :=
          moves_of_failed hfetch' hexec' (Vm1.failImpl_relocate hframe hfail)
        exact ⟨_, .single hmove, _, .inl rfl, rfl⟩
      | skipped hexec' =>
        rw [hexec] at hexec'
        cases hexec'
    · cases hexec
    · cases hexec

theorem IsRet.inside {pc : ℤ} (h : IsRet P pc) : P.base ≤ pc ∧ pc < P.base + P.code.length := by
  obtain ⟨hbase, hopcode⟩ := h
  have hlt := (List.getElem?_eq_some_iff.1 hopcode).1
  omega

theorem AtPlace.stub {k pc' : ℤ} (hk : 0 ≤ k ∧ k < 4) (h : AtPlace P L (listStub + k) pc') :
    pc' = P.stub + k := by
  have hstub : codeAddress P L (listStub + k) = P.stub + k := by
    unfold codeAddress listStub
    rw [if_neg (by omega)]
    omega
  unfold AtPlace at h
  rw [hstub] at h
  obtain rfl | ⟨-, hret⟩ := h
  · rfl
  · have hinside := hret.inside
    have hdisjoint := P.disjoint
    omega

theorem fetch_stub {k : ℕ} {inst : Inst} {stop : ℕ} (hk : k < 4)
    (h : Vm1.decode Vm1.stubCode k = some (inst, stop)) :
    P.fetch (P.stub + k) = some (inst, P.stub + stop) := by
  have hdisjoint := P.disjoint
  have hoffset : (P.stub + k - P.stub).toNat = k := by omega
  have hlength : Vm1.stubCode.length = 4 := rfl
  unfold Program.fetch
  rw [if_neg (by omega), if_pos (by omega), hoffset, h, Option.map_some]

theorem vmInst_eq_exit {next : ℤ} {byte : UInt8} {op : MozOpcode} {operands : op.shape.Operands}
    {status : Int8} (h : vmInst next byte op operands = .exit status) : op = .exit := by
  cases op with
  | exit => rfl
  | tblJump1 | tblJump2 | tblJump3 | tAbort | sDefNum | sCount => cases operands
  | _ => cases h

theorem Placed.exits (h : Placed P R opt L insts) (hc : Relocated P L s c) {status : Int8}
    (hexit : ListExit insts R s.machine status) :
    Vm1.step P R c = some (.exit status s.machine.current) := by
  obtain ⟨pc', hplace, rfl⟩ := hc
  obtain ⟨stop, hfetch⟩ := hexit
  obtain ⟨m, t⟩ := s
  obtain ⟨k, i, hk, hi, rfl, hinst⟩ | ⟨hpc, hinst⟩ | ⟨hpc, hinst⟩ := listFetch_inv hfetch
  · obtain ⟨a, b, ha, hmain, htail⟩ := h k i hi
    obtain ⟨op, operands, next⟩ := i
    obtain rfl := vmInst_eq_exit hinst.symm
    cases hmain.done htail ha hk hplace trivial (fun hlabel => by cases hlabel) trivial with
    | executed hfetch' hexec' =>
      simp only at hinst hexec'
      rw [← hinst] at hexec'
      exact step_of_exit hfetch' hexec'
    | skipped hexec' =>
      simp only at hinst hexec'
      rw [← hinst] at hexec'
      cases hexec'
  · obtain rfl := Inst.exit.inj hinst
    have hstub := @AtPlace.stub P L 0 pc' (by omega) (by rwa [add_zero, ← hpc])
    rw [hstub]
    exact step_of_exit (@fetch_stub P 0 (.exit 0) 2 (by omega) rfl) rfl
  · obtain rfl := Inst.exit.inj hinst
    have hstub := @AtPlace.stub P L 2 pc' (by omega) (by rwa [← hpc])
    rw [hstub]
    exact step_of_exit (@fetch_stub P 2 (.exit 1) 4 (by omega) rfl) rfl

end Run

/-- The file is loaded, and from the place of each index VM1 follows the runs of the list whose steps
start in states that satisfy `ok`, and returns where they do. -/
def Refines (F : BytecodeFile) (rounds : ℕ) (ok : Runtime → Marked → Prop) : Prop :=
  ∃ L, mozvmLoaderLoadSyntax rounds F.encode true = .ok L ∧
    ∀ (P : Program) (R : Runtime), P.code = L.buf → RuntimeHas R L.C →
      ∀ (k addr : ℕ), L.table[k]? = some addr → ∀ s s' : Marked, s.machine.pc = k →
        Simulation.Run (ListStep F.insts R) (ok R) s s' →
          ∃ c, ReflTransGen (Moves P R)
              (s.machine.relocate (codeAddress P L) s.marks (P.base + addr)) c ∧
            Relocated P L s' c ∧
            ∀ status, ListExit F.insts R s'.machine status →
              Vm1.step P R c = some (.exit status s'.machine.current)

section Loaded

variable {F : BytecodeFile} {rounds : ℕ}

theorem loading_refines (hF : F.WellFormed true)
    (hpos : ∀ i ∈ F.insts, FirstPos i.op.shape i.operands) (hrounds : 2 * F.insts.length < rounds) :
    Refines F rounds fun R => CanFollow true R F.insts := by
  obtain ⟨L₁, L, pss, ps', hload, hloaded⟩ := mozvmLoaderLoadSyntax_ok hF hrounds
  refine ⟨L, hload, ?_⟩
  intro P R hcode hR k addr haddr s s' hk hrun
  have hplaced : Placed P R true L F.insts := hloaded.placed hF hpos hcode hR
  have haddress : P.base + addr = codeAddress P L s.machine.pc := by
    unfold codeAddress
    rw [hk, if_pos (Int.natCast_nonneg k), Int.toNat_natCast, haddr, Option.getD_some]
  obtain ⟨c, hc, hrelocated⟩ := hplaced.follows.run hrun ⟨_, .inl haddress, rfl⟩
  exact ⟨c, hc, hrelocated, fun status hexit => hplaced.exits hrelocated hexit⟩

end Loaded

def nineTargets : List ℕ := (List.range 257).map fun n => n % 9 + 1

/-- A `First` with more than eight targets, which are `Exit`s. -/
def firstFile : BytecodeFile :=
  smallFile 10 (⟨.first, nineTargets, none⟩ :: List.replicate 9 ⟨.exit, (0 : UInt8), none⟩)

theorem mem_nineTargets {k : ℕ} (h : k ∈ nineTargets) : 0 < k ∧ k < 10 := by
  obtain ⟨n, -, rfl⟩ := List.mem_map.1 h
  omega

theorem distinctTargets_nineTargets : 8 < (distinctTargets (nineTargets.map Nat.cast)).length := by
  have hsub : (List.range 9).map (fun n : ℕ => ((n + 1 : ℕ) : ℤ)) ⊆
      distinctTargets (nineTargets.map Nat.cast) := by
    intro x hx
    obtain ⟨n, hn, rfl⟩ := List.mem_map.1 hx
    have hlt := List.mem_range.1 hn
    apply mem_distinctTargets
    refine List.mem_map.2 ⟨n + 1, List.mem_map.2 ⟨n, List.mem_range.2 (by omega), ?_⟩, rfl⟩
    rw [Nat.mod_eq_of_lt hlt]
  have hnodup : ((List.range 9).map fun n : ℕ => ((n + 1 : ℕ) : ℤ)).Nodup := by decide
  exact (List.subperm_of_subset hnodup hsub).length_le

theorem firstFile_pools : firstFile.PoolsOk := by
  constructor <;> decide

theorem firstFile_wellFormed : firstFile.WellFormed true where
  toPoolsOk := firstFile_pools
  size := by decide
  production := by decide
  insts := by
    intro i hi
    obtain rfl | hi := List.mem_cons.1 hi
    · exact {
        operands := ⟨by simp [nineTargets], fun k hk => (mem_nineTargets hk).2⟩
        next := by rintro k ⟨⟩
        first := fun _ => rfl }
    · obtain rfl := List.eq_of_mem_replicate hi
      exact {
        operands := trivial
        next := by rintro k ⟨⟩
        first := fun _ => rfl }

theorem firstFile_pos : ∀ i ∈ firstFile.insts, FirstPos i.op.shape i.operands := by
  intro i hi
  obtain rfl | hi := List.mem_cons.1 hi
  · exact fun k hk => (mem_nineTargets hk).1.ne'
  · obtain rfl := List.eq_of_mem_replicate hi
    exact trivial

/-- A runtime with the constants `C` for an input of one byte. -/
def byteRuntime (C : Constants) (ch : UInt8) : Runtime where
  input := [ch]
  strs := C.strs
  sets := C.sets
  tags := C.tags
  tables := C.tables
  jumps := C.jumps
  jumps1 := C.jumps1
  jumps2 := C.jumps2
  jumps3 := C.jumps3

theorem byteRuntime_has (C : Constants) (ch : UInt8) : RuntimeHas (byteRuntime C ch) C :=
  ⟨rfl, rfl, rfl, rfl, rfl, rfl, rfl, rfl⟩

/-- The code at 0, with the bytes of the two `Exit`s behind it. -/
def codeAt0 (code : List UInt8) : Program where
  code := code
  base := 0
  stub := code.length
  disjoint := .inl (by omega)

def startMachine (pc : ℤ) : Machine where
  pc := pc
  sp := 0
  fp := 0
  current := 0
  head := 0
  stack := fun _ => 0
  ast := {}
  tbl := {}
  memo := {}

theorem firstFile_stuck {L₁ L : Loader} {pss : List (List Piece)} {ps' : List Piece}
    (h : LoadedFile firstFile true L₁ L pss ps') {ch : UInt8} (hch : 128 ≤ ch.toNat) {c : Machine}
    (hpc : c.pc = 0) (hcurrent : c.current = 0) :
    Vm1.step (codeAt0 L.buf) (byteRuntime L.C ch) c = none := by
  obtain ⟨main, main', tail', hat⟩ := @LoadedFile.piecesAt firstFile true L₁ L pss ps' h 0 _ rfl
  have hbody : Body true L₁.C .first nineTargets main := hat.body
  obtain ⟨id, hid, rfl⟩ : ∃ id < 2 ^ 16, main = [.table .first id] := by
    have hmany := distinctTargets_nineTargets
    cases hbody with
    | elided ho hop => exact absurd hop (by decide)
    | plain hf hop => exact absurd rfl hf
    | first hid hlen hC => exact ⟨_, hid, rfl⟩
    | tblJump1 hid hlen hC | tblJump2 hid hlen hC | tblJump3 hid hlen hC => omega
  have hpatched := hat.patched
  obtain ⟨q, rfl, hq⟩ : ∃ q, main' = [q] ∧
      Patched L.table L.buf L₁.C L.C (0 + (Piece.table .first id).bytes.length) (.table .first id) q := by
    cases hpatched with
    | cons hq hs =>
      cases hs
      exact ⟨_, rfl, hq⟩
  obtain ⟨rfl, -⟩ := hq.table_inv (.inl rfl) hid
  obtain ⟨pre, post, hbuf, hpre⟩ := hat.buf
  have hcode : (codeAt0 L.buf).code =
      pre ++ (Piece.table .first id).bytes ++ (tail'.flatMap Piece.bytes ++ post) := by
    show L.buf = _
    rw [hbuf]
    simp
  have hplace : place pss 0 = 0 := rfl
  have hfetch := fetch_table (.inl rfl) hcode
  rw [hpre, hplace] at hfetch
  have hchar : ¬ 0 ≤ (byteRuntime L.C ch).charAt c.current := by
    rw [hcurrent]
    show ¬ 0 ≤ ch.toBitVec.toInt
    have hnat : ch.toBitVec.toNat = ch.toNat := rfl
    rw [BitVec.toInt_eq_toNat_cond]
    split_ifs <;> omega
  have hstuck : Vm1.first (byteRuntime L.C ch) c.current (UInt16.ofNat id) = none := by
    unfold Vm1.first
    cases (byteRuntime L.C ch).jumps[(UInt16.ofNat id).toNat]? with
    | none => rfl
    | some jmpTable => exact if_neg hchar
  have hstart : c.pc = (codeAt0 L.buf).base + ((0 : ℕ) : ℤ) := hpc
  rw [← hstart] at hfetch
  refine step_of_stuck hfetch ?_
  show exec (byteRuntime L.C ch) { c with pc := _ } (.first (UInt16.ofNat id)) = none
  simp only [exec, hstuck, bind, Option.bind]

theorem listFetch_firstFile :
    listFetch firstFile.insts 200 0 = some (.jump (distance 3 1), 1) := by
  have htarget : nineTargets.getD 200 0 = 3 := by decide
  show some (Inst.jump (distance (nineTargets.getD 200 0) 1), (1 : ℤ)) = _
  rw [htarget]

/-- A `First` with more than eight targets at a byte from 128 on. -/
theorem loading_diverges : ¬ ∀ F : BytecodeFile, F.WellFormed true →
    (∀ i ∈ F.insts, FirstPos i.op.shape i.operands) → ∀ rounds > 2 * F.insts.length,
      Refines F rounds fun _ _ => True := by
  intro hclaim
  obtain ⟨L₁, L, pss, ps', hload, hloaded⟩ :=
    @mozvmLoaderLoadSyntax_ok firstFile true firstFile_wellFormed 100 (by decide)
  obtain ⟨L', hload', hruns⟩ := hclaim firstFile firstFile_wellFormed firstFile_pos 100 (by decide)
  obtain rfl : L = L' := by
    rw [hload] at hload'
    exact Except.ok.inj hload'
  have htable : L.table[0]? = some 0 := by
    rw [hloaded.second.table, hloaded.first.getElem?_table (by decide)]
    rfl
  have hstep : ListStep firstFile.insts (byteRuntime L.C 200) ⟨startMachine 0, fun _ => false⟩
      ⟨startMachine 3, fun _ => false⟩ := by
    have hfetch := listFetch_firstFile
    have hbyte : (byteRuntime L.C 200).byteAt (startMachine 0).current = 200 := rfl
    rw [← hbyte] at hfetch
    have hjump : (startMachine 1).jump (distance 3 1) = startMachine 3 := by
      unfold Machine.jump startMachine
      congr 1
    have hexec : exec (byteRuntime L.C 200) (startMachine 1) (.jump (distance 3 1)) =
        some (.next (startMachine 3)) := by
      rw [← hjump]
      rfl
    exact @ListStep.next _ _ (startMachine 0) (startMachine 3) _ _ _ hfetch hexec trivial
  obtain ⟨c, hc, -, hexit⟩ := hruns (codeAt0 L.buf) (byteRuntime L.C 200) rfl (byteRuntime_has _ _) 0
    0 htable ⟨startMachine 0, fun _ => false⟩ _ rfl (.tail .refl trivial hstep)
  have hreturn := hexit 0 ⟨4, rfl⟩
  have hstuck := fun (c : Machine) => @firstFile_stuck _ _ _ _ hloaded 200 (by decide) c
  obtain rfl | ⟨c', hmove, -⟩ := hc.cases_head
  · rw [hstuck _ rfl rfl] at hreturn
    cases hreturn
  · unfold Moves at hmove
    rw [hstuck _ rfl rfl] at hmove
    cases hmove

theorem firstFile_refines :
    Refines firstFile 100 fun R => CanFollow true R firstFile.insts :=
  loading_refines firstFile_wellFormed firstFile_pos (by decide)

end Moz.Bytecode
