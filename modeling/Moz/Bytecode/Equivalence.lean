import Moz.Bytecode.Refinement

/-!
# Loading with and without optimization

Both buffers are followed from the same run of the list, so VM1 returns the same
from them. Without optimization a `First` gets its opcode twice and a `Label` keeps
an opcode that VM1 does not have.
-/

namespace Moz.Bytecode

open Relation (ReflTransGen)
open Vm1 (Inst Machine Program Outcome exec moveCells parseInit stackBase)

/-- `moz_runtime_parse_init` for the list. -/
def listInit (current head : ℕ) (stack : ℕ → ℤ) (ast : AstMachine) (tbl : Symtable) (memo : Memo) :
    Option Machine := do
  let m : Machine :=
    { pc := 0, sp := stackBase, fp := stackBase, current := current, head := head,
      stack := stack, ast := ast, tbl := tbl, memo := memo }
  let m ← m.pushChoice (listStub + 2)
  m.push listStub

def initMarks : ℕ → Bool :=
  Function.update (Function.update (fun _ => false) (stackBase + 2) true) (stackBase + 5) true

section Init

variable {P : Program} {L : Loader} {current head : ℕ} {stack : ℕ → ℤ} {ast : AstMachine}
  {tbl : Symtable} {memo : Memo}

theorem codeAddress_stub {k : ℤ} (hk : k < 4) : codeAddress P L (listStub + k) = P.stub + k := by
  unfold codeAddress listStub
  rw [if_neg (by omega)]
  omega

theorem moveCells_none (φ : ℤ → ℤ) (stack : ℕ → ℤ) : moveCells φ (fun _ => false) stack = stack := by
  funext i
  exact Vm1.moveCells_of_data stack rfl

theorem initMarks_eq (m : Machine) (h : m.sp = stackBase) :
    Function.update ((Inst.alt 0).marks (fun _ => false) m) (stackBase + 5) true = initMarks := by
  funext i
  simp only [Inst.marks, initMarks, h, Function.update_apply]
  grind

theorem parseInit_eq : parseInit P current head stack ast tbl memo =
    (listInit current head stack ast tbl memo).map
      (Machine.relocate (codeAddress P L) initMarks P.base) := by
  have hfailed : P.stub + 2 = codeAddress P L (listStub + 2) := (codeAddress_stub (by omega)).symm
  have hstub : P.stub = codeAddress P L listStub := by
    have hzero := @codeAddress_stub P L 0 (by omega)
    rw [add_zero, add_zero] at hzero
    exact hzero.symm
  unfold parseInit listInit
  generalize hm : ({
    pc := 0, sp := stackBase, fp := stackBase, current := current, head := head,
    stack := stack, ast := ast, tbl := tbl, memo := memo } : Machine) = m
  have hsp : m.sp = stackBase := hm ▸ rfl
  have hstart : ({
      pc := P.base, sp := stackBase, fp := stackBase, current := current, head := head,
      stack := stack, ast := ast, tbl := tbl, memo := memo } : Machine) =
      m.relocate (codeAddress P L) (fun _ => false) P.base := by
    rw [← hm, Machine.relocate, moveCells_none]
  have hframe := @Vm1.pushFrame_relocate (codeAddress P L) (fun _ => false) P.base m m.current
    (listStub + 2) (astSaveTx m.ast) (symtableSavepoint m.tbl)
  have hchoice : (m.relocate (codeAddress P L) (fun _ => false) P.base).pushChoice (P.stub + 2) =
      (m.pushChoice (listStub + 2)).map (Machine.relocate (codeAddress P L)
        ((Inst.alt 0).marks (fun _ => false) m) P.base) := by
    rw [hfailed]
    exact hframe
  simp only [hstart, hchoice]
  cases hpush : m.pushChoice (listStub + 2) with
  | none => rfl
  | some m₁ =>
    have hsp₁ : m₁.sp = stackBase + 5 := by
      unfold Machine.pushChoice Machine.pushFrame at hpush
      split_ifs at hpush
      obtain rfl := Option.some.inj hpush
      rw [← hsp]
      rfl
    have hcode := @Vm1.push_code (codeAddress P L) ((Inst.alt 0).marks (fun _ => false) m) P.base m₁
      listStub
    rw [← hstub, hsp₁, initMarks_eq m hsp] at hcode
    exact hcode

end Init

section Constants

variable {F : BytecodeFile} {opt : Bool} {L₁ L : Loader} {pss : List (List Piece)} {ps' : List Piece}
  {R : Runtime}

theorem Body.not_table {C : Constants} {op : MozOpcode} {operands : op.shape.Operands}
    {ps : List Piece} (h : Body opt C op operands ps) (hf : op ≠ .first) : ∀ p ∈ ps, ¬ IsTable p.op := by
  cases h with
  | elided => simp
  | plain _ _ =>
    intro p hp
    rw [List.mem_singleton.1 hp]
    rintro (rfl | rfl | rfl | rfl)
    · exact hf rfl
    · cases operands
    · cases operands
    · cases operands
  | first | tblJump1 | tblJump2 | tblJump3 => exact absurd rfl hf

theorem LoadedFile.not_table (h : LoadedFile F opt L₁ L pss ps')
    (hnone : ∀ i ∈ F.insts, i.op ≠ .first) : ∀ p ∈ pss.flatten, ¬ IsTable p.op := by
  intro p hp
  obtain ⟨ps, hps, hp⟩ := List.mem_flatten.1 hp
  obtain ⟨n, hn⟩ := List.mem_iff_getElem?.1 hps
  have hlt : n < F.insts.length := h.first.length ▸ (List.getElem?_eq_some_iff.1 hn).1
  obtain ⟨body, hbody, rfl⟩ := h.first.emits_at (List.getElem?_eq_getElem hlt) hn
  obtain hp | hp := List.mem_append.1 hp
  · exact hbody.not_table (hnone _ (List.getElem_mem hlt)) p hp
  · obtain ⟨k, -, rfl⟩ := Option.map_eq_some_iff.1 (Option.mem_toList.1 hp)
    exact (by decide : ¬ IsTable .jump)

theorem LoadedFile.tableCount (h : LoadedFile F opt L₁ L pss ps')
    (hnone : ∀ i ∈ F.insts, i.op ≠ .first) {op : MozOpcode} (hop : IsTable op) :
    tableCount L₁.C op = 0 := by
  have hnumbered := h.first.numbered op hop
  have hfilter : pss.flatten.filter (fun p => p.op = op) = [] := by
    apply List.filter_eq_nil_iff.2
    intro p hp heq
    apply h.not_table hnone p hp
    rwa [of_decide_eq_true heq]
  rw [hfilter] at hnumbered
  have hlength := congrArg List.length hnumbered
  simpa using hlength.symm

theorem LoadedFile.runtimeHas_iff (h : LoadedFile F opt L₁ L pss ps')
    (hnone : ∀ i ∈ F.insts, i.op ≠ .first) : RuntimeHas R L.C ↔ RuntimeHas R F.constants := by
  have hgrows := h.first.grows
  have hsame := h.second.same
  have hjumps : L.C.jumps = [] := by
    apply List.eq_nil_of_length_eq_zero
    by_contra hlength
    have hget := h.second.others .first 0 fun hmem => h.not_table hnone _ hmem (.inl rfl)
    have hnil : L₁.C.jumps = [] := List.eq_nil_of_length_eq_zero (h.tableCount hnone (.inl rfl))
    simp only [jumpsOf, hnil, List.getElem?_nil, List.getElem?_eq_none_iff] at hget
    omega
  have hjumps1 : L.C.jumps1 = [] := by
    have hlength := congrArg List.length hsame.bits1
    have hcount : L₁.C.jumps1.length = 0 := h.tableCount hnone (.inr (.inl rfl))
    rw [List.length_map, List.length_map, hcount] at hlength
    exact List.eq_nil_of_length_eq_zero hlength
  have hjumps2 : L.C.jumps2 = [] := by
    have hlength := congrArg List.length hsame.bits2
    have hcount : L₁.C.jumps2.length = 0 := h.tableCount hnone (.inr (.inr (.inl rfl)))
    rw [List.length_map, List.length_map, hcount] at hlength
    exact List.eq_nil_of_length_eq_zero hlength
  have hjumps3 : L.C.jumps3 = [] := by
    have hlength := congrArg List.length hsame.bits3
    have hcount : L₁.C.jumps3.length = 0 := h.tableCount hnone (.inr (.inr (.inr rfl)))
    rw [List.length_map, List.length_map, hcount] at hlength
    exact List.eq_nil_of_length_eq_zero hlength
  have hstrs := hsame.strs.trans hgrows.strs
  have hsets := hsame.sets.trans hgrows.sets
  have htags := hsame.tags.trans hgrows.tags
  have htables := hsame.tables.trans hgrows.tables
  constructor
  · intro hR
    exact {
      strs := hR.strs.trans hstrs
      sets := hR.sets.trans hsets
      tags := hR.tags.trans htags
      tables := hR.tables.trans htables
      jumps := hR.jumps.trans hjumps
      jumps1 := hR.jumps1.trans hjumps1
      jumps2 := hR.jumps2.trans hjumps2
      jumps3 := hR.jumps3.trans hjumps3 }
  · intro hR
    exact {
      strs := hR.strs.trans hstrs.symm
      sets := hR.sets.trans hsets.symm
      tags := hR.tags.trans htags.symm
      tables := hR.tables.trans htables.symm
      jumps := hR.jumps.trans hjumps.symm
      jumps1 := hR.jumps1.trans hjumps1.symm
      jumps2 := hR.jumps2.trans hjumps2.symm
      jumps3 := hR.jumps3.trans hjumps3.symm }

end Constants

/-- A run of VM1 from `c` returns with a status, a position and a state of the tree. -/
def Returns (P : Program) (R : Runtime) (c : Machine) (status : Int8) (current : ℕ)
    (ast : AstMachine) : Prop :=
  ∃ c', ReflTransGen (Moves P R) c c' ∧ Vm1.step P R c' = some (.exit status current) ∧ c'.ast = ast

theorem Returns.unique {P : Program} {R : Runtime} {c : Machine} {status status' : Int8}
    {current current' : ℕ} {ast ast' : AstMachine} (h : Returns P R c status current ast)
    (h' : Returns P R c status' current' ast') :
    status' = status ∧ current' = current ∧ ast' = ast := by
  obtain ⟨c₁, hc₁, hexit, rfl⟩ := h
  obtain ⟨c₂, hc₂, hexit', rfl⟩ := h'
  have hsame : c₁ = c₂ := by
    induction hc₁ using ReflTransGen.head_induction_on with
    | refl =>
      obtain rfl | ⟨c₃, hmove, -⟩ := hc₂.cases_head
      · rfl
      · unfold Moves at hmove
        rw [hexit] at hmove
        cases hmove
    | head hmove _ ih =>
      obtain rfl | ⟨c₃, hmove', hc₃⟩ := hc₂.cases_head
      · unfold Moves at hmove
        rw [hexit'] at hmove
        cases hmove
      · unfold Moves at hmove hmove'
        rw [hmove] at hmove'
        obtain rfl := Outcome.next.inj (Option.some.inj hmove')
        exact ih hc₃
  subst hsame
  rw [hexit] at hexit'
  obtain ⟨rfl, rfl⟩ := Outcome.exit.inj (Option.some.inj hexit')
  exact ⟨rfl, rfl, rfl⟩

section Two

variable {F : BytecodeFile} {opt : Bool} {rounds : ℕ}

/-- VM1 returns from the loaded file what the list returns. -/
theorem LoadedFile.returns {L₁ L : Loader} {pss : List (List Piece)} {ps' : List Piece} {P : Program}
    {R : Runtime} (h : LoadedFile F opt L₁ L pss ps') (hF : F.WellFormed opt)
    (hnone : ∀ i ∈ F.insts, i.op ≠ .first) (hcode : P.code = L.buf) (hR : RuntimeHas R L.C)
    {current head : ℕ} {stack : ℕ → ℤ} {ast : AstMachine} {tbl : Symtable} {memo : Memo} {m : Machine}
    (hm : listInit current head stack ast tbl memo = some m) {s : Marked}
    (hrun : Simulation.Run (ListStep F.insts R) (CanFollow opt R F.insts) ⟨m, initMarks⟩ s)
    {status : Int8} (hexit : ListExit F.insts R s.machine status) :
    ∃ c, parseInit P current head stack ast tbl memo = some c ∧
      Returns P R c status s.machine.current s.machine.ast := by
  have hpos : ∀ i ∈ F.insts, FirstPos i.op.shape i.operands := by
    intro i hi
    obtain ⟨op, operands, next⟩ := i
    have hop := hnone _ hi
    cases op <;> trivial
  have hplaced := h.placed hF hpos hcode hR
  have hstart : m.pc = 0 := by
    have hframe : stackBase + Vm1.fpMax ≤ Vm1.stackSize := by decide
    have hcell : stackBase + Vm1.fpMax < Vm1.stackSize := by decide
    simp only [listInit, Machine.pushChoice, Machine.pushFrame, Machine.push, if_pos hframe, bind,
      Option.bind, if_pos hcell, Option.some.injEq] at hm
    rw [← hm]
  have hplace : P.base = codeAddress P L m.pc := by
    rw [hstart]
    have haddress := @LoadedFile.codeAddress_eq _ _ _ _ _ _ P h 0 (Nat.zero_le _)
    exact (haddress.trans (add_zero _)).symm
  obtain ⟨c, hc, hrelocated⟩ := hplaced.follows.run hrun ⟨P.base, .inl hplace, rfl⟩
  refine ⟨_, ?_, c, hc, hplaced.exits hrelocated hexit, ?_⟩
  · rw [@parseInit_eq P L, hm]
    rfl
  · obtain ⟨pc, -, rfl⟩ := hrelocated
    rfl

end Two

/-- The file is loaded with and without optimization with the same constants, and VM1 returns the same
from both buffers when the list has a run to an `Exit` whose steps start in states that satisfy
`ok`. -/
def LoadedAlike (F : BytecodeFile) (rounds : ℕ) (ok : Runtime → Marked → Prop) : Prop :=
  ∃ L₀ L₁, mozvmLoaderLoadSyntax rounds F.encode false = .ok L₀ ∧
    mozvmLoaderLoadSyntax rounds F.encode true = .ok L₁ ∧
    (∀ R, RuntimeHas R L₀.C ↔ RuntimeHas R L₁.C) ∧
    ∀ (P₀ P₁ : Program) (R : Runtime), P₀.code = L₀.buf → P₁.code = L₁.buf → RuntimeHas R L₀.C →
      ∀ (current head : ℕ) (stack : ℕ → ℤ) (ast : AstMachine) (tbl : Symtable) (memo : Memo)
        (m : Machine) (s : Marked) (status : Int8),
        listInit current head stack ast tbl memo = some m →
        Simulation.Run (ListStep F.insts R) (ok R) ⟨m, initMarks⟩ s →
        ListExit F.insts R s.machine status →
          ∃ c₀ c₁, parseInit P₀ current head stack ast tbl memo = some c₀ ∧
            parseInit P₁ current head stack ast tbl memo = some c₁ ∧
            Returns P₁ R c₁ status s.machine.current s.machine.ast ∧
            ∀ status' current' ast', Returns P₀ R c₀ status' current' ast' ↔
              Returns P₁ R c₁ status' current' ast'

theorem loading_alike {F : BytecodeFile} {rounds : ℕ} (hF₀ : F.WellFormed false)
    (hF₁ : F.WellFormed true) (hrounds : 2 * F.insts.length < rounds) :
    LoadedAlike F rounds fun R => CanFollow false R F.insts := by
  obtain ⟨_, L₀, _, _, hload₀, hloaded₀⟩ := mozvmLoaderLoadSyntax_ok hF₀ hrounds
  obtain ⟨_, L₁, _, _, hload₁, hloaded₁⟩ := mozvmLoaderLoadSyntax_ok hF₁ hrounds
  have hnone : ∀ i ∈ F.insts, i.op ≠ .first := by
    intro i hi hop
    cases (hF₀.insts i hi).first hop
  have hconstants : ∀ R, RuntimeHas R L₀.C ↔ RuntimeHas R L₁.C := fun R =>
    (hloaded₀.runtimeHas_iff hnone).trans (hloaded₁.runtimeHas_iff hnone).symm
  refine ⟨L₀, L₁, hload₀, hload₁, hconstants, ?_⟩
  intro P₀ P₁ R hcode₀ hcode₁ hR current head stack ast tbl memo m s status hm hrun hexit
  have hrun₁ : Simulation.Run (ListStep F.insts R) (CanFollow true R F.insts) ⟨m, initMarks⟩ s := by
    apply hrun.mono
    intro s hs k i hk hi
    exact ⟨(hs k i hk hi).1, fun _ => rfl⟩
  obtain ⟨c₀, hc₀, hreturns₀⟩ := hloaded₀.returns hF₀ hnone hcode₀ hR hm hrun hexit
  obtain ⟨c₁, hc₁, hreturns₁⟩ :=
    hloaded₁.returns hF₁ hnone hcode₁ ((hconstants R).1 hR) hm hrun₁ hexit
  refine ⟨c₀, c₁, hc₀, hc₁, hreturns₁, ?_⟩
  intro status' current' ast'
  constructor
  · intro h
    obtain ⟨rfl, rfl, rfl⟩ := hreturns₀.unique h
    exact hreturns₁
  · intro h
    obtain ⟨rfl, rfl, rfl⟩ := hreturns₁.unique h
    exact hreturns₀

/-- A `Label` before an `Exit`. -/
def labelFile : BytecodeFile := smallFile 2 [⟨.label, (0 : ℕ), none⟩, ⟨.exit, (0 : UInt8), none⟩]

theorem labelFile_wellFormed (opt : Bool) : labelFile.WellFormed opt where
  instSize := by decide
  memoSize := by decide
  jmptblSize := by decide
  prods := by decide
  sets := by decide
  strs := by decide
  tags := by decide
  tables := by decide
  size := by decide
  production := by decide
  insts := by
    intro i hi
    obtain rfl | rfl | hnil := List.mem_cons.1 hi |>.imp_right List.mem_cons.1
    · exact {
        operands := Nat.zero_lt_one
        next := by rintro k ⟨⟩
        first := by rintro ⟨⟩ }
    · exact {
        operands := trivial
        next := by rintro k ⟨⟩
        first := by rintro ⟨⟩ }
    · cases hnil

/-- `Nop; Any; Jump 4; Label 0; Exit 0`: the `Label` is jumped over. -/
def skippedFile : BytecodeFile := smallFile 5 [⟨.nop, (), none⟩, ⟨.any, (), none⟩,
  ⟨.jump, (4 : ℕ), none⟩, ⟨.label, (0 : ℕ), none⟩, ⟨.exit, (0 : UInt8), none⟩]

theorem skippedFile_wellFormed (opt : Bool) : skippedFile.WellFormed opt where
  instSize := by decide
  memoSize := by decide
  jmptblSize := by decide
  prods := by decide
  sets := by decide
  strs := by decide
  tags := by decide
  tables := by decide
  size := by decide
  production := by decide
  insts := by
    have hcode : skippedFile.IsCode opt 4 :=
      ⟨4, le_rfl, ⟨.exit, (0 : UInt8), none⟩, rfl, .inl (by simp)⟩
    intro i hi
    simp only [skippedFile, smallFile, List.mem_cons, List.not_mem_nil, or_false] at hi
    rcases hi with rfl | rfl | rfl | rfl | rfl
    · exact ⟨trivial, by rintro k ⟨⟩, by rintro ⟨⟩⟩
    · exact ⟨trivial, by rintro k ⟨⟩, by rintro ⟨⟩⟩
    · exact ⟨hcode, by rintro k ⟨⟩, by rintro ⟨⟩⟩
    · exact ⟨Nat.zero_lt_one, by rintro k ⟨⟩, by rintro ⟨⟩⟩
    · exact ⟨trivial, by rintro k ⟨⟩, by rintro ⟨⟩⟩

/-- No `Label` is executed on the way from the start of `skippedFile` to its `Exit`. -/
theorem skippedFile_run (C : Constants) : ∃ m s,
    listInit 0 0 (fun _ => 0) {} {} {} = some m ∧
    Simulation.Run (ListStep skippedFile.insts (byteRuntime C 97))
      (CanFollow false (byteRuntime C 97) skippedFile.insts) ⟨m, initMarks⟩ s ∧
    ListExit skippedFile.insts (byteRuntime C 97) s.machine 0 ∧ s.machine.current = 1 ∧
    s.machine.ast = {} := by
  obtain ⟨m, hm, hpc, hcurrent, hast⟩ : ∃ m, listInit 0 0 (fun _ => 0) {} {} {} = some m ∧ m.pc = 0 ∧
      m.current = 0 ∧ m.ast = {} := ⟨_, rfl, rfl, rfl, rfl⟩
  have hok : ∀ (m : Machine) (t : ℕ → Bool) (k : ℕ) (i : FileInst), m.pc = k →
      skippedFile.insts[k]? = some i → i.op ≠ .label → FirstOk (byteRuntime C 97) m.current i.op i.operands →
      CanFollow false (byteRuntime C 97) skippedFile.insts ⟨m, t⟩ := by
    intro m t k i hk hi hlabel hfirst k' i' hk' hi'
    obtain rfl : k = k' := Nat.cast_inj.1 (hk.symm.trans hk')
    obtain rfl := Option.some.inj (hi.symm.trans hi')
    exact ⟨hfirst, fun h => absurd h hlabel⟩
  have hnop : ListStep skippedFile.insts (byteRuntime C 97) ⟨m, initMarks⟩
      ⟨{ m with pc := 1 }, initMarks⟩ := by
    refine @ListStep.next _ _ _ _ _ .nop 1 ?_ rfl trivial
    rw [hpc]
    rfl
  have hany : ListStep skippedFile.insts (byteRuntime C 97) ⟨{ m with pc := 1 }, initMarks⟩
      ⟨{ m with pc := 2, current := 1 }, initMarks⟩ := by
    refine @ListStep.next _ _ _ _ _ .any 2 rfl ?_ trivial
    simp only [exec, hcurrent]
    rfl
  have hjump : ListStep skippedFile.insts (byteRuntime C 97)
      ⟨{ m with pc := 2, current := 1 }, initMarks⟩
      ⟨{ m with pc := 4, current := 1 }, initMarks⟩ :=
    @ListStep.next _ _ _ _ _ (.jump 1) 3 rfl rfl trivial
  refine ⟨m, ⟨{ m with pc := 4, current := 1 }, initMarks⟩, hm, ?_, ⟨5, rfl⟩, rfl, hast⟩
  refine .tail (.tail (.tail .refl ?_ hnop) ?_ hany) ?_ hjump
  · exact hok _ _ 0 _ hpc rfl (by simp) trivial
  · exact hok _ _ 1 _ rfl rfl (by simp) trivial
  · exact hok _ _ 2 _ rfl rfl (by simp) trivial

/-- The buffers differ by the `Nop` and the `Label`; from both VM1 returns 0 behind the byte. -/
theorem skippedFile_alike : ∃ L₀ L₁ c₀ c₁,
    mozvmLoaderLoadSyntax 100 skippedFile.encode false = .ok L₀ ∧
    mozvmLoaderLoadSyntax 100 skippedFile.encode true = .ok L₁ ∧ L₀.buf ≠ L₁.buf ∧
    parseInit (codeAt0 L₀.buf) 0 0 (fun _ => 0) {} {} {} = some c₀ ∧
    parseInit (codeAt0 L₁.buf) 0 0 (fun _ => 0) {} {} {} = some c₁ ∧
    Returns (codeAt0 L₀.buf) (byteRuntime L₀.C 97) c₀ 0 1 {} ∧
    Returns (codeAt0 L₁.buf) (byteRuntime L₀.C 97) c₁ 0 1 {} := by
  obtain ⟨L₀, L₁, hload₀, hload₁, -, hruns⟩ := @loading_alike skippedFile 100
    (skippedFile_wellFormed false) (skippedFile_wellFormed true) (by decide)
  have hbuf : ∀ opt buf, (∃ L, mozvmLoaderLoadSyntax 100 skippedFile.encode opt = .ok L ∧ L.buf = buf) →
      ∀ L, mozvmLoaderLoadSyntax 100 skippedFile.encode opt = .ok L → L.buf = buf := by
    rintro opt buf ⟨L, hL, hLbuf⟩ L' hL'
    rw [← hLbuf, Except.ok.inj (hL'.symm.trans hL)]
  have hbuf₀ := hbuf false [0, 11, 4, 1, 0, 0, 0, 127, 54, 0] ⟨_, rfl, rfl⟩ L₀ hload₀
  have hbuf₁ := hbuf true [11, 4, 0, 0, 0, 0, 54, 0] ⟨_, rfl, rfl⟩ L₁ hload₁
  obtain ⟨m, s, hm, hrun, hexit, hcurrent, hast⟩ := skippedFile_run L₀.C
  obtain ⟨c₀, c₁, hc₀, hc₁, hreturns, hsame⟩ := hruns (codeAt0 L₀.buf) (codeAt0 L₁.buf)
    (byteRuntime L₀.C 97) rfl rfl (byteRuntime_has _ _) 0 0 (fun _ => 0) {} {} {} m s 0 hm hrun hexit
  rw [hcurrent, hast] at hreturns
  refine ⟨L₀, L₁, c₀, c₁, hload₀, hload₁, ?_, hc₀, hc₁, (hsame _ _ _).2 hreturns, hreturns⟩
  rw [hbuf₀, hbuf₁]
  decide

/-- VM1 has no `Label`. -/
theorem loading_differs : ¬ ∀ F : BytecodeFile, F.WellFormed false → F.WellFormed true →
    ∀ rounds > 2 * F.insts.length, LoadedAlike F rounds fun _ _ => True := by
  intro hclaim
  obtain ⟨L₀, L₁, hload₀, hload₁, -, hruns⟩ :=
    hclaim labelFile (labelFile_wellFormed false) (labelFile_wellFormed true) 100 (by decide)
  have hbuf : L₀.buf = [127, 54, 0] := by
    obtain ⟨L, hL, hLbuf⟩ : ∃ L, mozvmLoaderLoadSyntax 100 labelFile.encode false = .ok L ∧
        L.buf = [127, 54, 0] := ⟨_, rfl, rfl⟩
    rw [hload₀] at hL
    rwa [Except.ok.inj hL]
  obtain ⟨m, hm, hpc⟩ : ∃ m, listInit 0 0 (fun _ => 0) {} {} {} = some m ∧ m.pc = 0 := ⟨_, rfl, rfl⟩
  have hfetch : listFetch labelFile.insts ((byteRuntime L₀.C 0).byteAt m.current) m.pc =
      some (.label, 1) := by
    rw [hpc]
    rfl
  have hstep : ListStep labelFile.insts (byteRuntime L₀.C 0) ⟨m, initMarks⟩
      ⟨{ m with pc := 1 }, initMarks⟩ := .next hfetch rfl trivial
  obtain ⟨c₀, c₁, hc₀, -, hreturns, hsame⟩ := hruns (codeAt0 L₀.buf) (codeAt0 L₁.buf)
    (byteRuntime L₀.C 0) rfl rfl (byteRuntime_has _ _) 0 0 (fun _ => 0) {} {} {} m _ 0 hm
    (.tail .refl trivial hstep) ⟨2, rfl⟩
  have hpc₀ : c₀.pc = 0 := by
    rw [@parseInit_eq (codeAt0 L₀.buf) L₀, hm] at hc₀
    rw [← Option.some.inj hc₀]
    rfl
  have hstuck : Vm1.step (codeAt0 L₀.buf) (byteRuntime L₀.C 0) c₀ = none := by
    unfold Vm1.step
    rw [hpc₀, hbuf]
    rfl
  obtain ⟨c, hc, hexit, -⟩ := (hsame _ _ _).2 hreturns
  obtain rfl | ⟨c', hmove, -⟩ := hc.cases_head
  · rw [hstuck] at hexit
    cases hexit
  · unfold Moves at hmove
    rw [hstuck] at hmove
    cases hmove

end Moz.Bytecode
