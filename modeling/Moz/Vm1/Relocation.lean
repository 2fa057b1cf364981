import Moz.Vm1.Machine

/-!
# Moving the code of VM1

Two machines run the same instructions at different addresses. The cells of the
stack that hold an address of the code are marked; the others, the registers and
the state of the runtime are the same. An instruction that finds an address only
where it takes one does the same on both.
-/

namespace Moz.Vm1

/-- The cells when the code is moved by `φ`; `t` marks those with an address. -/
def moveCells (φ : ℤ → ℤ) (t : ℕ → Bool) (stack : ℕ → ℤ) (i : ℕ) : ℤ :=
  if t i then φ (stack i) else stack i

/-- The machine `m` at `pc` when the code is moved. -/
def Machine.relocate (φ : ℤ → ℤ) (t : ℕ → Bool) (pc : ℤ) (m : Machine) : Machine :=
  { m with pc := pc, stack := moveCells φ t m.stack }

/-- The outcome `o` when the code is moved and the machine goes on at `pc`. -/
def Outcome.relocate (φ : ℤ → ℤ) (t : ℕ → Bool) (pc : ℤ) : Outcome → Outcome
  | .next m => .next (m.relocate φ t pc)
  | .failed m => .failed (m.relocate φ t pc)
  | .exit status current => .exit status current

/-- The instructions with an address, and `Ret`, which takes one. -/
def Inst.isControl : Inst → Bool
  | .alt _ | .jump _ | .call _ _ | .ret _ | .lookup _ _ _ | .tLookup _ _ _ _ | .first _
  | .tblJump1 _ | .tblJump2 _ | .tblJump3 _ => true
  | _ => false

/-- The instruction of the moved code, when the operands end at `pc` and at `pc'`. -/
inductive SameInst (φ : ℤ → ℤ) (pc pc' : ℤ) : Inst → Inst → Prop
  | alt {d d' : ℤ} (h : pc' + d' = φ (pc + d)) : SameInst φ pc pc' (.alt d) (.alt d')
  | jump {d d' : ℤ} (h : pc' + d' = φ (pc + d)) : SameInst φ pc pc' (.jump d) (.jump d')
  | call {n n' d d' : ℤ} (hn : pc' + n' = φ (pc + n)) (h : pc' + d' = φ (pc + d)) :
      SameInst φ pc pc' (.call n d) (.call n' d')
  | ret (d d' : ℤ) : SameInst φ pc pc' (.ret d) (.ret d')
  | lookup {d d' : ℤ} (state : UInt8) (memoId : UInt16) (h : pc' + d' = φ (pc + d)) :
      SameInst φ pc pc' (.lookup state memoId d) (.lookup state memoId d')
  | tLookup {d d' : ℤ} (state : UInt8) (tagId memoId : UInt16) (h : pc' + d' = φ (pc + d)) :
      SameInst φ pc pc' (.tLookup state tagId memoId d) (.tLookup state tagId memoId d')
  | plain {inst : Inst} (h : inst.isControl = false) : SameInst φ pc pc' inst inst

/-- An address is taken only where one is marked, and other cells are read only where none is. -/
def Inst.Typed (t : ℕ → Bool) (m : Machine) : Inst → Prop
  | .ret _ => t (m.sp - 1) = true
  | .back | .sClose | .sDef _ | .sIs _ | .sIsa _ | .tCommit _ => t (m.sp - 1) = false
  | .succ => t m.fp = false
  | .memo _ _ | .tMemo _ _ => t m.fp = false ∧ t (m.fp + 1) = false
  | .skip => t (m.fp + 1) = false ∧ t (m.fp + 3) = false ∧ t (m.fp + 4) = false
  | _ => True

def Inst.marks (t : ℕ → Bool) (m : Machine) : Inst → ℕ → Bool
  | .alt _ => Function.update (Function.update (Function.update (Function.update
      (Function.update t m.sp false) (m.sp + 1) false) (m.sp + 2) true) (m.sp + 3) false)
      (m.sp + 4) false
  | .call _ _ => Function.update t m.sp true
  | .pos | .tStart | .sOpen | .sMask _ => Function.update t m.sp false
  | _ => t

structure FrameTyped (t : ℕ → Bool) (m : Machine) : Prop where
  fp : t m.fp = false
  pos : t (m.fp + 1) = false
  next : t (m.fp + 2) = true
  ast : t (m.fp + 3) = false
  symtbl : t (m.fp + 4) = false

section Relocate

variable {φ : ℤ → ℤ} {t : ℕ → Bool} {pc : ℤ} {m m' : Machine} {R : Runtime}

theorem moveCells_update (a : ℕ) (x : ℤ) (b : Bool) (s : ℕ → ℤ) :
    moveCells φ (Function.update t a b) (Function.update s a x) =
      Function.update (moveCells φ t s) a (if b then φ x else x) := by
  funext i
  by_cases h : i = a
  · subst h
    simp [moveCells]
  · simp [moveCells, h]

theorem moveCells_of_data {i : ℕ} (s : ℕ → ℤ) (h : t i = false) : moveCells φ t s i = s i := by
  simp [moveCells, h]

theorem moveCells_update_data {a : ℕ} (x : ℤ) (s : ℕ → ℤ) (h : t a = false) :
    moveCells φ t (Function.update s a x) = Function.update (moveCells φ t s) a x := by
  have hupdate := @moveCells_update φ t a x false s
  rwa [Function.update_eq_self_iff.2 h.symm, if_neg Bool.false_ne_true] at hupdate

theorem moveCells_of_code {i : ℕ} (s : ℕ → ℤ) (h : t i = true) : moveCells φ t s i = φ (s i) := by
  simp [moveCells, h]

theorem effect_relocate (e : Effect) :
    (m.relocate φ t pc).effect e = (m.effect e).map (Outcome.relocate φ t pc) := by
  cases e <;> rfl

theorem move_relocate (current : Option ℕ) :
    (m.relocate φ t pc).move current = (m.move current).map (Outcome.relocate φ t pc) := by
  cases current <;> rfl

theorem push_relocate (x : ℤ) (b : Bool) :
    (m.relocate φ t pc).push (if b then φ x else x) =
      (m.push x).map (Machine.relocate φ (Function.update t m.sp b) pc) := by
  unfold Machine.push
  by_cases hsp : m.sp < stackSize
  · simp [Machine.relocate, hsp, moveCells_update]
  · simp [Machine.relocate, hsp]

theorem push_data (x : ℤ) : (m.relocate φ t pc).push x =
    (m.push x).map (Machine.relocate φ (Function.update t m.sp false) pc) := by
  have hpush := @push_relocate φ t pc m x false
  rwa [if_neg Bool.false_ne_true] at hpush

theorem push_code (x : ℤ) : (m.relocate φ t pc).push (φ x) =
    (m.push x).map (Machine.relocate φ (Function.update t m.sp true) pc) := by
  have hpush := @push_relocate φ t pc m x true
  rwa [if_pos rfl] at hpush

theorem top_data (h : t (m.sp - 1) = false) : (m.relocate φ t pc).top = m.top :=
  moveCells_of_data m.stack h

theorem top_code (h : t (m.sp - 1) = true) : (m.relocate φ t pc).top = φ m.top :=
  moveCells_of_code m.stack h

theorem dropFrame_relocate (h : t m.fp = false) :
    (m.relocate φ t pc).dropFrame = m.dropFrame.relocate φ t pc := by
  simp [Machine.dropFrame, Machine.relocate, moveCells_of_data _ h]

theorem framePos_relocate (h : t (m.fp + 1) = false) :
    (m.relocate φ t pc).framePos = m.framePos := moveCells_of_data m.stack h

theorem pushFrame_relocate (pos next ast symtbl : ℤ) :
    (m.relocate φ t pc).pushFrame pos (φ next) ast symtbl =
      (m.pushFrame pos next ast symtbl).map
        (Machine.relocate φ ((Inst.alt 0).marks t m) pc) := by
  unfold Machine.pushFrame
  by_cases hsp : m.sp + fpMax ≤ stackSize
  · simp only [Machine.relocate, hsp, Inst.marks, if_true, Option.map_some]
    rw [moveCells_update, moveCells_update, moveCells_update, moveCells_update, moveCells_update]
    rfl
  · simp [Machine.relocate, hsp]

theorem refresh_relocate (hpos : t (m.fp + 1) = false) (hast : t (m.fp + 3) = false)
    (hsymtbl : t (m.fp + 4) = false) :
    (m.relocate φ t pc).refresh = m.refresh.relocate φ t pc := by
  simp only [Machine.refresh, Machine.relocate]
  rw [moveCells_update_data _ _ hsymtbl, moveCells_update_data _ _ hast,
    moveCells_update_data _ _ hpos]

theorem memoize_relocate (hfp : t m.fp = false) (hpos : t (m.fp + 1) = false) (state : UInt8)
    (memoId : UInt16) (node : Option NodeId) :
    (m.relocate φ t pc).memoize R state memoId node =
      (m.memoize R state memoId node).map (Outcome.relocate φ t pc) := by
  unfold Machine.memoize
  rw [framePos_relocate hpos, dropFrame_relocate hfp]
  simp only [bind, Option.bind]
  split
  · next h =>
    have hsame : memoSet m.memo m.ast.heap (Machine.address R m.framePos.toNat) memoId.toUInt32 node
        (UInt32.ofInt ((m.current : ℤ) - m.framePos.toNat)) state.toUInt32 = none := h
    rw [hsame]
    rfl
  · next entry h =>
    have hsame : memoSet m.memo m.ast.heap (Machine.address R m.framePos.toNat) memoId.toUInt32 node
        (UInt32.ofInt ((m.current : ℤ) - m.framePos.toNat)) state.toUInt32 = some entry := h
    rw [hsame]
    rfl

/-- An instruction without an address does the same when the code is moved. -/
theorem exec_relocate_plain {inst : Inst} (h : inst.isControl = false) (htyped : inst.Typed t m) :
    exec R (m.relocate φ t pc) inst =
      (exec R m inst).map (Outcome.relocate φ (inst.marks t m) pc) := by
  cases inst with
  | alt | jump | call | ret | lookup | tLookup | first | tblJump1 | tblJump2 | tblJump3 => cases h
  | nop | label | fail | exit => rfl
  | byte | any | str | set | nByte | nAny | nStr | nSet => exact effect_relocate _
  | oByte | oStr | oSet | rByte | rStr | rSet | consume => exact move_relocate _
  | tPush | tPop | tLeftFold | tNew | tCapture => rfl
  | oAny | rAny | tAbort | sDefNum | sCount => rfl
  | succ => exact congrArg (fun m => some (Outcome.next m)) (dropFrame_relocate htyped)
  | pos =>
    simp only [exec]
    rw [show (m.relocate φ t pc).current = m.current from rfl, push_data]
    cases m.push m.current <;> rfl
  | tStart =>
    simp only [exec]
    rw [show (m.relocate φ t pc).ast = m.ast from rfl, push_data]
    cases m.push (astSaveTx m.ast) <;> rfl
  | sOpen =>
    simp only [exec]
    rw [show (m.relocate φ t pc).tbl = m.tbl from rfl, push_data]
    cases m.push (symtableSavepoint m.tbl) <;> rfl
  | sMask tagId =>
    simp only [exec]
    rw [show (m.relocate φ t pc).tbl = m.tbl from rfl, push_data]
    cases m.push (symtableSavepoint m.tbl) <;> rfl
  | back =>
    simp only [exec]
    rw [top_data htyped]
    rfl
  | skip =>
    obtain ⟨hpos, hast, hsymtbl⟩ := htyped
    simp only [exec]
    rw [framePos_relocate hpos]
    by_cases hskip : m.framePos = m.current
    · have hskip' : m.framePos = (m.relocate φ t pc).current := hskip
      rw [if_pos hskip, if_pos hskip']
      rfl
    · have hskip' : ¬ m.framePos = (m.relocate φ t pc).current := hskip
      rw [if_neg hskip, if_neg hskip']
      exact congrArg (fun m => some (Outcome.next m)) (refresh_relocate hpos hast hsymtbl)
  | tCommit tagId =>
    simp only [exec]
    rw [top_data htyped]
    show (do
      let ast ← astCommitTx m.ast tagId m.top.toNat
      return Outcome.next { (m.relocate φ t pc).pop with ast := ast } : Option Outcome) = _
    cases astCommitTx m.ast tagId m.top.toNat <;> rfl
  | sClose =>
    simp only [exec]
    rw [top_data htyped]
    show (do
      let tbl ← symtableRollback m.tbl m.top.toNat
      return Outcome.next { (m.relocate φ t pc).pop with tbl := tbl } : Option Outcome) = _
    cases symtableRollback m.tbl m.top.toNat <;> rfl
  | sDef tagId =>
    simp only [exec]
    rw [top_data htyped]
    rfl
  | memo state memoId => exact memoize_relocate htyped.1 htyped.2 state memoId none
  | tMemo state memoId => exact memoize_relocate htyped.1 htyped.2 state memoId m.ast.lastLinked
  | memoFail state memoId =>
    simp only [exec]
    show (do
      let x ← memoFail m.memo m.ast.heap (Machine.address R m.current) memoId.toUInt32
      return Outcome.failed { m.relocate φ t pc with
        memo := x.1, ast := { m.ast with heap := x.2 } } : Option Outcome) = _
    cases memoFail m.memo m.ast.heap (Machine.address R m.current) memoId.toUInt32 <;> rfl
  | tTag tagId =>
    simp only [exec]
    cases R.tags[tagId.toNat]? <;> rfl
  | tReplace strId =>
    simp only [exec]
    cases R.strs[strId.toNat]? <;> rfl
  | sIsDef tagId strId =>
    simp only [exec]
    cases R.strs[strId.toNat]? with
    | none => rfl
    | some symbol =>
      show (if symtableContains R.byteAt m.tbl tagId symbol then
        some (Outcome.next (m.relocate φ t pc)) else some (.failed (m.relocate φ t pc))) =
        Option.map _ (if symtableContains R.byteAt m.tbl tagId symbol then
          some (Outcome.next m) else some (.failed m))
      split_ifs <;> rfl
  | sExists tagId =>
    simp only [exec]
    show (if symtableHasSymbol m.tbl tagId then some (Outcome.next (m.relocate φ t pc))
      else some (.failed (m.relocate φ t pc))) = _
    split_ifs <;> rfl
  | sMatch tagId =>
    simp only [exec]
    rw [show (m.relocate φ t pc).tbl = m.tbl from rfl]
    cases symtableGetSymbol m.tbl tagId with
    | none => rfl
    | some tok =>
      by_cases htok : tokenEqualString R.byteAt tok m.current = true
      · have htok' : tokenEqualString R.byteAt tok (m.relocate φ t pc).current = true := htok
        simp only [if_pos htok, if_pos htok']
        rfl
      · have htok' : ¬ tokenEqualString R.byteAt tok (m.relocate φ t pc).current = true := htok
        simp only [if_neg htok, if_neg htok']
        rfl
  | sIs tagId =>
    simp only [exec]
    rw [top_data htyped]
    rw [show (m.relocate φ t pc).tbl = m.tbl from rfl,
      show (m.relocate φ t pc).current = m.current from rfl]
    cases symtableGetSymbol m.tbl tagId with
    | none => rfl
    | some tok =>
      simp only
      split_ifs <;> rfl
  | sIsa tagId =>
    simp only [exec]
    rw [top_data htyped]
    show (if symtableContains R.byteAt m.tbl tagId
        ((tokenInit m.top.toNat m.current).bytes R.byteAt) then
      some (Outcome.next (m.relocate φ t pc).pop)
      else some (.failed (m.relocate φ t pc).pop)) = _
    split_ifs <;> rfl

/-- Without an address, an instruction goes on behind its operands. -/
theorem exec_pc {inst : Inst} (h : inst.isControl = false) (htyped : inst.Typed t m)
    (hm' : exec R m inst = some (.next m')) : m'.pc = m.pc := by
  have hself : m.relocate id t m.pc = m := by
    have hcells : moveCells id t m.stack = m.stack := by
      funext i
      simp [moveCells]
    simp [Machine.relocate, hcells]
  have hexec := @exec_relocate_plain id t m.pc m R inst h htyped
  rw [hself, hm'] at hexec
  have hsame := Outcome.next.inj (Option.some.inj hexec)
  rw [hsame]
  rfl

/-- `Ret` on the moved code goes on at the moved address. -/
theorem exec_ret_relocate (d : ℤ) (h : t (m.sp - 1) = true) :
    exec R (m.relocate φ t pc) (.ret d) =
      some (.next ({ m.pop with pc := m.top }.relocate φ t (φ m.top))) := by
  simp only [exec]
  rw [top_code h]
  rfl

/-- An instruction on the moved code. It goes on behind its operands, or at the moved address. -/
theorem exec_relocate {pc' : ℤ} {inst inst' : Inst} (h : SameInst φ m.pc pc' inst inst')
    (htyped : inst.Typed t m) :
    ∃ p, exec R (m.relocate φ t pc') inst' =
        (exec R m inst).map (Outcome.relocate φ (inst.marks t m) p) ∧
      ∀ m', exec R m inst = some (.next m') → m'.pc = m.pc ∧ p = pc' ∨ p = φ m'.pc := by
  cases h with
  | @alt d d' h =>
    refine ⟨pc', ?_, ?_⟩
    · simp only [exec]
      show (do
        let m ← (m.relocate φ t pc').pushFrame m.current (pc' + d') (astSaveTx m.ast)
          (symtableSavepoint m.tbl)
        return Outcome.next m : Option Outcome) = _
      rw [h, pushFrame_relocate]
      unfold Machine.pushChoice
      cases m.pushFrame m.current (m.pc + d) (astSaveTx m.ast) (symtableSavepoint m.tbl) <;> rfl
    · intro m' hm'
      left
      simp only [exec, Machine.pushChoice, Machine.pushFrame] at hm'
      split_ifs at hm'
      · cases hm'
        exact ⟨rfl, rfl⟩
      · cases hm'
  | @jump d d' h =>
    refine ⟨φ (m.pc + d), ?_, ?_⟩
    · simp only [exec, Option.map_some, Outcome.relocate, Machine.jump, Machine.relocate, h,
        Inst.marks]
    · rintro m' ⟨⟩
      exact .inr rfl
  | @call n n' d d' hn h =>
    refine ⟨φ (m.pc + d), ?_, ?_⟩
    · simp only [exec]
      show (do
        let m ← (m.relocate φ t pc').push (pc' + n')
        return Outcome.next (m.jump d') : Option Outcome) = _
      rw [hn, push_code]
      unfold Machine.push
      split_ifs
      · simp only [Option.map_some, bind, Option.bind, Machine.jump, Machine.relocate, h, Inst.marks]
        rfl
      · rfl
    · intro m' hm'
      right
      simp only [exec, Machine.push] at hm'
      split_ifs at hm'
      · cases hm'
        rfl
      · cases hm'
  | ret d d' =>
    refine ⟨φ m.top, exec_ret_relocate d' htyped, ?_⟩
    · rintro m' ⟨⟩
      exact .inr rfl
  | @lookup d d' state memoId h =>
    simp only [exec]
    cases hget : memoGet m.memo (Machine.address R m.current) memoId.toUInt32 state with
    | none =>
      have hget' : memoGet (m.relocate φ t pc').memo (Machine.address R (m.relocate φ t pc').current)
        memoId.toUInt32 state = none := hget
      rw [hget']
      refine ⟨pc', rfl, ?_⟩
      rintro m' ⟨⟩
      exact .inl ⟨rfl, rfl⟩
    | some entry =>
      have hget' : memoGet (m.relocate φ t pc').memo (Machine.address R (m.relocate φ t pc').current)
        memoId.toUInt32 state = some entry := hget
      rw [hget']
      simp only
      by_cases hfailed : entry.result = .failed
      · rw [if_pos hfailed, if_pos hfailed]
        refine ⟨pc', rfl, ?_⟩
        rintro m' ⟨⟩
      · rw [if_neg hfailed, if_neg hfailed]
        refine ⟨φ (m.pc + d), ?_, ?_⟩
        · simp only [Option.map_some, Outcome.relocate, Machine.jump, Machine.relocate, h, Inst.marks]
        · rintro m' ⟨⟩
          exact .inr rfl
  | @tLookup d d' state tagId memoId h =>
    simp only [exec]
    cases hget : memoGet m.memo (Machine.address R m.current) memoId.toUInt32 state with
    | none =>
      have hget' : memoGet (m.relocate φ t pc').memo (Machine.address R (m.relocate φ t pc').current)
        memoId.toUInt32 state = none := hget
      rw [hget']
      refine ⟨pc', rfl, ?_⟩
      rintro m' ⟨⟩
      exact .inl ⟨rfl, rfl⟩
    | some entry =>
      have hget' : memoGet (m.relocate φ t pc').memo (Machine.address R (m.relocate φ t pc').current)
        memoId.toUInt32 state = some entry := hget
      rw [hget']
      simp only
      cases entry.result with
      | failed =>
        refine ⟨pc', rfl, ?_⟩
        rintro m' ⟨⟩
      | null =>
        refine ⟨φ (m.pc + d), ?_, ?_⟩
        · simp only [Option.map_some, Outcome.relocate, Machine.jump, Machine.relocate, h, Inst.marks]
        · rintro m' ⟨⟩
          exact .inr rfl
      | result node =>
        refine ⟨φ (m.pc + d), ?_, ?_⟩
        · simp only [Option.map_some, Outcome.relocate, Machine.jump, Machine.relocate, h, Inst.marks]
        · rintro m' ⟨⟩
          exact .inr rfl
  | plain h =>
    exact ⟨pc', exec_relocate_plain h htyped, fun m' hm' => .inl ⟨exec_pc h htyped hm', rfl⟩⟩

theorem marks_of_failed {inst : Inst} (h : exec R m inst = some (.failed m')) :
    inst.marks t m = t := by
  cases inst with
  | alt =>
    simp only [exec, Machine.pushChoice, Machine.pushFrame] at h
    split_ifs at h <;> cases h
  | call | pos | tStart | sOpen | sMask =>
    simp only [exec, Machine.push] at h
    split_ifs at h <;> cases h
  | _ => rfl

/-- A failure on the moved code goes to the moved address. -/
theorem failImpl_relocate (h : FrameTyped t m) (hm' : failImpl m = some m') :
    failImpl (m.relocate φ t pc) = some (m'.relocate φ t (φ m'.pc)) := by
  have hpos : (m.relocate φ t pc).framePos = m.framePos := framePos_relocate h.pos
  have hast : (m.relocate φ t pc).frameAst = m.frameAst := moveCells_of_data _ h.ast
  have hsymtbl : (m.relocate φ t pc).frameSymtbl = m.frameSymtbl := moveCells_of_data _ h.symtbl
  have hnext : (m.relocate φ t pc).frameNext = φ m.frameNext := moveCells_of_code _ h.next
  unfold failImpl at hm' ⊢
  rw [hpos, hast, hsymtbl, hnext, dropFrame_relocate h.fp]
  have hstate : (m.relocate φ t pc).ast = m.ast ∧ (m.relocate φ t pc).tbl = m.tbl := ⟨rfl, rfl⟩
  rw [hstate.1, hstate.2]
  cases hrollback : astRollbackTx m.ast m.frameAst.toNat with
  | none =>
    rw [hrollback] at hm'
    cases hm'
  | some ast =>
    rw [hrollback] at hm'
    cases htable : symtableRollback m.tbl m.frameSymtbl.toNat with
    | none =>
      rw [htable] at hm'
      cases hm'
    | some tbl =>
      rw [htable] at hm'
      simp only [bind, Option.bind, pure, Option.some.injEq] at hm' ⊢
      subst hm'
      have hcurrent : (m.relocate φ t pc).current = m.current := rfl
      rw [hcurrent]
      split_ifs <;> rfl

end Relocate

end Moz.Vm1
