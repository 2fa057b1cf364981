import Mathlib.Computability.Language
import Moz.Vm2.StackUse

/-!
# The end of the input

Only `IAny`, `INAny` and `IRAny` look for the end of the input; for the other
matching instructions the zero that follows it is a byte like any other. They stop
there as long as no word they match begins with what is left of the input and that
zero. With that the position of every state lies in the input, and so do the
positions on the stack.
-/

namespace Moz.Vm2

open FrameStack Compiler Computability

/-- The instructions that the compiler emits, and the `IExit`s of the stub. -/
def Inst.emitted : Inst → Bool
  | .iLabel | .iExit _ | .iJump _ | .iInvoke _ _ | .iPLoad | .iPStore | .iRet | .iFail | .iAny _
  | .iByte _ _ | .iStr _ _ | .iSet _ _ | .iNAny _ | .iNByte _ _ | .iNStr _ _ | .iNSet _ _
  | .iRByte _ | .iRAny | .iRStr _ | .iRSet _ | .iOByte _ | .iOStr _ | .iOSet _ | .iTPush | .iTPop _
  | .iTNew _ | .iTCapture _ | .iTTag _ => true
  | .iTableJump _ | .iUByte _ | .iUSet _ | .iRUByte | .iRUSet | .iOUByte | .iOUSet | .iLookup _ _
  | .iMemo _ | .iMemoFail _ _ | .iTStart | .iTCommit _ | .iTAbort | .iTFoldL _ _ | .iTReplace _
  | .iTLookup _ _ _ | .iTMemo _ | .iSOpen | .iSClose | .iSMask _ | .iSDef _ | .iSIsDef _ _ _
  | .iSExists _ _ | .iSMatch _ _ | .iSIs _ _ | .iSIsa _ _ => false

section Words

variable (R : Runtime)

def byteWords (ch : UInt8) : Language UInt8 := {[ch]}

def strWords (strId : UInt16) : Language UInt8 := {w | R.strs[strId.toNat]? = some w}

def setWords (setId : UInt16) : Language UInt8 :=
  {w | ∃ set c, R.sets[setId.toNat]? = some set ∧ bitsetGet set c ∧ w = [c]}

/-- The words an instruction consumes without looking for the end of the input. -/
def Inst.words : Inst → Language UInt8
  | .iByte _ ch | .iOByte ch => byteWords ch
  | .iStr _ strId | .iOStr strId => strWords R strId
  | .iSet _ setId | .iOSet setId => setWords R setId
  | .iRByte ch => (byteWords ch)∗
  | .iRStr strId => (strWords R strId)∗
  | .iRSet setId => (setWords R setId)∗
  | .iLabel | .iExit _ | .iJump _ | .iInvoke _ _ | .iPLoad | .iPStore | .iRet | .iFail | .iAny _
  | .iNAny _ | .iNByte _ _ | .iNStr _ _ | .iNSet _ _ | .iRAny | .iTPush | .iTPop _
  | .iTNew _ | .iTCapture _ | .iTTag _ | .iTableJump _ | .iUByte _ | .iUSet _ | .iRUByte | .iRUSet
  | .iOUByte | .iOUSet | .iLookup _ _ | .iMemo _ | .iMemoFail _ _ | .iTStart | .iTCommit _
  | .iTAbort | .iTFoldL _ _ | .iTReplace _ | .iTLookup _ _ _ | .iTMemo _ | .iSOpen | .iSClose
  | .iSMask _ | .iSDef _ | .iSIsDef _ _ _ | .iSExists _ _ | .iSMatch _ _ | .iSIs _ _
  | .iSIsa _ _ => 0

/-- No word begins with what is left of the input and the zero after it. -/
def EndsBefore (L : Language UInt8) (current : ℕ) : Prop :=
  ∀ w ∈ L, ¬R.input.drop current ++ [0] <+: w

def StaysInside (m : Machine) (inst : Inst) : Prop :=
  inst.emitted ∧ EndsBefore R (inst.words R) m.current

end Words

section Tests

variable {R : Runtime} {L : Language UInt8} {test : ℕ → Option (Bool × ℕ)} {current stop : ℕ}

/-- A test that reads words of a language, and the zero after the input as a byte. -/
def ReadsWords (R : Runtime) (test : ℕ → Option (Bool × ℕ)) (L : Language UInt8) : Prop :=
  ∀ p ≤ R.tail, ∀ n, test p = some (true, n) →
    (p + n ≤ R.tail ∧ (R.input.drop p).take n ∈ L) ∨ ∃ w ∈ L, R.input.drop p ++ [0] <+: w

theorem Runtime.byteAt_tail (R : Runtime) : R.byteAt R.tail = 0 := by
  simp [Runtime.byteAt, Runtime.tail]

theorem readsWords_one {found : UInt8 → Bool} (hfound : ∀ c, found c → [c] ∈ L)
    (htest : ∀ p n, test p = some (true, n) → n = 1 ∧ found (R.byteAt p)) :
    ReadsWords R test L := by
  intro p hp n h
  obtain ⟨rfl, hbyte⟩ := htest p n h
  rcases hp.eq_or_lt with rfl | hlt
  · rw [Runtime.byteAt_tail] at hbyte
    refine .inr ⟨[0], hfound 0 hbyte, ?_⟩
    simp [Runtime.tail]
  · refine .inl ⟨hlt, ?_⟩
    have hget : R.input[p]? = some (R.byteAt p) := by
      unfold Runtime.byteAt
      rw [List.getElem?_eq_getElem hlt]
      rfl
    have htake : (R.input.drop p).take 1 = [R.byteAt p] := by
      rw [List.take_one, List.head?_drop, hget]
      rfl
    rw [htake]
    exact hfound _ hbyte

theorem readsWords_byte (ch : UInt8) : ReadsWords R (byteTest R ch) (byteWords ch) := by
  refine @readsWords_one R _ _ (· == ch) (fun c hc => ?_) fun p n h => ?_
  · rw [eq_of_beq hc]
    rfl
  · simp only [byteTest, Option.some.injEq, Prod.mk.injEq] at h
    exact ⟨h.2.symm, h.1⟩

theorem readsWords_set (setId : UInt16) : ReadsWords R (setTest R setId) (setWords R setId) := by
  intro p hp n h
  obtain ⟨set, hset, heq⟩ := Option.map_eq_some_iff.1 h
  have hfound : ∀ c, bitsetGet set c → [c] ∈ setWords R setId := fun c hc => ⟨set, c, hset, hc, rfl⟩
  refine readsWords_one hfound (fun p n h => ?_) p hp n h
  simp only [setTest, hset, Option.map_some, Option.some.injEq, Prod.mk.injEq] at h
  exact ⟨h.2.symm, h.1⟩

/-- A literal that is found lies in the input or runs over its end. -/
theorem startsWith_cases {text : List UInt8} {p : ℕ} (hp : p ≤ R.tail)
    (h : R.startsWith p text = true) :
    (p + text.length ≤ R.tail ∧ (R.input.drop p).take text.length = text) ∨
      R.input.drop p ++ [0] <+: text := by
  induction text generalizing p with
  | nil => exact .inl ⟨hp, by simp⟩
  | cons c text ih =>
    rw [Runtime.startsWith, Bool.and_eq_true, beq_iff_eq] at h
    obtain ⟨hbyte, hrest⟩ := h
    rcases hp.eq_or_lt with rfl | hlt
    · rw [Runtime.byteAt_tail] at hbyte
      refine .inr ⟨text, ?_⟩
      simp [Runtime.tail, hbyte]
    · have hdrop : R.input.drop p = c :: R.input.drop (p + 1) := by
        rw [List.drop_eq_getElem_cons hlt]
        congr 1
        rw [← hbyte, Runtime.byteAt, List.getElem?_eq_getElem hlt]
        rfl
      rw [hdrop]
      rcases ih hlt hrest with ⟨hle, htake⟩ | hprefix
      · refine .inl ⟨by rw [List.length_cons]; omega, ?_⟩
        rw [List.length_cons, List.take_succ_cons, htake]
      · exact .inr (List.cons_prefix_cons.2 ⟨rfl, hprefix⟩)

theorem readsWords_str (strId : UInt16) : ReadsWords R (strTest R strId) (strWords R strId) := by
  intro p hp n h
  obtain ⟨text, htext, heq⟩ := Option.map_eq_some_iff.1 h
  simp only [Prod.mk.injEq] at heq
  obtain ⟨hstarts, rfl⟩ := heq
  rcases startsWith_cases hp hstarts with ⟨hle, htake⟩ | hprefix
  · exact .inl ⟨hle, by rw [htake]; exact htext⟩
  · exact .inr ⟨text, htext, hprefix⟩

theorem accept_inside (hreads : ReadsWords R test L) (hcurrent : current ≤ R.tail)
    (hends : EndsBefore R L current) (h : accept test current = .next stop) : stop ≤ R.tail := by
  unfold accept at h
  split at h
  · rename_i n htest
    cases h
    rcases hreads _ hcurrent n htest with ⟨hle, -⟩ | ⟨w, hw, hprefix⟩
    · exact hle
    · exact absurd hprefix (hends w hw)
  · cases h
  · cases h

theorem acceptOption_inside (hreads : ReadsWords R test L) (hcurrent : current ≤ R.tail)
    (hends : EndsBefore R L current) (h : acceptOption test current = some stop) :
    stop ≤ R.tail := by
  unfold acceptOption at h
  split at h
  · rename_i n htest
    cases h
    rcases hreads _ hcurrent n htest with ⟨hle, -⟩ | ⟨w, hw, hprefix⟩
    · exact hle
    · exact absurd hprefix (hends w hw)
  · cases h
    exact hcurrent
  · cases h

theorem acceptLoop_induct {inv : ℕ → Prop} (hround : ∀ p n, inv p → test p = some (true, n) →
    inv (p + n)) {fuel : ℕ} (hcurrent : inv current)
    (h : acceptLoop test fuel current = some stop) : inv stop := by
  induction fuel generalizing current with
  | zero => cases h
  | succ fuel ih =>
    rw [acceptLoop] at h
    split at h
    · rename_i n htest
      exact ih (hround _ n hcurrent htest) h
    · cases h
      exact hcurrent
    · cases h

theorem acceptWhile_inside (hreads : ReadsWords R test L) (hcurrent : current ≤ R.tail)
    (hends : EndsBefore R (L∗) current) (h : acceptWhile R test current = some stop) :
    stop ≤ R.tail := by
  have hround : ∀ p n, p ≤ R.tail ∧ EndsBefore R (L∗) p → test p = some (true, n) →
      p + n ≤ R.tail ∧ EndsBefore R (L∗) (p + n) := by
    rintro p n ⟨hp, hends⟩ htest
    rcases hreads p hp n htest with ⟨hle, hword⟩ | ⟨w, hw, hprefix⟩
    · refine ⟨hle, fun u hu hprefix => ?_⟩
      refine hends ((R.input.drop p).take n ++ u) ?_ ?_
      · obtain ⟨words, rfl, hwords⟩ := Language.mem_kstar.1 hu
        refine Language.mem_kstar.2 ⟨(R.input.drop p).take n :: words, rfl, ?_⟩
        intro y hy
        rcases List.mem_cons.1 hy with rfl | hy
        · exact hword
        · exact hwords y hy
      · have hsplit : R.input.drop p = (R.input.drop p).take n ++ R.input.drop (p + n) := by
          rw [← List.drop_drop, List.take_append_drop]
        rw [hsplit, List.append_assoc]
        simpa using hprefix
    · refine absurd hprefix (hends w ?_)
      exact Language.mem_kstar.2 ⟨[w], by simp, by simpa using hw⟩
  exact (acceptLoop_induct hround ⟨hcurrent, hends⟩ h).1

end Tests

section Runs

variable {P : Program} {R : Runtime} {m₀ m m' : Machine} {items : List (StackItem ℤ)} {inst : Inst}

def ItemInside (R : Runtime) : StackItem ℤ → Prop
  | .cell pos => pos.toNat ≤ R.tail
  | .frame slots => ∃ pos rest, slots = pos :: rest ∧ pos.toNat ≤ R.tail

structure Inside (R : Runtime) (items : List (StackItem ℤ)) (m : Machine) : Prop where
  current : m.current ≤ R.tail
  items : ∀ item ∈ items, ItemInside R item

theorem effect_inside {fail : ℤ} {e : Effect} (hcurrent : m.current ≤ R.tail)
    (he : ∀ stop, e = .next stop → stop ≤ R.tail) (h : m.effect fail e = some (.next m')) :
    m'.current ≤ R.tail := by
  cases e with
  | next stop =>
    cases h
    exact he stop rfl
  | fail =>
    cases h
    exact hcurrent
  | stuck => cases h

theorem move_inside {current : Option ℕ} (he : ∀ stop, current = some stop → stop ≤ R.tail)
    (h : m.move current = some (.next m')) : m'.current ≤ R.tail := by
  cases current with
  | none => cases h
  | some stop =>
    cases h
    exact he stop rfl

/-- A step that stays inside, with the items that it finds on the stack. -/
theorem Inside.current_next {items' : List (StackItem ℤ)} (h : Inside R items m)
    (hok : StackOk items m) (hstays : StaysInside R m inst)
    (hafter : (inst.stackOp m).after items = some items')
    (hexec : exec R m inst = some (.next m')) : m'.current ≤ R.tail := by
  obtain ⟨hemitted, hends⟩ := hstays
  have hcurrent := h.current
  cases inst with
  | iTableJump | iUByte | iUSet | iRUByte | iRUSet | iOUByte | iOUSet | iLookup | iMemo | iMemoFail
  | iTStart | iTCommit | iTAbort | iTFoldL | iTReplace | iTLookup | iTMemo | iSOpen | iSClose
  | iSMask | iSDef | iSIsDef | iSExists | iSMatch | iSIs | iSIsa => cases hemitted
  | iExit => cases hexec
  | iLabel | iJump | iRet | iTPush | iTPop | iTNew | iTCapture =>
    cases hexec
    exact hcurrent
  | iTTag =>
    simp only [exec, Option.bind_eq_bind, Option.bind_eq_some_iff] at hexec
    obtain ⟨_, -, hexec⟩ := hexec
    cases hexec
    exact hcurrent
  | iInvoke =>
    simp only [exec, Option.bind_eq_bind, Option.bind_eq_some_iff] at hexec
    obtain ⟨m₁, hpush, hexec⟩ := hexec
    cases hexec
    obtain ⟨-, -, -, hsame, -⟩ := Machine.pushFrame_cases hpush
    exact hsame.trans_le hcurrent
  | iPStore =>
    simp only [exec, Option.bind_eq_bind, Option.bind_eq_some_iff] at hexec
    obtain ⟨m₁, hpush, hexec⟩ := hexec
    cases hexec
    obtain ⟨-, rfl⟩ := m.push_cases hpush
    exact hcurrent
  | iPLoad =>
    obtain ⟨pos, rfl⟩ := StackOp.items_of_pop hafter
    cases hexec
    show m.top.toNat ≤ R.tail
    have htop : m.top = pos := hok.top.1
    rw [htop]
    exact h.items (.cell pos) (List.mem_cons_self ..)
  | iFail =>
    cases hexec
    obtain ⟨prev, slots, hmem, hold, -⟩ := hok.frameAt hafter
    obtain ⟨pos, rest, rfl, hpos⟩ := h.items _ hmem
    show m.framePos.toNat ≤ R.tail
    have hslot : m.framePos = pos := hold.slots 0 pos rfl
    rwa [hslot]
  | iAny =>
    refine effect_inside hcurrent (fun stop he => ?_) hexec
    unfold accept at he
    split at he
    · rename_i n htest
      cases he
      simp only [anyTest, Option.some.injEq, Prod.mk.injEq, Bool.not_eq_true', Runtime.eos,
        beq_eq_false_iff_ne] at htest
      omega
    · cases he
    · cases he
  | iByte fail ch =>
    exact effect_inside hcurrent (fun _ => accept_inside (readsWords_byte ch) hcurrent hends) hexec
  | iStr fail strId =>
    exact effect_inside hcurrent (fun _ => accept_inside (readsWords_str strId) hcurrent hends) hexec
  | iSet fail setId =>
    exact effect_inside hcurrent (fun _ => accept_inside (readsWords_set setId) hcurrent hends) hexec
  | iNAny | iNByte | iNStr | iNSet =>
    exact effect_inside hcurrent (fun _ he => (reject_eq he).symm.trans_le hcurrent) hexec
  | iRAny =>
    refine move_inside (fun stop he => ?_) hexec
    refine @acceptLoop_induct _ _ _ (· ≤ R.tail) (fun p n hp htest => ?_) _ hcurrent he
    simp only [anyTest, Option.some.injEq, Prod.mk.injEq, Bool.not_eq_true', Runtime.eos,
      beq_eq_false_iff_ne] at htest
    omega
  | iRByte ch =>
    exact move_inside (fun _ => acceptWhile_inside (readsWords_byte ch) hcurrent hends) hexec
  | iRStr strId =>
    exact move_inside (fun _ => acceptWhile_inside (readsWords_str strId) hcurrent hends) hexec
  | iRSet setId =>
    exact move_inside (fun _ => acceptWhile_inside (readsWords_set setId) hcurrent hends) hexec
  | iOByte ch =>
    exact move_inside (fun _ => acceptOption_inside (readsWords_byte ch) hcurrent hends) hexec
  | iOStr strId =>
    exact move_inside (fun _ => acceptOption_inside (readsWords_str strId) hcurrent hends) hexec
  | iOSet setId =>
    exact move_inside (fun _ => acceptOption_inside (readsWords_set setId) hcurrent hends) hexec

theorem Inside.items_next {items' : List (StackItem ℤ)} (h : Inside R items m)
    (hemitted : inst.emitted) (hafter : (inst.stackOp m).after items = some items') :
    ∀ item ∈ items', ItemInside R item := by
  cases inst with
  | iTableJump | iUByte | iUSet | iRUByte | iRUSet | iOUByte | iOUSet | iLookup | iMemo | iMemoFail
  | iTStart | iTCommit | iTAbort | iTFoldL | iTReplace | iTLookup | iTMemo | iSOpen | iSClose
  | iSMask | iSDef | iSIsDef | iSExists | iSMatch | iSIs | iSIsa => cases hemitted
  | iInvoke fail funcaddr =>
    cases hafter
    intro item hitem
    rcases List.mem_cons.1 hitem with rfl | hitem
    · exact ⟨_, _, rfl, h.current⟩
    · exact h.items item hitem
  | iPStore =>
    cases hafter
    intro item hitem
    rcases List.mem_cons.1 hitem with rfl | hitem
    · exact h.current
    · exact h.items item hitem
  | iPLoad =>
    match items, hafter with
    | .cell pos :: items, hafter =>
      cases hafter
      exact fun item hitem => h.items item (List.mem_cons_of_mem _ hitem)
  | iRet | iFail => exact fun item hitem => h.items item (mem_of_dropFrame hafter hitem)
  | _ =>
    cases hafter
    exact h.items

/-- In a run whose steps stay inside, no position of any state is beyond the end of the input. -/
theorem current_inside {stack : ℕ → ℤ} {ast : AstMachine} {tbl : Symtable} {memo : Memo}
    (hstart : start P stack ast tbl memo = some m₀)
    (h : StackRun P R (StaysInside R) m₀ items m) : m.current ≤ R.tail := by
  suffices hinside : Inside R items m from hinside.current
  have hok₀ := start_stackOk hstart
  induction h with
  | start =>
    obtain ⟨-, -, -, hzero, -⟩ := Machine.pushFrame_cases hstart
    refine ⟨hzero.trans_le (Nat.zero_le _), fun item hitem => ?_⟩
    rw [List.mem_singleton.1 hitem]
    exact ⟨0, _, rfl, Nat.zero_le _⟩
  | @step items items' m m' inst stop hrun hfetch hstays hafter hexec ih =>
    have hinside : Inside R items { m with pc := stop } := ⟨ih.current, ih.items⟩
    have hok : StackOk items m := hrun.stackOk hok₀
    exact ⟨hinside.current_next hok hstays hafter hexec, hinside.items_next hstays.1 hafter⟩

end Runs

/-- `File = '\x00'`. -/
def zero : MozCompiler where
  decls := [{ body := .byte 0 }]

def zeroProgram : Program where
  code := [10, 1, 0, 0, 0, 0, 7, 8]
  base := 4096
  stub := 8192
  disjoint := by decide

/-- On an empty file the module consumes the byte after the input. -/
theorem zero_consumed :
    ((mozIrOptimize 40 (mozAstToIr zero)).bind mozVm2ModuleCompile) = some zeroProgram.code ∧
    ∃ m₀ items m, start zeroProgram (fun _ => 0) {} {} {} = some m₀ ∧
      StackRun zeroProgram { input := [] } (fun _ _ => True) m₀ items m ∧
      ({ input := [] } : Runtime).tail < m.current := by
  refine ⟨by decide +kernel, ?_⟩
  have hbyte : zeroProgram.fetch 4096 = some (.iByte 1 0, 4102) := by decide +kernel
  exact ⟨_, _, _, rfl, .step .start hbyte trivial rfl rfl, by decide⟩

/-- On the input `a` the module of `callee` stays inside. -/
theorem callee_inside : ∃ m₀ items m, start calleeProgram (fun _ => 0) {} {} {} = some m₀ ∧
    StackRun calleeProgram { input := [97] } (StaysInside { input := [97] }) m₀ items m ∧
    m.current ≤ ({ input := [97] } : Runtime).tail := by
  have hinvoke : calleeProgram.fetch 4096 = some (.iInvoke 1 2, 4105) := by decide +kernel
  have hbyte : calleeProgram.fetch 4107 = some (.iByte 1 97, 4113) := by decide +kernel
  have hends : EndsBefore { input := [97] } (byteWords 97) 0 := by
    rintro w rfl
    decide
  obtain ⟨m₀, items, m, hstart, hrun⟩ : ∃ m₀ items m,
      start calleeProgram (fun _ => 0) {} {} {} = some m₀ ∧
      StackRun calleeProgram { input := [97] } (StaysInside { input := [97] }) m₀ items m :=
    ⟨_, _, _, rfl, .step (.step .start hinvoke ⟨rfl, fun _ h => h.elim⟩ rfl rfl) hbyte
      ⟨rfl, hends⟩ rfl rfl⟩
  exact ⟨m₀, items, m, hstart, hrun, current_inside hstart hrun⟩

end Moz.Vm2
