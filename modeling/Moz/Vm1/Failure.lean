import Moz.Libnez.AstTransaction
import Moz.Vm1.Choice

/-!
# Failure in VM1

A run of a program whose pushes and pops are nested, followed together with the
items that lie on the stack. A failure goes back to the state that was saved when
the top frame was pushed or refreshed. `Skip` may refresh a frame only while
nothing but return addresses lie above it: a position or a savepoint that lies
there is older than the refreshed frame, and popping it goes back behind it.
-/

namespace Moz.Vm1

/-- The instructions that put nothing on the stack and take nothing from it. -/
def Inst.plain : Inst → Bool
  | .alt _ | .succ | .call _ _ | .ret _ | .pos | .back | .skip | .memo _ _ | .tStart | .tCommit _
  | .tMemo _ _ | .sOpen | .sClose | .sMask _ | .sDef _ | .sIs _ | .sIsa _ => false
  | .nop | .fail | .jump _ | .byte _ | .any | .str _ | .set _ | .nByte _ | .nAny | .nStr _
  | .nSet _ | .oByte _ | .oAny | .oStr _ | .oSet _ | .rByte _ | .rAny | .rStr _ | .rSet _
  | .consume _ | .first _ | .lookup _ _ _ | .memoFail _ _ | .tPush | .tPop _ | .tLeftFold _ _
  | .tNew _ | .tCapture _ | .tTag _ | .tReplace _ | .tAbort | .tLookup _ _ _ _ | .sIsDef _ _
  | .sExists _ | .sMatch _ | .sDefNum | .sCount | .exit _ | .tblJump1 _ | .tblJump2 _
  | .tblJump3 _ | .label => true

/-- What an instruction that does not fail makes of the items, in a nested program. `m` has its
`PC` after the operands, and `above` says what may lie above a frame that is refreshed. -/
inductive Nests (above : Item → Bool) (m : Machine) : Inst → List Item → List Item → Prop
  | alt (failjump : ℤ) (items : List Item) : Nests above m (.alt failjump) items
      (.choice ⟨false, m.snap, m.pc + failjump, m.sp, m.fp⟩ :: items)
  | succ {c : Choice} (hc : c.initial = false) (items : List Item) :
      Nests above m .succ (.choice c :: items) items
  | memo {c : Choice} (hc : c.initial = false) (state : UInt8) (memoId : UInt16)
      (items : List Item) : Nests above m (.memo state memoId) (.choice c :: items) items
  | tMemo {c : Choice} (hc : c.initial = false) (state : UInt8) (memoId : UInt16)
      (items : List Item) : Nests above m (.tMemo state memoId) (.choice c :: items) items
  | skip {marks : List Item} (hmarks : ∀ x ∈ marks, x.isMark ∧ above x) (c : Choice)
      (items : List Item) : Nests above m .skip (marks ++ .choice c :: items)
        (marks ++ .choice { c with snap := m.snap } :: items)
  | call (next jump : ℤ) (items : List Item) :
      Nests above m (.call next jump) items (.ret (m.pc + next) :: items)
  | ret (dummy next : ℤ) (items : List Item) :
      Nests above m (.ret dummy) (.ret next :: items) items
  | pos (items : List Item) : Nests above m .pos items (.pos m.snap :: items)
  | back (s : Snap) (items : List Item) : Nests above m .back (.pos s :: items) items
  | sDef (tagId : UInt16) (s : Snap) (items : List Item) :
      Nests above m (.sDef tagId) (.pos s :: items) items
  | sIs (tagId : UInt16) (s : Snap) (items : List Item) :
      Nests above m (.sIs tagId) (.pos s :: items) items
  | sIsa (tagId : UInt16) (s : Snap) (items : List Item) :
      Nests above m (.sIsa tagId) (.pos s :: items) items
  | tStart (items : List Item) : Nests above m .tStart items (.tx m.snap :: items)
  | tCommit (tagId : UInt16) (s : Snap) (items : List Item) :
      Nests above m (.tCommit tagId) (.tx s :: items) items
  | sOpen (items : List Item) : Nests above m .sOpen items (.scope m.snap :: items)
  | sMask (tagId : UInt16) (items : List Item) :
      Nests above m (.sMask tagId) items (.scope m.snap :: items)
  | sClose (s : Snap) (items : List Item) : Nests above m .sClose (.scope s :: items) items
  | plain {inst : Inst} (h : inst.plain) (items : List Item) : Nests above m inst items items

/-- The frame that `moz_runtime_parse_init` pushes. -/
def Choice.init (P : Program) (m : Machine) : Choice where
  initial := true
  snap := m.snap
  target := P.stub + 2
  base := stackBase
  fp := stackBase

/-- A state that is reached from `m₀` by a nested run with no negative `Consume`, and the items on
its stack. A failure takes everything down to the top frame. -/
inductive Run (above : Item → Bool) (P : Program) (R : Runtime) (m₀ : Machine) :
    List Item → Machine → Prop
  | start : Run above P R m₀ [.ret P.stub, .choice (.init P m₀)] m₀
  | next {items items' : List Item} {m m' : Machine} {inst : Inst} {stop : ℤ}
      (h : Run above P R m₀ items m) (hfetch : P.fetch m.pc = some (inst, stop))
      (hexec : exec R { m with pc := stop } inst = some (.next m'))
      (hnests : Nests above { m with pc := stop } inst items items')
      (hconsume : ∀ shift, inst = .consume shift → 0 ≤ shift.toInt) :
      Run above P R m₀ items' m'
  | fail {marks items : List Item} {c : Choice} {m m₁ m' : Machine} {inst : Inst} {stop : ℤ}
      (h : Run above P R m₀ (marks ++ .choice c :: items) m) (hmarks : ∀ x ∈ marks, x.isMark)
      (hfetch : P.fetch m.pc = some (inst, stop))
      (hexec : exec R { m with pc := stop } inst = some (.failed m₁))
      (hfail : failImpl m₁ = some m') : Run above P R m₀ items m'

section Exec

variable {R : Runtime} {m m' : Machine} {inst : Inst}

/-- The registers of the stack and its cells are the same. -/
structure SameStack (m m' : Machine) : Prop where
  sp : m'.sp = m.sp
  fp : m'.fp = m.fp
  stack : m'.stack = m.stack

theorem Machine.effect_next {e : Effect} (h : m.effect e = some (.next m')) :
    ∃ current, e = .next current ∧ m' = { m with current := current } := by
  cases e with
  | next current =>
    cases h
    exact ⟨current, rfl, rfl⟩
  | fail => cases h
  | stuck => cases h

theorem Machine.move_next {current : Option ℕ} (h : m.move current = some (.next m')) :
    ∃ stop, current = some stop ∧ m' = { m with current := stop } := by
  cases current with
  | none => cases h
  | some stop =>
    cases h
    exact ⟨stop, rfl, rfl⟩

theorem Machine.snap_le_of_current {current : ℕ} (h : m.current ≤ current) :
    m.snap ≤ ({ m with current := current } : Machine).snap :=
  ⟨h, List.prefix_rfl, List.prefix_rfl⟩

theorem Machine.snap_le_of_log {ast : AstMachine} (h : m.ast.logs <+: ast.logs) :
    m.snap ≤ ({ m with ast := ast } : Machine).snap :=
  ⟨le_rfl, h, List.prefix_rfl⟩

/-- An instruction that leaves the stack alone moves on, logs and defines. -/
theorem exec_plain (h : exec R m inst = some (.next m')) (hinst : inst.plain)
    (hconsume : ∀ shift, inst = .consume shift → 0 ≤ shift.toInt) :
    SameStack m m' ∧ m.snap ≤ m'.snap := by
  cases inst with
  | alt | succ | call | ret | pos | back | skip | memo | tStart | tCommit | tMemo | sOpen | sClose
  | sMask | sDef | sIs | sIsa => cases hinst
  | fail | oAny | rAny | tAbort | sDefNum | sCount | exit => cases h
  | nop | label | jump =>
    cases h
    exact ⟨⟨rfl, rfl, rfl⟩, le_rfl⟩
  | byte | any | str | set =>
    obtain ⟨current, he, rfl⟩ := Machine.effect_next h
    exact ⟨⟨rfl, rfl, rfl⟩, Machine.snap_le_of_current (accept_le he)⟩
  | nByte | nAny | nStr | nSet =>
    obtain ⟨current, he, rfl⟩ := Machine.effect_next h
    exact ⟨⟨rfl, rfl, rfl⟩, Machine.snap_le_of_current (reject_eq he).le⟩
  | oByte | oStr | oSet =>
    obtain ⟨current, he, rfl⟩ := Machine.move_next h
    exact ⟨⟨rfl, rfl, rfl⟩, Machine.snap_le_of_current (acceptOption_le he)⟩
  | rByte | rStr | rSet =>
    obtain ⟨current, he, rfl⟩ := Machine.move_next h
    exact ⟨⟨rfl, rfl, rfl⟩, Machine.snap_le_of_current (acceptWhile_le he)⟩
  | consume shift =>
    cases h
    have hshift := hconsume shift rfl
    refine ⟨⟨rfl, rfl, rfl⟩, Machine.snap_le_of_current ?_⟩
    unfold shifted
    omega
  | first tblId =>
    obtain ⟨jump, -, h⟩ := Option.bind_eq_some_iff.1 h
    cases h
    exact ⟨⟨rfl, rfl, rfl⟩, le_rfl⟩
  | tblJump1 | tblJump2 | tblJump3 =>
    obtain ⟨tbl, -, h⟩ := Option.bind_eq_some_iff.1 h
    obtain ⟨jump, -, h⟩ := Option.bind_eq_some_iff.1 h
    cases h
    exact ⟨⟨rfl, rfl, rfl⟩, le_rfl⟩
  | lookup state memoId skip =>
    simp only [exec] at h
    split at h
    · split_ifs at h
      · cases h
      · cases h
        exact ⟨⟨rfl, rfl, rfl⟩, Nat.le_add_right _ _, List.prefix_rfl, List.prefix_rfl⟩
    · cases h
      exact ⟨⟨rfl, rfl, rfl⟩, le_rfl⟩
  | memoFail state memoId =>
    obtain ⟨_, -, h⟩ := Option.bind_eq_some_iff.1 h
    cases h
  | tPush | tPop | tLeftFold | tNew | tCapture =>
    cases h
    exact ⟨⟨rfl, rfl, rfl⟩, Machine.snap_le_of_log (List.prefix_append _ _)⟩
  | tTag | tReplace =>
    obtain ⟨_, -, h⟩ := Option.bind_eq_some_iff.1 h
    cases h
    exact ⟨⟨rfl, rfl, rfl⟩, Machine.snap_le_of_log (List.prefix_append _ _)⟩
  | tLookup state tagId memoId skip =>
    simp only [exec] at h
    split at h
    · split at h
      · cases h
      · cases h
        exact ⟨⟨rfl, rfl, rfl⟩, Nat.le_add_right _ _, List.prefix_append _ _, List.prefix_rfl⟩
      · cases h
        exact ⟨⟨rfl, rfl, rfl⟩, Nat.le_add_right _ _, List.prefix_append _ _, List.prefix_rfl⟩
    · cases h
      exact ⟨⟨rfl, rfl, rfl⟩, le_rfl⟩
  | sIsDef tagId strId =>
    obtain ⟨symbol, -, h⟩ := Option.bind_eq_some_iff.1 h
    split_ifs at h
    · cases h
      exact ⟨⟨rfl, rfl, rfl⟩, le_rfl⟩
    · cases h
  | sExists tagId =>
    simp only [exec] at h
    split_ifs at h
    · cases h
      exact ⟨⟨rfl, rfl, rfl⟩, le_rfl⟩
    · cases h
  | sMatch tagId =>
    simp only [exec] at h
    split at h
    · split_ifs at h
      · cases h
        exact ⟨⟨rfl, rfl, rfl⟩, Machine.snap_le_of_current (Nat.le_add_right _ _)⟩
      · cases h
    · cases h

/-- The state in which an instruction fails: only `SP` may have changed, and the memo table. -/
structure FailsAt (m m₁ : Machine) : Prop where
  fp : m₁.fp = m.fp
  stack : m₁.stack = m.stack
  snap : m₁.snap = m.snap

theorem Machine.effect_failed {m₁ : Machine} {e : Effect} (h : m.effect e = some (.failed m₁)) :
    m₁ = m := by
  cases e with
  | next current => cases h
  | fail =>
    cases h
    rfl
  | stuck => cases h

theorem Machine.move_failed {m₁ : Machine} {current : Option ℕ}
    (h : m.move current = some (.failed m₁)) : False := by
  cases current with
  | none => cases h
  | some current => cases h

theorem exec_failed {m₁ : Machine} (h : exec R m inst = some (.failed m₁)) : FailsAt m m₁ := by
  cases inst with
  | nop | label | jump | succ | ret | back | consume | tPush | tPop | tLeftFold | tNew | tCapture
  | sDef | exit | oAny | rAny | tAbort | sDefNum | sCount => cases h
  | alt | call | pos | first | tTag | tReplace | tStart | tCommit | sOpen | sClose | sMask =>
    obtain ⟨_, -, h⟩ := Option.bind_eq_some_iff.1 h
    cases h
  | tblJump1 | tblJump2 | tblJump3 =>
    obtain ⟨_, -, h⟩ := Option.bind_eq_some_iff.1 h
    obtain ⟨_, -, h⟩ := Option.bind_eq_some_iff.1 h
    cases h
  | memo | tMemo =>
    obtain ⟨_, -, h⟩ := Option.bind_eq_some_iff.1 h
    cases h
  | fail =>
    cases h
    exact ⟨rfl, rfl, rfl⟩
  | byte | any | str | set | nByte | nAny | nStr | nSet =>
    obtain rfl := Machine.effect_failed h
    exact ⟨rfl, rfl, rfl⟩
  | oByte | oStr | oSet | rByte | rStr | rSet => exact (Machine.move_failed h).elim
  | skip =>
    simp only [exec] at h
    split_ifs at h
    · cases h
      exact ⟨rfl, rfl, rfl⟩
    · cases h
  | lookup state memoId skip =>
    simp only [exec] at h
    split at h
    · split_ifs at h
      · cases h
        exact ⟨rfl, rfl, rfl⟩
      · cases h
    · cases h
  | memoFail state memoId =>
    obtain ⟨_, -, h⟩ := Option.bind_eq_some_iff.1 h
    cases h
    exact ⟨rfl, rfl, rfl⟩
  | tLookup state tagId memoId skip =>
    simp only [exec] at h
    split at h
    · split at h
      · cases h
        exact ⟨rfl, rfl, rfl⟩
      · cases h
      · cases h
    · cases h
  | sIsDef tagId strId =>
    obtain ⟨symbol, -, h⟩ := Option.bind_eq_some_iff.1 h
    split_ifs at h
    · cases h
    · cases h
      exact ⟨rfl, rfl, rfl⟩
  | sExists tagId =>
    simp only [exec] at h
    split_ifs at h
    · cases h
    · cases h
      exact ⟨rfl, rfl, rfl⟩
  | sMatch tagId =>
    simp only [exec] at h
    split at h
    · split_ifs at h
      · cases h
      · cases h
        exact ⟨rfl, rfl, rfl⟩
    · cases h
      exact ⟨rfl, rfl, rfl⟩
  | sIs tagId =>
    simp only [exec] at h
    split at h
    · split_ifs at h
      · cases h
      · cases h
        exact ⟨rfl, rfl, rfl⟩
    · cases h
      exact ⟨rfl, rfl, rfl⟩
  | sIsa tagId =>
    simp only [exec] at h
    split_ifs at h
    · cases h
    · cases h
      exact ⟨rfl, rfl, rfl⟩

theorem Machine.push_spec {x : ℤ} (h : m.push x = some m') :
    m'.sp = m.sp + 1 ∧ m'.fp = m.fp ∧ m'.pc = m.pc ∧ m'.snap = m.snap ∧ m'.stack m.sp = x ∧
      ∀ i < m.sp, m'.stack i = m.stack i := by
  unfold Machine.push at h
  split_ifs at h
  cases h
  exact ⟨rfl, rfl, rfl, rfl, Function.update_self _ _ _,
    fun i hi => Function.update_of_ne hi.ne _ _⟩

/-- `PUSH_FRAME`: the cells of a choice that saves the current state. -/
theorem Machine.pushChoice_spec {next : ℤ} (h : m.pushChoice next = some m') (initial : Bool) :
    m'.sp = m.sp + fpMax ∧ m'.fp = m.sp ∧ m'.pc = m.pc ∧ m'.snap = m.snap ∧
      Choice.Cells ⟨initial, m.snap, next, m.sp, m.fp⟩ m'.stack ∧
      ∀ i < m.sp, m'.stack i = m.stack i := by
  unfold Machine.pushChoice Machine.pushFrame at h
  split_ifs at h
  cases h
  refine ⟨rfl, rfl, rfl, rfl, ⟨?_, ?_, ?_, ?_, ?_⟩, fun i hi => ?_⟩
  all_goals simp only
  · rw [Function.update_of_ne (by omega), Function.update_of_ne (by omega),
      Function.update_of_ne (by omega), Function.update_of_ne (by omega), Function.update_self]
  · rw [Function.update_of_ne (by omega), Function.update_of_ne (by omega),
      Function.update_of_ne (by omega), Function.update_self]
    rfl
  · rw [Function.update_of_ne (by omega), Function.update_of_ne (by omega), Function.update_self]
  · rw [Function.update_of_ne (by omega), Function.update_self]
    rfl
  · rw [Function.update_self]
    rfl
  · rw [Function.update_of_ne (by omega), Function.update_of_ne (by omega),
      Function.update_of_ne (by omega), Function.update_of_ne (by omega),
      Function.update_of_ne (by omega)]

end Exec

inductive Rooted (P : Program) : List Item → Prop
  | init {c : Choice} (hc : c.initial) (htarget : c.target = P.stub + 2) : Rooted P [.choice c]
  | cons {item : Item} {items : List Item} (hitem : ∀ c, item = .choice c → c.initial = false)
      (h : Rooted P items) : Rooted P (item :: items)

namespace Rooted

variable {P : Program} {items marks : List Item} {item : Item} {c : Choice}

theorem mark (h : Rooted P items) (hitem : item.isMark) : Rooted P (item :: items) :=
  .cons (fun c hc => by rw [hc] at hitem; cases hitem) h

theorem tail (h : Rooted P (item :: items)) (hitem : ∀ c, item = .choice c → c.initial = false) :
    Rooted P items := by
  cases h with
  | init hc => exact absurd (hitem _ rfl) (by simp [hc])
  | cons _ h => exact h

theorem tail_mark (h : Rooted P (item :: items)) (hitem : item.isMark) : Rooted P items :=
  h.tail fun c hc => by rw [hc] at hitem; cases hitem

theorem refresh (h : Rooted P (marks ++ .choice c :: items)) (hmarks : ∀ x ∈ marks, x.isMark)
    {c' : Choice} (hinitial : c'.initial = c.initial) (htarget : c'.target = c.target) :
    Rooted P (marks ++ .choice c' :: items) := by
  induction marks with
  | nil =>
    cases h with
    | init hc ht => exact .init (hinitial.trans hc) (htarget.trans ht)
    | cons hitem h =>
      refine .cons (fun d hd => ?_) h
      cases hd
      exact hinitial.trans (hitem c rfl)
  | cons x marks ih =>
    have hx := hmarks x (by simp)
    exact (ih (h.tail_mark hx) fun y hy => hmarks y (by simp [hy])).mark hx

theorem exists_frame (h : Rooted P items) : ∃ marks c rest, items = marks ++ .choice c :: rest ∧
    ∀ x ∈ marks, x.isMark := by
  induction h with
  | @init c => exact ⟨[], c, [], rfl, by simp⟩
  | @cons item items _ _ ih =>
    cases item with
    | choice c => exact ⟨[], c, items, rfl, by simp⟩
    | ret | pos | tx | scope =>
      obtain ⟨marks, c, rest, rfl, hmarks⟩ := ih
      refine ⟨_ :: marks, c, rest, rfl, fun x hx => ?_⟩
      rcases List.mem_cons.1 hx with rfl | hx
      · rfl
      · exact hmarks x hx

/-- The top frame is the initial one, or there is a frame below it. -/
theorem unwind (h : Rooted P (marks ++ .choice c :: items)) (hmarks : ∀ x ∈ marks, x.isMark) :
    c.initial ∧ c.target = P.stub + 2 ∧ items = [] ∨ c.initial = false ∧ Rooted P items := by
  induction marks with
  | nil =>
    cases h with
    | init hc ht => exact .inl ⟨hc, ht, rfl⟩
    | cons hitem h => exact .inr ⟨hitem c rfl, h⟩
  | cons x marks ih =>
    exact ih (h.tail_mark (hmarks x (by simp))) fun y hy => hmarks y (by simp [hy])

end Rooted

/-- The items are what lies on the stack, and their states are in order. -/
structure Stacked (P : Program) (items : List Item) (m : Machine) : Prop where
  holds : Holds m.stack m.sp m.fp items
  ordered : Ordered m.snap items
  rooted : Rooted P items ∨ items = [] ∧ m.pc = P.stub + 2

/-- The instruction at which a failure of the initial frame goes on. -/
theorem Program.fetch_stub_fail (P : Program) :
    P.fetch (P.stub + 2) = some (.exit 1, P.stub + 4) := by
  have hdisjoint := P.disjoint
  have hlength : (stubCode.length : ℤ) = 4 := rfl
  have hoffset : (P.stub + 2 - P.stub).toNat = 2 := by omega
  have hdecode : decode stubCode 2 = some (.exit 1, 4) := by decide
  rw [Program.fetch, if_neg (by omega), if_pos (by omega), hoffset, hdecode]
  rfl

section Steps

variable {P : Program} {R : Runtime} {m m' m₁ : Machine} {inst : Inst} {items items' marks : List Item}
  {c : Choice}

theorem Stacked.frame_eq (h : Stacked P (marks ++ .choice c :: items) m)
    (hmarks : ∀ x ∈ marks, x.isMark) (hm : FailsAt m m₁) :
    m₁.framePos.toNat = c.snap.current ∧ m₁.frameAst.toNat = c.snap.logs.length ∧
      m₁.frameSymtbl.toNat = c.snap.table.length ∧ m₁.frameNext = c.target ∧
      m₁.fp = c.base ∧ (m₁.stack m₁.fp).toNat = c.fp := by
  obtain ⟨hfp, -, hcells, -⟩ := h.holds.frame hmarks
  refine ⟨?_, ?_, ?_, ?_, hm.fp.trans hfp, ?_⟩
  · rw [Machine.framePos, hm.fp, hm.stack, hfp, hcells.pos, Int.toNat_natCast]
  · rw [Machine.frameAst, hm.fp, hm.stack, hfp, hcells.ast, Int.toNat_natCast]
  · rw [Machine.frameSymtbl, hm.fp, hm.stack, hfp, hcells.symtbl, Int.toNat_natCast]
  · rw [Machine.frameNext, hm.fp, hm.stack, hfp, hcells.next]
  · rw [hm.fp, hm.stack, hfp, hcells.fp, Int.toNat_natCast]

/-- The log and the symbol table of the top frame are beginnings of those at the failure. -/
theorem Stacked.frame_prefix (h : Stacked P (marks ++ .choice c :: items) m) (hm : FailsAt m m₁) :
    c.snap.current ≤ m₁.current ∧ c.snap.logs <+: m₁.ast.logs ∧ c.snap.table <+: m₁.tbl.table := by
  obtain ⟨hle, -⟩ := h.ordered.unwind
  rw [← hm.snap] at hle
  exact ⟨hle.current, hle.logs, hle.table⟩

/-- `FAIL_IMPL` goes back to the state of the top frame. -/
theorem Stacked.failImpl (h : Stacked P (marks ++ .choice c :: items) m)
    (hmarks : ∀ x ∈ marks, x.isMark) (hm : FailsAt m m₁) (hfail : failImpl m₁ = some m') :
    m'.snap = c.snap ∧ m'.sp = c.base ∧ m'.fp = c.fp ∧ m'.pc = c.target ∧ m'.stack = m.stack := by
  obtain ⟨hpos, hast, hsymtbl, hnext, hfp, hprev⟩ := h.frame_eq hmarks hm
  obtain ⟨hstop, hlogs, htable⟩ := h.frame_prefix hm
  simp only [Vm1.failImpl, hpos, hast, hsymtbl, hnext] at hfail
  obtain ⟨ast, hback, hfail⟩ := Option.bind_eq_some_iff.1 hfail
  obtain ⟨tbl, hroll, hfail⟩ := Option.bind_eq_some_iff.1 hfail
  obtain ⟨-, hback⟩ := astRollbackTx_logs hback
  have hlogs' : ast.logs = c.snap.logs := hback.trans (List.prefix_iff_eq_take.1 hlogs).symm
  have htable' : tbl.table = c.snap.table := by
    unfold symtableRollback at hroll
    split_ifs at hroll
    cases hroll
    exact (List.prefix_iff_eq_take.1 htable).symm
  split_ifs at hfail with hlt
  · cases hfail
    exact ⟨Snap.ext rfl hlogs' htable', hfp, hprev, rfl, hm.stack⟩
  · cases hfail
    have heq : m₁.current = c.snap.current := by omega
    exact ⟨Snap.ext heq hlogs' htable', hfp, hprev, rfl, hm.stack⟩

/-- `FAIL_IMPL` is defined as long as the counts of the nodes are right. -/
theorem Stacked.failImpl_isSome {live : Finset NodeId} {ext : Multiset NodeId}
    (h : Stacked P (marks ++ .choice c :: items) m) (hmarks : ∀ x ∈ marks, x.isMark)
    (hm : FailsAt m m₁) (howned : m₁.ast.Owned live ext) : ∃ m', Vm1.failImpl m₁ = some m' := by
  obtain ⟨-, hast, hsymtbl, -⟩ := h.frame_eq hmarks hm
  obtain ⟨-, hlogs, htable⟩ := h.frame_prefix hm
  obtain ⟨H', live', hback, -⟩ := astRollbackTx_spec howned hlogs.length_le
  have hroll : symtableRollback m₁.tbl c.snap.table.length =
      some { m₁.tbl with table := m₁.tbl.table.take c.snap.table.length } :=
    if_pos htable.length_le
  unfold Vm1.failImpl
  rw [hast, hback, hsymtbl, hroll]
  exact ⟨_, rfl⟩

theorem Stacked.fail (h : Stacked P (marks ++ .choice c :: items) m)
    (hmarks : ∀ x ∈ marks, x.isMark) (hm : FailsAt m m₁)
    (hfail : Vm1.failImpl m₁ = some m') : Stacked P items m' := by
  obtain ⟨hsnap, hsp, hfp, hpc, hstack⟩ := h.failImpl hmarks hm hfail
  obtain ⟨-, -, -, hrest⟩ := h.holds.frame hmarks
  refine ⟨?_, ?_, ?_⟩
  · rw [hsp, hfp, hstack]
    exact hrest
  · rw [hsnap]
    exact h.ordered.unwind.2
  · have hrooted : Rooted P (marks ++ .choice c :: items) := by
      rcases h.rooted with hrooted | ⟨hnil, -⟩
      · exact hrooted
      · simp at hnil
    rcases hrooted.unwind hmarks with ⟨-, htarget, hnil⟩ | ⟨-, hrest⟩
    · exact .inr ⟨hnil, hpc.trans htarget⟩
    · exact .inl hrest

theorem Stacked.pushMark {x : ℤ} {item : Item} (h : Stacked P items m) (hroot : Rooted P items)
    (hpush : m.push x = some m') (hcell : item.cell = some x) (hmark : item.isMark)
    (hitem : item.snap = none ∨ item.snap = some m.snap) : Stacked P (item :: items) m' := by
  obtain ⟨hsp, hfp, -, hsnap, htop, hbelow⟩ := Machine.push_spec hpush
  refine ⟨?_, ?_, .inl (hroot.mark hmark)⟩
  · rw [hsp, hfp]
    exact .mark (h.holds.congr hbelow) (hcell.trans (congrArg some htop.symm))
  · rw [hsnap]
    rcases hitem with hnone | hsome
    · unfold Ordered snaps
      rw [List.filterMap_cons_none hnone]
      exact h.ordered
    · exact h.ordered.push hsome

/-- The mark on top is popped, and the new state comes after the one it saved. -/
theorem Stacked.popMark {item : Item} {s : Snap} (h : Stacked P (item :: items) m)
    (hroot : Rooted P (item :: items)) (hmark : item.isMark) (hitem : item.snap = some s)
    (hsp : m'.sp = m.sp - 1) (hfp : m'.fp = m.fp) (hstack : m'.stack = m.stack)
    (hsnap : s ≤ m'.snap) : Stacked P items m' := by
  refine ⟨?_, (h.ordered.back hitem).grow hsnap, .inl (hroot.tail_mark hmark)⟩
  rw [hsp, hfp, hstack]
  exact (h.holds.top hmark).2

theorem Stacked.top_eq {item : Item} {x : ℕ} (h : Stacked P (item :: items) m)
    (hmark : item.isMark) (hcell : item.cell = some (x : ℤ)) : m.top.toNat = x := by
  have htop := (h.holds.top hmark).1
  rw [hcell] at htop
  have heq : (x : ℤ) = m.top := Option.some.inj htop
  rw [← heq, Int.toNat_natCast]

theorem Stacked.dropFrame (h : Stacked P (.choice c :: items) m)
    (hroot : Rooted P (.choice c :: items)) (hc : c.initial = false) :
    m.dropFrame.sp = c.base ∧ m.dropFrame.fp = c.fp ∧ Holds m.stack c.base c.fp items ∧
      Ordered m.snap items ∧ Rooted P items := by
  obtain ⟨-, hfp, hcells, hrest⟩ := h.holds.topChoice
  refine ⟨hfp, ?_, hrest, h.ordered.pop, hroot.tail fun d hd => ?_⟩
  · show (m.stack m.fp).toNat = c.fp
    rw [hfp, hcells.fp, Int.toNat_natCast]
  · cases hd
    exact hc

/-- `memo_set` drops the frame and keeps position, log and symbol table. -/
theorem Stacked.memoize {state : UInt8} {memoId : UInt16} {node : Option NodeId}
    (h : Stacked P (.choice c :: items) m) (hroot : Rooted P (.choice c :: items))
    (hc : c.initial = false) (hexec : m.memoize R state memoId node = some (.next m')) :
    Stacked P items m' := by
  obtain ⟨hsp, hfp, hholds, hordered, hrooted⟩ := h.dropFrame hroot hc
  obtain ⟨_, -, hexec⟩ := Option.bind_eq_some_iff.1 hexec
  cases hexec
  refine ⟨?_, hordered, .inl hrooted⟩
  show Holds m.stack m.dropFrame.sp m.dropFrame.fp items
  rw [hsp, hfp]
  exact hholds

/-- `Skip` saves the current state in the top frame. -/
theorem Stacked.refresh (h : Stacked P (marks ++ .choice c :: items) m)
    (hroot : Rooted P (marks ++ .choice c :: items)) (hmarks : ∀ x ∈ marks, x.isMark ∧ x.isRet) :
    Stacked P (marks ++ .choice { c with snap := m.snap } :: items) m.refresh := by
  have hmark : ∀ x ∈ marks, x.isMark := fun x hx => (hmarks x hx).1
  have hret : ∀ x ∈ marks, x.isRet := fun x hx => (hmarks x hx).2
  obtain ⟨hfp, -, hcells, -⟩ := h.holds.frame hmark
  have hcell : ∀ i, i ≠ m.fp + 1 → i ≠ m.fp + 3 → i ≠ m.fp + 4 →
      m.refresh.stack i = m.stack i := by
    intro i h1 h3 h4
    simp only [Machine.refresh]
    rw [Function.update_of_ne h4, Function.update_of_ne h3, Function.update_of_ne h1]
  have hcells' : Choice.Cells { c with snap := m.snap } m.refresh.stack := by
    refine ⟨?_, ?_, ?_, ?_, ?_⟩
    · show m.refresh.stack c.base = c.fp
      rw [hcell _ (by omega) (by omega) (by omega), hcells.fp]
    · simp only [Machine.refresh, ← hfp]
      rw [Function.update_of_ne (by omega), Function.update_of_ne (by omega), Function.update_self]
      rfl
    · show m.refresh.stack (c.base + 2) = c.target
      rw [hcell _ (by omega) (by omega) (by omega), hcells.next]
    · simp only [Machine.refresh, ← hfp]
      rw [Function.update_of_ne (by omega), Function.update_self]
      rfl
    · simp only [Machine.refresh, ← hfp]
      rw [Function.update_self]
      rfl
  refine ⟨?_, ?_, .inl (hroot.refresh hmark rfl rfl)⟩
  · refine h.holds.refresh hmark rfl rfl (fun i hi => ?_) (fun i hi => ?_) hcells'
    · exact hcell i (by omega) (by omega) (by omega)
    · have hle : m.fp + 5 ≤ i := hi
      exact hcell i (by omega) (by omega) (by omega)
  · show Ordered m.snap _
    obtain ⟨hle, hrest⟩ := h.ordered.unwind
    rw [Ordered.append_rets hret]
    exact (hrest.grow hle).push rfl

/-- A nested instruction keeps the items in order, if frames are refreshed only below return
addresses. -/
theorem Stacked.advance (h : Stacked P items m) (hroot : Rooted P items)
    (hexec : exec R m inst = some (.next m')) (hnests : Nests Item.isRet m inst items items')
    (hconsume : ∀ shift, inst = .consume shift → 0 ≤ shift.toInt) : Stacked P items' m' := by
  cases hnests with
  | alt failjump =>
    obtain ⟨m₁, hpush, hexec⟩ := Option.bind_eq_some_iff.1 hexec
    cases hexec
    obtain ⟨hsp, hfp, -, hsnap, hcells, hbelow⟩ := Machine.pushChoice_spec hpush false
    refine ⟨?_, ?_, .inl (.cons (fun c hc => ?_) hroot)⟩
    · rw [hsp, hfp]
      exact .choice (h.holds.congr hbelow) hcells
    · rw [hsnap]
      exact h.ordered.push rfl
    · cases hc
      rfl
  | succ hc =>
    cases hexec
    obtain ⟨hsp, hfp, hholds, hordered, hrooted⟩ := h.dropFrame hroot hc
    refine ⟨?_, hordered, .inl hrooted⟩
    rw [hsp, hfp]
    exact hholds
  | memo hc => exact h.memoize hroot hc hexec
  | tMemo hc => exact h.memoize hroot hc hexec
  | skip hmarks c =>
    simp only [exec] at hexec
    split_ifs at hexec
    · cases hexec
    · cases hexec
      exact h.refresh hroot hmarks
  | call next jump =>
    obtain ⟨m₁, hpush, hexec⟩ := Option.bind_eq_some_iff.1 hexec
    cases hexec
    obtain ⟨hholds, hordered, -⟩ := h.pushMark hroot hpush
      (rfl : (Item.ret (m.pc + next)).cell = _) rfl (.inl rfl)
    exact ⟨hholds, hordered, .inl (hroot.mark rfl)⟩
  | ret dummy next =>
    cases hexec
    exact ⟨(h.holds.top rfl).2, h.ordered.pop, .inl (hroot.tail_mark rfl)⟩
  | pos =>
    obtain ⟨m₁, hpush, hexec⟩ := Option.bind_eq_some_iff.1 hexec
    cases hexec
    exact h.pushMark hroot hpush rfl rfl (.inr rfl)
  | back s =>
    cases hexec
    have htop : m.top.toNat = s.current := h.top_eq rfl rfl
    have hle := h.ordered.pop_le rfl
    exact h.popMark hroot rfl rfl rfl rfl rfl ⟨htop.ge, hle.logs, hle.table⟩
  | sDef tagId s =>
    cases hexec
    have hle := h.ordered.pop_le rfl
    exact h.popMark hroot rfl rfl rfl rfl rfl
      ⟨hle.current, hle.logs, hle.table.trans (List.prefix_append _ _)⟩
  | sIs tagId s =>
    simp only [exec] at hexec
    split at hexec
    · split_ifs at hexec
      · cases hexec
        exact h.popMark hroot rfl rfl rfl rfl rfl (h.ordered.pop_le rfl)
      · cases hexec
    · cases hexec
  | sIsa tagId s =>
    simp only [exec] at hexec
    split_ifs at hexec
    · cases hexec
      exact h.popMark hroot rfl rfl rfl rfl rfl (h.ordered.pop_le rfl)
    · cases hexec
  | tStart =>
    obtain ⟨m₁, hpush, hexec⟩ := Option.bind_eq_some_iff.1 hexec
    cases hexec
    exact h.pushMark hroot hpush rfl rfl (.inr rfl)
  | tCommit tagId s =>
    obtain ⟨ast, hcommit, hexec⟩ := Option.bind_eq_some_iff.1 hexec
    cases hexec
    have htop : m.top.toNat = s.logs.length := h.top_eq rfl rfl
    have hle := h.ordered.pop_le rfl
    obtain ⟨-, n, hlogs⟩ := astCommitTx_logs hcommit
    have htake : m.ast.logs.take m.top.toNat = s.logs := by
      rw [htop]
      exact (List.prefix_iff_eq_take.1 hle.logs).symm
    refine h.popMark hroot rfl rfl rfl rfl rfl ⟨hle.current, ?_, hle.table⟩
    show s.logs <+: ast.logs
    rw [hlogs, htake]
    exact List.prefix_append _ _
  | sOpen =>
    obtain ⟨m₁, hpush, hexec⟩ := Option.bind_eq_some_iff.1 hexec
    cases hexec
    exact h.pushMark hroot hpush rfl rfl (.inr rfl)
  | sMask tagId =>
    obtain ⟨m₁, hpush, hexec⟩ := Option.bind_eq_some_iff.1 hexec
    cases hexec
    obtain ⟨hholds, hordered, -⟩ := h.pushMark hroot hpush
      (rfl : (Item.scope m.snap).cell = _) rfl (.inr rfl)
    exact ⟨hholds, hordered.grow ⟨le_rfl, List.prefix_rfl, List.prefix_append _ _⟩,
      .inl (hroot.mark rfl)⟩
  | sClose s =>
    obtain ⟨tbl, hroll, hexec⟩ := Option.bind_eq_some_iff.1 hexec
    cases hexec
    have htop : m.top.toNat = s.table.length := h.top_eq rfl rfl
    have hle := h.ordered.pop_le rfl
    refine h.popMark hroot rfl rfl rfl rfl rfl ⟨hle.current, hle.logs, ?_⟩
    unfold symtableRollback at hroll
    split_ifs at hroll
    cases hroll
    show s.table <+: m.tbl.table.take m.top.toNat
    have htake : m.tbl.table.take s.table.length = s.table :=
      (List.prefix_iff_eq_take.1 hle.table).symm
    rw [htop, htake]
  | plain hplain =>
    obtain ⟨hstack, hle⟩ := exec_plain hexec hplain hconsume
    refine ⟨?_, h.ordered.grow hle, .inl hroot⟩
    rw [hstack.sp, hstack.fp, hstack.stack]
    exact h.holds

theorem parseInit_stacked {current head : ℕ} {stack : ℕ → ℤ} {ast : AstMachine} {tbl : Symtable}
    {memo : Memo} {m₀ : Machine} (h : parseInit P current head stack ast tbl memo = some m₀) :
    Stacked P [.ret P.stub, .choice (.init P m₀)] m₀ := by
  simp only [parseInit] at h
  obtain ⟨m₁, hframe, hpush⟩ := Option.bind_eq_some_iff.1 h
  obtain ⟨hsp, hfp, -, hsnap, hcells, -⟩ := Machine.pushChoice_spec hframe true
  have hroot : Rooted P [.choice (.init P m₀)] := .init rfl rfl
  have hsnap₀ : m₀.snap = m₁.snap := (Machine.push_spec hpush).2.2.2.1
  have hstacked : Stacked P [.choice (.init P m₀)] m₁ := by
    rw [← hsnap, ← hsnap₀] at hcells
    refine ⟨?_, ?_, .inl hroot⟩
    · rw [hsp, hfp]
      exact @Holds.choice m₁.stack [] (.init P m₀) .nil hcells
    · rw [← hsnap₀]
      exact Ordered.push (List.pairwise_singleton _ _) rfl
  exact hstacked.pushMark hroot hpush rfl rfl (.inl rfl)

/-- At an instruction that is not one of the stub there is a frame. -/
theorem Stacked.exists_rooted (h : Stacked P items m) {stop : ℤ} {o : Outcome}
    (hfetch : P.fetch m.pc = some (inst, stop))
    (hexec : exec R { m with pc := stop } inst = some o) (ho : ∀ status cur, o ≠ .exit status cur) :
    Rooted P items := by
  rcases h.rooted with hroot | ⟨-, hpc⟩
  · exact hroot
  · rw [hpc, P.fetch_stub_fail] at hfetch
    cases hfetch
    cases hexec
    exact absurd rfl (ho 1 _)

theorem Run.stacked {m₀ : Machine} (hstart : Stacked P [.ret P.stub, .choice (.init P m₀)] m₀)
    (h : Run Item.isRet P R m₀ items m) : Stacked P items m := by
  induction h with
  | start => exact hstart
  | @next items items' m m' inst stop _ hfetch hexec hnests hconsume ih =>
    have hroot := ih.exists_rooted hfetch hexec (by simp)
    have hm : Stacked P items { m with pc := stop } := ⟨ih.holds, ih.ordered, .inl hroot⟩
    exact hm.advance hroot hexec hnests hconsume
  | @fail marks items c m m₁ m' inst stop _ hmarks hfetch hexec hfail ih =>
    have hroot := ih.exists_rooted hfetch hexec (by simp)
    have hm : Stacked P (marks ++ .choice c :: items) { m with pc := stop } :=
      ⟨ih.holds, ih.ordered, .inl hroot⟩
    exact hm.fail hmarks (exec_failed hexec) hfail

/-- What a failure does, when `c` is the top frame. -/
structure Restores (P : Program) (R : Runtime) (c : Choice) (m' : Machine) : Prop where
  snap : m'.snap = c.snap
  sp : m'.sp = c.base
  fp : m'.fp = c.fp
  pc : m'.pc = c.target
  exit : c.initial → step P R m' = some (.exit 1 m'.current)

/-- A failure in a nested run goes back to the top frame, and it is defined as long as the counts
of the nodes are right. -/
theorem fail_restores {current head : ℕ} {stack : ℕ → ℤ} {ast : AstMachine} {tbl : Symtable}
    {memo : Memo} {m₀ : Machine} (hstart : parseInit P current head stack ast tbl memo = some m₀)
    (h : Run Item.isRet P R m₀ items m) {stop : ℤ} (hfetch : P.fetch m.pc = some (inst, stop))
    (hexec : exec R { m with pc := stop } inst = some (.failed m₁)) :
    ∃ marks c rest, items = marks ++ .choice c :: rest ∧ (∀ x ∈ marks, x.isMark) ∧
      (∀ m', failImpl m₁ = some m' → Restores P R c m') ∧
      ∀ live ext, m₁.ast.Owned live ext → ∃ m', failImpl m₁ = some m' := by
  have hstacked := h.stacked (parseInit_stacked hstart)
  have hroot := hstacked.exists_rooted hfetch hexec (by simp)
  obtain ⟨marks, c, rest, rfl, hmarks⟩ := hroot.exists_frame
  have hm : Stacked P (marks ++ .choice c :: rest) { m with pc := stop } :=
    ⟨hstacked.holds, hstacked.ordered, .inl hroot⟩
  have hfails := exec_failed hexec
  refine ⟨marks, c, rest, rfl, hmarks, fun m' hfail => ?_, fun live ext howned => ?_⟩
  · obtain ⟨hsnap, hsp, hfp, hpc, -⟩ := hm.failImpl hmarks hfails hfail
    refine ⟨hsnap, hsp, hfp, hpc, fun hinitial => ?_⟩
    have htarget : c.target = P.stub + 2 := by
      rcases hroot.unwind hmarks with ⟨-, htarget, -⟩ | ⟨hc, -⟩
      · exact htarget
      · simp [hinitial] at hc
    unfold step
    rw [hpc, htarget, P.fetch_stub_fail]
    rfl
  · exact hm.failImpl_isSome hmarks hfails howned

end Steps

/-- `Alt L; TStart; TNew 0; Any; Skip; TCommit 7; Fail; L: Exit 0`. -/
def skipProgram : Program where
  code := [2, 9, 0, 0, 0, 38, 34, 0, 11, 9, 39, 7, 0, 1, 54, 0]
  base := 4096
  stub := 8192
  disjoint := by decide

/-- `Skip` saves a log of one entry; the commit replaces it, so the failure does not bring it
back. -/
theorem skip_not_restored : ∃ m₀ marks c rest m m₁ m' stop,
    parseInit skipProgram 0 0 (fun _ => 0) {} {} {} = some m₀ ∧
    Run (fun _ => true) skipProgram { input := [97] } m₀ (marks ++ .choice c :: rest) m ∧
    (∀ x ∈ marks, x.isMark) ∧ skipProgram.fetch m.pc = some (.fail, stop) ∧
    exec { input := [97] } { m with pc := stop } .fail = some (.failed m₁) ∧
    failImpl m₁ = some m' ∧ m'.ast.logs ≠ c.snap.logs := by
  have halt : skipProgram.fetch 4096 = some (.alt 9, 4101) := by decide +kernel
  have htStart : skipProgram.fetch 4101 = some (.tStart, 4102) := by decide +kernel
  have htNew : skipProgram.fetch 4102 = some (.tNew 0, 4104) := by decide +kernel
  have hany : skipProgram.fetch 4104 = some (.any, 4105) := by decide +kernel
  have hskip : skipProgram.fetch 4105 = some (.skip, 4106) := by decide +kernel
  have htCommit : skipProgram.fetch 4106 = some (.tCommit 7, 4109) := by decide +kernel
  have hfail : skipProgram.fetch 4109 = some (.fail, 4110) := by decide +kernel
  refine ⟨_, [], _, _, _, _, _, 4110, rfl, .next (.next (.next (.next (.next (.next .start
    halt rfl (.alt _ _) (by simp)) htStart rfl (.tStart _) (by simp)) htNew rfl (.plain rfl _)
    (by simp)) hany rfl (.plain rfl _) (by simp)) hskip rfl (@Nests.skip _ _ [.tx _] ?_ _ _)
    (by simp)) htCommit rfl (.tCommit _ _ _) (by simp), by simp, hfail, rfl, rfl, by decide⟩
  simp [Item.isMark]

/-- On the empty input `Any` fails below the savepoint, and the entry of `TNew` is gone. -/
theorem any_restores : ∃ m₀ items m m₁,
    parseInit skipProgram 0 0 (fun _ => 0) {} {} {} = some m₀ ∧
    Run Item.isRet skipProgram { input := [] } m₀ items m ∧ m.ast.logs ≠ [] ∧
    skipProgram.fetch m.pc = some (.any, 4105) ∧
    exec { input := [] } { m with pc := 4105 } .any = some (.failed m₁) ∧
    ∃ marks c rest, items = marks ++ .choice c :: rest ∧ (∀ x ∈ marks, x.isMark) ∧
      (∀ m', failImpl m₁ = some m' → Restores skipProgram { input := [] } c m') ∧
      ∀ live ext, m₁.ast.Owned live ext → ∃ m', failImpl m₁ = some m' := by
  have halt : skipProgram.fetch 4096 = some (.alt 9, 4101) := by decide +kernel
  have htStart : skipProgram.fetch 4101 = some (.tStart, 4102) := by decide +kernel
  have htNew : skipProgram.fetch 4102 = some (.tNew 0, 4104) := by decide +kernel
  have hany : skipProgram.fetch 4104 = some (.any, 4105) := by decide +kernel
  obtain ⟨m₀, items, m, m₁, hstart, hrun, hlogs, hfetch, hexec⟩ : ∃ m₀ items m m₁,
      parseInit skipProgram 0 0 (fun _ => 0) {} {} {} = some m₀ ∧
      Run Item.isRet skipProgram { input := [] } m₀ items m ∧ m.ast.logs ≠ [] ∧
      skipProgram.fetch m.pc = some (.any, 4105) ∧
      exec { input := [] } { m with pc := 4105 } .any = some (.failed m₁) :=
    ⟨_, _, _, _, rfl, .next (.next (.next .start halt rfl (.alt _ _) (by simp)) htStart rfl
      (.tStart _) (by simp)) htNew rfl (.plain rfl _) (by simp), by decide, hany, rfl⟩
  exact ⟨m₀, items, m, m₁, hstart, hrun, hlogs, hfetch, hexec,
    fail_restores hstart hrun hfetch hexec⟩

end Moz.Vm1
