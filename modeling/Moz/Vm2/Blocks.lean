import Moz.Compiler.GraphRuns
import Moz.Compiler.Overflow
import Moz.Lib.Simulation
import Moz.Vm2.Format
import Moz.Vm2.StackUse

/-!
# The code of a module runs its blocks

VM2 on the linked bytes follows the machine on the blocks step by step: `PC` is the
address of what is left of the block, and on the stack lie the cells and the frames
of the calls. The outermost call comes to one of the two `IExit`s. A call that
fails is the one thing that is not followed, because its frame holds the distance
to the handler and not its address.
-/

namespace Moz.Vm2

open FrameStack LittleEndian Compiler
open Relation (ReflTransGen)

/-- A module whose blocks are closed and whose bytes are read as they were meant. -/
structure LinkedModule (C : MozCompiler) (P : Program) : Prop where
  code : mozVm2ModuleCompile C = some P.code
  linked : Compiler.Linked C
  closed : ∀ b ∈ C.blocks, Closed (C.insts b)
  unshifted : ∀ x ∈ C.layout, shiftOf x.op = 0

/-- The address of the `n`-th instruction. -/
def Program.address (P : Program) (C : MozCompiler) (n : ℕ) : ℤ := P.base + offsetOf C.layout n

/-- The code `l` stands at the `n`-th instruction. -/
structure StandsAt (C : MozCompiler) (n : ℕ) (l : List Ir) : Prop where
  closed : Closed l
  standing : l <+: C.layout.drop n

def cellItems (cells : List ℕ) : List (StackItem ℤ) := cells.map fun cell => .cell cell

/-- The frames of the calls as they lie on the stack. The last slot of a frame is the distance from
the end of the `IInvoke` to the handler. -/
inductive FramesLie (C : MozCompiler) (P : Program) :
    List Compiler.Frame → List (StackItem ℤ) → Prop
  | outermost : FramesLie C P [] [.frame [0, P.stub, P.stub + 2]]
  | call {frame : Compiler.Frame} {frames : List Compiler.Frame} {items : List (StackItem ℤ)}
      {n k : ℕ} (hrest : FramesLie C P frames items) (hnext : StandsAt C n frame.next)
      (hfail : StandsAt C k (C.insts frame.fail))
      (hsp : frame.sp = stackBase + used (cellItems frame.cells ++ items)) :
      FramesLie C P (frame :: frames) (.frame [(frame.pos : ℤ), P.address C n,
        P.address C k - P.address C n] :: (cellItems frame.cells ++ items))

structure Alike (C : MozCompiler) (P : Program) (s : State) (m : Machine) : Prop where
  code : ∃ n, StandsAt C n s.code ∧ m.pc = P.address C n
  current : m.current = s.current
  ast : m.ast = s.ast
  sp : m.sp = s.sp
  frames : ∃ items, FramesLie C P s.frames items ∧ StackOk (cellItems s.cells ++ items) m

section Addresses

variable {C : MozCompiler} {P : Program} {n : ℕ} {l : List Ir} {x : Ir} {bb : BlockId}

theorem closed_tail (h : Closed (x :: l)) (hx : x.op.isTerminator = false) : Closed l := by
  obtain ⟨body, t, heq, hterm, hbody⟩ := h
  cases body with
  | nil =>
    obtain ⟨rfl, -⟩ := List.cons.inj heq
    rw [hx] at hterm
    cases hterm
  | cons y body =>
    obtain ⟨rfl, rfl⟩ := List.cons.inj heq
    exact ⟨body, t, rfl, hterm, fun z hz => hbody z (List.mem_cons_of_mem _ hz)⟩

theorem StandsAt.head (h : StandsAt C n (x :: l)) : C.layout[n]? = some x := by
  obtain ⟨rest, hrest⟩ := h.standing
  have hget : (C.layout.drop n)[0]? = some x := by
    rw [← hrest]
    rfl
  rwa [List.getElem?_drop, Nat.add_zero] at hget

theorem StandsAt.tail (h : StandsAt C n (x :: l)) (hx : x.op.isTerminator = false) :
    StandsAt C (n + 1) l := by
  refine ⟨closed_tail h.closed hx, ?_⟩
  obtain ⟨rest, hrest⟩ := h.standing
  refine ⟨rest, ?_⟩
  rw [← List.drop_drop, ← hrest]
  rfl

theorem standsAt_of_blockAddress (hclosed : ∀ b ∈ C.blocks, Closed (C.insts b)) {a : ℕ}
    (h : blockAddress C bb = some a) : ∃ n, a = offsetOf C.layout n ∧ StandsAt C n (C.insts bb) := by
  unfold blockAddress at h
  split_ifs at h with hc
  have hlt := List.idxOf_lt_length_iff.2 hc.1
  refine ⟨_, (Option.some.inj h).symm, hclosed bb hc.1, ?_⟩
  have hblocks : C.blocks = C.blocks.take (C.blocks.idxOf bb) ++
      bb :: C.blocks.drop (C.blocks.idxOf bb + 1) := by
    conv_lhs => rw [← List.take_append_drop (C.blocks.idxOf bb) C.blocks,
      List.drop_eq_getElem_cons hlt, List.getElem_idxOf]
  have hlayout : C.layout = (C.blocks.take (C.blocks.idxOf bb)).flatMap (fun b => (C.mem b).insts) ++
      (C.insts bb ++ (C.blocks.drop (C.blocks.idxOf bb + 1)).flatMap fun b => (C.mem b).insts) := by
    conv_lhs => rw [MozCompiler.layout, hblocks, List.flatMap_append, List.flatMap_cons]
    rfl
  conv => rhs; rw [hlayout]
  rw [List.drop_left]
  exact List.prefix_append _ _

theorem standsAt_first (hclosed : ∀ b ∈ C.blocks, Closed (C.insts b))
    (h : C.blocks.head? = some bb) : StandsAt C 0 (C.insts bb) := by
  obtain ⟨blocks, hblocks⟩ : ∃ blocks, C.blocks = bb :: blocks := List.head?_eq_some_iff.1 h
  refine ⟨hclosed bb (hblocks ▸ List.mem_cons_self), ?_⟩
  rw [MozCompiler.layout, hblocks, List.flatMap_cons, List.drop_zero]
  exact List.prefix_append _ _

theorem LinkedModule.fetch (h : LinkedModule C P) (hn : C.layout[n]? = some x) :
    P.fetch (P.address C n) = some (inst x.op fun k =>
      readInt32 P.code (offsetOf C.layout n + 1 + 4 * k), P.address C (n + 1)) := by
  obtain ⟨W, hW, hcode⟩ := mozVm2ModuleCompile_eq_some_iff.1 h.code
  have hplace := ((encoded_of_foldlM hW).writer ▸ inPlace_bytes C.layout : InPlace C.layout W.writer)
  have hlinked := hplace.mozlinkerResolve hW
  rw [hcode] at hlinked
  have hdecode := decode_inst (hlinked.opcode n x hn) (hlinked.constants n x hn)
  have hsize := offsetOf_succ hn
  have hpos := one_le_size x.op
  have hle : offsetOf C.layout (n + 1) ≤ offsetOf C.layout C.layout.length := offsetOf_le _ _
  have hlength := hlinked.length
  rw [Program.fetch, if_pos (by unfold Program.address; omega)]
  have hoff : (P.address C n - P.base).toNat = offsetOf C.layout n := by
    unfold Program.address
    omega
  rw [hoff, hdecode, Option.map_some, (unshifted_eq_iff x.op _).2
    (h.unshifted x (List.mem_of_getElem? hn)), ← hsize]
  rfl

theorem LinkedModule.label (h : LinkedModule C P) (hn : C.layout[n]? = some x) {k : ℕ}
    (hk : (labelTargets C x)[k]? = some (some bb)) : ∃ i, StandsAt C i (C.insts bb) ∧
      P.address C (n + 1) + readInt32 P.code (offsetOf C.layout n + 1 + 4 * k) = P.address C i := by
  obtain ⟨code, hcode, hlabels⟩ := h.linked
  obtain rfl := Option.some.inj (hcode.symm.trans h.code)
  obtain ⟨bb', a, hbb, ha, hoff⟩ := hlabels n x hn k _ hk
  obtain rfl := Option.some.inj hbb
  obtain ⟨i, rfl, hi⟩ := standsAt_of_blockAddress h.closed ha
  refine ⟨i, hi, ?_⟩
  unfold Program.address
  omega

end Addresses

section Instructions

variable {C : MozCompiler} {P : Program} {R : Runtime} {m : Machine} {s s' : State} {n : ℕ}
  {l : List Ir} {x : Ir} {op : Op} {labels : ℕ → ℤ}

theorem moved_eq_next {o : Option ℕ} {q : ℕ} (h : moved o = .next q) : o = some q := by
  cases o with
  | none => cases h
  | some current =>
    cases h
    rfl

theorem moved_ne_fail (o : Option ℕ) : moved o ≠ .fail := by
  intro h
  cases o with
  | none => cases h
  | some current => cases h

theorem exec_inst_next {q : ℕ} (h : op.effect R m.current = .next q) :
    exec R m (inst op labels) = some (.next { m with current := q }) := by
  cases op with
  | iLabel | iJump | iInvoke | iPLoad | iPStore | iRet | iFail | iTPush | iTPop | iTNew
  | iTCapture | iTTag => cases h
  | iRAny | iRByte | iRStr | iRSet | iOByte | iOStr | iOSet =>
    show m.move _ = _
    rw [moved_eq_next h]
    rfl
  | _ => exact congrArg (m.effect (labels 0)) h

theorem exec_inst_fail (h : op.effect R m.current = .fail) :
    exec R m (inst op labels) = some (.next (m.jump (labels 0))) := by
  cases op with
  | iLabel | iJump | iInvoke | iPLoad | iPStore | iRet | iFail | iTPush | iTPop | iTNew
  | iTCapture | iTTag => cases h
  | iRAny | iRByte | iRStr | iRSet | iOByte | iOStr | iOSet =>
    exact absurd h (moved_ne_fail _)
  | _ => exact congrArg (m.effect (labels 0)) h

/-- An instruction that can fail has its handler as the first label. -/
theorem fail_label {p : ℕ} (h : x.op.effect R p = .fail) :
    (labelTargets C x)[0]? = some (some x.fail) := by
  unfold labelTargets
  cases hop : x.op with
  | iLabel | iJump | iInvoke | iPLoad | iPStore | iRet | iFail | iTPush | iTPop | iTNew
  | iTCapture | iTTag =>
    rw [hop] at h
    cases h
  | iRAny | iRByte | iRStr | iRSet | iOByte | iOStr | iOSet =>
    rw [hop] at h
    exact absurd h (moved_ne_fail _)
  | _ => rfl

theorem exec_inst_log {log : AstLog} (h : op.entry R m.current = some log) :
    exec R m (inst op labels) = some (.next { m with ast := astLog m.ast log }) := by
  cases op with
  | iTPush | iTPop | iTNew | iTCapture =>
    cases h
    rfl
  | iTTag tagId =>
    obtain ⟨tag, htag, rfl⟩ := Option.map_eq_some_iff.1 h
    show (do
      let tag ← R.tags[tagId.toNat]?
      m.log (astLogTag m.ast (some tag))) = _
    rw [htag]
    rfl
  | _ => cases h

/-- What VM2 does with the instruction that comes next in the block. -/
theorem LinkedModule.step (hC : LinkedModule C P) (hn : C.layout[n]? = some x)
    (hpc : m.pc = P.address C n) {o : Outcome}
    (h : exec R { m with pc := P.address C (n + 1) } (inst x.op fun k =>
      readInt32 P.code (offsetOf C.layout n + 1 + 4 * k)) = some o) :
    step P R m = some o := by
  rw [Vm2.step, hpc, hC.fetch hn]
  exact h

end Instructions

section Frames

variable {m : Machine} {cells : List ℕ} {items : List (StackItem ℤ)} {sp fp : ℕ}
  {stack : ℕ → ℤ}

theorem dropFrame_cellItems (cells : List ℕ) (slots : List ℤ) (items : List (StackItem ℤ)) :
    dropFrame (cellItems cells ++ .frame slots :: items) = some items := by
  induction cells with
  | nil => rfl
  | cons cell cells ih => exact ih

theorem lies_below (h : Lies (fun i : ℕ => (i : ℤ)) stack stackBase sp fp (cellItems cells ++ items)) :
    ∃ sp', Lies (fun i : ℕ => (i : ℤ)) stack stackBase sp' fp items := by
  induction cells generalizing sp with
  | nil => exact ⟨sp, h⟩
  | cons cell cells ih => exact ih h.top.2

/-- What a return finds in the top frame, and what it leaves. -/
theorem popFrame_spec {pos next fail : ℤ}
    (h : StackOk (cellItems cells ++ .frame [pos, next, fail] :: items) m) :
    m.framePos = pos ∧ m.frameNext = next ∧ m.frameFail = fail ∧ StackOk items m.popFrame := by
  obtain ⟨sp', hbelow⟩ := lies_below h
  obtain ⟨prev, -, hold, -⟩ := hbelow.topFrame
  refine ⟨hold.slots 0 _ rfl, hold.slots 1 _ rfl, hold.slots 2 _ rfl, ?_⟩
  exact h.drop Int.toNat_natCast (dropFrame_cellItems cells _ items)

end Frames

/-- The run is not at the `IFail` of a call. -/
def NotFailing (s : State) : Prop := ∀ x l, s.code = x :: l → x.op ≠ .iFail

section Runs

variable {C : MozCompiler} {P : Program} {R : Runtime} {m : Machine} {s s' : State} {op : Op}
  {x : Ir} {l : List Ir}

theorem isTerminator_of_effect {p : ℕ} (h : op.effect R p ≠ .stuck) : op.isTerminator = false := by
  cases op with
  | iJump | iRet | iFail => exact absurd rfl h
  | _ => rfl

theorem isTerminator_of_entry {p : ℕ} {log : AstLog} (h : op.entry R p = some log) :
    op.isTerminator = false := by
  cases op with
  | iJump | iRet | iFail => cases h
  | _ => rfl

/-- An `IInvoke` pushes the frame that the blocks remember. -/
theorem Alike.invoke (hC : LinkedModule C P) (h : Alike C P s m) {d : ℕ} (hcode : s.code = x :: l)
    (hop : x.op = .iInvoke d) (hexec : Compiler.exec C R { s with code := l } x = some s') :
    ∃ m', Vm2.step P R m = some (.next m') ∧ Alike C P s' m' := by
  obtain ⟨⟨n, hn, hpc⟩, hcurrent, hast, hsp, items, hframes, hstack⟩ := h
  rw [hcode] at hn
  have hget := hn.head
  unfold Compiler.exec at hexec
  rw [hop] at hexec
  dsimp only at hexec
  obtain ⟨decl, hdecl, hexec⟩ := Option.bind_eq_some_iff.1 hexec
  obtain ⟨entry, hentry, hexec⟩ := Option.bind_eq_some_iff.1 hexec
  obtain ⟨_, hguard, hexec⟩ := Option.bind_eq_some_iff.1 hexec
  have hroom : s.sp + fpMax ≤ stackSize := by
    by_contra hover
    simp [guard, hover] at hguard
  cases hexec
  have hinst : declInst C d = some entry := by
    rw [declInst, hdecl]
    exact hentry
  have hlabels : labelTargets C x = [some x.fail, some entry] := by
    unfold labelTargets
    rw [hop, ← hinst]
  obtain ⟨k, hk, hfail⟩ := hC.label hget (k := 0) (by rw [hlabels]; rfl)
  obtain ⟨i, hi, haddr⟩ := hC.label hget (k := 1) (by rw [hlabels]; rfl)
  -- the slot for the handler gets the operand as it is
  obtain ⟨m₁, hpush⟩ : ∃ m₁, Machine.pushFrame { m with pc := P.address C (n + 1) } m.current
      (P.address C (n + 1)) (readInt32 P.code (offsetOf C.layout n + 1 + 4 * 0)) = some m₁ := by
    rw [Machine.pushFrame, if_pos (hsp ▸ hroom)]
    exact ⟨_, rfl⟩
  obtain ⟨hpc₁, -, hsp₁, hcurrent₁, -, -⟩ := Machine.pushFrame_cases hpush
  have hast₁ : m₁.ast = m.ast := by
    unfold Machine.pushFrame at hpush
    split_ifs at hpush
    cases hpush
    rfl
  have hexec : exec R { m with pc := P.address C (n + 1) } (inst x.op fun k =>
      readInt32 P.code (offsetOf C.layout n + 1 + 4 * k)) =
      some (.next (m₁.jump (readInt32 P.code (offsetOf C.layout n + 1 + 4 * 1)))) := by
    rw [hop]
    show (Machine.pushFrame _ _ _ _).bind _ = _
    rw [hpush]
    rfl
  have hdoes := exec_stackOp hexec
  rw [hop] at hdoes
  have hlies := hstack.does Int.toNat_natCast hdoes rfl
  have hdistance : readInt32 P.code (offsetOf C.layout n + 1 + 4 * 0) =
      P.address C k - P.address C (n + 1) := by
    rw [← hfail]
    ring
  refine ⟨_, hC.step hget hpc hexec, ⟨⟨i, hi, ?_⟩, hcurrent₁.trans hcurrent, hast₁.trans hast,
    hsp₁.trans (congrArg (· + fpMax) hsp), _,
    .call hframes (hn.tail (by rw [hop]; rfl)) hk (hsp.symm.trans hstack.sp_eq), ?_⟩⟩
  · exact (congrArg (· + readInt32 P.code (offsetOf C.layout n + 1 + 4 * 1)) hpc₁).trans haddr
  · rw [← hcurrent, ← hdistance]
    exact hlies

theorem Alike.store (hC : LinkedModule C P) (h : Alike C P s m) (hcode : s.code = x :: l)
    (hop : x.op = .iPStore) (hexec : Compiler.exec C R { s with code := l } x = some s') :
    ∃ m', Vm2.step P R m = some (.next m') ∧ Alike C P s' m' := by
  obtain ⟨⟨n, hn, hpc⟩, hcurrent, hast, hsp, items, hframes, hstack⟩ := h
  rw [hcode] at hn
  unfold Compiler.exec at hexec
  rw [hop] at hexec
  dsimp only at hexec
  obtain ⟨_, hguard, hexec⟩ := Option.bind_eq_some_iff.1 hexec
  have hroom : s.sp < stackSize := by
    by_contra hover
    simp [guard, hover] at hguard
  cases hexec
  have hexec : exec R { m with pc := P.address C (n + 1) } (inst x.op fun k =>
      readInt32 P.code (offsetOf C.layout n + 1 + 4 * k)) =
      some (.next { m with pc := P.address C (n + 1), sp := m.sp + 1,
                           stack := Function.update m.stack m.sp m.current }) := by
    rw [hop]
    show (Machine.push _ _).bind _ = _
    rw [Machine.push, if_pos (hsp ▸ hroom)]
    rfl
  have hdoes := exec_stackOp hexec
  rw [hop] at hdoes
  have hlies := hstack.does Int.toNat_natCast hdoes rfl
  refine ⟨_, hC.step hn.head hpc hexec, ⟨⟨_, hn.tail (by rw [hop]; rfl), rfl⟩, hcurrent, hast,
    congrArg (· + 1) hsp, items, hframes, ?_⟩⟩
  rw [← hcurrent]
  exact hlies

theorem Alike.load (hC : LinkedModule C P) (h : Alike C P s m) (hcode : s.code = x :: l)
    (hop : x.op = .iPLoad) (hexec : Compiler.exec C R { s with code := l } x = some s') :
    ∃ m', Vm2.step P R m = some (.next m') ∧ Alike C P s' m' := by
  obtain ⟨⟨n, hn, hpc⟩, hcurrent, hast, hsp, items, hframes, hstack⟩ := h
  rw [hcode] at hn
  unfold Compiler.exec at hexec
  rw [hop] at hexec
  dsimp only at hexec
  cases hcells : s.cells with
  | nil =>
    rw [hcells] at hexec
    cases hexec
  | cons cell cells =>
    rw [hcells] at hexec hstack
    cases hexec
    obtain ⟨htop, hbelow⟩ := hstack.top
    refine ⟨_, hC.step hn.head hpc (by rw [hop]; rfl), ?_⟩
    refine ⟨⟨_, hn.tail (by rw [hop]; rfl), rfl⟩, ?_, hast, congrArg (· - 1) hsp, items, hframes,
      hbelow⟩
    show (m.stack (m.sp - 1)).toNat = cell
    rw [htop]
    rfl

theorem Alike.leave (hC : LinkedModule C P) (h : Alike C P s m) (hcode : s.code = x :: l)
    (hop : x.op = .iRet) (hexec : Compiler.exec C R { s with code := l } x = some s') :
    ∃ m', Vm2.step P R m = some (.next m') ∧ Alike C P s' m' := by
  obtain ⟨⟨n, hn, hpc⟩, hcurrent, hast, hsp, items, hframes, hstack⟩ := h
  rw [hcode] at hn
  unfold Compiler.exec at hexec
  rw [hop] at hexec
  dsimp only at hexec
  cases hcalls : s.frames with
  | nil =>
    rw [hcalls] at hexec
    cases hexec
  | cons frame frames =>
    rw [hcalls] at hexec hframes
    cases hexec
    cases hframes with
    | call hrest hnext hfail hfp =>
      obtain ⟨-, hreturn, -, hbelow⟩ := popFrame_spec hstack
      have hexec : exec R { m with pc := P.address C (n + 1) } (inst x.op fun k =>
          readInt32 P.code (offsetOf C.layout n + 1 + 4 * k)) =
          some (.next { m.popFrame with pc := m.frameNext }) := by
        rw [hop]
        rfl
      exact ⟨_, hC.step hn.head hpc hexec, ⟨_, hnext, hreturn⟩, hcurrent, hast,
        hbelow.sp_eq.trans hfp.symm, _, hrest, hbelow⟩

theorem Alike.step (hC : LinkedModule C P) (h : Alike C P s m)
    (hstep : s' ∈ Compiler.step C R s) (hok : NotFailing s) :
    ∃ m', Vm2.step P R m = some (.next m') ∧ Alike C P s' m' := by
  have halike := h
  obtain ⟨⟨n, hn, hpc⟩, hcurrent, hast, hsp, items, hframes, hstack⟩ := h
  cases hcode : s.code with
  | nil =>
    rw [Option.mem_def, Compiler.step, hcode] at hstep
    cases hstep
  | cons x l =>
    rw [hcode] at hn
    have hget := hn.head
    rw [Option.mem_def, Compiler.step_eq hcode] at hstep
    cases heffect : x.op.effect R s.current with
    | next q =>
      obtain rfl := Option.some.inj (hstep.symm.trans (Compiler.exec_next heffect))
      have hnot := isTerminator_of_effect (R := R) (p := s.current) (by rw [heffect]; simp)
      rw [← hcurrent] at heffect
      refine ⟨_, hC.step hget hpc (exec_inst_next heffect), ?_⟩
      exact ⟨⟨_, hn.tail hnot, rfl⟩, rfl, hast, hsp, items, hframes, hstack⟩
    | fail =>
      obtain rfl := Option.some.inj (hstep.symm.trans (Compiler.exec_fail heffect))
      obtain ⟨i, hi, haddr⟩ := hC.label hget (fail_label heffect)
      rw [← hcurrent] at heffect
      refine ⟨_, hC.step hget hpc (exec_inst_fail heffect), ?_⟩
      exact ⟨⟨i, hi, haddr⟩, hcurrent, hast, hsp, items, hframes, hstack⟩
    | stuck =>
      cases hentry : x.op.entry R s.current with
      | some log =>
        obtain rfl := Option.some.inj (hstep.symm.trans (Compiler.exec_log hentry))
        have hnot := isTerminator_of_entry hentry
        rw [← hcurrent] at hentry
        refine ⟨_, hC.step hget hpc (exec_inst_log hentry), ?_⟩
        refine ⟨⟨_, hn.tail hnot, rfl⟩, hcurrent, ?_, hsp, items, hframes, hstack⟩
        exact congrArg (astLog · log) hast
      | none =>
        cases hop : x.op with
        | iInvoke d => exact halike.invoke hC hcode hop hstep
        | iPLoad => exact halike.load hC hcode hop hstep
        | iPStore => exact halike.store hC hcode hop hstep
        | iRet => exact halike.leave hC hcode hop hstep
        | iFail => exact absurd hop (hok x l hcode)
        | iLabel =>
          unfold Compiler.exec at hstep
          rw [hop] at hstep
          cases hstep
          refine ⟨_, hC.step hget hpc (by rw [hop]; rfl), ?_⟩
          exact ⟨⟨_, hn.tail (by rw [hop]; rfl), rfl⟩, hcurrent, hast, hsp, items, hframes, hstack⟩
        | iJump target =>
          unfold Compiler.exec at hstep
          rw [hop] at hstep
          cases hstep
          have hlabel : (labelTargets C x)[0]? = some (some target) := by
            unfold labelTargets
            rw [hop]
            rfl
          obtain ⟨i, hi, haddr⟩ := hC.label hget hlabel
          refine ⟨_, hC.step hget hpc (by rw [hop]; rfl), ?_⟩
          exact ⟨⟨i, hi, haddr⟩, hcurrent, hast, hsp, items, hframes, hstack⟩
        | iTPush | iTPop | iTNew | iTCapture | iTTag =>
          unfold Compiler.exec at hstep
          rw [hop] at hstep hentry
          dsimp only at hstep
          rw [hentry] at hstep
          cases hstep
        | _ =>
          unfold Compiler.exec at hstep
          rw [hop] at hstep heffect
          dsimp only at hstep
          rw [heffect] at hstep
          cases hstep

/-- At the return of the outermost call VM2 goes to the `IExit` for it. -/
theorem Alike.exit (hC : LinkedModule C P) (h : Alike C P s m) {matched : Bool}
    (hresult : s.result = some matched) : ∃ m', Vm2.step P R m = some (.next m') ∧ m'.ast = s.ast ∧
      Vm2.step P R m' = some (if matched then .exit 0 s.current else .exit 1 0) := by
  obtain ⟨⟨n, hn, hpc⟩, hcurrent, hast, hsp, items, hframes, hstack⟩ := h
  unfold State.result at hresult
  split at hresult
  · rename_i x l hcode hnil
    rw [hcode] at hn
    rw [hnil] at hframes
    cases hframes with
    | outermost =>
      obtain ⟨hpos, hnext, hfail, -⟩ := popFrame_spec hstack
      split_ifs at hresult with hret hifail
      · cases hresult
        refine ⟨{ m.popFrame with pc := m.frameNext }, ?_, hast, ?_⟩
        · exact hC.step hn.head hpc (by rw [hret]; rfl)
        · rw [Vm2.step, hnext, P.fetch_stub.1, if_pos rfl, ← hcurrent]
          rfl
      · cases hresult
        refine ⟨{ m.popFrame.setPos m.framePos with pc := m.frameFail }, ?_, hast, ?_⟩
        · exact hC.step hn.head hpc (by rw [hifail]; rfl)
        · rw [Vm2.step, hfail, P.fetch_stub.2, hpos]
          rfl
  · cases hresult

theorem Alike.full (hC : LinkedModule C P) (h : Alike C P s m) (hfull : s.Full) :
    Vm2.step P R m = none ∧ stackSize < m.sp + fpMax := by
  obtain ⟨⟨n, hn, hpc⟩, -, -, hsp, -⟩ := h
  obtain ⟨x, l, hcode, hop⟩ := hfull
  rw [hcode] at hn
  rw [Vm2.step, hpc, hC.fetch hn.head]
  obtain ⟨hop, hover⟩ | ⟨⟨d, hop⟩, hover⟩ := hop
  · refine ⟨?_, by unfold fpMax; omega⟩
    rw [hop]
    show (Machine.push _ _).bind _ = _
    rw [Machine.push, if_neg (Nat.not_lt.2 (hsp ▸ hover))]
    rfl
  · refine ⟨?_, hsp ▸ hover⟩
    rw [hop]
    show (Machine.pushFrame _ _ _ _).bind _ = _
    rw [Machine.pushFrame, if_neg (Nat.not_le.2 (hsp ▸ hover))]
    rfl

/-- At the `IFail` of a call VM2 goes to the distance of the handler. -/
theorem Alike.escape (hC : LinkedModule C P) (h : Alike C P s m)
    {frame : Compiler.Frame} {frames : List Compiler.Frame} (hcode : s.code = x :: l)
    (hop : x.op = .iFail) (hcalls : s.frames = frame :: frames) :
    ∃ n k m', StandsAt C n frame.next ∧ StandsAt C k (C.insts frame.fail) ∧
      Vm2.step P R m = some (.next m') ∧ m'.current = frame.pos ∧
        m'.pc = P.address C k - P.address C n := by
  obtain ⟨⟨i, hi, hpc⟩, -, -, -, items, hframes, hstack⟩ := h
  rw [hcode] at hi
  rw [hcalls] at hframes
  cases hframes with
  | @call _ _ _ n k _ hnext hhandler _ =>
    obtain ⟨hpos, -, hfail, -⟩ := popFrame_spec hstack
    refine ⟨n, k, { m.popFrame.setPos m.framePos with pc := m.frameFail }, hnext, hhandler, ?_, ?_,
      hfail⟩
    · exact hC.step hi.head hpc (by rw [hop]; rfl)
    · show m.framePos.toNat = frame.pos
      rw [hpos]
      rfl

/-- VM2 starts where the call of the first production starts. -/
theorem Alike.start (hC : LinkedModule C P) {d : ℕ} (hentry : declInst C d = C.blocks.head?)
    {stack : ℕ → ℤ} {ast : AstMachine} {tbl : Symtable} {memo : Memo} {m₀ : Machine}
    (hstart : start P stack ast tbl memo = some m₀)
    (henter : enter C d (stackBase + fpMax) 0 ast = some s) : Alike C P s m₀ := by
  obtain ⟨decl, hdecl, henter⟩ := Option.bind_eq_some_iff.1 henter
  obtain ⟨entry, hinst, henter⟩ := Option.bind_eq_some_iff.1 henter
  cases henter
  have hfirst : C.blocks.head? = some entry := by
    rw [← hentry, declInst, hdecl]
    exact hinst
  have hstack := start_stackOk hstart
  obtain ⟨hpc, -, hsp, hcurrent, -⟩ := Machine.pushFrame_cases hstart
  have hast : m₀.ast = ast := by
    unfold Vm2.start Machine.pushFrame at hstart
    split_ifs at hstart
    cases hstart
    rfl
  refine ⟨⟨0, standsAt_first hC.closed hfirst, ?_⟩, hcurrent, hast, hsp, _, .outermost, hstack⟩
  rw [hpc, Program.address]
  simp [offsetOf]

end Runs

def Steps (P : Program) (R : Runtime) (m m' : Machine) : Prop := step P R m = some (.next m')

/-- As long as no call fails VM2 follows the blocks of a linked module, comes to the exit with the same
result, and stops at the same full stack. When a call does fail VM2 goes to where its handler would
be if the instruction after the `IInvoke` were at address 0. -/
theorem vm2_follows_blocks {C : MozCompiler} {P : Program} {R : Runtime} (hC : LinkedModule C P)
    {d : ℕ} (hentry : declInst C d = C.blocks.head?) {stack : ℕ → ℤ} {ast : AstMachine}
    {tbl : Symtable} {memo : Memo} {m₀ : Machine} (hstart : start P stack ast tbl memo = some m₀)
    {s s' : State} (henter : enter C d (stackBase + fpMax) 0 ast = some s)
    (hrun : Simulation.Run (fun t t' => t' ∈ Compiler.step C R t) NotFailing s s') :
    ∃ m, ReflTransGen (Steps P R) m₀ m ∧ m.current = s'.current ∧ m.ast = s'.ast ∧
      (∀ matched, s'.result = some matched → ∃ m', Steps P R m m' ∧ m'.ast = s'.ast ∧
        step P R m' = some (if matched then .exit 0 s'.current else .exit 1 0)) ∧
      (s'.Full → step P R m = none ∧ stackSize < m.sp + fpMax) ∧
      ∀ x l frame frames, s'.code = x :: l → x.op = .iFail → s'.frames = frame :: frames →
        ∃ n k m', StandsAt C n frame.next ∧ StandsAt C k (C.insts frame.fail) ∧ Steps P R m m' ∧
          m'.current = frame.pos ∧ m'.pc = P.address C k - P.address C n := by
  have hfollows : Simulation.Follows (fun t t' => t' ∈ Compiler.step C R t) (Steps P R) NotFailing
      (Alike C P) := by
    intro t t' m hok hstep halike
    obtain ⟨m', hm', halike'⟩ := halike.step hC hstep hok
    exact ⟨m', .single hm', halike'⟩
  obtain ⟨m, hm, halike⟩ := hfollows.run hrun (Alike.start hC hentry hstart henter)
  exact ⟨m, hm, halike.current, halike.ast, fun _ => halike.exit hC, halike.full hC,
    fun _ _ _ _ => halike.escape hC⟩

theorem linkedModule_of_nodup {C : MozCompiler} {P : Program}
    (hcode : mozVm2ModuleCompile C = some P.code) (hclosed : ∀ b ∈ C.blocks, Closed (C.insts b))
    (hshift : ∀ x ∈ C.layout, shiftOf x.op = 0) (hnodup : (C.layout.map (·.id)).Nodup)
    (hsize : offsetOf C.layout C.layout.length < 2 ^ 31)
    (hlabels : ∀ x ∈ C.layout, ∀ label ∈ labelTargets C x, (label.bind (blockAddress C)).isSome) :
    LinkedModule C P := by
  refine ⟨hcode, ?_, hclosed, hshift⟩
  rw [linked_iff_equalDrift]
  refine equalDrift_of_nodup hnodup hsize fun x hx label hlabel => ?_
  obtain ⟨a, ha⟩ := Option.isSome_iff_exists.1 (hlabels x hx label hlabel)
  obtain ⟨bb, hbb, ha⟩ := Option.bind_eq_some_iff.1 ha
  exact ⟨bb, a, hbb, ha⟩

/-- The code of `File = 'a'`, without the optimiser. -/
def oneByteProgram : Program where
  code := [10, 6, 0, 0, 0, 97, 2, 0, 0, 0, 0, 7, 8]
  base := 4
  stub := 0
  disjoint := by decide

theorem oneByte_linked : LinkedModule (mozAstToIr oneByte) oneByteProgram := by
  refine linkedModule_of_nodup (by decide +kernel) ?_ (by decide +kernel) (by decide +kernel)
    (by decide +kernel) (by decide +kernel)
  obtain ⟨E, hshaped, hentered⟩ := mozAstToIr_shaped (C := oneByte) (fun _ => rfl) rfl (by decide)
  exact (hshaped.intact hentered (mozAstToIr_wired (wired_start fun _ => rfl))).closed

def oneByteState (code : List Ir) (current : ℕ) : State where
  code := code
  current := current
  sp := stackBase + fpMax

/-- VM2 reads the byte. -/
theorem vm2_follows_blocks_oneByte :
    ∃ m₀ m m', start oneByteProgram (fun _ => 0) {} {} {} = some m₀ ∧
      ReflTransGen (Steps oneByteProgram (oneByte.runtime [97])) m₀ m ∧
      Steps oneByteProgram (oneByte.runtime [97]) m m' ∧
      step oneByteProgram (oneByte.runtime [97]) m' = some (.exit 0 1) := by
  have hhead : (mozAstToIr oneByte).insts 0 = [⟨0, 0, 0, 2, .iByte 97⟩, ⟨1, 1, 0, 2, .iJump 1⟩] := by
    decide +kernel
  have hnext : (mozAstToIr oneByte).insts 1 = [⟨2, 2, 1, 2, .iRet⟩] := by decide +kernel
  have hinst : declInst (mozAstToIr oneByte) 0 = some 0 := by decide +kernel
  have hblocks : (mozAstToIr oneByte).blocks.head? = some 0 := by decide +kernel
  have henter : enter (mozAstToIr oneByte) 0 (stackBase + fpMax) 0 {} =
      some (oneByteState [⟨0, 0, 0, 2, .iByte 97⟩, ⟨1, 1, 0, 2, .iJump 1⟩] 0) := by
    have hbind := hinst
    rw [declInst, Option.bind_eq_bind, Option.bind_eq_some_iff] at hbind
    obtain ⟨decl, hdecl, hentry⟩ := hbind
    rw [enter, hdecl, Option.bind_eq_bind, Option.bind_some, hentry, Option.bind_eq_bind,
      Option.bind_some, hhead]
    rfl
  obtain ⟨m₀, hstart⟩ : ∃ m₀, start oneByteProgram (fun _ => 0) {} {} {} = some m₀ := ⟨_, rfl⟩
  have hrun : Simulation.Run (fun t t' => t' ∈ Compiler.step (mozAstToIr oneByte)
      (oneByte.runtime [97]) t) NotFailing
      (oneByteState [⟨0, 0, 0, 2, .iByte 97⟩, ⟨1, 1, 0, 2, .iJump 1⟩] 0)
      (oneByteState ((mozAstToIr oneByte).insts 1) 1) := by
    have hfirst : oneByteState [⟨1, 1, 0, 2, .iJump 1⟩] 1 ∈ Compiler.step (mozAstToIr oneByte)
        (oneByte.runtime [97])
        (oneByteState [⟨0, 0, 0, 2, .iByte 97⟩, ⟨1, 1, 0, 2, .iJump 1⟩] 0) := rfl
    refine .tail (.tail .refl ?_ hfirst) ?_ rfl
    · intro x l hcode hop
      cases hcode
      cases hop
    · intro x l hcode hop
      cases hcode
      cases hop
  obtain ⟨m, hm, -, -, hexit, -⟩ := vm2_follows_blocks oneByte_linked (hinst.trans hblocks.symm)
    hstart henter hrun
  obtain ⟨m', hstep, -, hend⟩ := hexit true (by rw [hnext]; rfl)
  exact ⟨m₀, m, m', hstart, hm, hstep, hend⟩

end Moz.Vm2
