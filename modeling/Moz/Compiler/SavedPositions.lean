import Mathlib.Data.Int.Notation
import Mathlib.Logic.Function.Basic
import Moz.Compiler.Layout

/-!
# Saved positions

A path goes through the blocks of a production along jumps and along fail edges, over
the calls it makes. `IPStore` saves a position and `IPLoad` takes the last one back.
A stack that belongs to a block tells which positions are saved whenever a path comes
there; on a path that leaves none behind, if the edges of the blocks agree with it.
-/

namespace Moz.Compiler

open Relation (ReflTransGen)

/-- Where a path goes on after an instruction. -/
inductive Course
  | on (mayFail : Bool)
  | store
  | load
  | jump (target : BlockId)
  | leave
  deriving DecidableEq

def Op.course : Op → Course
  | .iJump target => .jump target
  | .iRet | .iFail => .leave
  | .iPStore => .store
  | .iPLoad => .load
  | .iInvoke _ | .iAny | .iByte _ | .iStr _ | .iSet _ | .iNAny | .iNByte _ | .iNStr _ | .iNSet _ =>
    .on true
  | .iLabel | .iRByte _ | .iRAny | .iRStr _ | .iRSet _ | .iOByte _ | .iOStr _ | .iOSet _ | .iTPush
  | .iTPop _ | .iTNew _ | .iTCapture _ | .iTTag _ => .on false

/-- A place on a path: the block, what is left of its code, the number of `IPStore` less that of
`IPLoad`, the positions that are saved, and how often the `IPStore` of each block was executed. A
saved position is named by the block of its `IPStore` and the number of that execution. -/
structure PathState where
  block : BlockId
  code : List Ir
  depth : ℤ := 0
  saved : List (BlockId × ℕ) := []
  stores : BlockId → ℕ := fun _ => 0

inductive PathStep (C : MozCompiler) : PathState → PathState → Prop
  | next {s : PathState} {x : Ir} {l : List Ir} {mayFail : Bool} (hcode : s.code = x :: l)
      (hop : x.op.course = .on mayFail) : PathStep C s { s with code := l }
  | fail {s : PathState} {x : Ir} {l : List Ir} (hcode : s.code = x :: l)
      (hop : x.op.course = .on true) :
      PathStep C s { s with block := x.fail, code := C.insts x.fail }
  | jump {s : PathState} {x : Ir} {l : List Ir} {target : BlockId} (hcode : s.code = x :: l)
      (hop : x.op.course = .jump target) :
      PathStep C s { s with block := target, code := C.insts target }
  | store {s : PathState} {x : Ir} {l : List Ir} (hcode : s.code = x :: l)
      (hop : x.op.course = .store) : PathStep C s { s with
        code := l
        depth := s.depth + 1
        saved := (s.block, s.stores s.block) :: s.saved
        stores := Function.update s.stores s.block (s.stores s.block + 1) }
  | load {s : PathState} {x : Ir} {l : List Ir} (hcode : s.code = x :: l)
      (hop : x.op.course = .load) : PathStep C s { s with
        code := l
        depth := s.depth - 1
        saved := s.saved.tail }

/-- The step along the fail edge, or along the other one. -/
def PathState.follow (C : MozCompiler) (s : PathState) (fails : Bool) : Option PathState :=
  match s.code with
  | [] => none
  | x :: l =>
    match x.op.course, fails with
    | .on _, false => some { s with code := l }
    | .on true, true => some { s with block := x.fail, code := C.insts x.fail }
    | .store, false => some { s with
        code := l
        depth := s.depth + 1
        saved := (s.block, s.stores s.block) :: s.saved
        stores := Function.update s.stores s.block (s.stores s.block + 1) }
    | .load, false => some { s with
        code := l
        depth := s.depth - 1
        saved := s.saved.tail }
    | .jump target, false => some { s with block := target, code := C.insts target }
    | _, _ => none

theorem PathState.follow_step {C : MozCompiler} {s t : PathState} {fails : Bool}
    (h : s.follow C fails = some t) : PathStep C s t := by
  unfold PathState.follow at h
  split at h
  · cases h
  · rename_i x l hcode
    split at h
    · cases h
      exact .next hcode ‹_›
    · cases h
      exact .fail hcode ‹_›
    · cases h
      exact .store hcode ‹_›
    · cases h
      exact .load hcode ‹_›
    · cases h
      exact .jump hcode ‹_›
    · cases h

def PathState.along (C : MozCompiler) (s : PathState) : List Bool → Option PathState
  | [] => some s
  | fails :: list => (s.follow C fails).bind fun t => t.along C list

theorem PathState.along_path {C : MozCompiler} {s t : PathState} {list : List Bool}
    (h : s.along C list = some t) : ReflTransGen (PathStep C) s t := by
  induction list generalizing s with
  | nil =>
    obtain rfl := Option.some.inj h
    exact .refl
  | cons fails list ih =>
    obtain ⟨s', hs', h⟩ := Option.bind_eq_some_iff.1 h
    exact .head (follow_step hs') (ih h)

/-- The jump from the block `b` goes out of the third block of a predicate whose position is saved,
or back to the block of its `IPStore`. `moz_And_to_ir` and `moz_Not_to_ir` create the block of the
`IPStore`, that of the `IPLoad` and the third one in a row. -/
def LeavesBehind (stack : List BlockId) (b target : BlockId) : Prop :=
  ∃ head ∈ stack, head + 2 = b ∨ head = target

/-- The next instruction is a jump that leaves a saved position behind. -/
def PathState.Drops (s : PathState) : Prop :=
  ∃ x l target, s.code = x :: l ∧ x.op.course = .jump target ∧
    LeavesBehind (s.saved.map Prod.fst) s.block target

def PathState.start (C : MozCompiler) (entry : BlockId) : PathState where
  block := entry
  code := C.insts entry

/-- A path from the entry block of a production. -/
def Path (C : MozCompiler) (entry : BlockId) : PathState → Prop :=
  ReflTransGen (PathStep C) (.start C entry)

/-- A path on which no jump leaves a saved position behind. -/
def TidyPath (C : MozCompiler) (entry : BlockId) : PathState → Prop :=
  ReflTransGen (fun s t => PathStep C s t ∧ ¬s.Drops) (.start C entry)

/-- On all paths to a block the same number of positions is saved, none where the production is
left, and each `IPLoad` takes the position back that the `IPStore` of its own `And` or `Not` has
saved last. -/
structure PositionsPaired (C : MozCompiler) (paths : PathState → Prop) : Prop where
  depth : ∀ s t, paths s → paths t → s.block = t.block → s.code = C.insts s.block →
    t.code = C.insts t.block → s.depth = t.depth
  ends : ∀ s, paths s → ∀ x l, s.code = x :: l → x.op.course = .leave → s.depth = 0
  own : ∀ s, paths s → ∀ x l, s.code = x :: l → x.op.course = .load →
    ∃ head n saved, s.saved = (head, n) :: saved ∧ head + 1 = s.block ∧ s.stores head = n + 1

/-- For the blocks of the productions, the blocks whose `IPStore` has saved a position when a path
comes there, the last one first. -/
abbrev StackMap := BlockId → Option (List BlockId)

/-- The code in the block `b` agrees with the stacks of the blocks it leads to. -/
def Flow (T : StackMap) (b : BlockId) : List BlockId → List Ir → Prop
  | _, [] => True
  | stack, x :: l =>
    match x.op.course with
    | .on mayFail => (mayFail = true → T x.fail = some stack) ∧ Flow T b stack l
    | .store => b ∉ stack ∧ Flow T b (b :: stack) l
    | .load => ∃ head rest, stack = head :: rest ∧ head + 1 = b ∧ Flow T b rest l
    | .jump target => (¬LeavesBehind stack b target → T target = some stack) ∧
      (LeavesBehind stack b target → ∃ head rest, stack = head :: rest ∧ T target = some rest)
    | .leave => stack = []

/-- The stack behind the code, if a path gets there. -/
def stackAfter (b : BlockId) : List BlockId → List Ir → Option (List BlockId)
  | stack, [] => some stack
  | stack, x :: l =>
    match x.op.course with
    | .on _ => stackAfter b stack l
    | .store => stackAfter b (b :: stack) l
    | .load => stackAfter b stack.tail l
    | .jump _ | .leave => none

structure Flows (C : MozCompiler) (T : StackMap) : Prop where
  code : ∀ b stack, T b = some stack → Flow T b stack (C.insts b)
  lt : ∀ b stack, T b = some stack → b < C.maxBlockId
  marks : ∀ b stack, T b = some stack → ∀ head ∈ stack, head < b ∧ head + 3 ≤ C.maxBlockId

section Paths

variable {C : MozCompiler} {T : StackMap} {entry : BlockId} {s t u : PathState}
  {stack : List BlockId} {x : Ir} {l : List Ir}

/-- The code that is left agrees with the stack `stack`. -/
structure At (C : MozCompiler) (T : StackMap) (stack : List BlockId) (s : PathState) : Prop where
  flow : Flow T s.block stack s.code
  start : s.code = C.insts s.block → T s.block = some stack
  suffix : s.code <:+ C.insts s.block

/-- Where the code of a block begins. -/
theorem At.enter (h : Flows C T) (hT : T t.block = some stack) (hcode : t.code = C.insts t.block) :
    At C T stack t where
  flow := hcode ▸ h.code t.block stack hT
  start _ := hT
  suffix := hcode ▸ List.suffix_rfl

/-- Behind the first instruction. -/
theorem At.advance (hs : At C T stack s) (hcode : s.code = x :: l) {stack' : List BlockId}
    (hflow : Flow T s.block stack' l) (hblock : t.block = s.block) (hl : t.code = l) :
    At C T stack' t := by
  have hsuffix := hs.suffix
  rw [hcode] at hsuffix
  refine ⟨by rwa [hblock, hl], fun heq => ?_, ?_⟩
  · have hlength := hsuffix.length_le
    rw [hblock, hl] at heq
    rw [← heq, List.length_cons] at hlength
    omega
  · rw [hblock, hl]
    exact (List.suffix_cons x l).trans hsuffix

/-- The invariant of the tidy paths. -/
structure Follows (C : MozCompiler) (T : StackMap) (s : PathState) : Prop where
  place : At C T (s.saved.map Prod.fst) s
  nodup : (s.saved.map Prod.fst).Nodup
  last : ∀ m ∈ s.saved, s.stores m.1 = m.2 + 1
  depth : s.depth = s.saved.length

theorem Follows.step (h : Flows C T) (hs : Follows C T s) (hstep : PathStep C s t)
    (hdrops : ¬s.Drops) : Follows C T t := by
  have hflow := hs.place.flow
  cases hstep with
  | next hcode hop =>
    rw [hcode, Flow, hop] at hflow
    exact ⟨hs.place.advance hcode hflow.2 rfl rfl, hs.nodup, hs.last, hs.depth⟩
  | fail hcode hop =>
    rw [hcode, Flow, hop] at hflow
    exact ⟨.enter h (hflow.1 rfl) rfl, hs.nodup, hs.last, hs.depth⟩
  | jump hcode hop =>
    rw [hcode, Flow, hop] at hflow
    have hT := hflow.1 fun hleaves => hdrops ⟨_, _, _, hcode, hop, hleaves⟩
    exact ⟨.enter h hT rfl, hs.nodup, hs.last, hs.depth⟩
  | store hcode hop =>
    rw [hcode, Flow, hop] at hflow
    refine ⟨hs.place.advance hcode hflow.2 rfl rfl, List.nodup_cons.2 ⟨hflow.1, hs.nodup⟩, ?_, ?_⟩
    · intro m hm
      rcases List.mem_cons.1 hm with rfl | hm
      · exact Function.update_self ..
      · have hother : m.1 ≠ s.block := fun heq => hflow.1 (heq ▸ List.mem_map_of_mem hm)
        exact (Function.update_of_ne hother ..).trans (hs.last m hm)
    · rw [hs.depth, List.length_cons, Nat.cast_succ]
  | load hcode hop =>
    rw [hcode, Flow, hop] at hflow
    obtain ⟨head, rest, hstack, -, hflow⟩ := hflow
    obtain ⟨m, saved, hsaved, rfl, rfl⟩ := List.map_eq_cons_iff.1 hstack
    have hnodup := hs.nodup
    have hlast := hs.last
    have hdepth := hs.depth
    rw [hsaved] at hnodup hlast hdepth
    refine ⟨hs.place.advance hcode ?_ rfl rfl, ?_, ?_, ?_⟩
    · rwa [hsaved]
    · rw [hsaved]
      exact (List.nodup_cons.1 hnodup).2
    · intro m hm
      rw [hsaved] at hm
      exact hlast m (List.mem_cons_of_mem _ hm)
    · rw [hsaved, hdepth, List.tail_cons, List.length_cons, Nat.cast_succ, add_sub_cancel_right]

/-- What the edges agree with holds of all tidy paths. -/
theorem TidyPath.follows (h : Flows C T) (hentry : T entry = some [])
    (hs : TidyPath C entry s) : Follows C T s := by
  induction hs with
  | refl => exact ⟨.enter h hentry rfl, List.nodup_nil, fun _ hm => absurd hm List.not_mem_nil, rfl⟩
  | tail _ hstep ih => exact ih.step h hstep.1 hstep.2

theorem Follows.depth_eq (hs : Follows C T s) (hcode : s.code = C.insts s.block)
    (hT : T s.block = some stack) : s.depth = stack.length := by
  obtain rfl := Option.some.inj ((hs.place.start hcode).symm.trans hT)
  rw [hs.depth, List.length_map]

theorem Flows.paired (h : Flows C T) (hentry : T entry = some []) :
    PositionsPaired C (TidyPath C entry) where
  depth s t hs ht hblock hcode hcode' := by
    have hT := (ht.follows h hentry).place.start hcode'
    rw [(ht.follows h hentry).depth_eq hcode' hT]
    exact (hs.follows h hentry).depth_eq hcode (hblock ▸ hT)
  ends s hs x l hcode hop := by
    have hflow := (hs.follows h hentry).place.flow
    rw [hcode, Flow, hop] at hflow
    rw [(hs.follows h hentry).depth, List.map_eq_nil_iff.1 hflow]
    rfl
  own s hs x l hcode hop := by
    have hflow := (hs.follows h hentry).place.flow
    rw [hcode, Flow, hop] at hflow
    obtain ⟨head, rest, hstack, hhead, -⟩ := hflow
    obtain ⟨m, saved, hsaved, rfl, rfl⟩ := List.map_eq_cons_iff.1 hstack
    exact ⟨m.1, m.2, saved, hsaved, hhead,
      (hs.follows h hentry).last m (hsaved ▸ List.mem_cons_self)⟩

/-- On a path that has left a position behind more positions are saved than the stacks tell. -/
def Exceeds (C : MozCompiler) (T : StackMap) (s : PathState) : Prop :=
  ∃ stack, At C T stack s ∧ (stack.length : ℤ) < s.depth

theorem Exceeds.step (h : Flows C T) (hs : Exceeds C T s) (hstep : PathStep C s t) :
    Exceeds C T t := by
  obtain ⟨stack, hs, hlt⟩ := hs
  have hflow := hs.flow
  cases hstep with
  | next hcode hop =>
    rw [hcode, Flow, hop] at hflow
    exact ⟨stack, hs.advance hcode hflow.2 rfl rfl, hlt⟩
  | fail hcode hop =>
    rw [hcode, Flow, hop] at hflow
    exact ⟨stack, .enter h (hflow.1 rfl) rfl, hlt⟩
  | jump hcode hop =>
    rw [hcode, Flow, hop] at hflow
    rename_i target
    by_cases hleaves : LeavesBehind stack s.block target
    · obtain ⟨head, rest, rfl, hT⟩ := hflow.2 hleaves
      refine ⟨rest, .enter h hT rfl, lt_trans ?_ hlt⟩
      rw [List.length_cons, Nat.cast_succ]
      exact lt_add_one _
    · exact ⟨stack, .enter h (hflow.1 hleaves) rfl, hlt⟩
  | store hcode hop =>
    rw [hcode, Flow, hop] at hflow
    refine ⟨_, hs.advance hcode hflow.2 rfl rfl, ?_⟩
    rw [List.length_cons, Nat.cast_succ]
    exact add_lt_add_left hlt 1
  | load hcode hop =>
    rw [hcode, Flow, hop] at hflow
    obtain ⟨head, rest, rfl, -, hflow⟩ := hflow
    refine ⟨rest, hs.advance hcode hflow rfl rfl, lt_sub_iff_add_lt.2 ?_⟩
    rwa [List.length_cons, Nat.cast_succ] at hlt

/-- The first jump that leaves a position behind. -/
theorem Follows.exceeds (h : Flows C T) (hs : Follows C T s) (hdrops : s.Drops)
    (hstep : PathStep C s t) : Exceeds C T t := by
  obtain ⟨x, l, target, hx, hop, hleaves⟩ := hdrops
  have hflow := hs.place.flow
  rw [hx, Flow, hop] at hflow
  obtain ⟨head, rest, hstack, hT⟩ := hflow.2 hleaves
  have hlength := congrArg List.length hstack
  rw [List.length_map, List.length_cons] at hlength
  cases hstep with
  | jump hcode' hop' =>
    obtain ⟨rfl, -⟩ := List.cons.inj (hx.symm.trans hcode')
    obtain rfl := Course.jump.inj (hop.symm.trans hop')
    refine ⟨rest, .enter h hT rfl, ?_⟩
    rw [hs.depth, hlength, Nat.cast_succ]
    exact lt_add_one _
  | next hcode' hop' | fail hcode' hop' | store hcode' hop' | load hcode' hop' =>
    obtain ⟨rfl, -⟩ := List.cons.inj (hx.symm.trans hcode')
    cases hop.symm.trans hop'

theorem Path.tidy_or_exceeds (h : Flows C T) (hentry : T entry = some []) (hs : Path C entry s) :
    TidyPath C entry s ∨ Exceeds C T s := by
  induction hs with
  | refl => exact .inl .refl
  | @tail s t _ hstep ih =>
    rcases ih with htidy | hexceeds
    · by_cases hdrops : s.Drops
      · exact .inr ((htidy.follows h hentry).exceeds h hdrops hstep)
      · exact .inl (htidy.tail ⟨hstep, hdrops⟩)
    · exact .inr (hexceeds.step h hstep)

/-- A path comes to a block with the number of positions of the tidy paths if it is one. -/
theorem Flows.depth_eq_iff (h : Flows C T) (hentry : T entry = some []) (hs : Path C entry s)
    (hu : TidyPath C entry u) (hblock : s.block = u.block) (hcode : s.code = C.insts s.block)
    (hcode' : u.code = C.insts u.block) : s.depth = u.depth ↔ TidyPath C entry s := by
  refine ⟨fun heq => ?_, fun htidy => (h.paired hentry).depth s u htidy hu hblock hcode hcode'⟩
  rcases hs.tidy_or_exceeds h hentry with htidy | ⟨stack, hat, hlt⟩
  · exact htidy
  · rw [heq, (hu.follows h hentry).depth_eq hcode' (hblock ▸ hat.start hcode)] at hlt
    exact absurd hlt (lt_irrefl _)

theorem Flows.ends_iff (h : Flows C T) (hentry : T entry = some []) (hs : Path C entry s)
    (hcode : s.code = x :: l) (hop : x.op.course = .leave) :
    s.depth = 0 ↔ TidyPath C entry s := by
  refine ⟨fun heq => ?_, fun htidy => (h.paired hentry).ends s htidy x l hcode hop⟩
  rcases hs.tidy_or_exceeds h hentry with htidy | ⟨stack, hat, hlt⟩
  · exact htidy
  · have hflow := hat.flow
    rw [hcode, Flow, hop] at hflow
    obtain rfl := hflow
    rw [heq] at hlt
    exact absurd hlt (lt_irrefl _)

end Paths

end Moz.Compiler
