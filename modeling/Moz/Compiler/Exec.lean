import Mathlib.Computability.StateTransition
import Moz.Compiler.Lowering
import Moz.Vm2.Machine

/-!
# Running blocks

The instructions of `vm2.vmdef` on the blocks of a compiler, before they have
addresses: the code is what is left of the block that is executed, a fail operand
is the block it names, and `IInvoke` goes to the block of the production. The
cells that `IPStore` pushes are kept with the frame they lie above. A step
without a result is a return of the outermost call, or one the C program does not
define.
-/

namespace Moz.Compiler

open StateTransition Vm2

def MozCompiler.insts (C : MozCompiler) (bb : BlockId) : List Ir := (C.mem bb).insts

/-- What `IInvoke` saves: the frame, and the stack below it. -/
structure Frame where
  pos : ℕ
  next : List Ir
  fail : BlockId
  sp : ℕ
  cells : List ℕ

/-- The registers, the stack above the frame, the frames and the log. -/
structure State where
  code : List Ir
  current : ℕ
  sp : ℕ
  cells : List ℕ := []
  frames : List Frame := []
  ast : AstMachine := {}

/-- What a matching instruction does at `CURRENT`. -/
def Op.effect (R : Runtime) (current : ℕ) : Op → Effect
  | iAny => accept (anyTest R) current
  | iByte byte => accept (byteTest R byte) current
  | iStr strId => accept (strTest R strId) current
  | iSet setId => accept (setTest R setId) current
  | iNAny => reject (anyTest R) current
  | iNByte byte => reject (byteTest R byte) current
  | iNStr strId => reject (strTest R strId) current
  | iNSet setId => reject (setTest R setId) current
  | iRAny => moved (acceptWhile R (anyTest R) current)
  | iRByte byte => moved (acceptWhile R (byteTest R byte) current)
  | iRStr strId => moved (acceptWhile R (strTest R strId) current)
  | iRSet setId => moved (acceptWhile R (setTest R setId) current)
  | iOByte byte => moved (acceptOption (byteTest R byte) current)
  | iOStr strId => moved (acceptOption (strTest R strId) current)
  | iOSet setId => moved (acceptOption (setTest R setId) current)
  | iLabel | iJump _ | iInvoke _ | iPLoad | iPStore | iRet | iFail | iTPush | iTPop _ | iTNew _
  | iTCapture _ | iTTag _ => .stuck

/-- The entry that an instruction logs at `CURRENT`. -/
def Op.entry (R : Runtime) (current : ℕ) : Op → Option AstLog
  | iTPush => some .push
  | iTPop tagId => some (.pop tagId)
  | iTNew shift => some (.new (shifted current shift))
  | iTCapture shift => some (.capture (shifted current shift))
  | iTTag tagId => (R.tags[tagId.toNat]?).map fun tag => .tag (some tag)
  | iLabel | iJump _ | iInvoke _ | iPLoad | iPStore | iRet | iFail | iAny | iByte _ | iStr _
  | iSet _ | iNAny | iNByte _ | iNStr _ | iNSet _ | iRByte _ | iRAny | iRStr _ | iRSet _
  | iOByte _ | iOStr _ | iOSet _ => none

variable (C : MozCompiler) (R : Runtime)

def exec (s : State) (ir : Ir) : Option State :=
  match ir.op with
  | .iLabel => some s
  | .iJump target => some { s with code := C.insts target }
  | .iInvoke decl => do
    let callee ← C.decls[decl]?
    let entry ← callee.inst
    guard (s.sp + fpMax ≤ stackSize)
    return { s with
      code := C.insts entry
      sp := s.sp + fpMax
      cells := []
      frames := ⟨s.current, s.code, ir.fail, s.sp, s.cells⟩ :: s.frames }
  | .iPLoad =>
    match s.cells with
    | [] => none
    | cell :: cells => some { s with current := cell, sp := s.sp - 1, cells := cells }
  | .iPStore => do
    guard (s.sp < stackSize)
    return { s with sp := s.sp + 1, cells := s.current :: s.cells }
  | .iRet =>
    match s.frames with
    | [] => none
    | frame :: frames =>
      some { s with code := frame.next, sp := frame.sp, cells := frame.cells, frames := frames }
  | .iFail =>
    match s.frames with
    | [] => none
    | frame :: frames =>
      some { s with
        code := C.insts frame.fail
        current := frame.pos
        sp := frame.sp
        cells := frame.cells
        frames := frames }
  | .iAny | .iByte _ | .iStr _ | .iSet _ | .iNAny | .iNByte _ | .iNStr _ | .iNSet _ | .iRByte _
  | .iRAny | .iRStr _ | .iRSet _ | .iOByte _ | .iOStr _ | .iOSet _ =>
    match ir.op.effect R s.current with
    | .next current => some { s with current := current }
    | .fail => some { s with code := C.insts ir.fail }
    | .stuck => none
  | .iTPush | .iTPop _ | .iTNew _ | .iTCapture _ | .iTTag _ => do
    let log ← ir.op.entry R s.current
    return { s with ast := astLog s.ast log }

def step (s : State) : Option State :=
  match s.code with
  | [] => none
  | ir :: code => exec C R { s with code := code } ir

/-- Whether the outermost call is at its `IRet` or at its `IFail`. -/
def State.result (s : State) : Option Bool :=
  match s.code, s.frames with
  | ir :: _, [] => if ir.op = .iRet then some true else if ir.op = .iFail then some false else none
  | _, _ => none

/-- The run from `s` ends with the outermost call at `IRet` (or `IFail`). -/
def Returns (s : State) (matched : Bool) (s' : State) : Prop :=
  Reaches (step C R) s s' ∧ s'.result = some matched

/-- The call of a production at `CURRENT`. -/
def enter (d sp current : ℕ) (ast : AstMachine) : Option State := do
  let decl ← C.decls[d]?
  let entry ← decl.inst
  return { code := C.insts entry, current := current, sp := sp, ast := ast }

def MozCompiler.runtime (C : MozCompiler) (input : List UInt8) : Runtime where
  input := input
  strs := C.strs
  sets := C.sets
  tags := C.tags

section Steps

variable {C R} {s s' t : State} {ir : Ir} {code : List Ir}

theorem step_eq (h : s.code = ir :: code) : step C R s = exec C R { s with code := code } ir := by
  unfold step
  rw [h]

theorem exec_next {q : ℕ} (h : ir.op.effect R s.current = .next q) :
    exec C R s ir = some { s with current := q } := by
  cases hop : ir.op with
  | iLabel | iJump | iInvoke | iPLoad | iPStore | iRet | iFail | iTPush | iTPop | iTNew
  | iTCapture | iTTag =>
    rw [hop] at h
    cases h
  | _ =>
    rw [hop] at h
    simp only [exec, hop, h]

theorem exec_fail (h : ir.op.effect R s.current = .fail) :
    exec C R s ir = some { s with code := C.insts ir.fail } := by
  cases hop : ir.op with
  | iLabel | iJump | iInvoke | iPLoad | iPStore | iRet | iFail | iTPush | iTPop | iTNew
  | iTCapture | iTTag =>
    rw [hop] at h
    cases h
  | _ =>
    rw [hop] at h
    simp only [exec, hop, h]

theorem exec_log {log : AstLog} (h : ir.op.entry R s.current = some log) :
    exec C R s ir = some { s with ast := astLog s.ast log } := by
  cases hop : ir.op with
  | iTPush | iTPop | iTNew | iTCapture | iTTag =>
    rw [hop] at h
    simp [exec, hop, h]
  | _ =>
    rw [hop] at h
    cases h

theorem step_of_result {matched : Bool} (h : s.result = some matched) : step C R s = none := by
  unfold State.result at h
  split at h
  · rename_i ir code hcode hframes
    rw [step_eq hcode]
    split_ifs at h with hret hfail
    · simp [exec, hret, hframes]
    · simp [exec, hfail, hframes]
  · cases h

theorem Returns.unique {matched matched' : Bool} (h : Returns C R s matched s')
    (h' : Returns C R s matched' t) : s' = t ∧ matched = matched' := by
  have heval : s' ∈ eval (step C R) s := mem_eval.2 ⟨h.1, step_of_result h.2⟩
  have heval' : t ∈ eval (step C R) s := mem_eval.2 ⟨h'.1, step_of_result h'.2⟩
  obtain rfl := Part.mem_unique heval heval'
  exact ⟨rfl, Option.some.inj (h.2.symm.trans h'.2)⟩

theorem Returns.head {matched : Bool} (hrun : Reaches (step C R) s t)
    (h : Returns C R t matched s') : Returns C R s matched s' :=
  ⟨hrun.trans h.1, h.2⟩

theorem Returns.after {matched : Bool} (h : Returns C R s matched s')
    (hrun : Reaches (step C R) s t) : Returns C R t matched s' := by
  refine ⟨?_, h.2⟩
  rcases reaches_total h.1 hrun with hback | hforth
  · cases hback.cases_head with
    | inl heq => exact heq ▸ Relation.ReflTransGen.refl
    | inr hstep =>
      obtain ⟨u, hu, -⟩ := hstep
      rw [Option.mem_def, step_of_result h.2] at hu
      cases hu
  · exact hforth

end Steps

end Moz.Compiler
