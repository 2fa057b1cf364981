import Moz.Compiler.Layout

/-!
# How lowered expressions walk through the input

`Walk` says by recursion on an expression what its blocks do: where `CURRENT` is
when they match or fail, which cells they leave on the stack and what they log. It
is the meaning the lowering gives to a grammar, without blocks. No failed attempt
brings `CURRENT` back, and a predicate goes on at the cell it finds on top of the
stack. `resume p q logs` says when an attempt that began at `p` may be left with
`CURRENT = q` and these entries logged, so that runs can be singled out in which
every attempt is left in a certain way.
-/

namespace Moz.Compiler

open Vm2

/-- What is walked through: an expression, the elements of a sequence, the alternatives of a
choice, or the rounds of a repetition. `hd` is as for `Placed`. -/
inductive Form
  | expr (hd : Bool) (e : Expr)
  | sequence (list : List Expr)
  | choice (list : List Expr)
  | rounds (hd : Bool) (list : List Expr)

/-- How it ends: where, the cells it has pushed, and what it has logged. Of a match, `kept` are the
entries that were not logged in an attempt that failed. -/
inductive Walked
  | ok (stop : ℕ) (cells : List ℕ) (logs kept : List AstLog)
  | fail (stop : ℕ) (cells : List ℕ) (logs : List AstLog)

namespace Walked

def stop : Walked → ℕ
  | ok stop _ _ _ | fail stop _ _ => stop

def cells : Walked → List ℕ
  | ok _ cells _ _ | fail _ cells _ => cells

def logs : Walked → List AstLog
  | ok _ _ logs _ | fail _ _ logs => logs

def after (cells₀ : List ℕ) (logs₀ kept₀ : List AstLog) : Walked → Walked
  | ok stop cells logs kept => ok stop (cells ++ cells₀) (logs₀ ++ logs) (kept₀ ++ kept)
  | fail stop cells logs => fail stop (cells ++ cells₀) (logs₀ ++ logs)

end Walked

/-- What the constructs that are one instruction do at a position. -/
structure Reading where
  effect : Expr → ℕ → Effect
  entry : Expr → ℕ → Option AstLog

/-- By the instructions, with the constants of `F`. -/
def MozCompiler.reading (F : MozCompiler) (R : Runtime) : Reading where
  effect e p := ((e.op F).map (Op.effect R p)).getD .stuck
  entry e p := (e.op F).bind (Op.entry R p)

section Relation

variable (M : Reading) (decls : List Decl) (resume : ℕ → ℕ → List AstLog → Prop)

/-- The walk of a form with `SP` at `sp` and `CURRENT` at `p`. -/
inductive Walk : Form → ℕ → ℕ → Walked → Prop
  | empty {hd : Bool} {sp p : ℕ} : Walk (.expr hd .empty) sp p (.ok p [] [] [])
  | one {hd : Bool} {e : Expr} {sp p q : ℕ} (h : M.effect e p = .next q) :
      Walk (.expr hd e) sp p (.ok q [] [] [])
  | oneFail {hd : Bool} {e : Expr} {sp p : ℕ} (h : M.effect e p = .fail) :
      Walk (.expr hd e) sp p (.fail p [] [])
  | log {hd : Bool} {e : Expr} {sp p : ℕ} {log : AstLog} (h : M.entry e p = some log) :
      Walk (.expr hd e) sp p (.ok p [] [log] [log])
  | fail {hd : Bool} {sp p : ℕ} : Walk (.expr hd .fail) sp p (.fail p [] [])
  -- the frame is popped with all that lies above it, and a failure restores the position
  | invoke {hd : Bool} {d sp p q : ℕ} {decl : Decl} {cells : List ℕ} {logs kept : List AstLog}
      (hdecl : decls[d]? = some decl) (hrefc : 0 < decl.refc) (hsp : sp + fpMax ≤ stackSize)
      (hbody : Walk (.expr false decl.body) (sp + fpMax) p (.ok q cells logs kept)) :
      Walk (.expr hd (.invoke d)) sp p (.ok q [] logs kept)
  | invokeFail {hd : Bool} {d sp p q : ℕ} {decl : Decl} {cells : List ℕ} {logs : List AstLog}
      (hdecl : decls[d]? = some decl) (hrefc : 0 < decl.refc) (hsp : sp + fpMax ≤ stackSize)
      (hbody : Walk (.expr false decl.body) (sp + fpMax) p (.fail q cells logs)) :
      Walk (.expr hd (.invoke d)) sp p (.fail p [] logs)
  -- the predicates: `IPLoad` takes the cell on top, which need not be their own
  | and {hd : Bool} {e : Expr} {sp p q t : ℕ} {cells cells' : List ℕ} {logs kept : List AstLog}
      (hsp : sp < stackSize) (hbody : Walk (.expr true e) (sp + 1) p (.ok q cells logs kept))
      (htop : cells ++ [p] = t :: cells') (hresume : resume p t []) :
      Walk (.expr hd (.and e)) sp p (.ok t cells' logs kept)
  | andFail {hd : Bool} {e : Expr} {sp p q : ℕ} {cells : List ℕ} {logs : List AstLog}
      (hsp : sp < stackSize) (hbody : Walk (.expr true e) (sp + 1) p (.fail q cells logs)) :
      Walk (.expr hd (.and e)) sp p (.fail q (cells ++ [p]) logs)
  | not {hd : Bool} {e : Expr} {sp p q t : ℕ} {cells cells' : List ℕ} {logs : List AstLog}
      (he : e.notOp = none) (hsp : sp < stackSize)
      (hbody : Walk (.expr true e) (sp + 1) p (.fail q cells logs))
      (htop : cells ++ [p] = t :: cells') (hresume : resume p t logs) :
      Walk (.expr hd (.not e)) sp p (.ok t cells' logs [])
  | notFail {hd : Bool} {e : Expr} {sp p q : ℕ} {cells : List ℕ} {logs kept : List AstLog}
      (he : e.notOp = none) (hsp : sp < stackSize)
      (hbody : Walk (.expr true e) (sp + 1) p (.ok q cells logs kept)) :
      Walk (.expr hd (.not e)) sp p (.fail q (cells ++ [p]) logs)
  | option {hd : Bool} {e : Expr} {sp p q : ℕ} {cells : List ℕ} {logs kept : List AstLog}
      (he : e.optionOp { decls := [] } = none)
      (hbody : Walk (.expr hd e) sp p (.ok q cells logs kept)) :
      Walk (.expr hd (.option e)) sp p (.ok q cells logs kept)
  | optionNone {hd : Bool} {e : Expr} {sp p q : ℕ} {cells : List ℕ} {logs : List AstLog}
      (he : e.optionOp { decls := [] } = none)
      (hbody : Walk (.expr hd e) sp p (.fail q cells logs)) (hresume : resume p q logs) :
      Walk (.expr hd (.option e)) sp p (.ok q cells logs [])
  | choice {hd : Bool} {list : List Expr} {sp p : ℕ} {w : Walked}
      (hlist : Walk (.choice list) sp p w) : Walk (.expr hd (.choice list)) sp p w
  | sequence {hd : Bool} {list : List Expr} {sp p : ℕ} {w : Walked}
      (hlist : Walk (.sequence list) sp p w) : Walk (.expr hd (.sequence list)) sp p w
  | repetition {hd : Bool} {list : List Expr} {sp p : ℕ} {w : Walked}
      (he : Expr.repetitionOp { decls := [] } list = none)
      (hlist : Walk (.rounds hd list) sp p w) : Walk (.expr hd (.repetition list)) sp p w
  | alternative {x : Expr} {list : List Expr} {sp p q : ℕ} {cells : List ℕ}
      {logs kept : List AstLog} (hx : Walk (.expr false x) sp p (.ok q cells logs kept)) :
      Walk (.choice (x :: list)) sp p (.ok q cells logs kept)
  | alternativeLast {x : Expr} {sp p q : ℕ} {cells : List ℕ} {logs : List AstLog}
      (hx : Walk (.expr false x) sp p (.fail q cells logs)) :
      Walk (.choice [x]) sp p (.fail q cells logs)
  | alternativeNext {x y : Expr} {list : List Expr} {sp p q : ℕ} {cells : List ℕ}
      {logs : List AstLog} {w : Walked} (hx : Walk (.expr false x) sp p (.fail q cells logs))
      (hresume : resume p q logs) (hlist : Walk (.choice (y :: list)) (sp + cells.length) q w) :
      Walk (.choice (x :: y :: list)) sp p (w.after cells logs [])
  | nil {sp p : ℕ} : Walk (.sequence []) sp p (.ok p [] [] [])
  | cons {x : Expr} {list : List Expr} {sp p q : ℕ} {cells : List ℕ} {logs kept : List AstLog}
      {w : Walked} (hx : Walk (.expr false x) sp p (.ok q cells logs kept))
      (hlist : Walk (.sequence list) (sp + cells.length) q w) :
      Walk (.sequence (x :: list)) sp p (w.after cells logs kept)
  | consFail {x : Expr} {list : List Expr} {sp p q : ℕ} {cells : List ℕ} {logs : List AstLog}
      (hx : Walk (.expr false x) sp p (.fail q cells logs)) :
      Walk (.sequence (x :: list)) sp p (.fail q cells logs)
  | stop {hd : Bool} {list : List Expr} {sp p q : ℕ} {cells : List ℕ} {logs : List AstLog}
      (hlist : Walk (.sequence list) sp p (.fail q cells logs)) (hresume : resume p q logs) :
      Walk (.rounds hd list) sp p (.ok q cells logs [])
  | round {list : List Expr} {sp p q : ℕ} {cells : List ℕ} {logs kept : List AstLog} {w : Walked}
      (hlist : Walk (.sequence list) sp p (.ok q cells logs kept))
      (hrest : Walk (.rounds false list) (sp + cells.length) q w) :
      Walk (.rounds false list) sp p (w.after cells logs kept)
  -- the block of the repetition begins with the `IPStore` of a predicate
  | roundStore {list : List Expr} {sp p q : ℕ} {cells : List ℕ} {logs kept : List AstLog}
      {w : Walked} (hlist : Walk (.sequence list) sp p (.ok q cells logs kept))
      (hsp : sp + cells.length < stackSize)
      (hrest : Walk (.rounds true list) (sp + (q :: cells).length) q w) :
      Walk (.rounds true list) sp p (w.after (q :: cells) logs kept)

end Relation

end Moz.Compiler
