import Mathlib.Tactic

/-!
# Programs that note their steps

A program on a state notes the steps it takes, each with the state it is taken in,
and ends with a value or a fault. A contract says which steps are sound to take,
what holds whenever a step is come to, and which faults may end a program; `wp` is
the weakest precondition under a contract, in which nothing is claimed about what
follows a step that was not sound.
-/

namespace Moz

/-- The steps with the states they are taken in, and how the program ends. -/
def Logged (σ ε φ α : Type) : Type := σ → List (ε × σ) × Except φ (α × σ)

namespace Logged

variable {σ ε φ α β : Type}

instance : Monad (Logged σ ε φ) where
  pure a s := ([], .ok (a, s))
  bind m f s :=
    match (m s).2 with
    | .ok (a, s') => ((m s).1 ++ (f a s').1, (f a s').2)
    | .error e => ((m s).1, .error e)

def get : Logged σ ε φ σ := fun s => ([], .ok (s, s))

def set (s : σ) : Logged σ ε φ Unit := fun _ => ([], .ok ((), s))

def raise (e : φ) : Logged σ ε φ α := fun _ => ([], .error e)

def note (step : ε) : Logged σ ε φ Unit := fun s => ([(step, s)], .ok ((), s))

/-- A computation that may fail and leaves the state alone. -/
def lift (result : Except φ α) : Logged σ ε φ α :=
  match result with
  | .ok a => pure a
  | .error e => raise e

/-- The steps that are sound, what holds when a step is come to, and the faults that may happen. -/
structure Contract (σ ε φ : Type) where
  sound : ε → σ → Prop
  holds : ε → σ → Prop
  fault : φ → Prop

/-- What holds at each step as long as the steps before it were sound, and in the end. -/
def Upto (K : Contract σ ε φ) : List (ε × σ) → Prop → Prop
  | [], last => last
  | (step, s) :: log, last => K.holds step s ∧ (K.sound step s → Upto K log last)

theorem upto_append (K : Contract σ ε φ) (log log' : List (ε × σ)) (last : Prop) :
    Upto K (log ++ log') last ↔ Upto K log (Upto K log' last) := by
  induction log with
  | nil => rfl
  | cons x log ih => simp only [List.cons_append, Upto, ih]

theorem Upto.mono {K : Contract σ ε φ} {log : List (ε × σ)} {last last' : Prop}
    (h : Upto K log last) (hlast : last → last') : Upto K log last' := by
  induction log with
  | nil => exact hlast h
  | cons x log ih => exact ⟨h.1, fun hsound => ih (h.2 hsound)⟩

/-- A step that is come to by sound steps. -/
theorem Upto.step {K : Contract σ ε φ} {before after : List (ε × σ)} {step : ε} {s : σ}
    {last : Prop} (h : Upto K (before ++ (step, s) :: after) last)
    (hsound : ∀ x ∈ before, K.sound x.1 x.2) : K.holds step s := by
  induction before with
  | nil => exact h.1
  | cons x before ih =>
    apply ih (h.2 (hsound x List.mem_cons_self))
    exact fun y hy => hsound y (List.mem_cons_of_mem x hy)

/-- The end of a run of sound steps. -/
theorem Upto.last {K : Contract σ ε φ} {log : List (ε × σ)} {last : Prop} (h : Upto K log last)
    (hsound : ∀ x ∈ log, K.sound x.1 x.2) : last := by
  induction log with
  | nil => exact h
  | cons x log ih =>
    exact ih (h.2 (hsound x List.mem_cons_self)) fun y hy => hsound y (List.mem_cons_of_mem x hy)

/-- A test that shows steps to be sound where they are come to by sound steps. -/
theorem Upto.sound {K : Contract σ ε φ} {log : List (ε × σ)} {last : Prop} (h : Upto K log last)
    {test : ε → σ → Prop} (htest : ∀ step s, K.holds step s → test step s → K.sound step s)
    (hlog : ∀ x ∈ log, test x.1 x.2) : ∀ x ∈ log, K.sound x.1 x.2 := by
  induction log with
  | nil =>
    intro x hx
    cases hx
  | cons x log ih =>
    have hsound := htest x.1 x.2 h.1 (hlog x List.mem_cons_self)
    intro y hy
    rcases List.mem_cons.1 hy with rfl | hy
    · exact hsound
    · exact ih (h.2 hsound) (fun z hz => hlog z (List.mem_cons_of_mem x hz)) y hy

/-- What a program has to end with. -/
def Ends (K : Contract σ ε φ) (post : α → σ → Prop) : Except φ (α × σ) → Prop
  | .ok (a, s) => post a s
  | .error e => K.fault e

/-- The weakest precondition. -/
def wp (K : Contract σ ε φ) (m : Logged σ ε φ α) (post : α → σ → Prop) (s : σ) : Prop :=
  Upto K (m s).1 (Ends K post (m s).2)

variable {K : Contract σ ε φ} {post post' : α → σ → Prop} {s : σ}

@[simp] theorem wp_pure {a : α} : wp K (pure a : Logged σ ε φ α) post s ↔ post a s := Iff.rfl

theorem wp_bind {m : Logged σ ε φ α} {f : α → Logged σ ε φ β} {post : β → σ → Prop} :
    wp K (m >>= f) post s ↔ wp K m (fun a s' => wp K (f a) post s') s := by
  have hbind : (m >>= f) s = match (m s).2 with
    | .ok (a, s') => ((m s).1 ++ (f a s').1, (f a s').2)
    | .error e => ((m s).1, .error e) := rfl
  unfold wp
  rw [hbind]
  cases (m s).2 with
  | error e => rfl
  | ok result =>
    rcases result with ⟨a, s'⟩
    exact upto_append K (m s).1 (f a s').1 _

theorem wp.mono {m : Logged σ ε φ α} (h : wp K m post s) (hpost : ∀ a s', post a s' → post' a s') :
    wp K m post' s := by
  apply Upto.mono h
  cases (m s).2 with
  | error e => exact id
  | ok result => exact hpost result.1 result.2

@[simp] theorem wp_get {post : σ → σ → Prop} : wp K get post s ↔ post s s := Iff.rfl

@[simp] theorem wp_set {s' : σ} {post : Unit → σ → Prop} : wp K (set s') post s ↔ post () s' :=
  Iff.rfl

@[simp] theorem wp_raise {e : φ} : wp K (raise e : Logged σ ε φ α) post s ↔ K.fault e := Iff.rfl

@[simp] theorem wp_note {step : ε} {post : Unit → σ → Prop} :
    wp K (note step) post s ↔ K.holds step s ∧ (K.sound step s → post () s) := Iff.rfl

theorem wp_lift {result : Except φ α} :
    wp K (lift result) post s ↔
      (∀ a, result = .ok a → post a s) ∧ ∀ e, result = .error e → K.fault e := by
  cases result with
  | error e => simp [lift]
  | ok a => simp [lift]

end Logged

end Moz
