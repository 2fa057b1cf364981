import Mathlib.Tactic

/-!
# Parsing expression grammars

Expressions over an alphabet `α` and nonterminals `N`, and the relation "the
expression matches from a position up to another one" or "fails at a position".
A result is the end of the match, `none` for a failure. The relation is
functional, and an expression need not have a result.
-/

namespace Peg

variable {α N : Type}

inductive Exp (α N : Type)
  | empty
  | one (test : α → Bool)
  | var (name : N)
  | seq (a b : Exp α N)
  | choice (a b : Exp α N)
  | star (a : Exp α N)
  | not (a : Exp α N)

namespace Exp

def never : Exp α N := .one fun _ => false

def and (a : Exp α N) : Exp α N := .not (.not a)

def option (a : Exp α N) : Exp α N := .choice a .empty

def seqAll : List (Exp α N) → Exp α N
  | [] => .empty
  | a :: list => .seq a (seqAll list)

def word [DecidableEq α] (list : List α) : Exp α N := seqAll (list.map fun c => .one (· == c))

end Exp

/-- The result of an expression at a position of the input. -/
inductive Derives (G : N → Exp α N) (input : List α) : Exp α N → ℕ → Option ℕ → Prop
  | empty (p : ℕ) : Derives G input .empty p (some p)
  | one {test : α → Bool} {p : ℕ} {c : α} (hc : input[p]? = some c) (htest : test c) :
      Derives G input (.one test) p (some (p + 1))
  | oneFail {test : α → Bool} {p : ℕ} (h : ∀ c, input[p]? = some c → test c = false) :
      Derives G input (.one test) p none
  | var {name : N} {p : ℕ} {o : Option ℕ} (h : Derives G input (G name) p o) :
      Derives G input (.var name) p o
  | seq {a b : Exp α N} {p q : ℕ} {o : Option ℕ} (ha : Derives G input a p (some q))
      (hb : Derives G input b q o) : Derives G input (.seq a b) p o
  | seqFail {a b : Exp α N} {p : ℕ} (ha : Derives G input a p none) :
      Derives G input (.seq a b) p none
  | choice {a b : Exp α N} {p q : ℕ} (ha : Derives G input a p (some q)) :
      Derives G input (.choice a b) p (some q)
  | choiceNext {a b : Exp α N} {p : ℕ} {o : Option ℕ} (ha : Derives G input a p none)
      (hb : Derives G input b p o) : Derives G input (.choice a b) p o
  | star {a : Exp α N} {p q : ℕ} {o : Option ℕ} (ha : Derives G input a p (some q))
      (hrest : Derives G input (.star a) q o) : Derives G input (.star a) p o
  | starStop {a : Exp α N} {p : ℕ} (ha : Derives G input a p none) :
      Derives G input (.star a) p (some p)
  | not {a : Exp α N} {p : ℕ} (ha : Derives G input a p none) : Derives G input (.not a) p (some p)
  | notFail {a : Exp α N} {p q : ℕ} (ha : Derives G input a p (some q)) :
      Derives G input (.not a) p none

namespace Derives

variable {G : N → Exp α N} {input : List α} {a b : Exp α N} {p q : ℕ} {o o' : Option ℕ}

/-- An expression has at most one result at a position. -/
theorem unique (h : Derives G input a p o) (h' : Derives G input a p o') : o = o' := by
  induction h generalizing o' with
  | empty p =>
    cases h'
    rfl
  | one hc htest =>
    cases h' with
    | one => rfl
    | oneFail hfail => simp [hfail _ hc] at htest
  | oneFail hfail =>
    cases h' with
    | one hc htest => simp [hfail _ hc] at htest
    | oneFail => rfl
  | var _ ih =>
    cases h' with
    | var h' => exact ih h'
  | seq _ _ iha ihb =>
    cases h' with
    | seq ha hb =>
      cases iha ha
      exact ihb hb
    | seqFail ha => cases iha ha
  | seqFail _ iha =>
    cases h' with
    | seq ha _ => cases iha ha
    | seqFail => rfl
  | choice _ iha =>
    cases h' with
    | choice ha => exact iha ha
    | choiceNext ha _ => cases iha ha
  | choiceNext _ _ iha ihb =>
    cases h' with
    | choice ha => cases iha ha
    | choiceNext _ hb => exact ihb hb
  | star _ _ iha ihrest =>
    cases h' with
    | star ha hrest =>
      cases iha ha
      exact ihrest hrest
    | starStop ha => cases iha ha
  | starStop _ iha =>
    cases h' with
    | star ha _ => cases iha ha
    | starStop => rfl
  | not _ iha =>
    cases h' with
    | not => rfl
    | notFail ha => cases iha ha
  | notFail _ iha =>
    cases h' with
    | not ha => cases iha ha
    | notFail => rfl

/-- A match does not go back, and it does not leave the input. -/
theorem le (h : Derives G input a p (some q)) : p ≤ q ∧ (p ≤ input.length → q ≤ input.length) := by
  generalize ho : some q = o at h
  induction h generalizing q with
  | empty p =>
    cases ho
    exact ⟨le_rfl, id⟩
  | @one test p c hc htest =>
    cases ho
    obtain ⟨hlt, -⟩ := List.getElem?_eq_some_iff.1 hc
    exact ⟨Nat.le_succ p, fun _ => hlt⟩
  | oneFail => cases ho
  | var _ ih => exact ih ho
  | seq _ _ iha ihb =>
    obtain ⟨hle, hin⟩ := iha rfl
    obtain ⟨hle', hin'⟩ := ihb ho
    exact ⟨hle.trans hle', fun hp => hin' (hin hp)⟩
  | seqFail => cases ho
  | choice _ iha => exact iha ho
  | choiceNext _ _ _ ihb => exact ihb ho
  | star _ _ iha ihrest =>
    obtain ⟨hle, hin⟩ := iha rfl
    obtain ⟨hle', hin'⟩ := ihrest ho
    exact ⟨hle.trans hle', fun hp => hin' (hin hp)⟩
  | starStop =>
    cases ho
    exact ⟨le_rfl, id⟩
  | not =>
    cases ho
    exact ⟨le_rfl, id⟩
  | notFail => cases ho

theorem star_ne_none : ¬ Derives G input (.star a) p none := by
  intro h
  generalize hstar : Exp.star a = e at h
  generalize ho : (none : Option ℕ) = o at h
  induction h with
  | star _ _ _ ih => exact ih hstar ho
  | starStop => cases ho
  | _ => cases hstar

/-- A repetition whose round takes nothing has no result. -/
theorem star_diverges (h : Derives G input a p (some p)) : ¬ Derives G input (.star a) p o := by
  intro h'
  generalize hstar : Exp.star a = e at h'
  induction h' with
  | star ha _ _ ih =>
    cases hstar
    obtain rfl := Option.some.inj (h.unique ha)
    exact ih h rfl
  | starStop ha =>
    cases hstar
    cases h.unique ha
  | _ => cases hstar

theorem never (p : ℕ) : Derives G input Exp.never p none := .oneFail fun _ _ => rfl

theorem and (h : Derives G input a p (some q)) : Derives G input (Exp.and a) p (some p) :=
  .not (.notFail h)

theorem andFail (h : Derives G input a p none) : Derives G input (Exp.and a) p none :=
  .notFail (.not h)

theorem option (h : Derives G input a p (some q)) : Derives G input (Exp.option a) p (some q) :=
  .choice h

theorem optionNone (h : Derives G input a p none) : Derives G input (Exp.option a) p (some p) :=
  .choiceNext h (.empty p)

end Derives

section Inversion

variable {G : N → Exp α N} {input : List α} {a b : Exp α N} {p : ℕ} {o : Option ℕ}

theorem derives_empty : Derives G input .empty p o ↔ o = some p := by
  constructor
  · intro h
    cases h
    rfl
  · rintro rfl
    exact .empty p

theorem derives_one {test : α → Bool} : Derives G input (.one test) p o ↔
    o = if (input[p]?).any test then some (p + 1) else none := by
  constructor
  · intro h
    cases h with
    | one hc htest => simp [hc, htest]
    | oneFail h =>
      cases hc : input[p]? with
      | none => rfl
      | some c => simp [h c hc]
  · rintro rfl
    cases hc : input[p]? with
    | none => exact .oneFail fun c hc' => by simp [hc] at hc'
    | some c =>
      by_cases htest : test c
      · simp only [Option.any_some, htest, if_true]
        exact .one hc htest
      · simp only [Option.any_some, htest]
        apply Derives.oneFail
        intro c' hc'
        rw [hc] at hc'
        rw [← Option.some.inj hc']
        simpa using htest

theorem derives_seq : Derives G input (.seq a b) p o ↔
    (∃ q, Derives G input a p (some q) ∧ Derives G input b q o) ∨
      Derives G input a p none ∧ o = none := by
  constructor
  · intro h
    cases h with
    | seq ha hb => exact .inl ⟨_, ha, hb⟩
    | seqFail ha => exact .inr ⟨ha, rfl⟩
  · rintro (⟨q, ha, hb⟩ | ⟨ha, rfl⟩)
    · exact .seq ha hb
    · exact .seqFail ha

theorem derives_choice : Derives G input (.choice a b) p o ↔
    (∃ q, Derives G input a p (some q) ∧ o = some q) ∨
      Derives G input a p none ∧ Derives G input b p o := by
  constructor
  · intro h
    cases h with
    | choice ha => exact .inl ⟨_, ha, rfl⟩
    | choiceNext ha hb => exact .inr ⟨ha, hb⟩
  · rintro (⟨q, ha, rfl⟩ | ⟨ha, hb⟩)
    · exact .choice ha
    · exact .choiceNext ha hb

theorem derives_not : Derives G input (.not a) p o ↔
    (∃ q, Derives G input a p (some q) ∧ o = none) ∨ Derives G input a p none ∧ o = some p := by
  constructor
  · intro h
    cases h with
    | not ha => exact .inr ⟨ha, rfl⟩
    | notFail ha => exact .inl ⟨_, ha, rfl⟩
  · rintro (⟨q, ha, rfl⟩ | ⟨ha, rfl⟩)
    · exact .notFail ha
    · exact .not ha

end Inversion

/-- The expressions have the same results on the inputs that satisfy `ok`. -/
def Exp.EquivOn (ok : List α → Prop) (a b : Exp α N) : Prop :=
  ∀ (G : N → Exp α N) (input : List α) (p : ℕ) (o : Option ℕ), ok input →
    (Derives G input a p o ↔ Derives G input b p o)

def Exp.Equiv (a b : Exp α N) : Prop :=
  ∀ (G : N → Exp α N) (input : List α) (p : ℕ) (o : Option ℕ),
    Derives G input a p o ↔ Derives G input b p o

namespace Exp

variable {ok : List α → Prop} {a a' b b' c : Exp α N}

theorem Equiv.on (h : Equiv a b) : EquivOn ok a b := fun G input p o _ => h G input p o

theorem EquivOn.refl (a : Exp α N) : EquivOn ok a a := fun _ _ _ _ _ => Iff.rfl

theorem EquivOn.symm (h : EquivOn ok a b) : EquivOn ok b a :=
  fun G input p o hok => (h G input p o hok).symm

theorem EquivOn.trans (h : EquivOn ok a b) (h' : EquivOn ok b c) : EquivOn ok a c :=
  fun G input p o hok => (h G input p o hok).trans (h' G input p o hok)

theorem EquivOn.seq (ha : EquivOn ok a a') (hb : EquivOn ok b b') :
    EquivOn ok (.seq a b) (.seq a' b') := by
  intro G input p o hok
  simp only [derives_seq, ha G input _ _ hok, hb G input _ _ hok]

theorem EquivOn.choice (ha : EquivOn ok a a') (hb : EquivOn ok b b') :
    EquivOn ok (.choice a b) (.choice a' b') := by
  intro G input p o hok
  simp only [derives_choice, ha G input _ _ hok, hb G input _ _ hok]

theorem EquivOn.not (ha : EquivOn ok a a') : EquivOn ok (.not a) (.not a') := by
  intro G input p o hok
  simp only [derives_not, ha G input _ _ hok]

theorem EquivOn.and (ha : EquivOn ok a a') : EquivOn ok (Exp.and a) (Exp.and a') := ha.not.not

theorem EquivOn.option (ha : EquivOn ok a a') : EquivOn ok (Exp.option a) (Exp.option a') :=
  ha.choice (.refl .empty)

/-- The results of a repetition come from those of its body. -/
theorem EquivOn.derives_star (ha : EquivOn ok a a') {G : N → Exp α N} {input : List α}
    (hok : ok input) {p : ℕ} {o : Option ℕ} (h : Derives G input (.star a) p o) :
    Derives G input (.star a') p o := by
  generalize hstar : Exp.star a = e at h
  induction h with
  | star hround _ _ ih =>
    cases hstar
    exact .star ((ha G input _ _ hok).1 hround) (ih rfl)
  | starStop hround _ =>
    cases hstar
    exact .starStop ((ha G input _ _ hok).1 hround)
  | _ => cases hstar

theorem EquivOn.star (ha : EquivOn ok a a') : EquivOn ok (.star a) (.star a') :=
  fun _ _ _ _ hok => ⟨ha.derives_star hok, ha.symm.derives_star hok⟩

theorem EquivOn.one {test test' : α → Bool}
    (h : ∀ input, ok input → ∀ c ∈ input, test c = test' c) :
    EquivOn ok (.one test : Exp α N) (.one test') := by
  intro G input p o hok
  rw [derives_one, derives_one]
  cases hc : input[p]? with
  | none => rfl
  | some c => simp [h input hok c (List.mem_of_getElem? hc)]

theorem choice_never : Equiv (.choice a never) a := by
  intro G input p o
  rw [derives_choice]
  constructor
  · rintro (⟨q, ha, rfl⟩ | ⟨ha, hnever⟩)
    · exact ha
    · rwa [hnever.unique (.never p)]
  · intro ha
    cases o with
    | none => exact .inr ⟨ha, .never p⟩
    | some q => exact .inl ⟨q, ha, rfl⟩

/-- A choice of two symbols is a choice between their tests. -/
theorem choice_one (test test' : α → Bool) :
    Equiv (.choice (.one test) (.one test') : Exp α N) (.one fun c => test c || test' c) := by
  intro G input p o
  rw [derives_choice]
  simp only [derives_one]
  cases hc : input[p]? with
  | none => simp
  | some c => cases htest : test c <;> simp [htest]

theorem not_seq_one (test : α → Bool) :
    Equiv (.seq (.not (.one test)) (.one fun _ => true) : Exp α N) (.one fun c => !test c) := by
  intro G input p o
  rw [derives_seq]
  simp only [derives_not, derives_one]
  cases hc : input[p]? with
  | none =>
    have hlength := List.getElem?_eq_none_iff.1 hc
    simp [Nat.not_lt.2 hlength]
  | some c =>
    obtain ⟨hlength, -⟩ := List.getElem?_eq_some_iff.1 hc
    cases htest : test c <;> simp [htest, hlength]

theorem EquivOn.equiv (h : EquivOn (fun _ => True) a b) : Equiv a b :=
  fun G input p o => h G input p o trivial

theorem Equiv.refl (a : Exp α N) : Equiv a a := fun _ _ _ _ => Iff.rfl

theorem Equiv.symm (h : Equiv a b) : Equiv b a := h.on.symm.equiv

theorem Equiv.trans (h : Equiv a b) (h' : Equiv b c) : Equiv a c := (h.on.trans h'.on).equiv

theorem Equiv.seq (ha : Equiv a a') (hb : Equiv b b') : Equiv (.seq a b) (.seq a' b') :=
  (ha.on.seq hb.on).equiv

theorem Equiv.choice (ha : Equiv a a') (hb : Equiv b b') : Equiv (.choice a b) (.choice a' b') :=
  (ha.on.choice hb.on).equiv

theorem seq_assoc : Equiv (.seq (.seq a b) c) (.seq a (.seq b c)) := by
  intro G input p o
  constructor
  · intro h
    obtain ⟨q, hab, hc⟩ | ⟨hab, rfl⟩ := derives_seq.1 h
    · obtain ⟨r, ha, hb⟩ | ⟨-, hnone⟩ := derives_seq.1 hab
      · exact .seq ha (.seq hb hc)
      · cases hnone
    · obtain ⟨r, ha, hb⟩ | ⟨ha, -⟩ := derives_seq.1 hab
      · exact .seq ha (.seqFail hb)
      · exact .seqFail ha
  · intro h
    obtain ⟨q, ha, hbc⟩ | ⟨ha, rfl⟩ := derives_seq.1 h
    · obtain ⟨r, hb, hc⟩ | ⟨hb, rfl⟩ := derives_seq.1 hbc
      · exact .seq (.seq ha hb) hc
      · exact .seqFail (.seq ha hb)
    · exact .seqFail (.seqFail ha)

theorem empty_seq : Equiv (.seq .empty a) a := by
  intro G input p o
  rw [derives_seq]
  constructor
  · rintro (⟨q, hq, ha⟩ | ⟨hnone, -⟩)
    · obtain rfl := Option.some.inj (derives_empty.1 hq)
      exact ha
    · cases derives_empty.1 hnone
  · exact fun ha => .inl ⟨p, .empty p, ha⟩

theorem seq_empty : Equiv (.seq a .empty) a := by
  intro G input p o
  rw [derives_seq]
  constructor
  · rintro (⟨q, ha, hq⟩ | ⟨ha, rfl⟩)
    · rwa [derives_empty.1 hq]
    · exact ha
  · intro ha
    cases o with
    | none => exact .inr ⟨ha, rfl⟩
    | some q => exact .inl ⟨q, ha, .empty q⟩

theorem seqAll_append (l l' : List (Exp α N)) :
    Equiv (seqAll (l ++ l')) (.seq (seqAll l) (seqAll l')) := by
  induction l with
  | nil => exact empty_seq.symm
  | cons a l ih => exact ((Equiv.refl a).seq ih).trans seq_assoc.symm

end Exp

section Word

variable [DecidableEq α] {G : N → Exp α N} {input : List α} {p : ℕ} {o : Option ℕ}

theorem derives_word (w : List α) : Derives G input (Exp.word w) p o ↔
    o = if w <+: input.drop p then some (p + w.length) else none := by
  induction w generalizing p with
  | nil =>
    change Derives G input .empty p o ↔ _
    simpa using derives_empty
  | cons c w ih =>
    change Derives G input (.seq (.one (· == c)) (Exp.word w)) p o ↔ _
    rw [derives_seq]
    cases hc : input[p]? with
    | none =>
      have hdrop : input.drop p = [] := List.drop_eq_nil_of_le (List.getElem?_eq_none_iff.1 hc)
      simp [derives_one, hc, hdrop]
    | some c' =>
      obtain ⟨hlt, hget⟩ := List.getElem?_eq_some_iff.1 hc
      have hdrop : input.drop p = c' :: input.drop (p + 1) := by
        rw [← hget]
        exact List.drop_eq_getElem_cons hlt
      by_cases h : c' = c
      · subst h
        simp [derives_one, hc, hdrop, ih, List.cons_prefix_cons, Nat.add_comm, Nat.add_left_comm]
      · have h' : ¬c = c' := fun heq => h heq.symm
        simp [derives_one, hc, hdrop, h, h', List.cons_prefix_cons]

theorem Exp.word_inj {w w' : List α} :
    Exp.Equiv (Exp.word w : Exp α N) (Exp.word w') ↔ w = w' := by
  constructor
  · intro h
    have hw : Derives (fun _ : N => .empty) w (Exp.word w) 0 (some w.length) :=
      (derives_word w).2 (by simp)
    have hw' := (derives_word w').1 ((h _ _ _ _).1 hw)
    simp only [List.drop_zero, Nat.zero_add] at hw'
    split at hw'
    · next hstart => exact (hstart.eq_of_length (Option.some.inj hw').symm).symm
    · cases hw'
  · rintro rfl
    exact Exp.Equiv.refl _

theorem Exp.word_append (w w' : List α) :
    Exp.Equiv (Exp.word (w ++ w') : Exp α N) (.seq (Exp.word w) (Exp.word w')) := by
  rw [Exp.word, List.map_append]
  exact Exp.seqAll_append _ _

end Word

end Peg
