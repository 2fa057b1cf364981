import Moz.Compiler.Merging

/-!
# Rewriting sequences

What `moz_Sequence_optimize` leaves has the results of the sequence, but for the
byte 0: the set that takes the place of `!b .` does not hold it, so that it fails
at the end of a text that ends with a zero.
-/

namespace Moz.Compiler

open Peg (Exp Derives)

/-- The inputs on which the complements among the rewrites make no difference. -/
def ZeroKept (rewrites : List Rewrite) (input : List UInt8) : Prop :=
  0 ∈ input → ∀ byte, .complemented byte ∈ rewrites → byte = 0

theorem ZeroKept.mono {rewrites rewrites' : List Rewrite} {input : List UInt8}
    (h : ZeroKept rewrites' input)
    (hsub : ∀ byte, .complemented byte ∈ rewrites → .complemented byte ∈ rewrites') :
    ZeroKept rewrites input :=
  fun hzero byte hbyte => h hzero byte (hsub byte hbyte)

section Loop

variable {ok : List UInt8 → Prop}

theorem pegSequence_append (l l' : List Expr) :
    Exp.Equiv (pegSequence (l ++ l')) (.seq (pegSequence l) (pegSequence l')) := by
  simp only [pegSequence_eq, List.map_append]
  exact Exp.seqAll_append _ _

theorem seq_word_byte (s : List UInt8) (byte : UInt8) (e : Exp UInt8 Nonterminal) :
    Exp.Equiv (.seq (Exp.word (s ++ [byte])) e)
      (.seq (Exp.word s) (.seq (Expr.byte byte).peg e)) := by
  have hword := (Exp.word_append s [byte]).trans ((Exp.Equiv.refl _).seq (byte_peg byte).symm)
  exact (hword.seq (.refl e)).trans Exp.seq_assoc

theorem seq_word_word (s s' : List UInt8) (e : Exp UInt8 Nonterminal) :
    Exp.Equiv (.seq (Exp.word (s ++ s')) e) (.seq (Exp.word s) (.seq (Exp.word s') e)) :=
  ((Exp.word_append s s').seq (.refl e)).trans Exp.seq_assoc

/-- The string takes the bytes and strings that follow it. -/
theorem mozSequenceConcat_equiv (s1 : List UInt8) (list : List Expr) :
    Exp.Equiv
      (.seq (Exp.word (mozSequenceConcat s1 list).1) (pegSequence (mozSequenceConcat s1 list).2.1))
      (.seq (Exp.word s1) (pegSequence list)) := by
  induction s1, list using mozSequenceConcat.induct with
  | case1 s1 byte list _ _ _ _ ih =>
    have hstep : mozSequenceConcat s1 (.byte byte :: list) =
        ((mozSequenceConcat (s1 ++ [byte]) list).1, (mozSequenceConcat (s1 ++ [byte]) list).2.1,
          .joined :: (mozSequenceConcat (s1 ++ [byte]) list).2.2) := rfl
    rw [hstep, pegSequence]
    exact ih.trans (seq_word_byte s1 byte _)
  | case2 s1 s2 list =>
    rw [mozSequenceConcat, pegSequence, Expr.peg]
    exact seq_word_word s1 s2 _
  | case3 s1 list h1 h2 =>
    rw [mozSequenceConcat]
    · exact .refl _
    · exact h1
    · exact h2

theorem bitsetGet_complement (set : Bitset) (c : UInt8) : bitsetGet (~~~set) c = !bitsetGet set c := by
  simp [bitsetGet, c.toNat_lt]

/-- The set in the place of `!b .`, on inputs where byte 0 makes no difference. -/
theorem complement_equiv {byte : UInt8} (hok : ∀ input, ok input → 0 ∈ input → byte = 0) :
    Exp.EquivOn ok (Expr.set (~~~putByte (putByte 0 byte) 0)).peg
      (.seq (Expr.not (.byte byte)).peg Expr.any.peg) := by
  have hone : Exp.EquivOn ok (.one (bitsetGet (~~~putByte (putByte 0 byte) 0)) : Exp UInt8 Nonterminal)
      (.one fun c => !(c == byte)) := by
    apply Exp.EquivOn.one
    intro input hinput c hc
    rw [bitsetGet_complement, bitsetGet_putByte, bitsetGet_putByte]
    by_cases hzero : c = 0
    · subst hzero
      simp [hok input hinput hc, bitsetGet]
    · simp [hzero, bitsetGet]
  simp only [Expr.peg]
  exact hone.trans (Exp.not_seq_one (· == byte)).symm.on

theorem mozSequenceLoop_flatten {seq list list' : List Expr} {child : Expr}
    (h : seq ++ list = child :: list') :
    mozSequenceLoop (.sequence seq :: list) =
      (child :: (mozSequenceLoop list').1, .flattened :: (mozSequenceLoop list').2) := by
  rw [mozSequenceLoop]
  split
  · next h' => cases h.symm.trans h'
  · next child' list'' h' =>
    obtain ⟨rfl, rfl⟩ := List.cons.inj (h.symm.trans h')
    rfl

/-- What the loop leaves has the results of the elements. -/
theorem mozSequenceLoop_equiv (list : List Expr)
    (hok : ∀ input, ok input → ZeroKept (mozSequenceLoop list).2 input) :
    Exp.EquivOn ok (pegSequence (mozSequenceLoop list).1) (pegSequence list) := by
  induction list using mozSequenceLoop.induct with
  | case1 =>
    rw [mozSequenceLoop]
    exact .refl _
  | case2 seq list h =>
    obtain ⟨rfl, rfl⟩ := List.append_eq_nil_iff.1 h
    rw [mozSequenceLoop, pegSequence, Expr.peg]
    exact Exp.empty_seq.symm.on
  | case3 seq list child list' h _ _ _ ih =>
    have hloop := mozSequenceLoop_flatten h
    rw [hloop] at hok ⊢
    have hrest := ih fun input hinput => (hok input hinput).mono fun byte => by simp
    have hflat := pegSequence_append seq list
    rw [h] at hflat
    rw [pegSequence, pegSequence, Expr.peg]
    rw [pegSequence] at hflat
    exact ((Exp.EquivOn.refl _).seq hrest).trans hflat.on
  | case4 b1 b2 list _ _ _ ih =>
    have hloop : mozSequenceLoop (.byte b1 :: .byte b2 :: list) =
        (.str [b1, b2] :: (mozSequenceLoop list).1, .joined :: (mozSequenceLoop list).2) := by
      rw [mozSequenceLoop]
    rw [hloop] at hok ⊢
    have hrest := ih fun input hinput => (hok input hinput).mono fun byte => by simp
    rw [pegSequence, pegSequence, pegSequence, Expr.peg]
    have hbytes := (seq_word_byte [b1] b2 (pegSequence list)).trans
      ((byte_peg b1).symm.seq (.refl _))
    exact ((Exp.EquivOn.refl _).seq hrest).trans hbytes.on
  | case5 s1 list _ _ _ ih =>
    have hloop : mozSequenceLoop (.str s1 :: list) =
        (.str (mozSequenceConcat s1 list).1 ::
            (mozSequenceLoop (mozSequenceConcat s1 list).2.1).1,
          (mozSequenceConcat s1 list).2.2 ++
            (mozSequenceLoop (mozSequenceConcat s1 list).2.1).2) := by
      rw [mozSequenceLoop]
    rw [hloop] at hok ⊢
    have hrest := ih fun input hinput => (hok input hinput).mono fun byte hbyte =>
      List.mem_append_right _ hbyte
    rw [pegSequence, pegSequence, Expr.peg, Expr.peg]
    exact ((Exp.EquivOn.refl _).seq hrest).trans (mozSequenceConcat_equiv s1 list).on
  | case6 byte list _ _ _ ih =>
    have hloop : mozSequenceLoop (.not (.byte byte) :: .any :: list) =
        (.set (~~~putByte (putByte 0 byte) 0) :: (mozSequenceLoop list).1,
          .complemented byte :: (mozSequenceLoop list).2) := by
      rw [mozSequenceLoop]
    rw [hloop] at hok ⊢
    have hrest := ih fun input hinput => (hok input hinput).mono fun byte => by simp +contextual
    have hset := @complement_equiv ok byte fun input hinput hzero =>
      hok input hinput hzero byte List.mem_cons_self
    rw [pegSequence, pegSequence, pegSequence]
    exact (hset.seq hrest).trans Exp.seq_assoc.on
  | case7 child list h1 h2 h3 h4 _ _ _ ih =>
    have hloop : mozSequenceLoop (child :: list) =
        (child :: (mozSequenceLoop list).1, (mozSequenceLoop list).2) := by
      rw [mozSequenceLoop] <;> assumption
    rw [hloop] at hok ⊢
    rw [pegSequence, pegSequence]
    exact (Exp.EquivOn.refl _).seq (ih hok)

theorem pegSequence_filter (list : List Expr) :
    Exp.Equiv (pegSequence (list.filter fun child => !isEmpty child)) (pegSequence list) := by
  induction list with
  | nil => exact .refl _
  | cons child list ih =>
    by_cases hempty : isEmpty child = true
    · have hpeg : child.peg = .empty := by
        cases child with
        | empty => rw [Expr.peg]
        | _ => exact Bool.noConfusion hempty
      rw [List.filter_cons_of_neg (by simp [hempty]), pegSequence, hpeg]
      exact ih.trans Exp.empty_seq.symm
    · rw [List.filter_cons_of_pos (by simp [hempty]), pegSequence, pegSequence]
      exact (Exp.Equiv.refl _).seq ih

theorem mozSequenceOptimize_cases (list : List Expr) :
    ∃ rewrites kept, kept = (mozSequenceLoop list).1.filter (fun child => !isEmpty child) ∧
      (∀ r ∈ (mozSequenceLoop list).2, r ∈ rewrites) ∧
      ((∃ child, kept = [child] ∧ mozSequenceOptimize list = (child, rewrites)) ∨
        mozSequenceOptimize list = (.sequence kept, rewrites)) := by
  cases hloop : mozSequenceLoop list with
  | mk list' rewrites =>
    simp only [mozSequenceOptimize, hloop]
    split
    · next child hone =>
      exact ⟨_, _, hone.symm, fun r hr => by simp [hr], .inl ⟨child, rfl, rfl⟩⟩
    · exact ⟨_, _, rfl, fun r hr => by simp [hr], .inr rfl⟩

theorem mozSequenceOptimize_equiv (list : List Expr)
    (hok : ∀ input, ok input → ZeroKept (mozSequenceOptimize list).2 input) :
    Exp.EquivOn ok (mozSequenceOptimize list).1.peg (pegSequence list) := by
  obtain ⟨rewrites, kept, hkept, hsub, hcases⟩ := mozSequenceOptimize_cases list
  have hrewrites : (mozSequenceOptimize list).2 = rewrites := by
    obtain ⟨child, -, h⟩ | h := hcases <;> rw [h]
  have hloop : Exp.EquivOn ok (pegSequence (mozSequenceLoop list).1) (pegSequence list) := by
    apply mozSequenceLoop_equiv
    intro input hinput
    rw [hrewrites] at hok
    exact (hok input hinput).mono fun byte => hsub _
  have hfilter := (pegSequence_filter (mozSequenceLoop list).1).on.trans hloop
  rw [← hkept] at hfilter
  obtain ⟨child, rfl, h⟩ | h := hcases
  · rw [h]
    rw [pegSequence, pegSequence] at hfilter
    exact Exp.seq_empty.symm.on.trans hfilter
  · rw [h, Expr.peg]
    exact hfilter

theorem mozChoiceOptimize_equiv (list : List Expr)
    (hnot : .merged true ∉ (mozChoiceOptimize list).2) :
    Exp.Equiv (mozChoiceOptimize list).1.peg (pegChoice list) := by
  unfold mozChoiceOptimize at hnot ⊢
  split
  · rw [pegChoice, pegChoice]
    exact Exp.choice_never.symm
  · next hone =>
    split_ifs with hmap
    · apply merged_equiv hmap
      by_contra hany
      rw [Bool.not_eq_false] at hany
      apply hnot
      simp [hmap, hany]
    · rw [Expr.peg]
      exact .refl _

/-- The rewrites of an expression whose nodes stay its own: no production's body is put into it, no
`Not` is merged, and the complements make no difference on the inputs. -/
structure Sound (ok : List UInt8 → Prop) (rewrites : List Rewrite) : Prop where
  inlined : ∀ decl, .inlined decl ∉ rewrites
  merged : .merged true ∉ rewrites
  zero : ∀ input, ok input → ZeroKept rewrites input

theorem Sound.left {rewrites rewrites' : List Rewrite} (h : Sound ok (rewrites ++ rewrites')) :
    Sound ok rewrites where
  inlined decl hdecl := h.inlined decl (List.mem_append_left _ hdecl)
  merged hmerged := h.merged (List.mem_append_left _ hmerged)
  zero input hinput := (h.zero input hinput).mono fun _ => List.mem_append_left _

theorem Sound.right {rewrites rewrites' : List Rewrite} (h : Sound ok (rewrites ++ rewrites')) :
    Sound ok rewrites' where
  inlined decl hdecl := h.inlined decl (List.mem_append_right _ hdecl)
  merged hmerged := h.merged (List.mem_append_right _ hmerged)
  zero input hinput := (h.zero input hinput).mono fun _ => List.mem_append_right _

theorem mozInvokeOptimize_sound (decls : List Decl) (decl : ℕ)
    (h : ∀ d, .inlined d ∉ (mozInvokeOptimize decls decl).2) :
    (mozInvokeOptimize decls decl).1 = .invoke decl := by
  unfold mozInvokeOptimize at h ⊢
  split
  · rfl
  · next d hd =>
    simp only [hd] at h
    split_ifs with hinline
    · exact absurd (by simp [hinline]) (h decl)
    · rfl

mutual

/-- Every function of the optimiser keeps the results of its expression. -/
theorem mozExprOptimize_equiv (decls : List Decl) (expr : Expr)
    (h : Sound ok (mozExprOptimize decls expr).2) :
    Exp.EquivOn ok (mozExprOptimize decls expr).1.peg expr.peg := by
  cases expr with
  | invoke decl =>
    rw [mozExprOptimize] at h ⊢
    rw [mozInvokeOptimize_sound decls decl h.inlined]
    exact .refl _
  | and expr =>
    have hstep : mozExprOptimize decls (.and expr) =
        (.and (mozExprOptimize decls expr).1, (mozExprOptimize decls expr).2) := by
      rw [mozExprOptimize]
    rw [hstep] at h ⊢
    simp only [Expr.peg]
    exact (mozExprOptimize_equiv decls expr h).and
  | not expr =>
    have hstep : mozExprOptimize decls (.not expr) =
        (.not (mozExprOptimize decls expr).1, (mozExprOptimize decls expr).2) := by
      rw [mozExprOptimize]
    rw [hstep] at h ⊢
    simp only [Expr.peg]
    exact (mozExprOptimize_equiv decls expr h).not
  | option expr =>
    have hstep : mozExprOptimize decls (.option expr) =
        (.option (mozExprOptimize decls expr).1, (mozExprOptimize decls expr).2) := by
      rw [mozExprOptimize]
    rw [hstep] at h ⊢
    simp only [Expr.peg]
    exact (mozExprOptimize_equiv decls expr h).option
  | choice list =>
    have hstep : mozExprOptimize decls (.choice list) =
        ((mozChoiceOptimize (mozListOptimize decls list).1).1, (mozListOptimize decls list).2 ++
          (mozChoiceOptimize (mozListOptimize decls list).1).2) := by
      rw [mozExprOptimize]
    rw [hstep] at h ⊢
    have hlist := (mozListOptimize_equiv decls list h.left).2
    rw [Expr.peg.eq_def (.choice list)]
    exact (mozChoiceOptimize_equiv _ h.right.merged).on.trans hlist
  | sequence list =>
    have hstep : mozExprOptimize decls (.sequence list) =
        ((mozSequenceOptimize (mozListOptimize decls list).1).1, (mozListOptimize decls list).2 ++
          (mozSequenceOptimize (mozListOptimize decls list).1).2) := by
      rw [mozExprOptimize]
    rw [hstep] at h ⊢
    have hlist := (mozListOptimize_equiv decls list h.left).1
    rw [Expr.peg.eq_def (.sequence list)]
    exact (mozSequenceOptimize_equiv _ h.right.zero).trans hlist
  | repetition list =>
    have hstep : mozExprOptimize decls (.repetition list) =
        (.repetition (mozListOptimize decls list).1, (mozListOptimize decls list).2) := by
      rw [mozExprOptimize]
    rw [hstep] at h ⊢
    simp only [Expr.peg]
    exact (mozListOptimize_equiv decls list h).1.star
  | _ =>
    rw [mozExprOptimize] <;> first
      | exact .refl _
      | simp

theorem mozListOptimize_equiv (decls : List Decl) (list : List Expr)
    (h : Sound ok (mozListOptimize decls list).2) :
    Exp.EquivOn ok (pegSequence (mozListOptimize decls list).1) (pegSequence list) ∧
      Exp.EquivOn ok (pegChoice (mozListOptimize decls list).1) (pegChoice list) := by
  cases list with
  | nil => 
    rw [mozListOptimize]
    exact ⟨.refl _, .refl _⟩
  | cons expr list =>
    have hlist : mozListOptimize decls (expr :: list) =
        ((mozExprOptimize decls expr).1 :: (mozListOptimize decls list).1,
          (mozExprOptimize decls expr).2 ++ (mozListOptimize decls list).2) := by
      rw [mozListOptimize]
    rw [hlist] at h ⊢
    have hexpr := mozExprOptimize_equiv decls expr h.left
    obtain ⟨hseq, hchoice⟩ := mozListOptimize_equiv decls list h.right
    simp only [pegSequence, pegChoice]
    exact ⟨hexpr.seq hseq, hexpr.choice hchoice⟩

end

end Loop

/-- A sequence whose nodes are its own keeps its results, on every input without byte 0 and, where
no `!b .` is replaced, on every input. -/
theorem sequence_rewriting (decls : List Decl) (list : List Expr)
    (G : Nonterminal → Exp UInt8 Nonterminal) (input : List UInt8) (p : ℕ) (o : Option ℕ)
    (hinlined : ∀ decl, .inlined decl ∉ (mozExprOptimize decls (.sequence list)).2)
    (hmerged : .merged true ∉ (mozExprOptimize decls (.sequence list)).2)
    (hzero : ZeroKept (mozExprOptimize decls (.sequence list)).2 input) :
    Derives G input (mozExprOptimize decls (.sequence list)).1.peg p o ↔
      Derives G input (Expr.sequence list).peg p o := by
  have hsound : Sound (· = input) (mozExprOptimize decls (.sequence list)).2 :=
    ⟨hinlined, hmerged, fun _ hinput => hinput ▸ hzero⟩
  exact mozExprOptimize_equiv decls (.sequence list) hsound G input p o rfl

/-- `'a' 'b' !'c' .` -/
def abNotC : List Expr :=
  [.byte 'a'.toUInt8, .byte 'b'.toUInt8, .not (.byte 'c'.toUInt8), .any]

theorem abNotC_optimized : mozExprOptimize [] (.sequence abNotC) =
    (.sequence [.str ['a'.toUInt8, 'b'.toUInt8], .set (~~~putByte (putByte 0 'c'.toUInt8) 0)],
      [.joined, .complemented 'c'.toUInt8]) := by
  simp [abNotC, mozExprOptimize, mozListOptimize, mozSequenceOptimize, mozSequenceLoop, isEmpty]

theorem sequence_rewriting_abNotC :
    Derives (fun _ => .empty) ("abd".toList.map Char.toUInt8)
        (mozExprOptimize [] (.sequence abNotC)).1.peg 0 (some 3) ↔
      Derives (fun _ => .empty) ("abd".toList.map Char.toUInt8) (Expr.sequence abNotC).peg 0
        (some 3) :=
  sequence_rewriting [] abNotC (fun _ => .empty) _ 0 (some 3) (by simp [abNotC_optimized])
    (by simp [abNotC_optimized]) (fun h => absurd h (by decide))

/-- The byte 0 is not the one `!` excludes. -/
theorem sequence_differs :
    ¬Exp.Equiv (mozExprOptimize [] (.sequence [.not (.byte 'c'.toUInt8), .any])).1.peg
      (Expr.sequence [.not (.byte 'c'.toUInt8), .any]).peg := by
  have hset : mozExprOptimize [] (.sequence [.not (.byte 'c'.toUInt8), .any]) =
      (.set (~~~putByte (putByte 0 'c'.toUInt8) 0), [.complemented 'c'.toUInt8, .collapsed]) := by
    simp [mozExprOptimize, mozListOptimize, mozSequenceOptimize, mozSequenceLoop, isEmpty]
  intro h
  have hone := h (fun _ => .empty) [0] 0 (some 1)
  have horiginal : Derives (fun _ => .empty) [0]
      (Expr.sequence [.not (.byte 'c'.toUInt8), .any]).peg 0 (some 1) := by
    have hfail : Derives (fun _ : Nonterminal => .empty) [0] (.one (· == 'c'.toUInt8)) 0 none := by
      apply Derives.oneFail
      intro c hc
      obtain rfl := Option.some.inj hc
      decide
    simp only [Expr.peg, pegSequence]
    exact .seq (.not hfail) (.seq (.one rfl rfl) (.empty 1))
  rw [hset] at hone
  have hleft := hone.2 horiginal
  simp only [Expr.peg] at hleft
  cases hleft with
  | one hc htest =>
    obtain rfl := Option.some.inj hc
    simp [bitsetGet_complement, bitsetGet_putByte] at htest

end Moz.Compiler
