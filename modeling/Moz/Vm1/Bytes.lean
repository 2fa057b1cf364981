import Moz.Core.Pstring
import Moz.Vm1.Machine
import Moz.Vm2.Machine

/-!
# Matching in the two machines

The twelve instructions that VM1 and VM2 have in common for a byte, a literal and a
class: match, do not match, match if possible, match as often as possible. VM1
reads the input through plain `char`, VM2 through `unsigned char`. They agree
unless plain `char` is signed and a byte from `0x80` on is tested for a byte or a
class.
-/

namespace Moz

open Compiler

inductive Mode
  | plain
  | negated
  | optional
  | repeated
  deriving DecidableEq, Repr

inductive Operand
  | byte (ch : UInt8)
  | str (strId : UInt16)
  | set (setId : UInt16)
  deriving DecidableEq, Repr

def vm1Inst : Mode → Operand → Vm1.Inst
  | .plain, .byte ch => .byte ch
  | .plain, .str strId => .str strId
  | .plain, .set setId => .set setId
  | .negated, .byte ch => .nByte ch
  | .negated, .str strId => .nStr strId
  | .negated, .set setId => .nSet setId
  | .optional, .byte ch => .oByte ch
  | .optional, .str strId => .oStr strId
  | .optional, .set setId => .oSet setId
  | .repeated, .byte ch => .rByte ch
  | .repeated, .str strId => .rStr strId
  | .repeated, .set setId => .rSet setId

def vm2Inst (fail : ℤ) : Mode → Operand → Vm2.Inst
  | .plain, .byte ch => .iByte fail ch
  | .plain, .str strId => .iStr fail strId
  | .plain, .set setId => .iSet fail setId
  | .negated, .byte ch => .iNByte fail ch
  | .negated, .str strId => .iNStr fail strId
  | .negated, .set setId => .iNSet fail setId
  | .optional, .byte ch => .iOByte ch
  | .optional, .str strId => .iOStr strId
  | .optional, .set setId => .iOSet setId
  | .repeated, .byte ch => .iRByte ch
  | .repeated, .str strId => .iRStr strId
  | .repeated, .set setId => .iRSet setId

variable (R : Runtime)

def vm1Test : Operand → ℕ → Option (Bool × ℕ)
  | .byte ch => Vm1.byteTest R ch
  | .str strId => Vm1.strTest R strId
  | .set setId => Vm1.setTest R setId

def vm2Test : Operand → ℕ → Option (Bool × ℕ)
  | .byte ch => Vm2.byteTest R ch
  | .str strId => Vm2.strTest R strId
  | .set setId => Vm2.setTest R setId

def unsignedTest : Operand → ℕ → Option (Bool × ℕ)
  | .byte ch, current => some ((R.byteAt current).toNat == ch.toNat, 1)
  | .str strId, current => (R.strs[strId.toNat]?).map fun str =>
    (str.zipIdx.all fun (c, i) => (R.byteAt (current + i)).toNat == c.toNat, str.length)
  | .set setId, current => (R.sets[setId.toNat]?).map fun set =>
    (set.getLsbD (R.byteAt current).toNat, 1)

def Mode.effect (test : ℕ → Option (Bool × ℕ)) (current : ℕ) : Mode → Effect
  | plain => accept test current
  | negated => reject test current
  | optional => moved (acceptOption test current)
  | repeated => moved (acceptWhile R test current)

/-- The two machines agree, and do so by comparing unsigned values: plain `char` is unsigned, or
the byte that is looked for is below `0x80` or not at the position, or each byte that is tested for
a class is below `0x80`. A loop over a class that holds all bytes to come never stops. -/
def Tame (current : ℕ) : Mode → Operand → Prop
  | _, .byte ch => R.charSigned = false ∨ ch < 0x80 ∨ R.byteAt current ≠ ch
  | _, .str _ => True
  | .repeated, .set setId => R.charSigned = false ∨ ∀ set, R.sets[setId.toNat]? = some set →
    (∀ i, bitsetGet set (R.byteAt (current + i))) ∨
      ∀ i, (∀ j < i, bitsetGet set (R.byteAt (current + j))) → R.byteAt (current + i) < 0x80
  | .plain, .set setId | .negated, .set setId | .optional, .set setId =>
    R.charSigned = false ∨ R.sets[setId.toNat]? = none ∨ R.byteAt current < 0x80

section Machines

variable {R} {mode : Mode} {operand : Operand} {current : ℕ}

theorem Vm1.Machine.move_eq (m : Vm1.Machine) (o : Option ℕ) : m.move o = m.effect (moved o) := by
  cases o <;> rfl

theorem Vm2.Machine.move_eq (m : Vm2.Machine) (fail : ℤ) (o : Option ℕ) :
    m.move o = m.effect fail (moved o) := by
  cases o <;> rfl

theorem vm1_exec_eq (m : Vm1.Machine) : Vm1.exec R m (vm1Inst mode operand) =
    m.effect (mode.effect R (vm1Test R operand) m.current) := by
  cases mode <;> cases operand <;> first | rfl | exact m.move_eq _

theorem vm2_exec_eq (m : Vm2.Machine) (fail : ℤ) : Vm2.exec R m (vm2Inst fail mode operand) =
    m.effect fail (mode.effect R (vm2Test R operand) m.current) := by
  cases mode <;> cases operand <;> first | rfl | exact m.move_eq fail _

theorem startsWith_eq (str : List UInt8) (n : ℕ) : R.startsWith (current + n) str =
    (str.zipIdx n).all fun (c, i) => (R.byteAt (current + i)).toNat == c.toNat := by
  induction str generalizing n with
  | nil => rfl
  | cons c str ih =>
    rw [Runtime.startsWith, List.zipIdx_cons, List.all_cons, add_assoc, ih]
    congr 1
    rw [Bool.eq_iff_iff, beq_iff_eq, beq_iff_eq, UInt8.toNat_inj]

theorem vm2Test_eq : vm2Test R operand = unsignedTest R operand := by
  funext current
  cases operand with
  | byte ch =>
    refine congrArg (fun b => some (b, 1)) ?_
    rw [Bool.eq_iff_iff, beq_iff_eq, beq_iff_eq, UInt8.toNat_inj]
  | str strId =>
    simp only [vm2Test, Vm2.strTest, unsignedTest]
    congr
    funext str
    rw [← startsWith_eq str 0, Nat.add_zero]
  | set setId => rfl

/-- A plain `char` is the byte if it is unsigned or the byte is below `0x80`. -/
theorem charAt_of_small (h : R.charSigned = false ∨ R.byteAt current < 0x80) :
    R.charAt current = (R.byteAt current).toNat := by
  unfold Runtime.charAt
  split_ifs with hsigned
  · rcases h with hfalse | hlt
    · simp [hfalse] at hsigned
    · rw [Core.toInt_toInt8, if_pos hlt]
  · rfl

theorem charAt_neg (hsigned : R.charSigned = true) (h : 0x80 ≤ R.byteAt current) :
    R.charAt current < 0 := by
  unfold Runtime.charAt
  have hlt := (R.byteAt current).toNat_lt
  rw [if_pos hsigned, Core.toInt_toInt8, if_neg (UInt8.not_lt.2 h)]
  omega

theorem vm1Test_eq (hsmall : R.charSigned = false ∨ R.byteAt current < 0x80) :
    vm1Test R operand current = vm2Test R operand current := by
  have hchar := charAt_of_small hsmall
  cases operand with
  | byte ch =>
    refine congrArg (fun b => some (b, 1)) ?_
    rw [Bool.eq_iff_iff, decide_eq_true_iff, beq_iff_eq, hchar, ← UInt8.toNat_inj]
    exact Nat.cast_inj
  | str strId => rfl
  | set setId =>
    simp only [vm1Test, vm2Test, Vm1.setTest, Vm2.setTest, Vm1.bitsetGetChar, hchar]
    cases R.sets[setId.toNat]? with
    | none => rfl
    | some set => simp

/-- A byte that is negative as a plain `char` is not found. -/
theorem vm1Test_byte {ch : UInt8} (hsigned : R.charSigned = true) (hch : 0x80 ≤ ch)
    (heq : R.byteAt current = ch) : vm1Test R (.byte ch) current = some (false, 1) := by
  have hneg := charAt_neg hsigned (heq ▸ hch)
  refine congrArg (fun b => some (b, 1)) ?_
  rw [decide_eq_false_iff_not]
  omega

theorem vm1Test_set {setId : UInt16} (hsigned : R.charSigned = true)
    (h : 0x80 ≤ R.byteAt current) : vm1Test R (.set setId) current = none := by
  have hneg := charAt_neg hsigned h
  simp only [vm1Test, Vm1.setTest, Vm1.bitsetGetChar]
  cases R.sets[setId.toNat]? with
  | none => rfl
  | some set => simp [not_le.2 hneg]

theorem vm2Test_set {setId : UInt16} {set : Bitset} (hset : R.sets[setId.toNat]? = some set)
    (current : ℕ) :
    vm2Test R (.set setId) current = some (bitsetGet set (R.byteAt current), 1) := by
  simp [vm2Test, Vm2.setTest, hset]

theorem vm1Test_set_iff {setId : UInt16} (hsigned : R.charSigned = true) (b : Bool) (w : ℕ) :
    vm1Test R (.set setId) current = some (b, w) ↔
      R.byteAt current < 0x80 ∧ vm2Test R (.set setId) current = some (b, w) := by
  by_cases hlt : R.byteAt current < 0x80
  · rw [vm1Test_eq (.inr hlt), and_iff_right hlt]
  · rw [vm1Test_set hsigned (UInt8.not_lt.1 hlt)]
    simp [hlt]

end Machines

section Loop

variable {R} {test : ℕ → Option (Bool × ℕ)} {current stop fuel : ℕ}

/-- A loop with steps of one byte stops at the first position where the test fails. -/
theorem acceptLoop_eq_some_iff (hwidth : ∀ p b w, test p = some (b, w) → w = 1) :
    acceptLoop test fuel current = some stop ↔ ∃ i < fuel, stop = current + i ∧
      (∀ j < i, test (current + j) = some (true, 1)) ∧ test (current + i) = some (false, 1) := by
  induction fuel generalizing current with
  | zero =>
    refine iff_of_false (by simp [acceptLoop]) ?_
    rintro ⟨i, hi, -⟩
    omega
  | succ fuel ih =>
    rw [acceptLoop]
    cases htest : test current with
    | none =>
      refine iff_of_false (by simp) ?_
      rintro ⟨i, -, -, hbefore, hstop⟩
      cases i with
      | zero => simp [htest] at hstop
      | succ i =>
        have hfirst := hbefore 0 (Nat.succ_pos i)
        simp [htest] at hfirst
    | some result =>
      obtain ⟨b, w⟩ := result
      obtain rfl := hwidth _ _ _ htest
      cases b with
      | false =>
        constructor
        · intro h
          cases h
          exact ⟨0, Nat.succ_pos _, rfl, fun j hj => absurd hj (Nat.not_lt_zero j), htest⟩
        · rintro ⟨i, -, rfl, hbefore, -⟩
          cases i with
          | zero => rfl
          | succ i =>
            have hfirst := hbefore 0 (Nat.succ_pos i)
            simp [htest] at hfirst
      | true =>
        simp only
        rw [ih]
        constructor
        · rintro ⟨i, hi, rfl, hbefore, hstop⟩
          refine ⟨i + 1, by omega, by omega, fun j hj => ?_, ?_⟩
          · cases j with
            | zero => exact htest
            | succ j =>
              have h := hbefore j (by omega)
              rwa [show current + 1 + j = current + (j + 1) by omega] at h
          · rwa [show current + 1 + i = current + (i + 1) by omega] at hstop
        · rintro ⟨i, hi, rfl, hbefore, hstop⟩
          cases i with
          | zero => simp [htest] at hstop
          | succ i =>
            refine ⟨i, by omega, by omega, fun j hj => ?_, ?_⟩
            · rw [show current + 1 + j = current + (j + 1) by omega]
              exact hbefore (j + 1) (by omega)
            · rwa [show current + 1 + i = current + (i + 1) by omega]

variable {setId : UInt16} {set : Bitset}

/-- Behind the input all bytes are zero, so a loop that leaves the input never stops. -/
theorem byteAt_of_tail_le {p : ℕ} (h : R.tail ≤ p) : R.byteAt p = 0 := by
  unfold Runtime.byteAt
  rw [List.getElem?_eq_none h]
  rfl

theorem vm2_loop_iff (hset : R.sets[setId.toNat]? = some set) :
    acceptWhile R (vm2Test R (.set setId)) current = some stop ↔ ∃ i, stop = current + i ∧
      (∀ j < i, bitsetGet set (R.byteAt (current + j))) ∧
        bitsetGet set (R.byteAt (current + i)) = false := by
  unfold acceptWhile
  rw [acceptLoop_eq_some_iff fun p b w h => by
    rw [vm2Test_set hset] at h
    cases h
    rfl]
  simp only [vm2Test_set hset, Option.some.injEq, Prod.mk.injEq, and_true]
  constructor
  · rintro ⟨i, -, h⟩
    exact ⟨i, h⟩
  · rintro ⟨i, hstop, hbefore, hout⟩
    refine ⟨i, ?_, hstop, hbefore, hout⟩
    by_contra hge
    have hlast := hbefore (R.tail + 1) (by omega)
    rw [byteAt_of_tail_le (by omega)] at hlast hout
    rw [hlast] at hout
    cases hout

theorem vm1_loop_iff (hset : R.sets[setId.toNat]? = some set) (hsigned : R.charSigned = true) :
    acceptWhile R (vm1Test R (.set setId)) current = some stop ↔ ∃ i, stop = current + i ∧
      (∀ j < i, R.byteAt (current + j) < 0x80 ∧ bitsetGet set (R.byteAt (current + j))) ∧
        R.byteAt (current + i) < 0x80 ∧ bitsetGet set (R.byteAt (current + i)) = false := by
  unfold acceptWhile
  rw [acceptLoop_eq_some_iff fun p b w h => by
    rw [vm1Test_set_iff hsigned, vm2Test_set hset] at h
    cases h.2
    rfl]
  simp only [vm1Test_set_iff hsigned, vm2Test_set hset, Option.some.injEq, Prod.mk.injEq,
    and_true]
  constructor
  · rintro ⟨i, -, h⟩
    exact ⟨i, h⟩
  · rintro ⟨i, hstop, hbefore, hsmall, hout⟩
    refine ⟨i, ?_, hstop, hbefore, hsmall, hout⟩
    by_contra hge
    have hlast := (hbefore (R.tail + 1) (by omega)).2
    rw [byteAt_of_tail_le (by omega)] at hlast hout
    rw [hlast] at hout
    cases hout

end Loop

section Agreement

variable {R} {current : ℕ}

theorem Mode.effect_congr {test test' : ℕ → Option (Bool × ℕ)} {mode : Mode}
    (hmode : mode ≠ .repeated) (h : test current = test' current) :
    mode.effect R test current = mode.effect R test' current := by
  cases mode with
  | plain => simp only [Mode.effect, accept, h]
  | negated => simp only [Mode.effect, reject, h]
  | optional => simp only [Mode.effect, acceptOption, h]
  | repeated => exact absurd rfl hmode

/-- With unsigned `char`s the tests are the same. -/
theorem vm1Test_of_unsigned (h : R.charSigned = false) (operand : Operand) :
    vm1Test R operand = vm2Test R operand :=
  funext fun _ => vm1Test_eq (.inl h)

theorem moved_inj {o o' : Option ℕ} : moved o = moved o' ↔ o = o' := by
  cases o <;> cases o' <;> simp [moved]

theorem agree_byte (mode : Mode) (ch : UInt8) :
    mode.effect R (vm1Test R (.byte ch)) current = mode.effect R (vm2Test R (.byte ch)) current ↔
      Tame R current mode (.byte ch) := by
  have htame : Tame R current mode (.byte ch) ↔
      R.charSigned = false ∨ ch < 0x80 ∨ R.byteAt current ≠ ch := by cases mode <;> rfl
  rw [htame]
  have hfound : vm2Test R (.byte ch) current = some (decide (R.byteAt current = ch), 1) := rfl
  constructor
  · intro heq
    by_contra hnot
    push Not at hnot
    obtain ⟨hsigned, hch, hbyte⟩ := hnot
    have hsigned' : R.charSigned = true := by simpa using hsigned
    have h₁ := vm1Test_byte hsigned' (UInt8.not_lt.1 hch) hbyte
    rw [hbyte, decide_eq_true rfl] at hfound
    cases mode with
    | plain => simp [Mode.effect, accept, h₁, hfound] at heq
    | negated => simp [Mode.effect, reject, h₁, hfound] at heq
    | optional => simp [Mode.effect, acceptOption, h₁, hfound, moved] at heq
    | repeated =>
      have hloop : acceptWhile R (vm2Test R (.byte ch)) current = some current := by
        rw [← moved_inj.1 heq, acceptWhile, acceptLoop, h₁]
      rw [acceptWhile, acceptLoop, hfound] at hloop
      have hle := acceptLoop_le hloop
      omega
  · rintro (hunsigned | hsmall | hne)
    · rw [vm1Test_of_unsigned hunsigned]
    · have heq : vm1Test R (.byte ch) = vm2Test R (.byte ch) := by
        funext p
        by_cases hlt : R.byteAt p < 0x80
        · exact vm1Test_eq (.inr hlt)
        · have hge := UInt8.not_lt.1 hlt
          have hne : R.byteAt p ≠ ch := fun h => UInt8.not_lt.2 hge (h ▸ hsmall)
          cases hsigned : R.charSigned with
          | false => exact vm1Test_eq (.inl hsigned)
          | true =>
            have hneg := charAt_neg hsigned hge
            refine congrArg (fun b => some (b, 1)) ?_
            rw [decide_eq_false (by omega)]
            simpa using hne
      rw [heq]
    · have h₁ : vm1Test R (.byte ch) current = vm2Test R (.byte ch) current := by
        cases hsigned : R.charSigned with
        | false => exact vm1Test_eq (.inl hsigned)
        | true =>
          by_cases hlt : R.byteAt current < 0x80
          · exact vm1Test_eq (.inr hlt)
          · have hneg := charAt_neg hsigned (UInt8.not_lt.1 hlt)
            refine congrArg (fun b => some (b, 1)) ?_
            rw [decide_eq_false (by omega)]
            simpa using hne
      by_cases hmode : mode = .repeated
      · rw [hmode]
        refine congrArg moved ?_
        unfold acceptWhile
        rw [acceptLoop, acceptLoop, h₁, hfound, decide_eq_false hne]
      · exact Mode.effect_congr hmode h₁

theorem agree_set (mode : Mode) (hmode : mode ≠ .repeated) (setId : UInt16) :
    mode.effect R (vm1Test R (.set setId)) current =
        mode.effect R (vm2Test R (.set setId)) current ↔
      R.charSigned = false ∨ R.sets[setId.toNat]? = none ∨ R.byteAt current < 0x80 := by
  constructor
  · intro heq
    by_contra hnot
    push Not at hnot
    obtain ⟨hsigned, hsome, hge⟩ := hnot
    obtain ⟨set, hset⟩ := Option.ne_none_iff_exists'.1 hsome
    have hsigned' : R.charSigned = true := by simpa using hsigned
    have h₁ : vm1Test R (.set setId) current = none := vm1Test_set hsigned' (UInt8.not_lt.1 hge)
    have h₂ := vm2Test_set hset current
    cases mode with
    | plain =>
      simp only [Mode.effect, accept, h₁, h₂] at heq
      cases h : bitsetGet set (R.byteAt current) <;> simp [h] at heq
    | negated =>
      simp only [Mode.effect, reject, h₁, h₂] at heq
      cases h : bitsetGet set (R.byteAt current) <;> simp [h] at heq
    | optional =>
      simp only [Mode.effect, acceptOption, h₁, h₂] at heq
      cases h : bitsetGet set (R.byteAt current) <;> simp [h, moved] at heq
    | repeated => exact hmode rfl
  · rintro (hunsigned | hnone | hsmall)
    · rw [vm1Test_of_unsigned hunsigned]
    · refine Mode.effect_congr hmode ?_
      simp [vm1Test, vm2Test, Vm1.setTest, Vm2.setTest, hnone]
    · exact Mode.effect_congr hmode (vm1Test_eq (.inr hsmall))

theorem agree_set_loop (setId : UInt16) :
    Mode.repeated.effect R (vm1Test R (.set setId)) current =
        Mode.repeated.effect R (vm2Test R (.set setId)) current ↔
      Tame R current .repeated (.set setId) := by
  show moved _ = moved _ ↔ _ ∨ _
  rw [moved_inj]
  cases hsigned : R.charSigned with
  | false => simp [vm1Test_of_unsigned hsigned]
  | true =>
    cases hset : R.sets[setId.toNat]? with
    | none =>
      simp only [reduceCtorEq, false_or, IsEmpty.forall_iff, implies_true, iff_true]
      unfold acceptWhile
      rw [acceptLoop, acceptLoop]
      simp [vm1Test, vm2Test, Vm1.setTest, Vm2.setTest, hset]
    | some set =>
      have h₁ := fun stop => @vm1_loop_iff R current stop setId set hset hsigned
      have h₂ := fun stop => @vm2_loop_iff R current stop setId set hset
      simp only [Bool.true_eq_false, false_or, Option.some.injEq, forall_eq']
      constructor
      · intro heq
        by_contra hnot
        push Not at hnot
        obtain ⟨⟨k, hk⟩, i, hbefore, hge⟩ := hnot
        -- the first byte outside the class ends the loop of VM2
        obtain ⟨n, hn, hfirst⟩ : ∃ n, bitsetGet set (R.byteAt (current + n)) = false ∧
            ∀ j < n, bitsetGet set (R.byteAt (current + j)) := by
          have hex : ∃ n, bitsetGet set (R.byteAt (current + n)) = false := ⟨k, by simpa using hk⟩
          exact ⟨Nat.find hex, Nat.find_spec hex, fun j hj => by simpa using Nat.find_min hex hj⟩
        have hstop := (h₂ (current + n)).2 ⟨n, rfl, hfirst, hn⟩
        rw [← heq] at hstop
        obtain ⟨n', hn', hsmall, hlast, -⟩ := (h₁ _).1 hstop
        obtain rfl : n = n' := by omega
        rcases lt_trichotomy i n with hlt | rfl | hgt
        · exact hge (hsmall i hlt).1
        · exact hge hlast
        · exact absurd (hbefore n hgt) (by simp [hn])
      · rintro (hall | hsmall)
        · have hnone₂ : acceptWhile R (vm2Test R (.set setId)) current = none := by
            refine Option.eq_none_iff_forall_ne_some.2 fun stop hstop => ?_
            obtain ⟨i, -, -, hout⟩ := (h₂ stop).1 hstop
            simp [hall i] at hout
          have hnone₁ : acceptWhile R (vm1Test R (.set setId)) current = none := by
            refine Option.eq_none_iff_forall_ne_some.2 fun stop hstop => ?_
            obtain ⟨i, -, -, -, hout⟩ := (h₁ stop).1 hstop
            simp [hall i] at hout
          rw [hnone₁, hnone₂]
        · refine Option.ext fun stop => ?_
          rw [h₁, h₂]
          constructor
          · rintro ⟨i, hstop, hbefore, -, hout⟩
            exact ⟨i, hstop, fun j hj => (hbefore j hj).2, hout⟩
          · rintro ⟨i, hstop, hbefore, hout⟩
            exact ⟨i, hstop, fun j hj => ⟨hsmall j fun k hk => hbefore k (by omega), hbefore j hj⟩,
              hsmall i hbefore, hout⟩

/-- Both machines do what the unsigned comparison gives in exactly the tame cases; VM2 always
does. -/
theorem bytes_agree_iff (R : Runtime) (mode : Mode) (operand : Operand) (m₁ : Vm1.Machine)
    (m₂ : Vm2.Machine) (fail : ℤ) : ∃ e₁ e₂,
      Vm1.exec R m₁ (vm1Inst mode operand) = m₁.effect e₁ ∧
      Vm2.exec R { m₂ with current := m₁.current } (vm2Inst fail mode operand) =
        ({ m₂ with current := m₁.current } : Vm2.Machine).effect fail e₂ ∧
      e₂ = mode.effect R (unsignedTest R operand) m₁.current ∧
      (e₁ = e₂ ↔ Tame R m₁.current mode operand) := by
  refine ⟨_, _, vm1_exec_eq m₁, vm2_exec_eq _ fail, by rw [vm2Test_eq], ?_⟩
  cases operand with
  | byte ch => exact agree_byte mode ch
  | str strId => exact iff_of_true rfl (by cases mode <;> trivial)
  | set setId =>
    cases mode with
    | plain => exact agree_set .plain (by decide) setId
    | negated => exact agree_set .negated (by decide) setId
    | optional => exact agree_set .optional (by decide) setId
    | repeated => exact agree_set_loop setId

/-- `Byte 0x80` on the byte `0x80`: VM1 fails, VM2 matches. -/
theorem byte_128_differs : ∃ (m₁ : Vm1.Machine) (m₂ : Vm2.Machine), m₁.current = m₂.current ∧
    Vm1.exec { input := [0x80] } m₁ (vm1Inst .plain (.byte 0x80)) = some (.failed m₁) ∧
    Vm2.exec { input := [0x80] } m₂ (vm2Inst 1 .plain (.byte 0x80)) =
      some (.next { m₂ with current := 1 }) :=
  ⟨⟨0, 15, 15, 0, 0, fun _ => 0, {}, {}, {}⟩, ⟨0, 15, 15, 0, fun _ => 0, {}, {}, {}⟩, rfl, rfl, rfl⟩

end Agreement

end Moz
