import Moz.Libnez.MemoSize

/-!
# What a hit in the memo table says

A slot holds what was last recorded in it. The hash of an entry tells its position
and its id, so a hit is the last record for them, if the state that the entry has is
the one of the instruction. `memo_fail` leaves the state of the entry as it is.
-/

namespace Moz

/-- A call that an instruction makes at the input position `pos` with its operand `state`. -/
inductive MemoCall
  | set (pos : ℕ) (memoId : UInt32) (state : UInt8) (result : Option NodeId) (consumed : UInt32)
  | fail (pos : ℕ) (memoId : UInt32) (state : UInt8)

@[ext]
structure MemoKey where
  pos : ℕ
  memoId : UInt32
  state : UInt8
  deriving DecidableEq

namespace MemoCall

/-- `memo_set` of `Memo` and `TMemo`, `memo_fail` of `MemoFail`, for the input at `head`. -/
def run (head : UInt64) (m : Memo) (heap : Heap) : MemoCall → Option (Memo × Heap)
  | .set pos memoId state result consumed =>
    memoSet m heap (head + UInt64.ofNat pos) memoId result consumed state.toUInt32
  | .fail pos memoId _ => memoFail m heap (head + UInt64.ofNat pos) memoId

def key : MemoCall → MemoKey
  | .set pos memoId state _ _ => ⟨pos, memoId, state⟩
  | .fail pos memoId state => ⟨pos, memoId, state⟩

def Recorded (e : MemoEntry) : MemoCall → Prop
  | .set _ _ _ result consumed =>
    e.result = result.elim .null MemoResult.result ∧ e.consumed = consumed
  | .fail _ _ _ => e.result = .failed

end MemoCall

/-- The id is below `n` and the position in an input of `len` bytes, or at its end. -/
structure MemoKey.Inside (n : UInt32) (len : ℕ) (k : MemoKey) : Prop where
  memoId : k.memoId < n
  pos : k.pos ≤ len

namespace Memo

variable {m : Memo} {head : UInt64}

def hashOf (m : Memo) (head : UInt64) (k : MemoKey) : UInt64 :=
  m.hash (head + UInt64.ofNat k.pos) k.memoId

def slot (m : Memo) (head : UInt64) (k : MemoKey) : ℕ :=
  m.index (head + UInt64.ofNat k.pos) k.memoId

/-- The slot of the call has the state of its operand, if the call does not store the state. -/
def HasState (head : UInt64) (m : Memo) : MemoCall → Prop
  | .set _ _ _ _ _ => True
  | .fail pos memoId state => ∀ e, m.ary[m.slot head ⟨pos, memoId, state⟩]? = some e →
    e.state = state.toUInt32

/-- The shifted addresses of an input of `len` bytes at `head` fit 64 bits, and none is null. -/
structure Addressable (shift : ℕ) (head : UInt64) (len : ℕ) : Prop where
  length : len < 2 ^ (64 - shift)
  nonzero : ∀ pos ≤ len, (head + UInt64.ofNat pos).toNat % 2 ^ (64 - shift) ≠ 0

/-- Calls one after the other, the last one first; between them the nodes may change. -/
inductive Run (head : UInt64) (n : UInt32) (len : ℕ) (meets : Memo → MemoCall → Prop) (m₀ : Memo) :
    List MemoCall → Memo → Prop
  | nil : Run head n len meets m₀ [] m₀
  | cons {calls : List MemoCall} {m m' : Memo} {call : MemoCall} {heap heap' : Heap}
      (h : Run head n len meets m₀ calls m) (hinside : call.key.Inside n len)
      (hmeets : meets m call) (hcall : call.run head m heap = some (m', heap')) :
      Run head n len meets m₀ (call :: calls) m'

end Memo

section Hash

variable {m : Memo}

theorem Memo.hashOf_inj {head : UInt64} {n : UInt32} {len : ℕ} {k k' : MemoKey}
    (hm : m.shift = ceilLog2 n + 1) (haddr : Addressable m.shift.toNat head len) (hk : k.Inside n len)
    (hk' : k'.Inside n len) (h : m.hashOf head k = m.hashOf head k') :
    k.pos = k'.pos ∧ k.memoId = k'.memoId :=
  Memo.hash_inj hm haddr.length hk.pos hk'.pos hk.memoId hk'.memoId h

/-- No question has the hash of an entry in which nothing is recorded. -/
theorem Memo.hashOf_ne_zero {head : UInt64} {n : UInt32} {len : ℕ} {k : MemoKey}
    (hm : m.shift = ceilLog2 n + 1) (haddr : Addressable m.shift.toNat head len) (hk : k.Inside n len) :
    m.hashOf head k ≠ 0 := by
  intro h
  have hshift : m.shift.toNat < 64 := hm ▸ shift_lt n
  have hid : k.memoId.toNat < 2 ^ m.shift.toNat := hm ▸ lt_two_pow_shift hk.memoId
  have hnat := congrArg UInt64.toNat h
  unfold Memo.hashOf at hnat
  rw [Memo.hash_toNat hshift hid] at hnat
  have hzero : 2 ^ m.shift.toNat *
      ((head + UInt64.ofNat k.pos).toNat % 2 ^ (64 - m.shift.toNat)) = 0 := by
    have htoNat : UInt64.toNat 0 = 0 := rfl
    omega
  obtain hpow | hpos := Nat.mul_eq_zero.1 hzero
  · exact absurd hpow (Nat.two_pow_pos _).ne'
  · exact haddr.nonzero k.pos hk.pos hpos

end Hash

section Slot

variable {m m' : Memo} {head : UInt64} {n : UInt32} {len : ℕ} {calls : List MemoCall}
  {call : MemoCall} {heap heap' : Heap}

theorem MemoCall.run_inv (h : call.run head m heap = some (m', heap')) (hstate : m.HasState head call) :
    ∃ e, m' = { m with ary := m.ary.set (m.slot head call.key) e } ∧
      e.hash = m.hashOf head call.key ∧ e.state = call.key.state.toUInt32 ∧ call.Recorded e := by
  cases call with
  | set pos memoId state result consumed =>
    obtain ⟨old, hold, h⟩ := Option.bind_eq_some_iff.1 h
    obtain ⟨heap₁, -, h⟩ := Option.bind_eq_some_iff.1 h
    obtain ⟨rfl, -⟩ := Prod.mk.inj (Option.some.inj h)
    refine ⟨_, rfl, rfl, rfl, ?_, rfl⟩
    cases result <;> rfl
  | fail pos memoId state =>
    obtain ⟨old, hold, h⟩ := Option.bind_eq_some_iff.1 h
    obtain ⟨heap₁, -, h⟩ := Option.bind_eq_some_iff.1 h
    obtain ⟨rfl, -⟩ := Prod.mk.inj (Option.some.inj h)
    exact ⟨_, rfl, rfl, hstate old hold, rfl⟩

/-- Each entry is empty, or says what the last call for its slot recorded. -/
def Memo.Holds (head : UInt64) (n : UInt32) (len : ℕ) (calls : List MemoCall) (m : Memo) : Prop :=
  ∀ idx e, m.ary[idx]? = some e → e.hash = 0 ∨
    ∃ call, calls.find? (fun c => m.slot head c.key = idx) = some call ∧ call.key.Inside n len ∧
      e.hash = m.hashOf head call.key ∧ e.state = call.key.state.toUInt32 ∧ call.Recorded e

theorem memoTable_holds (w n : UInt32) : (memoTable w n).Holds head n len [] := by
  intro idx e he
  have hmem : e ∈ List.replicate (w * (1 <<< ceilLog2 n)).toNat ({} : MemoEntry) := List.mem_of_getElem? he
  obtain rfl := List.eq_of_mem_replicate hmem
  exact .inl rfl

theorem Memo.Holds.step (h : m.Holds head n len calls) (hinside : call.key.Inside n len)
    (hstate : m.HasState head call) (hcall : call.run head m heap = some (m', heap')) :
    m'.Holds head n len (call :: calls) := by
  obtain ⟨e, rfl, hhash, hestate, hrecorded⟩ := MemoCall.run_inv hcall hstate
  intro idx e' he'
  by_cases hidx : m.slot head call.key = idx
  · subst hidx
    obtain ⟨hlt, hset⟩ := List.getElem?_eq_some_iff.1 he'
    rw [List.getElem_set_self] at hset
    subst hset
    right
    refine ⟨call, ?_, hinside, hhash, hestate, hrecorded⟩
    rw [List.find?_cons_of_pos]
    exact decide_eq_true rfl
  · have hsame : m.ary[idx]? = some e' := by
      rw [← he']
      exact (List.getElem?_set_ne hidx).symm
    obtain hzero | ⟨call', hfind, hrest⟩ := h idx e' hsame
    · exact .inl hzero
    · right
      refine ⟨call', ?_, hrest⟩
      rw [List.find?_cons_of_neg]
      · exact hfind
      · exact fun heq => hidx (of_decide_eq_true heq)

theorem Memo.Run.holds {w : UInt32} (h : Memo.Run head n len (Memo.HasState head) (memoTable w n) calls m) :
    m.Holds head n len calls ∧ m.shift = ceilLog2 n + 1 := by
  induction h with
  | nil => exact ⟨memoTable_holds w n, rfl⟩
  | cons _ hinside hmeets hcall ih =>
    obtain ⟨e, rfl, -⟩ := MemoCall.run_inv hcall hmeets
    exact ⟨ih.1.step hinside hmeets hcall, ih.2⟩

end Slot

theorem find?_of_imp {α : Type} {p q : α → Bool} {l : List α} {a : α} (h : l.find? p = some a)
    (himp : ∀ x, q x → p x) (ha : q a) : l.find? q = some a := by
  obtain ⟨-, pre, post, rfl, hpre⟩ := List.find?_eq_some_iff_append.1 h
  apply List.find?_eq_some_iff_append.2
  refine ⟨ha, pre, post, rfl, ?_⟩
  intro x hx
  have hnot := hpre x hx
  simp only [Bool.not_eq_true', ← Bool.not_eq_true] at hnot ⊢
  exact fun hq => hnot (himp x hq)

/-- A hit is what was recorded last for the same question. -/
def Memo.HitsRecorded (head : UInt64) (n : UInt32) (len : ℕ) (calls : List MemoCall) (m : Memo) : Prop :=
  ∀ (k : MemoKey) (e : MemoEntry), k.Inside n len →
    memoGet m (head + UInt64.ofNat k.pos) k.memoId k.state = some e →
      ∃ call, calls.find? (fun c => c.key = k) = some call ∧ call.Recorded e

/-- With `memo_init` defined every hit is what the last call for the same question recorded. -/
theorem hits_recorded {head : UInt64} {w n : UInt32} {len : ℕ} {calls : List MemoCall} {m₀ m : Memo}
    (hinit : memoElasticInit w n = some m₀) (haddr : Memo.Addressable m₀.shift.toNat head len)
    (h : Memo.Run head n len (Memo.HasState head) m₀ calls m) : m.HitsRecorded head n len calls := by
  intro k e hk hget
  obtain ⟨-, -, rfl⟩ := memoElasticInit_eq_some hinit
  obtain ⟨hholds, hshift⟩ := h.holds
  have haddr : Memo.Addressable m.shift.toNat head len := hshift ▸ haddr
  obtain ⟨e', he', hmatch⟩ := Option.bind_eq_some_iff.1 hget
  split_ifs at hmatch with hmatch'
  obtain rfl := Option.some.inj hmatch
  obtain ⟨hhash, hstate⟩ := hmatch'
  have hhash' : e'.hash = m.hashOf head k := hhash
  obtain hzero | ⟨call, hfind, hinside, hcall, hcallState, hrecorded⟩ := hholds _ e' he'
  · rw [hzero] at hhash'
    exact absurd hhash'.symm (Memo.hashOf_ne_zero hshift haddr hk)
  · obtain ⟨hpos, hid⟩ := Memo.hashOf_inj hshift haddr hinside hk (hcall.symm.trans hhash')
    have hkey : call.key = k := by
      rw [hcallState] at hstate
      exact MemoKey.ext hpos hid (UInt8.toUInt32_inj.1 hstate)
    refine ⟨call, find?_of_imp hfind ?_ (decide_eq_true hkey), hrecorded⟩
    intro c hc
    rw [of_decide_eq_true hc]
    exact decide_eq_true rfl

/-- Two questions of state 3 that have one slot: the failure takes the place of the success. -/
def collidingCalls : List MemoCall := [.fail 16 1 3, .set 0 1 3 none 5]

/-- The failure finds the state of its own operand in the slot, and it is what is found there. -/
theorem hits_recorded_colliding : ∃ m₀ m : Memo, memoElasticInit 32 2 = some m₀ ∧
    Memo.Run 4096 2 16 (Memo.HasState 4096) m₀ collidingCalls m ∧
    m.slot 4096 ⟨0, 1, 3⟩ = m.slot 4096 ⟨16, 1, 3⟩ ∧
    (memoGet m (4096 + UInt64.ofNat 0) 1 3 = none) ∧
    (∃ e, memoGet m (4096 + UInt64.ofNat 16) 1 3 = some e ∧ e.result = .failed) ∧
    m.HitsRecorded 4096 2 16 collidingCalls := by
  have hinit : memoElasticInit 32 2 = some (memoTable 32 2) := memoElasticInit_eq (by decide) (by decide)
  have haddr : Memo.Addressable (memoTable 32 2).shift.toNat 4096 16 := ⟨by decide, by decide⟩
  have hset := @Memo.Run.cons 4096 2 16 (Memo.HasState 4096) (memoTable 32 2) [] _ _
    (.set 0 1 3 none 5) {} {} .nil ⟨by decide, by decide⟩ trivial rfl
  have hrun := @Memo.Run.cons 4096 2 16 (Memo.HasState 4096) (memoTable 32 2) _ _ _
    (.fail 16 1 3) {} {} hset ⟨by decide, by decide⟩ (fun e he => by rw [← Option.some.inj he]) rfl
  exact ⟨_, _, hinit, hrun, rfl, rfl, ⟨_, rfl, rfl⟩, hits_recorded hinit haddr hrun⟩

/-- A failure for the state 1 is a hit for the state 0 of the empty entry. -/
theorem failure_for_other_state : ¬ ∀ (head : UInt64) (w n : UInt32) (len : ℕ)
    (calls : List MemoCall) (m₀ m : Memo), memoElasticInit w n = some m₀ →
    Memo.Addressable m₀.shift.toNat head len →
    Memo.Run head n len (fun _ _ => True) m₀ calls m → m.HitsRecorded head n len calls := by
  intro hclaim
  have hinit : memoElasticInit 32 4 = some (memoTable 32 4) := memoElasticInit_eq (by decide) (by decide)
  obtain ⟨m, hrun, e, hget⟩ : ∃ m, Memo.Run 4096 4 1 (fun _ _ => True) (memoTable 32 4) [.fail 0 1 1] m ∧
      ∃ e, memoGet m (4096 + UInt64.ofNat 0) 1 0 = some e :=
    ⟨_, @Memo.Run.cons 4096 4 1 _ _ [] _ _ _ {} {} .nil ⟨by decide, by decide⟩ trivial rfl, _, rfl⟩
  have haddr : Memo.Addressable (memoTable 32 4).shift.toNat 4096 1 := ⟨by decide, by decide⟩
  obtain ⟨call, hfind, -⟩ :=
    hclaim 4096 32 4 1 _ _ m hinit haddr hrun ⟨0, 1, 0⟩ e ⟨by decide, by decide⟩ hget
  have hnone : [MemoCall.fail 0 1 1].find? (fun c => c.key = ⟨0, 1, 0⟩) = none := by decide
  rw [hnone] at hfind
  cases hfind

end Moz
