import ImSingle.Uid.BitsAllocator
import ImSingle.Library.Threads
import Mathlib.Algebra.Order.Group.Unbundled.Int
import Mathlib.Algebra.Order.Ring.Int

/-! `RingBuffer`: producers put UIDs under the buffer's monitor, consumers take them with an
atomic cursor and no lock. Every read and write of a shared field is one action. -/
namespace ImSingle.Uid
open Library

inductive Flag
  | canPut
  | canTake
  deriving DecidableEq, Repr

def START_POINT : ℤ := -1

def DEFAULT_PADDING_PERCENT : ℤ := 50

/-- `Integer.bitCount`, for a number that is not negative. -/
def bitCount (n : ℕ) : ℕ := ((List.range 32).filter n.testBit).length

/-- The constants of a buffer, as the constructor checks them. -/
structure RingBuffer where
  bufferSize : ℕ
  paddingFactor : ℤ
  bufferSize_lt : bufferSize < 2^31
  bitCount_eq : bitCount bufferSize = 1
  paddingFactor_pos : 0 < paddingFactor
  paddingFactor_lt : paddingFactor < 100

/-- The fields the threads share. `submitted` counts the calls of `asyncPadding`; `puts` and
`takes` record what was put at each position and what was taken from it. The code's `tail` and
`cursor` are a `long` each, which would take 2^63 UIDs to wrap around; here they do not. -/
structure Ring where
  slots : ℕ → Long
  flags : ℕ → Flag
  tail : ℤ
  cursor : ℤ
  monitor : Option ℕ
  submitted : ℕ
  puts : List Long
  takes : List (ℤ × Long)

/-- How a call of `put` or `take` ended. -/
inductive Outcome
  | put (accepted : Bool)
  | took (uid : Long)
  | threw (e : UidException)
  deriving DecidableEq, Repr

/-- Where a thread stands, named after the action it does next. -/
inductive Pc
  | idle (last : Option Outcome)
  | takeReadOld (currentCursor : ℤ)
  | takeReadTail (currentCursor old : ℤ)
  | takeCompareAndSet (currentCursor old next : ℤ)
  | takeCheckThreshold (currentCursor nextCursor : ℤ)
  | takeAsyncPadding (currentCursor nextCursor : ℤ)
  | takeCheckFlag (nextCursor : ℤ)
  | takeReadSlot (nextCursor : ℤ)
  | takeResetFlag (nextCursor : ℤ) (uid : Long)
  | putReadTail (uid : Long)
  | putReadCursor (uid : Long) (currentTail : ℤ)
  | putCheckFlag (uid : Long) (currentTail : ℤ)
  | putWriteSlot (uid : Long) (currentTail : ℤ)
  | putSetFlag (uid : Long) (currentTail : ℤ)
  | putPublish (uid : Long) (currentTail : ℤ)
  deriving DecidableEq, Repr

/-- What a thread at rest begins; a running call goes on whatever the label. -/
inductive Call
  | take
  | put (uid : Long)
  | go
  deriving DecidableEq, Repr

namespace RingBuffer

def new (bufferSize paddingFactor : ℤ) : Except UidException RingBuffer :=
  if bufferSize > 0 then
    if h : bufferSize.toNat < 2^31 ∧ bitCount bufferSize.toNat = 1 then
      if h' : paddingFactor > 0 ∧ paddingFactor < 100 then
        .ok ⟨bufferSize.toNat,paddingFactor,h.1,h.2,h'.1,h'.2⟩
      else .error (.illegalArgument "RingBuffer size must be positive")
    else .error (.illegalArgument "RingBuffer size must be a power of 2")
  else .error (.illegalArgument "RingBuffer size must be positive")

variable (rb : RingBuffer)

def indexMask : Long := BitVec.ofInt 64 (rb.bufferSize - 1)

/-- The product is an `int`. -/
def paddingThreshold : ℤ := (toInt32 (rb.bufferSize * rb.paddingFactor)).tdiv 100

def calSlotIndex (sequence : ℤ) : ℕ := (BitVec.ofInt 64 sequence &&& rb.indexMask).toNat

def toText (r : Ring) : String :=
  "RingBuffer [bufferSize=" ++ toString rb.bufferSize ++ ", tail=" ++ toString r.tail ++
    ", cursor=" ++ toString r.cursor ++ ", paddingThreshold=" ++ toString rb.paddingThreshold ++
    "]"

def init : Ring := ⟨fun _ => 0,fun _ => .canPut,START_POINT,START_POINT,none,0,[],[]⟩

/-- The end of a `put`: the monitor is free again. -/
def leave (r : Ring) (accepted : Bool) : Ring × Pc :=
  ({ r with monitor := none }, .idle (some (.put accepted)))

/-- One action of thread `t`. A thread whose `put` finds the monitor taken stays where it is.
The rejection policies are the default ones. -/
def act (t : ℕ) (r : Ring) (pc : Pc) (call : Call) : Ring × Pc :=
  match pc with
  | .idle last =>
    match call with
    | .take => (r, .takeReadOld r.cursor)
    | .put uid =>
      match r.monitor with
      | none => ({ r with monitor := some t }, .putReadTail uid)
      | some _ => (r, pc)
    | .go => (r, .idle last)
  -- cursor.updateAndGet(old -> old == tail.get() ? old : old + 1)
  | .takeReadOld currentCursor => (r, .takeReadTail currentCursor r.cursor)
  | .takeReadTail currentCursor old =>
    (r, .takeCompareAndSet currentCursor old (if old = r.tail then old else old + 1))
  | .takeCompareAndSet currentCursor old next =>
    if r.cursor = old then
      if next ≥ currentCursor then
        ({ r with cursor := next }, .takeCheckThreshold currentCursor next)
      else
        ({ r with cursor := next },
          .idle (some (.threw (.illegalArgument "Curosr can't move back"))))
    else (r, .takeReadOld currentCursor)
  | .takeCheckThreshold currentCursor nextCursor =>
    if r.tail - nextCursor < rb.paddingThreshold then
      (r, .takeAsyncPadding currentCursor nextCursor)
    else if nextCursor = currentCursor then
      (r, .idle (some (.threw (.runtime ("Rejected take buffer. " ++ rb.toText r)))))
    else (r, .takeCheckFlag nextCursor)
  | .takeAsyncPadding currentCursor nextCursor =>
    let r := { r with submitted := r.submitted + 1 }
    if nextCursor = currentCursor then
      (r, .idle (some (.threw (.runtime ("Rejected take buffer. " ++ rb.toText r)))))
    else (r, .takeCheckFlag nextCursor)
  | .takeCheckFlag nextCursor =>
    if r.flags (rb.calSlotIndex nextCursor) = .canTake then (r, .takeReadSlot nextCursor)
    else (r, .idle (some (.threw (.illegalArgument "Curosr not in can take status"))))
  | .takeReadSlot nextCursor =>
    (r, .takeResetFlag nextCursor (r.slots (rb.calSlotIndex nextCursor)))
  | .takeResetFlag nextCursor uid =>
    ({ r with
        flags := Function.update r.flags (rb.calSlotIndex nextCursor) .canPut
        takes := r.takes ++ [(nextCursor,uid)] },
      .idle (some (.took uid)))
  | .putReadTail uid => (r, .putReadCursor uid r.tail)
  | .putReadCursor uid currentTail =>
    if currentTail - (if r.cursor = START_POINT then 0 else r.cursor) = rb.bufferSize - 1 then
      leave r false
    else (r, .putCheckFlag uid currentTail)
  | .putCheckFlag uid currentTail =>
    if r.flags (rb.calSlotIndex (currentTail + 1)) ≠ .canPut then leave r false
    else (r, .putWriteSlot uid currentTail)
  | .putWriteSlot uid currentTail =>
    ({ r with slots := Function.update r.slots (rb.calSlotIndex (currentTail + 1)) uid },
      .putSetFlag uid currentTail)
  | .putSetFlag uid currentTail =>
    ({ r with flags := Function.update r.flags (rb.calSlotIndex (currentTail + 1)) .canTake },
      .putPublish uid currentTail)
  | .putPublish uid _ => leave { r with tail := r.tail + 1, puts := r.puts ++ [uid] } true

/-- Any number of threads putting and taking. -/
def threads : Threads ℕ Ring Pc Call where
  init := init
  start := .idle none
  act := rb.act

/-! ## Slots -/

theorem eq_two_pow_of_bitCount {n : ℕ} (hn : n < 2^31) (h : bitCount n = 1) :
    ∃ k < 31, n = 2^k := by
  obtain ⟨k,hk⟩ := List.length_eq_one_iff.mp h
  have hbit : ∀ i < 32, n.testBit i = true ↔ i = k := by
    intro i hi
    have hmem : i ∈ (List.range 32).filter n.testBit ↔ i = k := by
      rw [hk,List.mem_singleton]
    rw [← hmem,List.mem_filter,List.mem_range,and_iff_right hi]
  have hklt : k < 32 := by
    have hmem : k ∈ (List.range 32).filter n.testBit := by simp [hk]
    exact List.mem_range.mp (List.mem_filter.mp hmem).1
  have heq : n = 2^k := by
    apply Nat.eq_of_testBit_eq
    intro i
    by_cases hi : i < 32
    · rw [Nat.testBit_two_pow,Bool.eq_iff_iff,hbit i hi,decide_eq_true_eq,eq_comm]
    · have hpow : 2^31 ≤ 2^i := Nat.pow_le_pow_right (by decide) (by omega)
      rw [Nat.testBit_lt_two_pow (hn.trans_le hpow),Nat.testBit_two_pow,
        decide_eq_false (by omega)]
  refine ⟨k,?_,heq⟩
  rw [heq] at hn
  exact (Nat.pow_lt_pow_iff_right (by decide)).mp hn

theorem bufferSize_of_new {rb : RingBuffer} {bufferSize paddingFactor : ℤ}
    (h : RingBuffer.new bufferSize paddingFactor = .ok rb) : (rb.bufferSize : ℤ) = bufferSize := by
  simp only [RingBuffer.new] at h
  split_ifs at h with hpos hsize hfactor
  obtain rfl := Except.ok.inj h
  exact Int.toNat_of_nonneg hpos.le

theorem bufferSize_pos : 0 < rb.bufferSize := by
  obtain ⟨k,-,hk⟩ := eq_two_pow_of_bitCount rb.bufferSize_lt rb.bitCount_eq
  exact hk ▸ Nat.two_pow_pos k

/-- Masking with the size less one is the remainder, as the comment in the source says. -/
theorem calSlotIndex_eq (sequence : ℤ) :
    rb.calSlotIndex sequence = (sequence % rb.bufferSize).toNat := by
  obtain ⟨k,hk,hsize⟩ := eq_two_pow_of_bitCount rb.bufferSize_lt rb.bitCount_eq
  have hlt := rb.bufferSize_lt
  have hpos := rb.bufferSize_pos
  have hmask : rb.indexMask.toNat = 2^k - 1 := by
    rw [indexMask,BitVec.toNat_ofInt,Int.emod_eq_of_lt (by omega) (by omega),← hsize]
    omega
  have hdvd : ((2^k : ℕ) : ℤ) ∣ ((2^64 : ℕ) : ℤ) :=
    Int.natCast_dvd_natCast.mpr (pow_dvd_pow 2 (by omega))
  have hnonneg : 0 ≤ sequence % ((2^64 : ℕ) : ℤ) := Int.emod_nonneg _ (by decide)
  have hcast : (((sequence % ((2^64 : ℕ) : ℤ)).toNat % 2^k : ℕ) : ℤ) =
      sequence % ((2^k : ℕ) : ℤ) := by
    rw [Int.natCast_mod,Int.toNat_of_nonneg hnonneg,Int.emod_emod_of_dvd _ hdvd]
  rw [calSlotIndex,BitVec.toNat_and,hmask,Nat.and_two_pow_sub_one_eq_mod,BitVec.toNat_ofInt,
    hsize,← hcast,Int.toNat_natCast]

theorem calSlotIndex_sub_bufferSize (sequence : ℤ) :
    rb.calSlotIndex (sequence - rb.bufferSize) = rb.calSlotIndex sequence := by
  rw [calSlotIndex_eq,calSlotIndex_eq,Int.sub_emod_right]

/-- Positions less than a revolution apart have slots of their own. -/
theorem calSlotIndex_inj {p q : ℤ} (h : rb.calSlotIndex p = rb.calSlotIndex q)
    (hpq : p - q < rb.bufferSize) (hqp : q - p < rb.bufferSize) : p = q := by
  have hpos : (0 : ℤ) < rb.bufferSize := by exact_mod_cast rb.bufferSize_pos
  rw [calSlotIndex_eq,calSlotIndex_eq] at h
  have hmod : p % rb.bufferSize = q % rb.bufferSize := by
    have hp := Int.emod_nonneg p hpos.ne'
    have hq := Int.emod_nonneg q hpos.ne'
    omega
  have hdvd : (rb.bufferSize : ℤ) ∣ p - q :=
    Int.dvd_of_emod_eq_zero (Int.emod_eq_emod_iff_emod_sub_eq_zero.mp hmod)
  have hzero := Int.eq_zero_of_abs_lt_dvd hdvd (abs_lt.mpr ⟨by omega,hpq⟩)
  omega

end RingBuffer
end ImSingle.Uid
