import ImSingle.Library.Long
import Mathlib.Tactic.Common

/-! The layout of a UID: sign, delta seconds, worker id and sequence in the 64 bits of a
`long`, how `BitsAllocator` packs them and how `parseUID` takes them apart again. -/
namespace ImSingle.Uid
open Library

/-- The exceptions of the UID classes. `uidGenerateBy` is the one `getUID` wraps around
whatever stopped it. -/
inductive UidException
  | illegalArgument (message : String)
  | runtime (message : String)
  | uidGenerate (message : String)
  | uidGenerateBy (cause : UidException)
  deriving DecidableEq, Repr

def TOTAL_BITS : ℤ := 64

def signBits : ℤ := 1

/-- The bits for second, worker id and sequence. The constructor's only check is on their
`int` sum. -/
structure BitsAllocator where
  timestampBits : ℤ
  workerIdBits : ℤ
  sequenceBits : ℤ
  enough : toInt32 (signBits + timestampBits + workerIdBits + sequenceBits) = TOTAL_BITS

namespace BitsAllocator

def new (timestampBits workerIdBits sequenceBits : ℤ) : Except UidException BitsAllocator :=
  if h : toInt32 (signBits + timestampBits + workerIdBits + sequenceBits) = TOTAL_BITS then
    .ok ⟨timestampBits,workerIdBits,sequenceBits,h⟩
  else .error (.illegalArgument "allocate not enough 64 bits")

variable (b : BitsAllocator)

def maxDeltaSeconds : Long := ~~~(Long.shiftLeft (-1) b.timestampBits)

def maxWorkerId : Long := ~~~(Long.shiftLeft (-1) b.workerIdBits)

def maxSequence : Long := ~~~(Long.shiftLeft (-1) b.sequenceBits)

def timestampShift : ℤ := toInt32 (b.workerIdBits + b.sequenceBits)

def workerIdShift : ℤ := b.sequenceBits

def allocate (deltaSeconds workerId sequence : Long) : Long :=
  Long.shiftLeft deltaSeconds b.timestampShift ||| Long.shiftLeft workerId b.workerIdShift
    ||| sequence

/-- The numbers `parseUID` reads from a UID. -/
@[ext] structure Parsed where
  deltaSeconds : Long
  workerId : Long
  sequence : Long
  deriving DecidableEq, Repr

def parse (uid : Long) : Parsed where
  sequence := Long.unsignedShiftRight (Long.shiftLeft uid (TOTAL_BITS - b.sequenceBits))
    (TOTAL_BITS - b.sequenceBits)
  workerId := Long.unsignedShiftRight (Long.shiftLeft uid (b.timestampBits + signBits))
    (TOTAL_BITS - b.workerIdBits)
  deltaSeconds := Long.unsignedShiftRight uid (b.workerIdBits + b.sequenceBits)

/-- The three parts have bits of their own. The generator's setters see to that, except that
the `int` sum of huge widths can wrap around to 64. -/
structure Proper (b : BitsAllocator) : Prop where
  timestampBits_pos : 0 < b.timestampBits
  workerIdBits_pos : 0 < b.workerIdBits
  sequenceBits_pos : 0 < b.sequenceBits
  total : b.timestampBits + b.workerIdBits + b.sequenceBits = 63

theorem proper_of_pos {b : BitsAllocator} (ht : 0 < b.timestampBits) (hw : 0 < b.workerIdBits)
    (hs : 0 < b.sequenceBits)
    (hmax : b.timestampBits + b.workerIdBits + b.sequenceBits < 2^31 - 1) : b.Proper where
  timestampBits_pos := ht
  workerIdBits_pos := hw
  sequenceBits_pos := hs
  total := by
    have h := b.enough
    rw [toInt32_eq (by simp only [signBits]; omega) (by simp only [signBits]; omega)] at h
    simp only [signBits,TOTAL_BITS] at h
    omega

/-- The widths as natural numbers. -/
def secondWidth : ℕ := b.timestampBits.toNat
def workerWidth : ℕ := b.workerIdBits.toNat
def sequenceWidth : ℕ := b.sequenceBits.toNat

section Proper
variable {b} (hb : b.Proper) {deltaSeconds workerId sequence uid : Long}
include hb

theorem Proper.widths : b.timestampBits = b.secondWidth ∧ b.workerIdBits = b.workerWidth ∧
    b.sequenceBits = b.sequenceWidth ∧ 0 < b.secondWidth ∧ 0 < b.workerWidth ∧
    0 < b.sequenceWidth ∧ b.secondWidth + b.workerWidth + b.sequenceWidth = 63 := by
  obtain ⟨ht,hw,hs,htotal⟩ := hb
  simp only [secondWidth,workerWidth,sequenceWidth]
  omega

theorem Proper.toNat_maxDeltaSeconds : b.maxDeltaSeconds.toNat = 2^b.secondWidth - 1 := by
  obtain ⟨ht,-,-,-,hw,hs,htotal⟩ := hb.widths
  rw [maxDeltaSeconds,ht,Long.toNat_not_shiftLeft (by omega)]

theorem Proper.toNat_maxWorkerId : b.maxWorkerId.toNat = 2^b.workerWidth - 1 := by
  obtain ⟨-,hw,-,ht,-,hs,htotal⟩ := hb.widths
  rw [maxWorkerId,hw,Long.toNat_not_shiftLeft (by omega)]

theorem Proper.toNat_maxSequence : b.maxSequence.toNat = 2^b.sequenceWidth - 1 := by
  obtain ⟨-,-,hs,ht,hw,-,htotal⟩ := hb.widths
  rw [maxSequence,hs,Long.toNat_not_shiftLeft (by omega)]

theorem Proper.allocate_eq : b.allocate deltaSeconds workerId sequence =
    deltaSeconds <<< (b.workerWidth + b.sequenceWidth) |||
      (workerId <<< b.sequenceWidth ||| sequence) := by
  obtain ⟨-,hw,hs,ht,-,-,htotal⟩ := hb.widths
  have hshift : b.timestampShift = (b.workerWidth + b.sequenceWidth : ℕ) := by
    rw [timestampShift,hw,hs,toInt32_eq (by omega) (by omega)]
    rfl
  rw [allocate,hshift,workerIdShift,hs,Long.shiftLeft_natCast (by omega),
    Long.shiftLeft_natCast (by omega),BitVec.or_assoc]

/-- The two low parts fill their bits and no others. -/
theorem Proper.toNat_low (hw : workerId.toNat < 2^b.workerWidth)
    (hs : sequence.toNat < 2^b.sequenceWidth) :
    (workerId <<< b.sequenceWidth ||| sequence).toNat =
        workerId.toNat * 2^b.sequenceWidth + sequence.toNat ∧
      (workerId <<< b.sequenceWidth ||| sequence).toNat <
        2^(b.workerWidth + b.sequenceWidth) := by
  obtain ⟨-,-,-,ht,-,-,htotal⟩ := hb.widths
  have hle : 2^b.workerWidth ≤ 2^(64 - b.sequenceWidth) :=
    Nat.pow_le_pow_right (by decide) (by omega)
  have heq := toNat_shiftLeft_or (x := workerId) (by omega) hs
  rw [Nat.mod_eq_of_lt (hw.trans_le hle)] at heq
  refine ⟨heq,?_⟩
  calc (workerId <<< b.sequenceWidth ||| sequence).toNat
      < (workerId.toNat + 1) * 2^b.sequenceWidth := by rw [heq,Nat.succ_mul]; omega
    _ ≤ 2^b.workerWidth * 2^b.sequenceWidth := Nat.mul_le_mul_right _ hw
    _ = 2^(b.workerWidth + b.sequenceWidth) := (pow_add ..).symm

/-- The value of a UID. The second keeps one bit more than its own, the sign bit. -/
theorem Proper.toNat_allocate (deltaSeconds : Long) (hw : workerId.toNat < 2^b.workerWidth)
    (hs : sequence.toNat < 2^b.sequenceWidth) :
    (b.allocate deltaSeconds workerId sequence).toNat =
      deltaSeconds.toNat % 2^(b.secondWidth + 1) * 2^(b.workerWidth + b.sequenceWidth) +
        (workerId.toNat * 2^b.sequenceWidth + sequence.toNat) := by
  obtain ⟨-,-,-,-,-,-,htotal⟩ := hb.widths
  obtain ⟨hlow,hlt⟩ := hb.toNat_low hw hs
  rw [hb.allocate_eq,toNat_shiftLeft_or (by omega) hlt,hlow]
  congr 4
  omega

theorem Proper.toNat_parse (uid : Long) :
    (b.parse uid).deltaSeconds.toNat = uid.toNat / 2^(b.workerWidth + b.sequenceWidth) ∧
    (b.parse uid).workerId.toNat =
      uid.toNat % 2^(b.workerWidth + b.sequenceWidth) / 2^b.sequenceWidth ∧
    (b.parse uid).sequence.toNat = uid.toNat % 2^b.sequenceWidth := by
  obtain ⟨ht,hw,hs,_,_,_,htotal⟩ := hb.widths
  have h1 : b.workerIdBits + b.sequenceBits = (b.workerWidth + b.sequenceWidth : ℕ) := by omega
  have h2 : b.timestampBits + signBits = (b.secondWidth + 1 : ℕ) := by simp only [signBits]; omega
  have h3 : TOTAL_BITS - b.workerIdBits = (64 - b.workerWidth : ℕ) := by
    simp only [TOTAL_BITS]; omega
  have h4 : TOTAL_BITS - b.sequenceBits = (64 - b.sequenceWidth : ℕ) := by
    simp only [TOTAL_BITS]; omega
  refine ⟨?_,?_,?_⟩
  · rw [parse,h1,Long.unsignedShiftRight_natCast (by omega),BitVec.toNat_ushiftRight,
      Nat.shiftRight_eq_div_pow]
  · rw [parse,h2,h3,Long.unsignedShiftRight_natCast (by omega),
      Long.shiftLeft_natCast (by omega),toNat_shiftLeft_ushiftRight (by omega) (by omega)]
    congr <;> omega
  · rw [parse,h4,Long.unsignedShiftRight_natCast (by omega),
      Long.shiftLeft_natCast (by omega),toNat_shiftLeft_ushiftRight le_rfl (by omega),
      Nat.sub_self,pow_zero,Nat.div_one]
    congr
    omega

/-- Packing what was parsed gives the UID back, whatever word it was. -/
theorem Proper.allocate_parse : b.allocate (b.parse uid).deltaSeconds
    (b.parse uid).workerId (b.parse uid).sequence = uid := by
  obtain ⟨-,-,-,-,-,-,htotal⟩ := hb.widths
  obtain ⟨hd,hw,hs⟩ := hb.toNat_parse uid
  have hpow : 2^(b.workerWidth + b.sequenceWidth) = 2^b.workerWidth * 2^b.sequenceWidth :=
    pow_add ..
  have huid : uid.toNat < 2^(b.secondWidth + 1) * 2^(b.workerWidth + b.sequenceWidth) := by
    rw [← pow_add]
    exact uid.isLt.trans_eq (by congr 1; omega)
  have hwlt : (b.parse uid).workerId.toNat < 2^b.workerWidth := by
    rw [hw,hpow]
    exact Nat.div_lt_of_lt_mul (by rw [mul_comm]; exact Nat.mod_lt _ (by positivity))
  have hslt : (b.parse uid).sequence.toNat < 2^b.sequenceWidth :=
    hs ▸ Nat.mod_lt _ (Nat.two_pow_pos _)
  apply BitVec.eq_of_toNat_eq
  rw [hb.toNat_allocate _ hwlt hslt,hd,hw,hs,Nat.mod_eq_of_lt (Nat.div_lt_of_lt_mul
    (by rwa [mul_comm]))]
  have hmod : uid.toNat % 2^b.sequenceWidth =
      uid.toNat % 2^(b.workerWidth + b.sequenceWidth) % 2^b.sequenceWidth := by
    rw [hpow,Nat.mod_mul_left_mod]
  rw [hmod,Nat.div_add_mod',Nat.div_add_mod']

/-- What is parsed from a packed UID: worker id and sequence as they were, the second up to a
multiple of what its bits and the sign bit hold. -/
theorem Proper.toNat_parse_allocate (deltaSeconds : Long)
    (hw : workerId.toNat < 2^b.workerWidth)
    (hs : sequence.toNat < 2^b.sequenceWidth) :
    (b.parse (b.allocate deltaSeconds workerId sequence)).deltaSeconds.toNat =
        deltaSeconds.toNat % 2^(b.secondWidth + 1) ∧
      (b.parse (b.allocate deltaSeconds workerId sequence)).workerId = workerId ∧
      (b.parse (b.allocate deltaSeconds workerId sequence)).sequence = sequence := by
  obtain ⟨hlow,hlt⟩ := hb.toNat_low hw hs
  obtain ⟨hd',hw',hs'⟩ :=
    hb.toNat_parse (b.allocate deltaSeconds workerId sequence)
  have hvalue := hb.toNat_allocate deltaSeconds hw hs
  rw [← hlow] at hvalue
  refine ⟨?_,BitVec.eq_of_toNat_eq ?_,BitVec.eq_of_toNat_eq ?_⟩
  · rw [hd',hvalue,mul_comm,Nat.mul_add_div (Nat.two_pow_pos _),Nat.div_eq_of_lt hlt,add_zero]
  · rw [hw',hvalue,mul_comm,Nat.mul_add_mod,Nat.mod_eq_of_lt hlt,hlow,mul_comm,
      Nat.mul_add_div (Nat.two_pow_pos _),Nat.div_eq_of_lt hs,add_zero]
  · rw [hs',hvalue,pow_add 2 b.workerWidth,← mul_assoc,hlow,← add_assoc,← add_mul,mul_comm,
      Nat.mul_add_mod,Nat.mod_eq_of_lt hs]

/-- The signed value of a UID whose second fits its bits and the sign bit. -/
theorem Proper.toInt_allocate (hlo : -2^b.secondWidth ≤ deltaSeconds.toInt)
    (hhi : deltaSeconds.toInt < 2^b.secondWidth) (hw : workerId.toNat < 2^b.workerWidth)
    (hs : sequence.toNat < 2^b.sequenceWidth) :
    (b.allocate deltaSeconds workerId sequence).toInt =
      deltaSeconds.toInt * 2^(b.workerWidth + b.sequenceWidth) +
        (workerId.toNat * 2^b.sequenceWidth + sequence.toNat) := by
  obtain ⟨-,-,-,-,-,-,htotal⟩ := hb.widths
  obtain ⟨hlow,hlt⟩ := hb.toNat_low hw hs
  have hwidth : 63 - (b.workerWidth + b.sequenceWidth) = b.secondWidth := by omega
  rw [hb.allocate_eq,Long.toInt_shiftLeft_or (by omega) hlt (hwidth ▸ hlo) (hwidth ▸ hhi),hlow]
  push_cast
  rfl

theorem Proper.toInt_maxDeltaSeconds : b.maxDeltaSeconds.toInt = 2^b.secondWidth - 1 := by
  obtain ⟨-,-,-,-,_,_,htotal⟩ := hb.widths
  exact Long.toInt_of_toNat (by omega) hb.toNat_maxDeltaSeconds

theorem Proper.toInt_maxWorkerId : b.maxWorkerId.toInt = 2^b.workerWidth - 1 := by
  obtain ⟨-,-,-,_,-,_,htotal⟩ := hb.widths
  exact Long.toInt_of_toNat (by omega) hb.toNat_maxWorkerId

theorem Proper.toInt_maxSequence : b.maxSequence.toInt = 2^b.sequenceWidth - 1 := by
  obtain ⟨-,-,-,_,_,-,htotal⟩ := hb.widths
  exact Long.toInt_of_toNat (by omega) hb.toNat_maxSequence

end Proper

/-- Every part lies between 0 and its getter's maximum. -/
structure InRange (p : Parsed) : Prop where
  deltaSeconds_nonneg : 0 ≤ p.deltaSeconds.toInt
  deltaSeconds_le : p.deltaSeconds.toInt ≤ b.maxDeltaSeconds.toInt
  workerId_nonneg : 0 ≤ p.workerId.toInt
  workerId_le : p.workerId.toInt ≤ b.maxWorkerId.toInt
  sequence_nonneg : 0 ≤ p.sequence.toInt
  sequence_le : p.sequence.toInt ≤ b.maxSequence.toInt

section InRange
variable {b} (hb : b.Proper) {p q : Parsed}
include hb

theorem InRange.toNat_lt (hp : b.InRange p) : p.deltaSeconds.toNat < 2^b.secondWidth ∧
    p.workerId.toNat < 2^b.workerWidth ∧ p.sequence.toNat < 2^b.sequenceWidth :=
  ⟨Long.toNat_lt_two_pow hp.deltaSeconds_nonneg
      (hp.deltaSeconds_le.trans_eq hb.toInt_maxDeltaSeconds),
    Long.toNat_lt_two_pow hp.workerId_nonneg (hp.workerId_le.trans_eq hb.toInt_maxWorkerId),
    Long.toNat_lt_two_pow hp.sequence_nonneg (hp.sequence_le.trans_eq hb.toInt_maxSequence)⟩

theorem InRange.toInt_allocate (hp : b.InRange p) :
    (b.allocate p.deltaSeconds p.workerId p.sequence).toInt =
      p.deltaSeconds.toInt * 2^(b.workerWidth + b.sequenceWidth) +
        (p.workerId.toInt * 2^b.sequenceWidth + p.sequence.toInt) := by
  obtain ⟨hd,hw,hs⟩ := hp.toNat_lt hb
  have hpos : (0 : ℤ) < 2^b.secondWidth := by positivity
  have hle := hp.deltaSeconds_le.trans_eq hb.toInt_maxDeltaSeconds
  have hnonneg := hp.deltaSeconds_nonneg
  rw [hb.toInt_allocate (by omega) (by omega) hw hs,Long.toNat_of_nonneg hp.workerId_nonneg,
    Long.toNat_of_nonneg hp.sequence_nonneg]

theorem InRange.parse_allocate (hp : b.InRange p) :
    b.parse (b.allocate p.deltaSeconds p.workerId p.sequence) = p := by
  obtain ⟨hd,hw,hs⟩ := hp.toNat_lt hb
  obtain ⟨hd',hw',hs'⟩ := hb.toNat_parse_allocate p.deltaSeconds hw hs
  have hlt : p.deltaSeconds.toNat < 2^(b.secondWidth + 1) :=
    hd.trans (Nat.pow_lt_pow_right (by decide) (Nat.lt_succ_self _))
  rw [Nat.mod_eq_of_lt hlt] at hd'
  apply Parsed.ext
  · exact BitVec.eq_of_toNat_eq hd'
  · exact hw'
  · exact hs'

/-- A UID packed from parts in range never has the sign bit. -/
theorem InRange.allocate_nonneg (hp : b.InRange p) :
    0 ≤ (b.allocate p.deltaSeconds p.workerId p.sequence).toInt := by
  have hd := hp.deltaSeconds_nonneg
  have hw := hp.workerId_nonneg
  have hs := hp.sequence_nonneg
  rw [hp.toInt_allocate hb]
  positivity

/-- A parsed UID is in range unless the sign bit is set. -/
theorem inRange_parse_iff {uid : Long} :
    b.InRange (b.parse uid) ↔ 0 ≤ uid.toInt := by
  constructor
  · intro h
    have hnonneg := h.allocate_nonneg hb
    rwa [hb.allocate_parse] at hnonneg
  · intro h
    obtain ⟨-,-,-,_,_,_,htotal⟩ := hb.widths
    obtain ⟨hd,hw,hs⟩ := hb.toNat_parse uid
    have huid : uid.toNat < 2^(b.workerWidth + b.sequenceWidth) * 2^b.secondWidth := by
      rw [← pow_add]
      exact Long.toNat_lt_two_pow h (by
        have hmax := Long.toInt_lt_two_pow uid
        rw [show b.workerWidth + b.sequenceWidth + b.secondWidth = 63 by omega]
        omega)
    have hlow : uid.toNat % 2^(b.workerWidth + b.sequenceWidth) <
        2^b.sequenceWidth * 2^b.workerWidth := by
      rw [← pow_add,add_comm b.sequenceWidth]
      exact Nat.mod_lt _ (Nat.two_pow_pos _)
    have hdmax := Long.toInt_bounds_of_lt (by omega)
      (hd.trans_lt (Nat.div_lt_of_lt_mul huid))
    have hwmax := Long.toInt_bounds_of_lt (by omega)
      (hw.trans_lt (Nat.div_lt_of_lt_mul hlow))
    have hsmax := Long.toInt_bounds_of_lt (by omega)
      (hs.trans_lt (Nat.mod_lt _ (Nat.two_pow_pos _)))
    exact ⟨hdmax.1, hdmax.2.trans_eq hb.toInt_maxDeltaSeconds.symm, hwmax.1,
      hwmax.2.trans_eq hb.toInt_maxWorkerId.symm, hsmax.1,
      hsmax.2.trans_eq hb.toInt_maxSequence.symm⟩

/-- The sign bit is the one above the second's own bits. -/
theorem neg_iff_le_deltaSeconds {uid : Long} :
    uid.toInt < 0 ↔ 2^b.secondWidth ≤ (b.parse uid).deltaSeconds.toNat := by
  obtain ⟨-,-,-,_,_,_,htotal⟩ := hb.widths
  have hpow : 2^b.secondWidth * 2^(b.workerWidth + b.sequenceWidth) = 2^63 := by
    rw [← pow_add]
    congr 1
    omega
  rw [(hb.toNat_parse uid).1,Nat.le_div_iff_mul_le (Nat.two_pow_pos _),hpow,
    BitVec.toInt_eq_toNat_cond]
  have huid := uid.isLt
  split <;> omega

end InRange

/-- Unpacking and packing undo each other: any 64 bits are the UID of what they parse to, parts
in range come back as they were, and these are the UIDs without the sign bit. -/
theorem uid_round_trip {b : BitsAllocator} (hb : b.Proper) :
    (∀ uid, b.allocate (b.parse uid).deltaSeconds (b.parse uid).workerId
        (b.parse uid).sequence = uid) ∧
      (∀ p, b.InRange p →
        b.parse (b.allocate p.deltaSeconds p.workerId p.sequence) = p) ∧
      ∀ uid, b.InRange (b.parse uid) ↔ 0 ≤ uid.toInt :=
  ⟨fun _ => hb.allocate_parse, fun _ hp => hp.parse_allocate hb,
    fun _ => inRange_parse_iff hb⟩

theorem uid_round_trip_default :
    let b : BitsAllocator := ⟨28,22,13,by decide⟩
    b.parse (b.allocate 100 7 8191) = ⟨100,7,8191⟩ :=
  (uid_round_trip ⟨by decide,by decide,by decide,by decide⟩).2.1 ⟨100,7,8191⟩
    ⟨by decide,by decide,by decide,by decide,by decide,by decide⟩

/-- UIDs are ordered by second, then worker id, then sequence. -/
theorem allocate_lt_allocate_iff {b : BitsAllocator} {p q : Parsed} (hb : b.Proper)
    (hp : b.InRange p) (hq : b.InRange q) :
    (b.allocate p.deltaSeconds p.workerId p.sequence).toInt <
        (b.allocate q.deltaSeconds q.workerId q.sequence).toInt ↔
      p.deltaSeconds.toInt < q.deltaSeconds.toInt ∨
        p.deltaSeconds.toInt = q.deltaSeconds.toInt ∧
          (p.workerId.toInt < q.workerId.toInt ∨
            p.workerId.toInt = q.workerId.toInt ∧ p.sequence.toInt < q.sequence.toInt) := by
  have low : ∀ {r : Parsed}, b.InRange r →
      0 ≤ r.workerId.toInt * 2^b.sequenceWidth + r.sequence.toInt ∧
        r.workerId.toInt * 2^b.sequenceWidth + r.sequence.toInt <
          2^(b.workerWidth + b.sequenceWidth) := by
    intro r hr
    obtain ⟨-,hw,hs⟩ := hr.toNat_lt hb
    obtain ⟨heq,hlt⟩ := hb.toNat_low hw hs
    rw [← Long.toNat_of_nonneg hr.workerId_nonneg,← Long.toNat_of_nonneg hr.sequence_nonneg]
    rw [heq] at hlt
    exact ⟨by positivity, by exact_mod_cast hlt⟩
  obtain ⟨hp0,hp1⟩ := low hp
  obtain ⟨hq0,hq1⟩ := low hq
  have hpmax := hp.sequence_le.trans_eq hb.toInt_maxSequence
  have hqmax := hq.sequence_le.trans_eq hb.toInt_maxSequence
  rw [hp.toInt_allocate hb,hq.toInt_allocate hb,mul_add_lt_mul_add_iff hp0 hp1 hq0 hq1,
    mul_add_lt_mul_add_iff hp.sequence_nonneg (by omega) hq.sequence_nonneg (by omega)]

theorem allocate_lt_allocate_default :
    let b : BitsAllocator := ⟨28,22,13,by decide⟩
    (b.allocate 99 8 8191).toInt < (b.allocate 100 7 0).toInt :=
  (allocate_lt_allocate_iff (p := ⟨99,8,8191⟩) (q := ⟨100,7,0⟩)
    ⟨by decide,by decide,by decide,by decide⟩
    ⟨by decide,by decide,by decide,by decide,by decide,by decide⟩
    ⟨by decide,by decide,by decide,by decide,by decide,by decide⟩).mpr (.inl (by decide))

end BitsAllocator
end ImSingle.Uid
