import ImSingle.Uid.DefaultUidGenerator
import ImSingle.Uid.RingBuffer
import Mathlib.Data.List.Nodup
import Mathlib.Data.Nat.ModEq

/-! `CachedUidGenerator`: a ring buffer of UIDs, filled a whole second at a time. Here are its
set-up and the UIDs of one second and of many. -/
namespace ImSingle.Uid
open Library

/-- The properties, with the boost of the buffer's size. Its setter refuses what is not
positive. -/
structure CachedProperties extends Properties where
  boostPower : ℤ := 3
  paddingFactor : ℤ := DEFAULT_PADDING_PERCENT
  boostPower_pos : 0 < boostPower := by decide

def CachedProperties.setBoostPower (p : CachedProperties) (boostPower : ℤ) :
    Except UidException CachedProperties :=
  if h : boostPower > 0 then .ok { p with boostPower, boostPower_pos := h }
  else .error (.illegalArgument "Boost power must be positive!")

namespace DefaultUidGenerator
variable (g : DefaultUidGenerator)

/-- `(int) bitsAllocator.getMaxSequence() + 1`. -/
def listSize : ℤ := toInt32 (toInt32 g.bitsAllocator.maxSequence.toInt + 1)

/-- The size is an `int`, and `<<` uses the low five bits of the distance. -/
def initRingBuffer (boostPower paddingFactor : ℤ) : Except UidException RingBuffer :=
  RingBuffer.new (toInt32 (g.listSize * 2^(boostPower % 32).toNat)) paddingFactor

/-- The UIDs of a second. A list size that is not positive does not come this far:
`initRingBuffer` refuses it. -/
def nextIdsForOneSecond (currentSecond : Long) : List Long :=
  let firstSeqUid := g.bitsAllocator.allocate (currentSecond - g.epochSeconds) g.workerId 0
  (List.range g.listSize.toNat).map fun offset => firstSeqUid + BitVec.ofNat 64 offset

end DefaultUidGenerator

/-- A generator whose buffer has been created. -/
structure CachedUidGenerator extends DefaultUidGenerator where
  boostPower : ℤ
  paddingFactor : ℤ
  ringBuffer : RingBuffer
  initialized :
    toDefaultUidGenerator.initRingBuffer boostPower paddingFactor = .ok ringBuffer

namespace CachedUidGenerator

def afterPropertiesSet (p : CachedProperties) (assignWorkerId : Except UidException Long) :
    Except UidException CachedUidGenerator := do
  let g ← DefaultUidGenerator.afterPropertiesSet p.toProperties assignWorkerId
  match h : g.initRingBuffer p.boostPower p.paddingFactor with
  | .error e => throw e
  | .ok ringBuffer => pure ⟨g,p.boostPower,p.paddingFactor,ringBuffer,h⟩

/-! ## The size of a second and of the buffer -/

theorem dvd_toInt32 {x : ℤ} (h : (2^31 : ℤ) ∣ x) : (2^31 : ℤ) ∣ toInt32 x := by
  have hdvd := (toInt32_eq_iff.mp (rfl : toInt32 x = toInt32 x)).2.2
  omega

variable {g : CachedUidGenerator}

theorem bufferSize_eq (g : CachedUidGenerator) : (g.ringBuffer.bufferSize : ℤ) =
    toInt32 (g.listSize * 2^(g.boostPower % 32).toNat) :=
  RingBuffer.bufferSize_of_new g.initialized

theorem listSize_eq_toInt32 (hg : g.Ready) :
    g.listSize = toInt32 (2^g.bitsAllocator.sequenceWidth) := by
  rw [DefaultUidGenerator.listSize,toInt32_add,hg.proper.toInt_maxSequence,sub_add_cancel]

/-- A buffer that was created leaves the sequence few enough bits for an `int`. -/
theorem sequenceWidth_le (hg : g.Ready) : g.bitsAllocator.sequenceWidth ≤ 30 := by
  by_contra hnot
  have hpow : (2^31 : ℤ) ∣ 2^g.bitsAllocator.sequenceWidth := pow_dvd_pow 2 (by omega)
  have hlist : (2^31 : ℤ) ∣ g.listSize := listSize_eq_toInt32 hg ▸ dvd_toInt32 hpow
  have hsize : (2^31 : ℤ) ∣ g.ringBuffer.bufferSize :=
    bufferSize_eq g ▸ dvd_toInt32 (hlist.mul_right _)
  have hpos := g.ringBuffer.bufferSize_pos
  have hlt := g.ringBuffer.bufferSize_lt
  omega

theorem listSize_eq (hg : g.Ready) : g.listSize = 2^g.bitsAllocator.sequenceWidth := by
  have hle : (2^g.bitsAllocator.sequenceWidth : ℤ) ≤ 2^30 :=
    pow_le_pow_right₀ (by norm_num) (sequenceWidth_le hg)
  have hpos : (0 : ℤ) < 2^g.bitsAllocator.sequenceWidth := by positivity
  rw [listSize_eq_toInt32 hg,toInt32_eq (by omega) (by omega)]

/-! ## The UIDs of a second -/

theorem workerId_lt (hg : g.Ready) : g.workerId.toNat < 2^g.bitsAllocator.workerWidth :=
  Long.toNat_lt_two_pow hg.workerId_nonneg
    (hg.workerId_le.trans_eq hg.proper.toInt_maxWorkerId)

theorem toNat_offset (hg : g.Ready) {offset : ℕ}
    (h : offset < 2^g.bitsAllocator.sequenceWidth) : (BitVec.ofNat 64 offset).toNat = offset := by
  have hle : 2^g.bitsAllocator.sequenceWidth ≤ 2^30 :=
    Nat.pow_le_pow_right (by decide) (sequenceWidth_le hg)
  rw [BitVec.toNat_ofNat,Nat.mod_eq_of_lt (by omega)]

/-- Adding to the first UID counts its sequence up. -/
theorem nextIdsForOneSecond_eq (hg : g.Ready) (second : Long) :
    g.nextIdsForOneSecond second =
      (List.range (2^g.bitsAllocator.sequenceWidth)).map fun offset =>
        g.bitsAllocator.allocate (second - g.epochSeconds) g.workerId
          (BitVec.ofNat 64 offset) := by
  have hlist : g.listSize.toNat = 2^g.bitsAllocator.sequenceWidth := by
    rw [listSize_eq hg]
    exact_mod_cast rfl
  rw [DefaultUidGenerator.nextIdsForOneSecond,hlist]
  refine List.map_congr_left fun offset hoffset => ?_
  have hlt := List.mem_range.mp hoffset
  have hnat := toNat_offset hg hlt
  have hzero : (0 : Long).toNat < 2^g.bitsAllocator.sequenceWidth := Nat.two_pow_pos _
  have hfirst := hg.proper.toNat_allocate (second - g.epochSeconds) (workerId_lt hg) hzero
  have hnext := hg.proper.toNat_allocate (second - g.epochSeconds) (workerId_lt hg)
    (hnat.symm ▸ hlt)
  have hmax := (g.bitsAllocator.allocate (second - g.epochSeconds) g.workerId
    (BitVec.ofNat 64 offset)).isLt
  rw [hnat] at hnext
  have hsum : (g.bitsAllocator.allocate (second - g.epochSeconds) g.workerId 0).toNat + offset =
      (g.bitsAllocator.allocate (second - g.epochSeconds) g.workerId
        (BitVec.ofNat 64 offset)).toNat := by
    rw [hfirst,hnext]
    exact Nat.add_assoc ..
  apply BitVec.eq_of_toNat_eq
  rw [BitVec.toNat_add,hnat,hsum,Nat.mod_eq_of_lt hmax]

theorem length_nextIds (hg : g.Ready) (second : Long) :
    (g.nextIdsForOneSecond second).length = 2^g.bitsAllocator.sequenceWidth := by
  rw [nextIdsForOneSecond_eq hg,List.length_map,List.length_range]

/-- What a UID of a second parses to. -/
theorem parse_offset (hg : g.Ready) (second : Long) {offset : ℕ}
    (h : offset < 2^g.bitsAllocator.sequenceWidth) :
    let parsed := g.bitsAllocator.parse
      (g.bitsAllocator.allocate (second - g.epochSeconds) g.workerId (BitVec.ofNat 64 offset))
    parsed.deltaSeconds.toNat =
        (second - g.epochSeconds).toNat % 2^(g.bitsAllocator.secondWidth + 1) ∧
      parsed.workerId = g.workerId ∧ parsed.sequence.toNat = offset := by
  have hnat := toNat_offset hg h
  obtain ⟨hd,hw,hs⟩ := hg.proper.toNat_parse_allocate (second - g.epochSeconds) (workerId_lt hg)
    (hnat.symm ▸ h)
  exact ⟨hd,hw,(congrArg BitVec.toNat hs).trans hnat⟩

theorem parse_nextIds (hg : g.Ready) {second uid : Long}
    (h : uid ∈ g.nextIdsForOneSecond second) :
    (g.bitsAllocator.parse uid).workerId = g.workerId ∧
      (g.bitsAllocator.parse uid).deltaSeconds.toNat =
        (second - g.epochSeconds).toNat % 2^(g.bitsAllocator.secondWidth + 1) := by
  rw [nextIdsForOneSecond_eq hg] at h
  obtain ⟨offset,hoffset,rfl⟩ := List.mem_map.mp h
  obtain ⟨hd,hw,-⟩ := parse_offset hg second (List.mem_range.mp hoffset)
  exact ⟨hw,hd⟩

theorem nodup_nextIds (hg : g.Ready) (second : Long) :
    (g.nextIdsForOneSecond second).Nodup := by
  rw [nextIdsForOneSecond_eq hg]
  refine List.nodup_range.map_on fun offset hoffset other hother heq => ?_
  obtain ⟨-,-,hs⟩ := parse_offset hg second (List.mem_range.mp hoffset)
  obtain ⟨-,-,hs'⟩ := parse_offset hg second (List.mem_range.mp hother)
  rw [← hs,← hs',heq]

/-- The seconds that follow one. -/
def secondsAfter (second : Long) (count : ℕ) : List Long :=
  (List.range count).map fun i => second + BitVec.ofNat 64 (i + 1)

theorem secondsAfter_succ (second : Long) (count : ℕ) :
    secondsAfter second (count + 1) =
      secondsAfter second count ++ [second + BitVec.ofNat 64 (count + 1)] := by
  simp [secondsAfter,List.range_succ]

/-- In a UID a second counts on as long as its bits and the sign bit last. -/
theorem delta_add (hg : g.Ready) (second : Long) (n : ℕ) :
    (second + BitVec.ofNat 64 n - g.epochSeconds).toNat % 2^(g.bitsAllocator.secondWidth + 1) =
      ((second - g.epochSeconds).toNat + n) % 2^(g.bitsAllocator.secondWidth + 1) := by
  obtain ⟨-,-,-,-,-,-,htotal⟩ := hg.proper.widths
  have hdvd : 2^(g.bitsAllocator.secondWidth + 1) ∣ 2^64 := pow_dvd_pow 2 (by omega)
  have hcomm : second + BitVec.ofNat 64 n - g.epochSeconds =
      second - g.epochSeconds + BitVec.ofNat 64 n := by grind
  rw [hcomm,BitVec.toNat_add,BitVec.toNat_ofNat,Nat.add_mod_mod,Nat.mod_mod_of_dvd _ hdvd]

/-- A later second's bits differ, unless all their values have been through. -/
theorem delta_ne (hg : g.Ready) (second : Long) {i j : ℕ} (hij : i < j)
    (hj : j < 2^(g.bitsAllocator.secondWidth + 1)) :
    (second + BitVec.ofNat 64 (i + 1) - g.epochSeconds).toNat %
        2^(g.bitsAllocator.secondWidth + 1) ≠
      (second + BitVec.ofNat 64 (j + 1) - g.epochSeconds).toNat %
        2^(g.bitsAllocator.secondWidth + 1) := by
  rw [delta_add hg,delta_add hg]
  intro heq
  have hmodEq : i + 1 ≡ j + 1 [MOD 2^(g.bitsAllocator.secondWidth + 1)] :=
    Nat.ModEq.add_left_cancel' _ heq
  have hdvd := (Nat.modEq_iff_dvd' (by omega)).mp hmodEq
  exact absurd (Nat.le_of_dvd (by omega) hdvd) (by omega)

/-- Once they have, the same UIDs come again. -/
theorem nextIds_congr (hg : g.Ready) {second later : Long}
    (h : (second - g.epochSeconds).toNat % 2^(g.bitsAllocator.secondWidth + 1) =
      (later - g.epochSeconds).toNat % 2^(g.bitsAllocator.secondWidth + 1)) :
    g.nextIdsForOneSecond second = g.nextIdsForOneSecond later := by
  rw [nextIdsForOneSecond_eq hg,nextIdsForOneSecond_eq hg]
  refine List.map_congr_left fun offset hoffset => BitVec.eq_of_toNat_eq ?_
  have hlt : (BitVec.ofNat 64 offset).toNat < 2^g.bitsAllocator.sequenceWidth := by
    rw [toNat_offset hg (List.mem_range.mp hoffset)]
    exact List.mem_range.mp hoffset
  rw [hg.proper.toNat_allocate _ (workerId_lt hg) hlt,
    hg.proper.toNat_allocate _ (workerId_lt hg) hlt,h]

/-- As many seconds as the second's bits and the sign bit tell apart have different UIDs. -/
theorem nodup_seconds (hg : g.Ready) (second : Long) {count : ℕ}
    (hcount : count ≤ 2^(g.bitsAllocator.secondWidth + 1)) :
    ((secondsAfter second count).flatMap g.nextIdsForOneSecond).Nodup := by
  induction count with
  | zero => exact List.nodup_nil
  | succ count ih =>
    rw [secondsAfter_succ,List.flatMap_append,List.flatMap_singleton]
    refine List.nodup_append.mpr ⟨ih (by omega),nodup_nextIds hg _,?_⟩
    intro uid huid later hlater heq
    subst heq
    obtain ⟨earlier,hearlier,huid⟩ := List.mem_flatMap.mp huid
    obtain ⟨i,hi,rfl⟩ := List.mem_map.mp hearlier
    refine delta_ne hg second (List.mem_range.mp hi) (by omega) ?_
    rw [← (parse_nextIds hg huid).2,← (parse_nextIds hg hlater).2]

/-- One more second than that repeats the UIDs of the first one. -/
theorem nodup_seconds_iff (hg : g.Ready) (second : Long) {count : ℕ} :
    ((secondsAfter second count).flatMap g.nextIdsForOneSecond).Nodup ↔
      count ≤ 2^(g.bitsAllocator.secondWidth + 1) := by
  refine ⟨fun hnodup => ?_,nodup_seconds hg second⟩
  by_contra hmore
  have hpos : 0 < 2^(g.bitsAllocator.secondWidth + 1) := Nat.two_pow_pos _
  have hpair := (List.nodup_flatMap.mp hnodup).2
  rw [secondsAfter,List.pairwise_map,List.pairwise_iff_getElem] at hpair
  have hdisjoint := hpair 0 (2^(g.bitsAllocator.secondWidth + 1))
    (by rw [List.length_range]; omega) (by rw [List.length_range]; omega) hpos
  simp only [List.getElem_range,Function.onFun] at hdisjoint
  have hagain : g.nextIdsForOneSecond (second + BitVec.ofNat 64 (0 + 1)) =
      g.nextIdsForOneSecond
        (second + BitVec.ofNat 64 (2^(g.bitsAllocator.secondWidth + 1) + 1)) := by
    apply nextIds_congr hg
    rw [delta_add hg,delta_add hg,Nat.zero_add,Nat.add_left_comm _ (2^_),Nat.add_mod_left]
  rw [← hagain] at hdisjoint
  have hsome : g.nextIdsForOneSecond (second + BitVec.ofNat 64 (0 + 1)) ≠ [] := by
    rw [← List.length_pos_iff,length_nextIds hg]
    exact Nat.two_pow_pos _
  obtain ⟨uid,huid⟩ := List.exists_mem_of_ne_nil _ hsome
  exact hdisjoint huid huid

end CachedUidGenerator
end ImSingle.Uid
