import ImSingle.Uid.BitsAllocator
import ImSingle.Library.Transition

/-! `DefaultUidGenerator`: how it is set up, and a run of `getUID` calls driven by what the
clock shows. `nextId` is synchronized, so the calls follow one another; one call may read the
clock many times while it waits for the next second, and every reading is a step. -/
namespace ImSingle.Uid
open Library

/-- `TimeUnit.MILLISECONDS.toSeconds`, which cuts off towards zero. -/
def toSeconds (millis : Long) : Long := millis.sdiv 1000

/-- `TimeUnit.SECONDS.toMillis`, which saturates. -/
def toMillis (seconds : Long) : Long :=
  BitVec.ofInt 64 (max (-2^63) (min (2^63 - 1) (seconds.toInt * 1000)))

theorem toInt_toSeconds (millis : Long) : (toSeconds millis).toInt = millis.toInt.tdiv 1000 := by
  rw [toSeconds,BitVec.toInt_sdiv_of_ne_or_ne _ _ (.inr (by decide))]
  rfl

/-- A number of seconds is far from the ends of a `long`. -/
theorem toSeconds_bounds (millis : Long) :
    -2^54 < (toSeconds millis).toInt ∧ (toSeconds millis).toInt < 2^54 := by
  have hlo := Long.neg_two_pow_le_toInt millis
  have hhi := Long.toInt_lt_two_pow millis
  rw [toInt_toSeconds]
  cases le_total 0 millis.toInt with
  | inl h =>
    rw [Int.tdiv_eq_ediv_of_nonneg h]
    omega
  | inr h =>
    rw [← neg_neg millis.toInt,Int.neg_tdiv,Int.tdiv_eq_ediv_of_nonneg (by omega)]
    omega

/-- `Character.isWhitespace`. -/
def isWhitespace (c : Char) : Bool :=
  c.toNat ∈ [0x9,0xa,0xb,0xc,0xd,0x1c,0x1d,0x1e,0x1f,0x20,0x1680,0x2028,0x2029,0x205f,0x3000] ||
    0x2000 ≤ c.toNat && c.toNat ≤ 0x200a && c.toNat ≠ 0x2007

/-- `StringUtils.isNotBlank`; `none` is null. -/
def isNotBlank : Option String → Bool
  | none => false
  | some text => !text.toList.all isWhitespace

/-- The properties of the bean. Its setters drop widths that are not positive, so none ever
is, and the epoch is always a number of milliseconds cut to seconds. -/
structure Properties where
  timeBits : ℤ := 28
  workerBits : ℤ := 22
  seqBits : ℤ := 13
  epochStr : String := "2016-05-20"
  epochSeconds : Long := toSeconds 1463673600000
  bits_pos : 0 < timeBits ∧ 0 < workerBits ∧ 0 < seqBits := by decide
  epoch_millis : ∃ millis, epochSeconds = toSeconds millis := by exact ⟨_,rfl⟩

namespace Properties
variable (p : Properties)

def setTimeBits (timeBits : ℤ) : Properties :=
  if h : timeBits > 0 then { p with timeBits, bits_pos := ⟨h,p.bits_pos.2⟩ } else p

def setWorkerBits (workerBits : ℤ) : Properties :=
  if h : workerBits > 0 then { p with workerBits, bits_pos := ⟨p.bits_pos.1,h,p.bits_pos.2.2⟩ }
  else p

def setSeqBits (seqBits : ℤ) : Properties :=
  if h : seqBits > 0 then { p with seqBits, bits_pos := ⟨p.bits_pos.1,p.bits_pos.2.1,h⟩ }
  else p

/-- The date library reads the day, or throws. -/
def setEpochStr (parseByDayPattern : String → Except UidException Long)
    (epochStr : Option String) : Except UidException Properties :=
  match epochStr with
  | some epochStr =>
    if isNotBlank (some epochStr) then do
      let millis ← parseByDayPattern epochStr
      pure { p with epochStr, epochSeconds := toSeconds millis, epoch_millis := ⟨millis,rfl⟩ }
    else pure p
  | none => pure p

end Properties

/-- The fields that stay as they are once the bean is initialized. -/
structure DefaultUidGenerator where
  bitsAllocator : BitsAllocator
  epochSeconds : Long
  workerId : Long

/-- The fields `nextId` changes, whether a call is waiting in `getNextSecond`, and what the
calls of `getUID` have returned or thrown, oldest first. -/
structure Sequencing where
  sequence : Long
  lastSecond : Long
  waiting : Bool
  results : List (Except UidException Long)

namespace DefaultUidGenerator

/-- `assignWorkerId` stands for the assigner's answer. -/
def afterPropertiesSet (p : Properties) (assignWorkerId : Except UidException Long) :
    Except UidException DefaultUidGenerator := do
  let bitsAllocator ← BitsAllocator.new p.timeBits p.workerBits p.seqBits
  let workerId ← assignWorkerId
  if workerId.toInt > bitsAllocator.maxWorkerId.toInt then
    throw (.runtime ("Worker id " ++ toString workerId.toInt ++ " exceeds the max " ++
      toString bitsAllocator.maxWorkerId.toInt))
  pure ⟨bitsAllocator,p.epochSeconds,workerId⟩

variable (g : DefaultUidGenerator)

/-- The text shows the time as the date library prints it. -/
def parseUID (formatByDateTimePattern : Long → String) (uid : Long) : String :=
  let parsed := g.bitsAllocator.parse uid
  let thatTime := toMillis (g.epochSeconds + parsed.deltaSeconds)
  "\x7b\"UID\":\"" ++ toString uid.toInt ++ "\",\"timestamp\":\"" ++
    formatByDateTimePattern thatTime ++ "\",\"workerId\":\"" ++ toString parsed.workerId.toInt ++
    "\",\"sequence\":\"" ++ toString parsed.sequence.toInt ++ "\"\x7d"

def getCurrentSecond (currentTimeMillis : Long) : Except UidException Long :=
  let currentSecond := toSeconds currentTimeMillis
  if (currentSecond - g.epochSeconds).toInt > g.bitsAllocator.maxDeltaSeconds.toInt then
    .error (.uidGenerate ("Timestamp bits is exhausted. Refusing UID generate. Now: " ++
      toString currentSecond.toInt))
  else .ok currentSecond

/-- A call ends with an exception, which `getUID` wraps. -/
def fail (s : Sequencing) (e : UidException) : Sequencing :=
  { s with waiting := false, results := s.results ++ [.error (.uidGenerateBy e)] }

/-- The end of `nextId`. -/
def succeed (s : Sequencing) (currentSecond : Long) : Sequencing :=
  { s with
    lastSecond := currentSecond
    waiting := false
    results := s.results ++
      [.ok (g.bitsAllocator.allocate (currentSecond - g.epochSeconds) g.workerId s.sequence)] }

/-- `nextId` up to its end or to its first reading in `getNextSecond`. -/
def nextId (s : Sequencing) (currentTimeMillis : Long) : Sequencing :=
  match g.getCurrentSecond currentTimeMillis with
  | .error e => fail s e
  | .ok currentSecond =>
    if currentSecond.toInt < s.lastSecond.toInt then
      fail s (.uidGenerate ("Clock moved backwards. Refusing for " ++
        toString (s.lastSecond - currentSecond).toInt ++ " seconds"))
    else if currentSecond = s.lastSecond then
      let sequence := (s.sequence + 1) &&& g.bitsAllocator.maxSequence
      if sequence = 0 then { s with sequence, waiting := true }
      else g.succeed { s with sequence } currentSecond
    else g.succeed { s with sequence := 0 } currentSecond

/-- One reading of the loop in `getNextSecond`. -/
def getNextSecond (s : Sequencing) (currentTimeMillis : Long) : Sequencing :=
  match g.getCurrentSecond currentTimeMillis with
  | .error e => fail s e
  | .ok timestamp =>
    if timestamp.toInt ≤ s.lastSecond.toInt then s else g.succeed s timestamp

/-- A run of calls, labelled with the readings of `System.currentTimeMillis()`: a reading
either starts a call or is read by the waiting one. -/
def machine : Machine Sequencing Long where
  init := ⟨0,-1,false,[]⟩
  step s currentTimeMillis :=
    if s.waiting then g.getNextSecond s currentTimeMillis else g.nextId s currentTimeMillis

/-- The UIDs handed out. -/
def uids (s : Sequencing) : List Long :=
  s.results.filterMap fun result =>
    match result with
    | .ok uid => some uid
    | .error _ => none

/-- What initialization checks, together with what the database promises: keys are not
negative. -/
structure Ready (g : DefaultUidGenerator) : Prop where
  proper : g.bitsAllocator.Proper
  epoch_millis : ∃ millis, g.epochSeconds = toSeconds millis
  workerId_nonneg : 0 ≤ g.workerId.toInt
  workerId_le : g.workerId.toInt ≤ g.bitsAllocator.maxWorkerId.toInt

/-- What a successful initialization tells. -/
theorem afterPropertiesSet_eq_ok {p : Properties} {id : Long} {g : DefaultUidGenerator}
    (h : afterPropertiesSet p (.ok id) = .ok g) :
    BitsAllocator.new p.timeBits p.workerBits p.seqBits = .ok g.bitsAllocator ∧
      g.epochSeconds = p.epochSeconds ∧ g.workerId = id ∧
        id.toInt ≤ g.bitsAllocator.maxWorkerId.toInt := by
  simp only [afterPropertiesSet] at h
  cases hallocator : BitsAllocator.new p.timeBits p.workerBits p.seqBits with
  | error e =>
    rw [hallocator] at h
    cases h
  | ok bitsAllocator =>
    rw [hallocator] at h
    simp only [bind,Except.bind,throw,throwThe,MonadExceptOf.throw,pure,Except.pure] at h
    split at h
    · cases h
    · next hle =>
      obtain rfl := Except.ok.inj h
      exact ⟨rfl,rfl,rfl,not_lt.mp hle⟩

theorem ready_of_afterPropertiesSet {p : Properties} {id : Long} {g : DefaultUidGenerator}
    (h : afterPropertiesSet p (.ok id) = .ok g) (hid : 0 ≤ id.toInt)
    (hbits : p.timeBits + p.workerBits + p.seqBits < 2^31 - 1) : g.Ready := by
  obtain ⟨hallocator,hepoch,rfl,hle⟩ := afterPropertiesSet_eq_ok h
  simp only [BitsAllocator.new] at hallocator
  split at hallocator
  · have hproper : g.bitsAllocator.Proper := by
      rw [← Except.ok.inj hallocator]
      exact BitsAllocator.proper_of_pos p.bits_pos.1 p.bits_pos.2.1 p.bits_pos.2.2 hbits
    exact ⟨hproper,hepoch ▸ p.epoch_millis,hid,hle⟩
  · cases hallocator

/-- A reading before the epoch, or one past the last second while a call waits, is what the
generator does not survive: the first wraps the second's bits, the second leaves `sequence`
restarted within the old second. -/
def Guard (_ : List Long) (s : Sequencing) (currentTimeMillis : Long) : Prop :=
  g.epochSeconds.toInt ≤ (toSeconds currentTimeMillis).toInt ∧
    (s.waiting = true → (toSeconds currentTimeMillis).toInt - g.epochSeconds.toInt ≤
      g.bitsAllocator.maxDeltaSeconds.toInt)

instance (past : List Long) (s : Sequencing) (millis : Long) :
    Decidable (g.Guard past s millis) := by unfold Guard; infer_instance

section Step
variable {g} {s : Sequencing} {millis : Long}

@[simp] theorem uids_fail (e : UidException) : uids (fail s e) = uids s := by
  simp [uids,fail]

@[simp] theorem uids_succeed (currentSecond : Long) : uids (g.succeed s currentSecond) =
    uids s ++
      [g.bitsAllocator.allocate (currentSecond - g.epochSeconds) g.workerId s.sequence] := by
  simp [uids,succeed]

theorem Ready.toInt_sub_epoch (hg : g.Ready) (millis : Long) :
    (toSeconds millis - g.epochSeconds).toInt =
      (toSeconds millis).toInt - g.epochSeconds.toInt := by
  obtain ⟨epochMillis,hepoch⟩ := hg.epoch_millis
  have hnow := toSeconds_bounds millis
  have hthen := toSeconds_bounds epochMillis
  rw [← hepoch] at hthen
  exact Long.toInt_sub_of_range (by omega) (by omega)

theorem Ready.getCurrentSecond_cases (hg : g.Ready) (millis : Long) :
    (∃ e, g.getCurrentSecond millis = .error e ∧ g.bitsAllocator.maxDeltaSeconds.toInt <
        (toSeconds millis).toInt - g.epochSeconds.toInt) ∨
      g.getCurrentSecond millis = .ok (toSeconds millis) ∧
        (toSeconds millis).toInt - g.epochSeconds.toInt ≤
          g.bitsAllocator.maxDeltaSeconds.toInt := by
  simp only [getCurrentSecond,hg.toInt_sub_epoch]
  split
  · next hgt => exact .inl ⟨_,rfl,hgt⟩
  · next hle => exact .inr ⟨rfl,not_lt.mp hle⟩

/-- Counting up within a second stops at the largest sequence. -/
theorem Ready.toNat_nextSequence (hg : g.Ready)
    (hs : s.sequence.toNat < 2^g.bitsAllocator.sequenceWidth) :
    ((s.sequence + 1) &&& g.bitsAllocator.maxSequence).toNat =
      (s.sequence.toNat + 1) % 2^g.bitsAllocator.sequenceWidth := by
  obtain ⟨-,-,-,_,_,_,htotal⟩ := hg.proper.widths
  have hle : 2^g.bitsAllocator.sequenceWidth ≤ 2^63 :=
    Nat.pow_le_pow_right (by decide) (by omega)
  have hsum : (s.sequence.toNat + 1) % 2^64 = s.sequence.toNat + 1 :=
    Nat.mod_eq_of_lt (by omega)
  rw [BitVec.toNat_and,hg.proper.toNat_maxSequence,Nat.and_two_pow_sub_one_eq_mod,
    BitVec.toNat_add,show (1 : Long).toNat = 1 from rfl,hsum]

/-- Everything one reading can do. -/
inductive Step (g : DefaultUidGenerator) (s : Sequencing) (millis : Long) : Sequencing → Prop
  | fail (e : UidException) (hwaiting : s.waiting = true →
      g.bitsAllocator.maxDeltaSeconds.toInt <
        (toSeconds millis).toInt - g.epochSeconds.toInt) : Step g s millis (fail s e)
  | exhausted (hwaiting : s.waiting = false)
      (hlast : s.sequence.toNat + 1 = 2^g.bitsAllocator.sequenceWidth) :
      Step g s millis { s with sequence := 0, waiting := true }
  | wait (hwaiting : s.waiting = true) : Step g s millis s
  | sameSecond (sequence : Long) (hwaiting : s.waiting = false)
      (hsecond : toSeconds millis = s.lastSecond)
      (hsequence : sequence.toNat = s.sequence.toNat + 1)
      (hlt : sequence.toNat < 2^g.bitsAllocator.sequenceWidth)
      (hle : (toSeconds millis).toInt - g.epochSeconds.toInt ≤
        g.bitsAllocator.maxDeltaSeconds.toInt) :
      Step g s millis (g.succeed { s with sequence } (toSeconds millis))
  | laterSecond (sequence : Long) (hsecond : s.lastSecond.toInt < (toSeconds millis).toInt)
      (hsequence : sequence = 0 ∨ s.waiting = true ∧ sequence = s.sequence)
      (hle : (toSeconds millis).toInt - g.epochSeconds.toInt ≤
        g.bitsAllocator.maxDeltaSeconds.toInt) :
      Step g s millis (g.succeed { s with sequence } (toSeconds millis))

theorem Ready.step (hg : g.Ready) (millis : Long)
    (hs : s.sequence.toNat < 2^g.bitsAllocator.sequenceWidth) :
    Step g s millis (g.machine.step s millis) := by
  simp only [machine]
  cases hwaiting : s.waiting with
  | true =>
    simp only [if_true,getNextSecond]
    obtain ⟨e,he,hgt⟩ | ⟨hok,hle⟩ := hg.getCurrentSecond_cases millis
    · rw [he]
      exact .fail e fun _ => hgt
    · rw [hok]
      dsimp only
      split_ifs with hlater
      · exact .wait hwaiting
      · exact .laterSecond s.sequence (not_le.mp hlater) (.inr ⟨hwaiting,rfl⟩) hle
  | false =>
    simp only [Bool.false_eq_true,if_false,nextId]
    obtain ⟨e,he,hgt⟩ | ⟨hok,hle⟩ := hg.getCurrentSecond_cases millis
    · rw [he]
      exact .fail e fun h => absurd (hwaiting ▸ h) (by decide)
    · rw [hok]
      dsimp only
      have hnext := hg.toNat_nextSequence hs
      split_ifs with hback hsame hzero
      · exact .fail _ fun h => absurd (hwaiting ▸ h) (by decide)
      · -- the sequence wrapped around: the call goes on in `getNextSecond`
        rw [hzero] at hnext ⊢
        refine .exhausted hwaiting ?_
        have hdvd := Nat.dvd_of_mod_eq_zero hnext.symm
        exact Nat.le_antisymm hs (Nat.le_of_dvd (Nat.succ_pos _) hdvd)
      · have hlt : s.sequence.toNat + 1 < 2^g.bitsAllocator.sequenceWidth := by
          refine lt_of_le_of_ne hs fun heq => hzero (BitVec.eq_of_toNat_eq ?_)
          rw [hnext,heq,Nat.mod_self]
          rfl
        rw [Nat.mod_eq_of_lt hlt] at hnext
        exact .sameSecond _ hwaiting hsame hnext (hnext ▸ hlt) hle
      · have hlater : s.lastSecond.toInt < (toSeconds millis).toInt :=
          lt_of_le_of_ne (not_lt.mp hback) fun h => hsame (BitVec.eq_of_toInt_eq h.symm)
        exact .laterSecond 0 hlater (.inl rfl) hle

end Step
/-- The value of the last UID handed out, or when a call waits, of the last one its second
could still give. -/
def bound (s : Sequencing) : ℤ :=
  let b := g.bitsAllocator
  (s.lastSecond.toInt - g.epochSeconds.toInt) * 2^(b.workerWidth + b.sequenceWidth) +
    (g.workerId.toInt * 2^b.sequenceWidth +
      if s.waiting then 2^b.sequenceWidth - 1 else (s.sequence.toNat : ℤ))

/-- A UID of this generator for a second that one of the readings showed. -/
def FromReading (past : List Long) (uid : Long) : Prop :=
  ∃ millis ∈ past, ∃ sequence : Long,
    g.bitsAllocator.InRange ⟨toSeconds millis - g.epochSeconds,g.workerId,sequence⟩ ∧
      uid = g.bitsAllocator.allocate (toSeconds millis - g.epochSeconds) g.workerId sequence

structure Inv (past : List Long) (s : Sequencing) : Prop where
  sequence_lt : s.sequence.toNat < 2^g.bitsAllocator.sequenceWidth
  waiting_sequence : s.waiting = true → s.sequence = 0
  increasing : (uids s).Pairwise fun uid later => uid.toInt < later.toInt
  bounded : ∀ uid ∈ uids s, uid.toInt ≤ g.bound s
  fromReading : ∀ uid ∈ uids s, g.FromReading past uid

section Inv
variable {g} (hg : g.Ready) {past : List Long} {s : Sequencing} {millis : Long}
include hg

/-- A call that succeeds keeps the invariant when its value exceeds the old bound. -/
theorem Inv.succeed (h : g.Inv past s) {sequence : Long}
    (hseq : sequence.toNat < 2^g.bitsAllocator.sequenceWidth)
    (hlo : g.epochSeconds.toInt ≤ (toSeconds millis).toInt)
    (hhi : (toSeconds millis).toInt - g.epochSeconds.toInt ≤
      g.bitsAllocator.maxDeltaSeconds.toInt)
    (hbound : g.bound s < g.bound
      { s with sequence, lastSecond := toSeconds millis, waiting := false }) :
    g.Inv (past ++ [millis]) (g.succeed { s with sequence } (toSeconds millis)) := by
  have hwidths := hg.proper.widths
  have hseqBounds := Long.toInt_bounds_of_lt (by omega) hseq
  have hrange : g.bitsAllocator.InRange
      ⟨toSeconds millis - g.epochSeconds,g.workerId,sequence⟩ :=
    ⟨by rw [hg.toInt_sub_epoch]; omega, by rw [hg.toInt_sub_epoch]; exact hhi,
      hg.workerId_nonneg, hg.workerId_le, hseqBounds.1,
      hseqBounds.2.trans_eq hg.proper.toInt_maxSequence.symm⟩
  have hvalue : (g.bitsAllocator.allocate (toSeconds millis - g.epochSeconds) g.workerId
      sequence).toInt = g.bound
        { s with sequence, lastSecond := toSeconds millis, waiting := false } := by
    have hvalue := hrange.toInt_allocate hg.proper
    rw [hg.toInt_sub_epoch,← Long.toNat_of_nonneg hseqBounds.1] at hvalue
    exact hvalue
  refine ⟨hseq,fun hwaiting => (Bool.false_ne_true hwaiting).elim,?_,?_,?_⟩
  · rw [uids_succeed]
    refine List.pairwise_append.mpr ⟨h.increasing,List.pairwise_singleton _ _,?_⟩
    intro uid huid later hlater
    rw [List.mem_singleton.mp hlater,hvalue]
    exact (h.bounded uid huid).trans_lt hbound
  · intro uid huid
    rw [uids_succeed,List.mem_append,List.mem_singleton] at huid
    obtain huid | rfl := huid
    · exact (h.bounded uid huid).trans hbound.le
    · exact hvalue.le
  · intro uid huid
    rw [uids_succeed,List.mem_append,List.mem_singleton] at huid
    obtain huid | rfl := huid
    · obtain ⟨earlier,hmem,rest⟩ := h.fromReading uid huid
      exact ⟨earlier,List.mem_append_left _ hmem,rest⟩
    · exact ⟨millis,by simp,sequence,hrange,rfl⟩

/-- In a later second every value is larger. -/
theorem bound_lt_of_later (hs : s.sequence.toNat < 2^g.bitsAllocator.sequenceWidth)
    {sequence : Long} (hseq : sequence.toNat < 2^g.bitsAllocator.sequenceWidth)
    (hlater : s.lastSecond.toInt < (toSeconds millis).toInt) :
    g.bound s < g.bound
      { s with sequence, lastSecond := toSeconds millis, waiting := false } := by
  have low : ∀ {k : ℤ}, 0 ≤ k → k < 2^g.bitsAllocator.sequenceWidth →
      0 ≤ g.workerId.toInt * 2^g.bitsAllocator.sequenceWidth + k ∧
        g.workerId.toInt * 2^g.bitsAllocator.sequenceWidth + k <
          2^(g.bitsAllocator.workerWidth + g.bitsAllocator.sequenceWidth) := by
    intro k hk hlt
    have hw := hg.workerId_nonneg
    have hmax := hg.workerId_le.trans_eq hg.proper.toInt_maxWorkerId
    refine ⟨by positivity,?_⟩
    rw [pow_add]
    nlinarith [Nat.two_pow_pos g.bitsAllocator.sequenceWidth]
  have hcast : ∀ {n : ℕ}, n < 2^g.bitsAllocator.sequenceWidth →
      (n : ℤ) < 2^g.bitsAllocator.sequenceWidth := fun hn => by exact_mod_cast hn
  obtain ⟨hold0,hold1⟩ := low
    (k := if s.waiting then 2^g.bitsAllocator.sequenceWidth - 1 else (s.sequence.toNat : ℤ))
    (by split <;> [exact sub_nonneg.mpr (one_le_pow₀ (by norm_num)); positivity])
    (by split <;> [omega; exact hcast hs])
  obtain ⟨hnew0,hnew1⟩ := low (Int.natCast_nonneg _) (hcast hseq)
  simp only [bound,Bool.false_eq_true,if_false]
  exact (mul_add_lt_mul_add_iff hold0 hold1 hnew0 hnew1).mpr (.inl (by omega))

theorem Inv.step (h : g.Inv past s) (hguard : g.Guard past s millis) :
    g.Inv (past ++ [millis]) (g.machine.step s millis) := by
  have hmono : ∀ uid ∈ uids s, g.FromReading (past ++ [millis]) uid := by
    intro uid huid
    obtain ⟨earlier,hmem,rest⟩ := h.fromReading uid huid
    exact ⟨earlier,List.mem_append_left _ hmem,rest⟩
  have hpos : 0 < 2^g.bitsAllocator.sequenceWidth := Nat.two_pow_pos _
  have hstep := hg.step millis h.sequence_lt
  generalize g.machine.step s millis = s' at hstep ⊢
  cases hstep with
  | fail e hwaiting =>
    have hnot : s.waiting = false := by
      cases hs : s.waiting with
      | false => rfl
      | true => exact absurd (hwaiting hs) (not_lt.mpr (hguard.2 hs))
    have hbound : g.bound (DefaultUidGenerator.fail s e) = g.bound s := by
      simp [bound,DefaultUidGenerator.fail,hnot]
    refine ⟨h.sequence_lt,fun hs => (Bool.false_ne_true hs).elim,?_,?_,?_⟩
    · rw [uids_fail]; exact h.increasing
    · rw [uids_fail,hbound]; exact h.bounded
    · rw [uids_fail]; exact hmono
  | exhausted hwaiting hlast =>
    refine ⟨hpos,fun _ => rfl,h.increasing,fun uid huid => ?_,hmono⟩
    refine (h.bounded uid huid).trans_eq ?_
    have hlast' : (s.sequence.toNat : ℤ) = 2^g.bitsAllocator.sequenceWidth - 1 := by
      have hcast : (s.sequence.toNat : ℤ) + 1 = 2^g.bitsAllocator.sequenceWidth := by
        exact_mod_cast hlast
      omega
    simp [bound,hwaiting,hlast']
  | wait => exact ⟨h.sequence_lt,h.waiting_sequence,h.increasing,h.bounded,hmono⟩
  | sameSecond sequence hwaiting hsecond hsequence hlt hle =>
    refine h.succeed hg hlt hguard.1 hle ?_
    simp [bound,hwaiting,hsecond,hsequence]
  | laterSecond sequence hsecond hsequence hle =>
    have hseq : sequence.toNat < 2^g.bitsAllocator.sequenceWidth := by
      obtain rfl | ⟨-,rfl⟩ := hsequence
      · exact hpos
      · exact h.sequence_lt
    exact h.succeed hg hseq hguard.1 hle (bound_lt_of_later hg h.sequence_lt hseq hsecond)

theorem inv_after {readings : List Long} (h : g.machine.Meets g.Guard readings) :
    g.Inv readings (g.machine.after readings) := by
  refine Machine.invariant (P := g.Inv) ?_ (fun past millis _ hinv hguard => ?_) h
  · exact ⟨Nat.two_pow_pos _,fun hs => (Bool.false_ne_true hs).elim,List.Pairwise.nil,
      by simp [uids,machine],by simp [uids,machine]⟩
  · exact hinv.step hg hguard

end Inv

/-- However the clock jumps, the UIDs of a run increase, are never negative, and parse to the
worker id and to a second that the clock showed. -/
theorem getUID_increasing {g : DefaultUidGenerator} (hg : g.Ready) {readings : List Long}
    (h : g.machine.Meets g.Guard readings) :
    (uids (g.machine.after readings)).Pairwise (fun uid later => uid.toInt < later.toInt) ∧
      ∀ uid ∈ uids (g.machine.after readings),
        0 ≤ uid.toInt ∧ (g.bitsAllocator.parse uid).workerId = g.workerId ∧
          ∃ millis ∈ readings, (g.bitsAllocator.parse uid).deltaSeconds.toInt =
            (toSeconds millis).toInt - g.epochSeconds.toInt := by
  have hinv := inv_after hg h
  refine ⟨hinv.increasing,fun uid huid => ?_⟩
  obtain ⟨millis,hmem,sequence,hrange,rfl⟩ := hinv.fromReading uid huid
  have hparse := hrange.parse_allocate hg.proper
  dsimp only at hparse
  rw [hparse]
  exact ⟨hrange.allocate_nonneg hg.proper,rfl,millis,hmem,hg.toInt_sub_epoch millis⟩

/-- Two UIDs in one second and one in the next, with the clock set back in between. -/
theorem getUID_increasing_default :
    let g : DefaultUidGenerator := ⟨⟨28,22,13,by decide⟩,toSeconds 1463673600000,7⟩
    let readings : List Long := [1700000000000,1700000000500,1699999999000,1700000001000]
    (uids (g.machine.after readings)).length = 3 ∧
      (uids (g.machine.after readings)).Pairwise fun uid later => uid.toInt < later.toInt :=
  ⟨by decide,(getUID_increasing ⟨⟨by decide,by decide,by decide,by decide⟩,
    ⟨1463673600000,rfl⟩,by decide,by decide⟩ (by decide)).1⟩

/- A wait that ends in the exhaustion error has already restarted `sequence`: when the clock
is set back to the same second, its UIDs come a second time. -/
example :
    let g : DefaultUidGenerator := ⟨⟨2,60,1,by decide⟩,toSeconds 1463673600000,7⟩
    let readings : List Long := [1463673603000,1463673603000,1463673603000,1463673604000,
      1463673603000]
    ¬(uids (g.machine.after readings)).Nodup := by decide

end DefaultUidGenerator
end ImSingle.Uid
