import ImSingle.Uid.PaddingRun

/-! A padding task that no other thread interrupts fills the slots that are left until the tail
catches the cursor, and then ends. -/
namespace ImSingle.Uid
open Library

namespace RingBuffer
variable (rb : RingBuffer)

/-! ## The buffer at rest -/

/-- A slot is marked for taking for a position that is put and not taken, or by a put that has
yet to publish it. -/
def Marked (s : Threads.State ℕ Ring Pc) : Prop :=
  ∀ i, s.shared.flags i = .canTake →
    (∃ p, s.shared.Live p ∧ rb.calSlotIndex p = i) ∨
      ∃ t uid currentTail, s.pc t = .putPublish uid currentTail ∧
        rb.calSlotIndex (s.shared.tail + 1) = i

/-- What holds when no call is running: what has been claimed has been taken, and only what is
left to take is marked. -/
structure Still (r : Ring) : Prop where
  sound : rb.Sound r
  monitor : r.monitor = none
  claimed : ∀ p, 0 ≤ p → p ≤ r.cursor → p ∈ r.taken
  marked : ∀ i, r.flags i = .canTake → ∃ p, r.Live p ∧ rb.calSlotIndex p = i

/-- How many puts the buffer still accepts. -/
def room (r : Ring) : ℕ := (rb.bufferSize - 1 - (r.tail - max r.cursor 0)).toNat

/-- What an accepted put leaves. -/
def published (r : Ring) (uid : Long) : Ring where
  slots := Function.update r.slots (rb.calSlotIndex (r.tail + 1)) uid
  flags := Function.update r.flags (rb.calSlotIndex (r.tail + 1)) .canTake
  tail := r.tail + 1
  cursor := r.cursor
  monitor := none
  submitted := r.submitted
  puts := r.puts ++ [uid]
  takes := r.takes

/-- Only three actions change what is marked, put or taken. -/
theorem act_frame (t : ℕ) (r : Ring) {pc : Pc} (call : Call)
    (hreset : ∀ nextCursor uid, pc ≠ .takeResetFlag nextCursor uid)
    (hset : ∀ uid currentTail, pc ≠ .putSetFlag uid currentTail)
    (hpublish : ∀ uid currentTail, pc ≠ .putPublish uid currentTail) :
    (rb.act t r pc call).1.flags = r.flags ∧ (rb.act t r pc call).1.tail = r.tail ∧
      (rb.act t r pc call).1.takes = r.takes := by
  cases pc with
  | idle last =>
    cases call with
    | put uid =>
      simp only [act]
      split <;> exact ⟨rfl,rfl,rfl⟩
    | take | go => exact ⟨rfl,rfl,rfl⟩
  | takeReadOld | takeReadTail | takeReadSlot | putReadTail | putWriteSlot => exact ⟨rfl,rfl,rfl⟩
  | takeCompareAndSet | takeCheckThreshold | putReadCursor | putCheckFlag =>
    simp only [act]
    split_ifs <;> exact ⟨rfl,rfl,rfl⟩
  | takeAsyncPadding | takeCheckFlag =>
    simp only [act]
    split <;> exact ⟨rfl,rfl,rfl⟩
  | takeResetFlag nextCursor uid => exact absurd rfl (hreset nextCursor uid)
  | putSetFlag uid currentTail => exact absurd rfl (hset uid currentTail)
  | putPublish uid currentTail => exact absurd rfl (hpublish uid currentTail)

section Marked
variable {rb} {s : Threads.State ℕ Ring Pc} {t : ℕ} {r' : Ring} {pc' : Pc}

/-- An action that only takes, or moves on, leaves a mark its reason. -/
theorem Marked.update (h : rb.Marked s)
    (hpublish : ∀ uid currentTail, s.pc t ≠ .putPublish uid currentTail)
    (htail : r'.tail = s.shared.tail)
    (hflags : ∀ i, r'.flags i = .canTake → s.shared.flags i = .canTake ∧
      ∀ p ∈ r'.taken, rb.calSlotIndex p = i → p ∈ s.shared.taken) :
    rb.Marked ⟨r',Function.update s.pc t pc'⟩ := by
  intro i hi
  obtain ⟨hmark,htaken⟩ := hflags i hi
  obtain ⟨p,hp,hslot⟩ | ⟨u,uid,currentTail,hu,hslot⟩ := h i hmark
  · refine .inl ⟨p,⟨hp.1,htail.symm ▸ hp.2.1,fun hmem => ?_⟩,hslot⟩
    exact hp.2.2 (htaken p hmem hslot)
  · have hne : u ≠ t := by
      rintro rfl
      exact hpublish uid currentTail hu
    refine .inr ⟨u,uid,currentTail,?_,?_⟩
    · exact (Function.update_of_ne hne ..).trans hu
    · rw [htail]
      exact hslot

theorem Marked.step (hholds : rb.outline.Holds s) (h : rb.Marked s) (call : Call) :
    rb.Marked (rb.machine.step s (t,call)) := by
  have hs : rb.Sound s.shared := hholds.shared
  have hhere : rb.Here t s.shared (s.pc t) := hholds.here t
  change rb.Marked ⟨(rb.act t s.shared (s.pc t) call).1,
    Function.update s.pc t (rb.act t s.shared (s.pc t) call).2⟩
  have hquiet : (∀ nextCursor uid, s.pc t ≠ .takeResetFlag nextCursor uid) →
      (∀ uid currentTail, s.pc t ≠ .putSetFlag uid currentTail) →
      (∀ uid currentTail, s.pc t ≠ .putPublish uid currentTail) →
      rb.Marked ⟨(rb.act t s.shared (s.pc t) call).1,
        Function.update s.pc t (rb.act t s.shared (s.pc t) call).2⟩ := by
    intro hreset hset hpublish
    obtain ⟨hflags,htail,htakes⟩ := rb.act_frame t s.shared call hreset hset hpublish
    refine h.update hpublish htail fun i hi => ⟨hflags ▸ hi,fun p hp _ => ?_⟩
    rw [Ring.taken,htakes] at hp
    exact hp
  cases hpc : s.pc t with
  | takeResetFlag nextCursor uid =>
    refine h.update (by rw [hpc]; rintro _ _ ⟨⟩) rfl fun i hi => ?_
    change Function.update s.shared.flags (rb.calSlotIndex nextCursor) .canPut i = .canTake at hi
    have hne : i ≠ rb.calSlotIndex nextCursor := by
      rintro rfl
      rw [Function.update_self] at hi
      cases hi
    rw [Function.update_of_ne hne] at hi
    refine ⟨hi,fun p hp hslot => ?_⟩
    have hp : p ∈ s.shared.taken ++ [nextCursor] := by simpa [act,Ring.taken] using hp
    obtain hold | hnew := List.mem_append.mp hp
    · exact hold
    · rw [List.mem_singleton.mp hnew] at hslot
      exact absurd hslot.symm hne
  | putSetFlag uid currentTail =>
    rw [hpc] at hhere
    obtain rfl : currentTail = s.shared.tail := hhere.at_pc.1.1
    intro i hi
    by_cases hslot : i = rb.calSlotIndex (s.shared.tail + 1)
    · exact .inr ⟨t,uid,s.shared.tail,Function.update_self ..,hslot.symm⟩
    · have hold : s.shared.flags i = .canTake := by
        rw [← hi]
        exact (Function.update_of_ne hslot ..).symm
      obtain hlive | ⟨u,uid',currentTail,hu,heq⟩ := h i hold
      · exact .inl hlive
      · exact absurd heq.symm hslot
  | putPublish uid currentTail =>
    rw [hpc] at hhere
    have hmonitor := hhere.monitor.mpr rfl
    intro i hi
    left
    obtain ⟨p,hp,hslot⟩ | ⟨u,uid',currentTail',hu,hslot⟩ := h i hi
    · exact ⟨p,⟨hp.1,hp.2.1.trans (lt_add_one s.shared.tail).le,hp.2.2⟩,hslot⟩
    · have hge := hs.cursor_ge
      have hle := hs.cursor_le
      refine ⟨s.shared.tail + 1,⟨by omega,le_rfl,fun hmem => ?_⟩,hslot⟩
      obtain ⟨x,hx,hxp⟩ := List.mem_map.mp hmem
      have hcursor := (hs.takes x hx).2.1
      omega
  | idle | takeReadOld | takeReadTail | takeCompareAndSet | takeCheckThreshold
  | takeAsyncPadding | takeCheckFlag | takeReadSlot | putReadTail | putReadCursor
  | putCheckFlag | putWriteSlot =>
    rw [hpc] at hquiet
    exact hquiet (by rintro _ _ ⟨⟩) (by rintro _ _ ⟨⟩) (by rintro _ _ ⟨⟩)

end Marked

section Run
variable {rb} {ops : List (ℕ × Call)}

theorem marked_after (h : rb.machine.Meets rb.guard ops) : rb.Marked (rb.machine.after ops) := by
  refine Machine.invariant (M := rb.machine) (P := fun _ s => rb.Marked s) ?_ ?_ h
  · intro i hi
    cases hi
  · intro past a hpast hmarked _
    exact hmarked.step (holds_after hpast) a.2

/-- Between the calls the buffer is at rest. -/
theorem still_after (h : rb.machine.Meets rb.guard ops)
    (hrest : ∀ t, ∃ last, (rb.machine.after ops).pc t = .idle last) :
    rb.Still (rb.machine.after ops).shared where
  sound := (holds_after h).shared
  monitor := by
    cases hmonitor : (rb.machine.after ops).shared.monitor with
    | none => rfl
    | some t =>
      obtain ⟨last,hlast⟩ := hrest t
      have hput := ((holds_after h).here t).monitor.mp hmonitor
      rw [hlast] at hput
      cases hput
  claimed p h0 hp := by
    obtain htaken | ⟨t,ht⟩ := claimed_after h h0 hp
    · exact htaken
    · obtain ⟨last,hlast⟩ := hrest t
      rw [hlast] at ht
      cases ht
  marked i hi := by
    obtain hlive | ⟨t,uid,currentTail,ht,-⟩ := marked_after h i hi
    · exact hlive
    · obtain ⟨last,hlast⟩ := hrest t
      rw [hlast] at ht
      cases ht

end Run

/-! ## A put with the buffer to itself -/

section Still
variable {rb} {r : Ring}

/-- With room left, the last position that used the next slot has been taken. -/
theorem Still.clear (h : rb.Still r) (hroom : 0 < rb.room r) : rb.Clear r := by
  intro p hp
  have hcursor : r.cursor < p := by
    by_contra hle
    exact hp.2.2 (h.claimed p hp.1 (not_lt.mp hle))
  have h0 := hp.1
  simp only [room] at hroom
  omega

theorem Still.canPut (h : rb.Still r) (hroom : 0 < rb.room r) :
    r.flags (rb.calSlotIndex (r.tail + 1)) = .canPut := by
  cases hflag : r.flags (rb.calSlotIndex (r.tail + 1)) with
  | canPut => rfl
  | canTake =>
    obtain ⟨p,hp,hslot⟩ := h.marked _ hflag
    exact absurd hslot ((h.clear hroom).slot_ne hp)

theorem room_published (uid : Long) : rb.room (rb.published r uid) = rb.room r - 1 := by
  simp only [room,published]
  omega

theorem Still.published (h : rb.Still r) (hroom : 0 < rb.room r) (uid : Long) :
    rb.Still (rb.published r uid) where
  sound := by
    have hclear := h.clear hroom
    have hlt : rb.Room r r.tail := by
      refine ⟨rfl,?_⟩
      simp only [room] at hroom
      omega
    have hwritten : rb.Sound { r with
        slots := Function.update r.slots (rb.calSlotIndex (r.tail + 1)) uid
        flags := Function.update r.flags (rb.calSlotIndex (r.tail + 1)) .canTake } :=
      (h.sound.writeSlot hclear uid).setFlag hclear
    exact hwritten.publish hlt hclear (Function.update_self ..) (Function.update_self ..)
  monitor := rfl
  claimed := h.claimed
  marked i hi := by
    have hge := h.sound.cursor_ge
    have hle := h.sound.cursor_le
    by_cases hslot : i = rb.calSlotIndex (r.tail + 1)
    · refine ⟨r.tail + 1,⟨by omega,le_rfl,fun hmem => ?_⟩,hslot.symm⟩
      obtain ⟨x,hx,hxp⟩ := List.mem_map.mp hmem
      have hcursor := (h.sound.takes x hx).2.1
      omega
    · have hold : r.flags i = .canTake := by
        rw [← hi]
        exact (Function.update_of_ne hslot ..).symm
      obtain ⟨p,hp,heq⟩ := h.marked i hold
      exact ⟨p,⟨hp.1,hp.2.1.trans (lt_add_one r.tail).le,hp.2.2⟩,heq⟩

theorem cursor_foldl_published (uids : List Long) :
    (uids.foldl rb.published r).cursor = r.cursor := by
  induction uids generalizing r with
  | nil => rfl
  | cons uid uids ih => exact ih

theorem takes_foldl_published (uids : List Long) :
    (uids.foldl rb.published r).takes = r.takes := by
  induction uids generalizing r with
  | nil => rfl
  | cons uid uids ih => exact ih

theorem puts_foldl_published (uids : List Long) :
    (uids.foldl rb.published r).puts = r.puts ++ uids := by
  induction uids generalizing r with
  | nil => simp
  | cons uid uids ih =>
    rw [List.foldl_cons,ih]
    simp [published]

theorem room_foldl_published (uids : List Long) :
    rb.room (uids.foldl rb.published r) = rb.room r - uids.length := by
  induction uids generalizing r with
  | nil => rfl
  | cons uid uids ih =>
    rw [List.foldl_cons,ih,room_published,List.length_cons]
    omega

theorem Still.foldl_published (h : rb.Still r) {uids : List Long}
    (hroom : uids.length ≤ rb.room r) : rb.Still (uids.foldl rb.published r) := by
  induction uids generalizing r with
  | nil => exact h
  | cons uid uids ih =>
    rw [List.length_cons] at hroom
    refine ih (h.published (by omega) uid) ?_
    rw [room_published]
    omega

end Still
end RingBuffer

namespace CachedUidGenerator
variable {g : CachedUidGenerator} {currentTimeMillis : Long} {t : ℕ}

/-! ## A padding task alone -/

/-- The actions of one thread in `paddingBuffer`, with no other thread in between. -/
abbrev Alone (g : CachedUidGenerator) (currentTimeMillis : Long) (t : ℕ) :
    Padded × Worker → Padded × Worker → Prop :=
  Relation.ReflTransGen ((g.threads currentTimeMillis).Moves t .go)

section Put
variable {s : Padded} {uid : Long} {rest : List Long} {last : Option Outcome}

theorem moves_put {pc : Pc} (hpc : ∀ last, pc ≠ .idle last) :
    (g.threads currentTimeMillis).Moves t .go (s,⟨pc,.fill rest⟩)
      (afterPut rest (g.onRing t s pc .go)) := by
  cases pc with
  | idle last => exact absurd rfl (hpc last)
  | takeReadOld | takeReadTail | takeCompareAndSet | takeCheckThreshold | takeAsyncPadding
  | takeCheckFlag | takeReadSlot | takeResetFlag | putReadTail | putReadCursor | putCheckFlag
  | putWriteSlot | putSetFlag | putPublish => cases rest <;> rfl

/-- One action of a running put that does not reject. -/
theorem moves_onward {r r' : Ring} {pc pc' : Pc} (hpc : ∀ last, pc ≠ .idle last)
    (hact : g.ringBuffer.act t r pc .go = (r',pc')) (hnext : pc' ≠ .idle (some (.put false))) :
    (g.threads currentTimeMillis).Moves t .go ({ s with ring := r },⟨pc,.fill rest⟩)
      ({ s with ring := r' },⟨pc',.fill rest⟩) := by
  have hmove := @moves_put g currentTimeMillis t { s with ring := r } rest pc hpc
  simp only [onRing,hact,afterPut] at hmove
  exact hmove

theorem moves_begin (hmonitor : s.ring.monitor = none) :
    (g.threads currentTimeMillis).Moves t .go (s,⟨.idle last,.fill (uid :: rest)⟩)
      ({ s with ring := { s.ring with monitor := some t } },⟨.putReadTail uid,.fill rest⟩) := by
  change g.act t s ⟨.idle last,.fill (uid :: rest)⟩ .go = _
  simp only [act,onRing,RingBuffer.act,hmonitor]

theorem alone_accepted (h : g.ringBuffer.Still s.ring) (hroom : 0 < g.ringBuffer.room s.ring) :
    g.Alone currentTimeMillis t (s,⟨.idle last,.fill (uid :: rest)⟩)
      ({ s with ring := g.ringBuffer.published s.ring uid },
        ⟨.idle (some (.put true)),.fill rest⟩) := by
  have hflag := h.canPut hroom
  have hfree : ¬ s.ring.tail - (if s.ring.cursor = START_POINT then 0 else s.ring.cursor) =
      g.ringBuffer.bufferSize - 1 := by
    have hge := h.sound.cursor_ge
    simp only [RingBuffer.room] at hroom
    simp only [START_POINT]
    split_ifs <;> omega
  refine .head (moves_begin h.monitor) ?_
  refine .head (moves_onward (by rintro _ ⟨⟩) rfl (by rintro ⟨⟩)) ?_
  refine .head (moves_onward (by rintro _ ⟨⟩) (if_neg hfree) (by rintro ⟨⟩)) ?_
  refine .head (moves_onward (by rintro _ ⟨⟩) (if_neg (not_not.mpr hflag)) (by rintro ⟨⟩)) ?_
  refine .head (moves_onward (by rintro _ ⟨⟩) rfl (by rintro ⟨⟩)) ?_
  refine .head (moves_onward (by rintro _ ⟨⟩) rfl (by rintro ⟨⟩)) ?_
  exact .single (moves_onward (by rintro _ ⟨⟩) rfl (by rintro ⟨⟩))

theorem alone_rejected (h : g.ringBuffer.Still s.ring) (hroom : g.ringBuffer.room s.ring = 0) :
    g.Alone currentTimeMillis t (s,⟨.idle last,.fill (uid :: rest)⟩)
      (s,⟨.idle (some (.put false)),.finish⟩) := by
  have hfull : s.ring.tail - (if s.ring.cursor = START_POINT then 0 else s.ring.cursor) =
      g.ringBuffer.bufferSize - 1 := by
    have hge := h.sound.cursor_ge
    have hle := h.sound.room
    simp only [RingBuffer.room] at hroom
    simp only [START_POINT]
    split_ifs <;> omega
  have hlast := @moves_put g currentTimeMillis t { s with ring.monitor := some t } rest
    (.putReadCursor uid s.ring.tail) (by rintro _ ⟨⟩)
  have hact : g.ringBuffer.act t { s.ring with monitor := some t }
      (.putReadCursor uid s.ring.tail) .go = (s.ring,.idle (some (.put false))) := by
    refine (if_pos hfull).trans ?_
    rw [RingBuffer.leave,← h.monitor]
  rw [onRing,hact] at hlast
  refine .head (moves_begin h.monitor) ?_
  refine .head (moves_onward (by rintro _ ⟨⟩) rfl (by rintro ⟨⟩)) ?_
  exact .single hlast

/-- Putting one second's UIDs: as many as fit, and if not all do the task is to end. -/
theorem alone_fill (h : g.ringBuffer.Still s.ring) :
    ∃ outcome, g.Alone currentTimeMillis t (s,⟨.idle last,.fill rest⟩)
      ({ s with ring :=
          (rest.take (g.ringBuffer.room s.ring)).foldl g.ringBuffer.published s.ring },
        ⟨.idle outcome,
          if rest.length ≤ g.ringBuffer.room s.ring then .fill [] else .finish⟩) := by
  induction rest generalizing s last with
  | nil =>
    rw [List.take_nil]
    exact ⟨last,.refl⟩
  | cons uid rest ih =>
    cases hroom : g.ringBuffer.room s.ring with
    | zero => exact ⟨_,alone_rejected h hroom⟩
    | succ k =>
      have hpos : 0 < g.ringBuffer.room s.ring := by omega
      obtain ⟨outcome,hrest⟩ := @ih { s with ring := g.ringBuffer.published s.ring uid }
        (some (.put true)) (h.published hpos uid)
      have hk : g.ringBuffer.room (g.ringBuffer.published s.ring uid) = k := by
        rw [RingBuffer.room_published,hroom]
        rfl
      refine ⟨outcome,(alone_accepted h hpos).trans ?_⟩
      simp only [hk] at hrest
      simp only [List.length_cons,Nat.add_le_add_iff_right,List.take_succ_cons,List.foldl_cons]
      exact hrest

end Put

/-! ## The loop over the seconds -/

theorem secondsAfter_cons (second : Long) (count : ℕ) :
    secondsAfter second (count + 1) = (second + 1) :: secondsAfter (second + 1) count := by
  simp only [secondsAfter,List.range_succ_eq_map,List.map_cons,List.map_map]
  congr 1
  refine List.map_congr_left fun i _ => ?_
  have hsucc : BitVec.ofNat 64 (i + 1 + 1) = 1 + BitVec.ofNat 64 (i + 1) := by
    rw [Nat.add_comm (i + 1) 1]
    exact BitVec.ofNat_add ..
  rw [Function.comp_apply,Nat.succ_eq_add_one,hsucc,BitVec.add_assoc]

/-- What a padding task leaves: the room is filled with the UIDs of the next seconds. -/
def padded (g : CachedUidGenerator) (s : Padded) : Padded :=
  let room := g.ringBuffer.room s.ring
  let count := room / 2^g.bitsAllocator.sequenceWidth + 1
  { ring := (((secondsAfter s.lastSecond count).flatMap g.nextIdsForOneSecond).take room).foldl
      g.ringBuffer.published s.ring
    running := false
    lastSecond := s.lastSecond + BitVec.ofNat 64 count
    provided := s.provided + count }

section Padded
variable {s : Padded} {last : Option Outcome}

/-- The second that does not fit whole is the last one. -/
theorem padded_of_lt
    (hroom : g.ringBuffer.room s.ring < 2^g.bitsAllocator.sequenceWidth) :
    g.padded s =
      { ring := ((g.nextIdsForOneSecond (s.lastSecond + 1)).take
          (g.ringBuffer.room s.ring)).foldl g.ringBuffer.published s.ring
        running := false
        lastSecond := s.lastSecond + 1
        provided := s.provided + 1 } := by
  simp only [padded,Nat.div_eq_of_lt hroom,secondsAfter_cons,List.flatMap_cons]
  simp [secondsAfter]

/-- After a second that fits whole the task goes on with the next. -/
theorem padded_of_le (hg : g.Ready)
    (hroom : 2^g.bitsAllocator.sequenceWidth ≤ g.ringBuffer.room s.ring) :
    g.padded s = g.padded
      { ring := (g.nextIdsForOneSecond (s.lastSecond + 1)).foldl g.ringBuffer.published s.ring
        running := s.running
        lastSecond := s.lastSecond + 1
        provided := s.provided + 1 } := by
  have hsize := Nat.two_pow_pos g.bitsAllocator.sequenceWidth
  have hlength := length_nextIds hg (s.lastSecond + 1)
  obtain ⟨more,hmore⟩ := Nat.exists_eq_add_of_le hroom
  have hdiv : g.ringBuffer.room s.ring / 2^g.bitsAllocator.sequenceWidth =
      more / 2^g.bitsAllocator.sequenceWidth + 1 := by
    rw [hmore,Nat.add_comm,Nat.add_div_right _ hsize]
  have hless : g.ringBuffer.room s.ring - 2^g.bitsAllocator.sequenceWidth = more := by omega
  simp only [padded,RingBuffer.room_foldl_published,hlength,hdiv,hless]
  rw [secondsAfter_cons,List.flatMap_cons,List.take_append,hlength,hless,List.foldl_append,
    List.take_of_length_le (by omega)]
  congr 1
  · rw [Nat.add_comm _ 1,BitVec.ofNat_add,← BitVec.add_assoc]
    rfl
  · omega

theorem alone_padding (hg : g.Ready) (h : g.ringBuffer.Still s.ring) :
    ∃ outcome, g.Alone currentTimeMillis t (s,⟨.idle last,.provide⟩)
      (g.padded s,⟨.idle outcome,.none⟩) := by
  have hsize := Nat.two_pow_pos g.bitsAllocator.sequenceWidth
  induction hroom : g.ringBuffer.room s.ring using Nat.strong_induction_on generalizing s last with
  | _ room ih =>
    have hlength := length_nextIds hg (s.lastSecond + 1)
    have hprovide : (g.threads currentTimeMillis).Moves t .go (s,⟨.idle last,.provide⟩)
        ({ s with lastSecond := s.lastSecond + 1, provided := s.provided + 1 },
          ⟨.idle last,.fill (g.nextIdsForOneSecond (s.lastSecond + 1))⟩) := rfl
    obtain ⟨outcome,hfill⟩ := @alone_fill g currentTimeMillis t
      { s with lastSecond := s.lastSecond + 1, provided := s.provided + 1 }
      (g.nextIdsForOneSecond (s.lastSecond + 1)) last h
    by_cases hle : 2^g.bitsAllocator.sequenceWidth ≤ g.ringBuffer.room s.ring
    · rw [padded_of_le hg hle]
      rw [if_pos (hlength.trans_le hle),List.take_of_length_le (hlength.trans_le hle)] at hfill
      obtain ⟨outcome',hrest⟩ := @ih (room - 2^g.bitsAllocator.sequenceWidth) (by omega)
        { ring := (g.nextIdsForOneSecond (s.lastSecond + 1)).foldl
            g.ringBuffer.published s.ring
          running := s.running
          lastSecond := s.lastSecond + 1
          provided := s.provided + 1 } outcome
        (h.foldl_published (hlength.trans_le hle))
        (by rw [RingBuffer.room_foldl_published,hlength,hroom])
      exact ⟨outcome',.head hprovide (hfill.trans (.head rfl hrest))⟩
    · rw [padded_of_lt (not_le.mp hle)]
      rw [if_neg (by rw [hlength]; exact hle)] at hfill
      exact ⟨outcome,.head hprovide (hfill.tail rfl)⟩

end Padded
section Run
variable {ops : List (ℕ × Task)}

/-- A thread leaves `paddingBuffer` only by giving the executor's flag back. -/
theorem Effect.running_of_none {s s' : Padded} {w w' : Worker} (h : g.Effect t s w s' w')
    (hnone : w'.padding = .none) :
    s'.running = false ∨ w.padding = .none ∧ s'.running = s.running := by
  cases h with
  | rest => exact .inr ⟨hnone,rfl⟩
  | begin | put | provide | again => cases hnone
  | ring call padding _ hpadding =>
    obtain rfl | ⟨-,rfl,-⟩ := hpadding
    · exact .inr ⟨hnone,rfl⟩
    · cases hnone
  | finish => exact .inl rfl

/-- Between two padding tasks the flag is free. -/
theorem running_after
    (h : (g.machine currentTimeMillis).Meets (g.guard currentTimeMillis) ops)
    (hrest : ∀ u, (((g.machine currentTimeMillis).after ops).pc u).padding = .none) :
    ((g.machine currentTimeMillis).after ops).shared.running = false := by
  have hpads : ((g.machine currentTimeMillis).after ops).shared.running = true →
      ∃ u, (((g.machine currentTimeMillis).after ops).pc u).padding ≠ .none := by
    refine Machine.invariant (M := g.machine currentTimeMillis) (P := fun _ s =>
      s.shared.running = true → ∃ u, (s.pc u).padding ≠ .none) (by rintro ⟨⟩) ?_ h
    intro past a _ ih _ hrunning
    obtain ⟨u,task⟩ := a
    by_cases hnone : (g.act u ((g.machine currentTimeMillis).after past).shared
        (((g.machine currentTimeMillis).after past).pc u) task).2.padding = .none
    · have hrunning : (g.act u ((g.machine currentTimeMillis).after past).shared
        (((g.machine currentTimeMillis).after past).pc u) task).1.running = true := hrunning
      obtain hfree | ⟨hold,hsame⟩ := effect_act.running_of_none hnone
      · rw [hfree] at hrunning
        cases hrunning
      · obtain ⟨v,hv⟩ := ih (hsame ▸ hrunning)
        have hvu : v ≠ u := by
          rintro rfl
          exact hv hold
        refine ⟨v,?_⟩
        rw [Threads.machine_step_pc_of_ne _ _ _ hvu]
        exact hv
    · refine ⟨u,?_⟩
      rw [Threads.machine_step_pc_self]
      exact hnone
  cases hrunning : ((g.machine currentTimeMillis).after ops).shared.running with
  | false => rfl
  | true =>
    obtain ⟨u,hu⟩ := hpads hrunning
    exact absurd (hrest u) hu

theorem ring_still_after
    (h : (g.machine currentTimeMillis).Meets (g.guard currentTimeMillis) ops)
    (hrest : ∀ u, ∃ last, ((g.machine currentTimeMillis).after ops).pc u = ⟨.idle last,.none⟩) :
    g.ringBuffer.Still ((g.machine currentTimeMillis).after ops).shared.ring := by
  obtain ⟨ops',hmeets,hring⟩ := ringPart_after h
  have hstill := RingBuffer.still_after hmeets fun u => by
    obtain ⟨last,hlast⟩ := hrest u
    refine ⟨last,?_⟩
    rw [← hring]
    exact congrArg Worker.ring hlast
  rw [← hring] at hstill
  exact hstill

end Run

/-- The seconds asked for have UIDs for all the room, and the task uses up the room. -/
theorem room_padded (hg : g.Ready) (s : Padded) : g.ringBuffer.room (g.padded s).ring = 0 := by
  have hsize := Nat.two_pow_pos g.bitsAllocator.sequenceWidth
  have hlength : ((secondsAfter s.lastSecond (g.ringBuffer.room s.ring /
      2^g.bitsAllocator.sequenceWidth + 1)).flatMap g.nextIdsForOneSecond).length =
        (g.ringBuffer.room s.ring / 2^g.bitsAllocator.sequenceWidth + 1) *
          2^g.bitsAllocator.sequenceWidth := by
    simp [List.length_flatMap,length_nextIds hg,secondsAfter,Function.comp_def]
  have hlt := Nat.lt_div_mul_add hsize (a := g.ringBuffer.room s.ring)
  rw [padded,RingBuffer.room_foldl_published,List.length_take,hlength,Nat.add_one_mul]
  omega

/-- After any run that keeps to the buffer's guard and has left every thread between its calls,
`paddingBuffer` left to itself returns: it has filled the buffer up to one slot less than a
revolution ahead of the cursor, or to a whole revolution before the first take, with the UIDs of
the seconds after the last one in their order, as many as fit, and has taken nothing. It has gone
on to the second that no longer fits whole. -/
theorem paddingBuffer_fills {g : CachedUidGenerator} (hg : g.Ready) {currentTimeMillis : Long}
    {ops : List (ℕ × Task)}
    (h : (g.machine currentTimeMillis).Meets (g.guard currentTimeMillis) ops)
    (hrest : ∀ u, ∃ last, ((g.machine currentTimeMillis).after ops).pc u = ⟨.idle last,.none⟩)
    (t : ℕ) :
    let s := ((g.machine currentTimeMillis).after ops).shared
    let room := g.ringBuffer.room s.ring
    let seconds := secondsAfter s.lastSecond (room / 2^g.bitsAllocator.sequenceWidth + 1)
    ∃ count,
      let s' := (g.machine currentTimeMillis).after
        (ops ++ (t,.paddingBuffer) :: List.replicate count (t,.go))
      (∃ outcome, s'.pc t = ⟨.idle outcome,.none⟩) ∧ s'.shared.running = false ∧
        s'.shared.lastSecond = s.lastSecond + BitVec.ofNat 64 seconds.length ∧
        s'.shared.ring.puts = s.ring.puts ++ (seconds.flatMap g.nextIdsForOneSecond).take room ∧
        s'.shared.ring.takes = s.ring.takes ∧ s'.shared.ring.cursor = s.ring.cursor ∧
        s'.shared.ring.tail - max s'.shared.ring.cursor 0 = g.ringBuffer.bufferSize - 1 := by
  intro s room seconds
  have hstill := ring_still_after h hrest
  have hfree := running_after h fun u => by
    obtain ⟨last,hlast⟩ := hrest u
    rw [hlast]
  obtain ⟨last,hlast⟩ := hrest t
  obtain ⟨outcome,halone⟩ := @alone_padding g currentTimeMillis t { s with running := true }
    last hg hstill
  have hbegin : g.act t s (((g.machine currentTimeMillis).after ops).pc t) .paddingBuffer =
      ({ s with running := true },⟨.idle last,.provide⟩) := by
    rw [hlast]
    simp only [act]
    rw [hfree]
    rfl
  have hshared : ((g.machine currentTimeMillis).step ((g.machine currentTimeMillis).after ops)
      (t,.paddingBuffer)).shared = { s with running := true } := congrArg Prod.fst hbegin
  have hpc : ((g.machine currentTimeMillis).step ((g.machine currentTimeMillis).after ops)
      (t,.paddingBuffer)).pc t = ⟨.idle last,.provide⟩ := by
    rw [Threads.machine_step_pc_self]
    exact congrArg Prod.snd hbegin
  rw [← hshared,← hpc] at halone
  obtain ⟨count,hrun⟩ := Threads.runFrom_of_moves halone
  refine ⟨count,?_⟩
  have hafter : (g.machine currentTimeMillis).after
      (ops ++ (t,.paddingBuffer) :: List.replicate count (t,.go)) = _ :=
    ((g.machine currentTimeMillis).runFrom_append _ ops _).trans hrun
  simp only [hafter,hshared]
  have hlength : seconds.length = room / 2^g.bitsAllocator.sequenceWidth + 1 := by
    simp [seconds,secondsAfter]
  have hfull := room_padded hg { s with running := true }
  have hsound : g.ringBuffer.Sound (g.padded { s with running := true }).ring :=
    (hstill.foldl_published (List.length_take_le _ _)).sound
  refine ⟨⟨outcome,Function.update_self ..⟩,rfl,?_,RingBuffer.puts_foldl_published _,
    RingBuffer.takes_foldl_published _,RingBuffer.cursor_foldl_published _,?_⟩
  · rw [hlength]
    rfl
  · have hle := hsound.room
    simp only [RingBuffer.room] at hfull
    omega

theorem paddingBuffer_fills_first :
    ∃ count,
      let s' := (smallGenerator.machine 1700000000000).after
        ([] ++ (0,.paddingBuffer) :: List.replicate count (0,.go))
      s'.shared.ring.puts.length = 4 ∧ s'.shared.ring.tail = 3 := by
  obtain ⟨count,-,-,-,hputs,-,hcursor,htail⟩ := @paddingBuffer_fills smallGenerator
    ⟨⟨by decide,by decide,by decide,by decide⟩,⟨1463673600000,rfl⟩,by decide,by decide⟩
    1700000000000 [] (by decide) (fun _ => ⟨none,rfl⟩) 0
  refine ⟨count,?_,?_⟩
  · rw [hputs]
    decide
  · rw [hcursor] at htail
    exact eq_add_of_sub_eq htail

end CachedUidGenerator
end ImSingle.Uid
