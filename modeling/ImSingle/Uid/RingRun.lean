import ImSingle.Uid.RingBuffer
import ImSingle.Library.Fifo

/-! What holds of a ring buffer in every interleaving. Positions count up from 0; the one at
`tail + 1` is written next, the one at `cursor + 1` is claimed next. -/
namespace ImSingle.Uid
open Library

/-- The positions taken so far. -/
def Ring.taken (r : Ring) : List ℤ := r.takes.map Prod.fst

/-- Put and not yet taken. -/
def Ring.Live (r : Ring) (p : ℤ) : Prop := 0 ≤ p ∧ p ≤ r.tail ∧ p ∉ r.taken

/-- Claimed and not yet taken. -/
def Ring.Owned (r : Ring) (p : ℤ) : Prop := 0 ≤ p ∧ p ≤ r.cursor ∧ p ∉ r.taken

/-- The position that a running take has claimed. -/
def Pc.claim : Pc → Option ℤ
  | .takeCheckThreshold currentCursor nextCursor | .takeAsyncPadding currentCursor nextCursor =>
    if nextCursor = currentCursor then none else some nextCursor
  | .takeCheckFlag nextCursor | .takeReadSlot nextCursor | .takeResetFlag nextCursor _ =>
    some nextCursor
  | _ => none

/-- Inside `put`, that is, holding the monitor. -/
def Pc.putting : Pc → Bool
  | .putReadTail _ | .putReadCursor _ _ | .putCheckFlag _ _ | .putWriteSlot _ _
  | .putSetFlag _ _ | .putPublish _ _ => true
  | _ => false

namespace RingBuffer
variable (rb : RingBuffer)

/-- No position of the last revolution shares the next slot: the last one that used it has been
taken. -/
def Clear (r : Ring) : Prop := ∀ p, r.Live p → r.tail + 1 - rb.bufferSize < p

/-- The tail a put has read is still the tail, and the buffer is not full. -/
def Room (r : Ring) (currentTail : ℤ) : Prop :=
  currentTail = r.tail ∧ r.tail - max r.cursor 0 < rb.bufferSize - 1

/-- What a thread knows where it stands. -/
def At (r : Ring) : Pc → Prop
  | .idle last => (∀ message, last ≠ some (.threw (.illegalArgument message))) ∧
      ∀ uid, last = some (.took uid) → uid ∈ r.takes.map Prod.snd
  | .takeReadOld currentCursor => -1 ≤ currentCursor ∧ currentCursor ≤ r.cursor
  | .takeReadTail currentCursor old =>
    -1 ≤ currentCursor ∧ currentCursor ≤ old ∧ old ≤ r.cursor
  | .takeCompareAndSet currentCursor old next =>
    -1 ≤ currentCursor ∧ currentCursor ≤ old ∧ old ≤ r.cursor ∧
      (next = old ∨ next = old + 1 ∧ old < r.tail)
  | .takeResetFlag nextCursor uid => r.puts[nextCursor.toNat]? = some uid
  | .putReadCursor _ currentTail => currentTail = r.tail
  | .putCheckFlag _ currentTail => rb.Room r currentTail
  | .putWriteSlot _ currentTail => rb.Room r currentTail ∧ rb.Clear r
  | .putSetFlag uid currentTail => rb.Room r currentTail ∧ rb.Clear r ∧
      r.slots (rb.calSlotIndex (r.tail + 1)) = uid
  | .putPublish uid currentTail => rb.Room r currentTail ∧ rb.Clear r ∧
      r.slots (rb.calSlotIndex (r.tail + 1)) = uid ∧
      r.flags (rb.calSlotIndex (r.tail + 1)) = .canTake
  | _ => True

structure Here (t : ℕ) (r : Ring) (pc : Pc) : Prop where
  monitor : r.monitor = some t ↔ pc.putting = true
  owned : ∀ p, pc.claim = some p → r.Owned p
  at_pc : rb.At r pc

/-- What holds of the shared fields: the cursor stays behind the tail and the tail less than a
revolution ahead of the cursor, everything put and not taken is in its slot, and what was taken
is what was put. -/
structure Sound (r : Ring) : Prop where
  cursor_ge : -1 ≤ r.cursor
  cursor_le : r.cursor ≤ r.tail
  room : r.tail - max r.cursor 0 ≤ rb.bufferSize - 1
  puts_length : (r.puts.length : ℤ) = r.tail + 1
  live : ∀ p, r.Live p → r.tail - rb.bufferSize < p ∧
    r.flags (rb.calSlotIndex p) = .canTake ∧
      r.puts[p.toNat]? = some (r.slots (rb.calSlotIndex p))
  taken_nodup : r.taken.Nodup
  takes : ∀ x ∈ r.takes, 0 ≤ x.1 ∧ x.1 ≤ r.cursor ∧ r.puts[x.1.toNat]? = some x.2

/-- No two takes have claimed the same position. -/
def Apart (pc pc' : Pc) : Prop := ∀ p, pc.claim = some p → pc'.claim ≠ some p

def outline : Threads.Outline ℕ Ring Pc where
  shared := rb.Sound
  here := rb.Here
  apart := Apart

/-- An `updateAndGet` that leaves the cursor as it is, because it has reached the tail, must
have found it where the take first read it. Otherwise the check for an empty buffer does not
notice, and the take goes on with a position that is another take's. -/
def Guard (_ : ℕ) (r : Ring) (pc : Pc) (_ : Call) : Prop :=
  match pc with
  | .takeCompareAndSet currentCursor old next => r.cursor = old → next = old → currentCursor = old
  | _ => True

/-! ## The shared fields -/

section Sound
variable {rb} {r : Ring}

/-- A position of the last revolution, and the one after it, have different slots. -/
theorem Clear.slot_ne (h : rb.Clear r) {p : ℤ} (hp : r.Live p) :
    rb.calSlotIndex p ≠ rb.calSlotIndex (r.tail + 1) := by
  intro heq
  have hlt := h p hp
  have hle := hp.2.1
  have := rb.calSlotIndex_inj heq (by omega) (by omega)
  omega

theorem Sound.claim (h : rb.Sound r) (hlt : r.cursor < r.tail) :
    rb.Sound { r with cursor := r.cursor + 1 } := by
  obtain ⟨hge,hle,hroom,hlength,hlive,hnodup,htakes⟩ := h
  refine ⟨by dsimp only; omega,by dsimp only; omega,by dsimp only; omega,hlength,hlive,
    hnodup,fun x hx => ?_⟩
  obtain ⟨h0,hcursor,hput⟩ := htakes x hx
  exact ⟨h0,by dsimp only; omega,hput⟩

theorem Sound.release (h : rb.Sound r) {p : ℤ} {uid : Long} (hp : r.Owned p)
    (huid : r.puts[p.toNat]? = some uid) :
    rb.Sound { r with
      flags := Function.update r.flags (rb.calSlotIndex p) .canPut
      takes := r.takes ++ [(p,uid)] } := by
  obtain ⟨hge,hle,hroom,hlength,hlive,hnodup,htakes⟩ := h
  have hpLive : r.Live p := ⟨hp.1,hp.2.1.trans hle,hp.2.2⟩
  refine ⟨hge,hle,hroom,hlength,fun q hq => ?_,?_,fun x hx => ?_⟩
  · have hq' : r.Live q ∧ q ≠ p := by
      obtain ⟨h0,htail,hnot⟩ := hq
      simp only [Ring.taken,List.map_append,List.mem_append,not_or] at hnot
      exact ⟨⟨h0,htail,hnot.1⟩,by simpa using hnot.2⟩
    obtain ⟨hwindow,hflag,hslot⟩ := hlive q hq'.1
    have hne : rb.calSlotIndex q ≠ rb.calSlotIndex p := by
      intro heq
      have hpWindow := (hlive p hpLive).1
      have hqTail := hq'.1.2.1
      have hpTail := hpLive.2.1
      exact hq'.2 (rb.calSlotIndex_inj heq (by omega) (by omega))
    dsimp only
    rw [Function.update_of_ne hne]
    exact ⟨hwindow,hflag,hslot⟩
  · simp only [Ring.taken,List.map_append]
    refine List.nodup_append.mpr ⟨hnodup,List.nodup_singleton _,fun q hq q' hq' heq => ?_⟩
    rw [List.map_singleton,List.mem_singleton] at hq'
    have heq' : q = p := heq.trans hq'
    exact hp.2.2 (heq' ▸ hq)
  · obtain hx | hx := List.mem_append.mp hx
    · exact htakes x hx
    · rw [List.mem_singleton.mp hx]
      exact ⟨hp.1,hp.2.1,huid⟩

theorem Sound.writeSlot (h : rb.Sound r) (hclear : rb.Clear r) (uid : Long) :
    rb.Sound { r with slots := Function.update r.slots (rb.calSlotIndex (r.tail + 1)) uid } := by
  obtain ⟨hge,hle,hroom,hlength,hlive,hnodup,htakes⟩ := h
  refine ⟨hge,hle,hroom,hlength,fun p hp => ?_,hnodup,htakes⟩
  dsimp only
  rw [Function.update_of_ne (hclear.slot_ne hp)]
  exact hlive p hp

theorem Sound.setFlag (h : rb.Sound r) (hclear : rb.Clear r) :
    rb.Sound { r with
      flags := Function.update r.flags (rb.calSlotIndex (r.tail + 1)) .canTake } := by
  obtain ⟨hge,hle,hroom,hlength,hlive,hnodup,htakes⟩ := h
  refine ⟨hge,hle,hroom,hlength,fun p hp => ?_,hnodup,htakes⟩
  dsimp only
  rw [Function.update_of_ne (hclear.slot_ne hp)]
  exact hlive p hp

theorem Sound.publish (h : rb.Sound r) {uid : Long} {currentTail : ℤ}
    (hroom' : rb.Room r currentTail) (hclear : rb.Clear r)
    (hslot : r.slots (rb.calSlotIndex (r.tail + 1)) = uid)
    (hflag : r.flags (rb.calSlotIndex (r.tail + 1)) = .canTake) :
    rb.Sound { r with monitor := none, tail := r.tail + 1, puts := r.puts ++ [uid] } := by
  obtain ⟨hge,hle,hroom,hlength,hlive,hnodup,htakes⟩ := h
  have hlt := hroom'.2
  refine ⟨hge,by dsimp only; omega,by dsimp only; omega,?_,fun p hp => ?_,hnodup,fun x hx => ?_⟩
  · simp only [List.length_append,List.length_singleton]
    push_cast
    omega
  · obtain ⟨h0,htail,hnot⟩ := hp
    dsimp only at htail ⊢
    obtain hold | rfl := (Int.le_add_one_iff.mp htail)
    · have hp' : r.Live p := ⟨h0,hold,hnot⟩
      obtain ⟨-,hflag',hslot'⟩ := hlive p hp'
      have hwindow := hclear p hp'
      exact ⟨by omega,hflag',by rw [List.getElem?_append_left (by omega)]; exact hslot'⟩
    · have hsize := rb.bufferSize_pos
      refine ⟨by omega,hflag,?_⟩
      have hzero : (r.tail + 1).toNat - r.puts.length = 0 := by omega
      rw [List.getElem?_append_right (by omega),hzero,hslot]
      rfl
  · obtain ⟨h0,hcursor,hput⟩ := htakes x hx
    exact ⟨h0,hcursor,by dsimp only; rw [List.getElem?_append_left (by omega)]; exact hput⟩

/-- Taken UIDs are part of what was put. -/
theorem Sound.subperm_puts (h : rb.Sound r) : (r.takes.map Prod.snd).Subperm r.puts := by
  have hpositions : (r.takes.map fun x => (x.1.toNat,x.2)).map Prod.fst =
      r.taken.map Int.toNat := by simp [Ring.taken,Function.comp_def]
  have hnodup : ((r.takes.map fun x => (x.1.toNat,x.2)).map Prod.fst).Nodup := by
    rw [hpositions]
    refine h.taken_nodup.map_on fun p hp q hq heq => ?_
    obtain ⟨x,hx,rfl⟩ := List.mem_map.mp hp
    obtain ⟨y,hy,rfl⟩ := List.mem_map.mp hq
    have hx0 := (h.takes x hx).1
    have hy0 := (h.takes y hy).1
    omega
  have hread : ∀ x ∈ r.takes.map fun x => (x.1.toNat,x.2), r.puts[x.1]? = some x.2 := by
    intro x hx
    obtain ⟨y,hy,rfl⟩ := List.mem_map.mp hx
    exact (h.takes y hy).2.2
  simpa [Function.comp_def] using subperm_of_getElem? hnodup hread

end Sound

/-! ## The other threads -/

/-- Counters and histories only grow. -/
structure Later (r r' : Ring) : Prop where
  cursor : r.cursor ≤ r'.cursor
  tail : r.tail ≤ r'.tail
  puts : r.puts <+: r'.puts
  takes : r.takes <+: r'.takes

section Stable
variable {rb} {r r' : Ring} {t u : ℕ} {pc : Pc}

theorem Later.taken_subset (h : Later r r') {p : ℤ} (hp : p ∈ r.taken) : p ∈ r'.taken :=
  ((h.takes.sublist).map Prod.fst).subset hp

theorem Later.owned (h : Later r r') {p : ℤ} (hp : r.Owned p) (hnot : p ∉ r'.taken) :
    r'.Owned p := ⟨hp.1,hp.2.1.trans h.cursor,hnot⟩

/-- A thread outside `put` knows nothing that a change to the other fields could undo. -/
theorem At.mono (h : rb.At r pc) (hput : pc.putting = false) (hlater : Later r r') :
    rb.At r' pc := by
  have hcursor := hlater.cursor
  have htail := hlater.tail
  cases pc with
  | idle last =>
    refine ⟨h.1,fun uid huid => ?_⟩
    exact ((hlater.takes.sublist).map Prod.snd).subset (h.2 uid huid)
  | takeReadOld => exact ⟨h.1,h.2.trans hcursor⟩
  | takeReadTail => exact ⟨h.1,h.2.1,h.2.2.trans hcursor⟩
  | takeCompareAndSet =>
    obtain ⟨hge,hold,hle,hnext⟩ := h
    exact ⟨hge,hold,hle.trans hcursor,
      hnext.imp_right fun ⟨heq,hlt⟩ => ⟨heq,hlt.trans_le htail⟩⟩
  | takeResetFlag =>
    obtain ⟨rest,hputs⟩ := hlater.puts
    obtain ⟨hlt,-⟩ := List.getElem?_eq_some_iff.mp h
    change r'.puts[_]? = _
    rw [← hputs,List.getElem?_append_left hlt]
    exact h
  | takeCheckThreshold | takeAsyncPadding | takeCheckFlag | takeReadSlot => trivial
  | putReadTail | putReadCursor | putCheckFlag | putWriteSlot | putSetFlag | putPublish =>
    cases hput

/-- An action of another thread that keeps the monitor away from `u`. -/
theorem Here.mono (h : rb.Here u r pc) (hput : pc.putting = false) (hlater : Later r r')
    (hmonitor : r'.monitor ≠ some u) (hnot : ∀ p, pc.claim = some p → p ∉ r'.taken) :
    rb.Here u r' pc where
  monitor := ⟨fun hu => (hmonitor hu).elim,fun hp => by rw [hput] at hp; cases hp⟩
  owned p hp := hlater.owned (h.owned p hp) (hnot p hp)
  at_pc := h.at_pc.mono hput hlater

theorem Clear.of_live (h : rb.Clear r) (htail : r'.tail = r.tail)
    (hlive : ∀ p, r'.Live p → r.Live p) : rb.Clear r' := fun p hp => htail ▸ h p (hlive p hp)

end Stable

/-! ## One action -/

section Step
variable {rb} {r : Ring} {t u : ℕ} {pc pc' : Pc} {call : Call}

theorem Sound.setMonitor (h : rb.Sound r) (monitor : Option ℕ) : rb.Sound { r with monitor } :=
  ⟨h.cursor_ge,h.cursor_le,h.room,h.puts_length,h.live,h.taken_nodup,h.takes⟩

theorem Sound.setSubmitted (h : rb.Sound r) (submitted : ℕ) : rb.Sound { r with submitted } :=
  ⟨h.cursor_ge,h.cursor_le,h.room,h.puts_length,h.live,h.taken_nodup,h.takes⟩

theorem Sound.live_of_owned (h : rb.Sound r) {p : ℤ} (hp : r.Owned p) : r.Live p :=
  ⟨hp.1,hp.2.1.trans h.cursor_le,hp.2.2⟩

/-- An action that changes nothing shared and claims nothing. -/
theorem Here.next (h : rb.Here t r pc) (hput : pc'.putting = pc.putting)
    (hclaim : ∀ p, pc'.claim = some p → pc.claim = some p) (hat : rb.At r pc') :
    rb.Here t r pc' where
  monitor := hput ▸ h.monitor
  owned p hp := h.owned p (hclaim p hp)
  at_pc := hat

/-- A `put` that ends gives the monitor back. -/
theorem Here.leave {accepted : Bool} : rb.Here t { r with monitor := none }
    (.idle (some (.put accepted))) where
  monitor := ⟨nofun,nofun⟩
  owned := nofun
  at_pc := ⟨nofun,nofun⟩

theorem Here.compareAndSet {currentCursor old next : ℤ} (hs : rb.Sound r)
    (h : rb.Here t r (.takeCompareAndSet currentCursor old next))
    (hok : Guard t r (.takeCompareAndSet currentCursor old next) call) :
    rb.Sound (rb.act t r (.takeCompareAndSet currentCursor old next) call).1 ∧
      rb.Here t (rb.act t r (.takeCompareAndSet currentCursor old next) call).1
        (rb.act t r (.takeCompareAndSet currentCursor old next) call).2 := by
  obtain ⟨hge,hle,hold,hnext⟩ := h.at_pc
  simp only [act]
  split_ifs with hcas hmoved
  · subst hcas
    obtain rfl | ⟨rfl,hlt⟩ := hnext
    · -- nothing left: the guard makes this the rejected take
      have hsame : currentCursor = r.cursor := hok rfl rfl
      exact ⟨hs,h.next rfl (fun p hp => by simp [Pc.claim,hsame] at hp) trivial⟩
    · refine ⟨hs.claim hlt,h.monitor,fun p hp => ?_,trivial⟩
      have hne : r.cursor + 1 ≠ currentCursor := by omega
      simp only [Pc.claim,hne,if_false,Option.some.injEq] at hp
      subst hp
      have hge := hs.cursor_ge
      refine ⟨by omega,le_rfl,fun hmem => ?_⟩
      obtain ⟨x,hx,heq⟩ := List.mem_map.mp hmem
      have hcursor := (hs.takes x hx).2.1
      omega
  · exact absurd hmoved (by omega)
  · exact ⟨hs,h.next rfl (fun p hp => by cases hp) ⟨hge,hle.trans hold⟩⟩

/-- Behind the check for the padding threshold a take goes on exactly if it claimed its
position. -/
theorem Here.checkEmpty {currentCursor nextCursor : ℤ}
    (h : rb.Here t r (.takeAsyncPadding currentCursor nextCursor)) (message : String) :
    rb.Here t r (if nextCursor = currentCursor then
        .idle (some (.threw (.runtime message)))
      else .takeCheckFlag nextCursor) := by
  split_ifs with hempty
  · exact h.next rfl nofun ⟨nofun,nofun⟩
  · refine h.next rfl (fun p hp => ?_) trivial
    simp only [Pc.claim,hempty,if_false]
    exact hp

theorem Here.step (hs : rb.Sound r) (h : rb.Here t r pc) (hok : Guard t r pc call) :
    rb.Sound (rb.act t r pc call).1 ∧
      rb.Here t (rb.act t r pc call).1 (rb.act t r pc call).2 := by
  have hat := h.at_pc
  cases pc with
  | idle last =>
    cases call with
    | take => exact ⟨hs,h.next rfl nofun ⟨hs.cursor_ge,le_rfl⟩⟩
    | put uid =>
      simp only [act]
      split
      · exact ⟨hs.setMonitor _,⟨fun _ => rfl,fun _ => rfl⟩,nofun,trivial⟩
      · exact ⟨hs,h⟩
    | go => exact ⟨hs,h⟩
  | takeReadOld currentCursor => exact ⟨hs,h.next rfl nofun ⟨hat.1,hat.2,le_rfl⟩⟩
  | takeReadTail currentCursor old =>
    refine ⟨hs,h.next rfl nofun ⟨hat.1,hat.2.1,hat.2.2,?_⟩⟩
    split_ifs with htail
    · exact .inl rfl
    · exact .inr ⟨rfl,lt_of_le_of_ne (hat.2.2.trans hs.cursor_le) htail⟩
  | takeCompareAndSet currentCursor old next => exact h.compareAndSet hs hok
  | takeCheckThreshold currentCursor nextCursor =>
    have hpad : rb.Here t r (.takeAsyncPadding currentCursor nextCursor) :=
      h.next rfl (fun _ hp => hp) trivial
    simp only [act]
    split
    · exact ⟨hs,hpad⟩
    · have hnext := hpad.checkEmpty ("Rejected take buffer. " ++ rb.toText r)
      split <;> rename_i hempty <;> simp only [hempty,if_true,if_false] at hnext <;>
        exact ⟨hs,hnext⟩
  | takeAsyncPadding currentCursor nextCursor =>
    have hpad : rb.Here t { r with submitted := r.submitted + 1 }
        (.takeAsyncPadding currentCursor nextCursor) := ⟨h.monitor,h.owned,trivial⟩
    simp only [act]
    have hnext := hpad.checkEmpty
      ("Rejected take buffer. " ++ rb.toText { r with submitted := r.submitted + 1 })
    split <;> rename_i hempty <;> simp only [hempty,if_true,if_false] at hnext <;>
      exact ⟨hs.setSubmitted _,hnext⟩
  | takeCheckFlag nextCursor =>
    have hlive := hs.live_of_owned (h.owned nextCursor rfl)
    simp only [act,(hs.live nextCursor hlive).2.1,if_true]
    exact ⟨hs,h.next rfl (fun _ hp => hp) trivial⟩
  | takeReadSlot nextCursor =>
    have hlive := hs.live_of_owned (h.owned nextCursor rfl)
    exact ⟨hs,h.next rfl (fun _ hp => hp) (hs.live nextCursor hlive).2.2⟩
  | takeResetFlag nextCursor uid =>
    refine ⟨hs.release (h.owned nextCursor rfl) hat,h.monitor,nofun,nofun,fun uid' huid => ?_⟩
    cases huid
    exact List.mem_map.mpr ⟨(nextCursor,uid),List.mem_append_right _ (by simp),rfl⟩
  | putReadTail uid => exact ⟨hs,h.next rfl nofun rfl⟩
  | putReadCursor uid currentTail =>
    simp only [act]
    have hroom := hs.room
    have hge := hs.cursor_ge
    have htail : currentTail = r.tail := hat
    split_ifs with hstart hfull hfull
    · exact ⟨hs.setMonitor _,Here.leave⟩
    · exact ⟨hs,h.next rfl nofun ⟨hat,by simp only [START_POINT] at hstart; omega⟩⟩
    · exact ⟨hs.setMonitor _,Here.leave⟩
    · exact ⟨hs,h.next rfl nofun ⟨hat,by simp only [START_POINT] at hstart; omega⟩⟩
  | putCheckFlag uid currentTail =>
    obtain rfl : currentTail = r.tail := hat.1
    simp only [act]
    split_ifs with hflag
    · exact ⟨hs.setMonitor _,Here.leave⟩
    · refine ⟨hs,h.next rfl nofun ⟨hat,fun p hp => ?_⟩⟩
      obtain ⟨hwindow,htake,-⟩ := hs.live p hp
      by_contra hnot
      -- a position one revolution back would still be marked for taking
      obtain rfl : p = r.tail + 1 - rb.bufferSize := by omega
      rw [calSlotIndex_sub_bufferSize] at htake
      exact hflag (by rw [htake]; decide)
  | putWriteSlot uid currentTail =>
    obtain rfl : currentTail = r.tail := hat.1.1
    exact ⟨hs.writeSlot hat.2 uid,h.monitor,nofun,hat.1,hat.2,Function.update_self ..⟩
  | putSetFlag uid currentTail =>
    obtain rfl : currentTail = r.tail := hat.1.1
    exact ⟨hs.setFlag hat.2.1,h.monitor,nofun,hat.1,hat.2.1,hat.2.2,Function.update_self ..⟩
  | putPublish uid currentTail =>
    obtain ⟨hroom,hclear,hslot,hflag⟩ := hat
    exact ⟨hs.publish hroom hclear hslot hflag,Here.leave⟩

end Step

/-! ## What an action does to the others -/

/-- All that an action can do to the shared fields, with what it does to the thread's claim. -/
inductive Effect (t : ℕ) (r : Ring) (pc pc' : Pc) : Ring → Prop
  | quiet (monitor : Option ℕ) (submitted : ℕ)
      (hmonitor : ∀ u ≠ t, monitor = some u ↔ r.monitor = some u)
      (hclaim : pc'.claim = pc.claim) : Effect t r pc pc' { r with monitor, submitted }
  | claim (hlt : r.cursor < r.tail) (hold : pc.claim = none)
      (hnew : pc'.claim = some (r.cursor + 1)) :
      Effect t r pc pc' { r with cursor := r.cursor + 1 }
  | release (p : ℤ) (uid : Long) (hold : pc.claim = some p) (hnew : pc'.claim = none)
      (huid : r.puts[p.toNat]? = some uid) :
      Effect t r pc pc' { r with
        flags := Function.update r.flags (rb.calSlotIndex p) .canPut
        takes := r.takes ++ [(p,uid)] }
  | write (slots : ℕ → Long) (flags : ℕ → Flag) (hput : pc.putting = true)
      (hclaim : pc'.claim = pc.claim) : Effect t r pc pc' { r with slots, flags }
  | publish (uid : Long) (hmonitor : r.monitor = some t) (hput : pc.putting = true)
      (hclaim : pc'.claim = pc.claim) : Effect t r pc pc'
        { r with monitor := none, tail := r.tail + 1, puts := r.puts ++ [uid] }

section Effect
variable {rb} {r r' : Ring} {t u : ℕ} {pc pc' : Pc} {call : Call}

theorem Effect.silent (hclaim : pc'.claim = pc.claim) : rb.Effect t r pc pc' r :=
  .quiet r.monitor r.submitted (fun _ _ => Iff.rfl) hclaim

theorem Effect.leave (h : r.monitor = some t) (hclaim : pc'.claim = pc.claim) :
    rb.Effect t r pc pc' { r with monitor := none } :=
  .quiet none r.submitted
    (fun _ hu => ⟨nofun,fun hr => absurd (Option.some.inj (hr.symm.trans h)) hu⟩) hclaim

theorem Here.effect (hs : rb.Sound r) (h : rb.Here t r pc) (hok : Guard t r pc call) :
    rb.Effect t r pc (rb.act t r pc call).2 (rb.act t r pc call).1 := by
  have hat := h.at_pc
  cases pc with
  | idle last =>
    cases call with
    | take => exact .silent rfl
    | put uid =>
      simp only [act]
      split
      · next hnone =>
        refine .quiet (some t) r.submitted (fun u hu => ?_) rfl
        rw [hnone]
        exact ⟨fun hsome => absurd (Option.some.inj hsome).symm hu,nofun⟩
      · exact .silent rfl
    | go => exact .silent rfl
  | takeReadOld => exact .silent rfl
  | takeReadTail => exact .silent rfl
  | takeCompareAndSet currentCursor old next =>
    obtain ⟨hge,hle,hold,hnext⟩ := hat
    simp only [act]
    split_ifs with hcas hmoved
    · subst hcas
      obtain rfl | ⟨rfl,hlt⟩ := hnext
      · have hsame : currentCursor = r.cursor := hok rfl rfl
        exact .silent (by simp [Pc.claim,hsame])
      · exact .claim hlt rfl (if_neg (by omega))
    · exact absurd hmoved (by omega)
    · exact .silent rfl
  | takeCheckThreshold currentCursor nextCursor =>
    simp only [act]
    split_ifs with hpad hempty
    · exact .silent rfl
    · exact .silent (if_pos hempty).symm
    · exact .silent (if_neg hempty).symm
  | takeAsyncPadding currentCursor nextCursor =>
    simp only [act]
    split_ifs with hempty
    · exact .quiet r.monitor _ (fun _ _ => Iff.rfl) (if_pos hempty).symm
    · exact .quiet r.monitor _ (fun _ _ => Iff.rfl) (if_neg hempty).symm
  | takeCheckFlag nextCursor =>
    have hlive := hs.live_of_owned (h.owned nextCursor rfl)
    simp only [act,(hs.live nextCursor hlive).2.1,if_true]
    exact .silent rfl
  | takeReadSlot nextCursor => exact .silent rfl
  | takeResetFlag nextCursor uid => exact .release nextCursor uid rfl rfl hat
  | putReadTail => exact .silent rfl
  | putReadCursor uid currentTail =>
    simp only [act]
    split_ifs
    · exact .leave (h.monitor.mpr rfl) rfl
    · exact .silent rfl
    · exact .leave (h.monitor.mpr rfl) rfl
    · exact .silent rfl
  | putCheckFlag uid currentTail =>
    simp only [act]
    split_ifs
    · exact .leave (h.monitor.mpr rfl) rfl
    · exact .silent rfl
  | putWriteSlot => exact .write _ r.flags rfl rfl
  | putSetFlag => exact .write r.slots _ rfl rfl
  | putPublish uid currentTail => exact .publish uid (h.monitor.mpr rfl) rfl rfl

theorem Effect.later (h : rb.Effect t r pc pc' r') : Later r r' := by
  cases h with
  | quiet | write => exact ⟨le_rfl,le_rfl,List.prefix_rfl,List.prefix_rfl⟩
  | claim => exact ⟨(lt_add_one r.cursor).le,le_rfl,List.prefix_rfl,List.prefix_rfl⟩
  | release => exact ⟨le_rfl,le_rfl,List.prefix_rfl,List.prefix_append _ _⟩
  | publish => exact ⟨le_rfl,(lt_add_one r.tail).le,List.prefix_append _ _,List.prefix_rfl⟩

theorem Effect.monitor_iff (h : rb.Effect t r pc pc' r') (hu : u ≠ t) :
    r'.monitor = some u ↔ r.monitor = some u := by
  cases h with
  | quiet monitor submitted hmonitor => exact hmonitor u hu
  | claim | release | write => exact Iff.rfl
  | publish uid hmonitor =>
    exact ⟨nofun,fun hr => absurd (Option.some.inj (hr.symm.trans hmonitor)) hu⟩

theorem Effect.mem_taken (h : rb.Effect t r pc pc' r') {p : ℤ} (hp : p ∈ r'.taken) :
    p ∈ r.taken ∨ pc.claim = some p := by
  cases h with
  | quiet | claim | write | publish => exact .inl hp
  | release q uid hold =>
    simp only [Ring.taken,List.map_append,List.mem_append,List.map_singleton,
      List.mem_singleton] at hp
    exact hp.imp_right fun (heq : p = q) => heq ▸ hold

theorem Effect.claim_eq (h : rb.Effect t r pc pc' r') {p : ℤ} (hp : pc'.claim = some p) :
    pc.claim = some p ∨ p = r.cursor + 1 := by
  cases h with
  | quiet _ _ _ hclaim | write _ _ _ hclaim | publish _ _ _ hclaim =>
    exact .inl (hclaim.symm.trans hp)
  | claim _ _ hnew => exact .inr (Option.some.inj (hp.symm.trans hnew))
  | release _ _ _ hnew => rw [hnew] at hp; cases hp

/-- A claim is given up only by taking. -/
theorem Effect.claim_kept (h : rb.Effect t r pc pc' r') {p : ℤ} (hp : pc.claim = some p) :
    pc'.claim = some p ∨ p ∈ r'.taken := by
  cases h with
  | quiet _ _ _ hclaim | write _ _ _ hclaim | publish _ _ _ hclaim =>
    exact .inl (hclaim.trans hp)
  | claim _ hold => rw [hold] at hp; cases hp
  | release q uid hold =>
    obtain rfl : q = p := Option.some.inj (hold.symm.trans hp)
    exact .inr (List.mem_map.mpr ⟨(q,uid),List.mem_append_right _ (by simp),rfl⟩)

/-- The cursor moves only by claiming. -/
theorem Effect.cursor_eq (h : rb.Effect t r pc pc' r') :
    r'.cursor = r.cursor ∨ r'.cursor = r.cursor + 1 ∧ pc'.claim = some (r.cursor + 1) := by
  cases h with
  | quiet | release | write | publish => exact .inl rfl
  | claim _ _ hnew => exact .inr ⟨rfl,hnew⟩

theorem Effect.slots_eq (h : rb.Effect t r pc pc' r') (hput : pc.putting = false) :
    r'.slots = r.slots ∧ r'.tail = r.tail := by
  cases h with
  | quiet | claim | release => exact ⟨rfl,rfl⟩
  | write _ _ hput' | publish _ _ hput' => rw [hput] at hput'; cases hput'

theorem Effect.flags_eq (h : rb.Effect t r pc pc' r') (hput : pc.putting = false) (i : ℕ) :
    r'.flags i = r.flags i ∨ ∃ p, pc.claim = some p ∧ i = rb.calSlotIndex p := by
  cases h with
  | quiet | claim => exact .inl rfl
  | release p uid hold =>
    by_cases hi : i = rb.calSlotIndex p
    · exact .inr ⟨p,hold,hi⟩
    · exact .inl (Function.update_of_ne hi ..)
  | write _ _ hput' | publish _ _ hput' => rw [hput] at hput'; cases hput'

/-- The takes of other threads leave a put what it has found: they only move the cursor on and
free slots of positions that do not share the put's slot. -/
theorem At.of_effect {q : Pc} (hq : rb.At r q) (hs : rb.Sound r) (h : rb.Here t r pc)
    (hput : q.putting = true) (hpc : pc.putting = false)
    (heffect : rb.Effect t r pc pc' r') : rb.At r' q := by
  obtain ⟨hslots,htail⟩ := heffect.slots_eq hpc
  have hcursor := heffect.later.cursor
  have hroom : ∀ {currentTail}, rb.Room r currentTail → rb.Room r' currentTail := by
    intro currentTail hr
    exact ⟨hr.1.trans htail.symm,by have hlt := hr.2; omega⟩
  have hclear : rb.Clear r → rb.Clear r' := fun hr => hr.of_live htail fun p hp =>
    ⟨hp.1,htail ▸ hp.2.1,fun hmem => hp.2.2 (heffect.later.taken_subset hmem)⟩
  cases q with
  | idle | takeReadOld | takeReadTail | takeCompareAndSet | takeCheckThreshold
  | takeAsyncPadding | takeCheckFlag | takeReadSlot | takeResetFlag => cases hput
  | putReadTail => trivial
  | putReadCursor => exact hq.trans htail.symm
  | putCheckFlag => exact hroom hq
  | putWriteSlot => exact ⟨hroom hq.1,hclear hq.2⟩
  | putSetFlag =>
    refine ⟨hroom hq.1,hclear hq.2.1,?_⟩
    rw [hslots,htail]
    exact hq.2.2
  | putPublish =>
    refine ⟨hroom hq.1,hclear hq.2.1,?_,?_⟩
    · rw [hslots,htail]
      exact hq.2.2.1
    · rw [htail]
      obtain hsame | ⟨p,hp,hslot⟩ := heffect.flags_eq hpc (rb.calSlotIndex (r.tail + 1))
      · exact hsame.trans hq.2.2.2
      · exact absurd hslot.symm (hq.2.1.slot_ne (hs.live_of_owned (h.owned p hp)))

/-- What another thread knows survives an action, and no position is claimed twice. -/
theorem Here.of_effect (hs : rb.Sound r) (h : rb.Here t r pc) {q : Pc} (hq : rb.Here u r q)
    (htu : t ≠ u) (hapart : Apart pc q) (heffect : rb.Effect t r pc pc' r') :
    rb.Here u r' q ∧ Apart pc' q := by
  have hnot : ∀ p, q.claim = some p → p ∉ r'.taken := by
    intro p hp hmem
    obtain hold | hclaim := heffect.mem_taken hmem
    · exact (hq.owned p hp).2.2 hold
    · exact hapart p hclaim hp
  refine ⟨?_,fun p hp hclaim => ?_⟩
  · cases hput : q.putting with
    | false =>
      refine hq.mono hput heffect.later (fun hr' => ?_) hnot
      have hr := hq.monitor.mp ((heffect.monitor_iff (Ne.symm htu)).mp hr')
      rw [hput] at hr
      cases hr
    | true =>
      have hu := hq.monitor.mpr hput
      have hpc : pc.putting = false := by
        cases hp : pc.putting with
        | false => rfl
        | true => exact absurd (Option.some.inj ((h.monitor.mpr hp).symm.trans hu)) htu
      refine ⟨⟨fun _ => hput,fun _ => (heffect.monitor_iff (Ne.symm htu)).mpr hu⟩,
        fun p hp => heffect.later.owned (hq.owned p hp) (hnot p hp),?_⟩
      exact hq.at_pc.of_effect hs h hput hpc heffect
  · obtain hold | rfl := heffect.claim_eq hp
    · exact hapart p hold hclaim
    · have hle := (hq.owned _ hclaim).2.1
      omega

end Effect

/-! ## Runs -/

theorem outline_valid : rb.outline.Valid rb.threads Guard where
  init_shared := by
    have hpos := rb.bufferSize_pos
    refine ⟨le_rfl,le_rfl,?_,rfl,fun p hp => ?_,List.nodup_nil,nofun⟩
    · simp only [threads,init,START_POINT]
      omega
    · have h0 := hp.1
      have htail := hp.2.1
      simp only [threads,init,START_POINT] at htail
      omega
  init_here _ := ⟨⟨nofun,nofun⟩,nofun,nofun,nofun⟩
  init_apart := nofun
  symm _ _ h p hp hp' := h p hp' hp
  step _ _ _ _ hs h hok := h.step hs hok
  free _ _ _ _ _ _ htu hs h hq hapart hok := h.of_effect hs hq htu hapart (h.effect hs hok)

/-- The buffer with its threads. -/
abbrev machine : Machine (Threads.State ℕ Ring Pc) (ℕ × Call) := rb.threads.machine

abbrev guard : List (ℕ × Call) → Threads.State ℕ Ring Pc → ℕ × Call → Prop :=
  rb.threads.guard Guard

instance (t : ℕ) (r : Ring) (pc : Pc) (call : Call) : Decidable (Guard t r pc call) := by
  unfold Guard
  cases pc <;> infer_instance

section Run
variable {rb} {ops : List (ℕ × Call)}

theorem holds_after (h : rb.machine.Meets rb.guard ops) :
    rb.outline.Holds (rb.machine.after ops) := rb.outline_valid.holds h

/-- Every claimed position has been taken or is held by a running take. -/
theorem claimed_after (h : rb.machine.Meets rb.guard ops) {p : ℤ} (h0 : 0 ≤ p)
    (hp : p ≤ (rb.machine.after ops).shared.cursor) :
    p ∈ (rb.machine.after ops).shared.taken ∨
      ∃ t, ((rb.machine.after ops).pc t).claim = some p := by
  refine Machine.invariant (M := rb.machine) (P := fun _ s =>
    p ≤ s.shared.cursor → p ∈ s.shared.taken ∨ ∃ t, (s.pc t).claim = some p)
    (fun hp => ?_) (fun past a hpast ih hok => ?_) h hp
  · simp only [threads,Threads.machine_init_shared,init,START_POINT] at hp
    omega
  · obtain ⟨t,call⟩ := a
    have hholds := holds_after hpast
    have heffect := (hholds.here t).effect hholds.shared hok
    intro hcursor
    have old : p ≤ (rb.machine.after past).shared.cursor →
        p ∈ (rb.machine.step (rb.machine.after past) (t,call)).shared.taken ∨
          ∃ u, ((rb.machine.step (rb.machine.after past) (t,call)).pc u).claim = some p := by
      intro hold
      obtain htaken | ⟨u,hu⟩ := ih hold
      · exact .inl (heffect.later.taken_subset htaken)
      · by_cases hut : u = t
        · subst hut
          obtain hkept | htaken := heffect.claim_kept hu
          · exact .inr ⟨u,by rw [Threads.machine_step_pc_self]; exact hkept⟩
          · exact .inl htaken
        · exact .inr ⟨u,by rw [Threads.machine_step_pc_of_ne _ _ _ hut]; exact hu⟩
    obtain hsame | ⟨hnext,hclaim⟩ := heffect.cursor_eq
    · exact old (hsame ▸ hcursor)
    · have hle : p ≤ (rb.machine.after past).shared.cursor + 1 := hnext ▸ hcursor
      obtain hold | rfl := Int.le_add_one_iff.mp hle
      · exact old hold
      · exact .inr ⟨t,by rw [Threads.machine_step_pc_self]; exact hclaim⟩

/-- Every position belongs to one take: none that is claimed has been taken, or is claimed by
another thread as well. -/
def Exclusive (s : Threads.State ℕ Ring Pc) : Prop :=
  ∀ t p, (s.pc t).claim = some p →
    p ∉ s.shared.taken ∧ ∀ u, u ≠ t → (s.pc u).claim ≠ some p

theorem exclusive_after (h : rb.machine.Meets rb.guard ops) :
    Exclusive (rb.machine.after ops) := by
  intro t p hp
  have hholds := holds_after h
  refine ⟨((hholds.here t).owned p hp).2.2,fun u hut hu => ?_⟩
  exact hholds.apart t u (Ne.symm hut) p hp hu

/-- An `updateAndGet` outside the guard claims the last position there is a second time. -/
theorem not_exclusive_step (h : rb.machine.Meets rb.guard ops) {a : ℕ × Call}
    (hbad : ¬ rb.guard ops (rb.machine.after ops) a) :
    ¬ Exclusive (rb.machine.step (rb.machine.after ops) a) := by
  obtain ⟨t,call⟩ := a
  have hholds := holds_after h
  have hat := (hholds.here t).at_pc
  cases hpc : (rb.machine.after ops).pc t with
  | takeCompareAndSet currentCursor old next =>
    simp only [guard,Threads.guard,Guard,hpc,Classical.not_imp] at hbad
    obtain ⟨rfl,rfl,hne⟩ := hbad
    rw [hpc] at hat
    obtain ⟨hge,hle,-⟩ := hat
    have hact : rb.act t (rb.machine.after ops).shared ((rb.machine.after ops).pc t) call =
        ((rb.machine.after ops).shared,
          .takeCheckThreshold currentCursor (rb.machine.after ops).shared.cursor) := by
      rw [hpc]
      simp [act,hle]
    have hshared : (rb.machine.step (rb.machine.after ops) (t,call)).shared =
        (rb.machine.after ops).shared := congrArg Prod.fst hact
    have hself : ((rb.machine.step (rb.machine.after ops) (t,call)).pc t).claim =
        some (rb.machine.after ops).shared.cursor := by
      rw [Threads.machine_step_pc_self]
      change (rb.act t _ _ call).2.claim = _
      rw [hact]
      exact if_neg (Ne.symm hne)
    intro hex
    obtain ⟨hnot,hother⟩ := hex t _ hself
    rw [hshared] at hnot
    have h0 : 0 ≤ (rb.machine.after ops).shared.cursor := by omega
    obtain htaken | ⟨u,hu⟩ := claimed_after h h0 le_rfl
    · exact hnot htaken
    · have hut : u ≠ t := by
        rintro rfl
        rw [hpc] at hu
        cases hu
      refine hother u hut ?_
      rw [Threads.machine_step_pc_of_ne _ _ _ hut]
      exact hu
  | idle | takeReadOld | takeReadTail | takeCheckThreshold | takeAsyncPadding | takeCheckFlag
  | takeReadSlot | takeResetFlag | putReadTail | putReadCursor | putCheckFlag | putWriteSlot
  | putSetFlag | putPublish =>
    simp only [guard,Threads.guard,Guard,hpc,not_true] at hbad

/-- What is put and not taken is still in its slot, so it fits the buffer. -/
theorem length_puts_le (h : rb.machine.Meets rb.guard ops) :
    (rb.machine.after ops).shared.puts.length ≤
      (rb.machine.after ops).shared.takes.length + rb.bufferSize := by
  have hs := (holds_after h).shared
  generalize (rb.machine.after ops).shared = r at hs ⊢
  have hlength : (r.puts.length : ℤ) = r.tail + 1 := hs.puts_length
  have hsubset : (List.range (r.puts.length - rb.bufferSize)).map (fun i : ℕ => (i : ℤ)) ⊆
      r.taken := by
    intro p hp
    obtain ⟨i,hi,rfl⟩ := List.mem_map.mp hp
    have hlt := List.mem_range.mp hi
    by_contra hnot
    have hwindow := (hs.live i ⟨by omega,by omega,hnot⟩).1
    omega
  have hnodup : ((List.range (r.puts.length - rb.bufferSize)).map
      (fun i : ℕ => (i : ℤ))).Nodup := List.nodup_range.map Nat.cast_injective
  have hle := (List.subperm_of_subset hnodup hsubset).length_le
  simp only [Ring.taken,List.length_map,List.length_range] at hle
  omega

end Run

/-- In every interleaving that meets the guard, takes get different positions, each gets what
was put there, so no UID is handed out more often than it was put, and no assertion of `take`
fails. -/
theorem takes_of_run {rb : RingBuffer} {ops : List (ℕ × Call)}
    (h : rb.machine.Meets rb.guard ops) :
    (rb.machine.after ops).shared.taken.Nodup ∧
      ((rb.machine.after ops).shared.takes.map Prod.snd).Subperm
        (rb.machine.after ops).shared.puts ∧
      ∀ t message, (rb.machine.after ops).pc t ≠
        .idle (some (.threw (.illegalArgument message))) := by
  have hholds := holds_after h
  have hs := hholds.shared
  refine ⟨hs.taken_nodup,hs.subperm_puts,fun t message hpc => ?_⟩
  have hat := (hholds.here t).at_pc
  rw [hpc] at hat
  exact hat.1 message rfl

/-- No position ever belongs to two takes exactly if every step meets the guard, so the guard is
not a condition of the proofs alone: without it a take does go on with the position of another. -/
theorem exclusive_iff {rb : RingBuffer} {ops : List (ℕ × Call)} :
    rb.machine.Always (fun _ s => Exclusive s) ops ↔ rb.machine.Meets rb.guard ops := by
  induction ops using List.reverseRecOn with
  | nil => exact ⟨fun _ => Machine.meets_nil,fun _ => Machine.always_nil.mpr nofun⟩
  | append_singleton ops a ih =>
    constructor
    · intro h
      obtain ⟨hall,hlast⟩ := Machine.always_snoc.mp h
      have hmeets := ih.mp hall
      refine Machine.meets_snoc.mpr ⟨hmeets,?_⟩
      by_contra hbad
      rw [Machine.after_snoc] at hlast
      exact not_exclusive_step hmeets hbad hlast
    · intro h
      have hall := ih.mpr (Machine.meets_snoc.mp h).1
      exact Machine.always_snoc.mpr ⟨hall,exclusive_after h⟩

/-- Two puts, then two takes that race for the first position. -/
def twoTakes : List (ℕ × Call) :=
  (0,.put 10) :: List.replicate 6 (0,.go) ++ (0,.put 11) :: List.replicate 6 (0,.go) ++
    [(1,.take),(2,.take),(2,.go),(1,.go),(2,.go),(1,.go)] ++ List.replicate 7 (2,.go) ++
    List.replicate 9 (1,.go)

def smallBuffer : RingBuffer := ⟨4,50,by decide,by decide,by decide,by decide⟩

theorem takes_of_run_twoTakes :
    (smallBuffer.machine.after twoTakes).shared.takes = [(0,10),(1,11)] ∧
      ((smallBuffer.machine.after twoTakes).shared.takes.map Prod.snd).Subperm
        (smallBuffer.machine.after twoTakes).shared.puts :=
  ⟨by decide,(takes_of_run (by decide)).2.1⟩

/- Outside the guard: both takes read the cursor, the first one claims the only position, and
the second finds the cursor at the tail but no longer where it was. Both return the UID. -/
example :
    (smallBuffer.machine.after ((0,.put 10) :: List.replicate 6 (0,.go) ++
      [(1,.take),(2,.take)] ++ List.replicate 7 (1,.go) ++ List.replicate 7 (2,.go) ++
      [(1,.go),(2,.go)])).shared.takes = [(0,10),(0,10)] := by decide

/-- No put is lost or overwritten: its UID has been taken from its position, or it is still in
its slot, ahead of the cursor or claimed by one running take, and those that are still there fit
the buffer. -/
theorem puts_of_run {rb : RingBuffer} {ops : List (ℕ × Call)}
    (h : rb.machine.Meets rb.guard ops) :
    (∀ (p : ℕ) uid, (rb.machine.after ops).shared.puts[p]? = some uid →
      ((p : ℤ),uid) ∈ (rb.machine.after ops).shared.takes ∨
        (rb.machine.after ops).shared.slots (rb.calSlotIndex p) = uid ∧
          (rb.machine.after ops).shared.flags (rb.calSlotIndex p) = .canTake ∧
          ((rb.machine.after ops).shared.cursor < p ∨
            ∃! t, ((rb.machine.after ops).pc t).claim = some (p : ℤ))) ∧
      (rb.machine.after ops).shared.puts.length ≤
        (rb.machine.after ops).shared.takes.length + rb.bufferSize := by
  have hholds := holds_after h
  have hs : rb.Sound (rb.machine.after ops).shared := hholds.shared
  refine ⟨fun p uid hp => ?_,length_puts_le h⟩
  have hlt := (List.getElem?_eq_some_iff.mp hp).1
  have hlength := hs.puts_length
  by_cases htaken : (p : ℤ) ∈ (rb.machine.after ops).shared.taken
  · obtain ⟨x,hx,hxp⟩ := List.mem_map.mp htaken
    have hread := (hs.takes x hx).2.2
    rw [hxp,Int.toNat_natCast,hp] at hread
    left
    have hxeq : ((p : ℤ),uid) = x := Prod.ext hxp.symm (Option.some.inj hread)
    exact hxeq ▸ hx
  · have hlive := hs.live p ⟨by omega,by omega,htaken⟩
    rw [Int.toNat_natCast,hp] at hlive
    refine .inr ⟨(Option.some.inj hlive.2.2).symm,hlive.2.1,?_⟩
    by_cases hcursor : (p : ℤ) ≤ (rb.machine.after ops).shared.cursor
    · obtain hmem | ⟨t,ht⟩ := claimed_after h (by omega) hcursor
      · exact absurd hmem htaken
      · refine .inr ⟨t,ht,fun u hu => ?_⟩
        by_contra hne
        exact hholds.apart t u (Ne.symm hne) p ht hu
    · exact .inl (not_le.mp hcursor)

theorem puts_of_run_twoTakes :
    (smallBuffer.machine.after twoTakes).shared.puts = [10,11] ∧
      (smallBuffer.machine.after twoTakes).shared.puts.length ≤
        (smallBuffer.machine.after twoTakes).shared.takes.length + 4 :=
  have h : smallBuffer.machine.Meets smallBuffer.guard twoTakes := by decide
  ⟨by decide,(puts_of_run h).2⟩

end RingBuffer
end ImSingle.Uid
