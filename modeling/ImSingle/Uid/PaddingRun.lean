import ImSingle.Uid.BufferPadding

/-! What the padding keeps in every interleaving: one task at a time fills the buffer, and what
has been put follows the UIDs of consecutive seconds, with gaps only where a put was rejected. -/
namespace ImSingle.Uid
open Library

/-- The UID that a running put brings. -/
def Pc.pending : Pc → Option Long
  | .putReadTail uid | .putReadCursor uid _ | .putCheckFlag uid _ | .putWriteSlot uid _
  | .putSetFlag uid _ | .putPublish uid _ => some uid
  | _ => none

/-- What is left of the second that a padding task puts. -/
def Padding.rest : Padding → List Long
  | .fill rest => rest
  | _ => []

/-- A call that goes on puts its UID or drops it. -/
theorem RingBuffer.act_puts (rb : RingBuffer) (t : ℕ) (r : Ring) (pc : Pc) {call : Call}
    (hcall : ∀ uid, call ≠ .put uid) :
    ((rb.act t r pc call).1.puts ++ (rb.act t r pc call).2.pending.toList).Sublist
      (r.puts ++ pc.pending.toList) := by
  have hdrop : ∀ uid, (r.puts ++ ([] : List Long)).Sublist (r.puts ++ [uid]) := fun uid =>
    (List.nil_sublist [uid]).append_left r.puts
  cases pc with
  | idle last =>
    cases call with
    | put uid => exact absurd rfl (hcall uid)
    | take | go => exact List.Sublist.refl _
  | takeReadOld | takeReadTail | takeReadSlot | takeResetFlag => exact List.Sublist.refl _
  | takeCompareAndSet | takeCheckThreshold =>
    simp only [act]
    split_ifs <;> exact List.Sublist.refl _
  | takeAsyncPadding | takeCheckFlag =>
    simp only [act]
    split <;> exact List.Sublist.refl _
  | putReadTail | putWriteSlot | putSetFlag => exact List.Sublist.refl _
  | putReadCursor uid currentTail =>
    simp only [act]
    split_ifs
    · exact hdrop uid
    · exact List.Sublist.refl _
    · exact hdrop uid
    · exact List.Sublist.refl _
  | putCheckFlag uid currentTail =>
    simp only [act]
    split_ifs
    · exact hdrop uid
    · exact List.Sublist.refl _
  | putPublish uid currentTail =>
    simp only [act,leave,Pc.pending,Option.toList]
    rw [List.append_nil]

theorem RingBuffer.act_pending (rb : RingBuffer) (t : ℕ) (r : Ring) {pc : Pc} {call : Call}
    (hcall : ∀ uid, call ≠ .put uid) (h : pc.pending = none) :
    (rb.act t r pc call).2.pending = none := by
  cases pc with
  | idle last =>
    cases call with
    | put uid => exact absurd rfl (hcall uid)
    | take | go => rfl
  | takeReadOld | takeReadTail | takeReadSlot | takeResetFlag => rfl
  | takeCompareAndSet | takeCheckThreshold =>
    simp only [act]
    split_ifs <;> rfl
  | takeAsyncPadding | takeCheckFlag =>
    simp only [act]
    split <;> rfl
  | putReadTail | putReadCursor | putCheckFlag | putWriteSlot | putSetFlag | putPublish => cases h

namespace CachedUidGenerator
variable (g : CachedUidGenerator) (start : Long)

/-- The UIDs of all the seconds provided so far. -/
def offered (s : Padded) : List Long :=
  (secondsAfter start s.provided).flatMap g.nextIdsForOneSecond

structure Here (s : Padded) (w : Worker) : Prop where
  running : w.padding ≠ .none → s.running = true
  pending : (∀ rest, w.padding ≠ .fill rest) → w.ring.pending = none
  offers : (s.ring.puts ++ w.ring.pending.toList ++ w.padding.rest).Sublist (g.offered start s)

def outline : Threads.Outline ℕ Padded Worker where
  shared s := s.lastSecond = start + BitVec.ofNat 64 s.provided
  here _ := g.Here start
  apart w w' := w.padding = .none ∨ w'.padding = .none

/-- All that an action can do: go on in the buffer, or move a padding task on. -/
inductive Effect (t : ℕ) (s : Padded) (w : Worker) : Padded → Worker → Prop
  | rest : Effect t s w s w
  | begin (hnone : w.padding = .none) (hfree : s.running = false) :
      Effect t s w { s with running := true } ⟨w.ring,.provide⟩
  | ring (call : Call) (padding : Padding) (hcall : ∀ uid, call ≠ .put uid)
      (hpadding : padding = w.padding ∨
        (g.ringBuffer.act t s.ring w.ring call).2 = .idle (some (.put false)) ∧
          padding = .finish ∧ w.padding ≠ .none) :
      Effect t s w { s with ring := (g.ringBuffer.act t s.ring w.ring call).1 }
        ⟨(g.ringBuffer.act t s.ring w.ring call).2,padding⟩
  | put (uid : Long) (rest : List Long) (last : Option Outcome)
      (hfill : w.padding = .fill (uid :: rest)) (hidle : w.ring = .idle last)
      (hfree : s.ring.monitor = none) :
      Effect t s w { s with ring := { s.ring with monitor := some t } }
        ⟨.putReadTail uid,.fill rest⟩
  | provide (hprovide : w.padding = .provide) :
      Effect t s w { s with lastSecond := s.lastSecond + 1, provided := s.provided + 1 }
        ⟨w.ring,.fill (g.nextIdsForOneSecond (s.lastSecond + 1))⟩
  | again (hfill : w.padding = .fill []) (hpending : w.ring.pending = none) :
      Effect t s w s ⟨w.ring,.provide⟩
  | finish (hfinish : w.padding = .finish) :
      Effect t s w { s with running := false } ⟨w.ring,.none⟩

section Effect
variable {g} {start : Long} {s s' : Padded} {w w' : Worker} {t : ℕ} {task : Task}

theorem effect_afterPut {rest : List Long} (hfill : w.padding = .fill rest) :
    g.Effect t s w (afterPut rest (g.onRing t s w.ring .go)).1
      (afterPut rest (g.onRing t s w.ring .go)).2 := by
  simp only [afterPut,onRing]
  split
  · next hrejected =>
    exact .ring .go .finish nofun (.inr ⟨hrejected,rfl,by rw [hfill]; nofun⟩)
  · exact .ring .go (.fill rest) nofun (.inl hfill.symm)

theorem effect_act : g.Effect t s w (g.act t s w task).1 (g.act t s w task).2 := by
  obtain ⟨pc,padding⟩ := w
  cases padding with
  | none =>
    cases pc with
    | idle last =>
      cases task with
      | getUID => exact .ring .take .none nofun (.inl rfl)
      | paddingBuffer =>
        simp only [act]
        split_ifs with hrunning
        · exact .rest
        · exact .begin rfl (Bool.not_eq_true _ ▸ hrunning)
      | go => exact .rest
    | takeReadOld | takeReadTail | takeCompareAndSet | takeCheckThreshold | takeAsyncPadding
    | takeCheckFlag | takeReadSlot | takeResetFlag | putReadTail | putReadCursor | putCheckFlag
    | putWriteSlot | putSetFlag | putPublish => exact .ring .go .none nofun (.inl rfl)
  | provide => exact .provide rfl
  | fill rest =>
    cases pc with
    | idle last =>
      cases rest with
      | nil => exact .again rfl rfl
      | cons uid rest =>
        simp only [act,onRing,RingBuffer.act]
        cases hmonitor : s.ring.monitor with
        | none => exact .put uid rest last rfl rfl hmonitor
        | some u => exact .rest
    | takeReadOld | takeReadTail | takeCompareAndSet | takeCheckThreshold | takeAsyncPadding
    | takeCheckFlag | takeReadSlot | takeResetFlag | putReadTail | putReadCursor | putCheckFlag
    | putWriteSlot | putSetFlag | putPublish =>
      cases rest <;> exact effect_afterPut rfl
  | finish => exact .finish rfl

theorem offered_provide (hlast : s.lastSecond = start + BitVec.ofNat 64 s.provided) :
    g.offered start { s with lastSecond := s.lastSecond + 1, provided := s.provided + 1 } =
      g.offered start s ++ g.nextIdsForOneSecond (s.lastSecond + 1) := by
  have hnext : start + BitVec.ofNat 64 (s.provided + 1) = s.lastSecond + 1 := by
    rw [hlast,BitVec.ofNat_add,← BitVec.add_assoc]
    rfl
  simp only [offered,secondsAfter_succ,List.flatMap_append,List.flatMap_singleton,hnext]

/-- An action keeps its own thread's assertion. -/
theorem Here.of_effect (h : g.Here start s w) (hs : (g.outline start).shared s)
    (heffect : g.Effect t s w s' w') : (g.outline start).shared s' ∧ g.Here start s' w' := by
  have hoffers := h.offers
  cases heffect with
  | rest => exact ⟨hs,h⟩
  | begin hnone hfree =>
    have hpending := h.pending (by rw [hnone]; nofun)
    rw [hnone] at hoffers
    exact ⟨hs,fun _ => rfl,fun _ => hpending,hoffers⟩
  | ring call padding hcall hpadding =>
    have hputs := g.ringBuffer.act_puts t s.ring w.ring hcall
    refine ⟨hs,fun hne => h.running ?_,fun hfill => ?_,?_⟩
    · obtain rfl | ⟨-,-,hne'⟩ := hpadding
      · exact hne
      · exact hne'
    · obtain rfl | ⟨hrejected,-,-⟩ := hpadding
      · exact g.ringBuffer.act_pending t s.ring hcall (h.pending hfill)
      · dsimp only
        rw [hrejected]
        rfl
    · obtain rfl | ⟨-,rfl,-⟩ := hpadding
      · exact (hputs.append_right _).trans hoffers
      · refine List.Sublist.trans ?_ hoffers
        simp only [Padding.rest,List.append_nil]
        exact hputs.trans (List.sublist_append_left ..)
  | put uid rest last hfill hidle hfree =>
    refine ⟨hs,fun _ => h.running (by rw [hfill]; nofun),fun hne => (hne rest rfl).elim,?_⟩
    rw [hfill,hidle] at hoffers
    change (s.ring.puts ++ [uid] ++ rest).Sublist (g.offered start s)
    simpa [Pc.pending,Padding.rest] using hoffers
  | provide hprovide =>
    have hpending := h.pending (by rw [hprovide]; nofun)
    refine ⟨?_,fun _ => h.running (by rw [hprovide]; nofun),fun hne => (hne _ rfl).elim,?_⟩
    · change s.lastSecond + 1 = start + BitVec.ofNat 64 (s.provided + 1)
      rw [BitVec.ofNat_add,← BitVec.add_assoc,hs]
      rfl
    · rw [offered_provide hs]
      rw [hprovide,hpending] at hoffers
      simp only [Padding.rest,hpending,Option.toList,List.append_nil] at hoffers ⊢
      exact hoffers.append_right _
  | again hfill hpending =>
    rw [hfill] at hoffers
    exact ⟨hs,fun _ => h.running (by rw [hfill]; nofun),fun _ => hpending,hoffers⟩
  | finish hfinish =>
    have hpending := h.pending (by rw [hfinish]; nofun)
    rw [hfinish] at hoffers
    exact ⟨hs,fun hne => (hne rfl).elim,fun _ => hpending,hoffers⟩

/-- While another thread pads, an action is one of a caller on the buffer. -/
theorem Effect.of_padding {q : Worker} (hq : g.Here start s q) (hpad : q.padding ≠ .none)
    (hnone : w.padding = .none) (heffect : g.Effect t s w s' w') :
    w'.padding = .none ∧ s'.running = s.running ∧ s'.provided = s.provided ∧
      (w.ring.pending = none → s'.ring.puts.Sublist s.ring.puts) := by
  cases heffect with
  | rest => exact ⟨hnone,rfl,rfl,fun _ => List.Sublist.refl _⟩
  | begin _ hfree =>
    have hrunning := hq.running hpad
    rw [hfree] at hrunning
    cases hrunning
  | ring call padding hcall hpadding =>
    refine ⟨?_,rfl,rfl,fun hpending => ?_⟩
    · obtain rfl | ⟨-,-,hne⟩ := hpadding
      · exact hnone
      · exact absurd hnone hne
    · have hputs := g.ringBuffer.act_puts t s.ring w.ring hcall
      rw [hpending,Option.toList,List.append_nil] at hputs
      exact (List.sublist_append_left ..).trans hputs
  | put _ _ _ hfill | again hfill => rw [hnone] at hfill; cases hfill
  | provide hprovide => rw [hnone] at hprovide; cases hprovide
  | finish hfinish => rw [hnone] at hfinish; cases hfinish

/-- An action leaves the other threads' assertions alone. -/
theorem Here.of_other {q : Worker} (hq : g.Here start s q) (h : g.Here start s w)
    (hapart : (g.outline start).apart w q) (hs : (g.outline start).shared s)
    (heffect : g.Effect t s w s' w') :
    g.Here start s' q ∧ (g.outline start).apart w' q := by
  by_cases hpad : q.padding = .none
  · refine ⟨⟨fun hne => absurd hpad hne,hq.pending,?_⟩,.inr hpad⟩
    have hoffers := (h.of_effect hs heffect).2.offers
    have hpending := hq.pending (by rw [hpad]; nofun)
    rw [hpad,hpending]
    simp only [Padding.rest,Option.toList,List.append_nil]
    rw [List.append_assoc] at hoffers
    exact (List.sublist_append_left ..).trans hoffers
  · have hnone : w.padding = .none := hapart.resolve_right hpad
    obtain ⟨hnone',hrunning,hprovided,hputs⟩ := heffect.of_padding hq hpad hnone
    refine ⟨⟨fun hne => hrunning.trans (hq.running hne),hq.pending,?_⟩,.inl hnone'⟩
    have hoffers := hq.offers
    have hsub := hputs (h.pending (by rw [hnone]; nofun))
    rw [List.append_assoc] at hoffers ⊢
    rw [offered,hprovided]
    exact (hsub.append_right _).trans hoffers

end Effect

theorem outline_valid (currentTimeMillis : Long) :
    (g.outline (toSeconds currentTimeMillis)).Valid (g.threads currentTimeMillis) Guard where
  init_shared := by
    change toSeconds currentTimeMillis = toSeconds currentTimeMillis + 0
    simp
  init_here _ := ⟨fun hne => (hne rfl).elim,fun _ => rfl,List.nil_sublist _⟩
  init_apart := .inl rfl
  symm _ _ := Or.symm
  step _ _ _ _ hs h _ := h.of_effect hs effect_act
  free _ _ _ _ _ _ _ hs h hq hapart _ := hq.of_other h hapart hs effect_act

section Run
variable {g} {currentTimeMillis : Long} {ops : List (ℕ × Task)}

theorem ringPart_update (s : Padded) (pc : ℕ → Worker) (t : ℕ) (w : Worker) :
    ringPart ⟨s,Function.update pc t w⟩ =
      ⟨s.ring,Function.update (fun u => (pc u).ring) t w.ring⟩ := by
  simp only [ringPart]
  congr 1
  funext u
  exact Function.apply_update (fun _ w => Worker.ring w) pc t w u

/-- An action is one on the buffer or none. -/
theorem Effect.ringPart {s s' : Padded} {pc : ℕ → Worker} {t : ℕ} {w' : Worker}
    (h : g.Effect t s (pc t) s' w') (hok : RingBuffer.Guard t s.ring (pc t).ring .go)
    (past : List (ℕ × Call)) :
    ∃ ops, g.ringBuffer.machine.MeetsFrom g.ringBuffer.guard past
        (CachedUidGenerator.ringPart ⟨s,pc⟩) ops ∧
      CachedUidGenerator.ringPart ⟨s',Function.update pc t w'⟩ =
        g.ringBuffer.machine.runFrom (CachedUidGenerator.ringPart ⟨s,pc⟩) ops := by
  rw [ringPart_update]
  have hself : Function.update (fun u => (pc u).ring) t (pc t).ring = fun u => (pc u).ring :=
    Function.update_eq_self ..
  cases h with
  | rest | begin | provide | again | finish =>
    exact ⟨[],trivial,congrArg (Threads.State.mk _) hself⟩
  | ring call => exact ⟨[(t,call)],⟨hok,trivial⟩,rfl⟩
  | put uid rest last hfill hidle hfree =>
    refine ⟨[(t,.put uid)],⟨hok,trivial⟩,?_⟩
    have hact : g.ringBuffer.act t s.ring (pc t).ring (.put uid) =
        ({ s.ring with monitor := some t }, .putReadTail uid) := by
      rw [hidle]
      simp only [RingBuffer.act,hfree]
    change _ = Threads.State.mk (g.ringBuffer.act t s.ring (pc t).ring (.put uid)).1
      (Function.update _ t (g.ringBuffer.act t s.ring (pc t).ring (.put uid)).2)
    rw [hact]
    rfl

/-- Every run of the generator is a run of its ring buffer. -/
theorem ringPart_after (h : (g.machine currentTimeMillis).Meets (g.guard currentTimeMillis) ops) :
    ∃ ops', g.ringBuffer.machine.Meets g.ringBuffer.guard ops' ∧
      ringPart ((g.machine currentTimeMillis).after ops) = g.ringBuffer.machine.after ops' :=
  Machine.simulation ringPart rfl (fun _ _ past' _ hok _ => effect_act.ringPart hok past') h

/-- What has been put follows the offered UIDs, in their order. -/
theorem puts_sublist_offered
    (h : (g.machine currentTimeMillis).Meets (g.guard currentTimeMillis) ops) :
    ((g.machine currentTimeMillis).after ops).shared.ring.puts.Sublist
      (g.offered (toSeconds currentTimeMillis)
        ((g.machine currentTimeMillis).after ops).shared) := by
  have hoffers := (((g.outline_valid currentTimeMillis).holds h).here 0).offers
  rw [List.append_assoc] at hoffers
  exact (List.sublist_append_left ..).trans hoffers

/-- So is, up to the order, what callers have got. -/
theorem takes_subperm_offered
    (h : (g.machine currentTimeMillis).Meets (g.guard currentTimeMillis) ops) :
    (((g.machine currentTimeMillis).after ops).shared.ring.takes.map Prod.snd).Subperm
      (g.offered (toSeconds currentTimeMillis)
        ((g.machine currentTimeMillis).after ops).shared) := by
  obtain ⟨ops',hmeets,hring⟩ := ringPart_after h
  have hsub := (RingBuffer.holds_after hmeets).shared.subperm_puts
  rw [← hring] at hsub
  exact hsub.trans (puts_sublist_offered h).subperm

theorem nodup_uids (hg : g.Ready)
    (h : (g.machine currentTimeMillis).Meets (g.guard currentTimeMillis) ops)
    (hcount : ((g.machine currentTimeMillis).after ops).shared.provided ≤
      2^(g.bitsAllocator.secondWidth + 1)) :
    (((g.machine currentTimeMillis).after ops).shared.ring.takes.map Prod.snd).Nodup := by
  obtain ⟨uids,hperm,hsublist⟩ := takes_subperm_offered h
  exact hperm.nodup_iff.mp (hsublist.nodup (nodup_seconds hg _ hcount))

/-- A UID that a caller has got is one of an offered second. -/
theorem second_of_uid
    (h : (g.machine currentTimeMillis).Meets (g.guard currentTimeMillis) ops) {uid : Long}
    (huid : uid ∈ ((g.machine currentTimeMillis).after ops).shared.ring.takes.map Prod.snd) :
    ∃ second ∈ secondsAfter (toSeconds currentTimeMillis)
      ((g.machine currentTimeMillis).after ops).shared.provided,
        uid ∈ g.nextIdsForOneSecond second :=
  List.mem_flatMap.mp ((takes_subperm_offered h).subset huid)

end Run

/-- However callers and padding tasks interleave under the buffer's guard, no UID is handed out
twice, as long as the buffer has not been offered more seconds than the bits of a second and the
sign bit tell apart. A UID parses to the worker id and, modulo that many, to the distance of one
of these seconds from the epoch. It is negative exactly when the remainder is past the largest
delta, which this generator does not check. -/
theorem getUID_distinct {g : CachedUidGenerator} (hg : g.Ready) {currentTimeMillis : Long}
    {ops : List (ℕ × Task)}
    (h : (g.machine currentTimeMillis).Meets (g.guard currentTimeMillis) ops)
    (hcount : ((g.machine currentTimeMillis).after ops).shared.provided ≤
      2^(g.bitsAllocator.secondWidth + 1)) :
    (((g.machine currentTimeMillis).after ops).shared.ring.takes.map Prod.snd).Nodup ∧
      ∀ uid ∈ ((g.machine currentTimeMillis).after ops).shared.ring.takes.map Prod.snd,
        (g.bitsAllocator.parse uid).workerId = g.workerId ∧
          ∃ second ∈ secondsAfter (toSeconds currentTimeMillis)
              ((g.machine currentTimeMillis).after ops).shared.provided,
            (g.bitsAllocator.parse uid).deltaSeconds.toNat =
                (second - g.epochSeconds).toNat % 2^(g.bitsAllocator.secondWidth + 1) ∧
              (uid.toInt < 0 ↔ 2^g.bitsAllocator.secondWidth ≤
                (second - g.epochSeconds).toNat % 2^(g.bitsAllocator.secondWidth + 1)) := by
  refine ⟨nodup_uids hg h hcount,fun uid huid => ?_⟩
  obtain ⟨second,hsecond,hmem⟩ := second_of_uid h huid
  obtain ⟨hworker,hdelta⟩ := parse_nextIds hg hmem
  refine ⟨hworker,second,hsecond,hdelta,?_⟩
  rw [← hdelta]
  exact BitsAllocator.neg_iff_le_deltaSeconds hg.proper

/-- Two UIDs a second, and room for two seconds. -/
def smallGenerator : CachedUidGenerator where
  bitsAllocator := ⟨60,2,1,by decide⟩
  epochSeconds := toSeconds 1463673600000
  workerId := 2
  boostPower := 1
  paddingFactor := 50
  ringBuffer := RingBuffer.smallBuffer
  initialized := rfl

/-- The beginning of a padding, with two callers that come in between. The second one moves the
cursor before the first one can, which then reads it again. -/
def firstPadding : List (ℕ × Task) :=
  (0,.paddingBuffer) :: List.replicate 18 (0,.go) ++
    (1,.getUID) :: (2,.getUID) :: List.replicate 2 (1,.go) ++ List.replicate 10 (2,.go) ++
    List.replicate 10 (1,.go) ++ [(0,.go),(2,.paddingBuffer)]

theorem getUID_distinct_firstPadding :
    ((smallGenerator.machine 1700000000000).after firstPadding).shared.ring.takes.length = 2 ∧
      (((smallGenerator.machine 1700000000000).after firstPadding).shared.ring.takes.map
        Prod.snd).Nodup :=
  ⟨by decide,(getUID_distinct (g := smallGenerator)
    ⟨⟨by decide,by decide,by decide,by decide⟩,⟨1463673600000,rfl⟩,by decide,by decide⟩
    (by decide) (by decide)).1⟩

end CachedUidGenerator
end ImSingle.Uid
