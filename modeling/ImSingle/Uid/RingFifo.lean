import ImSingle.Uid.RingRun

/-! The ring buffer behaves as a queue with atomic operations: a put takes effect when it
publishes the tail, a take when its `updateAndGet` moves the cursor. -/
namespace ImSingle.Uid
open Library

namespace RingBuffer
variable {rb : RingBuffer}

/-- What the buffer and its threads amount to: the positions behind the cursor are dequeued, a
running take holds the UID of the position it claimed. -/
def toFifo (s : Threads.State ℕ Ring Pc) : Fifo ℕ Long where
  queue := s.shared.puts.drop (s.shared.cursor + 1).toNat
  held t := (s.pc t).claim.bind fun p => s.shared.puts[p.toNat]?
  dequeued := s.shared.puts.take (s.shared.cursor + 1).toNat
  delivered := s.shared.takes.map Prod.snd

section Step
variable {r r' : Ring} {pc : ℕ → Pc} {pc' : Pc} {t : ℕ}

/-- What the threads hold when the acting one keeps its claim. -/
theorem held_eq (hclaim : pc'.claim = (pc t).claim) (puts : List Long) :
    (fun u => (Function.update pc t pc' u).claim.bind fun p => puts[p.toNat]?) =
      fun u => (pc u).claim.bind fun p => puts[p.toNat]? := by
  funext u
  by_cases hu : u = t
  · subst hu
    rw [Function.update_self,hclaim]
  · rw [Function.update_of_ne hu]

/-- What they hold when it gets or loses one. -/
theorem held_update (puts : List Long) :
    (fun u => (Function.update pc t pc' u).claim.bind fun p => puts[p.toNat]?) =
      Function.update (fun u => (pc u).claim.bind fun p => puts[p.toNat]?) t
        (pc'.claim.bind fun p => puts[p.toNat]?) := by
  funext u
  by_cases hu : u = t
  · subst hu
    rw [Function.update_self,Function.update_self]
  · rw [Function.update_of_ne hu,Function.update_of_ne hu]

/-- Every action is one operation of the queue or none. -/
theorem Effect.toFifo (hs : rb.Sound r) (hhere : ∀ u, rb.Here u r (pc u))
    (h : rb.Effect t r (pc t) pc' r') :
    ∃ ops, toFifo ⟨r',Function.update pc t pc'⟩ =
      (Fifo.machine ℕ Long).runFrom (toFifo ⟨r,pc⟩) ops := by
  have hge := hs.cursor_ge
  have hle := hs.cursor_le
  have hlength := hs.puts_length
  cases h with
  | quiet _ _ _ hclaim | write _ _ _ hclaim =>
    refine ⟨[],?_⟩
    apply Fifo.ext
    · rfl
    · exact held_eq hclaim r.puts
    · rfl
    · rfl
  | claim hlt hold hnew =>
    refine ⟨[.dequeue t],?_⟩
    have hindex : (r.cursor + 1).toNat < r.puts.length := by omega
    have hnext : (r.cursor + 1 + 1).toNat = (r.cursor + 1).toNat + 1 := by omega
    have hqueue : (RingBuffer.toFifo ⟨r,pc⟩).queue =
        r.puts[(r.cursor + 1).toNat] :: r.puts.drop ((r.cursor + 1).toNat + 1) :=
      List.drop_eq_getElem_cons hindex
    have hheld : (RingBuffer.toFifo ⟨r,pc⟩).held t = none := by
      simp [RingBuffer.toFifo,hold]
    simp only [Machine.runFrom,List.foldl_cons,List.foldl_nil,Fifo.machine,Fifo.step]
    rw [hqueue,hheld]
    apply Fifo.ext
    · simp only [RingBuffer.toFifo,hnext]
    · simp only [RingBuffer.toFifo]
      rw [held_update,hnew]
      simp [List.getElem?_eq_getElem hindex]
    · simp only [RingBuffer.toFifo,hnext]
      exact List.take_succ_eq_append_getElem hindex
    · rfl
  | release p uid hold hnew huid =>
    refine ⟨[.deliver t],?_⟩
    have hheld : (RingBuffer.toFifo ⟨r,pc⟩).held t = some uid := by
      simp [RingBuffer.toFifo,hold,huid]
    simp only [Machine.runFrom,List.foldl_cons,List.foldl_nil,Fifo.machine,Fifo.step]
    rw [hheld]
    apply Fifo.ext
    · rfl
    · simp only [RingBuffer.toFifo]
      rw [held_update,hnew]
      rfl
    · rfl
    · simp [RingBuffer.toFifo]
  | publish uid hmonitor hput hclaim =>
    refine ⟨[.enqueue uid],?_⟩
    have hindex : (r.cursor + 1).toNat ≤ r.puts.length := by omega
    simp only [Machine.runFrom,List.foldl_cons,List.foldl_nil,Fifo.machine,Fifo.step]
    apply Fifo.ext
    · exact List.drop_append_of_le_length hindex
    · simp only [RingBuffer.toFifo]
      rw [held_eq hclaim]
      funext u
      cases hu : (pc u).claim with
      | none => rfl
      | some p =>
        have hp := ((hhere u).owned p hu).2.1
        have h0 := ((hhere u).owned p hu).1
        exact List.getElem?_append_left (by omega)
    · exact List.take_append_of_le_length hindex
    · rfl

end Step

/-- Every interleaving that meets the guard is a run of the atomic queue: UIDs leave the buffer
in the order they were put, and every take returns the one it dequeued. -/
theorem refines_fifo {ops : List (ℕ × Call)} (h : rb.machine.Meets rb.guard ops) :
    ∃ ops', toFifo (rb.machine.after ops) = (Fifo.machine ℕ Long).after ops' ∧
      (rb.machine.after ops).shared.puts = Fifo.enqueued ops' := by
  have hstep : ∀ past a past', rb.machine.Meets rb.guard past →
      rb.guard past (rb.machine.after past) a →
      (Fifo.machine ℕ Long).after past' = toFifo (rb.machine.after past) →
      ∃ ops', (Fifo.machine ℕ Long).MeetsFrom (fun _ _ _ => True) past'
          (toFifo (rb.machine.after past)) ops' ∧
        toFifo (rb.machine.step (rb.machine.after past) a) =
          (Fifo.machine ℕ Long).runFrom (toFifo (rb.machine.after past)) ops' := by
    intro past a past' hpast hok _
    obtain ⟨t,call⟩ := a
    have hholds := holds_after hpast
    have heffect := (hholds.here t).effect hholds.shared hok
    obtain ⟨ops',hops⟩ := heffect.toFifo hholds.shared hholds.here
    exact ⟨ops',Machine.meetsFrom_of_forall fun _ _ _ => trivial,hops⟩
  obtain ⟨ops',-,hafter⟩ := Machine.simulation toFifo rfl hstep h
  refine ⟨ops',hafter,?_⟩
  have hfifo := Fifo.dequeued_append_queue ops'
  rw [← hafter] at hfifo
  exact (List.take_append_drop ..).symm.trans hfifo

theorem refines_fifo_twoTakes :
    (toFifo (smallBuffer.machine.after twoTakes)).delivered = [10,11] ∧
      ∃ ops', toFifo (smallBuffer.machine.after twoTakes) =
          (Fifo.machine ℕ Long).after ops' ∧
        (smallBuffer.machine.after twoTakes).shared.puts = Fifo.enqueued ops' :=
  ⟨by decide,refines_fifo (by decide)⟩

end RingBuffer
end ImSingle.Uid
