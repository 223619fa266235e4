import ImSingle.Library.Reconcile
import ImSingle.Stat.NotifyRun

/-! Two notifications that are handled at the same time. Nothing keeps the handlers apart, so
one may read the available nodes between the stops and starts of the other one. -/
namespace ImSingle.Stat
open Library Library.Reconcile Registry

/-- Where a handler is: it has not read yet, or has these stops and then these starts to make. -/
inductive Progress
  | unread
  | looping (offlineList onlineList : List Ref)
  deriving DecidableEq, Repr

/-- The registry and the two handlers at work on it. -/
structure Handlers where
  registry : Registry
  progress : Bool → Progress

namespace Handlers

/-- The registry after a call in one of the loops; the handler ends if the call threw. -/
def afterCall (w : Handlers) (k : Bool) (result : EStateM.Result Exn Registry Unit)
    (rest : Progress) : Handlers :=
  ⟨Java.finalState result,
    Function.update w.progress k (if Java.returned result then rest else .looping [] [])⟩

/-- The next registry call of handler `k`: it reads, makes one stop or makes one start. -/
def step (params : Bool → ServiceNotify) (w : Handlers) (k : Bool) : Handlers :=
  match w.progress k with
  | .unread =>
    match resolveServiceNotify (params k) with
    | .error _ => { w with progress := Function.update w.progress k (.looping [] []) }
    | .ok nodes => ⟨allocAll nodes w.registry,Function.update w.progress k
        (.looping (offline nodes w.registry) (online nodes w.registry))⟩
  | .looping (r :: rest) onlineList =>
    w.afterCall k ((stop r).run w.registry) (.looping rest onlineList)
  | .looping [] (r :: rest) => w.afterCall k ((start r).run w.registry) (.looping [] rest)
  | .looping [] [] => w

def Finished (w : Handlers) : Prop := ∀ k, w.progress k = .looping [] []

instance (w : Handlers) : Decidable w.Finished :=
  inferInstanceAs (Decidable (∀ k, w.progress k = .looping [] []))

end Handlers

/-- Every interleaving of the two handlers, by the handler that makes the next step. -/
def handlers (params : Bool → ServiceNotify) (s : Registry) : Machine Handlers Bool :=
  ⟨⟨s,fun _ => .unread⟩,Handlers.step params⟩

/-- The notification of handler `first` and then the other one. -/
def serial (params : Bool → ServiceNotify) (first : Bool) : Java Registry Unit := do
  handlerServiceNotify (params first)
  handlerServiceNotify (params !first)

/-- The same ids are available, and the queue holds the same ids as often. -/
structure SameOutcome (s t : Registry) : Prop where
  available : ∀ n, n ∈ s.availableNodes ↔ n ∈ t.availableNodes
  queued : (s.connectNodeLoads.map fun r => (s.heap r).id).Perm
    (t.connectNodeLoads.map fun r => (t.heap r).id)

/-! ## A handler alone -/

section alone
variable {params : Bool → ServiceNotify} {s : Registry} {w : Handlers} {k : Bool}

theorem handlers_read {nodes : List ConnectNodeLoad} (h : w.progress k = .unread)
    (hnodes : resolveServiceNotify (params k) = .ok nodes) : w.step params k =
      ⟨allocAll nodes w.registry,Function.update w.progress k
        (.looping (offline nodes w.registry) (online nodes w.registry))⟩ := by
  simp [Handlers.step,h,hnodes]

/-- What a call that returns leaves to do is replaced by what the next one leaves. -/
theorem afterCall_ok {t : Registry} {result : EStateM.Result Exn Registry Unit}
    {rest rest' : Progress} :
    (w.afterCall k (.ok () t) rest).afterCall k result rest' = w.afterCall k result rest' := by
  simp only [Handlers.afterCall,Function.update_idem]

theorem progress_afterCall_ok {t : Registry} {rest : Progress} :
    (w.afterCall k (.ok () t) rest).progress k = rest := Function.update_self ..

/-- A loop alone: `next` is what is left of it, after each call that returns. -/
theorem loop_alone (s : Registry) {f : Ref → Java Registry Unit} (next : List Ref → Progress)
    (hnext : ∀ (w : Handlers) r rest, w.progress k = next (r :: rest) →
      w.step params k = w.afterCall k ((f r).run w.registry) (next rest))
    {rs : List Ref} (h : w.progress k = next rs) :
    ∃ m, (handlers params s).runFrom w (List.replicate m k) =
      w.afterCall k ((rs.forM f).run w.registry) (next []) := by
  induction rs generalizing w with
  | nil =>
    refine ⟨0,?_⟩
    change w = ⟨w.registry,Function.update w.progress k (next [])⟩
    rw [← h,Function.update_eq_self]
  | cons r rest ih =>
    have hstep := hnext w r rest h
    cases hrun : (f r).run w.registry with
    | error e t =>
      refine ⟨1,?_⟩
      rw [hrun] at hstep
      rw [Java.run_forM_cons_error hrun]
      exact hstep
    | ok _ t =>
      rw [hrun] at hstep
      obtain ⟨m,hm⟩ := ih (w := w.step params k) (by rw [hstep]; exact progress_afterCall_ok)
      refine ⟨m+1,hm.trans ?_⟩
      rw [Java.run_forM_cons hrun,hstep]
      exact afterCall_ok

theorem loops_alone (params : Bool → ServiceNotify) (s : Registry)
    {offlineList onlineList : List Ref} (h : w.progress k = .looping offlineList onlineList) :
    ∃ m, (handlers params s).runFrom w (List.replicate m k) =
      ⟨Java.finalState ((offlineList.forM stop >>= fun _ => onlineList.forM start).run w.registry),
        Function.update w.progress k (.looping [] [])⟩ := by
  have hstops : ∀ (w : Handlers) r rest, w.progress k = .looping (r :: rest) onlineList →
      w.step params k = w.afterCall k ((stop r).run w.registry) (.looping rest onlineList) := by
    intro w r rest h
    simp [Handlers.step,h]
  have hstarts : ∀ (w : Handlers) r rest, w.progress k = .looping [] (r :: rest) →
      w.step params k = w.afterCall k ((start r).run w.registry) (.looping [] rest) := by
    intro w r rest h
    simp [Handlers.step,h]
  obtain ⟨m,hm⟩ := loop_alone s (fun rest => .looping rest onlineList) hstops h
  rw [EStateM.run_bind]
  cases hrun : (offlineList.forM stop).run w.registry with
  | error e t =>
    rw [hrun] at hm
    exact ⟨m,hm⟩
  | ok _ t =>
    rw [hrun] at hm
    obtain ⟨m',hm'⟩ := loop_alone s (.looping []) hstarts (progress_afterCall_ok (w := w))
    refine ⟨m+m',?_⟩
    rw [List.replicate_add,Machine.runFrom_append,hm,hm',afterCall_ok,Handlers.afterCall,ite_self]
    rfl

/-- The steps of one handler are the calls of `handlerServiceNotify`. -/
theorem handler_alone (h : w.progress k = .unread) :
    ∃ m, (handlers params s).runFrom w (List.replicate m k) =
      ⟨Java.finalState ((handlerServiceNotify (params k)).run w.registry),
        Function.update w.progress k (.looping [] [])⟩ := by
  cases hnodes : resolveServiceNotify (params k) with
  | error e =>
    rw [handlerServiceNotify_unresolved hnodes]
    exact ⟨1,by simp [handlers,Machine.runFrom,Handlers.step,h,hnodes]⟩
  | ok nodes =>
    have hstep := handlers_read h hnodes
    have hlooping : (w.step params k).progress k =
        .looping (offline nodes w.registry) (online nodes w.registry) := by simp [hstep]
    obtain ⟨m,hm⟩ := loops_alone params s hlooping
    refine ⟨m+1,hm.trans ?_⟩
    rw [handlerServiceNotify_resolved hnodes,hstep]
    simp

end alone

/-! ## One id -/

/-- Whether the id is available, and how often it is queued. -/
def entry (id : Option String) (s : Registry) : Entry :=
  ⟨(s.available id).isSome,(s.queuedWith id).length⟩

/-- How often the passing entries of a notification have the id. -/
def listed (params : Bool → ServiceNotify) (id : Option String) (k : Bool) : ℕ :=
  (passingIds (params k)).count id

/-- What a handler has still to do with the id. -/
def planOf (id : Option String) (s : Registry) : Progress → Option Plan
  | .unread => none
  | .looping offlineList onlineList =>
    some (if id ∈ offlineList.map fun r => (s.heap r).id then .drop
      else .add ((onlineList.map fun r => (s.heap r).id).count id))

/-- The part of the state that concerns one id. -/
def row (id : Option String) (w : Handlers) : Row :=
  ⟨entry id w.registry,fun k => planOf id w.registry (w.progress k)⟩

/-- What the next step of handler `k` does to the id. -/
def event (id : Option String) (w : Handlers) (k : Bool) : Option Event :=
  match w.progress k with
  | .unread => some (.read k)
  | .looping (r :: _) _ => if (w.registry.heap r).id = id then some (.drop k) else none
  | .looping [] (r :: _) => if (w.registry.heap r).id = id then some (.add k) else none
  | .looping [] [] => none

/-- For every id the step's event is in order: a handler reads only if each node the other one
has still to stop is one that it does not list either, and each node the other one has still to
start is available already; and it stops a node only if the other one has not to start its id. -/
def InOrder (params : Bool → ServiceNotify) (_past : List Bool) (w : Handlers) (k : Bool) : Prop :=
  ∀ id, ∀ e ∈ event id w k, (row id w).InOrder (listed params id) e

/-- For every id the second handler to read finds what it would have found as the first one,
compared with the registry `s` at the start. -/
def Swapped (params : Bool → ServiceNotify) (s : Registry) (_past : List Bool) (w : Handlers)
    (k : Bool) : Prop :=
  ∀ id, ∀ e ∈ event id w k, (row id w).Swapped (listed params id) (entry id s) e

section entries
variable {s t : Registry} {r : Ref} {rs : List Ref} {n : String} {id : Option String}
  {nodes : List ConnectNodeLoad}

theorem sameOutcome_iff : SameOutcome s t ↔ ∀ id, entry id s = entry id t := by
  constructor
  · intro h id
    have hqueued : (s.queuedWith id).length = (t.queuedWith id).length := by
      rw [← count_queued,← count_queued]
      exact h.queued.count_eq id
    rw [entry,entry,hqueued,Entry.mk.injEq,and_iff_left rfl]
    cases id with
    | none => rfl
    | some n =>
      have havail := h.available n
      rw [← AList.lookup_isSome,← AList.lookup_isSome] at havail
      exact Bool.eq_iff_iff.mpr havail
  · intro h
    constructor
    · intro n
      have havail := congrArg Entry.present (h (some n))
      rw [← AList.lookup_isSome,← AList.lookup_isSome]
      exact Bool.eq_iff_iff.mp havail
    · rw [List.perm_iff_count]
      intro id
      rw [count_queued,count_queued]
      exact congrArg Entry.copies (h id)

theorem entry_stop (hid : (s.heap r).id = some n) : entry id (s.step (.stop r)) =
    if some n = id then (entry id s).drop else entry id s := by
  rw [entry,available_stop hid]
  split
  · next heq =>
    subst heq
    have hlen : ((s.step (.stop r)).queuedWith (some n)).length =
        (s.queuedWith (some n)).length - 1 := by
      rcases queuedWith_stop hid with ⟨hnil,hnil'⟩ | ⟨e,hperm⟩
      · rw [hnil,hnil']
        rfl
      · rw [← hperm.length_eq]
        rfl
    rw [hlen]
    rfl
  · next hne =>
    rw [(queuedWith_stop_ne hid (Ne.symm hne)).length_eq]
    rfl

theorem entry_started (hid : (s.heap r).id = some n) : entry id (started r s) =
    if some n = id then (entry id s).add else entry id s := by
  have hqueued := queuedWith_queueAdd (s := putNode n r s) (r := r) id
  rw [putNode_heap,hid,queuedWith_putNode] at hqueued
  rw [entry,available_started hid,started_eq hid,hqueued.length_eq]
  split <;> rfl

theorem entry_allocAll (h : s.WellFormed) : entry id (allocAll nodes s) = entry id s := by
  rw [entry,queuedWith_allocAll h,available,allocAll_availableNodes]
  rfl

theorem entry_stopAll (h : ∀ r ∈ rs, (s.heap r).id ≠ none)
    (hnodup : (rs.map fun r => (s.heap r).id).Nodup) (id : Option String) :
    entry id (stopAll rs s) =
      if id ∈ rs.map (fun r => (s.heap r).id) then (entry id s).drop else entry id s := by
  induction rs generalizing s with
  | nil => rfl
  | cons r rs ih =>
    obtain ⟨n,hn⟩ := Option.ne_none_iff_exists'.mp (h r (by simp))
    have hheap := (step_stop_frame (s := s) (r := r)).1
    rw [List.map_cons,List.nodup_cons] at hnodup
    rw [stopAll_cons,ih (by rw [hheap]; exact fun r hr => h r (by simp [hr]))
      (by rw [hheap]; exact hnodup.2),hheap,entry_stop hn]
    by_cases hid : some n = id
    · subst hid
      rw [hn] at hnodup
      simp [hnodup.1,hn]
    · simp [hid,Ne.symm hid,hn]

theorem entry_startAll (h : ∀ r ∈ rs, (s.heap r).id ≠ none) (id : Option String) :
    entry id (startAll rs s) =
    let count := (rs.map fun r => (s.heap r).id).count id
    if count = 0 then entry id s else ⟨true,(entry id s).copies + count⟩ := by
  induction rs generalizing s with
  | nil => rfl
  | cons r rs ih =>
    obtain ⟨n,hn⟩ := Option.ne_none_iff_exists'.mp (h r (by simp))
    have hheap := (started_frame (s := s) (r := r)).1
    rw [startAll_cons,ih (by rw [hheap]; exact fun r hr => h r (by simp [hr])),hheap,
      entry_started hn,List.map_cons,List.count_cons,hn]
    by_cases hid : some n = id
    · subst hid
      simp only [Entry.add,if_pos,beq_self_eq_true]
      split
      · next hzero => simp [hzero]
      · simp [Nat.add_assoc,Nat.add_comm 1]
    · simp [hid]

/-- Handled alone, a notification brings the entry of every id in line with it. -/
theorem entry_handled (h : s.WellFormed) (hids : none ∉ nodes.map ConnectNodeLoad.id) :
    entry id (handled nodes s) =
      (entry id s).reconciled ((nodes.map ConnectNodeLoad.id).count id) := by
  have hstop : entry id (stopAll (offline nodes s) (allocAll nodes s)) = _ :=
    entry_stopAll (offline_ids h) (nodup_ids_offline h) id
  have hstart := entry_startAll (online_ids (s := s) hids) id
  rw [stopAll_frame.1,count_ids_online h] at hstart
  rw [entry_allocAll h] at hstop
  rw [handled,hstart,hstop]
  simp only [mem_ids_offline h]
  cases havail : s.available id with
  | none =>
    have hpresent : (entry id s).present = false := by simp [entry,havail]
    simp [Entry.reconciled,hpresent]
  | some r =>
    have hpresent : (entry id s).present = true := by simp [entry,havail]
    simp [Entry.reconciled,hpresent,List.count_eq_zero]

end entries

/-! ## What a step does -/

/-- The loops hold nodes with ids; no id is stopped twice, and none both stopped and started. -/
structure Pending (s : Registry) (offlineList onlineList : List Ref) : Prop where
  known : ∀ r ∈ offlineList ++ onlineList, r < s.next ∧ (s.heap r).id ≠ none
  once : (offlineList.map fun r => (s.heap r).id).Nodup
  apart : ∀ r ∈ offlineList, ∀ e ∈ onlineList, (s.heap r).id ≠ (s.heap e).id

structure Sound (w : Handlers) : Prop where
  wellFormed : w.registry.WellFormed
  pending : ∀ k offlineList onlineList, w.progress k = .looping offlineList onlineList →
    Pending w.registry offlineList onlineList

section steps
variable {params : Bool → ServiceNotify} {w : Handlers} {k : Bool} {s t : Registry} {r : Ref}
  {offlineList onlineList : List Ref} {nodes : List ConnectNodeLoad} {n : String}
  {id : Option String}

theorem handlers_stop (h : w.progress k = .looping (r :: offlineList) onlineList)
    (hid : (w.registry.heap r).id = some n) : w.step params k =
      ⟨w.registry.step (.stop r),
        Function.update w.progress k (.looping offlineList onlineList)⟩ := by
  simp only [Handlers.step,h,Handlers.afterCall]
  rw [stop_run hid,← step_stop hid]
  rfl

theorem handlers_start (h : w.progress k = .looping [] (r :: onlineList))
    (hid : (w.registry.heap r).id = some n) : w.step params k =
      ⟨started r w.registry,Function.update w.progress k (.looping [] onlineList)⟩ := by
  simp only [Handlers.step,h,Handlers.afterCall]
  rw [start_run hid,← started_eq hid]
  rfl

theorem handlers_finished (h : w.progress k = .looping [] []) : w.step params k = w := by
  simp [Handlers.step,h]

theorem Pending.of_heap (h : Pending s offlineList onlineList)
    (hheap : ∀ r < s.next, t.heap r = s.heap r) (hnext : s.next ≤ t.next) :
    Pending t offlineList onlineList := by
  have hsame : ∀ r ∈ offlineList ++ onlineList, t.heap r = s.heap r :=
    fun r hr => hheap r (h.known r hr).1
  refine ⟨fun r hr => ?_,?_,fun r hr e he => ?_⟩
  · rw [hsame r hr]
    exact ⟨Nat.lt_of_lt_of_le (h.known r hr).1 hnext,(h.known r hr).2⟩
  · rw [List.map_congr_left fun r hr => by rw [hsame r (by simp [hr])]]
    exact h.once
  · rw [hsame r (by simp [hr]),hsame e (by simp [he])]
    exact h.apart r hr e he

theorem pending_read (h : s.WellFormed) (hids : none ∉ nodes.map ConnectNodeLoad.id) :
    Pending (allocAll nodes s) (offline nodes s) (online nodes s) := by
  refine ⟨fun r hr => ?_,nodup_ids_offline h,fun r hr e he heq => ?_⟩
  · rcases List.mem_append.mp hr with hr | hr
    · obtain ⟨m,hm,_⟩ := (mem_offline h).mp hr
      exact ⟨((wellFormed_allocAll h).stored m r (by simpa using hm)).2,offline_ids h r hr⟩
    · refine ⟨lt_next_of_mem_online hr,?_⟩
      have hid := online_ids hids r hr
      rwa [stopAll_frame.1] at hid
  · have hmem := (mem_ids_offline h).mp (List.mem_map_of_mem hr)
    exact hmem.1 (by rw [heq]; exact ((mem_online h).mp he).2)

theorem Acceptable.resolved {param : ServiceNotify} (h : Acceptable param) :
    ∃ nodes, resolveServiceNotify param = .ok nodes ∧
      nodes.map ConnectNodeLoad.id = Stat.passingIds param ∧
      none ∉ nodes.map ConnectNodeLoad.id := by
  obtain ⟨nodes,hnodes⟩ := h.resolve
  have hids := map_id_of_resolve hnodes
  exact ⟨nodes,hnodes,hids,by rw [hids]; exact h.passingIds⟩

theorem Pending.tail (h : Pending s (r :: offlineList) onlineList) :
    Pending s offlineList onlineList := by
  refine ⟨fun e he => h.known e (List.mem_cons_of_mem _ he),?_,
    fun e he => h.apart e (List.mem_cons_of_mem _ he)⟩
  exact (List.nodup_cons.mp h.once).2

theorem Pending.tail_online (h : Pending s [] (r :: onlineList)) : Pending s [] onlineList :=
  ⟨fun e he => h.known e (List.mem_cons_of_mem _ he),List.nodup_nil,by simp⟩

/-- One handler's step leaves the other one's nodes as they are. -/
theorem Sound.advance (h : Sound w) (hwf : t.WellFormed)
    (hheap : ∀ r < w.registry.next, t.heap r = w.registry.heap r) (hnext : w.registry.next ≤ t.next)
    (hpending : Pending t offlineList onlineList) :
    Sound ⟨t,Function.update w.progress k (.looping offlineList onlineList)⟩ := by
  refine ⟨hwf,fun k' off on hk' => ?_⟩
  by_cases hk : k' = k
  · subst hk
    obtain ⟨rfl,rfl⟩ : offlineList = off ∧ onlineList = on := by simpa using hk'
    exact hpending
  · exact (h.pending k' off on (by simpa [hk] using hk')).of_heap hheap hnext

theorem Sound.step (h : Sound w) (hparams : ∀ k, Acceptable (params k)) (k : Bool) :
    Sound (w.step params k) := by
  cases hprogress : w.progress k with
  | unread =>
    obtain ⟨nodes,hnodes,_,hids⟩ := (hparams k).resolved
    rw [handlers_read hprogress hnodes]
    exact h.advance (wellFormed_allocAll h.wellFormed) (fun r hr => allocAll_heap hr) (by simp)
      (pending_read h.wellFormed hids)
  | looping offlineList onlineList =>
    have hpending := h.pending k _ _ hprogress
    match offlineList, onlineList with
    | [], [] => rwa [handlers_finished hprogress]
    | r :: offlineList, onlineList =>
      obtain ⟨n,hn⟩ := Option.ne_none_iff_exists'.mp (hpending.known r (by simp)).2
      obtain ⟨hheap,hnext,_⟩ := step_stop_frame (s := w.registry) (r := r)
      rw [handlers_stop hprogress hn]
      exact h.advance (h.wellFormed.step _) (fun e _ => by rw [hheap]) hnext.ge
        (hpending.tail.of_heap (fun e _ => by rw [hheap]) hnext.ge)
    | [], r :: onlineList =>
      obtain ⟨hlt,hid⟩ := hpending.known r (by simp)
      obtain ⟨n,hn⟩ := Option.ne_none_iff_exists'.mp hid
      obtain ⟨hheap,hnext,_⟩ := started_frame (s := w.registry) (r := r)
      rw [handlers_start hprogress hn]
      exact h.advance (wellFormed_started h.wellFormed hlt) (fun e _ => by rw [hheap]) hnext.ge
        (hpending.tail_online.of_heap (fun e _ => by rw [hheap]) hnext.ge)

/-! ## The id's row in a step -/

theorem planOf_of_heap {progress : Progress} (h : ∀ offlineList onlineList,
      progress = .looping offlineList onlineList → Pending s offlineList onlineList)
    (hheap : ∀ r < s.next, t.heap r = s.heap r) : planOf id t progress = planOf id s progress := by
  cases progress with
  | unread => rfl
  | looping offlineList onlineList =>
    have hpending := h _ _ rfl
    have hsame : ∀ r ∈ offlineList ++ onlineList, t.heap r = s.heap r :=
      fun r hr => hheap r (hpending.known r hr).1
    rw [planOf,planOf,List.map_congr_left fun r hr => by rw [hsame r (by simp [hr])],
      List.map_congr_left (l := onlineList) fun r hr => by rw [hsame r (by simp [hr])]]

/-- The row after a step that leaves the other handler's nodes as they are. -/
theorem Sound.row_advance (h : Sound w) (id : Option String)
    (hheap : ∀ r < w.registry.next, t.heap r = w.registry.heap r) :
    row id ⟨t,Function.update w.progress k (.looping offlineList onlineList)⟩ =
      ⟨entry id t,Function.update (row id w).plan k
        (planOf id t (.looping offlineList onlineList))⟩ := by
  rw [row,Row.mk.injEq,and_iff_right rfl]
  funext k'
  by_cases hk : k' = k
  · subst hk
    simp
  · simp only [Function.update_of_ne hk]
    exact planOf_of_heap (h.pending k') hheap

theorem planOf_read (h : s.WellFormed) : planOf id (allocAll nodes s)
    (.looping (offline nodes s) (online nodes s)) =
      some ((entry id s).plan ((nodes.map ConnectNodeLoad.id).count id)) := by
  rw [planOf,Option.some.injEq,count_ids_online h]
  simp only [mem_ids_offline h]
  cases havail : s.available id <;> simp [Entry.plan,entry,havail,List.count_eq_zero]

theorem planOf_stop (h : Pending s (r :: offlineList) onlineList) (hid : (s.heap r).id = id) :
    planOf id s (.looping (r :: offlineList) onlineList) = some .drop ∧
      planOf id s (.looping offlineList onlineList) = some (.add 0) := by
  have honce : id ∉ offlineList.map fun e => (s.heap e).id := by
    rw [← hid]
    exact (List.nodup_cons.mp h.once).1
  have hcount : (onlineList.map fun e => (s.heap e).id).count id = 0 := by
    refine List.count_eq_zero.mpr fun hmem => ?_
    obtain ⟨e,he,heid⟩ := List.mem_map.mp hmem
    exact h.apart r (by simp) e he (hid.trans heid.symm)
  exact ⟨by simp [planOf,hid],by rw [planOf,if_neg honce,hcount]⟩

theorem planOf_stop_ne (hid : (s.heap r).id ≠ id) :
    planOf id s (.looping (r :: offlineList) onlineList) =
      planOf id s (.looping offlineList onlineList) := by
  simp [planOf,Ne.symm hid]

theorem planOf_start (onlineList : List Ref) (hid : (s.heap r).id = id) : ∃ left,
    planOf id s (.looping [] (r :: onlineList)) = some (.add (left+1)) ∧
      planOf id s (.looping [] onlineList) = some (.add left) := by
  refine ⟨(onlineList.map fun e => (s.heap e).id).count id,?_,?_⟩ <;> simp [planOf,hid]

theorem planOf_start_ne (hid : (s.heap r).id ≠ id) :
    planOf id s (.looping [] (r :: onlineList)) = planOf id s (.looping [] onlineList) := by
  simp [planOf,hid]

theorem Sound.row_stop (params : Bool → ServiceNotify) (h : Sound w)
    (hprogress : w.progress k = .looping (r :: offlineList) onlineList)
    (hid : (w.registry.heap r).id = some n) (id : Option String) : row id (w.step params k) =
      ⟨if some n = id then (row id w).entry.drop else (row id w).entry,
        Function.update (row id w).plan k
          (planOf id w.registry (.looping offlineList onlineList))⟩ := by
  have hheap := (step_stop_frame (s := w.registry) (r := r)).1
  have hsame : planOf id (w.registry.step (.stop r)) (.looping offlineList onlineList) =
      planOf id w.registry (.looping offlineList onlineList) := by
    simp only [planOf,hheap]
  rw [handlers_stop hprogress hid,h.row_advance id fun e _ => by rw [hheap],hsame,entry_stop hid]
  rfl

theorem Sound.row_start (params : Bool → ServiceNotify) (h : Sound w)
    (hprogress : w.progress k = .looping [] (r :: onlineList))
    (hid : (w.registry.heap r).id = some n) (id : Option String) : row id (w.step params k) =
      ⟨if some n = id then (row id w).entry.add else (row id w).entry,
        Function.update (row id w).plan k (planOf id w.registry (.looping [] onlineList))⟩ := by
  have hheap := (started_frame (s := w.registry) (r := r)).1
  have hsame : planOf id (started r w.registry) (.looping [] onlineList) =
      planOf id w.registry (.looping [] onlineList) := by
    simp only [planOf,hheap]
  rw [handlers_start hprogress hid,h.row_advance id fun e _ => by rw [hheap],hsame,
    entry_started hid]
  rfl

/-- For the id the handler's step is the row's event, if it has one. -/
structure Follows (params : Bool → ServiceNotify) (id : Option String) (w : Handlers) (k : Bool) :
    Prop where
  step : row id (w.step params k) =
    (event id w k).elim (row id w) ((row id w).step (listed params id))
  legal : ∀ e ∈ event id w k, (row id w).Legal e

theorem Follows.of_event {e : Event} (hevent : event id w k = some e) (hlegal : (row id w).Legal e)
    (hstep : row id (w.step params k) = (row id w).step (listed params id) e) :
    Follows params id w k := by
  constructor
  · rw [hevent]
    exact hstep
  · intro e' he'
    rwa [← Option.some.inj (hevent.symm.trans he')]

theorem Follows.of_none (hevent : event id w k = none)
    (hstep : row id (w.step params k) = row id w) : Follows params id w k := by
  constructor
  · rw [hevent]
    exact hstep
  · intro e he
    cases hevent.symm.trans he

theorem plan_row (h : w.progress k = .looping offlineList onlineList) :
    (row id w).plan k = planOf id w.registry (.looping offlineList onlineList) :=
  congrArg (planOf id w.registry) h

theorem Sound.follows_read (h : Sound w) (hparams : Acceptable (params k))
    (hprogress : w.progress k = .unread) (id : Option String) : Follows params id w k := by
  obtain ⟨nodes,hnodes,hlisted,_⟩ := hparams.resolved
  refine .of_event (e := .read k) (by simp [event,hprogress]) ?_ ?_
  · simp [Row.Legal,row,hprogress,planOf]
  · rw [handlers_read hprogress hnodes,h.row_advance id fun r hr => allocAll_heap hr,
      entry_allocAll h.wellFormed,planOf_read h.wellFormed,hlisted]
    rfl

theorem Sound.follows_stop (h : Sound w)
    (hprogress : w.progress k = .looping (r :: offlineList) onlineList) (id : Option String) :
    Follows params id w k := by
  have hpending := h.pending k _ _ hprogress
  obtain ⟨n,hn⟩ := Option.ne_none_iff_exists'.mp (hpending.known r (by simp)).2
  have hrow := h.row_stop params hprogress hn id
  have hplan : (row id w).plan k = _ := plan_row hprogress
  by_cases hid : some n = id
  · obtain ⟨hbefore,hafter⟩ := planOf_stop hpending (hn.trans hid)
    rw [hbefore] at hplan
    rw [hafter,if_pos hid] at hrow
    refine .of_event (e := .drop k) (by simp [event,hprogress,hn,hid]) hplan (hrow.trans ?_)
    simp [Row.step,hplan,Plan.next]
  · have hne : (w.registry.heap r).id ≠ id := by rwa [hn]
    rw [if_neg hid,← planOf_stop_ne hne,← hplan,Function.update_eq_self] at hrow
    exact .of_none (by simp [event,hprogress,hne]) hrow

theorem Sound.follows_start (h : Sound w)
    (hprogress : w.progress k = .looping [] (r :: onlineList)) (id : Option String) :
    Follows params id w k := by
  obtain ⟨n,hn⟩ := Option.ne_none_iff_exists'.mp ((h.pending k _ _ hprogress).known r (by simp)).2
  have hrow := h.row_start params hprogress hn id
  have hplan : (row id w).plan k = _ := plan_row hprogress
  by_cases hid : some n = id
  · obtain ⟨left,hbefore,hafter⟩ := planOf_start onlineList (hn.trans hid)
    rw [hbefore] at hplan
    rw [hafter,if_pos hid] at hrow
    refine .of_event (e := .add k) (by simp [event,hprogress,hn,hid]) ⟨left,hplan⟩
      (hrow.trans ?_)
    simp [Row.step,hplan,Plan.next]
  · have hne : (w.registry.heap r).id ≠ id := by rwa [hn]
    rw [if_neg hid,← planOf_start_ne hne,← hplan,Function.update_eq_self] at hrow
    exact .of_none (by simp [event,hprogress,hne]) hrow

/-- The rows follow the library's parties. -/
theorem Sound.follows (h : Sound w) (hparams : ∀ k, Acceptable (params k)) (k : Bool)
    (id : Option String) : Follows params id w k := by
  cases hprogress : w.progress k with
  | unread => exact h.follows_read (hparams k) hprogress id
  | looping offlineList onlineList =>
    match offlineList, onlineList with
    | [], [] =>
      exact .of_none (by simp [event,hprogress]) (by rw [handlers_finished hprogress])
    | r :: offlineList, onlineList => exact h.follows_stop hprogress id
    | [], r :: onlineList => exact h.follows_start hprogress id

end steps

/-! ## Runs -/

/-- What a run does to one id. -/
def trace (params : Bool → ServiceNotify) (id : Option String) : Handlers → List Bool → List Event
  | _, [] => []
  | w, k :: rest => (event id w k).toList ++ trace params id (w.step params k) rest

section runs
variable {params : Bool → ServiceNotify} {s : Registry} {w : Handlers} {past schedule : List Bool}
  {start : Entry} {id : Option String} {events : List Event}

theorem Sound.row_run (h : Sound w) (hparams : ∀ k, Acceptable (params k)) (start : Entry)
    (id : Option String) (schedule : List Bool) :
    row id ((handlers params s).runFrom w schedule) =
      (Row.parties (listed params id) start).runFrom (row id w) (trace params id w schedule) := by
  induction schedule generalizing w with
  | nil => rfl
  | cons k rest ih =>
    have hrow := (h.follows hparams k id).step
    have hrest := ih (h.step hparams k)
    rw [trace]
    cases hevent : event id w k with
    | none =>
      rw [hevent] at hrow
      rw [hrow] at hrest
      exact hrest
    | some e =>
      rw [hevent] at hrow
      rw [hrow] at hrest
      exact hrest

theorem Sound.legal_trace (h : Sound w) (hparams : ∀ k, Acceptable (params k)) (start : Entry)
    (id : Option String) (schedule : List Bool) (events : List Event) :
    (Row.parties (listed params id) start).MeetsFrom (fun _ => Row.Legal) events (row id w)
      (trace params id w schedule) := by
  induction schedule generalizing w events with
  | nil => trivial
  | cons k rest ih =>
    obtain ⟨hrow,hlegal⟩ := h.follows hparams k id
    rw [trace]
    cases hevent : event id w k with
    | none =>
      rw [hevent] at hrow
      have hrest := ih (h.step hparams k) events
      rw [hrow] at hrest
      exact hrest
    | some e =>
      rw [hevent] at hrow
      have hrest := ih (h.step hparams k) (events ++ [e])
      rw [hrow] at hrest
      exact ⟨hlegal e hevent,hrest⟩

/-- A guard of the id's events holds along its trace exactly if it holds along the run. -/
theorem Sound.meets_trace (h : Sound w) (hparams : ∀ k, Acceptable (params k)) (start : Entry)
    (id : Option String) (schedule past : List Bool) (events : List Event)
    (ok : Row → Event → Prop) :
    (handlers params s).MeetsFrom (fun _ w k => ∀ e ∈ event id w k, ok (row id w) e) past w
        schedule ↔
      (Row.parties (listed params id) start).MeetsFrom (fun _ => ok) events (row id w)
        (trace params id w schedule) := by
  induction schedule generalizing w past events with
  | nil => exact Iff.rfl
  | cons k rest ih =>
    have hrow := (h.follows hparams k id).step
    rw [trace]
    cases hevent : event id w k with
    | none =>
      rw [hevent] at hrow
      have hrest := ih (h.step hparams k) (past ++ [k]) events
      rw [hrow] at hrest
      refine Iff.trans (and_iff_right ?_) hrest
      simp [hevent]
    | some e =>
      rw [hevent] at hrow
      have hrest := ih (h.step hparams k) (past ++ [k]) (events ++ [e])
      rw [hrow] at hrest
      refine and_congr ?_ hrest
      simp [hevent]

theorem serial_run (hwf : s.WellFormed) (hparams : ∀ k, Acceptable (params k)) (first : Bool) :
    ∃ t, (serial params first).run s = .ok () t ∧ ∀ id, entry id t =
      ((entry id s).reconciled (listed params id first)).reconciled (listed params id !first) := by
  obtain ⟨nodes,hnodes,hlisted,hids⟩ := (hparams first).resolved
  obtain ⟨nodes',hnodes',hlisted',hids'⟩ := (hparams !first).resolved
  have hwf' := wellFormed_handled hwf nodes
  refine ⟨handled nodes' (handled nodes s),?_,fun id => ?_⟩
  · rw [serial,EStateM.run_bind,handlerServiceNotify_run hwf hnodes hids]
    exact handlerServiceNotify_run hwf' hnodes' hids'
  · rw [entry_handled hwf' hids',entry_handled hwf hids,hlisted,hlisted']
    rfl

theorem sound_init (params : Bool → ServiceNotify) (hwf : s.WellFormed) :
    Sound (handlers params s).init :=
  ⟨hwf,fun _ _ _ h => nomatch h⟩

theorem entry_of_agrees (hagrees : QueueAgrees s) (id : Option String) :
    entry id s = .single (s.available id).isSome := by
  rw [entry,hagrees id]
  cases s.available id <;> rfl

/-- One id comes out as from one order of the handlers exactly if its events meet the guard. -/
theorem entry_iff {k : Bool} (hwf : s.WellFormed) (hagrees : QueueAgrees s)
    (hparams : ∀ k, Acceptable (params k))
    (hfinished : ((handlers params s).after (k :: schedule)).Finished) (id : Option String) :
    (entry id ((handlers params s).after (k :: schedule)).registry =
        ((entry id s).reconciled (listed params id k)).reconciled (listed params id !k) ↔
      (handlers params s).Meets (fun _ w k => ∀ e ∈ event id w k,
        (row id w).InOrder (listed params id) e) (k :: schedule)) ∧
    (entry id ((handlers params s).after (k :: schedule)).registry =
        ((entry id s).reconciled (listed params id !k)).reconciled (listed params id k) ↔
      (handlers params s).Meets (fun _ w k => ∀ e ∈ event id w k,
        (row id w).Swapped (listed params id) (entry id s) e) (k :: schedule)) := by
  have hsound := sound_init params hwf
  have hstart := entry_of_agrees hagrees id
  have hinit : row id (handlers params s).init = (Row.parties (listed params id)
      (.single (s.available id).isSome)).init := by
    rw [Row.parties,← hstart]
    rfl
  let start : Entry := .single (s.available id).isSome
  have hrun := hsound.row_run (s := s) hparams start id (k :: schedule)
  have hlegal := hsound.legal_trace hparams start id (k :: schedule) []
  have hmeets := hsound.meets_trace (s := s) hparams start id (k :: schedule) [] []
  have htrace : trace params id (handlers params s).init (k :: schedule) =
      .read k :: trace params id ((handlers params s).init.step params k) schedule := rfl
  have hdone : (row id ((handlers params s).after (k :: schedule))).Done := by
    intro k'
    simp [row,hfinished k',planOf]
  rw [hinit,htrace] at hrun hlegal
  simp only [hinit,htrace] at hmeets
  have hentry : entry id ((handlers params s).after (k :: schedule)).registry = _ :=
    congrArg Row.entry hrun
  rw [Machine.after,hrun] at hdone
  obtain ⟨hinOrder,hswapped⟩ := Row.run_iff hlegal hdone
  rw [hentry,hstart]
  exact ⟨hinOrder.trans (hmeets _).symm,hswapped.trans (hmeets _).symm⟩

theorem ne_nil_of_finished (hfinished : ((handlers params s).after schedule).Finished) :
    schedule ≠ [] := by
  rintro rfl
  cases hfinished true

end runs

/-- While the other handler has not begun or is through, every step is in order. -/
theorem inOrder_of_idle {params : Bool → ServiceNotify} {w : Handlers} {k : Bool}
    (h : w.progress (!k) = .unread ∨ w.progress (!k) = .looping [] []) (past : List Bool) :
    InOrder params past w k := by
  intro id e he
  have hplan : (row id w).plan (!k) = none ∨ (row id w).plan (!k) = some (.add 0) := by
    rcases h with h | h <;> simp [row,h,planOf]
  have hparty : e = .read k ∨ e = .drop k ∨ e = .add k := by
    unfold event at he
    split at he
    · exact .inl (Option.some.inj he).symm
    · split at he <;> simp_all
    · split at he <;> simp_all
    · cases he
  rcases hparty with rfl | rfl | rfl
  · intro plan hmem
    rcases hplan with hplan | hplan <;> rw [hplan] at hmem <;> cases hmem
    exact trivial
  · rcases hplan with hplan | hplan <;> simp [Row.InOrder,hplan,Row.addsOf]
  · exact trivial

section overlapping
variable {params : Bool → ServiceNotify} {w : Handlers} {k : Bool} {r : Ref}
  {offlineList onlineList rest mine : List Ref}

/-- A handler may read while the other one is at work, if it does not list the nodes that the
other one has still to stop, and those still to be started are available. -/
theorem inOrder_read (hk : w.progress k = .unread)
    (hother : w.progress (!k) = .looping offlineList onlineList)
    (hoffline : ∀ r ∈ offlineList, (w.registry.heap r).id ∉ passingIds (params k))
    (honline : ∀ r ∈ onlineList, w.registry.available (w.registry.heap r).id ≠ none)
    (past : List Bool) : InOrder params past w k := by
  intro id e he
  obtain rfl : e = .read k := by simpa [event,hk,eq_comm] using he
  intro plan hplan
  obtain rfl := Option.some.inj ((plan_row hother).symm.trans hplan)
  split
  · next hstops =>
    obtain ⟨r,hr,rfl⟩ := List.mem_map.mp hstops
    exact List.count_eq_zero.mpr (hoffline r hr)
  · cases hcount : (onlineList.map fun r => (w.registry.heap r).id).count id with
    | zero => exact trivial
    | succ left =>
      have hpos := Nat.lt_of_lt_of_eq (Nat.succ_pos left) hcount.symm
      obtain ⟨r,hr,rfl⟩ := List.mem_map.mp (List.count_pos_iff.mp hpos)
      exact Option.isSome_iff_ne_none.mpr (honline r hr)

/-- It may stop a node whose id the other one has not to start. -/
theorem inOrder_stop (hk : w.progress k = .looping (r :: rest) mine)
    (hother : w.progress (!k) = .looping offlineList onlineList)
    (hapart : (w.registry.heap r).id ∉ onlineList.map fun e => (w.registry.heap e).id)
    (past : List Bool) : InOrder params past w k := by
  intro id e he
  obtain ⟨rfl,rfl⟩ : (w.registry.heap r).id = id ∧ .drop k = e := by simpa [event,hk] using he
  rw [Row.InOrder,plan_row hother,planOf]
  split
  · rfl
  · exact List.count_eq_zero.mpr hapart

end overlapping

/-- Two concurrent notifications come out as one after the other exactly if every step is in
order, or if the second read is as if it had come first. -/
theorem serialisable_iff (params : Bool → ServiceNotify) (s : Registry) (schedule : List Bool)
    (hwf : s.WellFormed) (hagrees : QueueAgrees s) (hparams : ∀ k, Acceptable (params k))
    (hfinished : ((handlers params s).after schedule).Finished) :
    (∃ first t, (serial params first).run s = .ok () t ∧
        SameOutcome t ((handlers params s).after schedule).registry) ↔
      (handlers params s).Meets (InOrder params) schedule ∨
        (handlers params s).Meets (Swapped params s) schedule := by
  obtain ⟨k,rest,rfl⟩ := List.exists_cons_of_ne_nil (ne_nil_of_finished hfinished)
  have hentries := entry_iff hwf hagrees hparams hfinished
  have hinOrder : (handlers params s).Meets (InOrder params) (k :: rest) ↔ ∀ id,
      entry id ((handlers params s).after (k :: rest)).registry =
        ((entry id s).reconciled (listed params id k)).reconciled (listed params id !k) :=
    Machine.meets_forall_iff.trans (forall_congr' fun id => (hentries id).1.symm)
  have hswapped : (handlers params s).Meets (Swapped params s) (k :: rest) ↔ ∀ id,
      entry id ((handlers params s).after (k :: rest)).registry =
        ((entry id s).reconciled (listed params id !k)).reconciled (listed params id k) :=
    Machine.meets_forall_iff.trans (forall_congr' fun id => (hentries id).2.symm)
  have hserial : ∀ first, (∃ t, (serial params first).run s = .ok () t ∧
      SameOutcome t ((handlers params s).after (k :: rest)).registry) ↔ ∀ id,
      entry id ((handlers params s).after (k :: rest)).registry =
        ((entry id s).reconciled (listed params id first)).reconciled
          (listed params id !first) := by
    intro first
    obtain ⟨t,hrun,hentry⟩ := serial_run hwf hparams first
    constructor
    · rintro ⟨t',hrun',hsame⟩ id
      cases hrun.symm.trans hrun'
      rw [← hentry id,sameOutcome_iff.mp hsame id]
    · intro h
      exact ⟨t,hrun,sameOutcome_iff.mpr fun id => by rw [hentry id,h id]⟩
  simp only [hserial]
  rw [hinOrder,hswapped]
  cases k <;> simp [or_comm]

/-- A registry with one node, and two notifications that lack it. The second one has another. -/
def oneAvailable : List Op := [.start ⟨some "1",some "10.0.0.1",8080,18080,0⟩]
def withoutNode (k : Bool) : ServiceNotify :=
  instances (if k then [("2","10.0.0.2")] else [])

/-- Both handlers have read before either stops the node. -/
theorem overlap_serialisable : ∃ first t,
    (serial withoutNode first).run (registry.after oneAvailable) = .ok () t ∧
    SameOutcome t ((handlers withoutNode (registry.after oneAvailable)).after
      [false,true,false,true,true]).registry := by
  refine (serialisable_iff withoutNode (registry.after oneAvailable) _ (wellFormed_after _)
    (queueAgrees_after (by decide)) (fun k => acceptable_instances _) (by decide)).mpr (.inl ?_)
  exact ⟨inOrder_of_idle (.inl rfl) _,inOrder_read rfl rfl (by decide) (by decide) _,
    inOrder_stop rfl rfl (by decide) _,inOrder_of_idle (.inr (by decide)) _,
    inOrder_of_idle (.inr (by decide)) _,trivial⟩

/-- One node for each handler. -/
def oneEach (k : Bool) : ServiceNotify :=
  instances [if k then ("2","10.0.0.2") else ("1","10.0.0.1")]

/-- When both read before either starts its node, both nodes stay. -/
theorem overlap_not_serialisable :
    let w := (handlers oneEach Registry.empty).after [false,true,false,true]
    w.Finished ∧ w.registry.availableNodes.keys = ["2","1"] ∧
      ¬ ∃ first t, (serial oneEach first).run Registry.empty = .ok () t ∧
        SameOutcome t w.registry := by
  have hkeys : ((handlers oneEach Registry.empty).after
      [false,true,false,true]).registry.availableNodes.keys = ["2","1"] := by decide
  refine ⟨by decide,hkeys,?_⟩
  rintro ⟨first,t,hrun,hsame⟩
  have hone : (Java.finalState ((serial oneEach first).run Registry.empty)).availableNodes.keys =
      [if first then "1" else "2"] := by
    cases first <;> decide
  rw [hrun,Java.finalState_ok] at hone
  have hlost : (if first then "2" else "1") ∈ t.availableNodes := by
    rw [hsame.available,AList.mem_keys,hkeys]
    cases first <;> decide
  rw [AList.mem_keys,hone] at hlost
  cases first <;> exact absurd hlost (by decide)

end ImSingle.Stat
