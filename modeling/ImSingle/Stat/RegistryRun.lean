import ImSingle.Stat.ConnectNodeLoadService

/-! Runs of the registry: every order of starts, stops, connects and disconnects. A call that
throws is a step too, which leaves what it changed before it threw. -/
namespace ImSingle.Stat
open Library Registry

/-- One call of the service. `start` passes a node built for the call, as every caller does;
`stop` passes any object there is. -/
inductive Op
  | start (node : ConnectNodeLoad)
  | stop (connectNodeLoad : Ref)
  | connect (nodeId channelId userId : String)
  | disconnect (nodeId channelId userId : String)
  deriving DecidableEq, Repr

def Op.call : Op → Java Registry Unit
  | .start node => do
    let connectNodeLoad := (← get).next
    modify (alloc node)
    Stat.start connectNodeLoad
  | .stop connectNodeLoad => Stat.stop connectNodeLoad
  | .connect nodeId channelId userId => Stat.connect nodeId channelId userId
  | .disconnect nodeId channelId userId => Stat.disconnect nodeId channelId userId

def Registry.step (s : Registry) (op : Op) : Registry := Java.finalState (op.call.run s)

/-- The registry from `new ConnectNodeLoadServiceImpl()` on. -/
def registry : Machine Registry Op := ⟨Registry.empty,Registry.step⟩

/-! ## What one step does -/

section step
variable {s : Registry} {node : ConnectNodeLoad} {r : Ref} {n c u : String}

theorem step_start (h : node.id = some n) : s.step (.start node) =
    queueAdd s.next (putNode n s.next (alloc node s)) := by
  simp [Registry.step,Op.call,start_run (s := alloc node s) (r := s.next) (n := n) (by simp [h])]

theorem step_start_null (h : node.id = none) : s.step (.start node) = alloc node s := by
  simp [Registry.step,Op.call,start,h]

theorem step_stop (h : (s.heap r).id = some n) : s.step (.stop r) =
    queueRemove r (removeNode n s) := by
  simp [Registry.step,Op.call,stop_run h]

theorem step_stop_null (h : (s.heap r).id = none) : s.step (.stop r) = s := by
  simp [Registry.step,Op.call,stop,h]

theorem step_connect (h : s.availableNodes.lookup n = some r) : s.step (.connect n c u) =
    queueAdd r (queueRemove r (setLoad r ((s.heap r).load + 1)
      (putChannel c (s.nodeIds c ++ [(s.heap r).id]) s))) := by
  simp [Registry.step,Op.call,connect_run u h]

theorem step_connect_unknown (h : s.availableNodes.lookup n = none) :
    s.step (.connect n c u) = s := by
  simp [Registry.step,Op.call,connect_run_unknown u h]

theorem step_disconnect (h : s.availableNodes.lookup n = some r) : s.step (.disconnect n c u) =
    queueAdd r (setLoad r ((s.heap r).load - 1) (dropFromChannel c (s.heap r).id s)) := by
  simp [Registry.step,Op.call,disconnect_run u h]

theorem step_disconnect_unknown (h : s.availableNodes.lookup n = none) :
    s.step (.disconnect n c u) = s := by
  simp [Registry.step,Op.call,disconnect_run_unknown u h]

end step

/-! ## Guards of the runs -/

/-- `start` is called for an id that is not available. -/
def StartsFresh (s : Registry) : Op → Prop
  | .start node => ∃ n ∈ node.id, s.availableNodes.lookup n = none
  | _ => True

/-- `start` is called with a node whose load is 0. -/
def StartsUnloaded : Op → Prop
  | .start node => node.load = 0
  | _ => True

/-- `start` is called with a node that has an id. -/
def StartsNamed : Op → Prop
  | .start node => node.id ≠ none
  | _ => True

/-- `stop` is passed an object out of the available list. -/
def StopsAvailable (s : Registry) : Op → Prop
  | .stop r => r ∈ getAvailableList s
  | _ => True

/-- `connect` and `disconnect` name an available node. -/
def OnAvailable (s : Registry) : Op → Prop
  | .connect n _ _ => n ∈ s.availableNodes
  | .disconnect n _ _ => n ∈ s.availableNodes
  | _ => True

/-- The users of the `connect` calls for a node and a channel that no later `disconnect` of the
same user has answered. -/
def openConnects (n c : String) (past : List Op) : List String :=
  past.foldl (fun users op =>
    match op with
    | .connect n' c' u => if n' = n ∧ c' = c then u :: users else users
    | .disconnect n' c' u => if n' = n ∧ c' = c then users.erase u else users
    | _ => users) []

/-- `disconnect` follows a matching `connect` that no other `disconnect` has answered. -/
def Matched (past : List Op) : Op → Prop
  | .disconnect n c u => u ∈ openConnects n c past
  | _ => True

def IsConnect : Op → Bool
  | .connect _ _ _ => true
  | _ => false

def IsDisconnect : Op → Bool
  | .disconnect _ _ _ => true
  | _ => false

instance (s : Registry) : DecidablePred (StartsFresh s) := fun op =>
  match op with
  | .start ⟨some n,_,_,_,_⟩ => decidable_of_iff (s.availableNodes.lookup n = none) (by
      simp [StartsFresh])
  | .start ⟨none,_,_,_,_⟩ => .isFalse (by simp [StartsFresh])
  | .stop _ | .connect _ _ _ | .disconnect _ _ _ => .isTrue trivial
instance : DecidablePred StartsUnloaded := fun op => by
  cases op <;> unfold StartsUnloaded <;> infer_instance
instance : DecidablePred StartsNamed := fun op => by
  cases op <;> unfold StartsNamed <;> infer_instance
instance (s : Registry) : DecidablePred (StopsAvailable s) := fun op => by
  cases op <;> unfold StopsAvailable <;> infer_instance
instance (s : Registry) : DecidablePred (OnAvailable s) := fun op => by
  cases op <;> unfold OnAvailable <;> infer_instance
instance (past : List Op) : DecidablePred (Matched past) := fun op => by
  cases op <;> unfold Matched <;> infer_instance

/-! ## Objects and the queue by id -/

namespace Registry
variable (s : Registry)

/-- The object available under an id. -/
def available (id : Option String) : Option Ref := id.bind s.availableNodes.lookup

/-- The queue's elements with an id. -/
def queuedWith (id : Option String) : List Ref :=
  s.connectNodeLoads.filter fun r => (s.heap r).id = id

/-- A node is stored under its own id, and only allocated objects are stored or queued. -/
structure WellFormed : Prop where
  stored : ∀ n r, s.availableNodes.lookup n = some r → (s.heap r).id = some n ∧ r < s.next
  queued : ∀ r ∈ s.connectNodeLoads, r < s.next

variable {s} {r : Ref}

theorem isEqual_iff (e : Ref) : s.isEqual r e = true ↔ (s.heap r).id = (s.heap e).id := by
  simp [isEqual,ConnectNodeLoad.equals]

theorem queueAdd_perm : (queueAdd r s).connectNodeLoads.Perm (r :: s.connectNodeLoads) :=
  PriorityQueue.add_perm _ _ _

theorem mem_queueAdd {e : Ref} :
    e ∈ (queueAdd r s).connectNodeLoads ↔ e = r ∨ e ∈ s.connectNodeLoads := by
  rw [queueAdd_perm.mem_iff,List.mem_cons]

/-- `remove(Object)` takes out one element with the argument's id, if there is one. -/
theorem queueRemove_cases :
    ((queueRemove r s).connectNodeLoads = s.connectNodeLoads ∧
      s.queuedWith (s.heap r).id = []) ∨
    ∃ e, (s.heap e).id = (s.heap r).id ∧
      (e :: (queueRemove r s).connectNodeLoads).Perm s.connectNodeLoads := by
  rcases PriorityQueue.remove_cases s.compare (s.isEqual r) s.connectNodeLoads with
    ⟨hsame,hnone⟩ | ⟨i,hi,heq,_,hperm⟩
  · left
    refine ⟨hsame,?_⟩
    simp only [queuedWith,List.filter_eq_nil_iff,decide_eq_true_eq]
    intro e he hid
    have := hnone e he
    rw [(isEqual_iff e).mpr hid.symm] at this
    contradiction
  · exact .inr ⟨_,((isEqual_iff _).mp heq).symm,hperm⟩

theorem mem_of_mem_queueRemove {e : Ref} (h : e ∈ (queueRemove r s).connectNodeLoads) :
    e ∈ s.connectNodeLoads := by
  rcases queueRemove_cases (s := s) (r := r) with ⟨hsame,_⟩ | ⟨e',_,hperm⟩
  · rwa [hsame] at h
  · exact hperm.mem_iff.mp (List.mem_cons_of_mem _ h)

theorem queuedWith_congr {t : Registry} (hheap : ∀ e, (t.heap e).id = (s.heap e).id)
    (hqueue : t.connectNodeLoads = s.connectNodeLoads) (id : Option String) :
    t.queuedWith id = s.queuedWith id := by
  simp only [queuedWith,hheap,hqueue]

@[simp] theorem queuedWith_putNode (n : String) (id : Option String) :
    (putNode n r s).queuedWith id = s.queuedWith id := rfl
@[simp] theorem queuedWith_removeNode (n : String) (id : Option String) :
    (removeNode n s).queuedWith id = s.queuedWith id := rfl

theorem queuedWith_queueAdd (id : Option String) : ((queueAdd r s).queuedWith id).Perm
    (if (s.heap r).id = id then r :: s.queuedWith id else s.queuedWith id) := by
  have h := (queueAdd_perm (s := s) (r := r)).filter fun e => (s.heap e).id = id
  simpa [queuedWith,List.filter_cons] using h

theorem queuedWith_queueRemove_ne {id : Option String} (hid : id ≠ (s.heap r).id) :
    ((queueRemove r s).queuedWith id).Perm (s.queuedWith id) := by
  rcases queueRemove_cases (s := s) (r := r) with ⟨hsame,_⟩ | ⟨e,he,hperm⟩
  · simp only [queuedWith,queueRemove_heap,hsame]
    exact .refl _
  · have h := hperm.filter fun e => (s.heap e).id = id
    rwa [List.filter_cons_of_neg (by simp [he,hid.symm])] at h

theorem queuedWith_queueRemove : (s.queuedWith (s.heap r).id = [] ∧
      (queueRemove r s).queuedWith (s.heap r).id = []) ∨
    ∃ e, (e :: (queueRemove r s).queuedWith (s.heap r).id).Perm (s.queuedWith (s.heap r).id) := by
  rcases queueRemove_cases (s := s) (r := r) with ⟨hsame,hnil⟩ | ⟨e,he,hperm⟩
  · refine .inl ⟨hnil,?_⟩
    rw [← hnil]
    simp only [queuedWith,hsame,queueRemove_heap]
  · have h := hperm.filter fun e' => (s.heap e').id = (s.heap r).id
    rw [List.filter_cons_of_pos (by simp [he])] at h
    exact .inr ⟨e,h⟩

theorem mem_getAvailableList : r ∈ getAvailableList s ↔
    ∃ n, s.availableNodes.lookup n = some r := JavaMap.mem_values

theorem exists_object {n : String} (h : n ∈ s.availableNodes) :
    ∃ r, s.availableNodes.lookup n = some r :=
  Option.isSome_iff_exists.mp (AList.lookup_isSome.mpr h)

end Registry

namespace Registry

theorem wellFormed_empty : WellFormed Registry.empty :=
  ⟨by simp [Registry.empty], by simp [Registry.empty]⟩

theorem WellFormed.alloc {s : Registry} (h : s.WellFormed) (node : ConnectNodeLoad) :
    (alloc node s).WellFormed := by
  refine ⟨fun n r hr => ?_, fun r hr => Nat.lt_succ_of_lt (h.queued r hr)⟩
  obtain ⟨hn,hlt⟩ := h.stored n r hr
  exact ⟨by simpa [Nat.ne_of_lt hlt] using hn, Nat.lt_succ_of_lt hlt⟩

theorem WellFormed.start {s : Registry} (h : s.WellFormed) {node : ConnectNodeLoad} {n : String}
    (hid : node.id = some n) : (s.step (.start node)).WellFormed := by
  rw [step_start hid]
  have hnext : s.next < s.next + 1 := Nat.lt_succ_self _
  refine ⟨fun m r hr => ?_, fun r hr => ?_⟩
  · by_cases hm : m = n
    · subst hm
      obtain rfl : s.next = r := by simpa using hr
      exact ⟨by simpa using hid, hnext⟩
    · exact (h.alloc node).stored m r (by simpa [hm] using hr)
  · rcases mem_queueAdd.mp hr with rfl | hr
    · exact hnext
    · exact (h.alloc node).queued r hr

theorem WellFormed.step {s : Registry} (h : s.WellFormed) (op : Op) :
    (s.step op).WellFormed := by
  cases op with
  | start node =>
    cases hid : node.id with
    | none => rw [step_start_null hid]; exact h.alloc node
    | some n => exact h.start hid
  | stop r =>
    cases hid : (s.heap r).id with
    | none => rwa [step_stop_null hid]
    | some n =>
      rw [step_stop hid]
      refine ⟨fun m r' hr => ?_, fun e he => h.queued e ?_⟩
      · by_cases hm : m = n
        · subst hm; simp at hr
        · exact h.stored m r' (by simpa [hm] using hr)
      · simpa using mem_of_mem_queueRemove he
  | connect n c u =>
    cases hr : s.availableNodes.lookup n with
    | none => rwa [step_connect_unknown hr]
    | some r =>
      rw [step_connect hr]
      refine ⟨fun m r' hr' => by simpa using h.stored m r' hr', fun e he => ?_⟩
      rcases mem_queueAdd.mp he with rfl | he
      · exact (h.stored n e hr).2
      · exact h.queued e (by simpa using mem_of_mem_queueRemove he)
  | disconnect n c u =>
    cases hr : s.availableNodes.lookup n with
    | none => rwa [step_disconnect_unknown hr]
    | some r =>
      rw [step_disconnect hr]
      refine ⟨fun m r' hr' => ?_, fun e he => ?_⟩
      · simpa using h.stored m r' (by simpa using hr')
      · rcases mem_queueAdd.mp he with rfl | he
        · simpa using (h.stored n e hr).2
        · simpa using h.queued e (by simpa using he)

end Registry

/-- In every run, whatever its calls. -/
theorem wellFormed_after (ops : List Op) : (registry.after ops).WellFormed := by
  have hall : registry.Meets (fun _ _ _ => True) ops :=
    Machine.meets_of_forall fun _ _ _ => trivial
  exact Machine.invariant (P := fun _ s => s.WellFormed) wellFormed_empty
    (fun _ a _ h _ => h.step a) hall

end ImSingle.Stat
