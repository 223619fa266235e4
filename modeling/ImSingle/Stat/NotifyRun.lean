import ImSingle.Stat.NodeWatchService
import ImSingle.Stat.QueueAgreement

/-! The handler's run on a registry: what its two differences contain, what the loops over them
leave, and where a node without an id ends it. -/
namespace ImSingle.Stat
open Library Registry

/-! ## The new objects -/

section allocation
variable {s : Registry} {node : ConnectNodeLoad} {nodes : List ConnectNodeLoad}

@[simp] theorem allocAll_availableNodes : (allocAll nodes s).availableNodes = s.availableNodes := by
  induction nodes generalizing s with
  | nil => rfl
  | cons node nodes ih => exact (ih (s := alloc node s)).trans rfl

@[simp] theorem allocAll_channelNodeMap : (allocAll nodes s).channelNodeMap = s.channelNodeMap := by
  induction nodes generalizing s with
  | nil => rfl
  | cons node nodes ih => exact (ih (s := alloc node s)).trans rfl

@[simp] theorem allocAll_connectNodeLoads :
    (allocAll nodes s).connectNodeLoads = s.connectNodeLoads := by
  induction nodes generalizing s with
  | nil => rfl
  | cons node nodes ih => exact (ih (s := alloc node s)).trans rfl

@[simp] theorem allocAll_next : (allocAll nodes s).next = s.next + nodes.length := by
  induction nodes generalizing s with
  | nil => rfl
  | cons node nodes ih =>
    rw [List.length_cons,Nat.add_comm nodes.length,← Nat.add_assoc]
    exact ih (s := alloc node s)

theorem allocated_cons :
    allocated (node :: nodes) s = s.next :: allocated nodes (alloc node s) := rfl

theorem allocAll_heap {r : Ref} (h : r < s.next) : (allocAll nodes s).heap r = s.heap r := by
  induction nodes generalizing s with
  | nil => rfl
  | cons node nodes ih =>
    have hold : (alloc node s).heap r = s.heap r := by simp [h.ne]
    rw [← hold]
    exact ih (s := alloc node s) (Nat.lt_succ_of_lt h)

theorem wellFormed_allocAll (h : s.WellFormed) : (allocAll nodes s).WellFormed := by
  induction nodes generalizing s with
  | nil => exact h
  | cons node nodes ih => exact ih (h.alloc node)

theorem queuedWith_allocAll (h : s.WellFormed) (nodes : List ConnectNodeLoad) (id : Option String) :
    (allocAll nodes s).queuedWith id = s.queuedWith id := by
  simp only [queuedWith,allocAll_connectNodeLoads]
  refine List.filter_congr fun e he => ?_
  rw [allocAll_heap (h.queued e he)]

/-- The objects are the nodes, in their order. -/
theorem map_heap_allocated : (allocated nodes s).map (allocAll nodes s).heap = nodes := by
  induction nodes generalizing s with
  | nil => rfl
  | cons node nodes ih =>
    have hfirst : (allocAll nodes (alloc node s)).heap s.next = node := by
      rw [allocAll_heap (Nat.lt_succ_self _)]
      simp
    rw [allocated_cons,List.map_cons]
    exact congrArg₂ _ hfirst (ih (s := alloc node s))

end allocation

/-! ## Loops of stops and starts -/

/-- What `start` leaves of the registry, whether it returns or throws. -/
def started (r : Ref) (s : Registry) : Registry := Java.finalState ((start r).run s)

def stopAll (rs : List Ref) (s : Registry) : Registry :=
  rs.foldl (fun s r => s.step (.stop r)) s

def startAll (rs : List Ref) (s : Registry) : Registry := rs.foldl (fun s r => started r s) s

@[simp] theorem stopAll_cons (r : Ref) (rs : List Ref) (s : Registry) :
    stopAll (r :: rs) s = stopAll rs (s.step (.stop r)) := rfl
@[simp] theorem startAll_cons (r : Ref) (rs : List Ref) (s : Registry) :
    startAll (r :: rs) s = startAll rs (started r s) := rfl

section loops
variable {s : Registry} {r : Ref} {rs : List Ref} {n : String} {id : Option String}

theorem started_eq (h : (s.heap r).id = some n) : started r s = queueAdd r (putNode n r s) := by
  rw [started,start_run h,Java.finalState_ok]

theorem started_null (h : (s.heap r).id = none) : started r s = s := by
  simp [started,start,h]

/-- Neither call touches an object or the channels. -/
theorem step_stop_frame : (s.step (.stop r)).heap = s.heap ∧ (s.step (.stop r)).next = s.next ∧
    (s.step (.stop r)).channelNodeMap = s.channelNodeMap := by
  cases h : (s.heap r).id with
  | none => rw [step_stop_null h]; exact ⟨rfl,rfl,rfl⟩
  | some n => rw [step_stop h]; exact ⟨rfl,rfl,rfl⟩

theorem started_frame : (started r s).heap = s.heap ∧ (started r s).next = s.next ∧
    (started r s).channelNodeMap = s.channelNodeMap := by
  cases h : (s.heap r).id with
  | none => rw [started_null h]; exact ⟨rfl,rfl,rfl⟩
  | some n => rw [started_eq h]; exact ⟨rfl,rfl,rfl⟩

theorem stopAll_frame : (stopAll rs s).heap = s.heap ∧ (stopAll rs s).next = s.next ∧
    (stopAll rs s).channelNodeMap = s.channelNodeMap := by
  induction rs generalizing s with
  | nil => exact ⟨rfl,rfl,rfl⟩
  | cons r rs ih =>
    obtain ⟨hheap,hnext,hchannels⟩ := step_stop_frame (s := s) (r := r)
    obtain ⟨hheap',hnext',hchannels'⟩ := ih (s := s.step (.stop r))
    exact ⟨hheap'.trans hheap,hnext'.trans hnext,hchannels'.trans hchannels⟩

theorem startAll_frame : (startAll rs s).heap = s.heap ∧ (startAll rs s).next = s.next ∧
    (startAll rs s).channelNodeMap = s.channelNodeMap := by
  induction rs generalizing s with
  | nil => exact ⟨rfl,rfl,rfl⟩
  | cons r rs ih =>
    obtain ⟨hheap,hnext,hchannels⟩ := started_frame (s := s) (r := r)
    obtain ⟨hheap',hnext',hchannels'⟩ := ih (s := started r s)
    exact ⟨hheap'.trans hheap,hnext'.trans hnext,hchannels'.trans hchannels⟩

/-- Every call of a loop over nodes with ids returns. -/
lemma stop_returns (h : ∀ r ∈ rs, (s.heap r).id ≠ none) : ∀ r ∈ rs, ∀ t : Registry,
    t.heap = s.heap → (stop r).run t = .ok () (t.step (.stop r)) ∧
      (t.step (.stop r)).heap = s.heap := by
  intro r hr t ht
  obtain ⟨n,hn⟩ := Option.ne_none_iff_exists'.mp (h r hr)
  rw [← ht] at hn
  exact ⟨by rw [stop_run hn,step_stop hn],step_stop_frame.1.trans ht⟩

lemma start_returns (h : ∀ r ∈ rs, (s.heap r).id ≠ none) : ∀ r ∈ rs, ∀ t : Registry,
    t.heap = s.heap → (start r).run t = .ok () (started r t) ∧ (started r t).heap = s.heap := by
  intro r hr t ht
  obtain ⟨n,hn⟩ := Option.ne_none_iff_exists'.mp (h r hr)
  rw [← ht] at hn
  exact ⟨by rw [start_run hn,started_eq hn],started_frame.1.trans ht⟩

theorem forM_stop_run (h : ∀ r ∈ rs, (s.heap r).id ≠ none) :
    (rs.forM stop).run s = .ok () (stopAll rs s) :=
  Java.run_forM_of_returns (stop_returns h) rfl

theorem forM_start_run (h : ∀ r ∈ rs, (s.heap r).id ≠ none) :
    (rs.forM start).run s = .ok () (startAll rs s) :=
  Java.run_forM_of_returns (start_returns h) rfl

/-- The loop ends at the first node without an id. -/
theorem forM_start_throws {after : List Ref} (h : ∀ r ∈ rs, (s.heap r).id ≠ none)
    (hnull : (s.heap r).id = none) :
    ((rs ++ r :: after).forM start).run s = .error .nullPointer (startAll rs s) := by
  refine Java.run_forM_of_throws (start_returns h) rfl fun t ht => ?_
  have hnull : (t.heap r).id = none := by rw [ht,hnull]
  simp [start,hnull]

theorem available_stopAll (h : ∀ r ∈ rs, (s.heap r).id ≠ none) :
    (stopAll rs s).available id =
      if ∃ r ∈ rs, (s.heap r).id = id then none else s.available id := by
  induction rs generalizing s with
  | nil => simp [stopAll]
  | cons r rs ih =>
    obtain ⟨n,hn⟩ := Option.ne_none_iff_exists'.mp (h r (by simp))
    have hheap := (step_stop_frame (s := s) (r := r)).1
    have hrest := ih (s := s.step (.stop r)) (by
      rw [hheap]
      exact fun r hr => h r (by simp [hr]))
    rw [hheap,available_stop hn] at hrest
    rw [stopAll_cons,hrest]
    by_cases hid : some n = id <;> simp [hn,hid]

theorem available_started (h : (s.heap r).id = some n) :
    (started r s).available id = if some n = id then some r else s.available id := by
  rw [started_eq h]
  cases id with
  | none => simp [available]
  | some m =>
    by_cases hm : m = n
    · subst hm; simp [available]
    · simp [available,hm,Ne.symm hm]

/-- The last node started under an id is the available one. -/
theorem available_startAll (h : ∀ r ∈ rs, (s.heap r).id ≠ none) (id : Option String) :
    (∃ r ∈ rs, (s.heap r).id = id ∧ (startAll rs s).available id = some r) ∨
    ((∀ r ∈ rs, (s.heap r).id ≠ id) ∧ (startAll rs s).available id = s.available id) := by
  induction rs generalizing s with
  | nil => exact .inr ⟨by simp,rfl⟩
  | cons r rs ih =>
    obtain ⟨n,hn⟩ := Option.ne_none_iff_exists'.mp (h r (by simp))
    have hheap := (started_frame (s := s) (r := r)).1
    have hrest := ih (s := started r s) (by
      rw [hheap]
      exact fun r hr => h r (by simp [hr]))
    rw [hheap,available_started hn] at hrest
    rcases hrest with ⟨r',hr',hid,havail⟩ | ⟨hnone,havail⟩
    · exact .inl ⟨r',by simp [hr'],hid,havail⟩
    · by_cases hid : some n = id
      · exact .inl ⟨r,by simp,hn.trans hid,by simpa [hid] using havail⟩
      · refine .inr ⟨fun r' hr' => ?_,by simpa [hid] using havail⟩
        rcases List.mem_cons.mp hr' with rfl | hr'
        · rwa [hn]
        · exact hnone r' hr'

/-! ### The queue -/

theorem mem_started (h : (s.heap r).id = some n) {e : Ref} :
    e ∈ (started r s).connectNodeLoads ↔ e = r ∨ e ∈ s.connectNodeLoads := by
  rw [started_eq h]
  exact mem_queueAdd

theorem mem_startAll (h : ∀ r ∈ rs, (s.heap r).id ≠ none) {e : Ref} :
    e ∈ (startAll rs s).connectNodeLoads ↔ e ∈ rs ∨ e ∈ s.connectNodeLoads := by
  induction rs generalizing s with
  | nil => simp [startAll]
  | cons r rs ih =>
    obtain ⟨n,hn⟩ := Option.ne_none_iff_exists'.mp (h r (by simp))
    have hrest := ih (s := started r s) (by
      rw [started_frame.1]
      exact fun r hr => h r (by simp [hr]))
    rw [startAll_cons,hrest,mem_started hn,List.mem_cons]
    tauto

/-- Stops leave the queue's elements with other ids. -/
theorem queuedWith_stopAll (h : ∀ r ∈ rs, (s.heap r).id ≠ none)
    (hid : ∀ r ∈ rs, (s.heap r).id ≠ id) :
    ((stopAll rs s).queuedWith id).Perm (s.queuedWith id) := by
  induction rs generalizing s with
  | nil => exact .refl _
  | cons r rs ih =>
    obtain ⟨n,hn⟩ := Option.ne_none_iff_exists'.mp (h r (by simp))
    have hheap := (step_stop_frame (s := s) (r := r)).1
    have hrest := ih (s := s.step (.stop r))
      (by rw [hheap]; exact fun r hr => h r (by simp [hr]))
      (by rw [hheap]; exact fun r hr => hid r (by simp [hr]))
    have hne : id ≠ some n := fun heq => hid r (by simp) (by rw [hn,heq])
    exact hrest.trans (queuedWith_stop_ne hn hne)

/-! ### Well-formedness -/

theorem wellFormed_started (h : s.WellFormed) (hr : r < s.next) : (started r s).WellFormed := by
  cases hid : (s.heap r).id with
  | none => rwa [started_null hid]
  | some n =>
    rw [started_eq hid]
    refine ⟨fun m r' hr' => ?_,fun e he => ?_⟩
    · by_cases hm : m = n
      · subst hm
        obtain rfl : r = r' := by simpa using hr'
        exact ⟨hid,hr⟩
      · exact h.stored m r' (by simpa [hm] using hr')
    · rcases mem_queueAdd.mp he with rfl | he
      · exact hr
      · exact h.queued e he

theorem wellFormed_stopAll (h : s.WellFormed) : (stopAll rs s).WellFormed := by
  induction rs generalizing s with
  | nil => exact h
  | cons r rs ih => exact ih (h.step (.stop r))

theorem wellFormed_startAll (h : s.WellFormed) (hrs : ∀ r ∈ rs, r < s.next) :
    (startAll rs s).WellFormed := by
  induction rs generalizing s with
  | nil => exact h
  | cons r rs ih =>
    refine ih (wellFormed_started h (hrs r (by simp))) fun e he => ?_
    rw [started_frame.2.1]
    exact hrs e (by simp [he])

end loops

/-! ## The two differences -/

/-- The available nodes that `nodes` do not list. -/
def offline (nodes : List ConnectNodeLoad) (s : Registry) : List Ref :=
  findOffline (allocAll nodes s) (getAvailableList s) (allocated nodes s)

/-- The objects of those `nodes` that are not available. -/
def online (nodes : List ConnectNodeLoad) (s : Registry) : List Ref :=
  findOnline (allocAll nodes s) (getAvailableList s) (allocated nodes s)

/-- The registry once both loops are through. -/
def handled (nodes : List ConnectNodeLoad) (s : Registry) : Registry :=
  startAll (online nodes s) (stopAll (offline nodes s) (allocAll nodes s))

section differences
variable {s : Registry} {nodes : List ConnectNodeLoad} {r : Ref} {n : String} {id : Option String}

theorem mem_removeAll {rs other : List Ref} : r ∈ removeAll s rs other ↔
    r ∈ rs ∧ (s.heap r).id ∉ other.map fun e => (s.heap e).id := by
  simp only [removeAll,List.mem_filter,Bool.not_eq_true',List.any_eq_false,isEqual_iff,
    List.mem_map,not_exists,not_and]
  exact and_congr_right fun _ => forall₂_congr fun e _ => not_congr eq_comm

theorem map_id_allocated :
    (allocated nodes s).map (fun e => ((allocAll nodes s).heap e).id) =
      nodes.map ConnectNodeLoad.id := by
  calc
    (allocated nodes s).map (fun e => ((allocAll nodes s).heap e).id)
      = ((allocated nodes s).map (allocAll nodes s).heap).map ConnectNodeLoad.id :=
        (List.map_map ..).symm
    _ = nodes.map ConnectNodeLoad.id := by rw [map_heap_allocated]

theorem allocAll_id (h : s.WellFormed) (hr : s.availableNodes.lookup n = some r) :
    ((allocAll nodes s).heap r).id = some n := by
  obtain ⟨hid,hlt⟩ := h.stored n r hr
  rw [allocAll_heap hlt,hid]

theorem mem_map_id_available (h : s.WellFormed) :
    id ∈ (getAvailableList s).map (fun e => ((allocAll nodes s).heap e).id) ↔
      s.available id ≠ none := by
  simp only [List.mem_map,mem_getAvailableList]
  constructor
  · rintro ⟨e,⟨m,hm⟩,rfl⟩
    rw [allocAll_id h hm]
    simp [available,hm]
  · intro hid
    obtain ⟨e,he⟩ := Option.ne_none_iff_exists'.mp hid
    obtain ⟨m,rfl,hm⟩ := Option.bind_eq_some_iff.mp he
    exact ⟨e,⟨m,hm⟩,allocAll_id h hm⟩

theorem mem_offline (h : s.WellFormed) : r ∈ offline nodes s ↔
    ∃ m, s.availableNodes.lookup m = some r ∧ some m ∉ nodes.map ConnectNodeLoad.id := by
  rw [offline,findOffline,mem_removeAll,map_id_allocated,mem_getAvailableList]
  constructor
  · rintro ⟨⟨m,hm⟩,hid⟩
    rw [allocAll_id h hm] at hid
    exact ⟨m,hm,hid⟩
  · rintro ⟨m,hm,hid⟩
    rw [allocAll_id h hm]
    exact ⟨⟨m,hm⟩,hid⟩

theorem mem_online (h : s.WellFormed) : r ∈ online nodes s ↔
    r ∈ allocated nodes s ∧ s.available ((allocAll nodes s).heap r).id = none := by
  rw [online,findOnline,mem_removeAll,mem_map_id_available h,not_not]

theorem exists_allocated (h : id ∈ nodes.map ConnectNodeLoad.id) :
    ∃ e ∈ allocated nodes s, ((allocAll nodes s).heap e).id = id := by
  rwa [← map_id_allocated (s := s),List.mem_map] at h

theorem heap_allocated (h : r ∈ allocated nodes s) : (allocAll nodes s).heap r ∈ nodes := by
  have hmem := List.mem_map_of_mem (f := (allocAll nodes s).heap) h
  rwa [map_heap_allocated] at hmem

theorem lt_next_of_mem_online (hr : r ∈ online nodes s) : r < (allocAll nodes s).next := by
  have hmem := (List.mem_filter.mp hr).1
  rw [allocated,List.mem_range'_1] at hmem
  rw [allocAll_next]
  exact hmem.2

theorem handled_frame : (handled nodes s).heap = (allocAll nodes s).heap ∧
    (handled nodes s).channelNodeMap = s.channelNodeMap := by
  rw [handled,startAll_frame.1,startAll_frame.2.2,stopAll_frame.1,stopAll_frame.2.2,
    allocAll_channelNodeMap]
  exact ⟨rfl,rfl⟩

theorem offline_ids (h : s.WellFormed) : ∀ r ∈ offline nodes s,
    ((allocAll nodes s).heap r).id ≠ none := by
  intro r hr
  obtain ⟨m,hm,_⟩ := (mem_offline h).mp hr
  rw [allocAll_id h hm]
  exact Option.some_ne_none m

theorem online_ids (hids : none ∉ nodes.map ConnectNodeLoad.id) : ∀ r ∈ online nodes s,
    ((stopAll (offline nodes s) (allocAll nodes s)).heap r).id ≠ none := by
  intro r hr hnull
  rw [stopAll_frame.1] at hnull
  have hmem := (List.mem_filter.mp hr).1
  exact hids (List.mem_map.mpr ⟨_,heap_allocated hmem,hnull⟩)

theorem available_stopped (h : s.WellFormed) :
    (stopAll (offline nodes s) (allocAll nodes s)).available id =
      if id ∈ nodes.map ConnectNodeLoad.id then s.available id else none := by
  have hsame : (allocAll nodes s).available id = s.available id := by simp [available]
  rw [available_stopAll (offline_ids h),hsame]
  by_cases hid : id ∈ nodes.map ConnectNodeLoad.id
  · rw [if_pos hid,if_neg]
    rintro ⟨r,hr,rfl⟩
    obtain ⟨m,hm,hnot⟩ := (mem_offline h).mp hr
    rw [allocAll_id h hm] at hid
    exact hnot hid
  · rw [if_neg hid,ite_eq_left_iff]
    intro hnone
    by_contra havail
    obtain ⟨r,hr⟩ := Option.ne_none_iff_exists'.mp havail
    obtain ⟨m,rfl,hm⟩ := Option.bind_eq_some_iff.mp hr
    exact hnone ⟨r,(mem_offline h).mpr ⟨m,hm,hid⟩,allocAll_id h hm⟩

/-- Under a listed id stays what was there, or comes one of the new objects. -/
theorem available_handled (h : s.WellFormed) (hids : none ∉ nodes.map ConnectNodeLoad.id)
    (hid : id ∈ nodes.map ConnectNodeLoad.id) :
    (∃ r, s.available id = some r ∧ (handled nodes s).available id = some r) ∨
    ∃ r ∈ allocated nodes s, s.available id = none ∧ ((allocAll nodes s).heap r).id = id ∧
      (handled nodes s).available id = some r := by
  have hstart := available_startAll (online_ids (s := s) hids) id
  rw [available_stopped h,if_pos hid,stopAll_frame.1] at hstart
  cases hold : s.available id with
  | some r =>
    rcases hstart with ⟨r',hr',hid',_⟩ | ⟨_,havail⟩
    · have hnone := ((mem_online h).mp hr').2
      rw [hid',hold] at hnone
      cases hnone
    · exact .inl ⟨r,rfl,havail.trans hold⟩
  | none =>
    rcases hstart with ⟨r',hr',hid',havail⟩ | ⟨hnone,_⟩
    · exact .inr ⟨r',((mem_online h).mp hr').1,rfl,hid',havail⟩
    · obtain ⟨e,he,hide⟩ := exists_allocated (s := s) hid
      exact absurd hide (hnone e ((mem_online h).mpr ⟨he,by rw [hide,hold]⟩))

theorem available_handled_none (h : s.WellFormed) (hids : none ∉ nodes.map ConnectNodeLoad.id)
    (hid : id ∉ nodes.map ConnectNodeLoad.id) : (handled nodes s).available id = none := by
  rcases available_startAll (online_ids (s := s) hids) id with
    ⟨r,hr,hid',_⟩ | ⟨_,havail⟩
  · rw [stopAll_frame.1] at hid'
    have hmem := heap_allocated ((mem_online h).mp hr).1
    exact absurd (List.mem_map.mpr ⟨_,hmem,hid'⟩) hid
  · exact havail.trans (by rw [available_stopped h,if_neg hid])

/-! ### How often an id is in them -/

theorem nodup_ids_available (h : s.WellFormed) :
    ((getAvailableList s).map fun r => (s.heap r).id).Nodup := by
  have hkeys : (getAvailableList s).map (fun r => (s.heap r).id) =
      s.availableNodes.keys.map some := JavaMap.map_values fun n r hr => (h.stored n r hr).1
  rw [hkeys]
  exact s.availableNodes.keys_nodup.map (Option.some_injective _)

theorem mem_ids_offline (h : s.WellFormed) :
    id ∈ (offline nodes s).map (fun r => ((allocAll nodes s).heap r).id) ↔
      s.available id ≠ none ∧ id ∉ nodes.map ConnectNodeLoad.id := by
  rw [List.mem_map]
  constructor
  · rintro ⟨r,hr,rfl⟩
    obtain ⟨m,hm,hnot⟩ := (mem_offline h).mp hr
    rw [allocAll_id h hm]
    exact ⟨by simp [available,hm],hnot⟩
  · rintro ⟨havail,hnot⟩
    obtain ⟨r,hr⟩ := Option.ne_none_iff_exists'.mp havail
    obtain ⟨m,rfl,hm⟩ := Option.bind_eq_some_iff.mp hr
    exact ⟨r,(mem_offline h).mpr ⟨m,hm,hnot⟩,allocAll_id h hm⟩

theorem nodup_ids_offline (h : s.WellFormed) :
    ((offline nodes s).map fun r => ((allocAll nodes s).heap r).id).Nodup := by
  have hsame : (offline nodes s).map (fun r => ((allocAll nodes s).heap r).id) =
      (offline nodes s).map fun r => (s.heap r).id := by
    refine List.map_congr_left fun r hr => ?_
    obtain ⟨m,hm,_⟩ := (mem_offline h).mp hr
    rw [allocAll_heap (h.stored m r hm).2]
  rw [hsame]
  exact (nodup_ids_available h).sublist (List.filter_sublist.map _)

theorem count_ids_online (h : s.WellFormed) :
    ((online nodes s).map fun r => ((allocAll nodes s).heap r).id).count id =
      if s.available id = none then (nodes.map ConnectNodeLoad.id).count id else 0 := by
  split
  · next hnone =>
    rw [← map_id_allocated (s := s),List.count_eq_countP,List.count_eq_countP,List.countP_map,
      List.countP_map,online,findOnline,removeAll,List.countP_filter]
    refine List.countP_congr fun r hr => ?_
    rw [Bool.and_eq_true,and_iff_left_of_imp]
    intro hid
    have hid : ((allocAll nodes s).heap r).id = id := by simpa using hid
    have honline : r ∈ online nodes s := (mem_online h).mpr ⟨hr,by rw [hid,hnone]⟩
    exact (List.mem_filter.mp honline).2
  · next havail =>
    refine List.count_eq_zero.mpr fun hid => ?_
    obtain ⟨r,hr,rfl⟩ := List.mem_map.mp hid
    exact havail ((mem_online h).mp hr).2

theorem wellFormed_handled (h : s.WellFormed) (nodes : List ConnectNodeLoad) :
    (handled nodes s).WellFormed := by
  refine wellFormed_startAll (wellFormed_stopAll (wellFormed_allocAll h)) fun r hr => ?_
  rw [stopAll_frame.2.1]
  exact lt_next_of_mem_online hr

end differences

/-! ## The handler -/

section handler
variable {s : Registry} {param : ServiceNotify} {nodes : List ConnectNodeLoad}

theorem handlerServiceNotify_unresolved {e : Exn} (h : resolveServiceNotify param = .error e) :
    (handlerServiceNotify param).run s = .error e s := by
  simp [handlerServiceNotify,h]

theorem handlerServiceNotify_resolved (h : resolveServiceNotify param = .ok nodes) :
    (handlerServiceNotify param).run s =
      ((offline nodes s).forM stop >>= fun _ => (online nodes s).forM start).run
        (allocAll nodes s) := by
  simp only [handlerServiceNotify,h]
  rfl

theorem handlerServiceNotify_loops (hwf : s.WellFormed)
    (h : resolveServiceNotify param = .ok nodes) : (handlerServiceNotify param).run s =
      ((online nodes s).forM start).run (stopAll (offline nodes s) (allocAll nodes s)) := by
  rw [handlerServiceNotify_resolved h,EStateM.run_bind,forM_stop_run (offline_ids hwf)]

theorem handlerServiceNotify_run (hwf : s.WellFormed) (h : resolveServiceNotify param = .ok nodes)
    (hids : none ∉ nodes.map ConnectNodeLoad.id) :
    (handlerServiceNotify param).run s = .ok () (handled nodes s) := by
  rw [handlerServiceNotify_loops hwf h,forM_start_run (online_ids hids)]
  rfl

lemma exists_first_none {rs : List Ref} {f : Ref → Option String} (h : none ∈ rs.map f) :
    ∃ before r after, rs = before ++ r :: after ∧ f r = none ∧ (∀ e ∈ before, f e ≠ none) ∧
      (rs.map f).takeWhile Option.isSome = before.map f := by
  induction rs with
  | nil => simp at h
  | cons e rs ih =>
    cases he : f e with
    | none => exact ⟨[],e,rs,rfl,he,by simp,by simp [he]⟩
    | some n =>
      obtain ⟨before,r,after,rfl,hr,hbefore,htake⟩ := ih (by simpa [he] using h)
      refine ⟨e :: before,r,after,rfl,hr,?_,?_⟩
      · simpa [he] using hbefore
      · rw [List.map_cons,List.takeWhile_cons_of_pos (by simp [he]),htake,List.map_cons]

/-- Every node without an id is new, so the first one splits the nodes to start. -/
theorem online_split (hwf : s.WellFormed) (hids : none ∈ nodes.map ConnectNodeLoad.id) :
    ∃ before r after, online nodes s = before ++ r :: after ∧
      ((allocAll nodes s).heap r).id = none ∧
      (∀ e ∈ before, ((allocAll nodes s).heap e).id ≠ none) ∧
      (before = [] ↔ ∀ id ∈ (nodes.map ConnectNodeLoad.id).takeWhile Option.isSome,
        s.available id ≠ none) := by
  rw [← map_id_allocated (s := s)] at hids ⊢
  obtain ⟨before,r,after,hsplit,hnull,hbefore,htake⟩ := exists_first_none hids
  have hr : r ∈ online nodes s := by
    refine (mem_online hwf).mpr ⟨by simp [hsplit],?_⟩
    rw [hnull]
    rfl
  let fresh (rs : List Ref) : List Ref := removeAll (allocAll nodes s) rs (getAvailableList s)
  have hfresh : ∀ rs e, e ∈ fresh rs ↔
      e ∈ rs ∧ s.available ((allocAll nodes s).heap e).id = none := by
    intro rs e
    rw [mem_removeAll,mem_map_id_available hwf,not_not]
  have honline : online nodes s = fresh before ++ r :: fresh after := by
    have hone : fresh [r] = [r] := List.filter_cons_of_pos (List.mem_filter.mp hr).2
    change fresh (allocated nodes s) = _
    rw [hsplit]
    calc
      fresh (before ++ r :: after) = fresh before ++ fresh (r :: after) := List.filter_append ..
      _ = fresh before ++ (fresh [r] ++ fresh after) :=
          congrArg _ (List.filter_append [r] after)
      _ = fresh before ++ r :: fresh after := by rw [hone]; rfl
  refine ⟨fresh before,r,fresh after,honline,hnull,fun e he => ?_,?_⟩
  · exact hbefore e ((hfresh before e).mp he).1
  · rw [htake,List.eq_nil_iff_forall_not_mem]
    simp only [hfresh,List.mem_map]
    constructor
    · rintro hnil id ⟨e,he,rfl⟩ hnone
      exact hnil e ⟨he,hnone⟩
    · rintro hall e ⟨he,hnone⟩
      exact hall _ ⟨e,he,rfl⟩ hnone

/-- The starts end at the first node without an id. -/
theorem handlerServiceNotify_throws (hwf : s.WellFormed)
    (h : resolveServiceNotify param = .ok nodes) (hids : none ∈ nodes.map ConnectNodeLoad.id) :
    ∃ before, (handlerServiceNotify param).run s = .error .nullPointer
        (startAll before (stopAll (offline nodes s) (allocAll nodes s))) ∧
      (∀ r ∈ before, r ∈ online nodes s ∧ ((allocAll nodes s).heap r).id ≠ none) ∧
      (before = [] ↔ ∀ id ∈ (nodes.map ConnectNodeLoad.id).takeWhile Option.isSome,
        s.available id ≠ none) := by
  obtain ⟨before,r,after,honline,hnull,hbefore,hnil⟩ := online_split hwf hids
  refine ⟨before,?_,fun e he => ⟨by simp [honline,he],hbefore e he⟩,hnil⟩
  rw [handlerServiceNotify_loops hwf h,honline]
  apply forM_start_throws <;> rw [stopAll_frame.1]
  · exact hbefore
  · exact hnull

end handler
end ImSingle.Stat
