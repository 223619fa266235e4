import ImSingle.Stat.RegistryRun

/-! The priority queue against the map of available nodes. `disconnect` adds a node to the
queue without taking it out first, so the queue holds each node once for being available and
once more for every `disconnect` there has been. -/
namespace ImSingle.Stat
open Library Registry

/-- The runs in which the service's callers keep to their side: fresh starts, stops of
available nodes, connects and disconnects on available nodes, every disconnect matched. -/
def CallerGuard (past : List Op) (s : Registry) (op : Op) : Prop :=
  StartsFresh s op ∧ StopsAvailable s op ∧ OnAvailable s op ∧ Matched past op

instance (past : List Op) (s : Registry) : DecidablePred (CallerGuard past s) := fun _ =>
  inferInstanceAs (Decidable (_ ∧ _ ∧ _ ∧ _))

/-- For each id the queue holds exactly the object stored in the map, and nothing for an id
that is not available. -/
def QueueAgrees (s : Registry) : Prop := ∀ id, s.queuedWith id = (s.available id).toList

/-- `getBestNode` offers available nodes only, and no node twice. -/
def BestNodesAvailable (s : Registry) : Prop := ∀ channelId,
  (∀ r ∈ getBestNode s channelId, r ∈ getAvailableList s) ∧
  ((getBestNode s channelId).map fun r => (s.heap r).id).Nodup

/-- A `disconnect` of node `n`. -/
def DisconnectsNode (n : String) : Op → Bool
  | .disconnect n' _ _ => n' = n
  | _ => false

/-! ## The queue's elements with one id, after each call -/

section steps
variable {s : Registry} {node : ConnectNodeLoad} {r : Ref} {n c u : String} {id : Option String}

lemma queuedWith_alloc (node : ConnectNodeLoad) (id : Option String) (h : s.WellFormed) :
    (alloc node s).queuedWith id = s.queuedWith id := by
  apply List.filter_congr
  intro r hr
  have hne : r ≠ s.next := Nat.ne_of_lt (h.queued r hr)
  simp [hne]

theorem queuedWith_start (h : s.WellFormed) (hid : node.id = some n) (id : Option String) :
    ((s.step (.start node)).queuedWith id).Perm
      (if some n = id then s.next :: s.queuedWith id else s.queuedWith id) := by
  rw [step_start hid,← queuedWith_alloc node id h]
  have hadd := queuedWith_queueAdd (s := putNode n s.next (alloc node s)) (r := s.next) id
  simpa [hid] using hadd

theorem queuedWith_stop_ne (hid : (s.heap r).id = some n) (hne : id ≠ some n) :
    ((s.step (.stop r)).queuedWith id).Perm (s.queuedWith id) := by
  rw [step_stop hid]
  exact queuedWith_queueRemove_ne (s := removeNode n s) (by simpa [hid] using hne)

theorem queuedWith_stop (hid : (s.heap r).id = some n) :
    (s.queuedWith (some n) = [] ∧ (s.step (.stop r)).queuedWith (some n) = []) ∨
    ∃ e, (e :: (s.step (.stop r)).queuedWith (some n)).Perm (s.queuedWith (some n)) := by
  have hrem := queuedWith_queueRemove (s := removeNode n s) (r := r)
  rw [removeNode_heap,hid,queuedWith_removeNode] at hrem
  rwa [step_stop hid]

/-- The registry between `connect`'s load change and its two queue calls. -/
def loaded (r : Ref) (c : String) (s : Registry) : Registry :=
  setLoad r ((s.heap r).load + 1) (putChannel c (s.nodeIds c ++ [(s.heap r).id]) s)

lemma loaded_id (r' : Ref) : ((loaded r c s).heap r').id = (s.heap r').id := by simp [loaded]

lemma queuedWith_loaded : (loaded r c s).queuedWith id = s.queuedWith id :=
  queuedWith_congr loaded_id rfl id

theorem queuedWith_connect_ne (h : s.WellFormed) (hr : s.availableNodes.lookup n = some r)
    (hne : id ≠ some n) : ((s.step (.connect n c u)).queuedWith id).Perm (s.queuedWith id) := by
  have hid := (h.stored n r hr).1
  rw [step_connect hr]
  have hadd := queuedWith_queueAdd (s := queueRemove r (loaded r c s)) (r := r) id
  rw [queueRemove_heap,loaded_id,hid,if_neg hne.symm] at hadd
  have hrem := queuedWith_queueRemove_ne (s := loaded r c s) (r := r)
    (show id ≠ _ by simpa [loaded_id,hid] using hne)
  rw [queuedWith_loaded] at hrem
  exact hadd.trans hrem

theorem queuedWith_connect (h : s.WellFormed) (hr : s.availableNodes.lookup n = some r) :
    (s.queuedWith (some n) = [] ∧ (s.step (.connect n c u)).queuedWith (some n) = [r]) ∨
    ∃ e, (e :: (s.step (.connect n c u)).queuedWith (some n)).Perm
      (r :: s.queuedWith (some n)) := by
  have hid := (h.stored n r hr).1
  rw [step_connect hr]
  have hadd := queuedWith_queueAdd (s := queueRemove r (loaded r c s)) (r := r) (some n)
  rw [queueRemove_heap,loaded_id,hid,if_pos rfl] at hadd
  have hrem := queuedWith_queueRemove (s := loaded r c s) (r := r)
  rw [loaded_id,hid,queuedWith_loaded] at hrem
  rcases hrem with ⟨hnil,hnil'⟩ | ⟨e,hperm⟩
  · exact .inl ⟨hnil, List.perm_singleton.mp (by rwa [hnil'] at hadd)⟩
  · exact .inr ⟨e,((hadd.cons e).trans (.swap _ _ _)).trans (hperm.cons r)⟩

theorem queuedWith_disconnect (h : s.WellFormed) (hr : s.availableNodes.lookup n = some r) :
    ((s.step (.disconnect n c u)).queuedWith id).Perm
      (if some n = id then r :: s.queuedWith id else s.queuedWith id) := by
  have hid := (h.stored n r hr).1
  rw [step_disconnect hr]
  have hadd := queuedWith_queueAdd (r := r)
    (s := setLoad r ((s.heap r).load - 1) (dropFromChannel c (s.heap r).id s)) id
  simpa [hid,queuedWith] using hadd

end steps

/-! ## How many elements an id has -/

section available
variable {s : Registry} {node : ConnectNodeLoad} {r : Ref} {n c u : String} {id : Option String}

theorem available_start (hid : node.id = some n) : (s.step (.start node)).available id =
    if some n = id then some s.next else s.available id := by
  rw [step_start hid]
  cases id with
  | none => simp [available]
  | some m =>
    by_cases hm : m = n
    · subst hm; simp [available]
    · simp [available,hm,Ne.symm hm]

theorem available_stop (hid : (s.heap r).id = some n) : (s.step (.stop r)).available id =
    if some n = id then none else s.available id := by
  rw [step_stop hid]
  cases id with
  | none => simp [available]
  | some m =>
    by_cases hm : m = n
    · subst hm; simp [available]
    · simp [available,hm,Ne.symm hm]

theorem available_connect : (s.step (.connect n c u)).available id = s.available id := by
  cases hr : s.availableNodes.lookup n with
  | none => rw [step_connect_unknown hr]
  | some r => rw [step_connect hr]; simp [available]

theorem available_disconnect : (s.step (.disconnect n c u)).available id = s.available id := by
  cases hr : s.availableNodes.lookup n with
  | none => rw [step_disconnect_unknown hr]
  | some r => rw [step_disconnect hr]; simp [available]

lemma stopped_id (h : s.WellFormed) (hstop : StopsAvailable s (.stop r)) :
    ∃ n, s.availableNodes.lookup n = some r ∧ (s.heap r).id = some n := by
  obtain ⟨n,hn⟩ := mem_getAvailableList.mp hstop
  exact ⟨n,hn,(h.stored n r hn).1⟩

end available

/-! ## How many elements a call leaves with an id -/

section lengths
variable {s : Registry} {r : Ref} {n m c u : String}

theorem length_queuedWith_stop (hid : (s.heap r).id = some m)
    (hqueued : s.queuedWith (some m) ≠ []) : ((s.step (.stop r)).queuedWith (some n)).length =
      (s.queuedWith (some n)).length - if m = n then 1 else 0 := by
  by_cases hn : m = n
  · subst hn
    rcases queuedWith_stop hid with ⟨hnil,_⟩ | ⟨e,hperm⟩
    · exact absurd hnil hqueued
    · simp [← hperm.length_eq]
  · have hne : (some n : Option String) ≠ some m := fun h => hn (Option.some.inj h).symm
    simp [hn,(queuedWith_stop_ne hid hne).length_eq]

/-- `connect` takes one element out and puts one in. -/
theorem length_queuedWith_connect (hwf : s.WellFormed) (hr : s.availableNodes.lookup m = some r)
    (hqueued : s.queuedWith (some m) ≠ []) :
    ((s.step (.connect m c u)).queuedWith (some n)).length =
      (s.queuedWith (some n)).length := by
  by_cases hn : m = n
  · subst hn
    rcases queuedWith_connect (c := c) (u := u) hwf hr with ⟨hnil,_⟩ | ⟨e,hperm⟩
    · exact absurd hnil hqueued
    · simpa using hperm.length_eq
  · have hne : (some n : Option String) ≠ some m := fun h => hn (Option.some.inj h).symm
    exact (queuedWith_connect_ne hwf hr hne).length_eq

/-- An available node that is counted as it should be is queued. -/
lemma queuedWith_ne_nil {k : ℕ} (hlen : (s.queuedWith (some m)).length =
    (s.available (some m)).toList.length + k) (hr : s.availableNodes.lookup m = some r) :
    s.queuedWith (some m) ≠ [] := by
  intro hnil
  simp [available,hr,hnil] at hlen
  omega

end lengths

/-- The queue holds an available node once, and every node once more for each `disconnect`. -/
def LengthsCounted (past : List Op) (s : Registry) : Prop := ∀ n,
  (s.queuedWith (some n)).length =
    (s.available (some n)).toList.length + past.countP (DisconnectsNode n)

theorem LengthsCounted.step {past : List Op} {s : Registry} {op : Op} (h : LengthsCounted past s)
    (hwf : s.WellFormed) (hguard : CallerGuard past s op) :
    LengthsCounted (past ++ [op]) (s.step op) := by
  intro n
  have hn := h n
  obtain ⟨hfresh,hstop,hon,_⟩ := hguard
  cases op with
  | start node =>
    obtain ⟨m,hm,hnone⟩ := hfresh
    rw [available_start hm,(queuedWith_start hwf hm _).length_eq]
    split
    · next heq =>
      cases heq
      simp [available,hnone,DisconnectsNode] at hn ⊢
      omega
    · simpa [DisconnectsNode] using hn
  | stop r =>
    obtain ⟨m,hm,hid⟩ := stopped_id hwf hstop
    have hqueued : s.queuedWith (some m) ≠ [] := queuedWith_ne_nil (h m) hm
    rw [available_stop hid,length_queuedWith_stop hid hqueued]
    by_cases hmn : m = n
    · subst hmn
      simp [available,hm,DisconnectsNode] at hn ⊢
      omega
    · simpa [hmn,DisconnectsNode] using hn
  | connect m c u =>
    obtain ⟨r,hr⟩ := exists_object hon
    have hqueued : s.queuedWith (some m) ≠ [] := queuedWith_ne_nil (h m) hr
    rw [available_connect,length_queuedWith_connect hwf hr hqueued]
    simpa [DisconnectsNode] using hn
  | disconnect m c u =>
    rw [available_disconnect]
    obtain ⟨r,hr⟩ := exists_object hon
    rw [(queuedWith_disconnect hwf hr).length_eq]
    split
    · next heq =>
      cases heq
      simp [DisconnectsNode] at hn ⊢
      omega
    · next hne =>
      have hne' : ¬ m = n := fun h => hne (by rw [h])
      simpa [DisconnectsNode,hne'] using hn

theorem length_queuedWith_after {ops : List Op} (h : registry.Meets CallerGuard ops) :
    LengthsCounted ops (registry.after ops) :=
  Machine.invariant (P := LengthsCounted) (fun _ => rfl)
    (fun past _ _ hcounted hguard => hcounted.step (wellFormed_after past) hguard) h

/-! ## Agreement -/

lemma eq_toList_of_perm {l : List Ref} {o : Option Ref} (h : l.Perm o.toList) :
    l = o.toList := by
  cases o with
  | none => exact List.perm_nil.mp h
  | some r => exact List.perm_singleton.mp h

/-- Every call but `disconnect` keeps the queue and the map in agreement. -/
theorem QueueAgrees.step {s : Registry} {op : Op} (h : QueueAgrees s) (hwf : s.WellFormed)
    (hfresh : StartsFresh s op) (hstop : StopsAvailable s op) (hon : OnAvailable s op)
    (hop : IsDisconnect op = false) : QueueAgrees (s.step op) := by
  intro id
  apply eq_toList_of_perm
  cases op with
  | start node =>
    obtain ⟨n,hn,hnone⟩ := hfresh
    have hperm := queuedWith_start hwf hn id
    rw [available_start hn]
    split at hperm
    · next hid =>
      subst hid
      rw [h (some n)] at hperm
      simpa [available,hnone] using hperm
    · next hid => rwa [if_neg hid,← h id]
  | stop r =>
    obtain ⟨n,hn,hid⟩ := stopped_id hwf hstop
    rw [available_stop hid]
    by_cases hne : id = some n
    · subst hne
      rcases queuedWith_stop hid with ⟨_,hnil⟩ | ⟨e,hperm⟩
      · simp [hnil]
      · have hlen := hperm.length_eq
        have hold : s.queuedWith (some n) = [r] := by simp [h (some n),available,hn]
        rw [hold] at hlen
        simpa using hlen
    · rw [if_neg (Ne.symm hne),← h id]
      exact queuedWith_stop_ne hid hne
  | connect n c u =>
    rw [available_connect]
    obtain ⟨r,hr⟩ := exists_object hon
    by_cases hne : id = some n
    · subst hne
      have hold : s.queuedWith (some n) = [r] := by simp [h (some n),available,hr]
      rcases queuedWith_connect (c := c) (u := u) hwf hr with ⟨hnil,_⟩ | ⟨e,hperm⟩
      · simp [hnil] at hold
      · rw [hold] at hperm
        have he : e = r := by simpa using hperm.subset List.mem_cons_self
        subst he
        simpa [available,hr] using hperm.cons_inv
    · rw [← h id]
      exact queuedWith_connect_ne hwf hr hne
  | disconnect n c u => simp [IsDisconnect] at hop

theorem queueAgrees_empty : QueueAgrees Registry.empty := by
  intro id
  cases id <;> simp [queuedWith,available,Registry.empty]

/-- Runs without a `disconnect` end with queue and map in agreement. -/
theorem queueAgrees_after {ops : List Op}
    (h : registry.Meets (fun _ s op => (StartsFresh s op ∧ StopsAvailable s op ∧
      OnAvailable s op) ∧ IsDisconnect op = false) ops) : QueueAgrees (registry.after ops) :=
  Machine.invariant (P := fun _ s => QueueAgrees s) queueAgrees_empty
    (fun past _ _ hagrees ⟨⟨hfresh,hstop,hon⟩,hop⟩ =>
      hagrees.step (wellFormed_after past) hfresh hstop hon hop) h

theorem QueueAgrees.available {s : Registry} (h : QueueAgrees s) {r : Ref}
    (hr : r ∈ s.connectNodeLoads) : s.available (s.heap r).id = some r := by
  have hmem : r ∈ s.queuedWith (s.heap r).id := List.mem_filter.mpr ⟨hr, by simp⟩
  simpa [h (s.heap r).id] using hmem

theorem QueueAgrees.mem_iff {s : Registry} (h : QueueAgrees s) {r : Ref} :
    r ∈ s.connectNodeLoads ↔ r ∈ getAvailableList s := by
  rw [mem_getAvailableList]
  constructor
  · intro hr
    exact Option.bind_eq_some_iff.mp (h.available hr) |>.imp fun n hn => hn.2
  · rintro ⟨n,hn⟩
    have hmem : r ∈ s.queuedWith (some n) := by simp [h (some n),Registry.available,hn]
    exact (List.mem_filter.mp hmem).1

theorem count_queued (s : Registry) (id : Option String) :
    (s.connectNodeLoads.map fun r => (s.heap r).id).count id = (s.queuedWith id).length := by
  rw [queuedWith,← List.countP_eq_length_filter,List.count,List.countP_map]
  exact List.countP_congr fun r _ => by simp

theorem QueueAgrees.nodup_ids {s : Registry} (h : QueueAgrees s) :
    (s.connectNodeLoads.map fun r => (s.heap r).id).Nodup := by
  refine List.nodup_iff_count_le_one.mpr fun id => ?_
  rw [count_queued,h id]
  cases s.available id <;> simp

theorem QueueAgrees.bestNodesAvailable {s : Registry} (h : QueueAgrees s) :
    BestNodesAvailable s := by
  intro channelId
  refine ⟨fun r hr => h.mem_iff.mp (List.mem_of_mem_take hr), ?_⟩
  exact h.nodup_ids.sublist ((List.take_sublist 2 _).map _)

/-- The queue and the map agree at the end of a run, and `getBestNode` offers available nodes
without repetition, exactly if the run has no `disconnect`. -/
theorem queue_agrees_iff_no_disconnect (ops : List Op) (h : registry.Meets CallerGuard ops) :
    (QueueAgrees (registry.after ops) ∧ BestNodesAvailable (registry.after ops)) ↔
      ∀ op ∈ ops, IsDisconnect op = false := by
  constructor
  · rintro ⟨hagrees,_⟩ op hop
    cases op with
    | disconnect n c u =>
      have hlen := length_queuedWith_after h n
      have hpos : 0 < ops.countP (DisconnectsNode n) :=
        List.countP_pos_iff.mpr ⟨_,hop, by simp [DisconnectsNode]⟩
      rw [hagrees (some n)] at hlen
      omega
    | _ => rfl
  · intro hops
    have hagrees := queueAgrees_after ((h.mono fun _ _ _ ⟨hfresh,hstop,hon,_⟩ =>
      And.intro hfresh ⟨hstop,hon⟩).and_mem hops)
    exact ⟨hagrees, hagrees.bestNodesAvailable⟩

/-- One node, one client that comes and goes, and then the node goes down. -/
def leftoverRun : List Op :=
  [.start ⟨some "1",some "127.0.0.1",8080,18080,0⟩,.connect "1" "c" "u",.disconnect "1" "c" "u",
    .stop 0]

/-- The stopped node is still the best one on offer. -/
theorem leftover_queue : registry.Meets CallerGuard leftoverRun ∧
    ¬ (QueueAgrees (registry.after leftoverRun) ∧
      BestNodesAvailable (registry.after leftoverRun)) ∧
    getBestNode (registry.after leftoverRun) "c" = [0] ∧
    getAvailableList (registry.after leftoverRun) = [] := by
  refine ⟨by decide, ?_, by decide, by decide⟩
  rintro ⟨hagrees,_⟩
  have h : (registry.after leftoverRun).queuedWith (some "1") = [0] := by decide
  rw [hagrees (some "1")] at h
  exact absurd h (by decide)

theorem queue_agrees_connected :
    QueueAgrees (registry.after (leftoverRun.take 2)) ∧
      BestNodesAvailable (registry.after (leftoverRun.take 2)) :=
  (queue_agrees_iff_no_disconnect (leftoverRun.take 2) (by decide)).mpr (by decide)

end ImSingle.Stat
