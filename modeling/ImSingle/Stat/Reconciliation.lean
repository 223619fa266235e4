import ImSingle.Stat.NotifyRun

/-! What a notification does to the registry: nodes it does not list go, nodes that are new in
it come, and the nodes in both stay the objects they were, also at an old address. -/
namespace ImSingle.Stat
open Library Registry

/-- The fields of the service are what they were. -/
structure SameFields (s t : Registry) : Prop where
  availableNodes : t.availableNodes = s.availableNodes
  channelNodeMap : t.channelNodeMap = s.channelNodeMap
  connectNodeLoads : t.connectNodeLoads = s.connectNodeLoads

/-! ## Reconciliation -/

/-- From `s` to `s'` the available ids became those of the passing entries; a node that was
available is the same object, unchanged, and a new one has no load. -/
structure Reconciled (param : ServiceNotify) (s s' : Registry) : Prop where
  keys : ∀ n, n ∈ s'.availableNodes ↔ some n ∈ passingIds param
  retained : ∀ n r, s.availableNodes.lookup n = some r → n ∈ s'.availableNodes →
    s'.availableNodes.lookup n = some r ∧ s'.heap r = s.heap r
  added : ∀ n r, n ∉ s.availableNodes → s'.availableNodes.lookup n = some r →
    (s'.heap r).load = 0

section reconciled
variable {s : Registry} {param : ServiceNotify} {nodes : List ConnectNodeLoad} {n : String}

lemma mem_availableNodes : n ∈ s.availableNodes ↔ s.available (some n) ≠ none := by
  rw [← AList.lookup_isSome,Option.isSome_iff_ne_none]
  rfl

theorem reconciled_handled (hwf : s.WellFormed) (h : resolveServiceNotify param = .ok nodes)
    (hids : none ∉ nodes.map ConnectNodeLoad.id) : Reconciled param s (handled nodes s) := by
  have hkeys : ∀ n, n ∈ (handled nodes s).availableNodes ↔ some n ∈ passingIds param := by
    intro n
    rw [mem_availableNodes,← map_id_of_resolve h]
    by_cases hn : some n ∈ nodes.map ConnectNodeLoad.id
    · rcases available_handled hwf hids hn with ⟨r,_,hr⟩ | ⟨r,_,_,_,hr⟩ <;> simp [hr,hn]
    · simp [available_handled_none hwf hids hn,hn]
  refine ⟨hkeys,fun n r hr hn => ?_,fun n r hn hr => ?_⟩
  · rw [hkeys,← map_id_of_resolve h] at hn
    have hold : s.available (some n) = some r := hr
    rcases available_handled hwf hids hn with ⟨r',hr',havail⟩ | ⟨r',_,hnone,_⟩
    · cases hold.symm.trans hr'
      refine ⟨havail,?_⟩
      rw [handled_frame.1,allocAll_heap (hwf.stored n r hr).2]
    · rw [hold] at hnone
      cases hnone
  · have hnew : n ∈ (handled nodes s).availableNodes := AList.lookup_isSome.mp (by simp [hr])
    rw [hkeys,← map_id_of_resolve h] at hnew
    rw [mem_availableNodes,not_not] at hn
    rcases available_handled hwf hids hnew with ⟨r',hr',_⟩ | ⟨r',hmem,_,_,havail⟩
    · rw [hn] at hr'
      cases hr'
    · cases (show some r' = some r from havail.symm.trans hr)
      rw [handled_frame.1]
      exact load_of_resolve h _ (heap_allocated hmem)

/-- When the available ids are the listed ones there is nothing to do. -/
theorem sameFields_handled (hwf : s.WellFormed)
    (hids : ∀ id, id ∈ nodes.map ConnectNodeLoad.id ↔ s.available id ≠ none) :
    SameFields s (handled nodes s) := by
  have hoffline : offline nodes s = [] := by
    refine List.eq_nil_iff_forall_not_mem.mpr fun r hr => ?_
    obtain ⟨m,hm,hnot⟩ := (mem_offline hwf).mp hr
    rw [hids,not_not] at hnot
    cases hm.symm.trans hnot
  have honline : online nodes s = [] := by
    refine List.eq_nil_iff_forall_not_mem.mpr fun r hr => ?_
    obtain ⟨hmem,hnone⟩ := (mem_online hwf).mp hr
    exact (hids _).mp (List.mem_map_of_mem (heap_allocated hmem)) hnone
  rw [handled,hoffline,honline]
  exact ⟨allocAll_availableNodes,allocAll_channelNodeMap,allocAll_connectNodeLoads⟩

end reconciled

/-- A notification with well-formed entries is handled. Whenever one is handled, the available
nodes are brought in line with it, and handling it again changes nothing. -/
theorem handlerServiceNotify_reconciles (s : Registry) (param : ServiceNotify)
    (hwf : s.WellFormed) :
    (Acceptable param → ∃ s', (handlerServiceNotify param).run s = .ok () s') ∧
    ∀ s', (handlerServiceNotify param).run s = .ok () s' → Reconciled param s s' ∧
      ∃ s'', (handlerServiceNotify param).run s' = .ok () s'' ∧ SameFields s' s'' := by
  constructor
  · intro hparam
    obtain ⟨nodes,hnodes⟩ := hparam.resolve
    have hids := hparam.passingIds
    rw [← map_id_of_resolve hnodes] at hids
    exact ⟨_,handlerServiceNotify_run hwf hnodes hids⟩
  · intro s' hrun
    cases hnodes : resolveServiceNotify param with
    | error e =>
      rw [handlerServiceNotify_unresolved hnodes] at hrun
      cases hrun
    | ok nodes =>
      by_cases hids : none ∈ nodes.map ConnectNodeLoad.id
      · obtain ⟨before,hthrow,_⟩ := handlerServiceNotify_throws hwf hnodes hids
        rw [hthrow] at hrun
        cases hrun
      · rw [handlerServiceNotify_run hwf hnodes hids] at hrun
        cases hrun
        have hreconciled := reconciled_handled hwf hnodes hids
        have hwf' := wellFormed_handled hwf nodes
        refine ⟨hreconciled,_,handlerServiceNotify_run hwf' hnodes hids,
          sameFields_handled hwf' fun id => ?_⟩
        cases id with
        | none => simp [hids,available]
        | some n => rw [← mem_availableNodes,hreconciled.keys,map_id_of_resolve hnodes]

/-- One available node with a client. -/
def oneNode : List Op :=
  [.start ⟨some "1",some "10.0.0.1",8080,18080,0⟩,.connect "1" "c" "u"]

/-- A second node, listed twice, and the one that stays. -/
def twoNodes : ServiceNotify := instances [("2","10.0.0.2"),("1","10.0.0.1"),("2","10.0.0.2")]

theorem reconciles_twoNodes :
    ∃ s', (handlerServiceNotify twoNodes).run (registry.after oneNode) = .ok () s' ∧
      Reconciled twoNodes (registry.after oneNode) s' ∧
      ∃ s'', (handlerServiceNotify twoNodes).run s' = .ok () s'' ∧ SameFields s' s'' := by
  obtain ⟨hreturns,hreconciled⟩ := handlerServiceNotify_reconciles (registry.after oneNode)
    twoNodes (wellFormed_after oneNode)
  obtain ⟨s',hs'⟩ := hreturns (acceptable_instances _)
  exact ⟨s',hs',hreconciled s' hs'⟩

/-! ## Rejected notifications -/

/-- A call that throws leaves the fields alone. -/
def RejectionHarmless (param : ServiceNotify) (s : Registry) : Prop :=
  ∀ e s', (handlerServiceNotify param).run s = .error e s' → SameFields s s'

/-- No node has to go, and every node before the first one without an id is there already. -/
def NothingBeforeNull (ids : List (Option String)) (s : Registry) : Prop :=
  (∀ n ∈ s.availableNodes, some n ∈ ids) ∧
  ∀ id ∈ ids.takeWhile Option.isSome, s.available id ≠ none

section rejected
variable {s : Registry} {param : ServiceNotify} {nodes : List ConnectNodeLoad} {before : List Ref}

theorem offline_eq_nil_iff (hwf : s.WellFormed) : offline nodes s = [] ↔
    ∀ n ∈ s.availableNodes, some n ∈ nodes.map ConnectNodeLoad.id := by
  rw [List.eq_nil_iff_forall_not_mem]
  constructor
  · intro h n hn
    by_contra hnot
    obtain ⟨r,hr⟩ := exists_object hn
    exact h r ((mem_offline hwf).mpr ⟨n,hr,hnot⟩)
  · intro h r hr
    obtain ⟨m,hm,hnot⟩ := (mem_offline hwf).mp hr
    exact hnot (h m (AList.lookup_isSome.mp (by simp [hm])))

/-- Stops and starts that leave the map as it was are none at all. -/
theorem sameFields_loops_iff (hwf : s.WellFormed) (hbefore : ∀ r ∈ before,
    r ∈ online nodes s ∧ ((allocAll nodes s).heap r).id ≠ none) :
    SameFields s (startAll before (stopAll (offline nodes s) (allocAll nodes s))) ↔
      offline nodes s = [] ∧ before = [] := by
  constructor
  · intro hsame
    have hids : ∀ r ∈ before,
        ((stopAll (offline nodes s) (allocAll nodes s)).heap r).id ≠ none := by
      rw [stopAll_frame.1]
      exact fun r hr => (hbefore r hr).2
    have havailable : ∀ id, (startAll before (stopAll (offline nodes s)
        (allocAll nodes s))).available id = s.available id := by
      intro id
      rw [available,hsame.availableNodes,available]
    refine ⟨List.eq_nil_iff_forall_not_mem.mpr fun r hr => ?_,
      List.eq_nil_iff_forall_not_mem.mpr fun r hr => ?_⟩
    · -- the stopped id would have to be started again, but only listed ids are
      obtain ⟨m,hm,hnot⟩ := (mem_offline hwf).mp hr
      have hold : s.available (some m) = some r := hm
      rcases available_startAll hids (some m) with ⟨e,he,hid,_⟩ | ⟨_,hgone⟩
      · rw [stopAll_frame.1] at hid
        have hmem := heap_allocated ((mem_online hwf).mp (hbefore e he).1).1
        exact hnot (List.mem_map.mpr ⟨_,hmem,hid⟩)
      · rw [havailable,hold,available_stopped hwf,if_neg hnot] at hgone
        cases hgone
    · have hnew := ((mem_online hwf).mp (hbefore r hr).1).2
      rcases available_startAll hids ((allocAll nodes s).heap r).id with
        ⟨e,_,_,hthere⟩ | ⟨hnone,_⟩
      · rw [havailable,hnew] at hthere
        cases hthere
      · exact hnone r hr (by rw [stopAll_frame.1])
  · rintro ⟨hoffline,rfl⟩
    rw [hoffline]
    exact ⟨allocAll_availableNodes,allocAll_channelNodeMap,allocAll_connectNodeLoads⟩

end rejected

/-- A rejected notification is harmless exactly if it is not resolved at all, or if it has no
null id among the passing entries, or if there was nothing to do before the first of them. -/
theorem rejectionHarmless_iff (s : Registry) (param : ServiceNotify) (hwf : s.WellFormed) :
    RejectionHarmless param s ↔ (∀ nodes, resolveServiceNotify param ≠ .ok nodes) ∨
      none ∉ passingIds param ∨ NothingBeforeNull (passingIds param) s := by
  cases hnodes : resolveServiceNotify param with
  | error e =>
    refine iff_of_true (fun e' s' hrun => ?_) (.inl fun nodes h => nomatch h)
    rw [handlerServiceNotify_unresolved hnodes] at hrun
    cases hrun
    exact ⟨rfl,rfl,rfl⟩
  | ok nodes =>
    rw [← map_id_of_resolve hnodes]
    by_cases hids : none ∈ nodes.map ConnectNodeLoad.id
    · obtain ⟨before,hthrow,hbefore,hnil⟩ := handlerServiceNotify_throws hwf hnodes hids
      have hharmless : RejectionHarmless param s ↔
          SameFields s (startAll before (stopAll (offline nodes s) (allocAll nodes s))) := by
        rw [RejectionHarmless,hthrow]
        constructor
        · intro h
          exact h _ _ rfl
        · rintro h e s' ⟨⟩
          exact h
      rw [hharmless,sameFields_loops_iff hwf hbefore,offline_eq_nil_iff hwf,hnil]
      simp [hids,NothingBeforeNull]
    · refine iff_of_true (fun e s' hrun => ?_) (.inr (.inl hids))
      rw [handlerServiceNotify_run hwf hnodes hids] at hrun
      cases hrun

/-- A new node in front of one whose service has no id. -/
def nullIdNotify : ServiceNotify :=
  let nullId := { passingInstance ("3","10.0.0.3") with
    service := (passingInstance ("3","10.0.0.3")).service.map fun service =>
      { service with id := none } }
  some [some (passingInstance ("2","10.0.0.2")),some nullId]

/-- With the first node there already the call throws without effect. -/
theorem nullIdNotify_harmless : RejectionHarmless nullIdNotify
    (registry.after [.start ⟨some "2",some "10.0.0.2",8080,18080,0⟩]) := by
  refine (rejectionHarmless_iff _ nullIdNotify (wellFormed_after _)).mpr (.inr (.inr ⟨?_,?_⟩))
  · have hkeys : (registry.after
        [.start ⟨some "2",some "10.0.0.2",8080,18080,0⟩]).availableNodes.keys = ["2"] := by decide
    intro n hn
    rw [AList.mem_keys,hkeys,List.mem_singleton] at hn
    rw [hn]
    decide
  · decide

/-- The call throws, but the available node is stopped and the first one of the list started. -/
theorem nullIdNotify_rejected :
    let result := (handlerServiceNotify nullIdNotify).run (registry.after oneNode)
    Java.returned result = false ∧
      (Java.finalState result).availableNodes.lookup "1" = none ∧
      ((Java.finalState result).availableNodes.lookup "2").isSome = true ∧
      ¬ RejectionHarmless nullIdNotify (registry.after oneNode) := by
  have hthrows : Java.returned
      ((handlerServiceNotify nullIdNotify).run (registry.after oneNode)) = false := by decide
  refine ⟨hthrows,by decide,by decide,fun h => ?_⟩
  obtain ⟨e,hrun⟩ := Java.eq_error_of_not_returned hthrows
  have hsame := congrArg (AList.lookup "1") (h e _ hrun).availableNodes
  exact absurd hsame (by decide)

/-! ## Addresses -/

/-- A node as `init` names it to a client. -/
structure ChannelNodeInfo where
  address : Option String
  protocol : String
  port : ℤ
  deriving DecidableEq, Repr

def toChannelNodeInfo (connectNodeLoad : ConnectNodeLoad) : ChannelNodeInfo :=
  ⟨connectNodeLoad.ip,"ws",connectNodeLoad.wsPort⟩

/-- The address and the port are those of the entry. -/
def Announces (entity : ConsulWatchServiceEntity) (info : ChannelNodeInfo) : Prop :=
  ∃ service ∈ entity.service, info.address = service.address ∧
    ∃ text ∈ service.wsPort, parseInt text = .ok info.port

/-- Every node registered or queued under the id of a passing entry has the entry's address,
port and `wsPort`. -/
def KnownCurrent (param : ServiceNotify) (s : Registry) : Prop :=
  ∀ entity ∈ passingEntries param, ∀ r,
    s.available (serviceId entity) = some r ∨ r ∈ s.queuedWith (serviceId entity) →
      Describes entity (s.heap r)

/-- Under the id of each passing entry a node with its address, port and `wsPort` is registered,
and the queue, out of which `getBestNode` offers nodes, has no other one with that id. -/
structure AddressesCurrent (param : ServiceNotify) (s : Registry) : Prop where
  registered : ∀ entity ∈ passingEntries param,
    ∃ r, s.available (serviceId entity) = some r ∧ Describes entity (s.heap r)
  queued : ∀ entity ∈ passingEntries param, ∀ r ∈ s.queuedWith (serviceId entity),
    Describes entity (s.heap r)

section addresses
variable {s : Registry} {param : ServiceNotify} {nodes : List ConnectNodeLoad}
  {entity : ConsulWatchServiceEntity} {r : Ref}

theorem exists_entry (h : resolveServiceNotify param = .ok nodes) {node : ConnectNodeLoad}
    (hnode : node ∈ nodes) : ∃ entity ∈ passingEntries param, Describes entity node := by
  have hall := resolveServiceNotify_ok h
  generalize passingEntries param = entries at hall ⊢
  clear h
  induction hall with
  | nil => cases hnode
  | @cons entity first entries nodes hfirst _ ih =>
    rcases List.mem_cons.mp hnode with rfl | hnode
    · exact ⟨entity,by simp,hfirst.1⟩
    · obtain ⟨entity',hentity',hdescribes⟩ := ih hnode
      exact ⟨entity',by simp [hentity'],hdescribes⟩

/-- With distinct ids a node comes from the entry that has its id. -/
theorem describes_of_mem (h : resolveServiceNotify param = .ok nodes)
    (hdistinct : (passingIds param).Nodup) (hentity : entity ∈ passingEntries param)
    {node : ConnectNodeLoad} (hnode : node ∈ nodes) (hid : node.id = serviceId entity) :
    Describes entity node := by
  obtain ⟨entity',hentity',hdescribes⟩ := exists_entry h hnode
  have hsame : serviceId entity' = serviceId entity := hdescribes.serviceId.symm.trans hid
  rwa [← List.inj_on_of_nodup_map hdistinct hentity' hentity hsame]

theorem heap_handled_old (hr : r < s.next) (nodes : List ConnectNodeLoad) :
    (handled nodes s).heap r = s.heap r := by
  rw [handled_frame.1,allocAll_heap hr]

theorem describes_allocated (h : resolveServiceNotify param = .ok nodes)
    (hdistinct : (passingIds param).Nodup) (hentity : entity ∈ passingEntries param)
    (hr : r ∈ allocated nodes s) (hid : ((handled nodes s).heap r).id = serviceId entity) :
    Describes entity ((handled nodes s).heap r) := by
  rw [handled_frame.1] at hid ⊢
  exact describes_of_mem h hdistinct hentity (heap_allocated hr) hid

theorem serviceId_mem (h : resolveServiceNotify param = .ok nodes)
    (hentity : entity ∈ passingEntries param) :
    serviceId entity ∈ nodes.map ConnectNodeLoad.id := by
  rw [map_id_of_resolve h]
  exact List.mem_map_of_mem hentity

/-- Under a listed id the queue keeps what it held, and gets the new nodes. -/
theorem mem_queuedWith_handled (hwf : s.WellFormed) (hids : none ∉ nodes.map ConnectNodeLoad.id)
    {id : Option String} (hid : id ∈ nodes.map ConnectNodeLoad.id) :
    r ∈ (handled nodes s).queuedWith id ↔
      r ∈ s.queuedWith id ∨ r ∈ online nodes s ∧ ((handled nodes s).heap r).id = id := by
  have hother : ∀ e ∈ offline nodes s, ((allocAll nodes s).heap e).id ≠ id := by
    rintro e he rfl
    obtain ⟨m,hm,hnot⟩ := (mem_offline hwf).mp he
    rw [allocAll_id hwf hm] at hid
    exact hnot hid
  have hstop : ((stopAll (offline nodes s) (allocAll nodes s)).queuedWith id).Perm
      (s.queuedWith id) := by
    rw [← queuedWith_allocAll hwf nodes]
    exact queuedWith_stopAll (offline_ids hwf) hother
  rw [← hstop.mem_iff,handled,queuedWith,List.mem_filter,mem_startAll (online_ids hids),
    startAll_frame.1,queuedWith,List.mem_filter,decide_eq_true_eq,or_and_right,or_comm]

/-- The registered nodes are current exactly if those that stay were. -/
theorem registered_handled_iff (hwf : s.WellFormed) (h : resolveServiceNotify param = .ok nodes)
    (hids : none ∉ nodes.map ConnectNodeLoad.id) (hdistinct : (passingIds param).Nodup)
    (hentity : entity ∈ passingEntries param) :
    (∃ r, (handled nodes s).available (serviceId entity) = some r ∧
        Describes entity ((handled nodes s).heap r)) ↔
      ∀ r, s.available (serviceId entity) = some r → Describes entity (s.heap r) := by
  rcases available_handled hwf hids (serviceId_mem h hentity) with
    ⟨r,hold,havail⟩ | ⟨r,hmem,hnone,hid,havail⟩
  · obtain ⟨n,_,hn⟩ := Option.bind_eq_some_iff.mp hold
    have hlt := (hwf.stored n r hn).2
    simp [havail,hold,heap_handled_old hlt]
  · rw [← handled_frame.1] at hid
    simp [havail,hnone,describes_allocated h hdistinct hentity hmem hid]

/-- So are the queued ones exactly if those that stay were. -/
theorem queued_handled_iff (hwf : s.WellFormed) (h : resolveServiceNotify param = .ok nodes)
    (hids : none ∉ nodes.map ConnectNodeLoad.id) (hdistinct : (passingIds param).Nodup)
    (hentity : entity ∈ passingEntries param) :
    (∀ r ∈ (handled nodes s).queuedWith (serviceId entity),
        Describes entity ((handled nodes s).heap r)) ↔
      ∀ r ∈ s.queuedWith (serviceId entity), Describes entity (s.heap r) := by
  simp only [mem_queuedWith_handled hwf hids (serviceId_mem h hentity)]
  constructor
  · intro hall r hr
    have hlt := hwf.queued r (List.mem_filter.mp hr).1
    rw [← heap_handled_old hlt nodes]
    exact hall r (.inl hr)
  · rintro hall r (hr | ⟨hr,hid⟩)
    · rw [heap_handled_old (hwf.queued r (List.mem_filter.mp hr).1)]
      exact hall r hr
    · exact describes_allocated h hdistinct hentity ((mem_online hwf).mp hr).1 hid

end addresses

/-- After a notification of well-formed entries with distinct ids the addresses are current
exactly if those of the nodes known before were; then `init` announces no replaced address. -/
theorem addressesCurrent_iff (s : Registry) (param : ServiceNotify) (hwf : s.WellFormed)
    (hparam : Acceptable param) (hdistinct : (passingIds param).Nodup) :
    ∃ s', (handlerServiceNotify param).run s = .ok () s' ∧
      (AddressesCurrent param s' ↔ KnownCurrent param s) ∧
      (AddressesCurrent param s' → ∀ channelId, ∀ r ∈ getBestNode s' channelId,
        ∀ entity ∈ passingEntries param, (s'.heap r).id = serviceId entity →
          Announces entity (toChannelNodeInfo (s'.heap r))) := by
  obtain ⟨nodes,hnodes⟩ := hparam.resolve
  have hids := hparam.passingIds
  rw [← map_id_of_resolve hnodes] at hids
  refine ⟨_,handlerServiceNotify_run hwf hnodes hids,?_,?_⟩
  · constructor
    · intro h entity hentity r hr
      rcases hr with hr | hr
      · exact (registered_handled_iff hwf hnodes hids hdistinct hentity).mp
          (h.registered entity hentity) r hr
      · exact (queued_handled_iff hwf hnodes hids hdistinct hentity).mp
          (h.queued entity hentity) r hr
    · intro h
      constructor
      · intro entity hentity
        exact (registered_handled_iff hwf hnodes hids hdistinct hentity).mpr
          fun r hr => h entity hentity r (.inl hr)
      · intro entity hentity
        exact (queued_handled_iff hwf hnodes hids hdistinct hentity).mpr
          fun r hr => h entity hentity r (.inr hr)
  · intro h channelId r hr entity hentity hid
    have hqueued : r ∈ (handled nodes s).queuedWith (serviceId entity) :=
      List.mem_filter.mpr ⟨List.mem_of_mem_take hr,by simpa using hid⟩
    obtain ⟨service,hservice,_,hip,_,hport⟩ := h.queued entity hentity r hqueued
    exact ⟨service,hservice,hip,hport⟩

/-- The available instance at another address. -/
def movedInstance : ServiceNotify := instances [("1","10.0.0.9")]

/-- The node keeps its old address, and `init` announces it. -/
theorem movedInstance_stale :
    let s' := Java.finalState ((handlerServiceNotify movedInstance).run (registry.after oneNode))
    ((getBestNode s' "c").map fun r => toChannelNodeInfo (s'.heap r)) =
        [⟨some "10.0.0.1","ws",18080⟩] ∧
      ¬ AddressesCurrent movedInstance s' := by
  refine ⟨by decide,fun h => ?_⟩
  obtain ⟨r,hr,service,hservice,_,hip,_⟩ :=
    h.registered (passingInstance ("1","10.0.0.9")) List.mem_cons_self
  have hold : (Java.finalState ((handlerServiceNotify movedInstance).run
      (registry.after oneNode))).available (serviceId (passingInstance ("1","10.0.0.9"))) =
      some 0 := by decide
  cases hr.symm.trans hold
  cases hservice
  exact absurd hip (by decide)

/-- The available instance at its address, after a new one. -/
def newInstance : ServiceNotify := instances [("2","10.0.0.2"),("1","10.0.0.1")]

theorem addressesCurrent_newInstance :
    ∃ s', (handlerServiceNotify newInstance).run (registry.after oneNode) = .ok () s' ∧
      AddressesCurrent newInstance s' := by
  obtain ⟨s',hrun,hiff,_⟩ := addressesCurrent_iff (registry.after oneNode) newInstance
    (wellFormed_after oneNode) (acceptable_instances _)
    (by rw [newInstance,passingIds_instances]; decide)
  refine ⟨s',hrun,hiff.mpr fun entity hentity r hr => ?_⟩
  obtain rfl | rfl := List.mem_pair.mp hentity
  · have hid : serviceId (passingInstance ("2","10.0.0.2")) = some "2" := rfl
    have hunknown : (registry.after oneNode).available (some "2") = none ∧
        (registry.after oneNode).queuedWith (some "2") = [] := by decide
    rw [hid,hunknown.1,hunknown.2] at hr
    simp at hr
  · have hid : serviceId (passingInstance ("1","10.0.0.1")) = some "1" := rfl
    have hknown : (registry.after oneNode).available (some "1") = some 0 ∧
        (registry.after oneNode).queuedWith (some "1") = [0] := by decide
    rw [hid,hknown.1,hknown.2] at hr
    obtain rfl : r = 0 := by simpa [eq_comm] using hr
    exact ⟨_,rfl,rfl,rfl,rfl,by decide⟩

end ImSingle.Stat
