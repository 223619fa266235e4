import ImSingle.Stat.QueueAgreement
import Mathlib

/-! Which nodes `getBestNode` reads off the queue's array. `connect` changes a load while its
object sits in the queue, and the removal that follows repairs the heap, so the head is always
a least loaded node. The second cell need not be the second least: the third may be smaller. -/
namespace ImSingle.Stat
open Library Library.PriorityQueue Registry

/-- Runs of fresh starts with load 0, stops of available nodes and connects on them. -/
def LoadGuard (s : Registry) (op : Op) : Prop :=
  (StartsFresh s op ∧ StopsAvailable s op ∧ OnAvailable s op) ∧ IsDisconnect op = false ∧
    StartsUnloaded op

instance (s : Registry) : DecidablePred (LoadGuard s) := fun _ =>
  inferInstanceAs (Decidable ((_ ∧ _ ∧ _) ∧ _ ∧ _))

/-- `getBestNode` returns as many distinct available nodes as it can, up to two, and leaves out
none that has a smaller load than one it returns. -/
structure LeastLoadedChoice (s : Registry) (channelId : String) : Prop where
  size : (getBestNode s channelId).length = min 2 (getAvailableList s).length
  available : ∀ r ∈ getBestNode s channelId, r ∈ getAvailableList s
  distinct : ((getBestNode s channelId).map fun r => (s.heap r).id).Nodup
  least : ∀ r ∈ getAvailableList s, r ∉ getBestNode s channelId →
    ∀ b ∈ getBestNode s channelId, (s.heap b).load ≤ (s.heap r).load

namespace Registry

def load (s : Registry) (r : Ref) : ℤ := (s.heap r).load

/-- The loads of the queue's cells. -/
def loadAt (s : Registry) : ℕ → WithTop ℤ := keyAt s.load s.connectNodeLoads

/-- Every object's load is between 0 and `k`, and no more than a Java `int` can hold. -/
def LoadsBounded (s : Registry) (k : ℕ) : Prop := ∀ r, 0 ≤ s.load r ∧ s.load r ≤ k

end Registry

variable {s : Registry} {r : Ref}

/-- Without overflow `compareTo` orders the objects by load. -/
lemma signOf_compare {k : ℕ} (h : s.LoadsBounded k) (hk : k < 2^31) :
    SignOf s.compare s.load := by
  have hcmp : ∀ a b, s.compare a b = s.load a - s.load b := by
    intro a b
    have ha := h a
    have hb := h b
    exact toInt32_eq (by unfold load at *; omega) (by unfold load at *; omega)
  constructor <;> intro a b <;> rw [hcmp] <;> omega

theorem queueAdd_ordered {k : ℕ} (hb : s.LoadsBounded k) (hk : k < 2^31)
    (h : Ordered s.loadAt) : Ordered (queueAdd r s).loadAt :=
  add_ordered (signOf_compare hb hk) h

/-- The queue's removal repairs a heap in which only the removed object is out of place. -/
theorem queueRemove_ordered {k : ℕ} (hb : s.LoadsBounded k) (hk : k < 2^31)
    (h : ∀ i (hi : i < s.connectNodeLoads.length),
      (s.heap s.connectNodeLoads[i]).id = (s.heap r).id → HoleOrdered s.loadAt i)
    (hmem : r ∈ s.connectNodeLoads) : Ordered (queueRemove r s).loadAt := by
  rcases remove_cases s.compare (s.isEqual r) s.connectNodeLoads with
    ⟨_,hnone⟩ | ⟨i,hi,heq,hremove,_⟩
  · have := hnone r hmem
    simp [isEqual,ConnectNodeLoad.equals] at this
  · have hord := removeAt_ordered (signOf_compare hb hk) hi
      (h i hi ((isEqual_iff _).mp heq).symm)
    unfold loadAt
    rw [queueRemove_connectNodeLoads,hremove]
    exact hord

/-- Changing one object's load disturbs the heap at that object's cell only. -/
theorem setLoad_holeOrdered (load : ℤ) (hnodup : s.connectNodeLoads.Nodup) {i : ℕ}
    (hi : i < s.connectNodeLoads.length) (hr : s.connectNodeLoads[i] = r)
    (h : Ordered s.loadAt) : HoleOrdered (setLoad r load s).loadAt i := by
  refine (h.holeOrdered i).congr fun j hj => ?_
  unfold loadAt
  rw [setLoad_connectNodeLoads]
  rcases lt_or_ge j s.connectNodeLoads.length with hlt | hge
  · have hne : s.connectNodeLoads[j] ≠ r := fun heq =>
      hj (hnodup.getElem_inj_iff.mp (heq.trans hr.symm))
    rw [keyAt_of_getElem? _ (List.getElem?_eq_getElem hlt),
      keyAt_of_getElem? _ (List.getElem?_eq_getElem hlt)]
    simp [Registry.load,setLoad_heap_ne _ _ _ hne]
  · rw [keyAt_of_length_le _ hge,keyAt_of_length_le _ hge]

/-! ## The heap over whole runs -/

/-- What every run of fresh starts, stops and connects keeps. -/
structure HeapInvariant (k : ℕ) (s : Registry) : Prop where
  agrees : QueueAgrees s
  ordered : Ordered s.loadAt
  bounded : s.LoadsBounded k

/-- The queue is a min-heap under `compareTo` of exactly the available nodes, no id twice, and
the first node `getBestNode` returns has the least load of all. -/
structure HeapKept (s : Registry) : Prop where
  heap : ∀ i, 0 < i → ∀ p ∈ s.connectNodeLoads[parent i]?, ∀ e ∈ s.connectNodeLoads[i]?,
    s.compare p e ≤ 0
  distinct : (s.connectNodeLoads.map fun r => (s.heap r).id).Nodup
  contents : ∀ r, r ∈ s.connectNodeLoads ↔ r ∈ getAvailableList s
  head : ∀ channelId, ∀ r ∈ getAvailableList s,
    ∃ b, (getBestNode s channelId).head? = some b ∧ (s.heap b).load ≤ (s.heap r).load

lemma loadAt_congr {t : Registry} (hload : ∀ e ∈ s.connectNodeLoads, t.load e = s.load e)
    (hqueue : t.connectNodeLoads = s.connectNodeLoads) : t.loadAt = s.loadAt := by
  funext i
  unfold loadAt keyAt
  rw [hqueue]
  split
  · next e he => rw [hload e (List.mem_of_getElem? he)]
  · rfl

lemma QueueAgrees.nodup (h : QueueAgrees s) : s.connectNodeLoads.Nodup := h.nodup_ids.of_map

lemma LoadsBounded.mono {k k' : ℕ} (h : s.LoadsBounded k) (hk : k ≤ k') : s.LoadsBounded k' :=
  fun r => ⟨(h r).1, (h r).2.trans (by exact_mod_cast hk)⟩

lemma loaded_bounded {k : ℕ} {c : String} (h : s.LoadsBounded k) (hk : k + 1 < 2^31) :
    (loaded r c s).LoadsBounded (k+1) := by
  intro r'
  by_cases hr : r' = r
  · subst hr
    have hb := h r'
    unfold load at hb
    have hload : (loaded r' c s).load r' = s.load r' + 1 := by
      rw [load,loaded,setLoad_load_self]
      exact toInt32_eq (by omega) (by omega)
    rw [hload]
    unfold load
    omega
  · have hload : (loaded r c s).load r' = s.load r' := by
      rw [load,loaded,setLoad_heap_ne _ _ _ hr]; rfl
    rw [hload]
    exact LoadsBounded.mono h (Nat.le_succ k) r'

theorem HeapInvariant.start {k : ℕ} (h : HeapInvariant k s) (hwf : s.WellFormed) (hk : k < 2^31)
    {node : ConnectNodeLoad} {n : String} (hn : node.id = some n) (hload : node.load = 0) :
    Ordered (s.step (.start node)).loadAt ∧ (s.step (.start node)).LoadsBounded k := by
  have hbound : (putNode n s.next (alloc node s)).LoadsBounded k := by
    intro r
    by_cases hr : r = s.next
    · subst hr; simp [load,hload]
    · simpa [load,hr] using h.bounded r
  have hsame : (putNode n s.next (alloc node s)).loadAt = s.loadAt := by
    refine loadAt_congr (fun e he => ?_) rfl
    have hne : e ≠ s.next := Nat.ne_of_lt (hwf.queued e he)
    simp [load,hne]
  rw [step_start hn]
  exact ⟨queueAdd_ordered hbound hk (hsame ▸ h.ordered), hbound⟩

theorem HeapInvariant.stop {k : ℕ} (h : HeapInvariant k s) (hwf : s.WellFormed) (hk : k < 2^31)
    (hstop : StopsAvailable s (.stop r)) :
    Ordered (s.step (.stop r)).loadAt ∧ (s.step (.stop r)).LoadsBounded k := by
  obtain ⟨n,_,hid⟩ := stopped_id hwf hstop
  rw [step_stop hid]
  refine ⟨queueRemove_ordered (s := removeNode n s) h.bounded hk ?_ ?_, h.bounded⟩
  · exact fun i _ _ => h.ordered.holeOrdered i
  · exact h.agrees.mem_iff.mpr hstop

theorem HeapInvariant.connect {k : ℕ} (h : HeapInvariant k s) (hk : k + 1 < 2^31)
    {n c u : String} (hr : s.availableNodes.lookup n = some r) :
    Ordered (s.step (.connect n c u)).loadAt ∧ (s.step (.connect n c u)).LoadsBounded (k+1) := by
  have hbound := loaded_bounded (r := r) (c := c) h.bounded hk
  have hmem : r ∈ s.connectNodeLoads := h.agrees.mem_iff.mpr (mem_getAvailableList.mpr ⟨n,hr⟩)
  rw [step_connect hr]
  refine ⟨queueAdd_ordered (s := queueRemove r (loaded r c s)) hbound hk ?_, hbound⟩
  refine queueRemove_ordered hbound hk (fun i hi hid => ?_) hmem
  -- the element that `remove` finds by its id is the one whose load was just changed
  have heq : s.connectNodeLoads[i] = r := by
    rw [loaded_id,loaded_id] at hid
    have hi' := h.agrees.available (List.getElem_mem hi)
    exact Option.some.inj (hi'.symm.trans ((congrArg s.available hid).trans
      (h.agrees.available hmem)))
  exact setLoad_holeOrdered (s := putChannel c _ s) _ h.agrees.nodup hi heq h.ordered

/-- No part of the run has more connects than the run. -/
lemma meets_countP {ops : List Op} (h : registry.Meets (fun _ => LoadGuard) ops)
    (hk : ops.countP IsConnect < 2^31) : registry.Meets (fun past s op =>
      LoadGuard s op ∧ (past ++ [op]).countP IsConnect < 2^31) ops := by
  refine h.and_prefix (Q := fun past op => (past ++ [op]).countP IsConnect < 2^31) ?_
  rintro past op rest rfl
  refine lt_of_le_of_lt ?_ hk
  exact List.Sublist.countP_le ((List.Sublist.refl past).append (by simp))

/-- With fewer than 2^31 connects, every such run ends with queue and map in agreement, the
array in heap order and the loads within a Java `int`. -/
theorem heapInvariant_after {ops : List Op} (h : registry.Meets (fun _ => LoadGuard) ops)
    (hk : ops.countP IsConnect < 2^31) :
    HeapInvariant (ops.countP IsConnect) (registry.after ops) := by
  have hprefix := meets_countP h hk
  refine Machine.invariant (P := fun past s => HeapInvariant (past.countP IsConnect) s) ?_ ?_
    hprefix
  · exact ⟨queueAgrees_empty, fun i _ => by simp [loadAt,keyAt,Registry.empty,registry],
      fun _ => ⟨le_rfl,le_rfl⟩⟩
  rintro past op _ ih ⟨⟨⟨hfresh,hstop,hon⟩,hop,hload⟩,hlt⟩
  have hwf := wellFormed_after past
  set s := registry.after past
  have hagrees := ih.agrees.step hwf hfresh hstop hon hop
  rw [List.countP_append] at hlt ⊢
  cases op with
  | start node =>
    obtain ⟨n,hn,_⟩ := hfresh
    obtain ⟨hord,hbound⟩ := ih.start hwf (by omega) hn hload
    exact ⟨hagrees,hord,LoadsBounded.mono hbound (by omega)⟩
  | stop r =>
    obtain ⟨hord,hbound⟩ := ih.stop hwf (by omega) hstop
    exact ⟨hagrees,hord,LoadsBounded.mono hbound (by omega)⟩
  | connect n c u =>
    obtain ⟨r,hr⟩ := exists_object hon
    obtain ⟨hord,hbound⟩ := ih.connect (c := c) (u := u) (by simpa [IsConnect] using hlt) hr
    exact ⟨hagrees,hord,hbound⟩
  | disconnect n c u => simp [IsDisconnect] at hop

/-! ## What getBestNode reads -/

theorem QueueAgrees.perm_availableList (h : QueueAgrees s) (hwf : s.WellFormed) :
    s.connectNodeLoads.Perm (getAvailableList s) := by
  refine (List.perm_ext_iff_of_nodup h.nodup ?_).mpr fun r => h.mem_iff
  have hkeys : (getAvailableList s).map (fun r => (s.heap r).id) =
      s.availableNodes.keys.map some := by
    simp only [getAvailableList,JavaMap.values,AList.keys,List.keys,List.map_map]
    refine List.map_congr_left fun e he => ?_
    exact (hwf.stored e.1 e.2 ((List.mem_dlookup_iff s.availableNodes.nodupKeys).mpr he)).1
  have hnodup : (s.availableNodes.keys.map some).Nodup :=
    s.availableNodes.keys_nodup.map (Option.some_injective _)
  exact List.Nodup.of_map _ (hkeys ▸ hnodup)

/-- The array's second cell is no greater than its third, where there is a third. -/
def SecondNotAboveThird (s : Registry) : Prop :=
  ∀ r₂ ∈ s.connectNodeLoads[1]?, ∀ r₃ ∈ s.connectNodeLoads[2]?, s.load r₂ ≤ s.load r₃

lemma loadAt_of_getElem? {i : ℕ} (h : s.connectNodeLoads[i]? = some r) :
    s.loadAt i = s.load r := keyAt_of_getElem? _ h

theorem mem_getBestNode {channelId : String} :
    r ∈ getBestNode s channelId ↔ ∃ i < 2, s.connectNodeLoads[i]? = some r := by
  rw [getBestNode,List.mem_iff_getElem?]
  refine exists_congr fun i => ?_
  rw [List.getElem?_take]
  split
  · next hi => simp [hi]
  · next hi => simp [hi]

/-- Read as a fact about the cells, also of a queue that has no third one. -/
theorem SecondNotAboveThird.loadAt_le (h : SecondNotAboveThird s) : s.loadAt 1 ≤ s.loadAt 2 := by
  unfold loadAt keyAt
  split <;> split
  · next r₂ h₂ _ r₃ h₃ => exact WithTop.coe_le_coe.mpr (h r₂ h₂ r₃ h₃)
  · exact le_top
  · next h₂ _ r₃ h₃ =>
    have := List.getElem?_eq_none_iff.mp h₂
    have := (List.getElem?_eq_some_iff.mp h₃).1
    omega
  · exact le_rfl

/-- In a heap whose second cell is no greater than the third, the first two are the least. -/
theorem HeapInvariant.first_two_le {k : ℕ} (h : HeapInvariant k s) (hsecond : SecondNotAboveThird s)
    {i j : ℕ} (hj : j < 2) (hi : 2 ≤ i) : s.loadAt j ≤ s.loadAt i := by
  obtain rfl | rfl : j = 0 ∨ j = 1 := by omega
  · exact h.ordered.root_le i
  · rcases h.ordered.child_le (show 0 < i by omega) with hone | htwo
    · exact hone
    · exact hsecond.loadAt_le.trans htwo

/-- A heap's first two cells are its two least elements exactly if the second is no greater
than the third. -/
theorem leastLoaded_iff {k : ℕ} (h : HeapInvariant k s) (hwf : s.WellFormed)
    (channelId : String) : LeastLoadedChoice s channelId ↔ SecondNotAboveThird s := by
  have hperm := h.agrees.perm_availableList hwf
  have hbest := h.agrees.bestNodesAvailable channelId
  constructor
  · intro hleast r₂ h₂ r₃ h₃
    have havail : r₃ ∈ getAvailableList s := hperm.mem_iff.mp (List.mem_of_getElem? h₃)
    have hbest₂ : r₂ ∈ getBestNode s channelId := mem_getBestNode.mpr ⟨1,by omega,h₂⟩
    refine hleast.least r₃ havail (fun hin => ?_) r₂ hbest₂
    -- the third cell is not among the first two, since no object is queued twice
    obtain ⟨j,hj,heq⟩ := mem_getBestNode.mp hin
    have hlt := (List.getElem?_eq_some_iff.mp h₃).1
    have := (List.getElem?_inj hlt h.agrees.nodup).mp (Eq.trans h₃ heq.symm)
    omega
  · intro hsecond
    refine ⟨?_,hbest.1,hbest.2,?_⟩
    · simp [getBestNode,hperm.length_eq]
    intro r hr hnot b hb
    obtain ⟨i,hi⟩ := List.mem_iff_getElem?.mp (hperm.mem_iff.mpr hr)
    obtain ⟨j,hj,hbj⟩ := mem_getBestNode.mp hb
    have htwo : 2 ≤ i := by
      by_contra hlt
      exact hnot (mem_getBestNode.mpr ⟨i,by omega,hi⟩)
    have hle := h.first_two_le hsecond hj htwo
    rw [loadAt_of_getElem? hi,loadAt_of_getElem? hbj] at hle
    exact WithTop.coe_le_coe.mp hle

theorem HeapInvariant.heapKept {k : ℕ} (h : HeapInvariant k s) (hk : k < 2^31) : HeapKept s := by
  refine ⟨fun i hi p hp e he => ?_,h.agrees.nodup_ids,fun r => h.agrees.mem_iff,
    fun channelId r hr => ?_⟩
  · have hle := h.ordered i hi
    rw [loadAt_of_getElem? hp,loadAt_of_getElem? he] at hle
    have hload : s.load p ≤ s.load e := WithTop.coe_le_coe.mp hle
    exact (signOf_compare h.bounded hk).nonpos p e |>.mpr hload
  · obtain ⟨i,hi⟩ := List.mem_iff_getElem?.mp (h.agrees.mem_iff.mpr hr)
    obtain ⟨b,hb⟩ : ∃ b, s.connectNodeLoads[0]? = some b := by
      have := (List.getElem?_eq_some_iff.mp hi).1
      exact ⟨_,List.getElem?_eq_getElem (by omega)⟩
    refine ⟨b,by rw [List.head?_eq_getElem?,getBestNode,List.getElem?_take]; exact hb,?_⟩
    have hle := h.ordered.root_le i
    rw [loadAt_of_getElem? hi,loadAt_of_getElem? hb] at hle
    exact WithTop.coe_le_coe.mp hle

/-- In every run of fresh starts, stops and connects with fewer than 2^31 connects,
`getBestNode` returns the least loaded nodes exactly if the array's second cell is no greater
than its third. -/
theorem getBestNode_least_iff (ops : List Op) (h : registry.Meets (fun _ => LoadGuard) ops)
    (hk : ops.countP IsConnect < 2^31) (channelId : String) :
    LeastLoadedChoice (registry.after ops) channelId ↔ SecondNotAboveThird (registry.after ops) :=
  leastLoaded_iff (heapInvariant_after h hk) (wellFormed_after ops) channelId

/-- The calls of the service's own test: three nodes, two clients on the first, one on the
second. -/
def testRun : List Op :=
  [.start ⟨some "1",some "127.0.0.1",8080,18080,0⟩,.start ⟨some "2",some "127.0.0.1",8081,18081,0⟩,
    .start ⟨some "3",some "127.0.0.1",8082,18082,0⟩,.connect "1" "1" "111",.connect "1" "1" "123",
    .connect "2" "1" "222"]

/-- The node with two clients is offered, the node with one is not. -/
theorem testRun_not_least : registry.Meets (fun _ => LoadGuard) testRun ∧
    testRun.countP IsConnect < 2^31 ∧ getBestNode (registry.after testRun) "1" = [2,0] ∧
    (registry.after testRun).load 0 = 2 ∧ (registry.after testRun).load 1 = 1 ∧
    ¬ LeastLoadedChoice (registry.after testRun) "1" := by
  refine ⟨by decide, by decide, by decide, by decide, by decide, fun h => ?_⟩
  have hle := h.least 1 (by decide) (by decide) 0 (by decide)
  exact absurd hle (by decide)

theorem getBestNode_least_started : LeastLoadedChoice (registry.after (testRun.take 3)) "1" :=
  (getBestNode_least_iff (testRun.take 3) (by decide) (by decide) "1").mpr (by
    unfold SecondNotAboveThird; decide)

/-- In every state of a run of fresh starts, stops and connects with fewer than 2^31 connects,
the queue is a heap of the available nodes with a least loaded one at its head. -/
theorem heapKept_always (ops : List Op) (h : registry.Meets (fun _ => LoadGuard) ops)
    (hk : ops.countP IsConnect < 2^31) : registry.Always (fun _ => HeapKept) ops := by
  have hprefix := meets_countP h hk
  refine Machine.always_of_forall hprefix fun past hpast => ?_
  have hcount : past.countP IsConnect < 2^31 := by
    induction past using List.reverseRecOn with
    | nil => decide
    | append_singleton past op _ => exact (Machine.meets_snoc.mp hpast).2.2
  exact (heapInvariant_after (hpast.mono fun _ _ _ hop => hop.1) hcount).heapKept hcount

/-- A connect to the node at the head of three moves it down. -/
theorem heapKept_connected : registry.Always (fun _ => HeapKept) (testRun.take 4) :=
  heapKept_always (testRun.take 4) (by decide) (by decide)

end ImSingle.Stat
