import ImSingle.Stat.RegistryRun
import Mathlib.Algebra.BigOperators.Group.List.Basic

/-! The two counters of the registry: how often a node is listed for a channel, and the load of
an available node. Each call's effect on both is stated once, for every node and channel. -/
namespace ImSingle.Stat
open Library

namespace Registry
variable (s : Registry)

/-- How often node `n` is listed for channel `c`. -/
def multiplicityIn (n c : String) : ℕ := (s.nodeIds c).count (some n)

/-- How often node `n` is listed, over all channels. -/
def occurrences (n : String) : ℕ :=
  ((JavaMap.values s.channelNodeMap).map fun ids => ids.count (some n)).sum

/-- The load of the node available under the id `n`. -/
def loadOf (n : String) : Option ℤ := (s.availableNodes.lookup n).map fun r => (s.heap r).load

end Registry
open Registry

section channels
variable {s : Registry} {n m c d : String}

theorem occurrences_insert (ids : List (Option String)) :
    (putChannel c ids s).occurrences n + s.multiplicityIn n c =
      s.occurrences n + ids.count (some n) := by
  unfold occurrences multiplicityIn nodeIds
  rw [putChannel_channelNodeMap,JavaMap.values_insert,List.map_cons,List.sum_cons]
  cases h : s.channelNodeMap.lookup c with
  | none =>
    rw [JavaMap.erase_of_lookup_eq_none h]
    simp; omega
  | some old =>
    have hperm := ((JavaMap.values_perm_erase h).map fun ids => ids.count (some n)).sum_eq
    rw [hperm,List.map_cons,List.sum_cons]
    simp; omega

theorem multiplicity_le_occurrences : s.multiplicityIn n c ≤ s.occurrences n := by
  unfold occurrences multiplicityIn nodeIds
  cases h : s.channelNodeMap.lookup c with
  | none => simp
  | some ids =>
    have hperm := ((JavaMap.values_perm_erase h).map fun ids => ids.count (some n)).sum_eq
    rw [hperm,List.map_cons,List.sum_cons]
    exact Nat.le_add_right _ _

theorem multiplicity_putChannel (ids : List (Option String)) :
    (putChannel c ids s).multiplicityIn n d =
      if d = c then ids.count (some n) else s.multiplicityIn n d := by
  unfold multiplicityIn
  rw [nodeIds_putChannel]
  split <;> rfl

theorem multiplicity_listed :
    (putChannel c (s.nodeIds c ++ [some m]) s).multiplicityIn n d =
      s.multiplicityIn n d + if m = n ∧ d = c then 1 else 0 := by
  rw [multiplicity_putChannel]
  by_cases hd : d = c
  · subst hd
    by_cases hm : m = n
    · simp [multiplicityIn,hm]
    · simp [multiplicityIn,hm]
  · simp [hd]

theorem occurrences_listed :
    (putChannel c (s.nodeIds c ++ [some m]) s).occurrences n =
      s.occurrences n + if m = n then 1 else 0 := by
  have h := occurrences_insert (s := s) (n := n) (c := c) (s.nodeIds c ++ [some m])
  rw [List.count_append,List.count_singleton] at h
  change _ + s.multiplicityIn n c = _ + (s.multiplicityIn n c + _) at h
  by_cases hm : m = n
  · simp [hm] at h ⊢; omega
  · simp [hm] at h ⊢; omega

theorem multiplicity_dropped :
    (dropFromChannel c (some m) s).multiplicityIn n d =
      s.multiplicityIn n d - if m = n ∧ d = c then 1 else 0 := by
  unfold multiplicityIn
  rw [nodeIds_dropFromChannel]
  by_cases hd : d = c
  · subst hd
    rw [if_pos rfl,List.count_erase]
    simp
  · simp [hd]

theorem occurrences_dropped :
    (dropFromChannel c (some m) s).occurrences n =
      s.occurrences n - if m = n ∧ 0 < s.multiplicityIn n c then 1 else 0 := by
  unfold dropFromChannel
  split
  · next ids hids =>
    have hmult : s.multiplicityIn n c = ids.count (some n) := by simp [multiplicityIn,nodeIds,hids]
    have h := occurrences_insert (s := s) (n := n) (c := c) (ids.erase (some m))
    have hle := multiplicity_le_occurrences (s := s) (n := n) (c := c)
    rw [List.count_erase,← hmult] at h
    by_cases hm : m = n
    · simp [hm] at h ⊢; split <;> omega
    · simp [hm] at h ⊢; omega
  · next hnone => simp [multiplicityIn,nodeIds,hnone]

end channels

section calls
variable {s : Registry} {node : ConnectNodeLoad} {r : Ref} {n m c d u : String} {l : ℤ}

lemma loadOf_eq_none : s.loadOf n = none ↔ s.availableNodes.lookup n = none := by
  simp [loadOf]

lemma loadOf_eq_some : s.loadOf n = some l ↔
    ∃ r, s.availableNodes.lookup n = some r ∧ (s.heap r).load = l := by simp [loadOf]

/-! ## start -/

theorem loadOf_start (hwf : s.WellFormed) (hm : node.id = some m) :
    (s.step (.start node)).loadOf n = if m = n then some node.load else s.loadOf n := by
  rw [step_start hm]
  by_cases h : m = n
  · subst h; simp [loadOf]
  · simp only [loadOf,queueAdd_availableNodes,putNode_availableNodes,alloc_availableNodes,
      AList.lookup_insert_ne (Ne.symm h),queueAdd_heap,putNode_heap,alloc_heap,if_neg h]
    refine Option.map_congr fun r hr => ?_
    have hne : r ≠ s.next := Nat.ne_of_lt (hwf.stored n r hr).2
    simp [hne]

theorem channelNodeMap_start (node : ConnectNodeLoad) :
    (s.step (.start node)).channelNodeMap = s.channelNodeMap := by
  cases h : node.id with
  | none => rw [step_start_null h]; rfl
  | some m => rw [step_start h]; rfl

/-! ## stop -/

theorem loadOf_stop (hm : (s.heap r).id = some m) :
    (s.step (.stop r)).loadOf n = if m = n then none else s.loadOf n := by
  rw [step_stop hm]
  by_cases h : m = n
  · subst h; simp [loadOf]
  · simp [loadOf,h,Ne.symm h]

theorem channelNodeMap_stop (r : Ref) :
    (s.step (.stop r)).channelNodeMap = s.channelNodeMap := by
  cases h : (s.heap r).id with
  | none => rw [step_stop_null h]
  | some m => rw [step_stop h]; rfl

/-! ## connect -/

lemma loadOf_setLoad (hwf : s.WellFormed) (hr : s.availableNodes.lookup m = some r)
    {t : Registry} (havail : t.availableNodes = s.availableNodes)
    (hheap : ∀ e, t.heap e = (setLoad r l s).heap e) :
    t.loadOf n = if m = n then some (toInt32 l) else s.loadOf n := by
  simp only [loadOf,havail,hheap]
  by_cases h : m = n
  · subst h; simp [hr]
  · rw [if_neg h]
    refine Option.map_congr fun r' hr' => ?_
    -- two ids cannot share an object, since each object is stored under its own id
    have hne : r' ≠ r := by
      rintro rfl
      have hid := (hwf.stored m r' hr).1.symm.trans (hwf.stored n r' hr').1
      exact h (Option.some.inj hid)
    rw [setLoad_heap_ne _ _ _ hne]

theorem step_connect_of_none (h : s.loadOf m = none) : s.step (.connect m c u) = s :=
  step_connect_unknown (loadOf_eq_none.mp h)

theorem loadOf_connect (hwf : s.WellFormed) (h : s.loadOf m = some l) :
    (s.step (.connect m c u)).loadOf n = if m = n then some (toInt32 (l+1)) else s.loadOf n := by
  obtain ⟨r,hr,rfl⟩ := loadOf_eq_some.mp h
  rw [step_connect hr]
  exact loadOf_setLoad hwf hr rfl fun _ => rfl

theorem multiplicity_connect (hwf : s.WellFormed) (h : s.loadOf m = some l) :
    (s.step (.connect m c u)).multiplicityIn n d =
      s.multiplicityIn n d + if m = n ∧ d = c then 1 else 0 := by
  obtain ⟨r,hr,rfl⟩ := loadOf_eq_some.mp h
  rw [step_connect hr,(hwf.stored m r hr).1]
  exact multiplicity_listed

theorem occurrences_connect (hwf : s.WellFormed) (h : s.loadOf m = some l) :
    (s.step (.connect m c u)).occurrences n = s.occurrences n + if m = n then 1 else 0 := by
  obtain ⟨r,hr,rfl⟩ := loadOf_eq_some.mp h
  rw [step_connect hr,(hwf.stored m r hr).1]
  exact occurrences_listed

/-! ## disconnect -/

theorem step_disconnect_of_none (h : s.loadOf m = none) : s.step (.disconnect m c u) = s :=
  step_disconnect_unknown (loadOf_eq_none.mp h)

theorem loadOf_disconnect (hwf : s.WellFormed) (h : s.loadOf m = some l) :
    (s.step (.disconnect m c u)).loadOf n =
      if m = n then some (toInt32 (l-1)) else s.loadOf n := by
  obtain ⟨r,hr,rfl⟩ := loadOf_eq_some.mp h
  rw [step_disconnect hr]
  exact loadOf_setLoad hwf hr (by simp) fun e => by rw [queueAdd_heap]; simp [setLoad]

theorem multiplicity_disconnect (hwf : s.WellFormed) (h : s.loadOf m = some l) :
    (s.step (.disconnect m c u)).multiplicityIn n d =
      s.multiplicityIn n d - if m = n ∧ d = c then 1 else 0 := by
  obtain ⟨r,hr,rfl⟩ := loadOf_eq_some.mp h
  rw [step_disconnect hr,(hwf.stored m r hr).1]
  exact multiplicity_dropped

theorem occurrences_disconnect (hwf : s.WellFormed) (h : s.loadOf m = some l) :
    (s.step (.disconnect m c u)).occurrences n =
      s.occurrences n - if m = n ∧ 0 < s.multiplicityIn n c then 1 else 0 := by
  obtain ⟨r,hr,rfl⟩ := loadOf_eq_some.mp h
  rw [step_disconnect hr,(hwf.stored m r hr).1]
  exact occurrences_dropped

end calls

/-- Only a `connect` lists a node, so a node is listed at most once a call. -/
theorem occurrences_le_length (ops : List Op) (n : String) :
    (registry.after ops).occurrences n ≤ ops.length := by
  induction ops using List.reverseRecOn with
  | nil => exact le_rfl
  | append_singleton ops op ih =>
    have hwf := wellFormed_after ops
    rw [Machine.after_snoc,List.length_append,List.length_singleton]
    set s := registry.after ops
    change (s.step op).occurrences n ≤ _
    cases op with
    | start node => unfold occurrences at ih ⊢; rw [channelNodeMap_start]; omega
    | stop r => unfold occurrences at ih ⊢; rw [channelNodeMap_stop]; omega
    | connect m c u =>
      cases hl : s.loadOf m with
      | none => rw [step_connect_of_none hl]; omega
      | some l => rw [occurrences_connect hwf hl]; split <;> omega
    | disconnect m c u =>
      cases hl : s.loadOf m with
      | none => rw [step_disconnect_of_none hl]; omega
      | some l => rw [occurrences_disconnect hwf hl]; omega

end ImSingle.Stat
