import ImSingle.Stat.Counters

/-! An available node's load against its occurrences in the channel lists. A start under an id
that is still listed, and a disconnect from a channel where the node is not listed, change one
of the two counters and not the other. -/
namespace ImSingle.Stat
open Library Registry

/-- Every available node has a non-negative load, which is how often it is listed. -/
def LoadConserved (s : Registry) : Prop :=
  ∀ n l, s.loadOf n = some l → 0 ≤ l ∧ l = s.occurrences n

/-- Fresh starts with load 0 and stops of available nodes. Connects and disconnects, as
`MessageService.eventHandler` makes them, may name any node at any time. -/
def EventGuard (s : Registry) (op : Op) : Prop :=
  StartsFresh s op ∧ StartsUnloaded op ∧ StopsAvailable s op

instance (s : Registry) : DecidablePred (EventGuard s) := fun _ =>
  inferInstanceAs (Decidable (_ ∧ _ ∧ _))

/-- The started id is listed nowhere, and an available node is disconnected from a channel for
which it is listed. -/
def CountersInStep (s : Registry) : Op → Prop
  | .start node => ∀ n ∈ node.id, s.occurrences n = 0
  | .disconnect n c _ => s.loadOf n = none ∨ 0 < s.multiplicityIn n c
  | _ => True

instance (s : Registry) : DecidablePred (CountersInStep s) := fun op =>
  match op with
  | .start _ | .disconnect _ _ _ => by unfold CountersInStep; infer_instance
  | .stop _ | .connect _ _ _ => .isTrue trivial

variable {s : Registry} {node : ConnectNodeLoad} {r : Ref} {m c u : String}

theorem loadConserved_start (h : LoadConserved s) (hwf : s.WellFormed) (hm : node.id = some m)
    (hload : node.load = 0) :
    LoadConserved (s.step (.start node)) ↔ s.occurrences m = 0 := by
  have hocc : ∀ n, (s.step (.start node)).occurrences n = s.occurrences n := by
    intro n; unfold occurrences; rw [channelNodeMap_start]
  unfold LoadConserved
  simp only [loadOf_start hwf hm,hocc,hload]
  constructor
  · intro hall
    have := hall m 0 (by simp)
    omega
  · intro hzero n l hl
    split at hl
    · next heq =>
      subst heq
      obtain rfl := Option.some.inj hl
      omega
    · exact h n l hl

theorem loadConserved_stop (h : LoadConserved s) (hm : (s.heap r).id = some m) :
    LoadConserved (s.step (.stop r)) := by
  intro n l hl
  rw [loadOf_stop hm] at hl
  split at hl
  · cases hl
  · unfold occurrences
    rw [channelNodeMap_stop]
    exact h n l hl

theorem loadConserved_connect (h : LoadConserved s) (hwf : s.WellFormed)
    (hbound : s.occurrences m + 1 < 2^31) : LoadConserved (s.step (.connect m c u)) := by
  cases hm : s.loadOf m with
  | none => rwa [step_connect_of_none hm]
  | some k =>
    intro n l hl
    rw [loadOf_connect hwf hm] at hl
    rw [occurrences_connect hwf hm]
    split at hl
    · next heq =>
      subst heq
      obtain rfl := Option.some.inj hl
      have := h m k hm
      rw [toInt32_eq (by omega) (by omega),if_pos rfl]
      omega
    · next hne => simpa [hne] using h n l hl

theorem loadConserved_disconnect (h : LoadConserved s) (hwf : s.WellFormed)
    (hbound : s.occurrences m + 1 < 2^31) :
    LoadConserved (s.step (.disconnect m c u)) ↔
      s.loadOf m = none ∨ 0 < s.multiplicityIn m c := by
  cases hm : s.loadOf m with
  | none => simpa [step_disconnect_of_none hm] using h
  | some k =>
    have hk := h m k hm
    have hle := multiplicity_le_occurrences (s := s) (n := m) (c := c)
    have hdec : toInt32 (k-1) = k-1 := toInt32_eq (by omega) (by omega)
    unfold LoadConserved
    simp only [loadOf_disconnect hwf hm,occurrences_disconnect hwf hm,hdec]
    constructor
    · intro hall
      have := hall m (k-1) (by simp)
      right
      by_contra hzero
      simp [hzero] at this
      omega
    · rintro (hnone | hpos) n l hl
      · cases hnone
      · split at hl
        · next heq =>
          subst heq
          obtain rfl := Option.some.inj hl
          rw [if_pos ⟨rfl,hpos⟩]
          omega
        · next hne => simpa [hne] using h n l hl

/-- A run of fewer than 2^31 calls keeps load and occurrences equal throughout exactly if every
start finds its id listed nowhere and every disconnect of an available node finds it listed. -/
theorem load_conserved_iff (ops : List Op) (h : registry.Meets (fun _ => EventGuard) ops)
    (hlen : ops.length < 2^31) :
    registry.Always (fun _ => LoadConserved) ops ↔
      registry.Meets (fun _ => CountersInStep) ops := by
  have hprefix := h.and_prefix (Q := fun past _ => past.length + 1 < 2^31) (by
    rintro past op rest rfl
    simp at hlen
    omega)
  refine Machine.always_iff_meets (fun n l hl => by cases hl) ?_ hprefix
  rintro past op _ ih ⟨⟨hfresh,hload,hstop⟩,hlt⟩
  have hwf := wellFormed_after past
  have hocc := occurrences_le_length past
  set s := registry.after past
  cases op with
  | start node =>
    obtain ⟨m,hm,_⟩ := hfresh
    refine (loadConserved_start ih hwf hm hload).trans ?_
    simp [CountersInStep,Option.mem_def.mp hm]
  | stop r =>
    obtain ⟨m,hm⟩ := mem_getAvailableList.mp hstop
    exact iff_of_true (loadConserved_stop ih (hwf.stored m r hm).1) trivial
  | connect m c u =>
    have := hocc m
    exact iff_of_true (loadConserved_connect ih hwf (by omega)) trivial
  | disconnect m c u =>
    have := hocc m
    exact loadConserved_disconnect ih hwf (by omega)

/-- An OFFLINE whose ONLINE was never applied. -/
def unmatchedRun : List Op :=
  [.start ⟨some "1",some "127.0.0.1",8080,18080,0⟩,.disconnect "1" "c" "u"]

/-- The load drops below zero. -/
theorem unmatchedRun_negative : registry.Meets (fun _ => EventGuard) unmatchedRun ∧
    unmatchedRun.length < 2^31 ∧ (registry.after unmatchedRun).loadOf "1" = some (-1) ∧
    ¬ registry.Always (fun _ => LoadConserved) unmatchedRun := by
  refine ⟨by decide, by decide, by decide, fun h => ?_⟩
  have hneg := (h.last "1" (-1) (by decide)).1
  exact absurd hneg (by decide)

theorem load_conserved_matched : registry.Always (fun _ => LoadConserved)
    [.start ⟨some "1",some "127.0.0.1",8080,18080,0⟩,.connect "1" "c" "u",
      .disconnect "1" "c" "u"] :=
  (load_conserved_iff _ (by decide) (by decide)).mpr (by decide)

end ImSingle.Stat
