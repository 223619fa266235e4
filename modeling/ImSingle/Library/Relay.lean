import ImSingle.Library.Transition
import Mathlib.Data.List.Nodup
import Mathlib.Data.List.Perm.Basic
import Mathlib.Logic.Function.Basic

/-! Items that are issued once, routed to some of the destinations and served there. In every
order of the steps no destination serves an item twice, and what is routed to it stays. -/
namespace ImSingle.Library

/-- The items are the numbers below `issued`, in the order they were issued. -/
@[ext] structure Relay (δ : Type*) where
  issued : ℕ
  waiting : List ℕ
  inbox : δ → List ℕ
  served : δ → List ℕ

namespace Relay
variable {δ : Type*}

/-- Which of the items a step takes is left open. -/
inductive Op (δ : Type*)
  | issue
  | route (i : ℕ) (chosen : δ → Bool)
  | serve (d : δ) (i : ℕ)

def issue (s : Relay δ) : Relay δ :=
  { s with issued := s.issued + 1, waiting := s.waiting ++ [s.issued] }

def route (s : Relay δ) (i : ℕ) (chosen : δ → Bool) : Relay δ :=
  match s.waiting[i]? with
  | none => s
  | some k =>
    { s with
      waiting := s.waiting.eraseIdx i
      inbox := fun d => s.inbox d ++ if chosen d then [k] else [] }

section serve
variable [DecidableEq δ]

def serve (s : Relay δ) (d : δ) (i : ℕ) : Relay δ :=
  match (s.inbox d)[i]? with
  | none => s
  | some k =>
    { s with
      inbox := Function.update s.inbox d ((s.inbox d).eraseIdx i)
      served := Function.update s.served d (s.served d ++ [k]) }

def machine : Machine (Relay δ) (Op δ) where
  init := ⟨0,[],fun _ => [],fun _ => []⟩
  step s
    | .issue => s.issue
    | .route i chosen => s.route i chosen
    | .serve d i => s.serve d i

end serve

/-- What has come to a destination. -/
def arrived (s : Relay δ) (d : δ) : List ℕ := s.served d ++ s.inbox d

/-- An item waits, or it is somewhere at most once. -/
structure Inv (s : Relay δ) : Prop where
  waiting_nodup : s.waiting.Nodup
  waiting_lt : ∀ k ∈ s.waiting, k < s.issued
  arrived_nodup : ∀ d, (s.arrived d).Nodup
  arrived_lt : ∀ d, ∀ k ∈ s.arrived d, k < s.issued
  apart : ∀ d, ∀ k ∈ s.arrived d, k ∉ s.waiting

section Step
variable {s : Relay δ}

theorem Inv.issue (h : s.Inv) : s.issue.Inv := by
  have hfresh : ∀ {k}, k < s.issued → k ∉ [s.issued] := fun hlt hmem =>
    Nat.ne_of_lt hlt (List.mem_singleton.mp hmem)
  constructor
  · refine List.nodup_append.mpr ⟨h.waiting_nodup,List.nodup_singleton _,?_⟩
    intro k hk other hother heq
    exact hfresh (h.waiting_lt k hk) (heq ▸ hother)
  · intro k hk
    obtain hk | hk := List.mem_append.mp hk
    · exact Nat.lt_succ_of_lt (h.waiting_lt k hk)
    · exact List.mem_singleton.mp hk ▸ Nat.lt_succ_self _
  · exact h.arrived_nodup
  · exact fun d k hk => Nat.lt_succ_of_lt (h.arrived_lt d k hk)
  · intro d k hk hwaiting
    obtain hwaiting | hnew := List.mem_append.mp hwaiting
    · exact h.apart d k hk hwaiting
    · exact hfresh (h.arrived_lt d k hk) hnew

theorem Inv.route (h : s.Inv) (i : ℕ) (chosen : δ → Bool) : (s.route i chosen).Inv := by
  simp only [Relay.route]
  cases hi : s.waiting[i]? with
  | none => exact h
  | some k =>
    obtain ⟨hlt,rfl⟩ := List.getElem?_eq_some_iff.mp hi
    have hperm := List.getElem_cons_eraseIdx_perm hlt
    obtain ⟨hnot,hrest⟩ := List.nodup_cons.mp (hperm.nodup_iff.mpr h.waiting_nodup)
    have hmem : s.waiting[i] ∈ s.waiting := List.getElem_mem hlt
    have hnew : ∀ {d k}, k ∈ (if chosen d then [s.waiting[i]] else []) → k = s.waiting[i] := by
      intro d k hk
      split at hk
      · exact List.mem_singleton.mp hk
      · cases hk
    have harrived : ∀ {d k}, k ∈ s.served d ++ (s.inbox d ++ if chosen d then
        [s.waiting[i]] else []) → k ∈ s.arrived d ∨ k = s.waiting[i] := by
      intro d k hk
      rw [← List.append_assoc] at hk
      exact (List.mem_append.mp hk).imp_right hnew
    constructor
    · exact hrest
    · exact fun k hk => h.waiting_lt k (List.mem_of_mem_eraseIdx hk)
    · intro d
      change (s.served d ++ (s.inbox d ++ _)).Nodup
      rw [← List.append_assoc]
      refine List.nodup_append.mpr ⟨h.arrived_nodup d,?_,?_⟩
      · split
        · exact List.nodup_singleton _
        · exact List.nodup_nil
      · intro k hk other hother heq
        exact h.apart d k hk (heq ▸ hnew hother ▸ hmem)
    · intro d k hk
      obtain hold | rfl := harrived hk
      · exact h.arrived_lt d k hold
      · exact h.waiting_lt _ hmem
    · intro d k hk hwaiting
      obtain hold | rfl := harrived hk
      · exact h.apart d k hold (List.mem_of_mem_eraseIdx hwaiting)
      · exact hnot hwaiting

theorem arrived_serve [DecidableEq δ] (s : Relay δ) (d : δ) (i : ℕ) (e : δ) :
    ((s.serve d i).arrived e).Perm (s.arrived e) := by
  simp only [serve]
  cases hi : (s.inbox d)[i]? with
  | none => exact List.Perm.refl _
  | some k =>
    obtain ⟨hlt,rfl⟩ := List.getElem?_eq_some_iff.mp hi
    simp only [arrived]
    by_cases he : e = d
    · subst he
      rw [Function.update_self,Function.update_self,List.append_assoc,List.singleton_append]
      exact (List.getElem_cons_eraseIdx_perm hlt).append_left _
    · rw [Function.update_of_ne he,Function.update_of_ne he]

theorem Inv.serve [DecidableEq δ] (h : s.Inv) (d : δ) (i : ℕ) : (s.serve d i).Inv := by
  have hsame : (s.serve d i).waiting = s.waiting ∧ (s.serve d i).issued = s.issued := by
    simp only [Relay.serve]
    split <;> exact ⟨rfl,rfl⟩
  have hperm := arrived_serve s d i
  constructor
  · exact hsame.1 ▸ h.waiting_nodup
  · exact hsame.1 ▸ hsame.2 ▸ h.waiting_lt
  · exact fun e => (hperm e).nodup_iff.mpr (h.arrived_nodup e)
  · exact fun e k hk => hsame.2 ▸ h.arrived_lt e k ((hperm e).mem_iff.mp hk)
  · exact fun e k hk => hsame.1 ▸ h.apart e k ((hperm e).mem_iff.mp hk)

end Step

variable [DecidableEq δ]

theorem inv_after (ops : List (Op δ)) : (machine.after ops).Inv := by
  induction ops using List.reverseRecOn with
  | nil => constructor <;> simp [machine,arrived]
  | append_singleton ops op ih =>
    rw [Machine.after_snoc]
    cases op with
    | issue => exact ih.issue
    | route i chosen => exact ih.route i chosen
    | serve d i => exact ih.serve d i

/-- No destination serves an item twice. -/
theorem served_nodup (ops : List (Op δ)) (d : δ) : ((machine.after ops).served d).Nodup :=
  (List.nodup_append.mp ((inv_after ops).arrived_nodup d)).1

end Relay
end ImSingle.Library
