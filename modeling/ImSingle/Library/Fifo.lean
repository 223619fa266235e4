import ImSingle.Library.Transition
import Mathlib.Data.List.Perm.Basic
import Mathlib.Data.List.Perm.Subperm
import Mathlib.Logic.Function.Basic

/-! A first-in first-out queue whose operations are atomic, for any number of consumers: what a
concurrent implementation is compared with. A consumer that has taken an element holds it
until it hands it on. -/
namespace ImSingle.Library

theorem filterMap_range_getElem? {α : Type*} (l : List α) :
    (List.range l.length).filterMap (l[·]?) = l := by
  induction l with
  | nil => rfl
  | cons a l ih =>
    rw [List.length_cons,List.range_succ_eq_map,List.filterMap_cons,List.filterMap_map]
    simpa [Function.comp_def] using ih

/-- Elements read at different indices make up a part of the list. -/
theorem subperm_of_getElem? {α : Type*} {l : List α} {xs : List (ℕ × α)}
    (hnodup : (xs.map Prod.fst).Nodup) (h : ∀ x ∈ xs, l[x.1]? = some x.2) :
    (xs.map Prod.snd).Subperm l := by
  have hsubset : xs.map Prod.fst ⊆ List.range l.length := by
    intro i hi
    obtain ⟨x,hx,rfl⟩ := List.mem_map.mp hi
    exact List.mem_range.mpr (List.getElem?_eq_some_iff.mp (h x hx)).1
  have hread : xs.map Prod.snd = (xs.map Prod.fst).filterMap (l[·]?) := by
    rw [List.filterMap_map,← List.filterMap_eq_map]
    exact List.filterMap_congr fun x hx => (h x hx).symm
  obtain ⟨is,hperm,hsub⟩ := List.subperm_of_subset hnodup hsubset
  rw [hread]
  refine ⟨is.filterMap (l[·]?),hperm.filterMap _,?_⟩
  have hsub' := hsub.filterMap (l[·]?)
  rwa [filterMap_range_getElem?] at hsub'

/-- `dequeued` and `delivered` record the elements in the order they left the queue and the
order they were handed on. -/
@[ext] structure Fifo (τ α : Type*) where
  queue : List α
  held : τ → Option α
  dequeued : List α
  delivered : List α

namespace Fifo
variable {τ α : Type*}

inductive Op (τ α : Type*)
  | enqueue (a : α)
  | dequeue (t : τ)
  | deliver (t : τ)

variable [DecidableEq τ]

/-- A consumer holds one element at a time; what does not apply changes nothing. -/
def step (s : Fifo τ α) : Op τ α → Fifo τ α
  | .enqueue a => { s with queue := s.queue ++ [a] }
  | .dequeue t =>
    match s.queue, s.held t with
    | a :: rest, none =>
      { s with
        queue := rest
        held := Function.update s.held t (some a)
        dequeued := s.dequeued ++ [a] }
    | _, _ => s
  | .deliver t =>
    match s.held t with
    | some a =>
      { s with held := Function.update s.held t none, delivered := s.delivered ++ [a] }
    | none => s

def machine (τ α : Type*) [DecidableEq τ] : Machine (Fifo τ α) (Op τ α) where
  init := ⟨[],fun _ => none,[],[]⟩
  step := step

def enqueued (ops : List (Op τ α)) : List α :=
  ops.filterMap fun op =>
    match op with
    | .enqueue a => some a
    | .dequeue _ | .deliver _ => none

/-- First in, first out: what left the queue is a prefix of what was put in, the rest is still
in it. -/
theorem dequeued_append_queue (ops : List (Op τ α)) :
    ((machine τ α).after ops).dequeued ++ ((machine τ α).after ops).queue = enqueued ops := by
  induction ops using List.reverseRecOn with
  | nil => rfl
  | append_singleton ops op ih =>
    rw [Machine.after_snoc,enqueued,List.filterMap_append,← enqueued,← ih]
    generalize (machine τ α).after ops = s
    cases op with
    | enqueue a => simp [machine,step]
    | dequeue t =>
      simp only [machine,step]
      split
      · next hqueue _ => simp [hqueue]
      · simp
    | deliver t =>
      simp only [machine,step]
      split <;> simp

end Fifo
end ImSingle.Library
