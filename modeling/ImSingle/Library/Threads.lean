import ImSingle.Library.Transition
import Mathlib.Logic.Function.Basic
import Mathlib.Logic.Relation

/-! Threads over a shared state, one atomic action at a time, and proof outlines for them: an
assertion about the shared state, one for each thread's own program counter, and one about
each pair of program counters. An outline is valid when every action keeps the acting thread's
assertion and does not interfere with those of the others. -/
namespace ImSingle.Library

/-- What a thread's next action makes of the shared state and of its program counter. A label
`ι` says what a thread at rest begins with. -/
structure Threads (τ σ π ι : Type*) where
  init : σ
  start : π
  act : τ → σ → π → ι → σ × π

namespace Threads
variable {τ σ π ι : Type*}

structure State (τ σ π : Type*) where
  shared : σ
  pc : τ → π

section Machine
variable [DecidableEq τ] (T : Threads τ σ π ι)

/-- A run is a list of acting threads with what they do, so every interleaving is one. -/
def machine : Machine (State τ σ π) (τ × ι) where
  init := ⟨T.init,fun _ => T.start⟩
  step s a :=
    let next := T.act a.1 s.shared (s.pc a.1) a.2
    ⟨next.1,Function.update s.pc a.1 next.2⟩

@[simp] theorem machine_init_shared : T.machine.init.shared = T.init := rfl

@[simp] theorem machine_init_pc (t : τ) : T.machine.init.pc t = T.start := rfl

@[simp] theorem machine_step_shared (s : State τ σ π) (t : τ) (a : ι) :
    (T.machine.step s (t,a)).shared = (T.act t s.shared (s.pc t) a).1 := rfl

@[simp] theorem machine_step_pc_self (s : State τ σ π) (t : τ) (a : ι) :
    (T.machine.step s (t,a)).pc t = (T.act t s.shared (s.pc t) a).2 :=
  Function.update_self ..

theorem machine_step_pc_of_ne (s : State τ σ π) {t u : τ} (a : ι) (h : u ≠ t) :
    (T.machine.step s (t,a)).pc u = s.pc u := Function.update_of_ne h ..

end Machine

/-! ## One thread alone -/

/-- The next action of thread `t`, with what it has of the state to itself. -/
def Moves (T : Threads τ σ π ι) (t : τ) (a : ι) (x y : σ × π) : Prop := T.act t x.1 x.2 a = y

/-- Moves of one thread are a run in which no other thread acts. -/
theorem runFrom_of_moves [DecidableEq τ] {T : Threads τ σ π ι} {s : State τ σ π} {t : τ} {a : ι}
    {y : σ × π} (h : Relation.ReflTransGen (T.Moves t a) (s.shared,s.pc t) y) :
    ∃ count, T.machine.runFrom s (List.replicate count (t,a)) =
      ⟨y.1,Function.update s.pc t y.2⟩ := by
  induction h with
  | refl =>
    refine ⟨0,?_⟩
    rw [Function.update_eq_self]
    rfl
  | @tail y z _ hmove ih =>
    obtain ⟨count,hrun⟩ := ih
    refine ⟨count + 1,?_⟩
    have hact : T.act t y.1 (Function.update s.pc t y.2 t) a = z := by
      rw [Function.update_self]
      exact hmove
    rw [List.replicate_succ',T.machine.runFrom_append,hrun]
    change State.mk (T.act t y.1 (Function.update s.pc t y.2 t) a).1
      (Function.update (Function.update s.pc t y.2) t
        (T.act t y.1 (Function.update s.pc t y.2 t) a).2) = _
    rw [hact,Function.update_idem]

/-! ## Proof outlines -/

/-- The assertions of a proof outline. -/
structure Outline (τ σ π : Type*) where
  shared : σ → Prop
  here : τ → σ → π → Prop
  apart : π → π → Prop

structure Outline.Holds (O : Outline τ σ π) (s : State τ σ π) : Prop where
  shared : O.shared s.shared
  here : ∀ t, O.here t s.shared (s.pc t)
  apart : ∀ t u, t ≠ u → O.apart (s.pc t) (s.pc u)

/-- The outline is inductive for the actions that meet `ok`. -/
structure Outline.Valid (O : Outline τ σ π) (T : Threads τ σ π ι)
    (ok : τ → σ → π → ι → Prop) : Prop where
  init_shared : O.shared T.init
  init_here : ∀ t, O.here t T.init T.start
  init_apart : O.apart T.start T.start
  symm : ∀ p q, O.apart p q → O.apart q p
  step : ∀ t sh p a, O.shared sh → O.here t sh p → ok t sh p a →
    O.shared (T.act t sh p a).1 ∧ O.here t (T.act t sh p a).1 (T.act t sh p a).2
  free : ∀ t u sh p q a, t ≠ u → O.shared sh → O.here t sh p → O.here u sh q → O.apart p q →
    ok t sh p a → O.here u (T.act t sh p a).1 q ∧ O.apart (T.act t sh p a).2 q

variable [DecidableEq τ] {T : Threads τ σ π ι} {ok : τ → σ → π → ι → Prop}
  {O : Outline τ σ π}

/-- The guard of a run whose actions all meet `ok`. -/
def guard (_ : Threads τ σ π ι) (ok : τ → σ → π → ι → Prop) (_ : List (τ × ι))
    (s : State τ σ π) (a : τ × ι) : Prop := ok a.1 s.shared (s.pc a.1) a.2

instance (ok : τ → σ → π → ι → Prop) [∀ t sh p a, Decidable (ok t sh p a)]
    (past : List (τ × ι)) (s : State τ σ π) (a : τ × ι) : Decidable (T.guard ok past s a) :=
  inferInstanceAs (Decidable (ok a.1 s.shared (s.pc a.1) a.2))

theorem Outline.Valid.holds_step (h : O.Valid T ok) {s : State τ σ π} (hs : O.Holds s) {t : τ}
    {a : ι} (hok : ok t s.shared (s.pc t) a) : O.Holds (T.machine.step s (t,a)) := by
  obtain ⟨hshared,hown⟩ := h.step t s.shared (s.pc t) a hs.shared (hs.here t) hok
  have hfree := fun u (hu : t ≠ u) =>
    h.free t u s.shared (s.pc t) (s.pc u) a hu hs.shared (hs.here t) (hs.here u)
      (hs.apart t u hu) hok
  refine ⟨hshared,fun u => ?_,fun u v huv => ?_⟩
  · by_cases hu : u = t
    · subst hu
      rw [machine_step_pc_self]
      exact hown
    · rw [machine_step_pc_of_ne _ _ _ hu]
      exact (hfree u (Ne.symm hu)).1
  · by_cases hu : u = t
    · subst hu
      rw [machine_step_pc_self,machine_step_pc_of_ne _ _ _ (Ne.symm huv)]
      exact (hfree v huv).2
    · by_cases hv : v = t
      · subst hv
        rw [machine_step_pc_self,machine_step_pc_of_ne _ _ _ hu]
        exact h.symm _ _ (hfree u (Ne.symm hu)).2
      · rw [machine_step_pc_of_ne _ _ _ hu,machine_step_pc_of_ne _ _ _ hv]
        exact hs.apart u v huv

/-- A valid outline holds at the end of every run. -/
theorem Outline.Valid.holds (h : O.Valid T ok) {ops : List (τ × ι)}
    (hrun : T.machine.Meets (T.guard ok) ops) : O.Holds (T.machine.after ops) := by
  refine Machine.invariant (P := fun _ s => O.Holds s) ?_ (fun past a _ hs hok => ?_) hrun
  · exact ⟨h.init_shared,h.init_here,fun _ _ _ => h.init_apart⟩
  · exact h.holds_step hs hok

end Threads
end ImSingle.Library
