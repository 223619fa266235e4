import Mathlib.Data.List.Induction
import Mathlib.Tactic.Common

/-! Runs of a deterministic labelled machine. A label names everything a step leaves open
(which party moves, with what data), so that a run is the list of its labels and every
interleaving is one run. Guards and properties may read the labels already handled. -/
namespace ImSingle.Library

/-- A start state and what one labelled step makes of a state. -/
structure Machine (σ ι : Type*) where
  init : σ
  step : σ → ι → σ

namespace Machine
variable {σ ι : Type*} (M : Machine σ ι)

def runFrom (s : σ) (ops : List ι) : σ := ops.foldl M.step s

/-- The state a run ends in. -/
def after (ops : List ι) : σ := M.runFrom M.init ops

/-- Every step of the run meets `ok`, a condition on the labels handled so far, the state
before the step and the step's own label. -/
def MeetsFrom (ok : List ι → σ → ι → Prop) (past : List ι) (s : σ) : List ι → Prop
  | [] => True
  | a :: rest => ok past s a ∧ MeetsFrom ok (past ++ [a]) (M.step s a) rest

def Meets (ok : List ι → σ → ι → Prop) (ops : List ι) : Prop := M.MeetsFrom ok [] M.init ops

/-- The property holds in every state of the run, the first and the last included. -/
def AlwaysFrom (P : List ι → σ → Prop) (past : List ι) (s : σ) : List ι → Prop
  | [] => P past s
  | a :: rest => P past s ∧ AlwaysFrom P (past ++ [a]) (M.step s a) rest

def Always (P : List ι → σ → Prop) (ops : List ι) : Prop := M.AlwaysFrom P [] M.init ops

instance decidableMeetsFrom (ok : List ι → σ → ι → Prop) [∀ past s a, Decidable (ok past s a)]
    (past : List ι) (s : σ) (ops : List ι) : Decidable (M.MeetsFrom ok past s ops) :=
  match ops with
  | [] => inferInstanceAs (Decidable True)
  | a :: rest =>
    have := decidableMeetsFrom ok (past ++ [a]) (M.step s a) rest
    inferInstanceAs (Decidable (_ ∧ _))

instance (ok : List ι → σ → ι → Prop) [∀ past s a, Decidable (ok past s a)] (ops : List ι) :
    Decidable (M.Meets ok ops) := inferInstanceAs (Decidable (M.MeetsFrom ok [] M.init ops))

theorem runFrom_append (s : σ) (ops ops' : List ι) :
    M.runFrom s (ops ++ ops') = M.runFrom (M.runFrom s ops) ops' := List.foldl_append ..

@[simp] theorem after_nil : M.after [] = M.init := rfl

@[simp] theorem after_snoc (ops : List ι) (a : ι) :
    M.after (ops ++ [a]) = M.step (M.after ops) a := by simp [after, runFrom]

theorem meetsFrom_snoc (ok : List ι → σ → ι → Prop) (past : List ι) (s : σ) (ops : List ι)
    (a : ι) : M.MeetsFrom ok past s (ops ++ [a]) ↔
      M.MeetsFrom ok past s ops ∧ ok (past ++ ops) (M.runFrom s ops) a := by
  induction ops generalizing past s with
  | nil => simp [MeetsFrom, runFrom]
  | cons b ops ih =>
    simp only [List.cons_append, MeetsFrom, ih, List.append_assoc, List.nil_append, and_assoc]
    rfl

theorem alwaysFrom_snoc (P : List ι → σ → Prop) (past : List ι) (s : σ) (ops : List ι) (a : ι) :
    M.AlwaysFrom P past s (ops ++ [a]) ↔
      M.AlwaysFrom P past s ops ∧ P (past ++ (ops ++ [a])) (M.runFrom s (ops ++ [a])) := by
  induction ops generalizing past s with
  | nil => simp [AlwaysFrom, runFrom]
  | cons b ops ih =>
    simp only [List.cons_append, AlwaysFrom, ih, List.append_assoc, List.nil_append, and_assoc]
    rfl

theorem meetsFrom_append (ok : List ι → σ → ι → Prop) (past : List ι) (s : σ)
    (ops ops' : List ι) : M.MeetsFrom ok past s (ops ++ ops') ↔
      M.MeetsFrom ok past s ops ∧ M.MeetsFrom ok (past ++ ops) (M.runFrom s ops) ops' := by
  induction ops generalizing past s with
  | nil => simp [MeetsFrom,runFrom]
  | cons b ops ih =>
    simp only [List.cons_append,MeetsFrom,ih,List.append_assoc,List.nil_append,and_assoc]
    rfl

variable {M} {ok C : List ι → σ → ι → Prop} {P : List ι → σ → Prop} {ops : List ι} {a : ι}

@[simp] theorem meets_nil : M.Meets ok [] := trivial

theorem meets_snoc : M.Meets ok (ops ++ [a]) ↔ M.Meets ok ops ∧ ok ops (M.after ops) a :=
  M.meetsFrom_snoc ok [] M.init ops a

@[simp] theorem always_nil : M.Always P [] ↔ P [] M.init := Iff.rfl

theorem always_snoc : M.Always P (ops ++ [a]) ↔
    M.Always P ops ∧ P (ops ++ [a]) (M.after (ops ++ [a])) :=
  M.alwaysFrom_snoc P [] M.init ops a

theorem Always.last (h : M.Always P ops) : P ops (M.after ops) := by
  induction ops using List.reverseRecOn with
  | nil => exact always_nil.mp h
  | append_singleton ops a _ => exact (always_snoc.mp h).2

theorem meetsFrom_of_forall {past : List ι} {s : σ} (h : ∀ past s a, ok past s a) :
    M.MeetsFrom ok past s ops := by
  induction ops generalizing past s with
  | nil => trivial
  | cons a ops ih => exact ⟨h _ _ _, ih⟩

theorem meets_of_forall (h : ∀ past s a, ok past s a) : M.Meets ok ops := by
  induction ops using List.reverseRecOn with
  | nil => exact meets_nil
  | append_singleton ops a ih => exact meets_snoc.mpr ⟨ih, h _ _ _⟩

theorem Meets.mono (h : M.Meets ok ops) (hC : ∀ past s a, ok past s a → C past s a) :
    M.Meets C ops := by
  induction ops using List.reverseRecOn with
  | nil => exact meets_nil
  | append_singleton ops a ih =>
    obtain ⟨hpre,ha⟩ := meets_snoc.mp h
    exact meets_snoc.mpr ⟨ih hpre, hC _ _ _ ha⟩

/-- A guard for each of a family is a guard for all of them. -/
theorem meets_forall_iff {κ : Type*} {ok : κ → List ι → σ → ι → Prop} :
    M.Meets (fun past s a => ∀ x, ok x past s a) ops ↔ ∀ x, M.Meets (ok x) ops := by
  induction ops using List.reverseRecOn with
  | nil => exact iff_of_true meets_nil fun _ => meets_nil
  | append_singleton ops a ih => simp only [meets_snoc,ih,forall_and]

/-- A condition on the labels alone, known of every prefix of the run, joins the guard. -/
theorem Meets.and_prefix {Q : List ι → ι → Prop} (h : M.Meets ok ops)
    (hQ : ∀ past a rest, ops = past ++ a :: rest → Q past a) :
    M.Meets (fun past s a => ok past s a ∧ Q past a) ops := by
  induction ops using List.reverseRecOn with
  | nil => exact meets_nil
  | append_singleton ops a ih =>
    obtain ⟨hpre,ha⟩ := meets_snoc.mp h
    refine meets_snoc.mpr ⟨ih hpre fun past b rest hops => hQ past b (rest ++ [a]) ?_, ha, ?_⟩
    · simp [hops]
    · exact hQ ops a [] rfl

theorem Meets.and_mem {Q : ι → Prop} (h : M.Meets ok ops) (hQ : ∀ a ∈ ops, Q a) :
    M.Meets (fun past s a => ok past s a ∧ Q a) ops :=
  h.and_prefix (Q := fun _ a => Q a) fun _ a _ hops => hQ a (by simp [hops])

/-- What holds at the start and is kept by every enabled step holds at the end of every run. -/
theorem invariant (h0 : P [] M.init)
    (hstep : ∀ past a, M.Meets ok past → P past (M.after past) → ok past (M.after past) a →
      P (past ++ [a]) (M.step (M.after past) a)) (h : M.Meets ok ops) : P ops (M.after ops) := by
  induction ops using List.reverseRecOn with
  | nil => exact h0
  | append_singleton ops a ih =>
    obtain ⟨hpre,ha⟩ := meets_snoc.mp h
    rw [after_snoc]
    exact hstep ops a hpre (ih hpre) ha

/-- What holds after a part of a run and is kept by every enabled step holds at its end. -/
theorem invariant_from {past rest : List ι} (h0 : P past (M.after past))
    (hstep : ∀ past a, M.Meets ok past → P past (M.after past) → ok past (M.after past) a →
      P (past ++ [a]) (M.step (M.after past) a)) (h : M.Meets ok (past ++ rest)) :
    P (past ++ rest) (M.after (past ++ rest)) := by
  induction rest using List.reverseRecOn with
  | nil => rwa [List.append_nil]
  | append_singleton rest a ih =>
    rw [← List.append_assoc] at h ⊢
    obtain ⟨hpre,ha⟩ := meets_snoc.mp h
    rw [after_snoc]
    exact hstep _ a hpre (ih hpre) ha

theorem always_of_forall (h : M.Meets ok ops)
    (hP : ∀ past, M.Meets ok past → P past (M.after past)) : M.Always P ops := by
  induction ops using List.reverseRecOn with
  | nil => exact hP [] meets_nil
  | append_singleton ops a ih =>
    exact always_snoc.mpr ⟨ih (meets_snoc.mp h).1, hP _ h⟩

/-- When one enabled step keeps a property exactly if it meets `C`, a run keeps it throughout
exactly if all its steps meet `C`. -/
theorem always_iff_meets (h0 : P [] M.init)
    (hstep : ∀ past a, M.Meets ok past → P past (M.after past) → ok past (M.after past) a →
      (P (past ++ [a]) (M.step (M.after past) a) ↔ C past (M.after past) a))
    (h : M.Meets ok ops) : M.Always P ops ↔ M.Meets C ops := by
  induction ops using List.reverseRecOn with
  | nil => exact ⟨fun _ => meets_nil, fun _ => always_nil.mpr h0⟩
  | append_singleton ops a ih =>
    obtain ⟨hpre,ha⟩ := meets_snoc.mp h
    rw [always_snoc,meets_snoc,after_snoc]
    constructor
    · rintro ⟨hall,hlast⟩
      exact ⟨(ih hpre).mp hall, (hstep ops a hpre hall.last ha).mp hlast⟩
    · rintro ⟨hC,hCa⟩
      have hall := (ih hpre).mpr hC
      exact ⟨hall, (hstep ops a hpre hall.last ha).mpr hCa⟩

/-- Forward simulation along a projection: when every enabled step is matched by enabled steps
of `N`, every run of `M` projects to a run of `N`. -/
theorem simulation {τ κ : Type*} {N : Machine τ κ} {ok' : List κ → τ → κ → Prop} (f : σ → τ)
    (h0 : f M.init = N.init)
    (hstep : ∀ past a past', M.Meets ok past → ok past (M.after past) a →
      N.after past' = f (M.after past) → ∃ ops', N.MeetsFrom ok' past' (f (M.after past)) ops' ∧
        f (M.step (M.after past) a) = N.runFrom (f (M.after past)) ops')
    (h : M.Meets ok ops) : ∃ ops', N.Meets ok' ops' ∧ f (M.after ops) = N.after ops' := by
  induction ops using List.reverseRecOn with
  | nil => exact ⟨[],meets_nil,h0⟩
  | append_singleton ops a ih =>
    obtain ⟨hpre,ha⟩ := meets_snoc.mp h
    obtain ⟨past',hmeets,hafter⟩ := ih hpre
    obtain ⟨ops',hmore,hnext⟩ := hstep ops a past' hpre ha hafter.symm
    rw [hafter] at hmore hnext
    refine ⟨past' ++ ops',(N.meetsFrom_append ok' [] N.init past' ops').mpr ⟨hmeets,hmore⟩,?_⟩
    rw [after_snoc,hnext]
    exact (N.runFrom_append N.init past' ops').symm

end Machine
end ImSingle.Library
