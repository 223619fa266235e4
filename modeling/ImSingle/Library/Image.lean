import ImSingle.Library.Java
import ImSingle.Library.Transition

/-! Forgetting a part of the state that calls do not look at: what a call does to the image of a
state is the image of what it does to the state. This carries over from the parts of a call to
the call. -/
namespace ImSingle.Library

namespace JavaMap
variable {K V W : Type}

/-- The same keys in the same order, each with the image of its value. -/
def mapValues (f : V → W) (m : JavaMap K V) : JavaMap K W :=
  ⟨m.entries.map (.map id fun _ => f),m.nodupKeys.map₂ fun _ => f⟩

variable (f : V → W) (m : JavaMap K V)

@[simp] theorem values_mapValues : values (mapValues f m) = (values m).map f := by
  rw [values,values,mapValues,List.map_map,List.map_map]
  rfl

variable [DecidableEq K] (k : K)

@[simp] theorem lookup_mapValues : (mapValues f m).lookup k = (m.lookup k).map f :=
  List.dlookup_map₂ k

@[simp] theorem erase_mapValues : (mapValues f m).erase k = mapValues f (m.erase k) := by
  apply AList.ext
  change List.kerase k (m.entries.map (.map id fun _ => f) : List ((_ : K) × W)) =
    ((m.entries.kerase k).map (.map id fun _ => f) : List ((_ : K) × W))
  induction m.entries with
  | nil => rfl
  | cons entry entries ih =>
    obtain ⟨k',v⟩ := entry
    by_cases hk : k = k'
    · subst hk
      simp [Sigma.map]
    · rw [List.map_cons,List.kerase_cons_ne (by simpa [Sigma.map] using hk),
        List.kerase_cons_ne hk,ih,List.map_cons]

@[simp] theorem insert_mapValues (v : V) :
    (mapValues f m).insert k (f v) = mapValues f (m.insert k v) := by
  apply AList.ext
  have herase := congrArg AList.entries (erase_mapValues f m k)
  exact congrArg (⟨k,f v⟩ :: ·) herase

end JavaMap

namespace Java
variable {σ τ α β γ δ : Type} {F : σ → τ} {G : α → β} {H : γ → δ}

def image (F : σ → τ) (G : α → β) : EStateM.Result Exn σ α → EStateM.Result Exn τ β
  | .ok a s => .ok (G a) (F s)
  | .error e s => .error e (F s)

/-- `call'` does on images what `call` does: it returns the image of the same value, or throws
the same exception. -/
def Maps (F : σ → τ) (G : α → β) (call : Java σ α) (call' : Java τ β) : Prop :=
  ∀ s, call'.run (F s) = image F G (call.run s)

theorem maps_pure (a : α) : Maps F G (pure a) (pure (G a)) := fun _ => rfl

theorem maps_throw (e : Exn) : Maps F G (throw e) (throw e) := fun _ => rfl

theorem maps_get : Maps F F get get := fun _ => rfl

theorem maps_modify {g : σ → σ} {g' : τ → τ} (h : ∀ s, g' (F s) = F (g s)) :
    Maps F id (modify g) (modify g') := fun s => congrArg (EStateM.Result.ok ()) (h s)

theorem maps_modifyGet {g : σ → α × σ} {g' : τ → β × τ}
    (h : ∀ s, g' (F s) = (G (g s).1,F (g s).2)) : Maps F G (modifyGet g) (modifyGet g') :=
  fun s => congrArg (fun next : β × τ => EStateM.Result.ok next.1 next.2) (h s)

theorem maps_nonNull {a : Option α} {b : Option β} (h : a.map G = b) :
    Maps F G (nonNull a) (nonNull b) := by
  subst h
  cases a with
  | none => exact maps_throw _
  | some a => exact maps_pure a

section Maps
variable {call : Java σ α} {call' : Java τ β}

theorem Maps.bind {next : α → Java σ γ} {next' : β → Java τ δ} (h : Maps F G call call')
    (hnext : ∀ a, Maps F H (next a) (next' (G a))) :
    Maps F H (call >>= next) (call' >>= next') := by
  intro s
  rw [EStateM.run_bind,EStateM.run_bind,h s]
  cases call.run s with
  | ok a t => exact hnext a t
  | error e t => rfl

theorem Maps.finalState (h : Maps F G call call') (s : σ) :
    finalState (call'.run (F s)) = F (Java.finalState (call.run s)) := by
  rw [h s]
  cases call.run s <;> rfl

theorem maps_forM {f : α → Java σ Unit} {f' : β → Java τ Unit}
    (h : ∀ a, Maps F id (f a) (f' (G a))) (as : List α) :
    Maps F id (as.forM f) ((as.map G).forM f') := by
  induction as with
  | nil => exact maps_pure ()
  | cons a as ih => exact (h a).bind fun _ => ih

end Maps
end Java

/-- Runs of labels that are related one by one keep what steps of related labels keep. -/
theorem Machine.runFrom_forall₂ {σ ι : Type*} {M : Machine σ ι} {R : σ → σ → Prop}
    {Q : ι → ι → Prop} (hstep : ∀ s s' a a', R s s' → Q a a' → R (M.step s a) (M.step s' a'))
    {ops ops' : List ι} (h : List.Forall₂ Q ops ops') {s s' : σ} (hs : R s s') :
    R (M.runFrom s ops) (M.runFrom s' ops') := by
  induction h generalizing s s' with
  | nil => exact hs
  | cons ha _ ih => exact ih (hstep _ _ _ _ hs ha)

end ImSingle.Library
