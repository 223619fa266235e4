import Mathlib.Data.List.AList
import Mathlib.Algebra.Group.Int.Defs
import Mathlib.Algebra.Group.Nat.Defs

/-! The parts of the Java language and library the services rely on: methods that change
state and may throw, null references, 32-bit integers and hash maps. -/
namespace ImSingle.Library

/-- The exceptions the modelled methods can raise. `external` stands for one thrown by a
collaborator that is not modelled. -/
inductive Exn
  | nullPointer
  | indexOutOfBounds
  | numberFormat
  | external
  deriving DecidableEq, Repr

/-- A method over the state `σ`: what it changed before throwing stays changed. -/
abbrev Java (σ α : Type) := EStateM Exn σ α

namespace Java
variable {σ α : Type}

/-- Using a reference that may be null. -/
def nonNull : Option α → Java σ α
  | some a => pure a
  | none => throw .nullPointer

/-- The state a call leaves behind, whether it returned or threw. -/
def finalState : EStateM.Result Exn σ α → σ
  | .ok _ s => s
  | .error _ s => s

def returned : EStateM.Result Exn σ α → Bool
  | .ok _ _ => true
  | .error _ _ => false

@[simp] theorem run_nonNull_some (a : α) (s : σ) :
    (nonNull (some a) : Java σ α).run s = .ok a s := rfl
@[simp] theorem run_nonNull_none (s : σ) :
    (nonNull none : Java σ α).run s = .error .nullPointer s := rfl
@[simp] theorem finalState_ok (a : α) (s : σ) :
    finalState (EStateM.Result.ok a s : EStateM.Result Exn σ α) = s := rfl
@[simp] theorem finalState_error (e : Exn) (s : σ) :
    finalState (EStateM.Result.error e s : EStateM.Result Exn σ α) = s := rfl

/-- A call whose exceptions are only logged leaves the same state. -/
@[simp] theorem finalState_tryCatch (call : Java σ Unit) (s : σ) :
    finalState ((tryCatch call fun _ => pure ()).run s) = finalState (call.run s) := by
  cases h : call s with
  | ok a t => simp [tryCatch,tryCatchThe,MonadExceptOf.tryCatch,EStateM.tryCatch,EStateM.run,h]
  | error e t =>
    simp only [tryCatch,tryCatchThe,MonadExceptOf.tryCatch,EStateM.tryCatch,EStateM.run,h]
    rfl

theorem eq_error_of_not_returned {result : EStateM.Result Exn σ α} (h : returned result = false) :
    ∃ e, result = .error e (finalState result) := by
  cases result with
  | ok a s => cases h
  | error e s => exact ⟨e,rfl⟩

variable {β : Type} {s : σ}

/-- A loop of calls that only read collects what they return. -/
theorem run_mapM_of_reads {f : α → Java σ β} {g : α → β} {as : List α}
    (h : ∀ a ∈ as, (f a).run s = .ok (g a) s) : (as.mapM f).run s = .ok (as.map g) s := by
  induction as with
  | nil => rfl
  | cons a as ih =>
    have ha : f a s = .ok (g a) s := h a (by simp)
    have has : (as.mapM f) s = .ok (as.map g) s := ih fun b hb => h b (by simp [hb])
    simp [EStateM.run,bind,EStateM.bind,ha,has,pure,EStateM.pure]

theorem run_forM_cons {f : α → Java σ Unit} {a : α} {as : List α} {t : σ}
    (h : (f a).run s = .ok () t) : ((a :: as).forM f).run s = (as.forM f).run t := by
  change (f a >>= fun _ => as.forM f).run s = _
  rw [EStateM.run_bind,h]

theorem run_forM_cons_error {f : α → Java σ Unit} {a : α} {as : List α} {e : Exn} {t : σ}
    (h : (f a).run s = .error e t) : ((a :: as).forM f).run s = .error e t := by
  change (f a >>= fun _ => as.forM f).run s = _
  rw [EStateM.run_bind,h]

/-! ### What a call leaves alone -/

section Keeps
variable {τ : Type} {f : σ → τ} {call : Java σ α}

/-- The call leaves a part of the state as it is, whether it returns or throws. -/
def Keeps (f : σ → τ) (call : Java σ α) : Prop := ∀ s, f (finalState (call.run s)) = f s

theorem keeps_pure (a : α) : Keeps f (pure a : Java σ α) := fun _ => rfl

theorem keeps_throw (e : Exn) : Keeps f (throw e : Java σ α) := fun _ => rfl

theorem keeps_get : Keeps f (get : Java σ σ) := fun _ => rfl

theorem keeps_nonNull (a : Option α) : Keeps f (nonNull a : Java σ α) := by
  cases a with
  | none => exact keeps_throw _
  | some a => exact keeps_pure a

theorem keeps_modify {g : σ → σ} (h : ∀ s, f (g s) = f s) : Keeps f (modify g : Java σ Unit) := h

theorem Keeps.bind {next : α → Java σ β} (h : Keeps f call) (hnext : ∀ a, Keeps f (next a)) :
    Keeps f (call >>= next) := by
  intro s
  have hcall := h s
  rw [EStateM.run_bind]
  cases hrun : call.run s with
  | ok a t =>
    rw [hrun] at hcall
    exact (hnext a t).trans hcall
  | error e t =>
    rw [hrun] at hcall
    exact hcall

end Keeps

section loop
variable {f : α → Java σ Unit} {g : σ → α → σ} {P : σ → Prop} {as : List α}

/-- A loop of calls that all return, each keeping what the next ones need. -/
theorem run_forM_of_returns
    (h : ∀ a ∈ as, ∀ s, P s → (f a).run s = .ok () (g s a) ∧ P (g s a)) (hs : P s) :
    (as.forM f).run s = .ok () (as.foldl g s) := by
  induction as generalizing s with
  | nil => rfl
  | cons a as ih =>
    obtain ⟨ha,hP⟩ := h a (by simp) s hs
    rw [run_forM_cons ha]
    exact ih (fun b hb => h b (by simp [hb])) hP

/-- A loop ends at the first call that throws. -/
theorem run_forM_of_throws {a : α} {after : List α} {e : Exn}
    (h : ∀ a ∈ as, ∀ s, P s → (f a).run s = .ok () (g s a) ∧ P (g s a)) (hs : P s)
    (ha : ∀ s, P s → (f a).run s = .error e s) :
    ((as ++ a :: after).forM f).run s = .error e (as.foldl g s) := by
  induction as generalizing s with
  | nil => exact run_forM_cons_error (ha s hs)
  | cons b as ih =>
    obtain ⟨hb,hP⟩ := h b (by simp) s hs
    rw [List.cons_append,run_forM_cons hb]
    exact ih (fun c hc => h c (by simp [hc])) hP

end loop

end Java

/-- A reference in a concatenation. -/
def textOf : Option String → String
  | some text => text
  | none => "null"

/-! ## Computations without a state -/

theorem bind_eq_ok {α β : Type} {x : Except Exn α} {f : α → Except Exn β} {b : β} :
    x >>= f = .ok b ↔ ∃ a, x = .ok a ∧ f a = .ok b := by
  cases x with
  | error e => exact iff_of_false (fun h => nomatch h) fun ⟨_,h,_⟩ => nomatch h
  | ok a =>
    constructor
    · exact fun h => ⟨a,rfl,h⟩
    · rintro ⟨_,⟨⟩,h⟩
      exact h

theorem pure_eq_ok {α : Type} {a b : α} : (pure a : Except Exn α) = .ok b ↔ a = b :=
  Iff.of_eq (Except.ok.injEq a b)

/-- The value a 32-bit `int` keeps of an integer. -/
def toInt32 (x : ℤ) : ℤ := x.bmod (2^32)

theorem toInt32_eq {x : ℤ} (hlo : -2^31 ≤ x) (hhi : x < 2^31) : toInt32 x = x := by
  apply Int.bmod_eq_of_le <;> omega

theorem toInt32_eq_iff {x y : ℤ} :
    toInt32 x = y ↔ -2^31 ≤ y ∧ y < 2^31 ∧ (2^32 : ℤ) ∣ y - x :=
  Int.bmod_eq_iff (by decide)

theorem toInt32_add (x y : ℤ) : toInt32 (toInt32 x + y) = toInt32 (x + y) := Int.bmod_add_bmod

theorem toInt32_sub (x y : ℤ) : toInt32 (toInt32 x - y) = toInt32 (x - y) := Int.bmod_sub_bmod

/-- The zeros of the decimal digits that one 16-bit `char` can be; the other nine digits follow
each of them. -/
def digitZeros : List ℕ :=
  [0x30,0x660,0x6f0,0x7c0,0x966,0x9e6,0xa66,0xae6,0xb66,0xbe6,0xc66,0xce6,0xd66,0xde6,0xe50,0xed0,
    0xf20,0x1040,0x1090,0x17e0,0x1810,0x1946,0x19d0,0x1a80,0x1a90,0x1b50,0x1bb0,0x1c40,0x1c50,
    0xa620,0xa8d0,0xa900,0xa9d0,0xa9f0,0xaa50,0xabf0,0xff10]

/-- `Character.digit(c,10)`. -/
def digit (c : Char) : Option ℕ :=
  (digitZeros.find? fun z => z ≤ c.toNat ∧ c.toNat < z + 10).map (c.toNat - ·)

/-- The number that digits behind those of `n` make up, highest first. -/
def appendDigits (n : ℕ) : List Char → Option ℕ
  | [] => some n
  | c :: rest => (digit c).bind fun d => appendDigits (10*n + d) rest

/-- `Integer.parseInt`: one sign, then at least one digit, within the range of an `int`. -/
def parseInt (text : String) : Except Exn ℤ :=
  let number : Option ℤ :=
    match text.toList with
    | [] | ['+'] | ['-'] => none
    | '-' :: digits => (appendDigits 0 digits).map fun n => -(n : ℤ)
    | '+' :: digits => (appendDigits 0 digits).map fun n => (n : ℤ)
    | digits => (appendDigits 0 digits).map fun n => (n : ℤ)
  match number with
  | some n => if -2^31 ≤ n ∧ n < 2^31 then .ok n else .error .numberFormat
  | none => .error .numberFormat

/-- `java.util.Map` and its concurrent version, whose single operations are atomic. -/
abbrev JavaMap (K V : Type) := AList fun _ : K => V

namespace JavaMap
variable {K V : Type}

/-- `values()`: one element for each key. -/
def values (m : JavaMap K V) : List V := m.entries.map Sigma.snd

/-- `size()`. -/
def size (m : JavaMap K V) : ℕ := m.entries.length

@[simp] theorem values_empty : values (∅ : JavaMap K V) = [] := rfl

@[simp] theorem length_values (m : JavaMap K V) : (values m).length = size m := by
  simp [values,size]

variable [DecidableEq K]

/-- `put` leaves the value in the place of the key's old one, if there was one. -/
theorem values_insert (m : JavaMap K V) (k : K) (v : V) :
    values (m.insert k v) = v :: values (m.erase k) := rfl

theorem erase_of_lookup_eq_none {m : JavaMap K V} {k : K} (h : m.lookup k = none) :
    m.erase k = m :=
  AList.ext (List.kerase_of_notMem_keys (AList.lookup_eq_none.mp h))

/-- `remove` takes out exactly the key's value. -/
theorem values_perm_erase {m : JavaMap K V} {k : K} {v : V} (h : m.lookup k = some v) :
    (values m).Perm (v :: values (m.erase k)) := by
  have hk : k ∈ m.entries.keys := List.dlookup_isSome.mp (by
    change (m.lookup k).isSome; rw [h]; rfl)
  obtain ⟨w,l₁,l₂,hnot,hentries,herase⟩ := List.exists_of_kerase hk
  have hw : w = v := by
    have hlook : List.dlookup k m.entries = some w := by
      rw [hentries,List.dlookup_append,List.dlookup_eq_none.mpr hnot]; simp
    exact Option.some.inj (hlook.symm.trans h)
  subst hw
  have herased : (m.erase k).entries = l₁ ++ l₂ := herase
  rw [values,values,herased,hentries,List.map_append,List.map_append,List.map_cons]
  exact List.perm_middle

theorem mem_values {m : JavaMap K V} {v : V} : v ∈ values m ↔ ∃ k, m.lookup k = some v := by
  simp only [values,List.mem_map,Sigma.exists]
  constructor
  · rintro ⟨k,w,hmem,rfl⟩
    exact ⟨k, (List.mem_dlookup_iff m.nodupKeys).mpr hmem⟩
  · rintro ⟨k,h⟩
    exact ⟨k,v,(List.mem_dlookup_iff m.nodupKeys).mp h,rfl⟩

theorem map_values {W : Type} {m : JavaMap K V} {f : V → W} {g : K → W}
    (h : ∀ k v, m.lookup k = some v → f v = g k) : (values m).map f = m.keys.map g := by
  rw [values,AList.keys,List.keys,List.map_map,List.map_map]
  refine List.map_congr_left fun entry hmem => ?_
  exact h entry.1 entry.2 ((List.mem_dlookup_iff m.nodupKeys).mpr hmem)

/-- When each value names its key, no value occurs twice. -/
theorem nodup_values {m : JavaMap K V} (f : V → K) (h : ∀ k v, m.lookup k = some v → f v = k) :
    (values m).Nodup := by
  have hkeys : (values m).map f = m.keys := (map_values h).trans (List.map_id _)
  exact List.Nodup.of_map f (hkeys ▸ m.nodupKeys)

end JavaMap
end ImSingle.Library
