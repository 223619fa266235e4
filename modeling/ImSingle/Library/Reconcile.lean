import ImSingle.Library.Transition
import Mathlib.Logic.Function.Basic

/-! One entry of a table that two parties bring in line with lists of their own. A party reads
once whether the entry is present, plans from that what to do, and then does it step by step;
nothing keeps the other party's steps from coming in between. -/
namespace ImSingle.Library.Reconcile

/-- Whether the entry is there, and how many copies of it a second structure holds. -/
@[ext] structure Entry where
  present : Bool
  copies : ℕ
  deriving DecidableEq, Repr

/-- What a party still has to do: one removal, or a number of additions. -/
inductive Plan
  | drop
  | add (left : ℕ)
  deriving DecidableEq, Repr

namespace Entry

/-- An entry with one copy for being present. -/
def single (present : Bool) : Entry := ⟨present,if present then 1 else 0⟩

def drop (e : Entry) : Entry := ⟨false,e.copies - 1⟩
def add (e : Entry) : Entry := ⟨true,e.copies + 1⟩

/-- The plan of a party whose list has the entry `n` times. -/
def plan (n : ℕ) (e : Entry) : Plan :=
  if e.present then if n = 0 then .drop else .add 0 else .add n

@[simp] theorem plan_present_zero (c : ℕ) : plan 0 ⟨true,c⟩ = .drop := rfl
@[simp] theorem plan_present_succ (m c : ℕ) : plan (m+1) ⟨true,c⟩ = .add 0 := rfl
@[simp] theorem plan_absent (m c : ℕ) : plan m ⟨false,c⟩ = .add m := rfl

/-- The entry after such a party has done everything alone. -/
def reconciled (n : ℕ) (e : Entry) : Entry :=
  if e.present then if n = 0 then e.drop else e
  else if n = 0 then e else ⟨true,e.copies + n⟩

@[simp] theorem reconciled_present_zero (c : ℕ) : reconciled 0 ⟨true,c⟩ = ⟨false,c-1⟩ := rfl
@[simp] theorem reconciled_present_succ (m c : ℕ) : reconciled (m+1) ⟨true,c⟩ = ⟨true,c⟩ := rfl
@[simp] theorem reconciled_absent_zero (c : ℕ) : reconciled 0 ⟨false,c⟩ = ⟨false,c⟩ := rfl
@[simp] theorem reconciled_absent_succ (m c : ℕ) :
    reconciled (m+1) ⟨false,c⟩ = ⟨true,c+(m+1)⟩ := rfl

end Entry

/-- The entry and the two parties' plans; a party without one has not read yet. -/
structure Row where
  entry : Entry
  plan : Bool → Option Plan

inductive Event
  | read (party : Bool)
  | drop (party : Bool)
  | add (party : Bool)
  deriving DecidableEq, Repr

def Plan.next : Plan → Plan
  | drop => add 0
  | add left => add (left - 1)

namespace Row

/-- `lists` says how often each party's list has the entry. -/
def step (lists : Bool → ℕ) (row : Row) : Event → Row
  | .read k => { row with plan := Function.update row.plan k (some (row.entry.plan (lists k))) }
  | .drop k => ⟨row.entry.drop,Function.update row.plan k ((row.plan k).map Plan.next)⟩
  | .add k => ⟨row.entry.add,Function.update row.plan k ((row.plan k).map Plan.next)⟩

/-- A party reads once and does only what it has planned. -/
def Legal (row : Row) : Event → Prop
  | .read k => row.plan k = none
  | .drop k => row.plan k = some .drop
  | .add k => ∃ left, row.plan k = some (.add (left+1))

def Done (row : Row) : Prop := ∀ k, row.plan k = some (.add 0)

def dropsOf : Option Plan → ℕ
  | some .drop => 1
  | _ => 0

def addsOf : Option Plan → ℕ
  | some (.add left) => left
  | _ => 0

@[simp] theorem dropsOf_drop : dropsOf (some .drop) = 1 := rfl
@[simp] theorem dropsOf_add (n : ℕ) : dropsOf (some (.add n)) = 0 := rfl
@[simp] theorem addsOf_drop : addsOf (some .drop) = 0 := rfl
@[simp] theorem addsOf_add (n : ℕ) : addsOf (some (.add n)) = n := rfl

/-- With this plan left of one party, another one whose list has the entry `n` times may read
it: a removal is what that list asks for too, and an entry still to be added to is there. -/
def ReadInOrder (n : ℕ) (e : Entry) : Plan → Prop
  | .drop => n = 0
  | .add 0 => True
  | .add (_+1) => e.present = true

/-- A party reads in order, and removes the entry only if the other one has nothing to add. -/
def InOrder (lists : Bool → ℕ) (row : Row) : Event → Prop
  | .read k => ∀ plan ∈ row.plan !k, ReadInOrder (lists k) row.entry plan
  | .drop k => addsOf (row.plan !k) = 0
  | .add _ => True

/-- The second party, with `m` in its list, finds the entry as if it had come first: of an
entry present at the start, the first party keeps it only if this one does, and has not removed
it if this one keeps it; any other entry this one lists as often as the first one, if that has
come to add it, and not at all otherwise. -/
def ReadSwapped (n m : ℕ) (start e : Entry) : Prop :=
  if start.present then (0 < n → 0 < m) ∧ (0 < m → e.present = true)
  else m = if e.present then n else 0

def Swapped (lists : Bool → ℕ) (start : Entry) (row : Row) : Event → Prop
  | .read k => row.plan (!k) ≠ none → ReadSwapped (lists !k) (lists k) start row.entry
  | _ => True

/-! ## What is left to do -/

def drops (row : Row) : ℕ := dropsOf (row.plan false) + dropsOf (row.plan true)
def adds (row : Row) : ℕ := addsOf (row.plan false) + addsOf (row.plan true)

/-- The entry when all additions are made before all removals. -/
def settled (row : Row) : Entry where
  present := if 0 < row.drops then false else row.entry.present || 0 < row.adds
  copies := row.entry.copies + row.adds - row.drops

section left
variable {lists : Bool → ℕ} {row : Row} {k : Bool}

theorem drops_eq (row : Row) (k : Bool) :
    row.drops = dropsOf (row.plan k) + dropsOf (row.plan !k) := by
  cases k with
  | false => rfl
  | true => exact Nat.add_comm ..

theorem adds_eq (row : Row) (k : Bool) : row.adds = addsOf (row.plan k) + addsOf (row.plan !k) := by
  cases k with
  | false => rfl
  | true => exact Nat.add_comm ..

/-- There are only two parties. -/
theorem eq_not_of_ne {k k' : Bool} (h : k' ≠ k) : k' = !k := Bool.eq_not.mpr h

@[simp] theorem step_plan_read : (row.step lists (.read k)).plan k =
    some (row.entry.plan (lists k)) := by simp [step]
@[simp] theorem step_plan_drop : (row.step lists (.drop k)).plan k =
    (row.plan k).map Plan.next := by simp [step]
@[simp] theorem step_plan_add : (row.step lists (.add k)).plan k =
    (row.plan k).map Plan.next := by simp [step]
@[simp] theorem step_plan_read_other : (row.step lists (.read k)).plan (!k) = row.plan !k := by
  simp [step]
@[simp] theorem step_plan_drop_other : (row.step lists (.drop k)).plan (!k) = row.plan !k := by
  simp [step]
@[simp] theorem step_plan_add_other : (row.step lists (.add k)).plan (!k) = row.plan !k := by
  simp [step]

theorem left_drop (lists : Bool → ℕ) (h : row.Legal (.drop k)) :
    row.drops = (row.step lists (.drop k)).drops + 1 ∧
      (row.step lists (.drop k)).adds = row.adds := by
  have h : row.plan k = some .drop := h
  rw [drops_eq row k,drops_eq _ k,adds_eq row k,adds_eq _ k,step_plan_drop,step_plan_drop_other,h]
  simp [Plan.next,dropsOf,addsOf,Nat.add_comm]

theorem left_add (lists : Bool → ℕ) (h : row.Legal (.add k)) :
    row.adds = (row.step lists (.add k)).adds + 1 ∧
      (row.step lists (.add k)).drops = row.drops := by
  obtain ⟨left,h⟩ := h
  rw [drops_eq row k,drops_eq _ k,adds_eq row k,adds_eq _ k,step_plan_add,step_plan_add_other,h]
  simp [Plan.next,dropsOf,addsOf,Nat.add_right_comm]

theorem settled_add (lists : Bool → ℕ) (h : row.Legal (.add k)) :
    settled (row.step lists (.add k)) = settled row := by
  obtain ⟨hadds,hdrops⟩ := left_add lists h
  rw [settled,settled,hdrops,hadds]
  have hentry : (row.step lists (.add k)).entry = row.entry.add := rfl
  rw [hentry,Entry.add,Entry.mk.injEq]
  refine ⟨by simp,?_⟩
  dsimp only
  omega

/-- A removal leaves the settled number of copies, unless it comes too early for an addition. -/
theorem copies_settled_drop (lists : Bool → ℕ) (h : row.Legal (.drop k))
    (hcopies : 0 < row.adds → 0 < row.entry.copies) :
    (settled (row.step lists (.drop k))).copies = (settled row).copies := by
  obtain ⟨hdrops,hadds⟩ := left_drop lists h
  have hentry : (row.step lists (.drop k)).entry = row.entry.drop := rfl
  simp only [settled,hentry,Entry.drop,hadds,hdrops]
  omega

theorem settled_drop (lists : Bool → ℕ) (h : row.Legal (.drop k)) (hadds : row.adds = 0) :
    settled (row.step lists (.drop k)) = settled row := by
  obtain ⟨hdrops',hadds'⟩ := left_drop lists h
  have hentry : (row.step lists (.drop k)).entry = row.entry.drop := rfl
  have hcopies := copies_settled_drop lists h (by omega)
  have hpresent : (settled (row.step lists (.drop k))).present = (settled row).present := by
    simp [settled,hentry,Entry.drop,hadds',hadds,hdrops']
  exact Entry.ext hpresent hcopies

/-- A removal is in order exactly if nobody has anything to add. -/
theorem inOrder_drop_iff (lists : Bool → ℕ) (h : row.Legal (.drop k)) :
    row.InOrder lists (.drop k) ↔ row.adds = 0 := by
  have h : row.plan k = some .drop := h
  rw [adds_eq row k,h]
  simp only [InOrder,addsOf,Nat.zero_add]

/-- Besides a removal there is another one to make, or there are additions, but not both. -/
theorem adds_or_drops_eq_zero (lists : Bool → ℕ) (h : row.Legal (.drop k)) :
    row.adds = 0 ∨ (row.step lists (.drop k)).drops = 0 := by
  have h : row.plan k = some .drop := h
  rw [adds_eq row k,drops_eq _ k,step_plan_drop,step_plan_drop_other,h]
  cases row.plan !k with
  | none => exact .inl rfl
  | some plan =>
    cases plan with
    | drop => exact .inl rfl
    | add left => exact .inr rfl

theorem settled_done (h : row.Done) : settled row = row.entry := by
  have hdrops : row.drops = 0 := by simp [drops,h true,h false,dropsOf]
  have hadds : row.adds = 0 := by simp [adds,h true,h false,addsOf]
  simp [settled,hdrops,hadds]

end left

/-! ## Runs -/

/-- The parties at one entry. -/
def parties (lists : Bool → ℕ) (start : Entry) : Machine Row Event :=
  ⟨⟨start,fun _ => none⟩,step lists⟩

/-- Both parties have read, and no removal comes before the first copy. -/
structure BothRead (row : Row) : Prop where
  read : ∀ k, row.plan k ≠ none
  covered : 0 < row.drops → 0 < row.adds → 0 < row.entry.copies

section runs
variable {lists : Bool → ℕ} {start : Entry} {row : Row} {past events : List Event} {k : Bool}

theorem BothRead.drop (lists : Bool → ℕ) (h : BothRead row) (hlegal : row.Legal (.drop k)) :
    BothRead (row.step lists (.drop k)) := by
  refine ⟨fun k' => ?_,fun hdrops hadds => ?_⟩
  · by_cases hk : k' = k
    · subst hk
      simp [h.read k']
    · obtain rfl := eq_not_of_ne hk
      simpa using h.read (!k)
  · rcases adds_or_drops_eq_zero lists hlegal with hnone | hnone
    · rw [(left_drop lists hlegal).2] at hadds
      omega
    · omega

theorem BothRead.add (lists : Bool → ℕ) (h : BothRead row) (hlegal : row.Legal (.add k)) :
    BothRead (row.step lists (.add k)) := by
  refine ⟨fun k' => ?_,fun _ _ => Nat.succ_pos _⟩
  by_cases hk : k' = k
  · subst hk
    simp [h.read k']
  · obtain rfl := eq_not_of_ne hk
    simpa using h.read (!k)

/-! ### After both have read -/

/-- The copies come out as settled in every order of the steps. -/
theorem BothRead.copies_run (h : BothRead row)
    (hlegal : (parties lists start).MeetsFrom (fun _ => Legal) past row events)
    (hdone : ((parties lists start).runFrom row events).Done) :
    ((parties lists start).runFrom row events).entry.copies = (settled row).copies := by
  induction events generalizing past row with
  | nil => exact congrArg Entry.copies (settled_done hdone).symm
  | cons event rest ih =>
    obtain ⟨hevent,hrest⟩ := hlegal
    cases event with
    | read k => exact absurd hevent (h.read k)
    | add k =>
      have hsame := settled_add lists hevent
      exact (ih (h.add lists hevent) hrest hdone).trans (congrArg Entry.copies hsame)
    | drop k =>
      have hdrops := (left_drop lists hevent).1
      have hsame := copies_settled_drop lists hevent (h.covered (by omega))
      exact (ih (h.drop lists hevent) hrest hdone).trans hsame

/-- With only removals or only additions left, so does the whole entry. -/
theorem BothRead.run_of_clear (h : BothRead row) (hclear : row.drops = 0 ∨ row.adds = 0)
    (hlegal : (parties lists start).MeetsFrom (fun _ => Legal) past row events)
    (hdone : ((parties lists start).runFrom row events).Done) :
    ((parties lists start).runFrom row events).entry = settled row := by
  induction events generalizing past row with
  | nil => exact (settled_done hdone).symm
  | cons event rest ih =>
    obtain ⟨hevent,hrest⟩ := hlegal
    cases event with
    | read k => exact absurd hevent (h.read k)
    | add k =>
      obtain ⟨hadds,hdrops⟩ := left_add lists hevent
      have hclear : (row.step lists (.add k)).drops = 0 ∨ (row.step lists (.add k)).adds = 0 := by
        omega
      have hrun := ih (h.add lists hevent) hclear hrest hdone
      exact hrun.trans (settled_add lists hevent)
    | drop k =>
      obtain ⟨hdrops,hadds⟩ := left_drop lists hevent
      have hnone : row.adds = 0 := by omega
      have hrun := ih (h.drop lists hevent) (.inr (hadds.trans hnone)) hrest hdone
      exact hrun.trans (settled_drop lists hevent hnone)

/-- It comes out as settled exactly if every step is in order. -/
theorem BothRead.run_iff (h : BothRead row)
    (hlegal : (parties lists start).MeetsFrom (fun _ => Legal) past row events)
    (hdone : ((parties lists start).runFrom row events).Done) :
    ((parties lists start).runFrom row events).entry = settled row ↔
      (parties lists start).MeetsFrom (fun _ => InOrder lists) past row events := by
  induction events generalizing past row with
  | nil => exact iff_of_true (settled_done hdone).symm trivial
  | cons event rest ih =>
    obtain ⟨hevent,hrest⟩ := hlegal
    cases event with
    | read k => exact absurd hevent (h.read k)
    | add k =>
      have hrun := ih (h.add lists hevent) hrest hdone
      rw [settled_add lists hevent] at hrun
      exact hrun.trans (and_iff_right trivial).symm
    | drop k =>
      by_cases hadds : row.adds = 0
      · have hrun := ih (h.drop lists hevent) hrest hdone
        rw [settled_drop lists hevent hadds] at hrun
        exact hrun.trans (and_iff_right ((inOrder_drop_iff lists hevent).mpr hadds)).symm
      · -- the additions that are left bring the entry back
        refine iff_of_false (fun hsettled => ?_)
          fun hmeets => hadds ((inOrder_drop_iff lists hevent).mp hmeets.1)
        obtain ⟨hdrops,hsame⟩ := left_drop lists hevent
        have hnone := (adds_or_drops_eq_zero lists hevent).resolve_left hadds
        have hrun := (h.drop lists hevent).run_of_clear (.inl hnone) hrest hdone
        have hpresent := congrArg Entry.present (hrun.symm.trans hsettled)
        simp [settled,hdrops,hsame,hnone,Nat.pos_of_ne_zero hadds] at hpresent

theorem BothRead.swapped (h : BothRead row)
    (hlegal : (parties lists start).MeetsFrom (fun _ => Legal) past row events) :
    (parties lists start).MeetsFrom (fun _ => Swapped lists start) past row events := by
  induction events generalizing past row with
  | nil => trivial
  | cons event rest ih =>
    obtain ⟨hevent,hrest⟩ := hlegal
    cases event with
    | read k => exact absurd hevent (h.read k)
    | add k => exact ⟨trivial,ih (h.add lists hevent) hrest⟩
    | drop k => exact ⟨trivial,ih (h.drop lists hevent) hrest⟩

/-! ### Before the second one reads -/

/-- How far the first party can have come, alone, with an entry that had one copy for being
present: its list has the entry `n` times, the entry was `start` and is `e`, the plan is left. -/
inductive Alone : ℕ → Entry → Entry → Plan → Prop
  | kept (n : ℕ) : Alone (n+1) ⟨true,1⟩ ⟨true,1⟩ (.add 0)
  | dropping : Alone 0 ⟨true,1⟩ ⟨true,1⟩ .drop
  | dropped : Alone 0 ⟨true,1⟩ ⟨false,0⟩ (.add 0)
  | fresh (n : ℕ) : Alone n ⟨false,0⟩ ⟨false,0⟩ (.add n)
  | adding (done left : ℕ) : Alone (done+1+left) ⟨false,0⟩ ⟨true,done+1⟩ (.add left)

theorem Alone.read (n : ℕ) (present : Bool) :
    Alone n (.single present) (.single present) ((Entry.single present).plan n) := by
  cases present with
  | true =>
    cases n with
    | zero => exact .dropping
    | succ n => exact .kept n
  | false => exact .fresh n

variable {n : ℕ} {e : Entry} {plan : Plan}

theorem Alone.drop (h : Alone n start e .drop) : Alone n start e.drop (.add 0) := by
  cases h
  exact .dropped

theorem Alone.add {left : ℕ} (h : Alone n start e (.add (left+1))) :
    Alone n start e.add (.add left) := by
  match n, e, h with
  | _, _, .fresh _ =>
    have h := Alone.adding 0 left
    rwa [Nat.zero_add,Nat.add_comm] at h
  | _, _, .adding done _ =>
    have h := Alone.adding (done+1) left
    rwa [Nat.add_assoc,Nat.add_comm 1 left] at h

/-- The entry when the plans of both parties are carried out, additions first. -/
def settledBy (e : Entry) (plan plan' : Plan) : Entry where
  present := if 0 < dropsOf (some plan) + dropsOf (some plan') then false
    else e.present || 0 < addsOf (some plan) + addsOf (some plan')
  copies := e.copies + (addsOf (some plan) + addsOf (some plan')) -
    (dropsOf (some plan) + dropsOf (some plan'))

variable {m : ℕ}

theorem Alone.covered (h : Alone n start e plan)
    (hdrops : 0 < dropsOf (some plan) + dropsOf (some (e.plan m))) : 0 < e.copies := by
  cases h with
  | kept n => exact Nat.one_pos
  | dropping => exact Nat.one_pos
  | dropped => simp at hdrops
  | fresh n => simp at hdrops
  | adding done left => exact Nat.succ_pos done

theorem settledBy_add_zero (e : Entry) (m : ℕ) :
    settledBy e (.add 0) (e.plan m) = e.reconciled m := by
  obtain ⟨present,copies⟩ := e
  cases present <;> cases m <;> simp [settledBy]

theorem Alone.reconciled (h : Alone n start e (.add 0)) : start.reconciled n = e := by
  match n, e, h with
  | _, _, .kept n => rfl
  | _, _, .dropped => rfl
  | _, _, .fresh _ => rfl
  | _, _, .adding done _ => simp

/-- A second read in order settles the entry as the first list, then the second one, would. -/
theorem Alone.settledBy_inOrder (h : Alone n start e plan) (horder : ReadInOrder m e plan) :
    settledBy e plan (e.plan m) = (start.reconciled n).reconciled m := by
  match plan, h with
  | .add 0, h => rw [settledBy_add_zero,h.reconciled]
  | .drop, .dropping =>
    obtain rfl : m = 0 := horder
    simp [settledBy]
  | .add (left+1), .fresh _ => cases horder
  | .add (left+1), .adding done _ =>
    rw [show done + 1 + (left+1) = done + left + 1 + 1 by omega]
    cases m <;> simp [settledBy] <;> omega

/-- Out of order there is only one kind of step left, and the entry comes out differently. -/
theorem Alone.settledBy_outOfOrder (h : Alone n start e plan) (horder : ¬ ReadInOrder m e plan) :
    (dropsOf (some plan) + dropsOf (some (e.plan m)) = 0 ∨
      addsOf (some plan) + addsOf (some (e.plan m)) = 0) ∧
    settledBy e plan (e.plan m) ≠ (start.reconciled n).reconciled m := by
  match plan, h with
  | .add 0, h => exact absurd trivial horder
  | .drop, .dropping =>
    obtain ⟨m,rfl⟩ := Nat.exists_eq_succ_of_ne_zero horder
    exact ⟨.inr rfl,by simp [settledBy]⟩
  | .add (left+1), .fresh _ =>
    refine ⟨.inl rfl,?_⟩
    cases m <;> simp [settledBy]
  | .add (left+1), .adding done _ => exact absurd rfl horder

/-- With one kind of step left, the entry is settled as in the other order exactly if the second
read is as if it had come first. -/
theorem Alone.settledBy_swapped (h : Alone n start e plan)
    (hclear : dropsOf (some plan) + dropsOf (some (e.plan m)) = 0 ∨
      addsOf (some plan) + addsOf (some (e.plan m)) = 0) :
    settledBy e plan (e.plan m) = (start.reconciled m).reconciled n ↔ ReadSwapped n m start e := by
  cases h with
  | kept n => cases m <;> simp [settledBy,ReadSwapped]
  | dropping => cases m <;> simp [settledBy,ReadSwapped]
  | dropped => cases m <;> simp [settledBy,ReadSwapped]
  | fresh n => cases m <;> cases n <;> simp [settledBy,ReadSwapped]
  | adding done left =>
    rw [show done + 1 + left = done + left + 1 by omega]
    cases m with
    | zero =>
      simp [settledBy,ReadSwapped] at hclear ⊢
    | succ m =>
      simp [settledBy,ReadSwapped]
      omega

/-- With both kinds left it is not, and has too few copies. -/
theorem Alone.settledBy_race (h : Alone n start e plan)
    (hrace : ¬ (dropsOf (some plan) + dropsOf (some (e.plan m)) = 0 ∨
      addsOf (some plan) + addsOf (some (e.plan m)) = 0)) :
    (settledBy e plan (e.plan m)).copies ≠ ((start.reconciled m).reconciled n).copies ∧
      ¬ ReadSwapped n m start e := by
  cases h with
  | kept n => cases m <;> simp at hrace
  | dropping => cases m <;> simp at hrace
  | dropped => simp at hrace
  | fresh n => simp at hrace
  | adding done left =>
    rw [show done + 1 + left = done + left + 1 by omega]
    cases m with
    | zero =>
      simp [settledBy,ReadSwapped] at hrace ⊢
    | succ m => simp at hrace

/-- The first party `k` is at work and the other one has not read. -/
structure FirstAtWork (lists : Bool → ℕ) (start : Entry) (k : Bool) (row : Row) (plan : Plan) :
    Prop where
  first : row.plan k = some plan
  other : row.plan (!k) = none
  alone : Alone (lists k) start row.entry plan

namespace FirstAtWork

theorem read_plan (h : FirstAtWork lists start k row plan) :
    (row.step lists (.read !k)).plan k = some plan := by
  have hother : (row.step lists (.read !k)).plan (!!k) = row.plan (!!k) := step_plan_read_other
  rwa [Bool.not_not,h.first] at hother

theorem read_left (h : FirstAtWork lists start k row plan) :
    (row.step lists (.read !k)).drops =
      dropsOf (some plan) + dropsOf (some (row.entry.plan (lists !k))) ∧
    (row.step lists (.read !k)).adds =
      addsOf (some plan) + addsOf (some (row.entry.plan (lists !k))) := by
  rw [drops_eq _ k,adds_eq _ k,h.read_plan,step_plan_read]
  exact ⟨rfl,rfl⟩

theorem settled_read (h : FirstAtWork lists start k row plan) :
    settled (row.step lists (.read !k)) =
      settledBy row.entry plan (row.entry.plan (lists !k)) := by
  rw [settled,settledBy,h.read_left.1,h.read_left.2]
  rfl

theorem bothRead (h : FirstAtWork lists start k row plan) :
    BothRead (row.step lists (.read !k)) := by
  refine ⟨fun k' => ?_,fun hdrops _ => ?_⟩
  · by_cases hk : k' = k
    · rw [hk,h.read_plan]
      exact Option.some_ne_none _
    · obtain rfl := eq_not_of_ne hk
      simp
  · rw [h.read_left.1] at hdrops
    exact h.alone.covered hdrops

theorem drop (h : FirstAtWork lists start k row .drop) :
    FirstAtWork lists start k (row.step lists (.drop k)) (.add 0) :=
  ⟨by simp [h.first,Plan.next],by simp [h.other],h.alone.drop⟩

theorem add {left : ℕ} (h : FirstAtWork lists start k row (.add (left+1))) :
    FirstAtWork lists start k (row.step lists (.add k)) (.add left) :=
  ⟨by simp [h.first,Plan.next],by simp [h.other],h.alone.add⟩

theorem inOrder_read_iff (h : FirstAtWork lists start k row plan) :
    row.InOrder lists (.read !k) ↔ ReadInOrder (lists !k) row.entry plan := by
  simp [InOrder,h.first]

theorem swapped_read_iff (h : FirstAtWork lists start k row plan) :
    row.Swapped lists start (.read !k) ↔
      ReadSwapped (lists k) (lists !k) start row.entry := by
  simp [Swapped,h.first]

/-- Only the first party has a plan. -/
theorem eq_first {k' : Bool} {plan' : Plan} (h : FirstAtWork lists start k row plan)
    (hplan : row.plan k' = some plan') : k' = k := by
  by_contra hk
  obtain rfl := eq_not_of_ne hk
  exact Option.some_ne_none _ (hplan.symm.trans h.other)

section second
variable (h : FirstAtWork lists start k row plan)
  (hlegal : (parties lists start).MeetsFrom (fun _ => Legal) (past ++ [.read !k])
    (row.step lists (.read !k)) events)
  (hdone : ((parties lists start).runFrom (row.step lists (.read !k)) events).Done)
include h hlegal hdone

/-- With one kind of step left after the second read, the entry is settled. -/
theorem settled_of_clear
    (hclear : dropsOf (some plan) + dropsOf (some (row.entry.plan (lists !k))) = 0 ∨
      addsOf (some plan) + addsOf (some (row.entry.plan (lists !k))) = 0) :
    ((parties lists start).runFrom (row.step lists (.read !k)) events).entry =
      settledBy row.entry plan (row.entry.plan (lists !k)) := by
  rw [← h.settled_read]
  apply h.bothRead.run_of_clear _ hlegal hdone
  rwa [h.read_left.1,h.read_left.2]

theorem read_inOrder_iff :
    ((parties lists start).runFrom (row.step lists (.read !k)) events).entry =
        (start.reconciled (lists k)).reconciled (lists !k) ↔
      (parties lists start).MeetsFrom (fun _ => InOrder lists) past row
        (.read (!k) :: events) := by
  by_cases horder : ReadInOrder (lists !k) row.entry plan
  · have hrun := h.bothRead.run_iff hlegal hdone
    rw [h.settled_read,h.alone.settledBy_inOrder horder] at hrun
    exact hrun.trans (and_iff_right (h.inOrder_read_iff.mpr horder)).symm
  · obtain ⟨hleft,hne⟩ := h.alone.settledBy_outOfOrder horder
    refine iff_of_false (fun heq => hne ?_) fun hmeets => horder (h.inOrder_read_iff.mp hmeets.1)
    exact (h.settled_of_clear hlegal hdone hleft).symm.trans heq

theorem read_swapped_iff :
    ((parties lists start).runFrom (row.step lists (.read !k)) events).entry =
        (start.reconciled (lists !k)).reconciled (lists k) ↔
      (parties lists start).MeetsFrom (fun _ => Swapped lists start) past row
        (.read (!k) :: events) := by
  have hmeets : (parties lists start).MeetsFrom (fun _ => Swapped lists start) past row
      (.read (!k) :: events) ↔ ReadSwapped (lists k) (lists !k) start row.entry :=
    (and_iff_left (h.bothRead.swapped hlegal)).trans h.swapped_read_iff
  rw [hmeets]
  by_cases hleft : dropsOf (some plan) + dropsOf (some (row.entry.plan (lists !k))) = 0 ∨
      addsOf (some plan) + addsOf (some (row.entry.plan (lists !k))) = 0
  · rw [h.settled_of_clear hlegal hdone hleft]
    exact h.alone.settledBy_swapped hleft
  · -- a copy is missing then, and the second read found what the first one had changed
    have hcopies := h.bothRead.copies_run hlegal hdone
    rw [h.settled_read] at hcopies
    obtain ⟨hne,hnot⟩ := h.alone.settledBy_race hleft
    refine iff_of_false (fun heq => hne ?_) hnot
    exact hcopies.symm.trans (congrArg Entry.copies heq)

end second

/-- The run comes out as the parties one after the other exactly if every step is in order, and
as the parties in the other order exactly if the second read is as if it had come first. -/
theorem run_iff (h : FirstAtWork lists start k row plan)
    (hlegal : (parties lists start).MeetsFrom (fun _ => Legal) past row events)
    (hdone : ((parties lists start).runFrom row events).Done) :
    (((parties lists start).runFrom row events).entry =
        (start.reconciled (lists k)).reconciled (lists !k) ↔
      (parties lists start).MeetsFrom (fun _ => InOrder lists) past row events) ∧
    (((parties lists start).runFrom row events).entry =
        (start.reconciled (lists !k)).reconciled (lists k) ↔
      (parties lists start).MeetsFrom (fun _ => Swapped lists start) past row events) := by
  induction events generalizing past row plan with
  | nil =>
    have hother := hdone (!k)
    change row.plan (!k) = _ at hother
    rw [h.other] at hother
    cases hother
  | cons event rest ih =>
    obtain ⟨hevent,hrest⟩ := hlegal
    cases event with
    | read k' =>
      obtain rfl := eq_not_of_ne fun hk : k' = k =>
        Option.some_ne_none _ (h.first.symm.trans (hk ▸ hevent))
      exact ⟨h.read_inOrder_iff hrest hdone,h.read_swapped_iff hrest hdone⟩
    | drop k' =>
      obtain rfl := h.eq_first hevent
      obtain rfl := Option.some.inj (h.first.symm.trans hevent)
      obtain ⟨hinOrder,hswapped⟩ := ih h.drop hrest hdone
      have hfirst : row.InOrder lists (.drop k') := by simp [InOrder,h.other,addsOf]
      exact ⟨hinOrder.trans (and_iff_right hfirst).symm,
        hswapped.trans (and_iff_right trivial).symm⟩
    | add k' =>
      obtain ⟨left,hplan⟩ := hevent
      obtain rfl := h.eq_first hplan
      obtain rfl := Option.some.inj (h.first.symm.trans hplan)
      obtain ⟨hinOrder,hswapped⟩ := ih h.add hrest hdone
      exact ⟨hinOrder.trans (and_iff_right trivial).symm,
        hswapped.trans (and_iff_right trivial).symm⟩

end FirstAtWork

/-- In every complete run that party `k` begins: the entry comes out as from `k` and then the
other one exactly if every step is in order, and as from the other one and then `k` exactly if
the second read is as if it had come first. -/
theorem run_iff {present : Bool}
    (hlegal : (parties lists (.single present)).Meets (fun _ => Legal) (.read k :: events))
    (hdone : ((parties lists (.single present)).after (.read k :: events)).Done) :
    (((parties lists (.single present)).after (.read k :: events)).entry =
        ((Entry.single present).reconciled (lists k)).reconciled (lists !k) ↔
      (parties lists (.single present)).Meets (fun _ => InOrder lists) (.read k :: events)) ∧
    (((parties lists (.single present)).after (.read k :: events)).entry =
        ((Entry.single present).reconciled (lists !k)).reconciled (lists k) ↔
      (parties lists (.single present)).Meets (fun _ => Swapped lists (.single present))
        (.read k :: events)) := by
  have hfirst : FirstAtWork lists (.single present) k
      ((parties lists (.single present)).step (parties lists (.single present)).init (.read k))
      ((Entry.single present).plan (lists k)) :=
    ⟨by simp [parties],by simp [parties],.read _ _⟩
  obtain ⟨hinOrder,hswapped⟩ := hfirst.run_iff hlegal.2 hdone
  have horder : (parties lists (.single present)).init.InOrder lists (.read k) := by
    simp [InOrder,parties]
  have hswap : (parties lists (.single present)).init.Swapped lists (.single present)
      (.read k) := by
    simp [Swapped,parties]
  exact ⟨hinOrder.trans (and_iff_right horder).symm,
    hswapped.trans (and_iff_right hswap).symm⟩

end runs

end Row
end ImSingle.Library.Reconcile
