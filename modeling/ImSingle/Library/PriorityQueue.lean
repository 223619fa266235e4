import Mathlib.Algebra.Order.Ring.Int
import Mathlib.Data.List.Basic
import Mathlib.Data.List.Nodup
import Mathlib.Tactic.Common

/-! The array binary heap of `java.util.PriorityQueue`, for any element type and comparator.
A queue is the list of its occupied array cells. The sifts move a hole, as the JDK's do: `k` is
the hole and `x` the element that will fill it. -/
namespace ImSingle.Library.PriorityQueue
variable {α : Type*} (cmp : α → α → ℤ)

def parent (k : ℕ) : ℕ := (k - 1) / 2

/-- The JDK's `siftUp` loop, with the hole's index as fuel: a hole only moves to lower indices. -/
def siftUpLoop : ℕ → ℕ → α → List α → List α
  | 0, k, x, es => es.set k x
  | fuel+1, k, x, es =>
    if 0 < k then
      match es[parent k]? with
      | none => es.set k x
      | some e =>
        if 0 ≤ cmp x e then es.set k x
        else siftUpLoop fuel (parent k) x (es.set k e)
    else es.set k x

def siftUp (k : ℕ) (x : α) (es : List α) : List α := siftUpLoop cmp k k x es

/-- The child a sift down moves into the hole, with its index: the left one unless the right
one is strictly smaller. -/
def leastChild (k : ℕ) (es : List α) : Option (ℕ × α) :=
  match es[2*k+1]?, es[2*k+2]? with
  | none, _ => none
  | some c, none => some (2*k+1,c)
  | some c, some r => if 0 < cmp c r then some (2*k+2,r) else some (2*k+1,c)

/-- The JDK's `siftDown` loop. It runs while the hole has a child. -/
def siftDownLoop : ℕ → ℕ → α → List α → List α
  | 0, k, x, es => es.set k x
  | fuel+1, k, x, es =>
    match leastChild cmp k es with
    | none => es.set k x
    | some (child,c) =>
      if cmp x c ≤ 0 then es.set k x
      else siftDownLoop fuel child x (es.set k c)

def siftDown (k : ℕ) (x : α) (es : List α) : List α := siftDownLoop cmp es.length k x es

/-- `add(x)`: append and sift up. -/
def add (x : α) (es : List α) : List α := siftUp cmp es.length x (es ++ [x])

/-- `removeAt(i)`: the last element fills the hole, sinks, and rises only if it did not sink. -/
def removeAt [DecidableEq α] (i : ℕ) (es : List α) : List α :=
  if i + 1 = es.length then es.dropLast
  else
    match es.getLast? with
    | none => es
    | some moved =>
      let sunk := siftDown cmp i moved es.dropLast
      if sunk[i]? = some moved then siftUp cmp i moved sunk else sunk

/-- `remove(Object)`: drop the first element the argument equals. -/
def remove [DecidableEq α] (isEqual : α → Bool) (es : List α) : List α :=
  match es.findIdx? isEqual with
  | none => es
  | some i => removeAt cmp i es

/-! ## Contents -/

theorem set_eq_self {es : List α} {i : ℕ} {x : α} (h : es[i]? = some x) : es.set i x = es := by
  obtain ⟨hi,rfl⟩ := List.getElem?_eq_some_iff.mp h
  exact List.set_getElem_self hi

/-- Moving an element of the list into the hole and the hole to its place keeps the contents. -/
theorem move_perm {es : List α} {k j : ℕ} {e x : α} (hk : k < es.length) (he : es[j]? = some e)
    (hne : j ≠ k) : ((es.set k e).set j x).Perm (es.set k x) := by
  obtain ⟨hj,rfl⟩ := List.getElem?_eq_some_iff.mp he
  have h := List.set_set_perm (show k < (es.set k x).length by simpa)
    (show j < (es.set k x).length by simpa)
  simpa [List.getElem_set, hne.symm] using h

theorem siftUpLoop_perm (fuel k : ℕ) (x : α) (es : List α) (hk : k < es.length) :
    (siftUpLoop cmp fuel k x es).Perm (es.set k x) := by
  induction fuel generalizing k es with
  | zero => exact .refl _
  | succ fuel ih =>
    unfold siftUpLoop
    split
    · split
      · exact .refl _
      · next hpos _ e he =>
        split
        · exact .refl _
        · have hlt : parent k < k := by unfold parent; omega
          exact (ih _ _ (by simp; omega)).trans (move_perm hk he hlt.ne)
    · exact .refl _

theorem leastChild_some {k child : ℕ} {c : α} {es : List α}
    (h : leastChild cmp k es = some (child,c)) :
    es[child]? = some c ∧ (child = 2*k+1 ∨ child = 2*k+2) := by
  unfold leastChild at h
  split at h
  · cases h
  · cases h; exact ⟨by assumption, .inl rfl⟩
  · split at h <;> cases h
    · exact ⟨by assumption, .inr rfl⟩
    · exact ⟨by assumption, .inl rfl⟩

theorem siftDownLoop_perm (fuel k : ℕ) (x : α) (es : List α) (hk : k < es.length) :
    (siftDownLoop cmp fuel k x es).Perm (es.set k x) := by
  induction fuel generalizing k es with
  | zero => exact .refl _
  | succ fuel ih =>
    unfold siftDownLoop
    split
    · exact .refl _
    · next child c h =>
      obtain ⟨he,hchild⟩ := leastChild_some cmp h
      split
      · exact .refl _
      · have hlt := (List.getElem?_eq_some_iff.mp he).1
        exact (ih _ _ (by simpa using hlt)).trans (move_perm hk he (by omega))

theorem siftUp_perm (k : ℕ) (x : α) (es : List α) (hk : k < es.length) :
    (siftUp cmp k x es).Perm (es.set k x) := siftUpLoop_perm cmp k k x es hk

theorem siftDown_perm (k : ℕ) (x : α) (es : List α) (hk : k < es.length) :
    (siftDown cmp k x es).Perm (es.set k x) := siftDownLoop_perm cmp es.length k x es hk

theorem add_perm (x : α) (es : List α) : (add cmp x es).Perm (x :: es) := by
  have h := siftUp_perm cmp es.length x (es ++ [x]) (by simp)
  rw [List.set_append_right _ _ le_rfl] at h
  exact h.trans (by simp)

/-- Filling cell `i` with the last element takes exactly the old cell `i` out. -/
theorem set_dropLast_perm {es : List α} {i : ℕ} (hi : i + 1 < es.length) :
    (es[i] :: es.dropLast.set i
      (es.getLast (List.ne_nil_of_length_pos (Nat.zero_lt_of_lt hi)))).Perm es := by
  have hlast : es.length - 1 < es.length := by omega
  have h := List.set_set_perm (show i < es.length by omega) hlast
  have hsplit : (es.set i es[es.length-1]).set (es.length-1) es[i] =
      es.dropLast.set i es[es.length-1] ++ [es[i]] := by
    apply List.ext_getElem
    · simp; omega
    · intro j hj _
      simp only [List.getElem_set, List.getElem_append, List.getElem_dropLast, List.length_set,
        List.length_dropLast, List.getElem_singleton]
      grind
  rw [hsplit] at h
  rw [List.getLast_eq_getElem]
  exact (List.perm_append_singleton _ _).symm.trans h

variable [DecidableEq α]

theorem removeAt_perm {i : ℕ} {es : List α} (hi : i < es.length) :
    (es[i] :: removeAt cmp i es).Perm es := by
  unfold removeAt
  split
  · next hlast =>
    have hne : es ≠ [] := by rintro rfl; simp at hi
    have hget : es[i] = es.getLast hne := by
      rw [List.getLast_eq_getElem]; congr 1; omega
    rw [hget]
    exact (List.perm_append_singleton _ _).symm.trans
      (by rw [List.dropLast_append_getLast hne])
  · next hlast =>
    have hne : es ≠ [] := by rintro rfl; simp at hi
    rw [List.getLast?_eq_getLast_of_ne_nil hne]
    have hlen : i < es.dropLast.length := by simp; omega
    have hdown := siftDown_perm cmp i (es.getLast hne) es.dropLast hlen
    have hset := set_dropLast_perm (show i + 1 < es.length by omega)
    dsimp only
    split
    · next hstay =>
      have hup := siftUp_perm cmp i (es.getLast hne)
        (siftDown cmp i (es.getLast hne) es.dropLast) (by rw [hdown.length_eq]; simpa using hlen)
      -- the cell already holds `moved`, so the second sift starts from the same contents
      rw [set_eq_self hstay] at hup
      exact ((hup.trans hdown).cons _).trans hset
    · exact (hdown.cons _).trans hset

/-- `remove(Object)` takes out one equal element, or nothing when there is none. -/
theorem remove_cases (isEqual : α → Bool) (es : List α) :
    (remove cmp isEqual es = es ∧ ∀ y ∈ es, isEqual y = false) ∨
    ∃ i, ∃ hi : i < es.length, isEqual es[i] = true ∧ remove cmp isEqual es = removeAt cmp i es ∧
      (es[i] :: remove cmp isEqual es).Perm es := by
  unfold remove
  cases h : es.findIdx? isEqual with
  | none => exact .inl ⟨rfl, List.findIdx?_eq_none_iff.mp h⟩
  | some i =>
    obtain ⟨hi,heq,_⟩ := List.findIdx?_eq_some_iff_getElem.mp h
    exact .inr ⟨i,hi,heq,rfl,removeAt_perm cmp hi⟩

end ImSingle.Library.PriorityQueue
