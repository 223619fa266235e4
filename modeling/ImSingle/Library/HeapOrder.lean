import ImSingle.Library.PriorityQueue
import Mathlib.Order.WithBot
import Mathlib.Logic.Function.Basic

/-! Heap order of the array priority queue. The order is stated on the function from a cell's
index to its key, with `⊤` past the end: a missing child is never too small, and the sifts
become updates of one function at the hole. -/
namespace ImSingle.Library.PriorityQueue

lemma parent_lt {i : ℕ} (h : 0 < i) : parent i < i := by unfold parent; omega

lemma parent_eq_iff {i k : ℕ} (h : 0 < i) : parent i = k ↔ i = 2*k+1 ∨ i = 2*k+2 := by
  unfold parent; omega

section order
variable {β : Type*} [LinearOrder β] {f : ℕ → β} {k : ℕ}

/-- No cell's key is below its parent's. -/
def Ordered (f : ℕ → β) : Prop := ∀ i, 0 < i → f (parent i) ≤ f i

/-- Only the pair of `k` and its parent may be out of order, and `k`'s children are in order
with that parent: the start of a sift up. -/
structure UpOrdered (f : ℕ → β) (k : ℕ) : Prop where
  off : ∀ i, 0 < i → i ≠ k → f (parent i) ≤ f i
  grand : 0 < k → ∀ c, 0 < c → parent c = k → f (parent k) ≤ f c

/-- No pair but those of `k` may be out of order, whatever stands at `k`: the start of a
sift down. -/
structure HoleOrdered (f : ℕ → β) (k : ℕ) : Prop where
  off : ∀ i, 0 < i → i ≠ k → parent i ≠ k → f (parent i) ≤ f i
  grand : 0 < k → ∀ c, 0 < c → parent c = k → f (parent k) ≤ f c

theorem Ordered.root_le (h : Ordered f) (i : ℕ) : f 0 ≤ f i := by
  induction i using Nat.strong_induction_on with
  | _ i ih =>
    rcases Nat.eq_zero_or_pos i with rfl | hi
    · exact le_rfl
    · exact (ih _ (parent_lt hi)).trans (h i hi)

/-- Every cell below the root has one of the root's two children above it. -/
theorem Ordered.child_le (h : Ordered f) {i : ℕ} (hi : 0 < i) : f 1 ≤ f i ∨ f 2 ≤ f i := by
  induction i using Nat.strong_induction_on with
  | _ i ih =>
    rcases Nat.eq_zero_or_pos (parent i) with hp | hp
    · rcases (parent_eq_iff hi).mp hp with rfl | rfl
      · exact .inl le_rfl
      · exact .inr le_rfl
    · have hle := h i hi
      exact (ih _ (parent_lt hi) hp).imp hle.trans' hle.trans'

theorem Ordered.upOrdered (h : Ordered f) (k : ℕ) : UpOrdered f k :=
  ⟨fun i hi _ => h i hi, fun hk c hc hck => (h k hk).trans (hck ▸ h c hc)⟩

theorem Ordered.holeOrdered (h : Ordered f) (k : ℕ) : HoleOrdered f k :=
  ⟨fun i hi _ _ => h i hi, (h.upOrdered k).grand⟩

theorem UpOrdered.ordered (h : UpOrdered f k) (hk : 0 < k → f (parent k) ≤ f k) : Ordered f := by
  intro i hi
  by_cases hik : i = k
  · subst hik; exact hk hi
  · exact h.off i hi hik

/-- One step of a sift up: the parent's key comes down and the hole goes up. -/
theorem UpOrdered.move (h : UpOrdered f k) (hk : 0 < k) (hlt : f k < f (parent k)) :
    UpOrdered (Function.update (Function.update f k (f (parent k))) (parent k) (f k))
      (parent k) := by
  have hp := parent_lt hk
  have hup : 0 < parent k → f (parent (parent k)) ≤ f (parent k) :=
    fun h0 => h.off _ h0 hp.ne
  constructor
  · intro i hi hip
    by_cases hik : i = k
    · subst hik
      simpa [Function.update_of_ne hp.ne'] using hlt.le
    · have hchild : parent i = k → f (parent k) ≤ f i := h.grand hk i hi
      have hoff := h.off i hi hik
      grind [Function.update_apply]
  · intro h0 c hc hcp
    have hpp := parent_lt h0
    have hcpos := parent_lt hc
    have hpar : parent (parent k) ≠ k := by omega
    rw [Function.update_of_ne hpp.ne, Function.update_of_ne hpar,
      Function.update_of_ne (show c ≠ parent k by omega)]
    by_cases hck : c = k
    · subst hck; simpa using hup h0
    · rw [Function.update_of_ne hck]
      exact (hup h0).trans (hcp ▸ h.off c hc hck)

/-- A hole filled with a key that its neighbours allow on both sides. -/
theorem HoleOrdered.upOrdered (h : HoleOrdered f k) {v : β}
    (hv : ∀ c, 0 < c → parent c = k → v ≤ f c) : UpOrdered (Function.update f k v) k := by
  constructor
  · intro i hi hik
    rw [Function.update_of_ne hik]
    by_cases hp : parent i = k
    · simpa [hp] using hv i hi hp
    · rw [Function.update_of_ne hp]; exact h.off i hi hik hp
  · intro hk c hc hck
    have := parent_lt hc
    rw [Function.update_of_ne (parent_lt hk).ne, Function.update_of_ne (by omega)]
    exact h.grand hk c hc hck

/-- One step of a sift down: the least child's key goes up and the hole goes down. -/
theorem HoleOrdered.move (h : HoleOrdered f k) {c : ℕ} (hc : 0 < c) (hck : parent c = k)
    (hleast : ∀ d, 0 < d → parent d = k → f c ≤ f d) :
    HoleOrdered (Function.update f k (f c)) c := by
  have hkc : k < c := hck ▸ parent_lt hc
  constructor
  · intro i hi hic hpc
    by_cases hik : i = k
    · subst hik
      simpa [Function.update_of_ne (parent_lt hi).ne] using h.grand hi c hc hck
    · rw [Function.update_of_ne hik]
      by_cases hp : parent i = k
      · simpa [hp] using hleast i hi hp
      · rw [Function.update_of_ne hp]; exact h.off i hi hik hp
  · intro _ d hd hdc
    have hcd : c < d := hdc ▸ parent_lt hd
    rw [hck, Function.update_self, Function.update_of_ne (by omega)]
    simpa [hdc] using h.off d hd (by omega) (by omega)

/-- A hole's order does not depend on what stands in the hole. -/
theorem HoleOrdered.congr {g : ℕ → β} (h : HoleOrdered f k) (hg : ∀ i, i ≠ k → g i = f i) :
    HoleOrdered g k := by
  constructor
  · intro i hi hik hp
    rw [hg i hik, hg _ hp]; exact h.off i hi hik hp
  · intro hk c hc hck
    have := parent_lt hc
    rw [hg c (by omega), hg _ (parent_lt hk).ne]; exact h.grand hk c hc hck

/-- Emptying the last cell keeps the order around a hole elsewhere. -/
theorem HoleOrdered.clear [OrderTop β] (h : HoleOrdered f k) {s : ℕ} (hs : ∀ c, s < c → f c = ⊤) :
    HoleOrdered (Function.update f s ⊤) k := by
  constructor
  · intro i hi hik hp
    by_cases his : i = s
    · subst his; simp
    · rw [Function.update_of_ne his]
      by_cases hps : parent i = s
      · have : s < i := hps ▸ parent_lt hi
        simp [hs i this]
      · rw [Function.update_of_ne hps]; exact h.off i hi hik hp
  · intro hk c hc hck
    have hkc : k < c := hck ▸ parent_lt hc
    by_cases hcs : c = s
    · subst hcs; simp
    · rw [Function.update_of_ne hcs]
      by_cases hps : parent k = s
      · have : s < k := hps ▸ parent_lt hk
        simp [hs c (by omega)]
      · rw [Function.update_of_ne hps]; exact h.grand hk c hc hck

end order

section keys
variable {α κ : Type*}

/-- The key in a cell, `⊤` past the end of the array. -/
def keyAt (key : α → κ) (es : List α) (i : ℕ) : WithTop κ :=
  match es[i]? with
  | some a => key a
  | none => ⊤

/-- The comparator's sign is the order of the keys. -/
structure SignOf [LinearOrder κ] (cmp : α → α → ℤ) (key : α → κ) : Prop where
  nonneg : ∀ a b, 0 ≤ cmp a b ↔ key b ≤ key a
  nonpos : ∀ a b, cmp a b ≤ 0 ↔ key a ≤ key b

variable {cmp : α → α → ℤ} {key : α → κ}

lemma SignOf.pos [LinearOrder κ] (h : SignOf cmp key) (a b : α) : 0 < cmp a b ↔ key b < key a := by
  rw [← not_le,← not_le]; exact (h.nonpos a b).not

variable (key) in
theorem keyAt_of_getElem? {es : List α} {i : ℕ} {a : α} (h : es[i]? = some a) :
    keyAt key es i = key a := by simp [keyAt,h]

variable (key) in
theorem keyAt_of_length_le {es : List α} {i : ℕ} (h : es.length ≤ i) : keyAt key es i = ⊤ := by
  simp [keyAt,List.getElem?_eq_none h]

variable (key) in
theorem keyAt_set {es : List α} {k : ℕ} (hk : k < es.length) (x : α) :
    keyAt key (es.set k x) = Function.update (keyAt key es) k (key x) := by
  funext i
  by_cases h : i = k
  · subst h; simp [keyAt,hk]
  · simp [keyAt,Function.update_of_ne h,List.getElem?_set_ne (Ne.symm h)]

theorem keyAt_append_singleton (es : List α) (x : α) :
    keyAt key (es ++ [x]) = Function.update (keyAt key es) es.length (key x) := by
  funext i
  by_cases h : i = es.length
  · subst h; simp [keyAt]
  · rw [Function.update_of_ne h]
    rcases Nat.lt_or_gt_of_ne h with hlt | hgt
    · simp [keyAt,List.getElem?_append_left hlt]
    · rw [keyAt_of_length_le key (by simp; omega),keyAt_of_length_le key (by omega)]

theorem keyAt_dropLast (es : List α) :
    keyAt key es.dropLast = Function.update (keyAt key es) (es.length - 1) ⊤ := by
  funext i
  by_cases h : i = es.length - 1
  · subst h; rw [keyAt_of_length_le key (by simp)]; simp
  · rw [Function.update_of_ne h]
    by_cases hlt : i < es.length - 1
    · rw [keyAt,List.getElem?_dropLast,if_pos hlt,keyAt]
    · rw [keyAt_of_length_le key (by simp; omega),keyAt_of_length_le key (by omega)]

theorem leastChild_none {k : ℕ} {es : List α} (h : leastChild cmp k es = none) {c : ℕ}
    (hc : 0 < c) (hck : parent c = k) : keyAt key es c = ⊤ := by
  have hnone : es[2*k+1]? = none := by
    unfold leastChild at h
    split at h
    · assumption
    · cases h
    · split at h <;> cases h
  have := List.getElem?_eq_none_iff.mp hnone
  rcases (parent_eq_iff hc).mp hck with rfl | rfl <;> exact keyAt_of_length_le key (by omega)

variable [LinearOrder κ] (hcmp : SignOf cmp key)
include hcmp

theorem siftUpLoop_ordered (fuel k : ℕ) (x : α) (es : List α) (hfuel : k ≤ fuel)
    (hk : k < es.length) (h : UpOrdered (keyAt key (es.set k x)) k) :
    Ordered (keyAt key (siftUpLoop cmp fuel k x es)) := by
  have hset := keyAt_set key hk x
  induction fuel generalizing k es with
  | zero => exact h.ordered (by omega)
  | succ fuel ih =>
    unfold siftUpLoop
    split
    · next hpos =>
      have hp := parent_lt hpos
      rw [List.getElem?_eq_getElem (by omega : parent k < es.length)]
      have hpar : keyAt key (es.set k x) (parent k) = key es[parent k] := by
        rw [hset,Function.update_of_ne hp.ne]
        exact keyAt_of_getElem? key (List.getElem?_eq_getElem (by omega))
      have hself : keyAt key (es.set k x) k = key x := by simp [hset]
      dsimp only
      split
      · next hge =>
        refine h.ordered fun _ => ?_
        rw [hpar,hself]
        exact WithTop.coe_le_coe.mpr ((hcmp.nonneg _ _).mp hge)
      · next hlt =>
        have hlen : parent k < (es.set k es[parent k]).length := by simp; omega
        have hstep := h.move hpos (by
          rw [hpar,hself]
          exact WithTop.coe_lt_coe.mpr (not_le.mp fun hle => hlt ((hcmp.nonneg _ _).mpr hle)))
        apply ih _ _ (by omega) hlen _ (keyAt_set key hlen x)
        rw [keyAt_set key hlen,keyAt_set key hk]
        rwa [hself,hpar,hset,Function.update_idem] at hstep
    · next hzero => exact h.ordered (by omega)

theorem siftUp_ordered {k : ℕ} {x : α} {es : List α} (hk : k < es.length)
    (h : UpOrdered (keyAt key (es.set k x)) k) : Ordered (keyAt key (siftUp cmp k x es)) :=
  siftUpLoop_ordered hcmp k k x es le_rfl hk h

/-- `add` keeps heap order. -/
theorem add_ordered {x : α} {es : List α} (h : Ordered (keyAt key es)) :
    Ordered (keyAt key (add cmp x es)) := by
  apply siftUp_ordered hcmp (by simp)
  rw [keyAt_set key (by simp),keyAt_append_singleton,Function.update_idem]
  refine (h.holeOrdered _).upOrdered fun c hc hck => ?_
  have := parent_lt hc
  simp [keyAt_of_length_le key (show es.length ≤ c by omega)]

theorem leastChild_le {k child : ℕ} {c : α} {es : List α}
    (h : leastChild cmp k es = some (child,c)) {d : ℕ} (hd : 0 < d) (hdk : parent d = k) :
    (key c : WithTop κ) ≤ keyAt key es d := by
  unfold leastChild at h
  split at h
  · cases h
  · next c' hl hr =>
    cases h
    rcases (parent_eq_iff hd).mp hdk with rfl | rfl
    · exact (keyAt_of_getElem? key hl).ge
    · simp [keyAt,hr]
  · next c' r hl hr =>
    split at h <;> cases h
    · next hlt =>
      rcases (parent_eq_iff hd).mp hdk with rfl | rfl
      · rw [keyAt_of_getElem? key hl]
        exact WithTop.coe_le_coe.mpr ((hcmp.pos _ _).mp hlt).le
      · exact (keyAt_of_getElem? key hr).ge
    · next hle =>
      rcases (parent_eq_iff hd).mp hdk with rfl | rfl
      · exact (keyAt_of_getElem? key hl).ge
      · rw [keyAt_of_getElem? key hr]
        exact WithTop.coe_le_coe.mpr ((hcmp.nonpos _ _).mp (not_lt.mp hle))

/-- The first round of a sift down either leaves the hole where it is, with nothing smaller
below, or moves the least child up, which is smaller than the element to place. -/
theorem siftDownLoop_cases (fuel k : ℕ) (x : α) (es : List α) (hfuel : es.length ≤ fuel + k)
    (hk : k < es.length) :
    (siftDownLoop cmp fuel k x es = es.set k x ∧
      ∀ c, 0 < c → parent c = k → (key x : WithTop κ) ≤ keyAt key es c) ∨
    ∃ fuel' child c, fuel = fuel'+1 ∧ es[child]? = some c ∧ parent child = k ∧ k < child ∧
      key c < key x ∧ (∀ d, 0 < d → parent d = k → (key c : WithTop κ) ≤ keyAt key es d) ∧
      siftDownLoop cmp fuel k x es = siftDownLoop cmp fuel' child x (es.set k c) := by
  cases fuel with
  | zero => omega
  | succ fuel =>
    rw [siftDownLoop]
    split
    · next hnone =>
      exact .inl ⟨rfl, fun c hc hck => by rw [leastChild_none hnone hc hck]; exact le_top⟩
    · next child c hsome =>
      obtain ⟨hget,hchild⟩ := leastChild_some cmp hsome
      have hpos : 0 < child := by omega
      have hleast := fun d (hd : 0 < d) hdk => leastChild_le hcmp hsome hd hdk
      split
      · next hle =>
        refine .inl ⟨rfl, fun d hd hdk => le_trans ?_ (hleast d hd hdk)⟩
        exact WithTop.coe_le_coe.mpr ((hcmp.nonpos _ _).mp hle)
      · next hgt =>
        refine .inr ⟨fuel,child,c,rfl,hget,(parent_eq_iff hpos).mpr hchild,by omega,?_,hleast,rfl⟩
        exact (hcmp.pos _ _).mp (not_le.mp hgt)

theorem siftDownLoop_ordered (fuel k : ℕ) (x : α) (es : List α) (hfuel : es.length ≤ fuel + k)
    (hk : k < es.length) (h : HoleOrdered (keyAt key es) k)
    (habove : 0 < k → keyAt key es (parent k) ≤ key x) :
    Ordered (keyAt key (siftDownLoop cmp fuel k x es)) := by
  induction fuel generalizing k es with
  | zero => omega
  | succ fuel ih =>
    rcases siftDownLoop_cases hcmp (fuel+1) k x es hfuel hk with
      ⟨hstay,hbelow⟩ | ⟨fuel',child,c,hf,hget,hpar,hlt,hcx,hleast,hmove⟩
    · rw [hstay,keyAt_set key hk]
      refine (h.upOrdered hbelow).ordered fun hpos => ?_
      simpa [Function.update_of_ne (parent_lt hpos).ne] using habove hpos
    · cases hf
      have hchild : child < es.length := (List.getElem?_eq_some_iff.mp hget).1
      rw [hmove]
      have hset := keyAt_set key hk c
      rw [← keyAt_of_getElem? key hget] at hset hleast
      apply ih child (es.set k c) (by simp; omega) (by simpa using hchild)
      · rw [hset]; exact h.move (by omega) hpar hleast
      · intro _
        rw [hset,hpar,Function.update_self,keyAt_of_getElem? key hget]
        exact WithTop.coe_le_coe.mpr hcx.le

/-- A sift down from a hole restores heap order, or leaves its element in the hole, where only
a smaller one than the parent's can be out of order. -/
theorem siftDown_cases {k : ℕ} {x : α} {es : List α} (hk : k < es.length)
    (h : HoleOrdered (keyAt key es) k) :
    Ordered (keyAt key (siftDown cmp k x es)) ∨
    (siftDown cmp k x es = es.set k x ∧ UpOrdered (keyAt key (es.set k x)) k) := by
  rcases siftDownLoop_cases hcmp es.length k x es (by omega) hk with
    ⟨hstay,hbelow⟩ | ⟨fuel',child,c,hf,hget,hpar,hlt,hcx,hleast,hmove⟩
  · exact .inr ⟨hstay, by rw [keyAt_set key hk]; exact h.upOrdered hbelow⟩
  · left
    have hchild : child < es.length := (List.getElem?_eq_some_iff.mp hget).1
    unfold siftDown
    rw [hmove]
    have hset := keyAt_set key hk c
    rw [← keyAt_of_getElem? key hget] at hset hleast
    apply siftDownLoop_ordered hcmp _ child x _ (by simp; omega) (by simpa using hchild)
    · rw [hset]; exact h.move (by omega) hpar hleast
    · intro _
      rw [hset,hpar,Function.update_self,keyAt_of_getElem? key hget]
      exact WithTop.coe_le_coe.mpr hcx.le

/-- `removeAt` restores heap order even when the removed element's own key was out of order. -/
theorem removeAt_ordered [DecidableEq α] {i : ℕ} {es : List α} (hi : i < es.length)
    (h : HoleOrdered (keyAt key es) i) : Ordered (keyAt key (removeAt cmp i es)) := by
  have hclear : HoleOrdered (keyAt key es.dropLast) i := by
    rw [keyAt_dropLast]
    exact h.clear fun c hc => keyAt_of_length_le key (by omega)
  unfold removeAt
  split
  · -- the removed cell was the last one: past it there is only `⊤`
    next hlast =>
    have hself : Function.update (keyAt key es.dropLast) i ⊤ = keyAt key es.dropLast := by
      rw [Function.update_eq_self_iff,keyAt_of_length_le key (by simp; omega)]
    rw [← hself]
    refine (hclear.upOrdered fun c hc hck => ?_).ordered fun _ => by simp
    have := parent_lt hc
    rw [keyAt_of_length_le key (by simp; omega)]
  · next hlast =>
    have hne : es ≠ [] := by rintro rfl; simp at hi
    have hlen : i < es.dropLast.length := by simp; omega
    rw [List.getLast?_eq_getLast_of_ne_nil hne]
    dsimp only
    rcases siftDown_cases hcmp (x := es.getLast hne) hlen hclear with hord | ⟨hstay,hup⟩
    · split
      · next hsame =>
        apply siftUp_ordered hcmp
        · exact (List.getElem?_eq_some_iff.mp hsame).1
        · rw [set_eq_self hsame]; exact hord.upOrdered i
      · exact hord
    · rw [hstay]
      have hget : (es.dropLast.set i (es.getLast hne))[i]? = some (es.getLast hne) := by
        rw [List.getElem?_set_self hlen]
      rw [if_pos hget]
      exact siftUp_ordered hcmp (by simpa using hlen) (by rwa [set_eq_self hget])

end keys
end ImSingle.Library.PriorityQueue
