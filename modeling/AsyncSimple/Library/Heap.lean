import Mathlib.Algebra.BigOperators.Fin
import Mathlib.Algebra.Order.BigOperators.Group.Finset

/-!
# A heap of cells

Cells are allocated one after another and their addresses are not used again, so that an access
to a cell that was freed can be told from every other access.  A heap carries the fact that
nothing lives at an address that has not been given out.

Main results:

- Theorems {lit}`cell_alloc`, {lit}`cell_allocFamily`, {lit}`cell_set` and {lit}`cell_free`: what
  is in the cells after an operation.
- Theorems {lit}`sameOn_alloc`, {lit}`sameOn_set` and {lit}`sameOn_free`: which cells an operation
  leaves alone.
- Theorems {lit}`weigh_update` and {lit}`weigh_extend`: what the cells weigh together.
-/

namespace Storage

universe u

/-- {lit}`next` is the first address that has not been given out. -/
structure Heap (γ : Type u) where
  next : Nat
  cell : Nat → Option γ
  fresh : ∀ i, next ≤ i → cell i = none

namespace Heap

variable {γ : Type u}

def empty : Heap γ where
  next := 0
  cell := fun _ => none
  fresh := fun _ _ => rfl

theorem lt_next (h : Heap γ) {i : Nat} {g : γ} (hi : h.cell i = some g) : i < h.next := by
  by_contra hge
  rw [h.fresh i (Nat.le_of_not_lt hge)] at hi
  cases hi

/-- A new cell at the address {lit}`next`. -/
def alloc (h : Heap γ) (g : γ) : Heap γ where
  next := h.next + 1
  cell := Function.update h.cell h.next (some g)
  fresh := by
    intro i hi
    rw [Function.update_of_ne (by omega)]
    exact h.fresh i (by omega)

/-- {lit}`n` values, one after another from {lit}`start` on, in front of the values of
{lit}`cell`. -/
def extend (cell : Nat → Option γ) (start : Nat) {n : Nat} (g : Fin n → γ) : Nat → Option γ :=
  fun i => if hi : start ≤ i ∧ i - start < n then some (g ⟨i - start, hi.2⟩) else cell i

theorem extend_add (cell : Nat → Option γ) (start : Nat) {n : Nat} (g : Fin n → γ) (i : Fin n) :
    extend cell start g (start + i) = some (g i) := by
  have hi : start ≤ start + i ∧ start + i - start < n := by omega
  refine (dif_pos hi).trans ?_
  exact congrArg (fun j => some (g j)) (Fin.ext (Nat.add_sub_cancel_left _ _))

theorem extend_of_lt (cell : Nat → Option γ) {start : Nat} {n : Nat} (g : Fin n → γ) {i : Nat}
    (hi : i < start) : extend cell start g i = cell i :=
  dif_neg (by omega)

theorem extend_of_ge (cell : Nat → Option γ) {start : Nat} {n : Nat} (g : Fin n → γ) {i : Nat}
    (hi : start + n ≤ i) : extend cell start g i = cell i :=
  dif_neg (by omega)

theorem extend_one (cell : Nat → Option γ) (start : Nat) (g : γ) :
    extend cell start (fun _ : Fin 1 => g) = Function.update cell start (some g) := by
  funext i
  by_cases hi : i = start
  · subst hi
    rw [Function.update_self]
    exact extend_add cell i (fun _ : Fin 1 => g) ⟨0, Nat.one_pos⟩
  · rw [Function.update_of_ne hi]
    exact dif_neg (by omega)

/-- A value is one of the new ones or was there before. -/
theorem extend_cases (cell : Nat → Option γ) (start : Nat) {n : Nat} (g : Fin n → γ) (i : Nat) :
    (∃ k : Fin n, i = start + k ∧ extend cell start g i = some (g k)) ∨
      ((∀ k : Fin n, i ≠ start + k) ∧ extend cell start g i = cell i) := by
  by_cases hi : start ≤ i ∧ i - start < n
  · exact .inl ⟨⟨i - start, hi.2⟩, (Nat.add_sub_cancel' hi.1).symm, dif_pos hi⟩
  · refine .inr ⟨?_, dif_neg hi⟩
    rintro k rfl
    exact hi ⟨Nat.le_add_right _ _, by omega⟩

/-- A family of new cells, one after another from the address {lit}`next` on. -/
def allocFamily (h : Heap γ) {n : Nat} (g : Fin n → γ) : Heap γ where
  next := h.next + n
  cell := extend h.cell h.next g
  fresh := by
    intro i hi
    rw [extend_of_ge _ _ hi]
    exact h.fresh i (by omega)

/-- Write a cell; nothing happens at an address without one. -/
def set (h : Heap γ) (i : Nat) (g : γ) : Heap γ where
  next := h.next
  cell := Function.update h.cell i ((h.cell i).map fun _ => g)
  fresh := by
    intro j hj
    have hnone := h.fresh j hj
    by_cases hji : j = i
    · subst hji
      rw [Function.update_self, hnone, Option.map_none]
    · rwa [Function.update_of_ne hji]

def free (h : Heap γ) (i : Nat) : Heap γ where
  next := h.next
  cell := Function.update h.cell i none
  fresh := by
    intro j hj
    by_cases hji : j = i
    · subst hji
      exact Function.update_self _ _ _
    · rw [Function.update_of_ne hji]
      exact h.fresh j hj

/-! ## What is in the cells -/

@[simp]
theorem next_alloc (h : Heap γ) (g : γ) : (h.alloc g).next = h.next + 1 :=
  rfl

@[simp]
theorem next_allocFamily (h : Heap γ) {n : Nat} (g : Fin n → γ) :
    (h.allocFamily g).next = h.next + n :=
  rfl

@[simp]
theorem next_set (h : Heap γ) (i : Nat) (g : γ) : (h.set i g).next = h.next :=
  rfl

@[simp]
theorem next_free (h : Heap γ) (i : Nat) : (h.free i).next = h.next :=
  rfl

@[simp]
theorem cell_empty (i : Nat) : (empty : Heap γ).cell i = none :=
  rfl

theorem cell_alloc (h : Heap γ) (g : γ) (i : Nat) :
    (h.alloc g).cell i = if i = h.next then some g else h.cell i :=
  Function.update_apply _ _ _ _

@[simp]
theorem cell_alloc_next (h : Heap γ) (g : γ) : (h.alloc g).cell h.next = some g := by
  rw [cell_alloc, if_pos rfl]

/-- Allocation does not touch the cells that are there. -/
theorem cell_alloc_of_some {h : Heap γ} {g g' : γ} {i : Nat} (hi : h.cell i = some g') :
    (h.alloc g).cell i = some g' := by
  rw [cell_alloc, if_neg (Nat.ne_of_lt (h.lt_next hi)), hi]

theorem cell_allocFamily_add (h : Heap γ) {n : Nat} (g : Fin n → γ) (i : Fin n) :
    (h.allocFamily g).cell (h.next + i) = some (g i) :=
  extend_add _ _ g i

theorem cell_allocFamily_of_some {h : Heap γ} {n : Nat} {g : Fin n → γ} {g' : γ} {i : Nat}
    (hi : h.cell i = some g') : (h.allocFamily g).cell i = some g' :=
  (extend_of_lt h.cell g (h.lt_next hi)).trans hi

/-- A cell after the allocation of a family is a new one or was there before. -/
theorem cell_allocFamily {h : Heap γ} {n : Nat} {g : Fin n → γ} {g' : γ} {i : Nat}
    (hi : (h.allocFamily g).cell i = some g') :
    (∃ k : Fin n, i = h.next + k ∧ g' = g k) ∨ h.cell i = some g' := by
  rcases extend_cases h.cell h.next g i with ⟨k, rfl, hk⟩ | ⟨-, hold⟩
  · exact .inl ⟨k, rfl, Option.some.inj (hi.symm.trans hk)⟩
  · exact .inr (hold.symm.trans hi)

theorem cell_set (h : Heap γ) (i : Nat) (g : γ) (j : Nat) :
    (h.set i g).cell j = if j = i then (h.cell i).map fun _ => g else h.cell j :=
  Function.update_apply _ _ _ _

theorem cell_set_self {h : Heap γ} {i : Nat} {g g' : γ} (hi : h.cell i = some g') :
    (h.set i g).cell i = some g := by
  rw [cell_set, if_pos rfl, hi, Option.map_some]

@[simp]
theorem cell_set_of_ne {h : Heap γ} {i j : Nat} {g : γ} (hj : j ≠ i) :
    (h.set i g).cell j = h.cell j := by
  rw [cell_set, if_neg hj]

/-- The second of two writes counts. -/
theorem set_set (h : Heap γ) (i : Nat) (g g' : γ) : (h.set i g).set i g' = h.set i g' := by
  have hcell : ((h.set i g).set i g').cell = (h.set i g').cell := by
    funext j
    by_cases hj : j = i
    · subst hj
      simp only [cell_set, if_true, Option.map_map]
      rfl
    · simp only [cell_set_of_ne hj]
  unfold set at hcell ⊢
  simp only [Heap.mk.injEq, true_and]
  exact hcell

@[simp]
theorem cell_free_self (h : Heap γ) (i : Nat) : (h.free i).cell i = none :=
  Function.update_self _ _ _

@[simp]
theorem cell_free_of_ne {h : Heap γ} {i j : Nat} (hj : j ≠ i) :
    (h.free i).cell j = h.cell j :=
  Function.update_of_ne hj _ _

theorem cell_free (h : Heap γ) (i j : Nat) :
    (h.free i).cell j = if j = i then none else h.cell j :=
  Function.update_apply _ _ _ _

/-! ## Cells that an operation leaves alone -/

/-- The cells with some property are the same ones in both heaps. -/
def SameOn (p : γ → Prop) (h h' : Heap γ) : Prop :=
  ∀ i g, p g → (h'.cell i = some g ↔ h.cell i = some g)

section

variable {p : γ → Prop} {h h' h'' : Heap γ} {i : Nat} {g g' : γ}

theorem SameOn.refl (p : γ → Prop) (h : Heap γ) : SameOn p h h :=
  fun _ _ _ => Iff.rfl

theorem SameOn.trans (hfirst : SameOn p h h') (hsecond : SameOn p h' h'') : SameOn p h h'' :=
  fun i g hg => (hsecond i g hg).trans (hfirst i g hg)

theorem sameOn_alloc (h : Heap γ) (hg : ¬ p g) : SameOn p h (h.alloc g) := by
  intro j f hf
  rw [cell_alloc]
  split
  case isTrue hj =>
    subst hj
    rw [h.fresh h.next le_rfl]
    constructor
    · intro hsome
      cases hsome
      exact absurd hf hg
    · intro hnone
      cases hnone
  case isFalse => exact Iff.rfl

theorem sameOn_allocFamily (h : Heap γ) {n : Nat} {f : Fin n → γ} (hf : ∀ i, ¬ p (f i)) :
    SameOn p h (h.allocFamily f) := by
  refine fun j g hg => ⟨fun hj => ?_, cell_allocFamily_of_some⟩
  rcases cell_allocFamily hj with ⟨k, -, rfl⟩ | hold
  · exact absurd hg (hf k)
  · exact hold

theorem sameOn_set (hi : h.cell i = some g') (hg' : ¬ p g') (hg : ¬ p g) :
    SameOn p h (h.set i g) := by
  intro j f hf
  by_cases hj : j = i
  · subst hj
    rw [cell_set_self hi, hi]
    constructor <;> intro hsome <;> cases hsome
    · exact absurd hf hg
    · exact absurd hf hg'
  · rw [cell_set_of_ne hj]

theorem sameOn_free (hi : h.cell i = some g') (hg' : ¬ p g') : SameOn p h (h.free i) := by
  intro j f hf
  by_cases hj : j = i
  · subst hj
    rw [cell_free_self, hi]
    constructor <;> intro hsome <;> cases hsome
    exact absurd hf hg'
  · rw [cell_free_of_ne hj]

end

/-! ## Lists of cells -/

/-- All cells with some property are in the list. -/
def CoveredBy (p : γ → Prop) (h : Heap γ) (l : List Nat) : Prop :=
  ∀ i g, h.cell i = some g → p g → i ∈ l

section

variable {p : γ → Prop} {h : Heap γ} {l : List Nat} {i : Nat}

theorem CoveredBy.set (hl : CoveredBy p h l) (hi : i ∈ l) (g : γ) :
    CoveredBy p (h.set i g) l := by
  intro j f hj hf
  by_cases hji : j = i
  · rw [hji]
    exact hi
  · rw [cell_set_of_ne hji] at hj
    exact hl j f hj hf

theorem CoveredBy.alloc (hl : CoveredBy p h l) (g : γ) : CoveredBy p (h.alloc g) (h.next :: l) := by
  intro j f hj hf
  rw [cell_alloc] at hj
  split at hj
  case isTrue hnext => exact List.mem_cons.mpr (.inl hnext)
  case isFalse => exact List.mem_cons_of_mem _ (hl j f hj hf)

theorem CoveredBy.free (hl : CoveredBy p h (i :: l)) : CoveredBy p (h.free i) l := by
  intro j f hj hf
  by_cases hji : j = i
  · rw [hji, cell_free_self] at hj
    cases hj
  · rw [cell_free_of_ne hji] at hj
    exact (List.mem_cons.mp (hl j f hj hf)).resolve_left hji

theorem CoveredBy.mono {l' : List Nat} (hl : CoveredBy p h l) (hsub : l ⊆ l') :
    CoveredBy p h l' :=
  fun i g hi hg => hsub (hl i g hi hg)

end

/-! ## What the cells weigh -/

/-- Sum of the weights of the values below {lit}`n`. -/
def weigh (n : Nat) (cell : Nat → Option γ) (weight : γ → Nat) : Nat :=
  ∑ i ∈ Finset.range n, ((cell i).map weight).getD 0

variable {cell : Nat → Option γ} (weight : γ → Nat) {n m i : Nat}

/-- Only the changed value weighs something else afterwards. -/
theorem weigh_update (hi : i < n) (o : Option γ) :
    weigh n (Function.update cell i o) weight + ((cell i).map weight).getD 0 =
      weigh n cell weight + (o.map weight).getD 0 := by
  have hmem : i ∈ Finset.range n := Finset.mem_range.mpr hi
  have hupdate : (fun j => ((Function.update cell i o j).map weight).getD 0) =
      Function.update (fun j => ((cell j).map weight).getD 0) i ((o.map weight).getD 0) := by
    funext j
    by_cases hj : j = i
    · subst hj
      rw [Function.update_self, Function.update_self]
    · rw [Function.update_of_ne hj, Function.update_of_ne hj]
  have hold := Finset.add_sum_erase (Finset.range n)
    (fun j => ((cell j).map weight).getD 0) hmem
  rw [weigh, weigh, hupdate, Finset.sum_update_of_mem hmem, Finset.sdiff_singleton_eq_erase,
    ← hold]
  omega

/-- Where nothing is, nothing weighs. -/
theorem weigh_of_le (hnone : ∀ i, n ≤ i → cell i = none) (hnm : n ≤ m) :
    weigh m cell weight = weigh n cell weight := by
  refine (Finset.sum_subset (Finset.range_subset_range.mpr hnm) fun i _ hi => ?_).symm
  rw [hnone i (Nat.le_of_not_lt fun hlt => hi (Finset.mem_range.mpr hlt))]
  rfl

theorem weigh_congr {weight weight' : γ → Nat}
    (h : ∀ i g, i < n → cell i = some g → weight' g = weight g) :
    weigh n cell weight' = weigh n cell weight := by
  refine Finset.sum_congr rfl fun i hi => ?_
  cases hcell : cell i with
  | none => rfl
  | some g => exact h i g (Finset.mem_range.mp hi) hcell

/-- A family of new values adds its weights. -/
theorem weigh_extend (g : Fin m → γ) :
    weigh (n + m) (extend cell n g) weight = weigh n cell weight + ∑ i, weight (g i) := by
  rw [weigh, Finset.sum_range_add, weigh]
  congr 1
  · refine Finset.sum_congr rfl fun i hi => ?_
    rw [extend_of_lt _ _ (Finset.mem_range.mp hi)]
  · rw [Finset.sum_range]
    refine Finset.sum_congr rfl fun i _ => ?_
    rw [extend_add]
    rfl

/-- Sum of the weights of the cells of a heap. -/
def total (h : Heap γ) (weight : γ → Nat) : Nat :=
  weigh h.next h.cell weight

theorem total_set {h : Heap γ} {g g' : γ} (hi : h.cell i = some g') :
    (h.set i g).total weight + weight g' = h.total weight + weight g := by
  have hset : (h.set i g).cell = Function.update h.cell i (some g) := by
    simp only [set, hi, Option.map_some]
  have hupdate : weigh h.next (Function.update h.cell i (some g)) weight +
      ((h.cell i).map weight).getD 0 = h.total weight + weight g :=
    weigh_update weight (h.lt_next hi) (some g)
  rw [hi] at hupdate
  rw [total, hset]
  exact hupdate

theorem total_alloc (h : Heap γ) (g : γ) :
    (h.alloc g).total weight = h.total weight + weight g := by
  rw [total, next_alloc, weigh, Finset.sum_range_succ, cell_alloc_next, total, weigh]
  congr 1
  refine Finset.sum_congr rfl fun i hi => ?_
  rw [cell_alloc, if_neg (Nat.ne_of_lt (Finset.mem_range.mp hi))]

end Heap

end Storage
