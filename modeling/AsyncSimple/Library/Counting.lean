import Mathlib.Algebra.BigOperators.Group.Finset.Piecewise
import Mathlib.Algebra.Order.BigOperators.Group.Finset
import Mathlib.Data.Fintype.Card
import Mathlib.Data.List.Nodup
import Mathlib.Data.Nat.Count

/-!
# Counting the parties of a concurrent program

Invariants of concurrent programs often count the parties that are at certain
program points.  {lit}`tally` is that number, and moving one party changes it by
that party alone.  {lit}`tallyBelow` is the same number for parties that are created one after
another, at some moment.

A counter that every party decrements once gives the parties an order: the value
a party finds determines its place.  {lit}`CountDown` ties the counter, the order
of the decrements and the values found to each other; {lit}`Logged` says that a
list records exactly the parties with some property.

Main results:

- Theorem {lit}`CountDown.down`: one more party decrements the counter.
- Theorem {lit}`CountDown.inj`: no two parties find the same value.
- Theorem {lit}`CountDown.all_of_one`: the party that finds one is the last.
-/

namespace Transition

universe u v w

variable {ι : Type u} {α : Type v} [Fintype ι]

/-- Number of the parties whose value satisfies {lit}`p`. -/
def tally (p : α → Bool) (f : ι → α) : Nat :=
  (Finset.univ.filter fun i => p (f i) = true).card

/-- One party is enough. -/
theorem tally_pos {p : α → Bool} {f : ι → α} {i : ι} (h : p (f i) = true) : 0 < tally p f :=
  Finset.card_pos.mpr ⟨i, Finset.mem_filter.mpr ⟨Finset.mem_univ i, h⟩⟩

theorem exists_of_tally_pos {p : α → Bool} {f : ι → α} (h : 0 < tally p f) :
    ∃ i, p (f i) = true := by
  rcases Finset.card_pos.mp h with ⟨i, hi⟩
  exact ⟨i, (Finset.mem_filter.mp hi).2⟩

theorem tally_eq_zero {p : α → Bool} {f : ι → α} (h : ∀ i, p (f i) = false) :
    tally p f = 0 := by
  by_contra hne
  rcases exists_of_tally_pos (Nat.pos_of_ne_zero hne) with ⟨i, hi⟩
  rw [h i] at hi
  cases hi

/-- A weaker property has the larger tally. -/
theorem tally_le_tally {p q : α → Bool} {f : ι → α} (h : ∀ a, p a = true → q a = true) :
    tally p f ≤ tally q f :=
  Finset.card_le_card (Finset.monotone_filter_right _ fun i _ hi => h (f i) hi)

variable [DecidableEq ι]

/-- What the parties have together changes by the moved one; what a value counts may depend on
the party that has it. -/
theorem sum_update_weighted (r : ι → α → Nat) (f : ι → α) (i : ι) (a : α) :
    ∑ j, r j (Function.update f i a j) + r i (f i) = ∑ j, r j (f j) + r i a := by
  have hmoved : (fun j => r j (Function.update f i a j)) =
      Function.update (fun j => r j (f j)) i (r i a) := by
    funext j
    by_cases hj : j = i
    · subst hj
      simp
    · simp [hj]
  have hrest := Finset.add_sum_erase Finset.univ (fun j => r j (f j)) (Finset.mem_univ i)
  rw [hmoved, Finset.sum_update_of_mem (Finset.mem_univ i), Finset.sdiff_singleton_eq_erase,
    ← hrest]
  omega

theorem sum_update (r : α → Nat) (f : ι → α) (i : ι) (a : α) :
    ∑ j, r (Function.update f i a j) + r (f i) = ∑ j, r (f j) + r a :=
  sum_update_weighted (fun _ => r) f i a

/-- Moving one party. -/
theorem tally_update (p : α → Bool) (f : ι → α) (i : ι) (a : α) :
    tally p (Function.update f i a) + (if p (f i) then 1 else 0) =
      tally p f + if p a then 1 else 0 := by
  unfold tally
  rw [Finset.card_filter, Finset.card_filter]
  exact sum_update (fun b => if p b = true then 1 else 0) f i a

/-- A move that does not change the property keeps the tally. -/
theorem tally_update_of_eq {p : α → Bool} {f : ι → α} {i : ι} {a : α} (h : p a = p (f i)) :
    tally p (Function.update f i a) = tally p f := by
  have hupdate := tally_update p f i a
  rw [h] at hupdate
  omega

/-- A party that comes nearer to its end makes the whole come nearer. -/
theorem sum_update_lt {r : α → Nat} {f : ι → α} {i : ι} {a : α} (h : r a < r (f i)) :
    ∑ j, r (Function.update f i a j) < ∑ j, r (f j) := by
  have hupdate := sum_update r f i a
  omega

/-- A move that does not change what a function says about the party changes it
for nobody. -/
theorem apply_update_of_eq {ι : Type u} [DecidableEq ι] {β : Type w} {f : α → β} {g : ι → α}
    {i : ι} {a : α} (h : f a = f (g i)) (j : ι) : f (Function.update g i a j) = f (g j) := by
  by_cases hj : j = i
  · subst hj
    rw [Function.update_self, h]
  · rw [Function.update_of_ne hj]

theorem iff_update_of_iff {ι : Type u} [DecidableEq ι] {p : α → Prop} {g : ι → α} {i : ι} {a : α}
    (h : p a ↔ p (g i)) (j : ι) : p (Function.update g i a j) ↔ p (g j) :=
  Iff.of_eq (apply_update_of_eq (propext h) j)

/-- A move keeps what holds of every party when it holds of the moved one. -/
theorem forall_update {ι : Type u} [DecidableEq ι] {p : ι → α → Prop} {g : ι → α} {i : ι} {a : α}
    (ha : p i a) (hg : ∀ j, p j (g j)) (j : ι) : p j (Function.update g i a j) :=
  (Function.forall_update_iff g p).mpr ⟨ha, fun k _ => hg k⟩ j

/-! ## Parties that are created one after another -/

theorem mem_tail_finRange {n : Nat} {i : Fin (n + 1)} :
    i ∈ (List.finRange (n + 1)).tail ↔ i ≠ 0 := by
  rw [List.finRange_succ, List.tail_cons]
  simp [Fin.exists_succ_eq]

/-- Number of the first {lit}`n` parties whose value satisfies {lit}`p`. -/
def tallyBelow (p : α → Bool) (f : Nat → α) (n : Nat) : Nat :=
  Nat.count (fun i => p (f i) = true) n

theorem tallyBelow_succ (p : α → Bool) (f : Nat → α) (n : Nat) :
    tallyBelow p f (n + 1) = tallyBelow p f n + if p (f n) then 1 else 0 :=
  Nat.count_succ (fun i => p (f i) = true) n

theorem tallyBelow_congr {p : α → Bool} {f g : Nat → α} {n : Nat}
    (h : ∀ i < n, p (f i) = p (g i)) : tallyBelow p f n = tallyBelow p g n := by
  apply Nat.le_antisymm
  · exact Nat.count_mono_left fun i hi hf => (h i hi).symm.trans hf
  · exact Nat.count_mono_left fun i hi hg => (h i hi).trans hg

theorem tallyBelow_eq_zero {p : α → Bool} {f : Nat → α} {n : Nat}
    (h : ∀ i < n, p (f i) = false) : tallyBelow p f n = 0 :=
  Nat.count_iff_forall_not.mpr fun i hi => by simp [h i hi]

theorem exists_of_tallyBelow_pos {p : α → Bool} {f : Nat → α} {n : Nat}
    (h : 0 < tallyBelow p f n) : ∃ i < n, p (f i) = true :=
  Nat.count_ne_iff_exists.mp (Nat.ne_of_gt h)

/-- Moving one party. -/
theorem tallyBelow_update (p : α → Bool) (f : Nat → α) {i n : Nat} (hi : i < n) (a : α) :
    tallyBelow p (Function.update f i a) n + (if p (f i) then 1 else 0) =
      tallyBelow p f n + if p a then 1 else 0 := by
  induction n with
  | zero => omega
  | succ n ih =>
      rw [tallyBelow_succ, tallyBelow_succ]
      rcases Nat.lt_succ_iff_lt_or_eq.mp hi with hlt | rfl
      · have hold := ih hlt
        rw [Function.update_of_ne (Nat.ne_of_gt hlt)]
        omega
      · have hsame : tallyBelow p (Function.update f i a) i = tallyBelow p f i :=
          tallyBelow_congr fun j hj => by rw [Function.update_of_ne (Nat.ne_of_lt hj)]
        rw [hsame, Function.update_self]
        omega

/-! ## Records of the parties that have done something -/

/-- The list records exactly the parties with the property, each once. -/
structure Logged {ι : Type u} (log : List ι) (P : ι → Prop) : Prop where
  nodup : log.Nodup
  mem_iff : ∀ i, i ∈ log ↔ P i

namespace Logged

variable {ι : Type u} {log : List ι} {P Q : ι → Prop}

theorem congr (h : Logged log P) (hPQ : ∀ i, Q i ↔ P i) : Logged log Q :=
  ⟨h.nodup, fun i => (h.mem_iff i).trans (hPQ i).symm⟩

/-- One more party gets the property. -/
theorem append (h : Logged log P) {i : ι} (hi : ¬ P i) (hQ : ∀ j, Q j ↔ P j ∨ j = i) :
    Logged (log ++ [i]) Q := by
  refine ⟨?_, fun j => ?_⟩
  · rw [List.nodup_append]
    refine ⟨h.nodup, List.nodup_singleton i, ?_⟩
    intro j hj k hk hjk
    rw [List.mem_singleton] at hk
    subst hjk hk
    exact hi ((h.mem_iff j).mp hj)
  · rw [List.mem_append, List.mem_singleton, h.mem_iff, hQ]

/-- A property that at most one party has. -/
theorem length_le_one (h : Logged log P) (hP : ∀ i j, P i → P j → i = j) : log.length ≤ 1 := by
  rcases log with _ | ⟨i, _ | ⟨j, rest⟩⟩
  · simp
  · simp
  · have hij : i = j := hP i j ((h.mem_iff i).mp (by simp)) ((h.mem_iff j).mp (by simp))
    have hnodup := h.nodup
    simp [hij] at hnodup

theorem eq_singleton (h : Logged log P) (hP : ∀ i j, P i → P j → i = j) {i : ι} (hi : P i) :
    log = [i] := by
  have hlength := h.length_le_one hP
  have hmem := (h.mem_iff i).mpr hi
  rcases log with _ | ⟨j, _ | ⟨k, rest⟩⟩
  · simp at hmem
  · rw [List.mem_singleton.mp hmem]
  · simp at hlength

theorem eq_nil_iff (h : Logged log P) : log = [] ↔ ∀ i, ¬ P i := by
  rw [List.eq_nil_iff_forall_not_mem]
  exact forall_congr' fun i => not_congr (h.mem_iff i)

end Logged

/-! ## A counter that every party decrements once -/

/-- The counter began at {lit}`start`; {lit}`downs` are the parties in the order
of their decrements and {lit}`old` the values they found. -/
structure CountDown {ι : Type u} (start : Nat) (downs : List ι) (old : ι → Option Int)
    (count : Int) : Prop where
  count_eq : count = start - downs.length
  old_iff : ∀ i o, old i = some o ↔ ∃ k : Nat, downs[k]? = some i ∧ o = start - k

namespace CountDown

section

variable {ι : Type u} {start : Nat} {downs : List ι} {old : ι → Option Int} {count : Int}

theorem initial (start : Nat) (hold : ∀ i, old i = none) :
    CountDown (ι := ι) start [] old start := by
  refine ⟨by simp, fun i o => ?_⟩
  simp [hold i]

/-- Only the values found matter. -/
theorem congr {old' : ι → Option Int} (h : CountDown start downs old count)
    (hold : ∀ i, old' i = old i) : CountDown start downs old' count :=
  ⟨h.count_eq, fun i o => by rw [hold i]; exact h.old_iff i o⟩

theorem mem_iff (h : CountDown start downs old count) (i : ι) :
    i ∈ downs ↔ ∃ o, old i = some o := by
  constructor
  · intro hi
    rcases List.mem_iff_getElem?.mp hi with ⟨k, hk⟩
    exact ⟨_, (h.old_iff i _).mpr ⟨k, hk, rfl⟩⟩
  · rintro ⟨o, ho⟩
    rcases (h.old_iff i o).mp ho with ⟨k, hk, -⟩
    exact List.mem_of_getElem? hk

/-- The value found is above the present one and not above the start. -/
theorem bounds (h : CountDown start downs old count) {i : ι} {o : Int} (ho : old i = some o) :
    count < o ∧ o ≤ start := by
  rcases (h.old_iff i o).mp ho with ⟨k, hk, rfl⟩
  have hlt : k < downs.length := (List.getElem?_eq_some_iff.mp hk).1
  rw [h.count_eq]
  omega

/-- No two parties find the same value. -/
theorem inj (h : CountDown start downs old count) {i j : ι} {o : Int} (hi : old i = some o)
    (hj : old j = some o) : i = j := by
  rcases (h.old_iff i o).mp hi with ⟨k, hk, hko⟩
  rcases (h.old_iff j o).mp hj with ⟨m, hm, hmo⟩
  have hkm : k = m := by omega
  subst hkm
  rw [hk] at hm
  exact Option.some.inj hm

/-- The party that finds the start value is the first one. -/
theorem first_iff (h : CountDown start downs old count) (i : ι) :
    old i = some (start : Int) ↔ downs.head? = some i := by
  rw [h.old_iff, List.head?_eq_getElem?]
  constructor
  · rintro ⟨k, hk, hstart⟩
    have hzero : k = 0 := by omega
    rwa [hzero] at hk
  · intro hk
    exact ⟨0, hk, by simp⟩

theorem nodup (h : CountDown start downs old count) : downs.Nodup := by
  rw [List.nodup_iff_getElem?_ne_getElem?]
  intro k m hkm hm heq
  have hk : downs[k]? = some downs[k] := List.getElem?_eq_getElem (hkm.trans hm)
  have hfirst := (h.old_iff downs[k] _).mpr ⟨k, hk, rfl⟩
  have hsecond := (h.old_iff downs[k] _).mpr ⟨m, heq ▸ hk, rfl⟩
  rw [hfirst, Option.some.injEq] at hsecond
  omega

variable [DecidableEq ι]

/-- One more party decrements the counter. -/
theorem down (h : CountDown start downs old count) {i : ι} (hi : old i = none) :
    CountDown start (downs ++ [i]) (Function.update old i (some count)) (count - 1) := by
  have hnew : i ∉ downs := by
    rw [h.mem_iff, hi]
    simp
  refine ⟨by rw [h.count_eq, List.length_append]; simp; omega, fun j o => ?_⟩
  by_cases hj : j = i
  · subst hj
    rw [Function.update_self, Option.some.injEq, h.count_eq]
    constructor
    · rintro rfl
      exact ⟨downs.length, by simp, rfl⟩
    · rintro ⟨k, hk, rfl⟩
      rcases Nat.lt_trichotomy k downs.length with hlt | rfl | hgt
      · rw [List.getElem?_append_left hlt] at hk
        exact absurd (List.mem_of_getElem? hk) hnew
      · rfl
      · rw [List.getElem?_eq_none (by simp; omega)] at hk
        cases hk
  · rw [Function.update_of_ne hj, h.old_iff]
    refine exists_congr fun k => and_congr_left fun _ => ?_
    rcases Nat.lt_trichotomy k downs.length with hlt | rfl | hgt
    · rw [List.getElem?_append_left hlt]
    · simp [Ne.symm hj]
    · rw [List.getElem?_eq_none (by omega), List.getElem?_eq_none (by simp; omega)]

end

section

variable {ι : Type u} [Fintype ι] {start : Nat} {downs : List ι} {old : ι → Option Int}
  {count : Int}

/-- With a unit for every party the counter does not go below zero. -/
theorem count_nonneg (h : CountDown start downs old count) (hstart : Fintype.card ι ≤ start) :
    0 ≤ count := by
  have hlength := h.nodup.length_le_card
  rw [h.count_eq]
  omega

/-- While a party has not decremented the counter, it is positive. -/
theorem count_pos (h : CountDown start downs old count) (hstart : Fintype.card ι ≤ start) {i : ι}
    (hi : old i = none) : 0 < count := by
  have hnew : i ∉ downs := by
    rw [h.mem_iff, hi]
    simp
  have hlength := (List.nodup_cons.mpr ⟨hnew, h.nodup⟩).length_le_card
  rw [List.length_cons] at hlength
  rw [h.count_eq]
  omega

/-- The party that finds one is the last: all have decremented the counter. -/
theorem all_of_one (h : CountDown start downs old count) (hstart : Fintype.card ι ≤ start) {i : ι}
    (hi : old i = some 1) (j : ι) : ∃ o, old j = some o := by
  rw [← Option.ne_none_iff_exists']
  intro hj
  have hpos := h.count_pos hstart hj
  have hbounds := h.bounds hi
  omega

/-- When all have decremented the counter, every value down to one was found. -/
theorem exists_of_all [DecidableEq ι] (h : CountDown start downs old count)
    (hall : ∀ i, ∃ o, old i = some o) {k : Nat} (hk : k < Fintype.card ι) :
    ∃ i, old i = some (start - k : Int) := by
  have huniv : downs.toFinset = Finset.univ := by
    ext i
    simpa [h.mem_iff] using hall i
  have hlength : downs.length = Fintype.card ι := by
    rw [← List.toFinset_card_of_nodup h.nodup, huniv, Finset.card_univ]
  rw [← hlength] at hk
  exact ⟨downs[k], (h.old_iff _ _).mpr ⟨k, List.getElem?_eq_getElem hk, rfl⟩⟩

end

end CountDown

end Transition
