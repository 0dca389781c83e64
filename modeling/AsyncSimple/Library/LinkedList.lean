import Mathlib.Logic.Function.Basic
import Mathlib.Data.List.Nodup

/-!
# Singly linked lists in a pointer store

Cells are the elements of a type and the store is the function {lit}`next` that
gives every cell its successor; {lit}`none` is the null pointer.  A list is
described by the cells that are met on the way from a pointer to null.

Main results:

- Theorem {lit}`Chain.congr`: only the cells on the chain matter.
- Theorem {lit}`Chain.push`: linking a fresh cell in front of a chain.
- Theorem {lit}`reverseOnto_spec`: in-place reversal onto a second chain.
-/

namespace PointerList

universe u

variable {α : Type u}

/-- The cells met on the way from a pointer to null are exactly the list. -/
def Chain (next : α → Option α) : Option α → List α → Prop
  | p, [] => p = none
  | p, a :: l => p = some a ∧ Chain next (next a) l

@[simp]
theorem chain_nil {next : α → Option α} {p : Option α} : Chain next p [] ↔ p = none :=
  Iff.rfl

@[simp]
theorem chain_cons {next : α → Option α} {p : Option α} {a : α} {l : List α} :
    Chain next p (a :: l) ↔ p = some a ∧ Chain next (next a) l :=
  Iff.rfl

/-- The null pointer carries the empty list only. -/
@[simp]
theorem chain_none {next : α → Option α} {l : List α} : Chain next none l ↔ l = [] := by
  cases l <;> simp

/-- A cell pointer carries a list that starts with this cell. -/
theorem chain_some {next : α → Option α} {a : α} {l : List α} (h : Chain next (some a) l) :
    ∃ rest, l = a :: rest ∧ Chain next (next a) rest := by
  cases l with
  | nil => simp at h
  | cons b rest =>
      rcases h with ⟨hb, hrest⟩
      cases hb
      exact ⟨rest, rfl, hrest⟩

/-- A pointer carries one list only. -/
theorem Chain.unique {next : α → Option α} {p : Option α} {l m : List α} (hl : Chain next p l)
    (hm : Chain next p m) : l = m := by
  induction l generalizing p m with
  | nil =>
      rw [chain_nil] at hl
      rw [hl, chain_none] at hm
      exact hm.symm
  | cons a l ih =>
      rcases hl with ⟨rfl, hrest⟩
      rcases chain_some hm with ⟨rest, rfl, hrest'⟩
      rw [ih hrest hrest']

/-- A store that agrees on the cells of a chain carries the same chain. -/
theorem Chain.congr {next next' : α → Option α} {p : Option α} {l : List α}
    (h : Chain next p l) (hagree : ∀ a ∈ l, next' a = next a) : Chain next' p l := by
  induction l generalizing p with
  | nil => exact h
  | cons a l ih =>
      rcases h with ⟨hp, hrest⟩
      refine ⟨hp, ?_⟩
      rw [hagree a (by simp)]
      exact ih hrest fun b hb => hagree b (by simp [hb])

variable [DecidableEq α]

/-- Writing to a cell outside the chain leaves the chain as it is. -/
theorem Chain.update {next : α → Option α} {p q : Option α} {a : α} {l : List α}
    (h : Chain next p l) (ha : a ∉ l) : Chain (Function.update next a q) p l := by
  apply h.congr
  intro b hb
  have hba : b ≠ a := fun hba => ha (hba ▸ hb)
  exact Function.update_of_ne hba _ _

/-- Linking a fresh cell in front of a chain. -/
theorem Chain.push {next : α → Option α} {p : Option α} {a : α} {l : List α}
    (h : Chain next p l) (ha : a ∉ l) : Chain (Function.update next a p) (some a) (a :: l) := by
  refine ⟨rfl, ?_⟩
  rw [Function.update_self]
  exact h.update ha

/-- Unlink the cells of one list one after the other and push them onto
another one.  The fuel bounds the number of cells. -/
def reverseOnto : Nat → (α → Option α) → Option α → Option α → (α → Option α) × Option α
  | 0, next, _, head => (next, head)
  | _ + 1, next, none, head => (next, head)
  | fuel + 1, next, some waiter, head =>
      reverseOnto fuel (Function.update next waiter head) (next waiter) (some waiter)

/-- With enough fuel the loop ends in the reversed list in front of the one it
was pushed onto. -/
theorem reverseOnto_spec {fuel : Nat} {next : α → Option α} {p head : Option α} {l m : List α}
    (hfuel : l.length ≤ fuel) (hnodup : (l ++ m).Nodup)
    (hl : Chain next p l) (hm : Chain next head m) :
    Chain (reverseOnto fuel next p head).1 (reverseOnto fuel next p head).2 (l.reverse ++ m) := by
  induction fuel generalizing next p head l m with
  | zero =>
      have hnil : l = [] := by simpa using hfuel
      subst hnil
      simpa [reverseOnto] using hm
  | succ fuel ih =>
      cases l with
      | nil =>
          rw [chain_nil] at hl
          subst hl
          simpa [reverseOnto] using hm
      | cons a l =>
          rcases hl with ⟨rfl, hrest⟩
          have ha : a ∉ l ∧ a ∉ m := by
            simpa [not_or] using (List.nodup_cons.mp hnodup).1
          have hnodup' : (l ++ a :: m).Nodup := by
            rw [List.nodup_middle]
            exact hnodup
          have hfuel' : l.length ≤ fuel := by simpa using hfuel
          have hlater := ih hfuel' hnodup' (hrest.update ha.1) (hm.push ha.2)
          simpa [reverseOnto] using hlater

end PointerList
