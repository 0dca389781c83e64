import AsyncSimple.Library.LinkedList

/-!
# A shared stack and the lists taken from it

Cells are pushed onto one shared stack.  A party takes a prefix of the stack for
itself and then works through it.  This module keeps track of who has a cell: it is
on the stack, or in the list of one party, or free.

Main results:

- Theorem {lit}`Owned.push`: a free cell goes onto the stack.
- Theorem {lit}`Owned.take`: a party takes a prefix of the stack.
- Theorem {lit}`Owned.drop`: a party lets go of the first cell of its list.
- Theorems {lit}`balance_enter` and {lit}`balance_leave`: a cell has entered a place once more
  often than it has left it exactly while it is there.
-/

namespace PointerList

universe u v

variable {α : Type u} {κ : Type v}

/-- No cell is met twice on the stack and in the lists of the parties. -/
structure Owned (stack : List α) (taken : κ → List α) : Prop where
  stackNodup : stack.Nodup
  takenNodup : ∀ k, (taken k).Nodup
  apart : ∀ k, ∀ a ∈ taken k, a ∉ stack
  single : ∀ k k' a, a ∈ taken k → a ∈ taken k' → k = k'

/-- Somebody has the cell. -/
def Listed (stack : List α) (taken : κ → List α) (a : α) : Prop :=
  a ∈ stack ∨ ∃ k, a ∈ taken k

variable {stack : List α} {taken : κ → List α} {a b : α} {k : κ}

theorem Owned.empty : Owned ([] : List α) fun _ : κ => [] :=
  ⟨List.nodup_nil, fun _ => List.nodup_nil, nofun, nofun⟩

theorem Owned.push (h : Owned stack taken) (ha : ¬ Listed stack taken a) :
    Owned (a :: stack) taken := by
  refine ⟨List.nodup_cons.mpr ⟨fun hmem => ha (.inl hmem), h.stackNodup⟩, h.takenNodup, ?_,
    h.single⟩
  intro k b hb hmem
  rcases List.mem_cons.mp hmem with hba | hold
  · subst hba
    exact ha (.inr ⟨k, hb⟩)
  · exact h.apart k b hb hold

theorem listed_push : Listed (a :: stack) taken b ↔ b = a ∨ Listed stack taken b := by
  unfold Listed
  rw [List.mem_cons, or_assoc]

variable [DecidableEq κ]

/-- A party without a list takes a prefix of the stack. -/
theorem Owned.take {front : List α} (h : Owned (front ++ stack) taken) (hk : taken k = []) :
    Owned stack (Function.update taken k front) := by
  rcases List.nodup_append.mp h.stackNodup with ⟨hfirst, hstack, hdisjoint⟩
  have hother : ∀ k', k' ≠ k → Function.update taken k front k' = taken k' := fun k' hne =>
    Function.update_of_ne hne _ _
  refine ⟨hstack, ?_, ?_, ?_⟩
  · intro k'
    by_cases hk' : k' = k
    · subst hk'
      rw [Function.update_self]
      exact hfirst
    · rw [hother k' hk']
      exact h.takenNodup k'
  · intro k' b hb hmem
    by_cases hk' : k' = k
    · subst hk'
      rw [Function.update_self] at hb
      exact hdisjoint b hb b hmem rfl
    · rw [hother k' hk'] at hb
      exact h.apart k' b hb (List.mem_append_right _ hmem)
  · intro k₁ k₂ b h₁ h₂
    by_cases hk₁ : k₁ = k
    · by_cases hk₂ : k₂ = k
      · rw [hk₁, hk₂]
      · subst hk₁
        rw [Function.update_self] at h₁
        rw [hother k₂ hk₂] at h₂
        exact absurd (List.mem_append_left _ h₁) (h.apart k₂ b h₂)
    · by_cases hk₂ : k₂ = k
      · subst hk₂
        rw [Function.update_self] at h₂
        rw [hother k₁ hk₁] at h₁
        exact absurd (List.mem_append_left _ h₂) (h.apart k₁ b h₁)
      · rw [hother k₁ hk₁] at h₁
        rw [hother k₂ hk₂] at h₂
        exact h.single k₁ k₂ b h₁ h₂

theorem listed_take {front : List α} (hk : taken k = []) :
    Listed stack (Function.update taken k front) b ↔ Listed (front ++ stack) taken b := by
  unfold Listed
  rw [List.mem_append]
  constructor
  · rintro (hstack | ⟨k', hk'⟩)
    · exact .inl (.inr hstack)
    · by_cases hkk : k' = k
      · subst hkk
        rw [Function.update_self] at hk'
        exact .inl (.inl hk')
      · rw [Function.update_of_ne hkk] at hk'
        exact .inr ⟨k', hk'⟩
  · rintro ((hfirst | hstack) | ⟨k', hk'⟩)
    · exact .inr ⟨k, by rwa [Function.update_self]⟩
    · exact .inl hstack
    · have hkk : k' ≠ k := by
        intro hkk
        rw [hkk, hk] at hk'
        cases hk'
      exact .inr ⟨k', by rwa [Function.update_of_ne hkk]⟩

/-- A party lets go of the first cell of its list. -/
theorem Owned.drop {rest : List α} (h : Owned stack taken) (hk : taken k = a :: rest) :
    Owned stack (Function.update taken k rest) := by
  have hsub : ∀ k' b, b ∈ Function.update taken k rest k' → b ∈ taken k' := by
    intro k' b hb
    by_cases hk' : k' = k
    · subst hk'
      rw [Function.update_self] at hb
      rw [hk]
      exact List.mem_cons_of_mem _ hb
    · rwa [Function.update_of_ne hk'] at hb
  refine ⟨h.stackNodup, ?_, fun k' b hb => h.apart k' b (hsub k' b hb), ?_⟩
  · intro k'
    by_cases hk' : k' = k
    · subst hk'
      have hnodup := h.takenNodup k'
      rw [hk] at hnodup
      rw [Function.update_self]
      exact (List.nodup_cons.mp hnodup).2
    · rw [Function.update_of_ne hk']
      exact h.takenNodup k'
  · intro k₁ k₂ b h₁ h₂
    exact h.single k₁ k₂ b (hsub k₁ b h₁) (hsub k₂ b h₂)

/-- The cell that was let go is free, and nothing else has changed. -/
theorem Owned.listed_drop {rest : List α} (h : Owned stack taken) (hk : taken k = a :: rest) :
    Listed stack (Function.update taken k rest) b ↔ b ≠ a ∧ Listed stack taken b := by
  have hnodup := h.takenNodup k
  rw [hk] at hnodup
  have ha := (List.nodup_cons.mp hnodup).1
  have hmem : a ∈ taken k := by
    rw [hk]
    exact List.mem_cons_self
  constructor
  · rintro (hstack | ⟨k', hk'⟩)
    · refine ⟨?_, .inl hstack⟩
      intro hba
      rw [hba] at hstack
      exact h.apart k a hmem hstack
    · by_cases hkk : k' = k
      · subst hkk
        rw [Function.update_self] at hk'
        refine ⟨fun hba => ha (hba ▸ hk'), .inr ⟨k', ?_⟩⟩
        rw [hk]
        exact List.mem_cons_of_mem _ hk'
      · rw [Function.update_of_ne hkk] at hk'
        refine ⟨?_, .inr ⟨k', hk'⟩⟩
        intro hba
        rw [hba] at hk'
        exact hkk (h.single k' k a hk' hmem)
  · rintro ⟨hne, hstack | ⟨k', hk'⟩⟩
    · exact .inl hstack
    · refine .inr ⟨k', ?_⟩
      by_cases hkk : k' = k
      · subst hkk
        rw [Function.update_self]
        rw [hk] at hk'
        exact (List.mem_cons.mp hk').resolve_left hne
      · rwa [Function.update_of_ne hkk]

/-! ## Entering and leaving a place -/

section Balance

variable {β : Type v} [DecidableEq β] {entered left : α → Nat} {place : α → β} {inside p : β}

/-- A cell has left at most as often as it has entered, and has entered at most once more. -/
theorem balance_bounds (h : ∀ c, entered c = left c + if place c = inside then 1 else 0) (c : α) :
    left c ≤ entered c ∧ entered c ≤ left c + 1 := by
  have hcount := h c
  split at hcount <;> omega

/-- A cell that has entered more often than it has left is inside. -/
theorem inside_of_lt (h : ∀ c, entered c = left c + if place c = inside then 1 else 0) {c : α}
    (hc : left c < entered c) : place c = inside := by
  by_contra hne
  have hcount := h c
  rw [if_neg hne] at hcount
  omega

variable [DecidableEq α]

/-- A cell moves from one place outside to another one. -/
theorem balance_move (h : ∀ c, entered c = left c + if place c = inside then 1 else 0)
    (ha : place a ≠ inside) (hp : p ≠ inside) (c : α) :
    entered c = left c + if Function.update place a p c = inside then 1 else 0 := by
  have hcount := h c
  by_cases hc : c = a
  · subst hc
    rw [if_neg ha] at hcount
    rw [Function.update_self, if_neg hp, hcount]
  · rwa [Function.update_of_ne hc]

theorem balance_enter (h : ∀ c, entered c = left c + if place c = inside then 1 else 0)
    (ha : place a ≠ inside) (c : α) :
    Function.update entered a (entered a + 1) c =
      left c + if Function.update place a inside c = inside then 1 else 0 := by
  have hcount := h c
  by_cases hc : c = a
  · subst hc
    rw [if_neg ha] at hcount
    rw [Function.update_self, Function.update_self, if_pos rfl, hcount]
  · rwa [Function.update_of_ne hc, Function.update_of_ne hc]

theorem balance_leave (h : ∀ c, entered c = left c + if place c = inside then 1 else 0)
    (ha : place a = inside) (hp : p ≠ inside) (c : α) :
    entered c = Function.update left a (left a + 1) c +
      if Function.update place a p c = inside then 1 else 0 := by
  have hcount := h c
  by_cases hc : c = a
  · subst hc
    rw [if_pos ha] at hcount
    rw [Function.update_self, Function.update_self, if_neg hp, hcount]
  · rwa [Function.update_of_ne hc, Function.update_of_ne hc]

end Balance

end PointerList
