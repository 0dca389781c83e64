import AsyncSimple.Library.Machine
import Mathlib.Data.List.Nodup
import Mathlib.Order.Basic

/-!
# Coroutines that are entered on threads

An asymmetric coroutine is entered by somebody and goes back to whom it was entered by.  Every
thread therefore has a stack of coroutines, the innermost first, and executes the innermost one,
or its own code if there is none.  A coroutine that was left can be entered again on any thread.

Below this picture there are suspended computations that wait at addresses.  A jump to an address
resumes what waits there, uses up the address, and suspends the computation that has jumped at
another address.

Main results:

- Theorem {lit}`Proper.step`: a coroutine is entered at most once, on one thread.
- Theorem {lit}`run_proper`: this holds in every run.
- Theorem {lit}`exchange_of_waiting`: a jump leaves alone what waits at other addresses.
-/

namespace Coroutines

open Transition

universe u v w

/-! ## Stacks -/

section Stacks

variable {τ : Type u} {ι : Type v}

inductive Status where
  | unborn
  | alive
  | finished
deriving DecidableEq, Repr

/-- The coroutines that are entered on each thread, the innermost first. -/
structure Stacks (τ : Type u) (ι : Type v) where
  stack : τ → List ι
  status : ι → Status

def Stacks.initial : Stacks τ ι :=
  ⟨fun _ => [], fun _ => .unborn⟩

inductive Move (ι : Type v) where
  /-- a new coroutine is entered -/
  | create (c : ι)
  | enter (c : ι)
  /-- the innermost coroutine goes back to whom it was entered by -/
  | leave
  /-- it does so for good -/
  | finish
deriving DecidableEq, Repr

/-- The coroutine is entered on some thread. -/
def Stacks.Inside (a : Stacks τ ι) (c : ι) : Prop :=
  ∃ t, c ∈ a.stack t

/-- A coroutine is entered once, and only while it lives. -/
structure Proper (a : Stacks τ ι) : Prop where
  nodup : ∀ t, (a.stack t).Nodup
  single : ∀ t t' c, c ∈ a.stack t → c ∈ a.stack t' → t = t'
  alive : ∀ t c, c ∈ a.stack t → a.status c = .alive

/-- The moves that keep this: a coroutine is entered only from outside. -/
def Allowed (a : Stacks τ ι) : τ × Move ι → Prop
  | (_, .enter c) => ¬ a.Inside c
  | _ => True

theorem Proper.initial : Proper (Stacks.initial : Stacks τ ι) where
  nodup := fun _ => List.nodup_nil
  single := fun _ _ _ hmem => absurd hmem List.not_mem_nil
  alive := fun _ _ hmem => absurd hmem List.not_mem_nil

theorem Proper.not_inside_of_status {a : Stacks τ ι} {c : ι} (h : Proper a)
    (hstatus : a.status c ≠ .alive) : ¬ a.Inside c := by
  rintro ⟨t, hmem⟩
  exact hstatus (h.alive t c hmem)

variable [DecidableEq τ] [DecidableEq ι]

def Stacks.push (a : Stacks τ ι) (t : τ) (c : ι) : Stacks τ ι :=
  ⟨Function.update a.stack t (c :: a.stack t), Function.update a.status c .alive⟩

def Stacks.pop (a : Stacks τ ι) (t : τ) (c : ι) (rest : List ι) (status : Status) : Stacks τ ι :=
  ⟨Function.update a.stack t rest, Function.update a.status c status⟩

/-- A thread makes a move.  Whether a coroutine is entered already is for the caller to know. -/
def step (a : Stacks τ ι) : τ × Move ι → Option (Stacks τ ι)
  | (t, .create c) => if a.status c = .unborn then some (a.push t c) else none
  | (t, .enter c) => if a.status c = .alive then some (a.push t c) else none
  | (t, .leave) => match a.stack t with
      | [] => none
      | c :: rest => some (a.pop t c rest .alive)
  | (t, .finish) => match a.stack t with
      | [] => none
      | c :: rest => some (a.pop t c rest .finished)

def machine : Machine (Stacks τ ι) (τ × Move ι) :=
  ⟨step⟩

variable {a a' : Stacks τ ι} {t t' : τ} {c d : ι} {rest : List ι}

@[simp]
theorem push_stack_self : (a.push t c).stack t = c :: a.stack t := by
  simp [Stacks.push]

theorem push_stack_of_ne (hne : t' ≠ t) : (a.push t c).stack t' = a.stack t' := by
  simp [Stacks.push, hne]

@[simp]
theorem pop_stack_self {status : Status} : (a.pop t c rest status).stack t = rest := by
  simp [Stacks.pop]

theorem pop_stack_of_ne {status : Status} (hne : t' ≠ t) :
    (a.pop t c rest status).stack t' = a.stack t' := by
  simp [Stacks.pop, hne]

theorem mem_push : d ∈ (a.push t c).stack t' ↔ t' = t ∧ d = c ∨ d ∈ a.stack t' := by
  by_cases hne : t' = t
  · subst hne
    simp
  · simp [push_stack_of_ne hne, hne]

theorem inside_push : (a.push t c).Inside d ↔ d = c ∨ a.Inside d := by
  simp only [Stacks.Inside, mem_push]
  constructor
  · rintro ⟨t', ⟨-, rfl⟩ | hmem⟩
    · exact .inl rfl
    · exact .inr ⟨t', hmem⟩
  · rintro (rfl | ⟨t', hmem⟩)
    · exact ⟨t, .inl ⟨rfl, rfl⟩⟩
    · exact ⟨t', .inr hmem⟩

theorem Proper.push (h : Proper a) (hout : ¬ a.Inside c) : Proper (a.push t c) := by
  constructor
  · intro t'
    by_cases hne : t' = t
    · subst hne
      rw [push_stack_self]
      exact List.nodup_cons.mpr ⟨fun hmem => hout ⟨t', hmem⟩, h.nodup t'⟩
    · rw [push_stack_of_ne hne]
      exact h.nodup t'
  · intro t₁ t₂ d h₁ h₂
    by_cases hd : d = c
    · subst hd
      have hat : ∀ t', d ∈ (a.push t d).stack t' → t' = t := fun t' hmem =>
        ((mem_push.mp hmem).resolve_right fun hold => hout ⟨t', hold⟩).1
      rw [hat t₁ h₁, hat t₂ h₂]
    · have hold : ∀ t', d ∈ (a.push t c).stack t' → d ∈ a.stack t' := fun t' hmem =>
        (mem_push.mp hmem).resolve_left fun heq => hd heq.2
      exact h.single t₁ t₂ d (hold t₁ h₁) (hold t₂ h₂)
  · intro t' d hmem
    by_cases hd : d = c
    · simp [Stacks.push, hd]
    · simp only [Stacks.push, Function.update_of_ne hd]
      exact h.alive t' d ((mem_push.mp hmem).resolve_left fun heq => hd heq.2)

/-- What the innermost coroutine leaves behind. -/
theorem Proper.mem_pop (h : Proper a) (htop : a.stack t = c :: rest) {status : Status} :
    d ∈ (a.pop t c rest status).stack t' ↔ d ∈ a.stack t' ∧ d ≠ c := by
  have hfirst := h.nodup t
  rw [htop, List.nodup_cons] at hfirst
  by_cases hne : t' = t
  · subst hne
    rw [pop_stack_self, htop, List.mem_cons]
    constructor
    · intro hmem
      exact ⟨.inr hmem, fun hd => hfirst.1 (hd ▸ hmem)⟩
    · rintro ⟨rfl | hmem, hd⟩
      · exact absurd rfl hd
      · exact hmem
  · rw [pop_stack_of_ne hne]
    refine ⟨fun hmem => ⟨hmem, fun hd => hne ?_⟩, And.left⟩
    exact h.single t' t c (hd ▸ hmem) (htop ▸ List.mem_cons_self)

theorem Proper.inside_pop (h : Proper a) (htop : a.stack t = c :: rest) {status : Status} :
    (a.pop t c rest status).Inside d ↔ a.Inside d ∧ d ≠ c := by
  simp only [Stacks.Inside, h.mem_pop htop, exists_and_right]

theorem Proper.pop (h : Proper a) (htop : a.stack t = c :: rest) {status : Status} :
    Proper (a.pop t c rest status) := by
  constructor
  · intro t'
    by_cases hne : t' = t
    · subst hne
      have hold := h.nodup t'
      rw [htop] at hold
      rw [pop_stack_self]
      exact hold.of_cons
    · rw [pop_stack_of_ne hne]
      exact h.nodup t'
  · intro t₁ t₂ d h₁ h₂
    exact h.single t₁ t₂ d ((h.mem_pop htop).mp h₁).1 ((h.mem_pop htop).mp h₂).1
  · intro t' d hmem
    rcases (h.mem_pop htop).mp hmem with ⟨hold, hd⟩
    simp only [Stacks.pop, Function.update_of_ne hd]
    exact h.alive t' d hold

theorem Proper.step {l : τ × Move ι} (h : Proper a) (hallowed : Allowed a l)
    (hstep : machine.step a l = some a') : Proper a' := by
  rcases l with ⟨t, m⟩
  cases m with
  | create c =>
      simp only [machine, Coroutines.step] at hstep
      split at hstep
      · next hstatus =>
          cases hstep
          exact h.push (h.not_inside_of_status (by simp [hstatus]))
      · cases hstep
  | enter c =>
      simp only [machine, Coroutines.step] at hstep
      split at hstep
      · cases hstep
        exact h.push hallowed
      · cases hstep
  | leave =>
      simp only [machine, Coroutines.step] at hstep
      split at hstep
      · cases hstep
      · next htop =>
          cases hstep
          exact h.pop htop
  | finish =>
      simp only [machine, Coroutines.step] at hstep
      split at hstep
      · cases hstep
      · next htop =>
          cases hstep
          exact h.pop htop

/-- In every run in which coroutines are entered only from outside. -/
theorem run_proper {ls : List (τ × Move ι)}
    (hallowed : machine.RunsWithin Allowed Stacks.initial ls)
    (hrun : machine.run Stacks.initial ls = some a) : Proper a :=
  machine.runsWithin_invariant (P := Proper) (fun _ _ _ h hl hstep => h.step hl hstep)
    Proper.initial hallowed hrun

end Stacks

/-! ## Contexts -/

section Contexts

variable {α : Type u} {κ : Type v} [DecidableEq α]

/-- What waits after a jump to {lit}`target` in which the computation {lit}`k` that has jumped was
suspended at {lit}`saved`. -/
def exchange (waiting : α → Option κ) (target saved : α) (k : κ) : α → Option κ :=
  Function.update (Function.update waiting target none) saved (some k)

variable {waiting : α → Option κ} {target saved b : α} {k k' : κ}

@[simp]
theorem exchange_saved : exchange waiting target saved k saved = some k := by
  simp [exchange]

theorem exchange_of_waiting (hfree : waiting saved = none) (hne : b ≠ target)
    (hb : waiting b = some k') : exchange waiting target saved k b = some k' := by
  have hsaved : b ≠ saved := by
    rintro rfl
    simp [hfree] at hb
  rw [exchange, Function.update_of_ne hsaved, Function.update_of_ne hne, hb]

/-- Nothing waits twice: a computation that waits after the jump is the one that has jumped, or it
has waited before at an address that was not jumped to. -/
theorem exchange_cases (h : exchange waiting target saved k b = some k') :
    b = saved ∧ k' = k ∨ b ≠ saved ∧ b ≠ target ∧ waiting b = some k' := by
  by_cases hsaved : b = saved
  · subst hsaved
    simp only [exchange_saved, Option.some.injEq] at h
    exact .inl ⟨rfl, h.symm⟩
  · rw [exchange, Function.update_of_ne hsaved] at h
    by_cases htarget : b = target
    · subst htarget
      simp at h
    · rw [Function.update_of_ne htarget] at h
      exact .inr ⟨hsaved, htarget, h⟩

end Contexts

end Coroutines
