import AsyncSimple.Future.HandOff

/-!
# Several promise copies setting one shared state

The check {lit}`!hasResult()`, the store of {lit}`_try_value` and the exchange
of {lit}`_state` are separate steps of {lit}`setResult`, so two setters can
both pass the check.  The loser of the first exchange then falls through to
{lit}`case ONLY_CONTINUATION` with {lit}`ONLY_RESULT` in its local variable and
its second exchange succeeds.

Main results:

- Theorem {lit}`both_setters_return`: a run in which two calls return normally
  and an unset continuation is invoked.
- Theorem {lit}`one_setter_wins`: the calls behave as promised in every run in
  which no setter stores its value while another one has stored and not thrown.
-/

namespace AsyncSimple

open Transition

namespace FutureState

variable {ι ε α K : Type}

/-- The call is over. -/
def Pc.Ended (pc : Pc) : Prop :=
  pc = .returned ∨ ∃ e, pc = .threw e

/-- What is promised to promise copies that set one state: at most one call
returns normally and the stored result is its value, once all calls are over
exactly one has returned and every other one has thrown, and
{lit}`scheduleContinuation` is entered and the continuation invoked only after
one has been stored. -/
structure OneWins (value : ι → Try ε α) (func : K) (s : System ι ε α K) : Prop where
  returned_unique : ∀ i j, s.setter i = .returned → s.setter j = .returned → i = j
  stored_winner : ∀ i, s.setter i = .returned → s.shared.fs.tryValue = value i
  exactly_one : (∀ i, (s.setter i).Ended) →
    ∃ i, s.setter i = .returned ∧ ∀ j, j ≠ i → ∃ e, s.setter j = .threw e
  setter_scheduling : ∀ i, (s.setter i).phase = .owing → s.shared.fs.continuation = some func
  attacher_scheduling : s.attacher.phase = .owing → s.shared.fs.continuation = some func
  invoked_stored : ∀ c t, (c, t) ∈ s.shared.invoked → c = some func

/-! ## The promise is broken when two setters overlap -/

/-- Both setters pass the check, store and load {lit}`START`; the first one
publishes, the second one falls through and finishes. -/
def overlappingSetters (i j : Fin 2) : List (Label (Fin 2)) :=
  List.replicate 3 (.setResult i ⟨false, false⟩) ++
    List.replicate 3 (.setResult j ⟨false, false⟩) ++
    [.setResult i ⟨false, false⟩] ++ List.replicate 6 (.setResult j ⟨false, false⟩)

/-- Two calls return normally, and a continuation that was never stored has been
invoked. -/
theorem both_setters_return :
    ∃ s, (machine (fun i : Fin 2 => (.value i.val : Try Unit Nat)) ()).run
        (System.initial (configured none none false)) (overlappingSetters 0 1) = some s ∧
      s.setter 0 = .returned ∧ s.setter 1 = .returned ∧
      s.shared.invoked = [(none, .value 1)] ∧
      ¬ OneWins (fun i : Fin 2 => (.value i.val : Try Unit Nat)) () s := by
  obtain ⟨s, hrun, h0, h1, hinvoked⟩ := Machine.exists_run_of_any
    (machine (fun i : Fin 2 => (.value i.val : Try Unit Nat)) ())
    (System.initial (configured none none false)) (overlappingSetters 0 1)
    (fun s => s.setter 0 = .returned ∧ s.setter 1 = .returned ∧
      s.shared.invoked = [(none, .value 1)]) (by decide)
  refine ⟨s, hrun, h0, h1, hinvoked, fun hone => ?_⟩
  exact absurd (hone.returned_unique 0 1 h0 h1) (by decide)

/-! ## The promise is kept when the setters keep apart -/

section Apart

variable [DecidableEq ι] {value : ι → Try ε α} {func : K} {s : System ι ε α K}

omit [DecidableEq ι] in
theorem live_of_returned {i : ι} (h : s.setter i = .returned) : (s.setter i).phase.Live := by
  rw [h]
  exact Or.inr (Or.inr rfl)

omit [DecidableEq ι] in
theorem Inv.continuation_of_done (h : Inv value func s) (hdone : s.shared.fs.state = .done) :
    s.shared.fs.continuation = some func :=
  h.race.attached (h.race.continuation_iff.mp (by simp [hdone])).live

omit [DecidableEq ι] in
/-- When every call is over, one of them has won. -/
theorem Inv.exists_returned [Nonempty ι] (h : Inv value func s)
    (hended : ∀ i, (s.setter i).Ended) : ∃ i, s.setter i = .returned := by
  by_contra hnone
  obtain ⟨i⟩ := ‹Nonempty ι›
  rcases hended i with hi | ⟨e, he⟩
  · exact hnone ⟨i, hi⟩
  · rcases h.race.result_iff.mp (h.race.setter_threw i e he).2 with ⟨j, hwon⟩
    rcases hended j with hj | ⟨e', he'⟩
    · exact hnone ⟨j, hj⟩
    · simp [he', Pc.phase, Phase.Won] at hwon

omit [DecidableEq ι] in
/-- The invariant gives everything that is promised. -/
theorem Inv.oneWins [Nonempty ι] (h : Inv value func s) : OneWins value func s where
  returned_unique i j hi hj := h.race.unique i j (live_of_returned hi) (live_of_returned hj)
  stored_winner i hi := h.race.stored i (live_of_returned hi)
  exactly_one hended := by
    rcases h.exists_returned hended with ⟨i, hi⟩
    refine ⟨i, hi, fun j hji => (hended j).resolve_left fun hj => hji ?_⟩
    exact h.race.unique j i (live_of_returned hj) (live_of_returned hi)
  setter_scheduling i hi := h.continuation_of_done (h.debt.done_of_owing (.inl ⟨i, hi⟩))
  attacher_scheduling hi := h.continuation_of_done (h.debt.done_of_owing (.inr hi))
  invoked_stored c t hmem := by
    rcases h.debt.invoked_once with hnil | ⟨w, _, honce⟩
    · simp [hnil] at hmem
    · simp only [honce, List.mem_singleton, Prod.mk.injEq] at hmem
      exact hmem.1

end Apart

/-- For any number of promise copies that set one state, with or without a
concurrent {lit}`setContinuation`: in every run in which no setter stores its
value while another one has stored and not thrown, the calls behave as
promised in every state reached. -/
theorem one_setter_wins (n : Nat) (hn : 2 ≤ n) (value : Fin n → Try ε α) (func : K)
    (executor context : Option Nat) (forceSched : Bool) (ls : List (Label (Fin n)))
    (s : System (Fin n) ε α K)
    (hapart : (machine value func).RunsWithin SettersApart
      (System.initial (configured executor context forceSched)) ls)
    (hrun : (machine value func).run
      (System.initial (configured executor context forceSched)) ls = some s) :
    OneWins value func s := by
  have hnonempty : Nonempty (Fin n) := ⟨⟨0, by omega⟩⟩
  have hinv : Inv value func s :=
    Machine.runsWithin_invariant _ (fun _ _ _ h hok hstep => h.step hok hstep)
      Inv.initial hapart hrun
  exact hinv.oneWins

/-- One setter after the other, with the continuation attached in between. -/
def settersInTurn (i j : Fin 2) : List (Label (Fin 2)) :=
  List.replicate 4 (.setResult i ⟨false, false⟩) ++
    List.replicate 7 (.setContinuation ⟨false, false⟩) ++ [.setResult j ⟨false, false⟩]

theorem one_setter_wins_inTurn :
    ∃ s, (machine (fun i : Fin 2 => (.value i.val : Try Unit Nat)) ()).run
        (System.initial (configured none none false)) (settersInTurn 0 1) = some s ∧
      s.setter 1 = .threw .alreadyHasResult ∧ s.attacher = .returned ∧
      OneWins (fun i : Fin 2 => (.value i.val : Try Unit Nat)) () s := by
  obtain ⟨s, hrun, hthrew, hattacher⟩ := Machine.exists_run_of_any
    (machine (fun i : Fin 2 => (.value i.val : Try Unit Nat)) ())
    (System.initial (configured none none false)) (settersInTurn 0 1)
    (fun s => s.setter 1 = .threw .alreadyHasResult ∧ s.attacher = .returned) (by decide)
  refine ⟨s, hrun, hthrew, hattacher, one_setter_wins 2 (by decide) _ _ _ _ _ _ s ?_ hrun⟩
  decide

end FutureState

end AsyncSimple
