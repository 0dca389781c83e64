import Mathlib.Logic.Function.Basic

/-!
# Labelled machines and their runs

A concurrent program is described here by one partial step function: a label
chooses which party moves and how the environment answers, and {lit}`none`
says that the chosen move is not possible in the current state.  A run is a
list of labels, so that every interleaving of the parties is one list and a
concrete interleaving can be evaluated.

Main results:

- Theorem {lit}`Machine.run_invariant`: a property that holds at the start and
  is kept by every step holds at the end of every run.
- Theorem {lit}`Machine.runsWithin_invariant`: the same rule for runs all of
  whose steps satisfy a side condition.
- Theorem {lit}`Machine.runsWithin_of_not_marked`: a converse of that rule.
- Theorem {lit}`Machine.run_history_invariant`: the same rule for properties of
  the state and the moves that led to it.
- Theorem {lit}`Machine.exists_run_of_rank` and {lit}`Machine.exists_run_of_measure`: a
  machine that can always move towards its goal while a rank or a measure decreases has a
  run to that goal.
- Theorem {lit}`Machine.exists_run_stuck`: a machine each of whose steps
  decreases a measure comes to an end, whatever it chooses.
- Theorems {lit}`Machine.run_purge` and {lit}`Machine.run_purge_part`: hidden moves that nobody
  can observe can be left out of a run.
- Theorem {lit}`Machine.run_observed_invariant`: the invariant rule for properties of the state
  and of what was observed on the way to it.
-/

namespace Transition

universe u v w

/-- A machine whose transitions are selected by labels; {lit}`none` means that
the label is not enabled in the state. -/
structure Machine (σ : Type u) (ℓ : Type v) where
  step : σ → ℓ → Option σ

namespace Machine

variable {σ : Type u} {ℓ : Type v} (M : Machine σ ℓ)

/-- Execute a list of labels; the run is undefined as soon as one label is not
enabled. -/
def run : σ → List ℓ → Option σ
  | s, [] => some s
  | s, l :: ls => (M.step s l).bind fun s' => run s' ls

/-- Every step of the run satisfies the side condition in the state before it. -/
def RunsWithin (ok : σ → ℓ → Prop) : σ → List ℓ → Prop
  | _, [] => True
  | s, l :: ls => ok s l ∧ match M.step s l with
      | none => True
      | some s' => RunsWithin ok s' ls

instance decidableRunsWithin (ok : σ → ℓ → Prop) [∀ s l, Decidable (ok s l)] :
    ∀ s ls, Decidable (M.RunsWithin ok s ls)
  | _, [] => isTrue trivial
  | s, l :: ls =>
      match h : M.step s l with
      | none => decidable_of_iff (ok s l) (by simp [RunsWithin, h])
      | some s' =>
          have := decidableRunsWithin ok s' ls
          decidable_of_iff (ok s l ∧ M.RunsWithin ok s' ls) (by simp [RunsWithin, h])

@[simp]
theorem run_nil (s : σ) : M.run s [] = some s :=
  rfl

/-- A run starting with one label is that step followed by the rest. -/
theorem run_cons_eq_some {s t : σ} {l : ℓ} {ls : List ℓ} :
    M.run s (l :: ls) = some t ↔ ∃ s', M.step s l = some s' ∧ M.run s' ls = some t := by
  simp [run, Option.bind_eq_some_iff]

/-- A run goes on from where its first part ends. -/
theorem run_append_of_run {s t : σ} {ls ks : List ℓ} (hfirst : M.run s ls = some t) :
    M.run s (ls ++ ks) = M.run t ks := by
  induction ls generalizing s with
  | nil =>
      simp only [run_nil, Option.some.injEq] at hfirst
      rw [hfirst, List.nil_append]
  | cons l ls ih =>
      rcases (M.run_cons_eq_some).mp hfirst with ⟨s', hstep, hrest⟩
      rw [List.cons_append, run, hstep, Option.bind_some]
      exact ih hrest

/-- Two runs can be put one after the other. -/
theorem run_append {s t u : σ} {ls ks : List ℓ}
    (hfirst : M.run s ls = some t) (hsecond : M.run t ks = some u) :
    M.run s (ls ++ ks) = some u := by
  rw [M.run_append_of_run hfirst]
  exact hsecond

/-- Evaluating a run and a decidable property of its last state gives the run. -/
theorem exists_run_of_any (s : σ) (ls : List ℓ) (p : σ → Prop) [DecidablePred p]
    (h : (M.run s ls).any (fun t => decide (p t)) = true) :
    ∃ t, M.run s ls = some t ∧ p t := by
  simpa [Option.any_eq_true] using h

/-- Invariant rule for runs whose steps all satisfy a side condition. -/
theorem runsWithin_invariant {ok : σ → ℓ → Prop} {P : σ → Prop}
    (hstep : ∀ s l s', P s → ok s l → M.step s l = some s' → P s')
    {s t : σ} {ls : List ℓ} (hstart : P s)
    (hok : M.RunsWithin ok s ls) (hrun : M.run s ls = some t) : P t := by
  induction ls generalizing s with
  | nil =>
      simp only [run_nil, Option.some.injEq] at hrun
      exact hrun ▸ hstart
  | cons l ls ih =>
      rcases (M.run_cons_eq_some).mp hrun with ⟨s', hs', hrest⟩
      simp only [RunsWithin, hs'] at hok
      exact ih (hstep s l s' hstart hok.1 hs') hok.2 hrest

/-- A side condition on the labels alone can be checked on the list. -/
theorem runsWithin_of_forall_mem {ok : ℓ → Prop} {s : σ} {ls : List ℓ}
    (h : ∀ l ∈ ls, ok l) : M.RunsWithin (fun _ l => ok l) s ls := by
  induction ls generalizing s with
  | nil => trivial
  | cons l ls ih =>
      refine ⟨h l (by simp), ?_⟩
      split
      · trivial
      · exact ih fun k hk => h k (by simp [hk])

/-- Invariant rule for arbitrary runs. -/
theorem run_invariant {P : σ → Prop}
    (hstep : ∀ s l s', P s → M.step s l = some s' → P s')
    {s t : σ} {ls : List ℓ} (hstart : P s) (hrun : M.run s ls = some t) : P t := by
  induction ls generalizing s with
  | nil =>
      simp only [run_nil, Option.some.injEq] at hrun
      exact hrun ▸ hstart
  | cons l ls ih =>
      rcases (M.run_cons_eq_some).mp hrun with ⟨s', hs', hrest⟩
      exact ih (hstep s l s' hstart hs') hrest

/-- Converse of the invariant rule: when a step that violates the side condition leaves a mark
that stays, the steps of a run without the mark have all satisfied the condition. -/
theorem runsWithin_of_not_marked {ok : σ → ℓ → Prop} {P marked : σ → Prop}
    (hstep : ∀ s l s', P s → M.step s l = some s' → P s')
    (hmark : ∀ s l s', P s → ¬ ok s l → M.step s l = some s' → marked s')
    (hstays : ∀ s l s', marked s → M.step s l = some s' → marked s')
    {s t : σ} {ls : List ℓ} (hstart : P s) (hrun : M.run s ls = some t) (hclean : ¬ marked t) :
    M.RunsWithin ok s ls := by
  induction ls generalizing s with
  | nil => trivial
  | cons l ls ih =>
      rcases (M.run_cons_eq_some).mp hrun with ⟨s', hs', hrest⟩
      refine ⟨?_, ?_⟩
      · by_contra hviolated
        exact hclean (M.run_invariant hstays (hmark s l s' hstart hviolated hs') hrest)
      · rw [hs']
        exact ih (hstep s l s' hstart hs') hrest

/-- Invariant rule for properties that also speak about the moves made so far. -/
theorem run_history_invariant {P : List ℓ → σ → Prop}
    (hstep : ∀ ks s l s', P ks s → M.step s l = some s' → P (ks ++ [l]) s')
    {s t : σ} {ks ls : List ℓ} (hstart : P ks s) (hrun : M.run s ls = some t) :
    P (ks ++ ls) t := by
  induction ls generalizing s ks with
  | nil =>
      simp only [run_nil, Option.some.injEq] at hrun
      rw [List.append_nil, ← hrun]
      exact hstart
  | cons l ls ih =>
      rcases (M.run_cons_eq_some).mp hrun with ⟨s', hs', hrest⟩
      have hlater := ih (hstep ks s l s' hstart hs') hrest
      rwa [List.append_assoc, List.singleton_append] at hlater

/-- Progress rule for a rank that the invariant carries along: while the goal is not reached
some allowed step lowers the rank, hence a run of allowed steps to the goal exists. -/
theorem exists_run_of_rank {β : Type w} {lt : β → β → Prop} (hwf : WellFounded lt)
    {P : β → σ → Prop} {goal : σ → Prop} (allowed : ℓ → Prop)
    (hprogress : ∀ b s, P b s → ¬ goal s →
      ∃ l s' b', allowed l ∧ M.step s l = some s' ∧ P b' s' ∧ lt b' b)
    {b : β} {s : σ} (hs : P b s) :
    ∃ ls t b', (∀ l ∈ ls, allowed l) ∧ M.run s ls = some t ∧ P b' t ∧ goal t := by
  induction b using hwf.induction generalizing s with
  | _ b ih =>
      by_cases hgoal : goal s
      · exact ⟨[], s, b, by simp, rfl, hs, hgoal⟩
      · rcases hprogress b s hs hgoal with ⟨l, s', b', hl, hstep, hs', hlt⟩
        rcases ih b' hlt hs' with ⟨ls, t, c, hls, hrun, ht, hgoal'⟩
        refine ⟨l :: ls, t, c, ?_, (M.run_cons_eq_some).mpr ⟨s', hstep, hrun⟩, ht, hgoal'⟩
        intro k hk
        rcases List.mem_cons.mp hk with rfl | hk
        · exact hl
        · exact hls k hk

/-- Progress rule: while the goal is not reached some allowed step keeps the
invariant and decreases the measure, hence a run of allowed steps to the goal
exists. -/
theorem exists_run_of_measure {P goal : σ → Prop} (allowed : ℓ → Prop) (μ : σ → Nat)
    (hprogress : ∀ s, P s → ¬ goal s →
      ∃ l s', allowed l ∧ M.step s l = some s' ∧ P s' ∧ μ s' < μ s)
    {s : σ} (hs : P s) :
    ∃ ls t, (∀ l ∈ ls, allowed l) ∧ M.run s ls = some t ∧ P t ∧ goal t := by
  have hranked : ∀ n s, P s ∧ μ s = n → ¬ goal s →
      ∃ l s' m, allowed l ∧ M.step s l = some s' ∧ (P s' ∧ μ s' = m) ∧ m < n := by
    rintro n s ⟨hs, rfl⟩ hgoal
    rcases hprogress s hs hgoal with ⟨l, s', hl, hstep, hs', hlt⟩
    exact ⟨l, s', μ s', hl, hstep, ⟨hs', rfl⟩, hlt⟩
  rcases M.exists_run_of_rank Nat.lt_wfRel.wf allowed hranked ⟨hs, rfl⟩ with
    ⟨ls, t, -, hls, hrun, ⟨ht, -⟩, hgoal⟩
  exact ⟨ls, t, hls, hrun, ht, hgoal⟩

/-- No allowed move is possible. -/
def Stuck (allowed : ℓ → Prop) (s : σ) : Prop :=
  ∀ l, allowed l → M.step s l = none

/-- When every step decreases a measure, the measure bounds the runs. -/
theorem run_length_le {P : σ → Prop} (μ : σ → Nat)
    (hstep : ∀ s l s', P s → M.step s l = some s' → P s' ∧ μ s' < μ s)
    {s t : σ} {ls : List ℓ} (hs : P s) (hrun : M.run s ls = some t) :
    ls.length + μ t ≤ μ s := by
  induction ls generalizing s with
  | nil =>
      simp only [run_nil, Option.some.injEq] at hrun
      simp [hrun]
  | cons l ls ih =>
      rcases (M.run_cons_eq_some).mp hrun with ⟨s', hs', hrest⟩
      rcases hstep s l s' hs hs' with ⟨hP, hlt⟩
      have hlater := ih hP hrest
      rw [List.length_cons]
      omega

/-- When every step decreases a measure, the allowed moves lead from every state
to one without an allowed move. -/
theorem exists_run_stuck {P : σ → Prop} (allowed : ℓ → Prop) (μ : σ → Nat)
    (hstep : ∀ s l s', P s → M.step s l = some s' → P s' ∧ μ s' < μ s)
    {s : σ} (hs : P s) :
    ∃ ls t, (∀ l ∈ ls, allowed l) ∧ M.run s ls = some t ∧ P t ∧ M.Stuck allowed t := by
  have hprogress : ∀ s, P s → ¬ M.Stuck allowed s →
      ∃ l s', allowed l ∧ M.step s l = some s' ∧ P s' ∧ μ s' < μ s := by
    intro s hs hmoves
    simp only [Stuck, not_forall] at hmoves
    rcases hmoves with ⟨l, hl, hmove⟩
    rcases Option.ne_none_iff_exists'.mp hmove with ⟨s', hs'⟩
    exact ⟨l, s', hl, hs', hstep s l s' hs hs'⟩
  exact M.exists_run_of_measure allowed μ hprogress hs

/-- Unwinding rule: when hidden moves keep the relation to a run that does not
make them, and the other moves are matched, the run without the hidden moves
stays related. -/
theorem run_purge {τ : Type w} (N : Machine τ ℓ) {R : σ → τ → Prop} {ok : σ → ℓ → Prop}
    (hidden : ℓ → Bool)
    (hhidden : ∀ s l s' t, R s t → hidden l = true → M.step s l = some s' → R s' t)
    (hvisible : ∀ s l s' t, R s t → hidden l = false → ok s l → M.step s l = some s' →
      ∃ t', N.step t l = some t' ∧ R s' t')
    {s s' : σ} {t : τ} {ls : List ℓ} (hrel : R s t) (hok : M.RunsWithin ok s ls)
    (hrun : M.run s ls = some s') :
    ∃ t', N.run t (ls.filter fun l => !hidden l) = some t' ∧ R s' t' := by
  induction ls generalizing s t with
  | nil =>
      simp only [run_nil, Option.some.injEq] at hrun
      exact ⟨t, rfl, hrun ▸ hrel⟩
  | cons l ls ih =>
      rcases (M.run_cons_eq_some).mp hrun with ⟨u, hu, hrest⟩
      simp only [RunsWithin, hu] at hok
      cases hl : hidden l with
      | true =>
          rcases ih (hhidden s l u t hrel hl hu) hok.2 hrest with ⟨t', ht', hrel'⟩
          exact ⟨t', by rwa [List.filter_cons_of_neg (by simp [hl])], hrel'⟩
      | false =>
          rcases hvisible s l u t hrel hl hok.1 hu with ⟨t₁, ht₁, hrel₁⟩
          rcases ih hrel₁ hok.2 hrest with ⟨t', ht', hrel'⟩
          refine ⟨t', ?_, hrel'⟩
          rw [List.filter_cons_of_pos (by simp [hl])]
          exact (N.run_cons_eq_some).mpr ⟨t₁, ht₁, ht'⟩

/-- Unwinding rule for one machine: the run without the hidden moves ends in the same state but
for one part of it. -/
theorem run_purge_part {β : Type w} (withPart : σ → β → σ) {A : σ → β → Prop} {ok : σ → ℓ → Prop}
    (hidden : ℓ → Bool)
    (hhidden : ∀ s l s' b, A s b → hidden l = true → M.step s l = some s' →
      withPart s' b = withPart s b ∧ A s' b)
    (hvisible : ∀ s l s' b, A s b → hidden l = false → ok s l → M.step s l = some s' →
      ∃ b', M.step (withPart s b) l = some (withPart s' b') ∧ A s' b')
    {s s' : σ} {b : β} {ls : List ℓ} (hstart : A s b) (hok : M.RunsWithin ok s ls)
    (hrun : M.run s ls = some s') :
    ∃ b', M.run (withPart s b) (ls.filter fun l => !hidden l) = some (withPart s' b') ∧
      A s' b' := by
  have hpurged := M.run_purge M (R := fun s t => ∃ b, t = withPart s b ∧ A s b) hidden ?_ ?_
    ⟨b, rfl, hstart⟩ hok hrun
  · rcases hpurged with ⟨t, ht, b', rfl, hA⟩
    exact ⟨b', ht, hA⟩
  · rintro s l s' t ⟨b, rfl, hA⟩ hl hstep
    rcases hhidden s l s' b hA hl hstep with ⟨hsame, hA'⟩
    exact ⟨b, hsame.symm, hA'⟩
  · rintro s l s' t ⟨b, rfl, hA⟩ hl hquiet hstep
    rcases hvisible s l s' b hA hl hquiet hstep with ⟨b', hstep', hA'⟩
    exact ⟨_, hstep', b', rfl, hA'⟩

/-! ## Observations -/

section Observations

variable {ω : Type w} (observe : σ → ℓ → σ → List ω)

/-- What is observed of a run, step by step. -/
def observed : σ → List ℓ → List ω
  | _, [] => []
  | s, l :: ls => match M.step s l with
      | none => []
      | some s' => observe s l s' ++ observed s' ls

@[simp]
theorem observed_nil (s : σ) : M.observed observe s [] = [] :=
  rfl

theorem observed_cons_of_step {s s' : σ} {l : ℓ} {ls : List ℓ} (hstep : M.step s l = some s') :
    M.observed observe s (l :: ls) = observe s l s' ++ M.observed observe s' ls := by
  simp only [observed, hstep]

/-- What one more step adds. -/
theorem observed_concat {s t u : σ} {ls : List ℓ} {l : ℓ} (hrun : M.run s ls = some t)
    (hstep : M.step t l = some u) :
    M.observed observe s (ls ++ [l]) = M.observed observe s ls ++ observe t l u := by
  induction ls generalizing s with
  | nil =>
      simp only [run_nil, Option.some.injEq] at hrun
      subst hrun
      rw [List.nil_append, observed_cons_of_step M observe hstep, observed_nil, observed_nil,
        List.append_nil, List.nil_append]
  | cons k ls ih =>
      rcases (M.run_cons_eq_some).mp hrun with ⟨s', hs', hrest⟩
      rw [List.cons_append, observed_cons_of_step M observe hs',
        observed_cons_of_step M observe hs', ih hrest, List.append_assoc]

/-- Invariant rule for properties that also speak about what was observed so far. -/
theorem run_observed_invariant {P : List ω → σ → Prop}
    (hstep : ∀ seen s l s', P seen s → M.step s l = some s' → P (seen ++ observe s l s') s')
    {s t : σ} {seen : List ω} {ls : List ℓ} (hstart : P seen s) (hrun : M.run s ls = some t) :
    P (seen ++ M.observed observe s ls) t := by
  induction ls generalizing s seen with
  | nil =>
      simp only [run_nil, Option.some.injEq] at hrun
      rw [observed_nil, List.append_nil, ← hrun]
      exact hstart
  | cons l ls ih =>
      rcases (M.run_cons_eq_some).mp hrun with ⟨s', hs', hrest⟩
      have hlater := ih (hstep seen s l s' hstart hs') hrest
      rwa [List.append_assoc, ← observed_cons_of_step M observe hs'] at hlater

/-- The same rule for runs all of whose steps satisfy a side condition. -/
theorem runsWithin_observed_invariant {ok : σ → ℓ → Prop} {P : List ω → σ → Prop}
    (hstep : ∀ seen s l s', P seen s → ok s l → M.step s l = some s' →
      P (seen ++ observe s l s') s')
    {s t : σ} {seen : List ω} {ls : List ℓ} (hstart : P seen s) (hok : M.RunsWithin ok s ls)
    (hrun : M.run s ls = some t) : P (seen ++ M.observed observe s ls) t := by
  induction ls generalizing s seen with
  | nil =>
      simp only [run_nil, Option.some.injEq] at hrun
      rw [observed_nil, List.append_nil, ← hrun]
      exact hstart
  | cons l ls ih =>
      rcases (M.run_cons_eq_some).mp hrun with ⟨s', hs', hrest⟩
      simp only [RunsWithin, hs'] at hok
      have hlater := ih (hstep seen s l s' hstart hok.1 hs') hok.2 hrest
      rwa [List.append_assoc, ← observed_cons_of_step M observe hs'] at hlater

/-- A machine that makes the same steps in the states of an invariant has the same runs, and the
same is observed of them. -/
theorem run_observed_of_same_steps (N : Machine σ ℓ) {P : σ → Prop}
    (hsame : ∀ s l s', P s → M.step s l = some s' → N.step s l = some s' ∧ P s')
    {s t : σ} {ls : List ℓ} (hstart : P s) (hrun : M.run s ls = some t) :
    N.run s ls = some t ∧ N.observed observe s ls = M.observed observe s ls := by
  induction ls generalizing s with
  | nil => exact ⟨hrun, rfl⟩
  | cons l ls ih =>
      rcases (M.run_cons_eq_some).mp hrun with ⟨s', hs', hrest⟩
      rcases hsame s l s' hstart hs' with ⟨hN, hs'P⟩
      rcases ih hs'P hrest with ⟨hrunN, hobserved⟩
      refine ⟨(N.run_cons_eq_some).mpr ⟨s', hN, hrunN⟩, ?_⟩
      rw [observed_cons_of_step M observe hs', observed_cons_of_step N observe hN, hobserved]

end Observations

end Machine

end Transition
