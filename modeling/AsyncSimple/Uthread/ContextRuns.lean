import AsyncSimple.Uthread.ContextStacks

/-!
# Runs of context switches

The stacks that the links of all threads spell are the stacks of coroutines that the callers see:
a call that enters a uthread puts it on top of the stack of the calling thread, and the return of
this call takes it away.

Main results:

- Theorem {lit}`Inv.step`: a step of the machine is a move of the coroutines, or is not seen.
- Theorem {lit}`switches_follow_stacks`: in every run under the protocol there is no fault, what
  the callers see is a run of coroutines, a thread outside of the functions executes its innermost
  uthread and {lit}`get()` returns this one, and every other uthread waits where it has switched
  out.
-/

namespace AsyncSimple

open Transition
open Coroutines (Stacks Proper)

namespace ContextSwitch

variable {τ ι α : Type} {s s' : State τ ι α} {t t' : τ} {u v : ι} {b : α} {A : Stacks τ ι}

/-- The links and the waiting stacks spell the stacks of coroutines. -/
structure Inv (s : State τ ι α) (A : Stacks τ ι) : Prop where
  proper : Proper A
  fault : s.fault = false
  threads : ∀ t, At s t (A.stack t) (s.pc t)
  own : ∀ t, (s.record (.thread t)).thread = none ∧ s.main (.thread t) = none
  inside : ∀ u, s.inside u = true ↔ A.Inside u
  made : ∀ u, s.made u = true ↔ A.status u ≠ .unborn
  finished : ∀ u, A.status u = .finished → s.done u ≠ none
  resting : ∀ u, s.made u = true → s.inside u = false → s.done u = none →
    s.Waits (.uthread u) (.switchOut u) ∧ s.Started u

theorem Inv.initial : Inv (State.initial : State τ ι α) Stacks.initial where
  proper := Proper.initial
  fault := rfl
  threads := fun _ => ⟨rfl, .inr ⟨rfl, rfl⟩, trivial⟩
  own := fun _ => ⟨rfl, rfl⟩
  inside := fun u => by simp [State.initial, Stacks.Inside, Stacks.initial]
  made := fun u => by simp [State.initial, Stacks.initial]
  finished := fun u => by simp [Stacks.initial]
  resting := fun u hmade => by simp [State.initial] at hmade

/-- No stack belongs to two threads. -/
theorem owns_disjoint (h : Proper A) (hne : t' ≠ t) {o : Owner τ ι}
    (ho : Owns t' (A.stack t') o) : ¬ Owns t (A.stack t) o := by
  intro ho'
  cases o with
  | thread t'' => exact hne (Eq.trans (Eq.symm ho) ho')
  | uthread v => exact hne (h.single t' t v ho ho')

/-- A step of one thread leaves the others where they were. -/
theorem Inv.others (h : Inv s A) (hstepped : Stepped s s' t (A.stack t)) (hne : t' ≠ t) :
    At s' t' (A.stack t') (s'.pc t') := by
  rcases hstepped.others t' hne with ⟨hrunning, hcurrent, hpc⟩
  rw [hpc]
  exact hstepped.same.at_pc (fun o ho => owns_disjoint h.proper hne ho) hrunning hcurrent
    (h.threads t')

/-- What {lit}`get()` returns on a thread outside of the functions. -/
theorem Inv.get_eq (h : Inv s A) (huser : s.pc t = .user) : get s t = (A.stack t).head? := by
  have hsettled := h.threads t
  rw [huser] at hsettled
  cases hstack : A.stack t with
  | nil =>
      rw [hstack] at hsettled
      rcases hsettled.current with hcurrent | ⟨-, hcurrent⟩
      · simp [get, hcurrent, top, (h.own t).1]
      · simp [get, hcurrent]
  | cons u rest =>
      rw [hstack] at hsettled
      rcases hsettled.current with hcurrent | ⟨hnil, -⟩
      · simp [get, hcurrent, top, hsettled.spine.1.1]
      · cases hnil

/-- It also leaves alone the uthreads that are not entered. -/
theorem Inv.rests (h : Inv s A) (hstepped : Stepped s s' t (A.stack t)) (hmade : s.made u = true)
    (hinside : s.inside u = false) (hdone : s.done u = none) :
    s'.Waits (.uthread u) (.switchOut u) ∧ s'.Started u := by
  have hout : ¬ Owns t (A.stack t) (.uthread u) := fun hmem => by
    have htrue := (h.inside u).mpr ⟨t, hmem⟩
    rw [hinside] at htrue
    cases htrue
  rcases h.resting u hmade hinside hdone with ⟨hwaits, hstarted⟩
  exact ⟨hstepped.same.waits hout hwaits, hstepped.same.started hout hstarted⟩

/-- A uthread outside of all threads is entered. -/
theorem Inv.entered [DecidableEq τ] [DecidableEq ι] {pc : Pc ι α} {made : ι → Bool}
    (h : Inv s A) (huser : s.pc t = .user)
    (hout : ¬ A.Inside u) (hmade : made = Function.update s.made u true)
    (hat : ∀ s₁ : State τ ι α, SameFor s s₁ (fun _ => True) → s₁.Settled t (A.stack t) →
      At s₁ t (u :: A.stack t) pc) :
    Inv { s.goto t pc with made := made, inside := Function.update s.inside u true }
      (A.push t u) := by
  have hsame : SameFor s { s.goto t pc with
      made := made, inside := Function.update s.inside u true } fun _ => True :=
    SameFor.of_eq rfl rfl rfl rfl
  have hsettled := h.threads t
  rw [huser] at hsettled
  constructor
  · exact h.proper.push hout
  · exact h.fault
  · intro t'
    by_cases hne : t' = t
    · subst hne
      rw [Coroutines.push_stack_self]
      simp only [State.goto, Function.update_self]
      exact hat _ hsame (hsame.settled (fun _ _ => trivial) rfl rfl hsettled)
    · rw [Coroutines.push_stack_of_ne hne]
      simp only [State.goto, Function.update_of_ne hne]
      exact hsame.at_pc (fun _ _ => trivial) rfl rfl (h.threads t')
  · exact h.own
  · intro v
    rw [Coroutines.inside_push, ← h.inside v]
    by_cases hv : v = u
    · simp [hv]
    · simp [hv]
  · intro v
    by_cases hv : v = u
    · simp [hv, hmade, Stacks.push]
    · simpa [hv, hmade, Stacks.push] using h.made v
  · intro v hstatus
    by_cases hv : v = u
    · simp [hv, Stacks.push] at hstatus
    · simp only [Stacks.push, Function.update_of_ne hv] at hstatus
      exact h.finished v hstatus
  · intro v hv hin hdone
    have hne : v ≠ u := by
      rintro rfl
      simp at hin
    simp only [hmade, Function.update_of_ne hne] at hv
    simp only [Function.update_of_ne hne] at hin
    rcases h.resting v hv hin hdone with ⟨hwaits, hstarted⟩
    exact ⟨hsame.waits trivial hwaits, hsame.started trivial hstarted⟩

/-- Only the return of a call is seen of the accesses. -/
theorem observe_next [DecidableEq ι] (hstay : ∀ u c, s.pc t ≠ .storeIn u c) :
    observe s (t, .next b) s' = [] := by
  cases hpc : s.pc t with
  | storeIn u c => exact absurd hpc (hstay u c)
  | _ => simp [observe, hpc]

/-- A thread begins a function that the callers do not see. -/
theorem Inv.goto [DecidableEq τ] {pc : Pc ι α} {done : ι → Option Bool} (h : Inv s A)
    (hdone : ∀ v, done v ≠ s.done v → v ∈ A.stack t ∧ done v ≠ none)
    (hat : At { s.goto t pc with done := done } t (A.stack t) pc) :
    Inv { s.goto t pc with done := done } A where
  proper := h.proper
  fault := h.fault
  threads := fun t' => by
    by_cases hne : t' = t
    · subst hne
      simpa only [State.goto, Function.update_self] using hat
    · have hsame : SameFor s { s.goto t pc with done := done } fun o => ¬ Owns t (A.stack t) o :=
        { record := fun _ _ => rfl
          main := fun _ _ => rfl
          done := fun v hv => by
            by_contra hchanged
            exact hv (hdone v hchanged).1
          parked := fun _ _ _ _ hb => hb }
      simp only [State.goto, Function.update_of_ne hne]
      exact hsame.at_pc (fun o ho => owns_disjoint h.proper hne ho) rfl rfl (h.threads t')
  own := h.own
  inside := h.inside
  made := h.made
  finished := fun v hstatus => by
    by_cases hsame : done v = s.done v
    · exact fun hnone => h.finished v hstatus (hsame.symm.trans hnone)
    · exact (hdone v hsame).2
  resting := fun v hmade hin hnone => by
    by_cases hsame : done v = s.done v
    · exact h.resting v hmade hin (hsame.symm.trans hnone)
    · exact absurd hnone (hdone v hsame).2

variable [DecidableEq τ] [DecidableEq ι]

/-- A thread outside of the functions makes a move that the protocol allows. -/
theorem Inv.user {m : Move ι α} (h : Inv s A) (huser : s.pc t = .user) (hok : Protocol s (t, m))
    (hstep : userStep t s m = some s') :
    ∃ A', Coroutines.machine.run A (observe s (t, m) s') = some A' ∧ Inv s' A' := by
  have hsettled := h.threads t
  rw [huser] at hsettled
  cases m with
  | construct u =>
      simp only [userStep] at hstep
      split at hstep
      · cases hstep
      · next hmade =>
          cases hstep
          have hborn : A.status u = .unborn := by
            by_contra hborn
            exact hmade ((h.made u).mpr hborn)
          have hout := h.proper.not_inside_of_status (c := u) (by simp [hborn])
          refine ⟨A.push t u, ?_, h.entered huser hout rfl fun s₁ _ hs₁ => ⟨_, rfl, hs₁⟩⟩
          simp [observe, Machine.run, Coroutines.machine, Coroutines.step, hborn]
  | switchIn u =>
      simp only [userStep] at hstep
      split at hstep
      · next hmade =>
          cases hstep
          have hout : ¬ A.Inside u := fun hin => by
            have htrue := (h.inside u).mpr hin
            rw [hok.1] at htrue
            cases htrue
          have halive : A.status u = .alive := by
            cases hstatus : A.status u with
            | unborn => exact absurd hstatus ((h.made u).mp hmade)
            | alive => rfl
            | finished => exact absurd hok.2 (h.finished u hstatus)
          have hsame : s.made = Function.update s.made u true := by
            rw [← hmade, Function.update_eq_self]
          rcases h.resting u hmade hok.1 hok.2 with ⟨hwaits, hthread, hmain⟩
          refine ⟨A.push t u, ?_, h.entered huser hout hsame fun s₁ hs hs₁ => ⟨_, rfl, hs₁, ?_⟩⟩
          · simp [observe, Machine.run, Coroutines.machine, Coroutines.step, halive]
          · exact hs.ready trivial ⟨hthread, .inr ⟨hwaits, hmain⟩⟩
      · cases hstep
  | switchOut =>
      refine ⟨A, by simp [observe], ?_⟩
      simp only [userStep, h.get_eq huser] at hstep
      cases hstack : A.stack t with
      | nil =>
          have hrunning := hsettled.running
          rw [hstack] at hrunning
          exact absurd hrunning hok
      | cons u rest =>
          simp only [hstack, List.head?_cons] at hstep
          cases hstep
          refine h.goto (fun v hv => absurd rfl hv) ⟨rest, hstack, ?_⟩
          exact (SameFor.goto (P := fun _ => True) s t _).settled (fun _ _ => trivial) rfl rfl
            hsettled
  | finish ok =>
      refine ⟨A, by simp [observe], ?_⟩
      simp only [userStep, hsettled.running] at hstep
      cases hstack : A.stack t with
      | nil =>
          simp only [hstack, top, (h.own t).2] at hstep
          cases hstep
      | cons u rest =>
          have hspine := hsettled.spine
          rw [hstack] at hspine
          simp only [hstack, top, hspine.1.2] at hstep
          cases hstep
          refine h.goto (fun v hv => ?_) ⟨rest, hstack, ?_, by simp⟩
          · have hvu : v = u := by
              by_contra hne
              exact hv (Function.update_of_ne hne _ _)
            subst hvu
            exact ⟨hstack ▸ List.mem_cons_self, by simp⟩
          · exact ⟨hsettled.running, hsettled.current,
              hsettled.spine.congr (fun _ _ h => h) (fun _ _ _ h => h) fun _ _ _ h => h⟩
  | next a => cases hstep

variable [DecidableEq α]

/-- An access that the callers do not see. -/
theorem Inv.next (h : Inv s A) (hstep : nextStep t b s = some s')
    (hstay : ∀ u b, s.pc t ≠ .storeIn u b) : Inv s' A := by
  rcases (h.threads t).next (h.proper.nodup t) hstep hstay with ⟨hstepped, hat⟩
  have hinside : s'.inside = s.inside := funext fun v =>
    (hstepped.inside v).resolve_right fun ⟨b, hpc⟩ => hstay v b hpc
  constructor
  · exact h.proper
  · exact hstepped.fault.trans h.fault
  · intro t'
    by_cases hne : t' = t
    · exact hne ▸ hat
    · exact h.others hstepped hne
  · intro t'
    rw [(hstepped.own t').1, (hstepped.own t').2]
    exact h.own t'
  · rw [hinside]
    exact h.inside
  · rw [hstepped.made]
    exact h.made
  · rw [hstepped.done]
    exact h.finished
  · rw [hstepped.made, hinside, hstepped.done]
    exact fun u hmade hinside hdone => h.rests hstepped hmade hinside hdone

/-- The return of the call that has entered the innermost uthread. -/
theorem Inv.storeIn {c : α} (h : Inv s A) (hpc : s.pc t = .storeIn u c)
    (hstep : nextStep t b s = some s') :
    ∃ A', Coroutines.machine.step A (t, if s.done u = none then .leave else .finish) = some A' ∧
      Inv s' A' := by
  have hat := h.threads t
  rw [hpc] at hat
  rcases hat.storeIn (h.proper.nodup t) hpc hstep with
    ⟨rest, htop, hstepped, hat', hinside, hstarted, hwaits⟩
  have hmove : Coroutines.machine.step A (t, if s.done u = none then .leave else .finish) =
      some (A.pop t u rest (if s.done u = none then .alive else .finished)) := by
    by_cases hdone : s.done u = none <;>
      simp [Coroutines.machine, Coroutines.step, hdone, htop]
  refine ⟨_, hmove, ?_⟩
  have halive : A.status u = .alive := h.proper.alive t u (htop ▸ List.mem_cons_self)
  constructor
  · exact h.proper.pop htop
  · exact hstepped.fault.trans h.fault
  · intro t'
    by_cases hne : t' = t
    · subst hne
      rw [Coroutines.pop_stack_self]
      exact hat'
    · rw [Coroutines.pop_stack_of_ne hne]
      exact h.others hstepped hne
  · intro t'
    rw [(hstepped.own t').1, (hstepped.own t').2]
    exact h.own t'
  · intro v
    rw [hinside, h.proper.inside_pop htop, ← h.inside v]
    by_cases hv : v = u
    · simp [hv]
    · simp [hv]
  · intro v
    rw [hstepped.made, h.made v]
    by_cases hv : v = u
    · subst hv
      simp only [Stacks.pop, Function.update_self, halive]
      split <;> simp
    · simp [Stacks.pop, hv]
  · intro v hstatus
    rw [hstepped.done]
    by_cases hv : v = u
    · subst hv
      intro hnone
      simp [Stacks.pop, hnone] at hstatus
    · simp only [Stacks.pop, Function.update_of_ne hv] at hstatus
      exact h.finished v hstatus
  · intro v hmade hin hdone
    rw [hstepped.made] at hmade
    rw [hstepped.done] at hdone
    by_cases hv : v = u
    · subst hv
      exact ⟨hwaits hdone, hstarted⟩
    · rw [hinside, Function.update_of_ne hv] at hin
      exact h.rests hstepped hmade hin hdone

theorem step_cases {m : Move ι α} (hstep : machine.step s (t, m) = some s') :
    (∃ a, m = .next a ∧ nextStep t a s = some s') ∨
      s.pc t = .user ∧ userStep t s m = some s' := by
  simp only [machine, ContextSwitch.step] at hstep
  split at hstep
  · cases hstep
  · cases m with
    | next a => exact .inl ⟨a, rfl, hstep⟩
    | _ =>
        refine .inr ?_
        simp only [Option.ite_none_right_eq_some] at hstep
        exact hstep

/-- Every step under the protocol is a move of the coroutines, or is not seen by the callers. -/
theorem Inv.step {l : τ × Move ι α} (h : Inv s A) (hok : Protocol s l)
    (hstep : machine.step s l = some s') :
    ∃ A', Coroutines.machine.run A (observe s l s') = some A' ∧ Inv s' A' := by
  rcases l with ⟨t, m⟩
  rcases step_cases hstep with ⟨b, rfl, hnext⟩ | ⟨huser, hmove⟩
  · by_cases hstay : ∀ u c, s.pc t ≠ .storeIn u c
    · refine ⟨A, ?_, h.next hnext hstay⟩
      rw [observe_next hstay, Machine.run_nil]
    · simp only [ne_eq, not_forall, not_not] at hstay
      rcases hstay with ⟨u, c, hpc⟩
      rcases h.storeIn hpc hnext with ⟨A', hmove, hinv⟩
      refine ⟨A', ?_, hinv⟩
      simp only [observe, hpc, Machine.run_cons_eq_some, Machine.run_nil]
      exact ⟨A', hmove, rfl⟩
  · exact h.user huser hok hmove

/-- What a state owes to the coroutines that its callers have seen. -/
structure Follows (s : State τ ι α) (A : Stacks τ ι) : Prop where
  noFault : s.fault = false
  /-- a uthread is entered once, on one thread -/
  proper : Proper A
  /-- a thread outside of the functions executes its innermost uthread -/
  running : ∀ t, s.pc t = .user → s.running t = top t (A.stack t)
  get : ∀ t, s.pc t = .user → ContextSwitch.get s t = (A.stack t).head?
  /-- a uthread that is not entered waits where it has switched out -/
  waits : ∀ u, A.status u = .alive → s.done u = none → ¬ A.Inside u →
    s.Waits (.uthread u) (.switchOut u)
  /-- and the next access of a thread inside of a function does not fail -/
  moves : ∀ t a, s.pc t ≠ .user → s.parked a = none →
    ∃ s', machine.step s (t, .next a) = some s' ∧ s'.fault = false

omit [DecidableEq ι] in
theorem jump_enabled {target : Option α} {data : Option ι} {frame : Frame ι}
    (hfree : s.parked b = none) : ∃ s', s.jump t b target data frame = some s' := by
  cases target with
  | none => exact ⟨s.faulty, by simp [State.jump, hfree]⟩
  | some c =>
      cases hc : s.parked c with
      | none => exact ⟨s.faulty, by simp [State.jump, hfree, hc]⟩
      | some k => exact ⟨s.jumped t b c data frame k.1 k.2, by simp [State.jump, hfree, hc]⟩

theorem nextStep_enabled (hpc : s.pc t ≠ .user) (hfree : s.parked b = none) :
    ∃ s', nextStep t b s = some s' := by
  unfold nextStep
  split
  · contradiction
  all_goals (repeat' split)
  all_goals first
    | exact ⟨_, rfl⟩
    | exact jump_enabled hfree

theorem Inv.follows (h : Inv s A) : Follows s A where
  noFault := h.fault
  proper := h.proper
  running := fun t huser => by
    have hsettled := h.threads t
    rw [huser] at hsettled
    exact hsettled.running
  get := fun _ huser => h.get_eq huser
  waits := fun u halive hdone hout => by
    have hmade : s.made u = true := (h.made u).mpr (by simp [halive])
    have hinside : s.inside u = false := by
      rw [← Bool.not_eq_true, h.inside u]
      exact hout
    exact (h.resting u hmade hinside hdone).1
  moves := fun t a hpc hfree => by
    rcases nextStep_enabled hpc hfree with ⟨s', hnext⟩
    have hstep : machine.step s (t, .next a) = some s' := by
      simp [machine, ContextSwitch.step, h.fault, hnext]
    rcases h.step (l := (t, .next a)) trivial hstep with ⟨A', -, hinv⟩
    exact ⟨s', hstep, hinv.fault⟩

/-- In every run under the protocol, on any number of threads, the context switches are those of
coroutines. -/
theorem switches_follow_stacks {ls : List (τ × Move ι α)}
    (hok : machine.RunsWithin Protocol State.initial ls)
    (hrun : machine.run State.initial ls = some s) :
    ∃ A, Coroutines.machine.run Stacks.initial (machine.observed observe State.initial ls) =
      some A ∧ Follows s A := by
  have hinv := machine.runsWithin_observed_invariant observe
    (P := fun seen s => ∃ A, Coroutines.machine.run Stacks.initial seen = some A ∧ Inv s A)
    (fun seen s l s' h hl hstep => by
      rcases h with ⟨A, hseen, hinv⟩
      rcases hinv.step hl hstep with ⟨A', hmoves, hinv'⟩
      exact ⟨A', Coroutines.machine.run_append hseen hmoves, hinv'⟩)
    (show ∃ A, Coroutines.machine.run Stacks.initial [] = some A ∧ Inv State.initial A from
      ⟨Stacks.initial, rfl, Inv.initial⟩) hok hrun
  rcases hinv with ⟨A, hseen, hA⟩
  exact ⟨A, hseen, hA.follows⟩

/-- A uthread is constructed on one thread and switches out there; another thread switches it in,
and it returns on that thread. -/
def migration : List (Bool × Move Unit Nat) :=
  [(false, Move.construct ()), (false, Move.next 0), (false, Move.next 1), (false, Move.next 1),
    (false, Move.next 1), (false, Move.next 2), (false, Move.next 2), (false, Move.switchOut),
    (false, Move.next 2), (false, Move.next 0), (false, Move.next 2), (true, Move.switchIn ()),
    (true, Move.next 2), (true, Move.next 2), (true, Move.next 2), (true, Move.next 3),
    (true, Move.finish true), (true, Move.next 3), (true, Move.next 0), (true, Move.next 3)]

theorem switches_follow_stacks_migration :
    ∃ s A, machine.run State.initial migration = some s ∧
      Coroutines.machine.run Stacks.initial
        (machine.observed observe State.initial migration) = some A ∧ Follows s A := by
  cases hrun : machine.run State.initial migration with
  | none => exact absurd (congrArg Option.isSome hrun) (by decide)
  | some s =>
      rcases switches_follow_stacks (by decide) hrun with ⟨A, hseen, hfollows⟩
      exact ⟨s, A, rfl, hseen, hfollows⟩

end ContextSwitch

end AsyncSimple
