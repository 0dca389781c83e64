import AsyncSimple.Uthread.ContextRuns

/-!
# Uthreads on the workers of an executor

{lit}`uthread::await` takes the current uthread, checks out the context of the worker, attaches a
continuation that calls {lit}`switch_in`, and calls {lit}`switch_out`.  When the awaited promise
is fulfilled, by whom and when ever, the continuation goes into the queue of this worker.  A worker
runs what is in its queue from its own stack.

The machine has any number of workers and uthreads, which are constructed by code on any stack, and
the context switches of all of them, one access at a time.  A promise can be fulfilled before the
uthread that awaits it has left its stack.  The executor accepts every continuation, and runs it on
the worker that was checked out.

Main results:

- Theorem {lit}`Inv.step`: where the continuation of each await is.
- Theorem {lit}`workers_resume_uthreads`: in every run there is no fault; what is seen is a run of
  coroutines; each uthread stays on its worker; a uthread that has switched out waits for one
  promise or is once in the queue of its worker, and one that executes user code has the result
  that it has awaited.
-/

namespace AsyncSimple

open Transition
open Coroutines (Stacks Proper)
open ContextSwitch (Pc top get Follows)

namespace UthreadWorkers

variable {τ ι α : Type}

/-! ## The machine -/

structure State (τ ι α : Type) where
  switch : ContextSwitch.State τ ι α
  /-- the continuations that each worker has to run -/
  queue : τ → List ι
  /-- an await whose promise is not fulfilled, with the worker that was checked out -/
  awaiting : ι → Option τ
  /-- the worker on which the uthread was constructed -/
  home : ι → Option τ

def State.initial : State τ ι α where
  switch := .initial
  queue := fun _ => []
  awaiting := fun _ => none
  home := fun _ => none

inductive Label (τ ι α : Type) where
  | construct (t : τ) (u : ι)
  | await (t : τ)
  | fulfil (u : ι)
  /-- the worker takes a continuation from its queue -/
  | take (t : τ)
  | finish (t : τ) (ok : Bool)
  | next (t : τ) (a : α)
deriving DecidableEq, Repr

variable [DecidableEq τ] [DecidableEq ι] [DecidableEq α]

/-- The worker makes a move of the context switches. -/
def State.moves (s : State τ ι α) (l : τ × ContextSwitch.Move ι α) : Option (State τ ι α) :=
  (ContextSwitch.machine.step s.switch l).map fun switch => { s with switch := switch }

def step (s : State τ ι α) : Label τ ι α → Option (State τ ι α)
  | .construct t u => (s.moves (t, .construct u)).map fun s' =>
      { s' with home := Function.update s.home u (some t) }
  | .await t => (s.moves (t, .switchOut)).map fun s' =>
      match get s.switch t with
      | none => s'
      | some u => { s' with awaiting := Function.update s.awaiting u (some t) }
  | .fulfil u => match s.awaiting u with
      | none => none
      | some t => some
          { s with
            awaiting := Function.update s.awaiting u none
            queue := Function.update s.queue t (s.queue t ++ [u]) }
  | .take t => match s.queue t with
      | [] => none
      | u :: rest =>
          -- the loop of the worker runs on the worker's own stack
          if s.switch.running t = .thread t then
            (s.moves (t, .switchIn u)).map fun s' =>
              { s' with queue := Function.update s.queue t rest }
          else none
  | .finish t ok => s.moves (t, .finish ok)
  | .next t a => s.moves (t, .next a)

def machine : Machine (State τ ι α) (Label τ ι α) :=
  ⟨step⟩

/-- {lit}`await` is called in uthreads. -/
def InUthread (s : State τ ι α) : Label τ ι α → Prop
  | .await t => s.switch.running t ≠ .thread t
  | _ => True

instance (s : State τ ι α) (l : Label τ ι α) : Decidable (InUthread s l) := by
  cases l <;> (unfold InUthread; infer_instance)

/-- The move of the context switches. -/
def Label.move (s : State τ ι α) : Label τ ι α → Option (τ × ContextSwitch.Move ι α)
  | .construct t u => some (t, .construct u)
  | .await t => some (t, .switchOut)
  | .fulfil _ => none
  | .take t => (s.queue t).head?.map fun u => (t, .switchIn u)
  | .finish t ok => some (t, .finish ok)
  | .next t a => some (t, .next a)

/-- The calls that enter a uthread, and their returns. -/
def observe (s : State τ ι α) (l : Label τ ι α) (s' : State τ ι α) :
    List (τ × Coroutines.Move ι) :=
  match l.move s with
  | none => []
  | some m => ContextSwitch.observe s.switch m s'.switch

/-! ## Where the continuations are -/

section Invariant

omit [DecidableEq τ] [DecidableEq ι] [DecidableEq α]

variable {s s' : State τ ι α} {A A' : Stacks τ ι} {t w : τ} {u : ι}

/-- The continuation of an await of the uthread has not run. -/
def State.Outstanding (s : State τ ι α) (u : ι) (w : τ) : Prop :=
  s.awaiting u = some w ∨ u ∈ s.queue w

/-- The uthread that a worker is about to leave. -/
def State.leaving (s : State τ ι α) (t : τ) : Option ι :=
  (s.switch.pc t).leaving

structure Inv (s : State τ ι α) (A : Stacks τ ι) : Prop where
  switch : ContextSwitch.Inv s.switch A
  home : ∀ t u, u ∈ A.stack t → s.home u = some t
  single : ∀ u w, s.awaiting u = some w → ∀ t, u ∉ s.queue t
  nodup : ∀ t, (s.queue t).Nodup
  outHome : ∀ u w, s.Outstanding u w → s.home u = some w
  born : ∀ u, s.switch.done u ≠ none → s.switch.made u = true
  out : ∀ u w, s.Outstanding u w → s.switch.made u = true ∧ s.switch.done u = none ∧
    ∀ t, u ∈ A.stack t → s.leaving t = some u
  done : ∀ t u, u ∈ A.stack t → s.switch.done u ≠ none → s.leaving t = some u
  leaving : ∀ t u, s.leaving t = some u → s.switch.done u = none → ∃ w, s.Outstanding u w
  served : ∀ u, A.status u = .alive → s.switch.done u = none → ¬ A.Inside u →
    ∃ w, s.Outstanding u w

theorem Inv.initial : Inv (State.initial : State τ ι α) Stacks.initial where
  switch := ContextSwitch.Inv.initial
  home := fun _ _ hmem => absurd hmem List.not_mem_nil
  single := fun _ _ hnone => by cases hnone
  nodup := fun _ => List.nodup_nil
  outHome := by
    rintro u w (hnone | hmem)
    · cases hnone
    · exact absurd hmem List.not_mem_nil
  born := fun _ hdone => absurd rfl hdone
  out := by
    rintro u w (hnone | hmem)
    · cases hnone
    · exact absurd hmem List.not_mem_nil
  done := fun _ _ hmem => absurd hmem List.not_mem_nil
  leaving := fun _ _ hnone => by cases hnone
  served := fun _ hstatus => by cases hstatus

/-- User code is executed neither while an await is outstanding nor after the function has
returned. -/
theorem Inv.user (h : Inv s A) (huser : s.switch.pc t = .user) (hmem : u ∈ A.stack t) :
    (∀ w, ¬ s.Outstanding u w) ∧ s.switch.done u = none := by
  have hleaving : s.leaving t = none := by simp [State.leaving, huser]
  refine ⟨fun w hw => ?_, ?_⟩
  · have hsome := (h.out u w hw).2.2 t hmem
    rw [hleaving] at hsome
    cases hsome
  · by_contra hdone
    have hsome := h.done t u hmem hdone
    rw [hleaving] at hsome
    cases hsome

/-- A uthread that the thread is about to leave is entered on it. -/
theorem Inv.mem_of_leaving (h : Inv s A) (hleaving : s.leaving t = some u) : u ∈ A.stack t := by
  have hat := h.switch.threads t
  simp only [State.leaving] at hleaving
  generalize s.switch.pc t = pc at hat hleaving
  cases pc
  case storeIn | restoreCurrent | jumpOut | restoreLast | jumpLast =>
    rcases hat with ⟨rest, htop, -⟩
    simp only [Pc.leaving, Option.some.injEq] at hleaving
    subst hleaving
    exact htop ▸ List.mem_cons_self
  all_goals cases hleaving

/-- What is below the stack of the thread is kept, as long as the threads that leave uthreads and
the outstanding awaits are the same. -/
theorem Inv.same (h : Inv s A) (hswitch : ContextSwitch.Inv s'.switch A)
    (hmade : s'.switch.made = s.switch.made) (hdone : s'.switch.done = s.switch.done)
    (hleaving : ∀ t, s'.leaving t = s.leaving t) (hhome : s'.home = s.home)
    (hout : ∀ u w, s'.Outstanding u w ↔ s.Outstanding u w)
    (hsingle : ∀ u w, s'.awaiting u = some w → ∀ t, u ∉ s'.queue t)
    (hnodup : ∀ t, (s'.queue t).Nodup) : Inv s' A where
  switch := hswitch
  home := by rw [hhome]; exact h.home
  single := hsingle
  nodup := hnodup
  outHome := fun u w hw => by rw [hhome]; exact h.outHome u w ((hout u w).mp hw)
  born := by rw [hdone, hmade]; exact h.born
  out := fun u w hw => by
    rw [hmade, hdone]
    simp only [hleaving]
    exact h.out u w ((hout u w).mp hw)
  done := fun t u hmem hne => by
    rw [hdone] at hne
    rw [hleaving]
    exact h.done t u hmem hne
  leaving := fun t u hu hnone => by
    rw [hleaving] at hu
    rw [hdone] at hnone
    simp only [hout]
    exact h.leaving t u hu hnone
  served := fun u halive hnone hoff => by
    rw [hdone] at hnone
    simp only [hout]
    exact h.served u halive hnone hoff

end Invariant

variable {s s' : State τ ι α} {A A' : Stacks τ ι} {t w : τ} {u : ι} {a : α}

/-! ### The promise of an await is fulfilled -/

omit [DecidableEq α] in
theorem Inv.fulfil (h : Inv s A) (hawait : s.awaiting u = some t) :
    Inv { s with
      awaiting := Function.update s.awaiting u none
      queue := Function.update s.queue t (s.queue t ++ [u]) } A := by
  have hout : ∀ v w, State.Outstanding { s with
      awaiting := Function.update s.awaiting u none
      queue := Function.update s.queue t (s.queue t ++ [u]) } v w ↔ s.Outstanding v w := by
    intro v w
    simp only [State.Outstanding]
    by_cases hv : v = u
    · subst hv
      by_cases hw : w = t
      · subst hw
        simp [hawait]
      · simp [hawait, hw, h.single v t hawait w, Ne.symm hw]
    · by_cases hw : w = t
      · subst hw
        simp [hv]
      · simp [hv, hw]
  refine h.same h.switch rfl rfl (fun _ => rfl) rfl hout ?_ ?_
  · intro v w hw t'
    by_cases hv : v = u
    · simp [hv] at hw
    · simp only [Function.update_of_ne hv] at hw
      by_cases ht' : t' = t
      · subst ht'
        simpa [hv] using h.single v w hw t'
      · simpa [ht'] using h.single v w hw t'
  · intro t'
    by_cases ht' : t' = t
    · subst ht'
      have hnew : u ∉ s.queue t' := h.single u t' hawait t'
      simp only [Function.update_self]
      exact List.nodup_append.mpr ⟨h.nodup t', List.nodup_singleton u, fun v hv v' hv' => by
        rw [List.mem_singleton.mp hv']
        exact fun hvu => hnew (hvu ▸ hv)⟩
    · simpa [ht'] using h.nodup t'

/-! ### Accesses of the context switches -/

theorem Inv.next {c : ContextSwitch.State τ ι α} (h : Inv s A)
    (hstep : ContextSwitch.nextStep t a s.switch = some c)
    (hstay : ∀ v b, s.switch.pc t ≠ .storeIn v b) : Inv { s with switch := c } A := by
  rcases (h.switch.threads t).next (h.switch.proper.nodup t) hstep hstay with ⟨hstepped, -⟩
  refine h.same (h.switch.next hstep hstay) hstepped.made hstepped.done (fun t' => ?_) rfl
    (fun _ _ => Iff.rfl) h.single h.nodup
  by_cases ht' : t' = t
  · subst ht'
    exact hstepped.leaving.resolve_right fun ⟨v, b, hpc⟩ => hstay v b hpc
  · simp only [State.leaving, (hstepped.others t' ht').2.2]

/-- A uthread has been left. -/
theorem Inv.storeIn {c : ContextSwitch.State τ ι α} {b : α} (h : Inv s A)
    (hpc : s.switch.pc t = .storeIn u b)
    (hstep : ContextSwitch.nextStep t a s.switch = some c) :
    ∃ A', Coroutines.machine.step A (t, if s.switch.done u = none then .leave else .finish) =
      some A' ∧ Inv { s with switch := c } A' := by
  rcases h.switch.storeIn hpc hstep with ⟨A', hmove, hinv⟩
  refine ⟨A', hmove, ?_⟩
  have hat := h.switch.threads t
  rw [hpc] at hat
  rcases hat.storeIn (h.switch.proper.nodup t) hpc hstep with
    ⟨rest, htop, hstepped, -, -, -, -⟩
  have hA' : A' = A.pop t u rest (if s.switch.done u = none then .alive else .finished) := by
    by_cases hdone : s.switch.done u = none <;>
      simpa [Coroutines.machine, Coroutines.step, hdone, htop, eq_comm] using hmove
  have hleft : s.leaving t = some u := by rw [State.leaving, hpc, Pc.leaving]
  have hpc' : c.pc t = .user := by
    simp only [ContextSwitch.nextStep, hpc, Option.some.injEq] at hstep
    simp [← hstep, ContextSwitch.State.goto]
  have hleaving : ∀ t' v, t' ≠ t → (State.leaving { s with switch := c } t' = some v ↔
      s.leaving t' = some v) := fun t' v ht' => by
    simp only [State.leaving, (hstepped.others t' ht').2.2]
  have hmem : ∀ t' v, v ∈ A'.stack t' ↔ v ∈ A.stack t' ∧ v ≠ u := fun t' v => by
    rw [hA']
    exact h.switch.proper.mem_pop htop
  -- the uthread that the thread was about to leave is none of those that are still entered
  have hkept : ∀ t' v, v ∈ A'.stack t' → s.leaving t' = some v →
      State.leaving { s with switch := c } t' = some v := by
    intro t' v hv hold
    by_cases ht' : t' = t
    · subst ht'
      rw [hleft, Option.some.injEq] at hold
      exact absurd hold.symm ((hmem t' v).mp hv).2
    · exact (hleaving t' v ht').mpr hold
  exact
    { switch := hinv
      home := fun t' v hv => h.home t' v ((hmem t' v).mp hv).1
      single := h.single
      nodup := h.nodup
      outHome := h.outHome
      born := fun v hv => by
        rw [show c.done v = s.switch.done v from congrFun hstepped.done v] at hv
        exact (congrFun hstepped.made v).trans (h.born v hv)
      out := fun v w hw => by
        rcases h.out v w hw with ⟨hmade, hdone, hin⟩
        refine ⟨(congrFun hstepped.made v).trans hmade, (congrFun hstepped.done v).trans hdone,
          fun t' hv => hkept t' v hv (hin t' ((hmem t' v).mp hv).1)⟩
      done := fun t' v hv hdone => by
        rw [show c.done v = s.switch.done v from congrFun hstepped.done v] at hdone
        exact hkept t' v hv (h.done t' v ((hmem t' v).mp hv).1 hdone)
      leaving := fun t' v hv hnone => by
        rw [show c.done v = s.switch.done v from congrFun hstepped.done v] at hnone
        by_cases ht' : t' = t
        · subst ht'
          simp [State.leaving, hpc'] at hv
        · exact h.leaving t' v ((hleaving t' v ht').mp hv) hnone
      served := fun v halive hnone hoff => by
        rw [show c.done v = s.switch.done v from congrFun hstepped.done v] at hnone
        by_cases hv : v = u
        · exact h.leaving t v (hv ▸ hleft) hnone
        · have hold : A.status v = .alive := by simpa [hA', Stacks.pop, hv] using halive
          refine h.served v hold hnone ?_
          rintro ⟨t', hin⟩
          exact hoff ⟨t', (hmem t' v).mpr ⟨hin, hv⟩⟩ }

/-! ### Calls -/

omit [DecidableEq ι] [DecidableEq α] in
/-- The moves from user code into a function: nobody begins to leave a uthread. -/
theorem leaving_goto {c : ContextSwitch.State τ ι α} {pc : Pc ι α}
    (hc : c.pc = Function.update s.switch.pc t pc) (huser : s.switch.pc t = .user)
    (hpc : pc.leaving = none) (t' : τ) : (c.pc t').leaving = s.leaving t' := by
  by_cases ht' : t' = t
  · subst ht'
    simp [State.leaving, hc, hpc, huser]
  · simp [State.leaving, hc, ht']

omit [DecidableEq α] in
/-- A uthread is entered that was not, and no await of it is outstanding after that. -/
theorem Inv.entered (h : Inv s A) (hout : ¬ A.Inside u) (hdone : s.switch.done u = none)
    (hswitch : ContextSwitch.Inv s'.switch (A.push t u))
    (hmade : ∀ v, s.switch.made v = true → s'.switch.made v = true)
    (hsame : s'.switch.done = s.switch.done) (hleaving : ∀ t', s'.leaving t' = s.leaving t')
    (hhome : s'.home = Function.update s.home u (some t))
    (hstill : ∀ v w, s'.Outstanding v w ↔ v ≠ u ∧ s.Outstanding v w)
    (hsingle : ∀ v w, s'.awaiting v = some w → ∀ t', v ∉ s'.queue t')
    (hnodup : ∀ t', (s'.queue t').Nodup) : Inv s' (A.push t u) := by
  have hold : ∀ t' v, v ≠ u → v ∈ (A.push t u).stack t' → v ∈ A.stack t' := fun t' v hv hmem =>
    (Coroutines.mem_push.mp hmem).resolve_left fun heq => hv heq.2
  constructor
  · exact hswitch
  · intro t' v hmem
    rw [hhome]
    by_cases hv : v = u
    · subst hv
      rcases Coroutines.mem_push.mp hmem with ⟨rfl, -⟩ | hmem
      · exact Function.update_self ..
      · exact absurd ⟨t', hmem⟩ hout
    · rw [Function.update_of_ne hv]
      exact h.home t' v (hold t' v hv hmem)
  · exact hsingle
  · exact hnodup
  · intro v w hw
    rcases (hstill v w).mp hw with ⟨hv, hw⟩
    rw [hhome, Function.update_of_ne hv]
    exact h.outHome v w hw
  · intro v hne
    rw [hsame] at hne
    exact hmade v (h.born v hne)
  · intro v w hw
    rcases (hstill v w).mp hw with ⟨hv, hw⟩
    rcases h.out v w hw with ⟨hvmade, hvdone, hin⟩
    refine ⟨hmade v hvmade, (congrFun hsame v).trans hvdone, fun t' hmem => ?_⟩
    rw [hleaving]
    exact hin t' (hold t' v hv hmem)
  · intro t' v hmem hne
    rw [hsame] at hne
    have hv : v ≠ u := by
      rintro rfl
      exact hne hdone
    rw [hleaving]
    exact h.done t' v (hold t' v hv hmem) hne
  · intro t' v hv hnone
    rw [hleaving] at hv
    rw [hsame] at hnone
    rcases h.leaving t' v hv hnone with ⟨w, hw⟩
    refine ⟨w, (hstill v w).mpr ⟨?_, hw⟩⟩
    rintro rfl
    exact hout ⟨t', h.mem_of_leaving hv⟩
  · intro v hstatus hnone hoff
    rw [hsame] at hnone
    rw [Coroutines.inside_push, not_or] at hoff
    have hstatus' : A.status v = .alive := by
      simpa [Stacks.push, hoff.1] using hstatus
    rcases h.served v hstatus' hnone hoff.2 with ⟨w, hw⟩
    exact ⟨w, (hstill v w).mpr ⟨hoff.1, hw⟩⟩

theorem Inv.construct {c : ContextSwitch.State τ ι α} (h : Inv s A)
    (hstep : ContextSwitch.machine.step s.switch (t, .construct u) = some c) :
    ∃ A', Coroutines.machine.step A (t, .create u) = some A' ∧
      Inv { s with switch := c, home := Function.update s.home u (some t) } A' := by
  have hok : ContextSwitch.Protocol s.switch (t, .construct u) := trivial
  rcases h.switch.step hok hstep with ⟨A', hmove, hinv⟩
  simp only [ContextSwitch.observe, Machine.run_cons_eq_some, Machine.run_nil, Option.some.injEq,
    exists_eq_right] at hmove
  rcases ContextSwitch.step_cases hstep with ⟨b, hm, -⟩ | ⟨huser, hmade⟩
  · cases hm
  simp only [ContextSwitch.userStep] at hmade
  split at hmade
  · cases hmade
  · next hnew =>
      cases hmade
      have hborn : A.status u = .unborn := by
        by_contra hborn
        exact hnew ((h.switch.made u).mpr hborn)
      have hA' : A' = A.push t u := by
        simpa [Coroutines.machine, Coroutines.step, hborn, eq_comm] using hmove
      subst hA'
      have hfresh : ∀ v w, s.Outstanding v w → v ≠ u := by
        rintro v w hw rfl
        exact hnew (h.out v w hw).1
      have hdone : s.switch.done u = none := by
        by_contra hne
        exact hnew (h.born u hne)
      refine ⟨_, hmove, h.entered (h.switch.proper.not_inside_of_status (by simp [hborn])) hdone
        hinv ?_ rfl (leaving_goto rfl huser rfl) rfl ?_ h.single h.nodup⟩
      · intro v hv
        simp [Function.update_apply, hv]
      · exact fun v w => ⟨fun hw => ⟨hfresh v w hw, hw⟩, And.right⟩

/-- The worker runs the continuation of an await. -/
theorem Inv.take {c : ContextSwitch.State τ ι α} {rest : List ι} (h : Inv s A)
    (hqueue : s.queue t = u :: rest) (hrunning : s.switch.running t = .thread t)
    (hstep : ContextSwitch.machine.step s.switch (t, .switchIn u) = some c) :
    ∃ A', Coroutines.machine.step A (t, .enter u) = some A' ∧
      Inv { s with switch := c, queue := Function.update s.queue t rest } A' := by
  have hqueued : s.Outstanding u t := .inr (hqueue ▸ List.mem_cons_self)
  rcases h.out u t hqueued with ⟨hmade, hdone, -⟩
  rcases ContextSwitch.step_cases hstep with ⟨b, hm, -⟩ | ⟨huser, hentered⟩
  · cases hm
  -- the worker is in its own code, so that the uthread is not entered on it, and it is never
  -- entered elsewhere
  have hempty : A.stack t = [] := by
    have hsettled := h.switch.threads t
    rw [huser] at hsettled
    have htop := hsettled.running.symm.trans hrunning
    cases hstack : A.stack t with
    | nil => rfl
    | cons v rest =>
        rw [hstack] at htop
        cases htop
  have hout : ¬ A.Inside u := by
    rintro ⟨t', hmem⟩
    have htt' : t = t' := Option.some.inj ((h.outHome u t hqueued).symm.trans (h.home t' u hmem))
    rw [← htt', hempty] at hmem
    exact List.not_mem_nil hmem
  have hinside : s.switch.inside u = false := by
    rw [← Bool.not_eq_true, h.switch.inside u]
    exact hout
  have hok : ContextSwitch.Protocol s.switch (t, .switchIn u) := ⟨hinside, hdone⟩
  rcases h.switch.step hok hstep with ⟨A', hmove, hinv⟩
  simp only [ContextSwitch.observe, Machine.run_cons_eq_some, Machine.run_nil, Option.some.injEq,
    exists_eq_right] at hmove
  have halive : A.status u = .alive := by
    by_contra hne
    simp [Coroutines.machine, Coroutines.step, hne] at hmove
  have hA' : A' = A.push t u := by
    simpa [Coroutines.machine, Coroutines.step, halive, eq_comm] using hmove
  subst hA'
  simp only [ContextSwitch.userStep, hmade, if_true, Option.some.injEq] at hentered
  subst hentered
  have hrest : u ∉ rest := by
    have hnodup := h.nodup t
    rw [hqueue] at hnodup
    exact (List.nodup_cons.mp hnodup).1
  have hsub : ∀ t', (Function.update s.queue t rest t').Sublist (s.queue t') := by
    intro t'
    by_cases ht' : t' = t
    · subst ht'
      simp [hqueue]
    · simp [ht']
  have hhome : s.home = Function.update s.home u (some t) := by
    rw [← h.outHome u t hqueued, Function.update_eq_self]
  refine ⟨_, hmove, h.entered hout hdone hinv (fun _ hv => hv) rfl (leaving_goto rfl huser rfl)
    hhome ?_ ?_ ?_⟩
  · intro v w
    simp only [State.Outstanding]
    by_cases hv : v = u
    · subst hv
      refine iff_of_false ?_ (by simp)
      rintro (hawait | hmem)
      · exact h.single v w hawait t (hqueue ▸ List.mem_cons_self)
      · by_cases hw : w = t
        · subst hw
          exact hrest (by simpa using hmem)
        · simp only [Function.update_of_ne hw] at hmem
          exact hw (Option.some.inj ((h.outHome v w (.inr hmem)).symm.trans
            (h.outHome v t hqueued)))
    · by_cases hw : w = t
      · subst hw
        simp [hv, hqueue]
      · simp [hv, hw]
  · exact fun v w hw t' hmem => h.single v w hw t' ((hsub t').subset hmem)
  · exact fun t' => (h.nodup t').sublist (hsub t')

omit [DecidableEq α] in
/-- The worker begins to leave its innermost uthread, which awaits or has returned. -/
theorem Inv.leave {c : ContextSwitch.State τ ι α} {rest : List ι} {awaiting : ι → Option τ}
    (h : Inv s A) (huser : s.switch.pc t = .user) (hstack : A.stack t = u :: rest)
    (hinv : ContextSwitch.Inv c A) (hmade : c.made = s.switch.made)
    (hpc : ∃ pc, c.pc = Function.update s.switch.pc t pc ∧ pc.leaving = some u)
    (hdone : ∀ v, v ≠ u → c.done v = s.switch.done v)
    (hawaiting : ∀ v, v ≠ u → awaiting v = s.awaiting v)
    (hcase : c.done u = none ∧ awaiting u = some t ∨ c.done u ≠ none ∧ awaiting u = s.awaiting u) :
    Inv { s with switch := c, awaiting := awaiting } A := by
  have hu : u ∈ A.stack t := hstack ▸ List.mem_cons_self
  have hmadeu : s.switch.made u = true :=
    (h.switch.made u).mpr (by simp [h.switch.proper.alive t u hu])
  have hnotOut := (h.user huser hu).1
  rcases hpc with ⟨pc, hpc, hleave⟩
  have hleaving : ∀ t', State.leaving { s with switch := c, awaiting := awaiting } t' =
      if t' = t then some u else s.leaving t' := by
    intro t'
    by_cases ht' : t' = t
    · simp [State.leaving, hpc, ht', hleave]
    · simp [State.leaving, hpc, ht']
  have hnone : s.leaving t = none := by simp [State.leaving, huser]
  have hstill : ∀ v w, v ≠ u → (State.Outstanding { s with switch := c, awaiting := awaiting } v w ↔
      s.Outstanding v w) := fun v w hv => by
    simp only [State.Outstanding, hawaiting v hv]
  have hnew : ∀ w, State.Outstanding { s with switch := c, awaiting := awaiting } u w →
      w = t ∧ c.done u = none ∧ awaiting u = some t := by
    rintro w (hw | hw)
    · rcases hcase with ⟨hdone, hawait⟩ | ⟨-, hawait⟩
      · exact ⟨Option.some.inj (hw.symm.trans hawait), hdone, hawait⟩
      · exact absurd (.inl (hawait.symm.trans hw)) (hnotOut w)
    · exact absurd (.inr hw) (hnotOut w)
  -- nobody else was about to leave on this thread
  have hkept : ∀ t' v, s.leaving t' = some v →
      State.leaving { s with switch := c, awaiting := awaiting } t' = some v := by
    intro t' v hv
    have ht' : t' ≠ t := by
      rintro rfl
      rw [hnone] at hv
      cases hv
    rw [hleaving, if_neg ht', hv]
  have hleft : ∀ t', u ∈ A.stack t' →
      State.leaving { s with switch := c, awaiting := awaiting } t' = some u := by
    intro t' hmem
    rw [hleaving, if_pos (h.switch.proper.single t' t u hmem hu)]
  constructor
  · exact hinv
  · exact h.home
  · intro v w hw t' hmem
    by_cases hv : v = u
    · subst hv
      exact hnotOut t' (.inr hmem)
    · exact h.single v w (hawaiting v hv ▸ hw) t' hmem
  · exact h.nodup
  · intro v w hw
    by_cases hv : v = u
    · subst hv
      rw [(hnew w hw).1]
      exact h.home t v hu
    · exact h.outHome v w ((hstill v w hv).mp hw)
  · intro v hne
    by_cases hv : v = u
    · subst hv
      exact (congrFun hmade v).trans hmadeu
    · exact (congrFun hmade v).trans (h.born v (hdone v hv ▸ hne))
  · intro v w hw
    by_cases hv : v = u
    · subst hv
      exact ⟨(congrFun hmade v).trans hmadeu, (hnew w hw).2.1, hleft⟩
    · rcases h.out v w ((hstill v w hv).mp hw) with ⟨hvmade, hvdone, hin⟩
      exact ⟨(congrFun hmade v).trans hvmade, (hdone v hv).trans hvdone,
        fun t' hmem => hkept t' v (hin t' hmem)⟩
  · intro t' v hmem hne
    by_cases hv : v = u
    · subst hv
      exact hleft t' hmem
    · exact hkept t' v (h.done t' v hmem (hdone v hv ▸ hne))
  · intro t' v hv hvdone
    by_cases hvu : v = u
    · subst hvu
      rcases hcase with ⟨-, hawait⟩ | ⟨hne, -⟩
      · exact ⟨t, .inl hawait⟩
      · exact absurd hvdone hne
    · rw [hleaving] at hv
      split at hv
      · exact absurd (Option.some.inj hv).symm hvu
      · rcases h.leaving t' v hv ((hdone v hvu).symm.trans hvdone) with ⟨w, hw⟩
        exact ⟨w, (hstill v w hvu).mpr hw⟩
  · intro v halive hvdone hoff
    have hv : v ≠ u := by
      rintro rfl
      exact hoff ⟨t, hu⟩
    rcases h.served v halive ((hdone v hv).symm.trans hvdone) hoff with ⟨w, hw⟩
    exact ⟨w, (hstill v w hv).mpr hw⟩

/-! ## Runs -/

/-- A move of the context switches that is seen once. -/
theorem run_singleton {m : τ × Coroutines.Move ι} (hmove : Coroutines.machine.step A m = some A') :
    Coroutines.machine.run A [m] = some A' := by
  simp [Machine.run, hmove]

theorem Inv.step {l : Label τ ι α} (h : Inv s A) (hok : InUthread s l)
    (hstep : machine.step s l = some s') :
    ∃ A', Coroutines.machine.run A (observe s l s') = some A' ∧ Inv s' A' := by
  cases l with
  | construct t u =>
      simp only [machine, UthreadWorkers.step, State.moves, Option.map_map,
        Option.map_eq_some_iff] at hstep
      rcases hstep with ⟨c, hc, rfl⟩
      rcases h.construct hc with ⟨A', hmove, hinv⟩
      exact ⟨A', run_singleton hmove, hinv⟩
  | await t =>
      simp only [machine, UthreadWorkers.step, State.moves, Option.map_map,
        Option.map_eq_some_iff] at hstep
      rcases hstep with ⟨c, hc, rfl⟩
      have hprotocol : ContextSwitch.Protocol s.switch (t, .switchOut) := hok
      rcases h.switch.step hprotocol hc with ⟨A', hmove, hinv⟩
      simp only [ContextSwitch.observe, Machine.run_nil, Option.some.injEq] at hmove
      subst hmove
      rcases ContextSwitch.step_cases hc with ⟨b, hm, -⟩ | ⟨huser, hleft⟩
      · cases hm
      refine ⟨A, rfl, ?_⟩
      simp only [ContextSwitch.userStep, h.switch.get_eq huser] at hleft
      simp only [Function.comp_apply, h.switch.get_eq huser]
      cases hstack : A.stack t with
      | nil =>
          have hsettled := h.switch.threads t
          rw [huser, hstack] at hsettled
          exact absurd hsettled.running hok
      | cons u rest =>
          simp only [hstack, List.head?_cons, Option.some.injEq] at hleft
          subst hleft
          refine h.leave huser hstack hinv rfl ⟨_, rfl, rfl⟩ (fun _ _ => rfl) (fun v hv => ?_)
            (.inl ⟨(h.user huser (hstack ▸ List.mem_cons_self)).2, ?_⟩)
          · simp [hv]
          · simp
  | fulfil u =>
      simp only [machine, UthreadWorkers.step] at hstep
      split at hstep
      · cases hstep
      · next t hawait =>
          cases hstep
          exact ⟨A, rfl, h.fulfil hawait⟩
  | take t =>
      simp only [machine, UthreadWorkers.step] at hstep
      split at hstep
      · cases hstep
      · next u rest hqueue =>
          split at hstep
          · next hrunning =>
              simp only [State.moves, Option.map_map, Option.map_eq_some_iff] at hstep
              rcases hstep with ⟨c, hc, rfl⟩
              rcases h.take hqueue hrunning hc with ⟨A', hmove, hinv⟩
              refine ⟨A', ?_, hinv⟩
              simp only [observe, Label.move, hqueue, List.head?_cons, Option.map_some]
              exact run_singleton hmove
          · cases hstep
  | finish t ok =>
      simp only [machine, UthreadWorkers.step, State.moves, Option.map_eq_some_iff] at hstep
      rcases hstep with ⟨c, hc, rfl⟩
      have hprotocol : ContextSwitch.Protocol s.switch (t, .finish ok) := trivial
      rcases h.switch.step hprotocol hc with ⟨A', hmove, hinv⟩
      simp only [ContextSwitch.observe, Machine.run_nil, Option.some.injEq] at hmove
      subst hmove
      rcases ContextSwitch.step_cases hc with ⟨b, hm, -⟩ | ⟨huser, hdone⟩
      · cases hm
      refine ⟨A, rfl, ?_⟩
      have hsettled := h.switch.threads t
      rw [huser] at hsettled
      simp only [ContextSwitch.userStep, hsettled.running] at hdone
      cases hstack : A.stack t with
      | nil =>
          rw [hstack] at hdone
          simp only [top, (h.switch.own t).2] at hdone
          cases hdone
      | cons u rest =>
          have hspine := hsettled.spine
          rw [hstack] at hspine
          simp only [hstack, top, hspine.1.2, Option.some.injEq] at hdone
          subst hdone
          refine h.leave huser hstack hinv rfl ⟨_, rfl, rfl⟩ (fun v hv => ?_) (fun _ _ => rfl)
            (.inr ⟨?_, rfl⟩)
          · simp [hv]
          · simp
  | next t a =>
      simp only [machine, UthreadWorkers.step, State.moves, Option.map_eq_some_iff] at hstep
      rcases hstep with ⟨c, hc, rfl⟩
      rcases ContextSwitch.step_cases hc with ⟨b, hm, hnext⟩ | ⟨-, hnone⟩
      · cases hm
        by_cases hstay : ∀ v b, s.switch.pc t ≠ .storeIn v b
        · refine ⟨A, ?_, h.next hnext hstay⟩
          simp only [observe, Label.move, ContextSwitch.observe_next hstay, Machine.run_nil]
        · simp only [ne_eq, not_forall, not_not] at hstay
          rcases hstay with ⟨u, b, hpc⟩
          rcases h.storeIn hpc hnext with ⟨A', hmove, hinv⟩
          refine ⟨A', ?_, hinv⟩
          simp only [observe, Label.move, ContextSwitch.observe, hpc]
          exact run_singleton hmove
      · cases hnone

/-- What the workers owe to the uthreads. -/
structure Serves (s : State τ ι α) (A : Stacks τ ι) : Prop where
  /-- a uthread stays on its worker -/
  home : ∀ t u, u ∈ A.stack t → s.home u = some t
  /-- a uthread that has switched out and not returned waits for a promise or is in the queue -/
  served : ∀ u, A.status u = .alive → s.switch.done u = none → ¬ A.Inside u →
    ∃ w, s.home u = some w ∧ (s.awaiting u = some w ∨ u ∈ s.queue w)
  /-- and it is there once -/
  once : ∀ u w, s.awaiting u = some w → ∀ t, u ∉ s.queue t
  nodup : ∀ t, (s.queue t).Nodup
  queued : ∀ t u, u ∈ s.queue t → s.home u = some t
  /-- a uthread that executes user code has the result that it has awaited -/
  result : ∀ t u, s.switch.pc t = .user → u ∈ A.stack t →
    s.awaiting u = none ∧ ∀ w, u ∉ s.queue w

omit [DecidableEq τ] [DecidableEq ι] [DecidableEq α] in
theorem Inv.serves (h : Inv s A) : Serves s A where
  home := h.home
  served := fun u halive hdone hout => by
    rcases h.served u halive hdone hout with ⟨w, hw⟩
    exact ⟨w, h.outHome u w hw, hw⟩
  once := h.single
  nodup := h.nodup
  queued := fun t u hmem => h.outHome u t (.inr hmem)
  result := fun t u huser hmem => by
    have hnone := (h.user huser hmem).1
    refine ⟨Option.eq_none_iff_forall_not_mem.mpr fun w hw => hnone w (.inl hw), fun w hw =>
      hnone w (.inr hw)⟩

/-- A uthread constructs another one and awaits; its promise is fulfilled before it has left its
stack.  Both are resumed by the worker. -/
def twoAwaits : List (Label Unit Bool Nat) :=
  [Label.construct () false, Label.next () 0, Label.next () 1, Label.next () 1, Label.next () 1,
    Label.next () 1, Label.next () 1, Label.construct () true, Label.next () 2, Label.next () 3,
    Label.next () 3, Label.next () 3, Label.next () 3, Label.next () 3, Label.await (),
    Label.fulfil true, Label.next () 4, Label.next () 4, Label.next () 4, Label.await (),
    Label.fulfil false, Label.next () 5, Label.next () 5, Label.next () 5, Label.take (),
    Label.next () 6, Label.next () 6, Label.next () 6, Label.next () 7, Label.finish () true,
    Label.next () 8, Label.next () 8, Label.next () 8, Label.take ()]

end UthreadWorkers

end AsyncSimple
