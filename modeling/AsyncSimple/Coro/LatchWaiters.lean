import Mathlib.Algebra.GroupWithZero.Nat
import AsyncSimple.Coro.MonitorMoves

/-!
# Waiters of the latch

A latch is closed while its count is positive, opening while the
{lit}`count_down` that has brought the count to zero still has to notify, and
open from then on.  Waiters are woken up only by the opening, so that nobody
takes the lock a second time before it, and nobody waits after it.  The phases
are kept by every step, also by one in which a {lit}`co_await Yield` throws.

The callers are modelled over the monitor: {lit}`arrive_and_wait` awaits a
{lit}`count_down` and then a {lit}`wait`.

Main results:

- Theorem {lit}`Monitor.step_event`: what a step of a monitor changes apart from
  the lock, whatever happens in it.
- Theorem {lit}`Phase.step`: a closed latch may become opening, an opening one
  open, and an open one stays open.
- Theorem {lit}`latch_opens_once`: counting, returning and waiting in every run.
-/

namespace AsyncSimple

open Transition

namespace Monitor

variable {σ γ ω ρ ι : Type}

/-! ## What a step changes -/

/-- The coroutine has been unlinked from the condition variable and has not
taken the lock again. -/
def Pc.Popped : Pc γ ω → Bool
  | .leave _ _ popped => popped
  | pc => pc.InFlight

/-- No push and no notification comes next. -/
def Pc.Plain : Pc γ ω → Prop
  | .push _ _ | .notifying _ _ _ => False
  | _ => True

/-- The data behind the lock and the results. -/
structure SameData (s s' : System σ γ ω ρ ι) : Prop where
  value : s'.value = s.value
  awaiters : s'.awaiters = s.awaiters
  log : s'.log = s.log

variable [DecidableEq ι] [DecidableEq γ]

/-- Everything that can happen in a monitor; what becomes of the lock is left
out. -/
inductive Event (P : Primitive σ γ ω ρ) (s s' : System σ γ ω ρ ι) : Label ω ι → Prop where
  | call {i : ι} {op : ω} {pc : Pc γ ω} (hidle : s.pc i = .idle)
      (hstage : pc.stage = some (op, 0)) (hpopped : pc.Popped = false) (hplain : pc.Plain)
      (hpc : s'.pc = Function.update s.pc i pc) (hdata : SameData s s') : Event P s s' (.call i op)
  | refuse {i : ι} {op : ω} (hidle : s.pc i = .idle)
      (hpc : s'.pc = Function.update s.pc i .aborted) (hdata : SameData s s') :
      Event P s s' (.call i op)
  | stay {i : ι} {pc : Pc γ ω} (hstage : pc.stage = (s.pc i).stage)
      (hpopped : pc.Popped = true → (s.pc i).Popped = true) (hplain : pc.Plain)
      (hpc : s'.pc = Function.update s.pc i pc) (hdata : SameData s s') : Event P s s' (.go i)
  | finish {i : ι} (hfrom : (s.pc i).stage = none ∨ ∃ op k, (s.pc i).stage = some (op, k) ∧
        (P.blocking op = false ∨ (P.sections op)[k]? = none))
      (hpc : s'.pc = Function.update s.pc i .idle) (hdata : SameData s s') : Event P s s' (.go i)
  | abort {i : ι} (hpc : s'.pc = Function.update s.pc i .aborted) (hdata : SameData s s') :
      Event P s s' (.go i)
  | throw {i : ι} {op : ω} {k : Nat} {pc : Pc γ ω} {e : YieldError}
      (hfrom : (s.pc i).stage = some (op, k)) (hto : pc = .idle ∨ pc = .unwind)
      (hpc : s'.pc = Function.update s.pc i pc) (hvalue : s'.value = s.value)
      (hawaiters : s'.awaiters = s.awaiters) (hlog : s'.log = s.log ++ [(i, op, .error e)]) :
      Event P s s' (.go i)
  | block {i : ι} {op : ω} {k : Nat} {sec : Section σ γ ρ} (hfrom : s.pc i = .inside op k)
      (hsec : (P.sections op)[k]? = some sec) (hready : sec.ready s.value = false)
      (hpc : s'.pc = Function.update s.pc i (.push op k)) (hdata : SameData s s') :
      Event P s s' (.go i)
  | run {i : ι} {op : ω} {k : Nat} {sec : Section σ γ ρ} (hfrom : s.pc i = .inside op k)
      (hsec : (P.sections op)[k]? = some sec) (hready : sec.ready s.value = true)
      (hasserts : sec.asserts s.value = true)
      (hpc : s'.pc = Function.update s.pc i ((sec.body s.value).next op k))
      (hvalue : s'.value = (sec.body s.value).value) (hawaiters : s'.awaiters = s.awaiters)
      (hlog : s'.log = s.log ++ [(i, op, .ok (sec.body s.value).result)]) : Event P s s' (.go i)
  | push {i : ι} {op : ω} {k : Nat} {sec : Section σ γ ρ} (hfrom : s.pc i = .push op k)
      (hsec : (P.sections op)[k]? = some sec)
      (hpc : s'.pc = Function.update s.pc i (.leave op k false)) (hvalue : s'.value = s.value)
      (hawaiters : s'.awaiters =
        Function.update s.awaiters sec.gate (i :: s.awaiters sec.gate))
      (hlog : s'.log = s.log) : Event P s s' (.go i)
  | notify {i : ι} {op : ω} {k : Nat} {n : Notification γ} (hfrom : s.pc i = .notifying op k n)
      (heq : s' = (s.goto i (.inside op (k + 1))).notify n) : Event P s s' (.go i)
  | terminate {i : ι} (hpc : s'.pc = s.pc) (hdata : SameData s s') :
      Event P s s' (.terminate i)

section Event

variable {P : Primitive σ γ ω ρ} {spinCount : Int} {s s' : System σ γ ω ρ ι}

omit [DecidableEq γ] in
/-- The store of {lit}`unlock`, or its failed assertion. -/
theorem unlock_cases (i : ι) (pc : Pc γ ω) :
    SameData s (s.unlock i pc) ∧ ((s.unlock i pc).pc = Function.update s.pc i pc ∨
      (s.unlock i pc).pc = Function.update s.pc i .aborted) := by
  unfold System.unlock
  split
  · exact ⟨⟨rfl, rfl, rfl⟩, .inl rfl⟩
  · exact ⟨⟨rfl, rfl, rfl⟩, .inr rfl⟩

theorem insideStep_event {i : ι} {op : ω} {k : Nat} (hfrom : s.pc i = .inside op k) :
    Event P s (insideStep P s i op k) (.go i) := by
  unfold insideStep
  split
  case h_1 hsec =>
    rcases unlock_cases (s := s) i (.idle : Pc γ ω) with ⟨hdata, hpc | hpc⟩
    · refine .finish (.inr ⟨op, k, ?_, .inr hsec⟩) hpc hdata
      rw [hfrom]
      rfl
    · exact .abort hpc hdata
  case h_2 sec hsec =>
    split
    case isTrue hready => exact .block hfrom hsec hready rfl ⟨rfl, rfl, rfl⟩
    case isFalse hready =>
      split
      case isTrue hasserts => exact .abort rfl ⟨rfl, rfl, rfl⟩
      case isFalse hasserts =>
        exact .run hfrom hsec (by simpa using hready) (by simpa using hasserts) rfl rfl rfl rfl

theorem Event.goto {i : ι} {pc : Pc γ ω} (hstage : pc.stage = (s.pc i).stage)
    (hpopped : pc.Popped = true → (s.pc i).Popped = true) (hplain : pc.Plain) :
    Event P s (s.goto i pc) (.go i) :=
  .stay hstage hpopped hplain rfl ⟨rfl, rfl, rfl⟩

theorem throw_event {i : ι} {op : ω} {k : Nat} {phase : Phase} {e : YieldError}
    (hfrom : (s.pc i).stage = some (op, k)) : Event P s (s.throw i phase op e) (.go i) := by
  cases phase with
  | first => exact .throw hfrom (.inl rfl) rfl rfl rfl rfl
  | again => exact .throw hfrom (.inr rfl) rfl rfl rfl rfl

theorem coroutineStep_event {i : ι} (hstep : coroutineStep P spinCount s i = some s') :
    Event P s s' (.go i) := by
  unfold coroutineStep at hstep
  cases hfrom : s.pc i with
  | idle | waiting op k | aborted =>
      simp only [hfrom] at hstep
      cases hstep
  | exchange phase op k counter =>
      have hstage : (s.pc i).stage = some (op, k) := by simp [hfrom, Pc.stage]
      simp only [hfrom] at hstep
      split at hstep
      · cases hstep
        refine .stay ?_ ?_ ?_ rfl ⟨rfl, rfl, rfl⟩
        · rw [hstage]
          rfl
        · simp [Pc.Popped, Pc.InFlight]
        · trivial
      · split at hstep
        · cases hstep
          refine Event.goto (by rw [hstage]; rfl) ?_ trivial
          cases phase <;> simp [hfrom, Pc.Popped, Pc.InFlight]
        · next hblocking =>
            cases hstep
            exact .finish (.inr ⟨op, k, hstage, .inl (by simpa using hblocking)⟩) rfl
              ⟨rfl, rfl, rfl⟩
  | spin phase op k counter =>
      simp only [hfrom] at hstep
      split at hstep
      · split at hstep
        all_goals
          cases hstep
          refine Event.goto (by rw [hfrom]; rfl) ?_ trivial
          cases phase <;> simp [hfrom, Pc.Popped, Pc.InFlight]
      · cases hstep
        refine Event.goto (by rw [hfrom]; rfl) ?_ trivial
        cases phase <;> simp [hfrom, Pc.Popped, Pc.InFlight]
  | yield phase op k =>
      have hstage : (s.pc i).stage = some (op, k) := by simp [hfrom, Pc.stage]
      simp only [hfrom] at hstep
      split at hstep
      · cases hstep
        exact throw_event hstage
      · split at hstep
        · cases hstep
          refine Event.goto (by rw [hfrom]; rfl) ?_ trivial
          cases phase <;> simp [hfrom, Pc.Popped, Pc.InFlight]
        · cases hstep
          exact throw_event hstage
  | yielded phase op k =>
      have hstage : (s.pc i).stage = some (op, k) := by simp [hfrom, Pc.stage]
      simp only [hfrom] at hstep
      split at hstep
      · cases hstep
        exact throw_event hstage
      · cases hstep
        refine Event.goto (by rw [hfrom]; rfl) ?_ trivial
        cases phase <;> simp [hfrom, Pc.Popped, Pc.InFlight]
  | inside op k =>
      simp only [hfrom] at hstep
      cases hstep
      exact insideStep_event hfrom
  | push op k =>
      simp only [hfrom] at hstep
      split at hstep
      · cases hstep
      · next sec hsec =>
          cases hstep
          exact .push hfrom hsec rfl rfl rfl rfl
  | leave op k popped =>
      simp only [hfrom] at hstep
      cases hstep
      rcases unlock_cases (s := s) i (if popped then .woken op k else .waiting op k : Pc γ ω) with
        ⟨hdata, hpc | hpc⟩
      · refine .stay ?_ ?_ ?_ hpc hdata
        · cases popped <;> simp [hfrom, Pc.stage]
        · cases popped <;> simp [hfrom, Pc.Popped, Pc.InFlight]
        · cases popped <;> trivial
      · exact .abort hpc hdata
  | woken op k =>
      simp only [hfrom] at hstep
      cases hstep
      exact Event.goto (by rw [hfrom]; rfl) (by simp [hfrom, Pc.Popped, Pc.InFlight]) trivial
  | notifying op k n =>
      simp only [hfrom] at hstep
      cases hstep
      exact .notify hfrom rfl
  | unwind =>
      simp only [hfrom] at hstep
      cases hstep
      rcases unlock_cases (s := s) i (.idle : Pc γ ω) with ⟨hdata, hpc | hpc⟩
      · exact .finish (.inl (by rw [hfrom]; rfl)) hpc hdata
      · exact .abort hpc hdata

/-- Every step of a monitor is one of the events. -/
theorem step_event {l : Label ω ι} (hstep : step P spinCount s l = some s') :
    Event P s s' l := by
  cases l with
  | call i op =>
      simp only [Monitor.step] at hstep
      split at hstep
      case h_1 hidle =>
        split at hstep
        · cases hstep
          refine .call hidle ?_ ?_ ?_ rfl ⟨rfl, rfl, rfl⟩
          · rfl
          · rfl
          · trivial
        · cases hstep
          exact .refuse hidle rfl ⟨rfl, rfl, rfl⟩
      case h_2 => cases hstep
  | go i => exact coroutineStep_event hstep
  | terminate i =>
      cases hstep
      exact .terminate rfl ⟨rfl, rfl, rfl⟩

end Event

end Monitor

open Monitor

namespace Latch

variable {ι : Type}

/-- States of a latch and its coroutines. -/
abbrev System (ι : Type) := Monitor.System UInt64 Unit Op Bool ι

/-! ## Sections -/

/-- What a section of the latch does once it is ready and its assertion holds. -/
theorem section_cases {op : Op} {k : Nat} {sec : Section UInt64 Unit Bool} {count : UInt64}
    (hsec : (primitive.sections op)[k]? = some sec) (hready : sec.ready count = true)
    (hasserts : sec.asserts count = true) :
    k = 0 ∧ ((∃ update, op = .countDown update ∧ update ≤ count ∧
        sec.body count = ⟨count - update,
          if count - update = 0 then some ⟨(), true⟩ else none, true⟩) ∨
      (op = .tryWait ∧ sec.body count = ⟨count, none, decide (count = 0)⟩) ∨
      (op = .wait ∧ count = 0 ∧ sec.body count = ⟨count, none, true⟩)) := by
  have hk : k = 0 := by
    have hlt := (List.getElem?_eq_some_iff.mp hsec).1
    cases op <;> simpa [primitive] using hlt
  subst hk
  cases op with
  | countDown update =>
      have heq : countDown update = sec := by simpa [primitive] using hsec
      subst heq
      exact ⟨rfl, .inl ⟨update, rfl, by simpa [countDown, Section.immediate] using hasserts, rfl⟩⟩
  | tryWait =>
      have heq : tryWait = sec := by simpa [primitive] using hsec
      subst heq
      exact ⟨rfl, .inr (.inl ⟨rfl, rfl⟩)⟩
  | wait =>
      have heq : wait = sec := by simpa [primitive] using hsec
      subst heq
      exact ⟨rfl, .inr (.inr ⟨rfl, by simpa [wait] using hready, rfl⟩)⟩

/-- Only {lit}`wait` blocks, and only while the count is positive. -/
theorem blocks_of_not_ready {op : Op} {k : Nat} {sec : Section UInt64 Unit Bool} {count : UInt64}
    (hsec : (primitive.sections op)[k]? = some sec) (hready : sec.ready count = false) :
    count ≠ 0 := by
  have hlt := (List.getElem?_eq_some_iff.mp hsec).1
  rintro rfl
  cases op <;> cases k <;> simp_all [primitive] <;> subst hsec <;>
    simp [countDown, tryWait, wait, Section.immediate] at hready

/-- No operation of the latch gives up when the lock is taken. -/
theorem blocking (op : Op) : primitive.blocking op = true :=
  rfl

/-! ## Phases -/

/-- The lock is owned as it should be, and nobody has been woken up. -/
structure Unnotified (s : System ι) : Prop where
  owner : OwnerInv s
  unpopped : ∀ i, (s.pc i).Popped = false

/-- The count is positive. -/
structure Closed (s : System ι) : Prop extends Unnotified s where
  positive : s.value ≠ 0
  quiet : ∀ i op k n, s.pc i ≠ .notifying op k n

/-- The count is zero, and the coroutine that has brought it to zero is going to
notify. -/
structure Opening (s : System ι) : Prop extends Unnotified s where
  zero : s.value = 0
  notifier : ∃ i op k, s.pc i = .notifying op k ⟨(), true⟩

/-- The count is zero, nobody waits and nobody is going to. -/
structure Opened (s : System ι) : Prop where
  zero : s.value = 0
  empty : s.awaiters () = []
  unpushed : ∀ i op k, s.pc i ≠ .push op k

/-- The phases of a latch. -/
inductive Phase (s : System ι) : Prop where
  | closed (h : Closed s)
  | opening (h : Opening s)
  | opened (h : Opened s)

theorem Phase.initial (count : UInt64) (executor : ι → Bool) :
    Phase (Monitor.System.initial count executor : System ι) := by
  by_cases hcount : count = 0
  · exact .opened ⟨hcount, rfl, fun i op k h => by cases h⟩
  · exact .closed ⟨⟨OwnerInv.initial count executor, fun i => rfl⟩, hcount,
      fun i op k n h => by cases h⟩

variable {s s' : System ι}

/-- Before the notification no {lit}`Yield` throws while the lock is taken
again. -/
theorem Unnotified.not_relockThrows (h : Unnotified s) (l : Label Op ι) :
    ¬ RelockThrows s l := by
  intro hthrows
  unfold RelockThrows at hthrows
  split at hthrows
  case h_1 i =>
    have hunpopped := h.unpopped i
    split at hthrows
    · next hpc => simp [hpc, Pc.Popped, Pc.InFlight] at hunpopped
    · next hpc => simp [hpc, Pc.Popped, Pc.InFlight] at hunpopped
    · exact hthrows
  case h_2 => exact hthrows

variable [DecidableEq ι]

theorem Unnotified.update (h : Unnotified s) (howner : OwnerInv s') {i : ι} {pc : Pc Unit Op}
    (hpc : s'.pc = Function.update s.pc i pc) (hpopped : pc.Popped = false) : Unnotified s' where
  owner := howner
  unpopped := by
    intro j
    rw [hpc]
    by_cases hj : j = i
    · subst hj
      rw [Function.update_self]
      exact hpopped
    · rw [Function.update_of_ne hj]
      exact h.unpopped j

theorem Closed.update (h : Closed s) (howner : OwnerInv s') {i : ι} {pc : Pc Unit Op}
    (hpc : s'.pc = Function.update s.pc i pc) (hpopped : pc.Popped = false)
    (hquiet : ∀ op k n, pc ≠ .notifying op k n) (hvalue : s'.value ≠ 0) : Closed s' where
  toUnnotified := h.toUnnotified.update howner hpc hpopped
  positive := hvalue
  quiet := by
    intro j op k n
    rw [hpc]
    by_cases hj : j = i
    · subst hj
      rw [Function.update_self]
      exact hquiet op k n
    · rw [Function.update_of_ne hj]
      exact h.quiet j op k n

variable {spinCount : Int} {l : Monitor.Label Op ι}

/-- A closed latch stays closed until a {lit}`count_down` takes the rest of the
count; that one is then about to notify. -/
theorem Closed.step (h : Closed s) (hstep : Monitor.step primitive spinCount s l = some s') :
    Closed s' ∨ Opening s' := by
  have howner := h.owner.step (h.not_relockThrows l) hstep
  cases step_event hstep with
  | @call i op pc hidle hstage hpopped hplain hpc hdata =>
      refine .inl (h.update howner hpc hpopped ?_ (hdata.value ▸ h.positive))
      rintro op k n rfl
      exact hplain
  | refuse hidle hpc hdata =>
      exact .inl (h.update howner hpc rfl (by simp) (hdata.value ▸ h.positive))
  | @stay i pc hstage hpopped hplain hpc hdata =>
      refine .inl (h.update howner hpc ?_ ?_ (hdata.value ▸ h.positive))
      · have hunpopped := h.unpopped i
        by_contra hpop
        rw [hpopped (by simpa using hpop)] at hunpopped
        cases hunpopped
      · rintro op k n rfl
        exact hplain
  | finish hfrom hpc hdata =>
      exact .inl (h.update howner hpc rfl (by simp) (hdata.value ▸ h.positive))
  | abort hpc hdata =>
      exact .inl (h.update howner hpc rfl (by simp) (hdata.value ▸ h.positive))
  | throw hfrom hto hpc hvalue =>
      refine .inl (h.update howner hpc ?_ ?_ (hvalue ▸ h.positive))
      · rcases hto with rfl | rfl <;> rfl
      · rcases hto with rfl | rfl <;> simp
  | block hfrom hsec hready hpc hdata =>
      exact .inl (h.update howner hpc rfl (by simp) (hdata.value ▸ h.positive))
  | @run i op k sec hfrom hsec hready hasserts hpc hvalue hawaiters hlog =>
      rcases section_cases hsec hready hasserts with
        ⟨rfl, ⟨update, rfl, hle, hbody⟩ | ⟨rfl, hbody⟩ | ⟨rfl, hzero, hbody⟩⟩
      · by_cases hlast : s.value - update = 0
        · refine .inr ⟨h.toUnnotified.update howner hpc ?_, ?_, i, .countDown update, 0, ?_⟩
          · simp [hbody, hlast, Effect.next, Pc.Popped, Pc.InFlight]
          · rw [hvalue, hbody, hlast]
          · simp [hpc, hbody, hlast, Effect.next]
        · refine .inl (h.update howner hpc ?_ ?_ ?_)
          · simp [hbody, hlast, Effect.next, Pc.Popped, Pc.InFlight]
          · simp [hbody, hlast, Effect.next]
          · rw [hvalue, hbody]
            exact hlast
      · refine .inl (h.update howner hpc ?_ ?_ ?_)
        · simp [hbody, Effect.next, Pc.Popped, Pc.InFlight]
        · simp [hbody, Effect.next]
        · rw [hvalue, hbody]
          exact h.positive
      · exact absurd hzero h.positive
  | push hfrom hsec hpc hvalue =>
      exact .inl (h.update howner hpc rfl (by simp) (hvalue ▸ h.positive))
  | notify hfrom => exact absurd hfrom (h.quiet _ _ _ _)
  | terminate hpc hdata =>
      refine .inl ⟨⟨howner, ?_⟩, hdata.value ▸ h.positive, ?_⟩
      · rw [hpc]
        exact h.unpopped
      · rw [hpc]
        exact h.quiet

/-- A step of a coroutine other than the notifier. -/
theorem Opening.update (h : Opening s) (howner : OwnerInv s') {i j : ι} {op : Op} {k : Nat}
    {pc : Pc Unit Op} (hi : s.pc i = .notifying op k ⟨(), true⟩) (hj : j ≠ i)
    (hpc : s'.pc = Function.update s.pc j pc) (hpopped : pc.Popped = false)
    (hvalue : s'.value = s.value) : Opening s' where
  toUnnotified := h.toUnnotified.update howner hpc hpopped
  zero := hvalue.trans h.zero
  notifier := by
    refine ⟨i, op, k, ?_⟩
    rw [hpc, Function.update_of_ne (Ne.symm hj)]
    exact hi

omit [DecidableEq ι] in
/-- Only the notifier works under the lock. -/
theorem Opening.eq_notifier (h : Opening s) {i j : ι} {op : Op} {k : Nat}
    (hi : s.pc i = .notifying op k ⟨(), true⟩) (hj : (s.pc j).Inside) : j = i := by
  have hinside : (s.pc i).Inside := by simp [hi, Pc.Inside]
  exact h.owner.discipline.exclusive j i hj hinside

/-- The notification unlinks all waiters, and no other coroutine has passed the
test of the count. -/
theorem Opening.notify (h : Opening s) {i : ι} {op : Op} {k : Nat}
    (hi : s.pc i = .notifying op k ⟨(), true⟩) :
    Opened ((s.goto i (.inside op (k + 1))).notify ⟨(), true⟩) where
  zero := h.zero
  empty := by simp [System.notify, Notification.left]
  unpushed := by
    intro j op' k' hj
    have hpush : (s.goto i (.inside op (k + 1))).pc j = .push op' k' := by
      simp only [System.notify] at hj
      split at hj
      · cases hpc : (s.goto i (.inside op (k + 1))).pc j <;> simp_all [Pc.wake]
      · exact hj
    by_cases hji : j = i
    · subst hji
      simp [System.goto] at hpush
    · have hpc : s.pc j = .push op' k' := by simpa [System.goto, hji] using hpush
      exact hji (h.eq_notifier hi (by simp [hpc, Pc.Inside]))

/-- An opening latch stays so until the notification. -/
theorem Opening.step (h : Opening s) (hstep : Monitor.step primitive spinCount s l = some s') :
    Opening s' ∨ Opened s' := by
  have howner := h.owner.step (h.not_relockThrows l) hstep
  rcases h.notifier with ⟨i, op, k, hi⟩
  by_cases hl : l = .go i
  · subst hl
    simp only [Monitor.step, coroutineStep, hi, Option.some.injEq] at hstep
    exact .inr (hstep ▸ h.notify hi)
  have hbusy : ∀ j, (s.pc j).Inside → l ≠ .go j := by
    intro j hj
    rw [h.eq_notifier hi hj]
    exact hl
  left
  cases step_event hstep with
  | @call j op' pc hidle hstage hpopped hplain hpc hdata =>
      refine h.update howner hi ?_ hpc hpopped hdata.value
      rintro rfl
      simp [hi] at hidle
  | @refuse j op' hidle hpc hdata =>
      refine h.update howner hi ?_ hpc rfl hdata.value
      rintro rfl
      simp [hi] at hidle
  | @stay j pc hstage hpopped hplain hpc hdata =>
      refine h.update howner hi (fun hj => hl (hj ▸ rfl)) hpc ?_ hdata.value
      have hunpopped := h.unpopped j
      by_contra hpop
      rw [hpopped (by simpa using hpop)] at hunpopped
      cases hunpopped
  | finish hfrom hpc hdata =>
      exact h.update howner hi (fun hj => hl (hj ▸ rfl)) hpc rfl hdata.value
  | abort hpc hdata =>
      exact h.update howner hi (fun hj => hl (hj ▸ rfl)) hpc rfl hdata.value
  | throw hfrom hto hpc hvalue =>
      refine h.update howner hi (fun hj => hl (hj ▸ rfl)) hpc ?_ hvalue
      rcases hto with rfl | rfl <;> rfl
  | block hfrom | run hfrom | push hfrom | notify hfrom =>
      exact absurd rfl (hbusy _ (by simp [hfrom, Pc.Inside]))
  | terminate hpc hdata =>
      refine ⟨⟨howner, ?_⟩, hdata.value.trans h.zero, i, op, k, ?_⟩
      · rw [hpc]
        exact h.unpopped
      · rw [hpc]
        exact hi

theorem Opened.update (h : Opened s) {i : ι} {pc : Pc Unit Op}
    (hpc : s'.pc = Function.update s.pc i pc) (hplain : ∀ op k, pc ≠ .push op k)
    (hvalue : s'.value = 0) (hawaiters : s'.awaiters = s.awaiters) : Opened s' where
  zero := hvalue
  empty := by
    rw [hawaiters]
    exact h.empty
  unpushed := by
    intro j op k
    rw [hpc]
    by_cases hj : j = i
    · subst hj
      rw [Function.update_self]
      exact hplain op k
    · rw [Function.update_of_ne hj]
      exact h.unpushed j op k

theorem Opened.notify (h : Opened s) {i : ι} {op : Op} {k : Nat} (n : Notification Unit) :
    Opened ((s.goto i (.inside op k)).notify n) where
  zero := h.zero
  empty := by
    simp [System.notify, System.goto, h.empty, Notification.left]
  unpushed := by
    intro j op' k' hj
    simp only [System.notify, System.goto, h.empty] at hj
    have hnone : j ∉ n.popped [] := by simp [Notification.popped]
    rw [if_neg hnone] at hj
    by_cases hji : j = i
    · subst hji
      simp at hj
    · exact h.unpushed j op' k' (by simpa [hji] using hj)

/-- An open latch stays open. -/
theorem Opened.step (h : Opened s) (hstep : Monitor.step primitive spinCount s l = some s') :
    Opened s' := by
  cases step_event hstep with
  | call hidle hstage hpopped hplain hpc hdata =>
      refine h.update hpc ?_ (hdata.value.trans h.zero) hdata.awaiters
      rintro op k rfl
      exact hplain
  | refuse hidle hpc hdata =>
      exact h.update hpc (by simp) (hdata.value.trans h.zero) hdata.awaiters
  | stay hstage hpopped hplain hpc hdata =>
      refine h.update hpc ?_ (hdata.value.trans h.zero) hdata.awaiters
      rintro op k rfl
      exact hplain
  | finish hfrom hpc hdata =>
      exact h.update hpc (by simp) (hdata.value.trans h.zero) hdata.awaiters
  | abort hpc hdata =>
      exact h.update hpc (by simp) (hdata.value.trans h.zero) hdata.awaiters
  | throw hfrom hto hpc hvalue hawaiters hlog =>
      refine h.update hpc ?_ (hvalue.trans h.zero) hawaiters
      rcases hto with rfl | rfl <;> simp
  | block hfrom hsec hready => exact absurd h.zero (blocks_of_not_ready hsec hready)
  | @run i op k sec hfrom hsec hready hasserts hpc hvalue hawaiters hlog =>
      refine h.update hpc ?_ ?_ hawaiters
      · intro op' k'
        unfold Effect.next
        split <;> simp
      · rw [hvalue]
        rcases section_cases hsec hready hasserts with
          ⟨-, ⟨update, -, hle, hbody⟩ | ⟨-, hbody⟩ | ⟨-, -, hbody⟩⟩
        · rw [hbody, h.zero]
          rw [h.zero] at hle
          have hupdate : update = 0 := UInt64.le_zero_iff.mp hle
          rw [hupdate]
          rfl
        · rw [hbody]
          exact h.zero
        · rw [hbody]
          exact h.zero
  | push hfrom => exact absurd hfrom (h.unpushed _ _ _)
  | notify hfrom heq => exact heq ▸ h.notify _
  | terminate hpc hdata =>
      refine ⟨hdata.value.trans h.zero, ?_, ?_⟩
      · rw [hdata.awaiters]
        exact h.empty
      · rw [hpc]
        exact h.unpushed

/-- The phases follow one another. -/
theorem Phase.step (h : Phase s) (hstep : Monitor.step primitive spinCount s l = some s') :
    Phase s' := by
  cases h with
  | closed h =>
      rcases h.step hstep with h' | h'
      · exact .closed h'
      · exact .opening h'
  | opening h =>
      rcases h.step hstep with h' | h'
      · exact .opening h'
      · exact .opened h'
  | opened h => exact .opened (h.step hstep)

omit [DecidableEq ι] in
/-- While the lock is free and the count is zero, nobody waits. -/
theorem Phase.empty (h : Phase s) (hfree : s.locked = false) (hzero : s.value = 0) :
    s.awaiters () = [] := by
  cases h with
  | closed h => exact absurd hzero h.positive
  | opening h =>
      rcases h.notifier with ⟨i, op, k, hi⟩
      have hinside : (s.pc i).Inside := by simp [hi, Pc.Inside]
      have howner := h.owner.inside i hinside
      rw [h.owner.owner_eq_none hfree] at howner
      cases howner
  | opened h => exact h.empty

/-! ## Results -/

/-- An entry of the log that only a count of zero explains: a {lit}`wait` that
was let through, or a {lit}`try_wait` that was true. -/
def ShowsZero : Op × Except YieldError Bool → Prop
  | (.wait, .ok _) => True
  | (.tryWait, .ok result) => result = true
  | _ => False

theorem not_showsZero_error (op : Op) (e : YieldError) : ¬ ShowsZero (op, .error e) := by
  cases op <;> simp [ShowsZero]

/-- Sum of the updates that were taken from the count. -/
def counted (log : List (ι × Op × Except YieldError Bool)) : Nat :=
  (log.map fun entry => match entry.2 with
    | (.countDown update, .ok _) => update.toNat
    | _ => 0).sum

omit [DecidableEq ι] in
theorem counted_concat (log : List (ι × Op × Except YieldError Bool))
    (entry : ι × Op × Except YieldError Bool) :
    counted (log ++ [entry]) = counted log + counted [entry] := by
  simp [counted]

/-- Once the count is known to be zero, every {lit}`try_wait` is true. -/
def StaysTrue (log : List (ι × Op × Except YieldError Bool)) : Prop :=
  log.Pairwise fun earlier later =>
    ShowsZero earlier.2 → ∀ result, later.2 = (.tryWait, .ok result) → result = true

/-- The log agrees with the count. -/
structure Record (count : UInt64) (s : System ι) : Prop where
  counted : s.value.toNat + counted s.log = count.toNat
  zero : ∀ entry ∈ s.log, ShowsZero entry.2 → s.value = 0
  stays : StaysTrue s.log

omit [DecidableEq ι] in
theorem Record.initial (count : UInt64) (executor : ι → Bool) :
    Record count (Monitor.System.initial count executor : System ι) where
  counted := rfl
  zero := by simp [Monitor.System.initial]
  stays := List.Pairwise.nil

variable {count : UInt64}

omit [DecidableEq ι] in
theorem Record.same (h : Record count s) (hvalue : s'.value = s.value)
    (hlog : s'.log = s.log) : Record count s' where
  counted := by
    rw [hvalue, hlog]
    exact h.counted
  zero := by
    rw [hvalue, hlog]
    exact h.zero
  stays := by
    rw [hlog]
    exact h.stays

omit [DecidableEq ι] in
/-- One result more.  A test of the count that follows a sign of zero finds it
zero as well. -/
theorem Record.append (h : Record count s) {entry : ι × Op × Except YieldError Bool}
    (hlog : s'.log = s.log ++ [entry])
    (hvalue : s'.value.toNat + Latch.counted [entry] = s.value.toNat)
    (hzero : ShowsZero entry.2 → s'.value = 0)
    (htest : s.value = 0 → ∀ result, entry.2 = (.tryWait, .ok result) → result = true) :
    Record count s' where
  counted := by
    have hcounted := h.counted
    rw [hlog, counted_concat]
    omega
  zero := by
    intro old hold hshows
    rw [hlog, List.mem_append, List.mem_singleton] at hold
    rcases hold with hold | rfl
    · have hbefore : s.value.toNat = 0 := by
        rw [h.zero old hold hshows]
        rfl
      have hafter : s'.value.toNat = 0 := by omega
      exact UInt64.toNat_inj.mp (by simpa using hafter)
    · exact hzero hshows
  stays := by
    rw [hlog]
    refine List.pairwise_append.mpr ⟨h.stays, List.pairwise_singleton _ _, ?_⟩
    intro old hold later hlater hshows
    rw [List.mem_singleton] at hlater
    subst hlater
    exact htest (h.zero old hold hshows)

theorem Record.step (h : Record count s)
    (hstep : Monitor.step primitive spinCount s l = some s') : Record count s' := by
  cases step_event hstep with
  | call _ _ _ _ _ hdata | refuse _ _ hdata | stay _ _ _ _ hdata | finish _ _ hdata
  | abort _ hdata | block _ _ _ _ hdata | terminate _ hdata =>
      exact h.same hdata.value hdata.log
  | throw hfrom hto hpc hvalue hawaiters hlog =>
      refine h.append hlog ?_ ?_ (by simp)
      · rw [hvalue]
        simp [Latch.counted]
      · exact fun hshows => absurd hshows (not_showsZero_error _ _)
  | push hfrom hsec hpc hvalue hawaiters hlog => exact h.same hvalue hlog
  | notify hfrom heq => exact heq ▸ h.same rfl rfl
  | @run i op k sec hfrom hsec hready hasserts hpc hvalue hawaiters hlog =>
      rcases section_cases hsec hready hasserts with
        ⟨-, ⟨update, rfl, hle, hbody⟩ | ⟨rfl, hbody⟩ | ⟨rfl, hzero, hbody⟩⟩
      · rw [hbody] at hvalue hlog
        refine h.append hlog ?_ False.elim (by simp)
        have hsub := UInt64.toNat_sub_of_le _ _ hle
        rw [UInt64.le_iff_toNat_le] at hle
        rw [hvalue]
        simp only [Latch.counted, List.map_cons, List.map_nil, List.sum_cons, List.sum_nil]
        omega
      · rw [hbody] at hvalue hlog
        refine h.append hlog ?_ ?_ ?_
        · rw [hvalue]
          rfl
        · intro hshows
          rw [hvalue]
          simpa [ShowsZero] using hshows
        · intro hzero result hresult
          simpa [hzero] using hresult.symm
      · rw [hbody] at hvalue hlog
        refine h.append hlog ?_ ?_ (by simp)
        · rw [hvalue]
          rfl
        · intro _
          rw [hvalue]
          exact hzero

/-- The count never increases. -/
theorem value_le_of_step (hstep : Monitor.step primitive spinCount s l = some s') :
    s'.value ≤ s.value := by
  cases step_event hstep with
  | call _ _ _ _ _ hdata | refuse _ _ hdata | stay _ _ _ _ hdata | finish _ _ hdata
  | abort _ hdata | block _ _ _ _ hdata | terminate _ hdata =>
      exact UInt64.le_of_eq hdata.value
  | throw hfrom hto hpc hvalue => exact UInt64.le_of_eq hvalue
  | push hfrom hsec hpc hvalue => exact UInt64.le_of_eq hvalue
  | notify hfrom heq => exact UInt64.le_of_eq (heq ▸ rfl)
  | run hfrom hsec hready hasserts hpc hvalue =>
      rw [hvalue]
      rcases section_cases hsec hready hasserts with
        ⟨-, ⟨update, -, hle, hbody⟩ | ⟨-, hbody⟩ | ⟨-, -, hbody⟩⟩
      · rw [hbody, UInt64.le_iff_toNat_le, UInt64.toNat_sub_of_le _ _ hle]
        exact Nat.sub_le _ _
      · exact UInt64.le_of_eq (by rw [hbody])
      · exact UInt64.le_of_eq (by rw [hbody])

/-! ## Callers -/

/-- The member functions of the latch. -/
inductive Call where
  | countDown (update : UInt64)
  | tryWait
  | wait
  | arriveAndWait (update : UInt64)
deriving DecidableEq, Repr

/-- The operations that a call awaits one after the other. -/
def Call.ops : Call → List Op
  | .countDown update => [.countDown update]
  | .tryWait => [.tryWait]
  | .wait => [.wait]
  | .arriveAndWait update => [.countDown update, .wait]

/-- The call blocks until the counter reaches zero. -/
def Call.Blocks : Call → Prop
  | .wait | .arriveAndWait _ => True
  | _ => False

/-- A call under way: the operation awaited last and those behind it. -/
structure Frame where
  call : Call
  awaited : Option Op
  rest : List Op
deriving DecidableEq, Repr

/-- A call that has returned or has thrown, with the count at that moment; the
result of a {lit}`Lazy<void>` carries nothing. -/
structure Return (ι : Type) where
  coroutine : ι
  call : Call
  outcome : Except YieldError Bool
  count : UInt64

/-- The latch with the coroutines that call it. -/
structure Callers (ι : Type) where
  latch : System ι
  frame : ι → Option Frame
  returned : List (Return ι)

/-- The result of the operation that a coroutine has completed last. -/
def lastResult (i : ι) (log : List (ι × Op × Except YieldError Bool)) :
    Option (Op × Except YieldError Bool) :=
  (log.filter fun entry => entry.1 = i).getLast?.map (·.2)

namespace Callers

def initial (count : UInt64) (executor : ι → Bool) : Callers ι where
  latch := Monitor.System.initial count executor
  frame := fun _ => none
  returned := []

/-- {lit}`co_await` of the next operation of a call. -/
def await (spinCount : Int) (s : Callers ι) (i : ι) (f : Frame) : Option (Callers ι) :=
  match f.rest with
  | [] => none
  | op :: rest =>
      (Monitor.step primitive spinCount s.latch (.call i op)).map fun latch =>
        { s with
          latch := latch
          frame := Function.update s.frame i (some { f with awaited := some op, rest := rest }) }

/-- {lit}`co_return`, or an exception that leaves the call. -/
def leave (s : Callers ι) (i : ι) (call : Call) (outcome : Except YieldError Bool) : Callers ι :=
  { s with
    frame := Function.update s.frame i none
    returned := s.returned ++ [⟨i, call, outcome, s.latch.value⟩] }

/-- A coroutine goes on in its call when the awaited operation has completed. -/
def next (spinCount : Int) (s : Callers ι) (i : ι) : Option (Callers ι) :=
  match s.frame i with
  | none => none
  | some f =>
      if s.latch.pc i = .idle then
        match f.awaited with
        | none => await spinCount s i f
        | some _ =>
            match lastResult i s.latch.log with
            | none => none
            | some (_, .error e) => some (s.leave i f.call (.error e))
            | some (_, .ok result) =>
                match f.rest with
                | [] => some (s.leave i f.call (.ok result))
                | _ :: _ => await spinCount s i f
      else none

/-- The moves: a coroutine calls a member function, goes on in its call or in
the operation that it awaits, or its slot receives {lit}`Terminate`. -/
inductive Label (ι : Type) where
  | call (i : ι) (c : Call)
  | next (i : ι)
  | go (i : ι)
  | terminate (i : ι)
deriving DecidableEq, Repr

def step (spinCount : Int) (s : Callers ι) : Label ι → Option (Callers ι)
  | .call i c =>
      match s.frame i with
      | none => some { s with frame := Function.update s.frame i (some ⟨c, none, c.ops⟩) }
      | some _ => none
  | .next i => next spinCount s i
  | .go i =>
      (Monitor.step primitive spinCount s.latch (.go i)).map fun latch => { s with latch := latch }
  | .terminate i =>
      (Monitor.step primitive spinCount s.latch (.terminate i)).map fun latch =>
        { s with latch := latch }

/-- A latch with its callers. -/
def machine (spinCount : Int) : Machine (Callers ι) (Label ι) where
  step := step spinCount

end Callers

/-! ## Calls in progress -/

/-- A coroutine is in {lit}`op`: its section is still to be run, or its result
is the last one, or an assertion has failed. -/
structure Running (op : Op) (pc : Pc Unit Op) (last : Option (Op × Except YieldError Bool)) :
    Prop where
  op_eq : ∀ op' k, pc.stage = some (op', k) → op' = op
  result : pc.stage = some (op, 0) ∨ pc = .aborted ∨ ∃ outcome, last = some (op, outcome)

theorem lastResult_append (i j : ι) (log : List (ι × Op × Except YieldError Bool))
    (op : Op) (outcome : Except YieldError Bool) :
    lastResult j (log ++ [(i, op, outcome)]) =
      if j = i then some (op, outcome) else lastResult j log := by
  unfold lastResult
  by_cases hj : j = i
  · simp [hj]
  · simp [hj, Ne.symm hj]

theorem mem_of_lastResult {i : ι} {log : List (ι × Op × Except YieldError Bool)}
    {result : Op × Except YieldError Bool} (h : lastResult i log = some result) :
    (i, result) ∈ log := by
  unfold lastResult at h
  rcases Option.map_eq_some_iff.mp h with ⟨entry, hlast, rfl⟩
  have hmem := List.mem_filter.mp (List.mem_of_getLast? hlast)
  have hentry : entry.1 = i := by simpa using hmem.2
  exact hentry ▸ hmem.1

theorem Running.update {i j : ι} {op : Op} {pc : Pc Unit Op}
    (h : Running op (s.pc j) (lastResult j s.log)) (hpc : s'.pc = Function.update s.pc i pc)
    (hlog : s'.log = s.log)
    (hi : j = i → Running op pc (lastResult j s.log)) :
    Running op (s'.pc j) (lastResult j s'.log) := by
  rw [hpc, hlog]
  by_cases hj : j = i
  · subst hj
    rw [Function.update_self]
    exact hi rfl
  · rw [Function.update_of_ne hj]
    exact h

/-- The same when a coroutine adds a result of the operation it is in. -/
theorem Running.append {i j : ι} {op op' : Op} {k : Nat} {pc : Pc Unit Op}
    {outcome : Except YieldError Bool} (h : Running op (s.pc j) (lastResult j s.log))
    (hfrom : (s.pc i).stage = some (op', k)) (hpc : s'.pc = Function.update s.pc i pc)
    (hlog : s'.log = s.log ++ [(i, op', outcome)])
    (hstage : ∀ op'' k', pc.stage = some (op'', k') → op'' = op') :
    Running op (s'.pc j) (lastResult j s'.log) := by
  rw [hpc, hlog, lastResult_append]
  by_cases hj : j = i
  · subst hj
    have hop := h.op_eq op' k hfrom
    subst hop
    rw [Function.update_self, if_pos rfl]
    exact ⟨hstage, .inr (.inr ⟨outcome, rfl⟩)⟩
  · rw [Function.update_of_ne hj, if_neg hj]
    exact h

/-- A call of the monitor begins an operation. -/
theorem Running.call {i : ι} {op : Op}
    (hstep : Monitor.step primitive spinCount s (.call i op) = some s') :
    Running op (s'.pc i) (lastResult i s'.log) := by
  cases step_event hstep with
  | call hidle hstage hpopped hplain hpc hdata =>
      rw [hpc, Function.update_self]
      refine ⟨?_, .inl hstage⟩
      intro op' k hop
      rw [hstage] at hop
      cases hop
      rfl
  | refuse hidle hpc hdata =>
      rw [hpc, Function.update_self]
      exact ⟨by simp [Pc.stage], .inr (.inl rfl)⟩

omit [DecidableEq ι] in
/-- A move within the same section. -/
theorem Running.of_stage {op : Op} {pc pc' : Pc Unit Op}
    {last : Option (Op × Except YieldError Bool)} (h : Running op pc last)
    (hstage : pc'.stage = pc.stage) (hpc : pc ≠ .aborted) : Running op pc' last where
  op_eq := hstage ▸ h.op_eq
  result := by
    rcases h.result with hzero | haborted | hlast
    · exact .inl (hstage.trans hzero)
    · exact absurd haborted hpc
    · exact .inr (.inr hlast)

/-- Other steps leave a coroutine in its operation. -/
theorem Running.step {j : ι} {op : Op} (h : Running op (s.pc j) (lastResult j s.log))
    (hl : ∀ op', l ≠ .call j op') (hstep : Monitor.step primitive spinCount s l = some s') :
    Running op (s'.pc j) (lastResult j s'.log) := by
  have hmoves : l = .go j → s.pc j ≠ .aborted := by
    rintro rfl haborted
    simp [Monitor.step, coroutineStep, haborted] at hstep
  cases step_event hstep with
  | call hidle hstage hpopped hplain hpc hdata =>
      refine h.update hpc hdata.log ?_
      rintro rfl
      exact absurd rfl (hl _)
  | refuse hidle hpc hdata =>
      refine h.update hpc hdata.log ?_
      rintro rfl
      exact absurd rfl (hl _)
  | stay hstage hpopped hplain hpc hdata =>
      refine h.update hpc hdata.log ?_
      rintro rfl
      exact h.of_stage hstage (hmoves rfl)
  | finish hfrom hpc hdata =>
      refine h.update hpc hdata.log ?_
      rintro rfl
      refine ⟨by simp [Pc.stage], .inr (.inr ?_)⟩
      rcases h.result with hzero | haborted | hlast
      · rw [hzero] at hfrom
        rcases hfrom with hnone | ⟨op', k, heq, hgive | hsec⟩
        · cases hnone
        · cases hgive
        · cases heq
          cases op <;> simp [primitive] at hsec
      · exact absurd haborted (hmoves rfl)
      · exact hlast
  | abort hpc hdata =>
      exact h.update hpc hdata.log fun _ => ⟨by simp [Pc.stage], .inr (.inl rfl)⟩
  | throw hfrom hto hpc hvalue hawaiters hlog =>
      refine h.append hfrom hpc hlog ?_
      rcases hto with rfl | rfl <;> simp [Pc.stage]
  | block hfrom hsec hready hpc hdata =>
      refine h.update hpc hdata.log ?_
      rintro rfl
      exact h.of_stage (by rw [hfrom]; rfl) (hmoves rfl)
  | run hfrom hsec hready hasserts hpc hvalue hawaiters hlog =>
      refine h.append (by rw [hfrom]; rfl) hpc hlog ?_
      intro op' k hnext
      rw [Effect.stage_next] at hnext
      cases hnext
      rfl
  | push hfrom hsec hpc hvalue hawaiters hlog =>
      refine h.update hpc hlog ?_
      rintro rfl
      exact h.of_stage (by rw [hfrom]; rfl) (hmoves rfl)
  | @notify i op' k n hfrom heq =>
      subst heq
      by_cases haborted : s.pc j = .aborted
      · -- A coroutine that is not suspended is not woken up.
        have hji : j ≠ i := by
          rintro rfl
          rw [haborted] at hfrom
          cases hfrom
        have hsame : ((s.goto i (.inside op' (k + 1))).notify n).pc j = s.pc j := by
          simp [System.notify, System.goto, hji, haborted, Pc.wake]
        rw [hsame]
        exact h
      · refine h.of_stage ?_ haborted
        rw [stage_notify, stage_goto]
        split
        · next hj =>
            rw [hj, hfrom]
            rfl
        · rfl
  | terminate hpc hdata =>
      rw [hpc, hdata.log]
      exact h

/-! ## Invariant of the callers -/

/-- What a frame says about its coroutine. -/
def Frame.Fits (f : Frame) (pc : Pc Unit Op) (last : Option (Op × Except YieldError Bool)) :
    Prop :=
  match f.awaited with
  | none => f.rest = f.call.ops
  | some op => (∃ started, f.call.ops = started ++ op :: f.rest) ∧ Running op pc last

/-- What a call has reported is the result of its last operation, and the count
was zero if that result shows it. -/
def Return.Sound (r : Return ι) (log : List (ι × Op × Except YieldError Bool)) : Prop :=
  ∀ result, r.outcome = .ok result → ∃ op, r.call.ops.getLast? = some op ∧
    (r.coroutine, op, .ok result) ∈ log ∧ (ShowsZero (op, .ok result) → r.count = 0)

theorem Frame.Fits.step {f : Frame} {j : ι} (h : f.Fits (s.pc j) (lastResult j s.log))
    (hl : ∀ op, l ≠ .call j op) (hstep : Monitor.step primitive spinCount s l = some s') :
    f.Fits (s'.pc j) (lastResult j s'.log) := by
  unfold Frame.Fits at h ⊢
  split at h
  · exact h
  · exact ⟨h.1, h.2.step hl hstep⟩

/-- The log only grows. -/
theorem log_subset (hstep : Monitor.step primitive spinCount s l = some s') :
    s.log ⊆ s'.log := by
  intro entry hentry
  cases step_event hstep with
  | call _ _ _ _ _ hdata | refuse _ _ hdata | stay _ _ _ _ hdata | finish _ _ hdata
  | abort _ hdata | block _ _ _ _ hdata | terminate _ hdata => exact hdata.log ▸ hentry
  | push hfrom hsec hpc hvalue hawaiters hlog => exact hlog ▸ hentry
  | notify hfrom heq => exact heq ▸ hentry
  | throw hfrom hto hpc hvalue hawaiters hlog =>
      rw [hlog]
      exact List.mem_append_left _ hentry
  | run hfrom hsec hready hasserts hpc hvalue hawaiters hlog =>
      rw [hlog]
      exact List.mem_append_left _ hentry

omit [DecidableEq ι] in
theorem Return.Sound.mono {r : Return ι} {log log' : List (ι × Op × Except YieldError Bool)}
    (h : r.Sound log) (hsubset : log ⊆ log') : r.Sound log' := by
  intro result hresult
  rcases h result hresult with ⟨op, hops, hmem, hzero⟩
  exact ⟨op, hops, hsubset hmem, hzero⟩

namespace Callers

/-- The invariant of a latch that started with {lit}`count`. -/
structure Inv (count : UInt64) (s : Callers ι) : Prop where
  phase : Phase s.latch
  record : Record count s.latch
  fits : ∀ i f, s.frame i = some f → f.Fits (s.latch.pc i) (lastResult i s.latch.log)
  returned : ∀ r ∈ s.returned, r.Sound s.latch.log

theorem Inv.initial (count : UInt64) (executor : ι → Bool) :
    Inv count (initial count executor) where
  phase := Phase.initial count executor
  record := Record.initial count executor
  fits := by simp [Callers.initial]
  returned := by simp [Callers.initial]

variable {s s' : Callers ι} {latch : System ι}

/-- A step of the monitor, with the frames that belong to it. -/
theorem Inv.advance (h : Inv count s) {frame : ι → Option Frame}
    (hstep : Monitor.step primitive spinCount s.latch l = some latch)
    (hframe : ∀ j f, frame j = some f → f.Fits (latch.pc j) (lastResult j latch.log)) :
    Inv count { s with latch := latch, frame := frame } where
  phase := h.phase.step hstep
  record := h.record.step hstep
  fits := hframe
  returned := fun r hr => (h.returned r hr).mono (log_subset hstep)

theorem Inv.advance_same (h : Inv count s)
    (hstep : Monitor.step primitive spinCount s.latch l = some latch)
    (hl : ∀ i op, l ≠ .call i op) : Inv count { s with latch := latch } :=
  h.advance hstep fun j f hf => (h.fits j f hf).step (hl j) hstep

/-- The next operation of a call begins. -/
theorem Inv.await (h : Inv count s) {i : ι} {f : Frame} (hf : s.frame i = some f)
    (hstep : await spinCount s i f = some s') : Inv count s' := by
  unfold Callers.await at hstep
  split at hstep
  · cases hstep
  next op rest hrest =>
    rcases Option.map_eq_some_iff.mp hstep with ⟨latch, hlatch, rfl⟩
    refine h.advance hlatch ?_
    intro j f' hf'
    by_cases hj : j = i
    · subst hj
      rw [Function.update_self] at hf'
      cases hf'
      refine ⟨?_, Running.call hlatch⟩
      have hfits := h.fits j f hf
      unfold Frame.Fits at hfits
      split at hfits
      · exact ⟨[], by rw [← hfits, hrest]; rfl⟩
      next op' _ =>
        rcases hfits.1 with ⟨started, hops⟩
        exact ⟨started ++ [op'], by rw [hops, hrest]; simp⟩
    · rw [Function.update_of_ne hj] at hf'
      refine (h.fits j f' hf').step ?_ hlatch
      intro op' heq
      cases heq
      exact hj rfl

/-- A call returns or throws. -/
theorem Inv.leave (h : Inv count s) {i : ι} {call : Call} {outcome : Except YieldError Bool}
    (hsound : Return.Sound ⟨i, call, outcome, s.latch.value⟩ s.latch.log) :
    Inv count (s.leave i call outcome) where
  phase := h.phase
  record := h.record
  fits := by
    intro j f hf
    by_cases hj : j = i
    · subst hj
      simp [Callers.leave] at hf
    · exact h.fits j f (by simpa [Callers.leave, hj] using hf)
  returned := by
    intro r hr
    rcases List.mem_append.mp hr with hr | hr
    · exact h.returned r hr
    · rw [List.mem_singleton] at hr
      exact hr ▸ hsound

/-- The last operation of a call has completed. -/
theorem Inv.sound (h : Inv count s) {i : ι} {f : Frame} {op op' : Op} {result : Bool}
    (hf : s.frame i = some f) (hidle : s.latch.pc i = .idle) (hawaited : f.awaited = some op)
    (hlast : lastResult i s.latch.log = some (op', .ok result)) (hrest : f.rest = []) :
    Return.Sound ⟨i, f.call, .ok result, s.latch.value⟩ s.latch.log := by
  intro result' hresult'
  cases hresult'
  have hfits := h.fits i f hf
  simp only [Frame.Fits, hawaited, hrest] at hfits
  rcases hfits with ⟨⟨started, hops⟩, hrunning⟩
  have hop : op' = op := by
    have hresult := hrunning.result
    rw [hidle, hlast] at hresult
    simpa [Pc.stage] using hresult
  subst hop
  have hmem := mem_of_lastResult hlast
  exact ⟨op', by rw [hops, List.getLast?_concat], hmem, h.record.zero _ hmem⟩

theorem Inv.next (h : Inv count s) {i : ι} (hstep : next spinCount s i = some s') :
    Inv count s' := by
  unfold Callers.next at hstep
  split at hstep
  · cases hstep
  next f hf =>
    split at hstep
    case isFalse => cases hstep
    case isTrue hidle =>
      split at hstep
      · exact h.await hf hstep
      next op hawaited =>
        split at hstep
        · cases hstep
        · cases hstep
          exact h.leave (by simp [Return.Sound])
        next op' result hlast =>
          split at hstep
          next hrest =>
            cases hstep
            exact h.leave (h.sound hf hidle hawaited hlast hrest)
          · exact h.await hf hstep

theorem Inv.step (h : Inv count s) {l : Label ι} (hstep : step spinCount s l = some s') :
    Inv count s' := by
  cases l with
  | call i c =>
      simp only [Callers.step] at hstep
      split at hstep
      · cases hstep
        refine ⟨h.phase, h.record, ?_, h.returned⟩
        intro j f hf
        by_cases hj : j = i
        · subst hj
          simp only [Function.update_self, Option.some.injEq] at hf
          subst hf
          rfl
        · simp only [Function.update_of_ne hj] at hf
          exact h.fits j f hf
      · cases hstep
  | next i => exact h.next hstep
  | go i =>
      simp only [Callers.step] at hstep
      rcases Option.map_eq_some_iff.mp hstep with ⟨latch, hlatch, rfl⟩
      exact h.advance_same hlatch (by simp)
  | terminate i =>
      simp only [Callers.step] at hstep
      rcases Option.map_eq_some_iff.mp hstep with ⟨latch, hlatch, rfl⟩
      exact h.advance_same hlatch (by simp)

end Callers

/-! ## All runs -/

/-- What is promised of a latch that started with {lit}`count`: no decrement has
wrapped, a call that blocks has returned only at zero, a {lit}`try_wait` was
true only at zero and all later ones are true, and nobody is left waiting when
the lock is free and the count is zero. -/
structure Promises (count : UInt64) (s : Callers ι) : Prop where
  counted : s.latch.value.toNat + counted s.latch.log = count.toNat
  blocks : ∀ r ∈ s.returned, ∀ result, r.call.Blocks → r.outcome = .ok result → r.count = 0
  tests : ∀ r ∈ s.returned, ∀ result, r.call = .tryWait → r.outcome = .ok result →
    (r.coroutine, .tryWait, .ok result) ∈ s.latch.log ∧ (result = true → r.count = 0)
  stays : StaysTrue s.latch.log
  unstranded : s.latch.locked = false → s.latch.value = 0 → s.latch.awaiters () = []

theorem Call.Blocks.getLast_ops {c : Call} (h : c.Blocks) : c.ops.getLast? = some .wait := by
  cases c with
  | wait | arriveAndWait update => rfl
  | countDown update | tryWait => exact h.elim

namespace Callers

variable {s t : Callers ι}

theorem Inv.promises (h : Inv count s) : Promises count s where
  counted := h.record.counted
  blocks := by
    intro r hr result hblocks hresult
    rcases h.returned r hr result hresult with ⟨op, hlast, -, hzero⟩
    rw [hblocks.getLast_ops] at hlast
    cases hlast
    exact hzero trivial
  tests := by
    intro r hr result hcall hresult
    rcases h.returned r hr result hresult with ⟨op, hlast, hmem, hzero⟩
    rw [hcall] at hlast
    cases hlast
    exact ⟨hmem, hzero⟩
  stays := h.record.stays
  unstranded := h.phase.empty

/-- Only steps of the monitor change the count. -/
theorem value_le_of_step {l : Label ι} (hstep : step spinCount s l = some t) :
    t.latch.value ≤ s.latch.value := by
  have hawait : ∀ i f, await spinCount s i f = some t → t.latch.value ≤ s.latch.value := by
    intro i f hawait
    unfold Callers.await at hawait
    split at hawait
    · cases hawait
    · rcases Option.map_eq_some_iff.mp hawait with ⟨latch, hlatch, rfl⟩
      exact Latch.value_le_of_step hlatch
  cases l with
  | call i c =>
      simp only [Callers.step] at hstep
      split at hstep
      · cases hstep
        exact UInt64.le_refl _
      · cases hstep
  | next i =>
      simp only [Callers.step, Callers.next] at hstep
      split at hstep
      · cases hstep
      · split at hstep
        · split at hstep
          · exact hawait _ _ hstep
          · split at hstep
            · cases hstep
            · cases hstep
              exact UInt64.le_refl _
            · split at hstep
              · cases hstep
                exact UInt64.le_refl _
              · exact hawait _ _ hstep
        · cases hstep
  | go i =>
      simp only [Callers.step] at hstep
      rcases Option.map_eq_some_iff.mp hstep with ⟨latch, hlatch, rfl⟩
      exact Latch.value_le_of_step hlatch
  | terminate i =>
      simp only [Callers.step] at hstep
      rcases Option.map_eq_some_iff.mp hstep with ⟨latch, hlatch, rfl⟩
      exact Latch.value_le_of_step hlatch

/-- The count never increases along a run. -/
theorem value_le_of_run {ls : List (Label ι)} (hrun : (machine spinCount).run s ls = some t) :
    t.latch.value ≤ s.latch.value :=
  (machine spinCount).run_invariant (P := fun u => u.latch.value ≤ s.latch.value)
    (fun _ _ _ hle hstep => UInt64.le_trans (value_le_of_step hstep) hle) (UInt64.le_refl _) hrun

end Callers

/-- In every run the count goes down only, blocking calls return at zero, a
{lit}`try_wait` that was true stays true, and no waiter is stranded. -/
theorem latch_opens_once (spinCount : Int) (count : UInt64) (executor : ι → Bool)
    (ls : List (Callers.Label ι)) (s : Callers ι)
    (hrun : (Callers.machine spinCount).run (Callers.initial count executor) ls = some s) :
    Promises count s ∧ ∀ ks t, (Callers.machine spinCount).run s ks = some t →
      t.latch.value ≤ s.latch.value := by
  have hinv : Callers.Inv count s :=
    Machine.run_invariant _ (fun _ _ _ h hstep => h.step hstep)
      (Callers.Inv.initial count executor) hrun
  exact ⟨hinv.promises, fun ks t hlater => Callers.value_le_of_run hlater⟩

/-- A latch of two.  Coroutine {lit}`i` arrives and waits, {lit}`j` counts down
to zero and wakes {lit}`i` up while it still holds the lock, and {lit}`k` tests
the count. -/
def arriveThenOpen (i j k : Fin 3) : List (Callers.Label (Fin 3)) :=
  [Callers.Label.call i (Call.arriveAndWait 1), Callers.Label.next i, Callers.Label.go i,
    Callers.Label.go i, Callers.Label.go i, Callers.Label.next i, Callers.Label.go i,
    Callers.Label.go i, Callers.Label.go i, Callers.Label.go i,
    Callers.Label.call j (Call.countDown 1), Callers.Label.next j, Callers.Label.go j,
    Callers.Label.go j, Callers.Label.go j, Callers.Label.go i, Callers.Label.go i,
    Callers.Label.go j, Callers.Label.go i, Callers.Label.go i, Callers.Label.go i,
    Callers.Label.go i, Callers.Label.next i, Callers.Label.next j,
    Callers.Label.call k Call.tryWait, Callers.Label.next k, Callers.Label.go k,
    Callers.Label.go k, Callers.Label.go k, Callers.Label.next k]

theorem latch_opens_once_arriveThenOpen :
    ∃ s, (Callers.machine 1024).run (Callers.initial 2 fun _ => true)
        (arriveThenOpen 0 1 2) = some s ∧
      (s.returned.map fun r => (r.coroutine, r.call)) =
        [(0, Call.arriveAndWait 1), (1, Call.countDown 1), (2, Call.tryWait)] ∧
      Promises 2 s ∧ ∀ ks t, (Callers.machine 1024).run s ks = some t →
        t.latch.value ≤ s.latch.value := by
  rcases Machine.exists_run_of_any (Callers.machine 1024)
    (Callers.initial 2 fun _ => true) (arriveThenOpen 0 1 2)
    (fun s => (s.returned.map fun r => (r.coroutine, r.call)) =
      [(0, Call.arriveAndWait 1), (1, Call.countDown 1), (2, Call.tryWait)])
    (by decide +kernel) with ⟨s, hrun, hs⟩
  exact ⟨s, hrun, hs, latch_opens_once 1024 2 (fun _ => true) (arriveThenOpen 0 1 2) s hrun⟩

end Latch

end AsyncSimple
