import AsyncSimple.Library.Counting
import AsyncSimple.Future.PromiseCopies
import AsyncSimple.Future.HandOffPart

/-!
# When a promise is broken

The destructor that finds {lit}`_promiseRef` at one is the last user of the
promise side: no object is left through which the promise could be copied or
set.  It therefore finds out safely whether there is a result, and the result it
may store meets no other setter.

Main results:

- Theorem {lit}`Turns.base_setter`: the call of {lit}`setValue` and the
  destructors keep apart.
- Theorem {lit}`Inv.step`: every step keeps the counters, the references and
  the setters together.
- Theorem {lit}`promise_resolved`: what the promises leave behind, in every run
  that stays within the range of the counters.
- Theorem {lit}`promises_lost`: with 257 promises the shared state is deleted
  too early.
-/

namespace AsyncSimple

open Transition

/-! ## Steps on the shared state -/

namespace FutureState

variable {ι ε α K : Type}

/-- The executor accepts the continuation in this step. -/
def Pc.accepts (answer : Answer) : Pc → Bool
  | .submit _ => answer.accepts
  | _ => false

theorem transferStep_pending {side : Side} {write : FutureState ε α K → FutureState ε α K}
    {sh sh' : Shared ε α K} {answer : Answer} {pc pc' : Pc}
    (h : transferStep side write sh answer pc = some (sh', pc')) :
    sh'.pending = sh.pending + if pc.accepts answer then 1 else 0 := by
  cases pc <;> simp only [transferStep, scheduleContinuationStep] at h <;>
    (repeat' split at h) <;> simp_all [Pc.accepts, Shared.invoke]
  all_goals
    rw [← h.1]

variable [DecidableEq ι] {value : ι → Try ε α} {func : K} {s s' : System ι ε α K}

/-- What a step of a setter leaves alone. -/
theorem step_setResult {i : ι} {answer : Answer}
    (hstep : step value func s (.setResult i answer) = some s') :
    s'.attacher = s.attacher ∧ (∀ j, j ≠ i → s'.setter j = s.setter j) ∧
      s'.shared.pending = s.shared.pending + if (s.setter i).accepts answer then 1 else 0 := by
  simp only [step, Option.map_eq_some_iff] at hstep
  rcases hstep with ⟨⟨sh, pc⟩, hstep, rfl⟩
  refine ⟨rfl, ?_, transferStep_pending hstep⟩
  intro j hj
  exact Function.update_of_ne hj _ _

theorem step_setContinuation {answer : Answer}
    (hstep : step value func s (.setContinuation answer) = some s') :
    s'.setter = s.setter ∧
      s'.shared.pending = s.shared.pending + if s.attacher.accepts answer then 1 else 0 := by
  simp only [step, Option.map_eq_some_iff] at hstep
  rcases hstep with ⟨⟨sh, pc⟩, hstep, rfl⟩
  exact ⟨rfl, transferStep_pending hstep⟩

end FutureState

namespace PromiseCopies

variable {π ε α K : Type}

/-! ## The setters -/

/-- What an object has to do with the setters. -/
inductive Role where
  | none
  | setting
  /-- the last one, before its look at the result -/
  | deciding
  | breaking
deriving DecidableEq, Repr

def Object.role : Object π → Role
  | .setting => .setting
  | .checking old _ => if old = 1 then .deciding else .none
  | .breaking _ => .breaking
  | _ => .none

/-- The last promise is being given up by this object. -/
def System.Last (s : System π ε α K) (p : π) : Prop :=
  (s.object p).role = .deciding ∨ (s.object p).role = .breaking ∨ s.base.setter (some p) ≠ .check

/-- Who sets the result: the call of {lit}`setValue` while its promise exists, or
the one object that has given up the last promise. -/
structure Turns (s : System π ε α K) : Prop where
  uncalled : s.calledBy = none → s.base.setter none = .check
  caller : ∀ p, (s.object p).role = .setting → s.calledBy = some p
  called : s.calledBy ≠ none →
    (∃ p, (s.object p).role = .setting) ∨ s.base.setter none = .returned
  last : ∀ p, s.Last p → s.promiseRef = 0
  last_unique : ∀ p q, s.Last p → s.Last q → p = q
  broken : ∀ p, (s.object p).role = .breaking ∨ s.base.setter (some p) ≠ .check →
    s.calledBy = none
  breaking : ∀ p, s.base.setter (some p) ≠ .check →
    (s.object p).role = .breaking ∨ s.base.setter (some p) = .returned
  resolved : s.promiseRef = 0 → s.base.shared.fs.state.hasResult = true ∨
    ∃ p, (s.object p).role = .deciding ∨ (s.object p).role = .breaking

namespace Turns

variable {s s' : System π ε α K}

/-- Nothing changes for the setters. -/
theorem congr (h : Turns s) (hbase : s'.base = s.base) (hcalled : s'.calledBy = s.calledBy)
    (hrole : ∀ p, (s'.object p).role = (s.object p).role)
    (hpromise : s'.promiseRef = 0 ↔ s.promiseRef = 0) : Turns s' := by
  have hlast : ∀ p, s'.Last p ↔ s.Last p := by
    intro p
    unfold System.Last
    rw [hrole, hbase]
  refine ⟨?_, ?_, ?_, ?_, ?_, ?_, ?_, ?_⟩
  · rw [hcalled, hbase]
    exact h.uncalled
  · intro p
    rw [hcalled, hrole]
    exact h.caller p
  · rw [hcalled, hbase]
    simp only [hrole]
    exact h.called
  · intro p hp
    exact hpromise.mpr (h.last p ((hlast p).mp hp))
  · intro p q hp hq
    exact h.last_unique p q ((hlast p).mp hp) ((hlast q).mp hq)
  · intro p
    rw [hcalled, hrole, hbase]
    exact h.broken p
  · intro p
    rw [hrole, hbase]
    exact h.breaking p
  · intro hzero
    rw [hbase]
    simp only [hrole]
    exact h.resolved (hpromise.mp hzero)

variable [DecidableEq π]

theorem role_update {p q : π} {x : Object π} :
    (Function.update s.object p x q).role = if q = p then x.role else (s.object q).role := by
  by_cases hq : q = p
  · subst hq
    simp
  · simp [hq]

/-- The last promise begins to go. -/
theorem destroyLast (h : Turns s) {p : π} {next : Next π} (hone : s.promiseRef = 1)
    (hp : (s.object p).role = .none) :
    Turns { s.setObject p (.checking 1 next) with promiseRef := 0 } := by
  have hnone : ∀ q, ¬ s.Last q := by
    intro q hq
    have hzero := h.last q hq
    omega
  have hfree : ∀ q, s.base.setter (some q) = .check := by
    intro q
    by_contra hset
    exact hnone q (Or.inr (Or.inr hset))
  have hrole : ∀ q, (({ s.setObject p (.checking 1 next) with promiseRef := 0 } :
      System π ε α K).object q).role = if q = p then .deciding else (s.object q).role :=
    fun q => role_update
  have hlast : ∀ q, ({ s.setObject p (.checking 1 next) with promiseRef := 0 } :
      System π ε α K).Last q → q = p := by
    intro q hq
    by_contra hne
    unfold System.Last at hq
    rw [hrole, if_neg hne] at hq
    exact hnone q hq
  refine ⟨h.uncalled, ?_, ?_, fun _ _ => rfl, ?_, ?_, ?_, ?_⟩
  · intro q hq
    rw [hrole] at hq
    split at hq
    · cases hq
    · exact h.caller q hq
  · intro hcalled
    rcases h.called hcalled with ⟨q, hq⟩ | hreturned
    · refine Or.inl ⟨q, ?_⟩
      have hne : q ≠ p := by
        rintro rfl
        rw [hp] at hq
        cases hq
      rw [hrole, if_neg hne]
      exact hq
    · exact Or.inr hreturned
  · intro q q' hq hq'
    rw [hlast q hq, hlast q' hq']
  · intro q hq
    rw [hrole] at hq
    rcases hq with hq | hq
    · split at hq
      · cases hq
      · exact absurd (Or.inr (Or.inl hq)) (hnone q)
    · exact absurd (hfree q) hq
  · intro q hq
    exact absurd (hfree q) hq
  · intro _
    refine Or.inr ⟨p, Or.inl ?_⟩
    rw [hrole, if_pos rfl]

/-- A party changes its part in the decision about the result. -/
theorem setObject (h : Turns s) {p : π} {x : Object π}
    (hset : x.role = .setting ↔ (s.object p).role = .setting)
    (hbreaks : x.role = .breaking → s.calledBy = none ∧ (s.object p).role = .deciding)
    (hdecides : x.role = .deciding → (s.object p).role = .deciding)
    (hleaves : (s.object p).role = .breaking → x.role ≠ .breaking →
      s.base.setter (some p) = .check ∨ s.base.setter (some p) = .returned)
    (hresolved : s.promiseRef = 0 → s.base.shared.fs.state.hasResult = true ∨
      ((x.role = .deciding ∨ x.role = .breaking) ↔
        ((s.object p).role = .deciding ∨ (s.object p).role = .breaking))) :
    Turns (s.setObject p x) := by
  have hrole : ∀ q, ((s.setObject p x).object q).role =
      if q = p then x.role else (s.object q).role := fun q => role_update
  have hlast : ∀ q, (s.setObject p x).Last q → s.Last q := by
    intro q hq
    unfold System.Last at hq
    rw [hrole] at hq
    by_cases hqp : q = p
    · subst hqp
      rw [if_pos rfl] at hq
      rcases hq with hdeciding | hbreaking | hsetter
      · exact Or.inl (hdecides hdeciding)
      · exact Or.inl (hbreaks hbreaking).2
      · exact Or.inr (Or.inr hsetter)
    · rw [if_neg hqp] at hq
      exact hq
  refine ⟨h.uncalled, ?_, ?_, ?_, ?_, ?_, ?_, ?_⟩
  · intro q hq
    rw [hrole] at hq
    split at hq
    · next hqp =>
        subst hqp
        exact h.caller q (hset.mp hq)
    · exact h.caller q hq
  · intro hcalled
    rcases h.called hcalled with ⟨q, hq⟩ | hreturned
    · refine Or.inl ⟨q, ?_⟩
      rw [hrole]
      split
      · next hqp =>
          subst hqp
          exact hset.mpr hq
      · exact hq
    · exact Or.inr hreturned
  · intro q hq
    exact h.last q (hlast q hq)
  · intro q q' hq hq'
    exact h.last_unique q q' (hlast q hq) (hlast q' hq')
  · intro q hq
    rw [hrole] at hq
    by_cases hqp : q = p
    · subst hqp
      rw [if_pos rfl] at hq
      rcases hq with hbreaking | hsetter
      · exact (hbreaks hbreaking).1
      · exact h.broken q (Or.inr hsetter)
    · rw [if_neg hqp] at hq
      exact h.broken q hq
  · intro q hq
    rw [hrole]
    split
    · next hqp =>
        subst hqp
        rcases h.breaking q hq with hbreaking | hreturned
        · by_cases hx : x.role = .breaking
          · exact Or.inl hx
          · exact Or.inr ((hleaves hbreaking hx).resolve_left hq)
        · exact Or.inr hreturned
    · exact h.breaking q hq
  · intro hzero
    rcases h.resolved hzero with hresult | ⟨q, hq⟩
    · exact Or.inl hresult
    · by_cases hqp : q = p
      · subst hqp
        rcases hresolved hzero with hresult | hiff
        · exact Or.inl hresult
        · refine Or.inr ⟨q, ?_⟩
          rw [hrole, if_pos rfl]
          exact hiff.mpr hq
      · refine Or.inr ⟨q, ?_⟩
        rw [hrole, if_neg hqp]
        exact hq

/-- The call of {lit}`setValue`. -/
theorem setValue (h : Turns s) {p : π} (hp : (s.object p).role = .none)
    (hcalled : s.calledBy = none) (hpos : 0 < s.promiseRef) :
    Turns { s.setObject p .setting with calledBy := some p } := by
  have hnone : ∀ q, ¬ s.Last q := by
    intro q hq
    have hzero := h.last q hq
    omega
  have hrole : ∀ q, (({ s.setObject p .setting with calledBy := some p } :
      System π ε α K).object q).role = if q = p then .setting else (s.object q).role :=
    fun q => role_update
  have hlast : ∀ q, ¬ ({ s.setObject p .setting with calledBy := some p } :
      System π ε α K).Last q := by
    intro q hq
    unfold System.Last at hq
    rw [hrole] at hq
    by_cases hqp : q = p
    · subst hqp
      rw [if_pos rfl] at hq
      rcases hq with hq | hq | hq
      · cases hq
      · cases hq
      · exact hnone q (Or.inr (Or.inr hq))
    · rw [if_neg hqp] at hq
      exact hnone q hq
  refine ⟨?_, ?_, ?_, ?_, ?_, ?_, ?_, ?_⟩
  · intro hno
    cases hno
  · intro q hq
    rw [hrole] at hq
    split at hq
    · next hqp => rw [hqp]
    · have hother := h.caller q hq
      rw [hcalled] at hother
      cases hother
  · intro _
    refine Or.inl ⟨p, ?_⟩
    rw [hrole, if_pos rfl]
  · intro q hq
    exact absurd hq (hlast q)
  · intro q q' hq
    exact absurd hq (hlast q)
  · intro q hq
    exact absurd (Or.inr hq) (hlast q)
  · intro q hq
    exact absurd (Or.inr (Or.inr hq)) (hnone q)
  · intro hzero
    have hsame : s.promiseRef = 0 := hzero
    omega

/-- The end of the call of {lit}`setValue`. -/
theorem setValueReturns (h : Turns s) {p : π} {x : Object π} (hx : x.role = .none)
    (hp : (s.object p).role = .setting) (hreturned : s.base.setter none = .returned) :
    Turns (s.setObject p x) := by
  have hrole : ∀ q, ((s.setObject p x).object q).role =
      if q = p then .none else (s.object q).role := by
    intro q
    rw [← hx]
    exact role_update
  have hlast : ∀ q, (s.setObject p x).Last q → s.Last q := by
    intro q hq
    unfold System.Last at hq
    rw [hrole] at hq
    split at hq
    · exact Or.inr (Or.inr ((hq.resolve_left nofun).resolve_left nofun))
    · exact hq
  refine ⟨h.uncalled, ?_, fun _ => Or.inr hreturned, ?_, ?_, ?_, ?_, ?_⟩
  · intro q hq
    rw [hrole] at hq
    split at hq
    · cases hq
    · exact h.caller q hq
  · intro q hq
    exact h.last q (hlast q hq)
  · intro q q' hq hq'
    exact h.last_unique q q' (hlast q hq) (hlast q' hq')
  · intro q hq
    rw [hrole] at hq
    split at hq
    · exact h.broken q (Or.inr (hq.resolve_left nofun))
    · exact h.broken q hq
  · intro q hq
    rw [hrole]
    split
    · next hqp =>
        subst hqp
        rcases h.breaking q hq with hbreaking | hdone
        · rw [hp] at hbreaking
          cases hbreaking
        · exact Or.inr hdone
    · exact h.breaking q hq
  · intro hzero
    rcases h.resolved hzero with hresult | ⟨q, hq⟩
    · exact Or.inl hresult
    · refine Or.inr ⟨q, ?_⟩
      have hne : q ≠ p := by
        rintro rfl
        rw [hp] at hq
        rcases hq with hq | hq <;> cases hq
      rw [hrole, if_neg hne]
      exact hq

omit [DecidableEq π] in
/-- A step on the shared state: the setters that move are those whose turn it
is. -/
theorem rebase (h : Turns s) (hobject : s'.object = s.object)
    (hcalled : s'.calledBy = s.calledBy) (hpromise : s'.promiseRef = s.promiseRef)
    (hnone : (∃ p, (s.object p).role = .setting) ∨ s'.base.setter none = s.base.setter none)
    (hsome : ∀ p, (s.object p).role = .breaking ∨
      s'.base.setter (some p) = s.base.setter (some p))
    (hresult : s.base.shared.fs.state.hasResult = true →
      s'.base.shared.fs.state.hasResult = true) : Turns s' := by
  have hstarted : ∀ p, s'.base.setter (some p) ≠ .check →
      (s.object p).role = .breaking ∨ s.base.setter (some p) ≠ .check := by
    intro p hp
    rcases hsome p with hbreaking | hsame
    · exact Or.inl hbreaking
    · rw [hsame] at hp
      exact Or.inr hp
  have hlast : ∀ p, s'.Last p → s.Last p := by
    intro p hp
    unfold System.Last at hp
    rw [hobject] at hp
    rcases hp with hp | hp | hp
    · exact Or.inl hp
    · exact Or.inr (Or.inl hp)
    · exact Or.inr (hstarted p hp)
  refine ⟨?_, ?_, ?_, ?_, ?_, ?_, ?_, ?_⟩
  · intro hno
    rw [hcalled] at hno
    rcases hnone with ⟨p, hp⟩ | hsame
    · have hyes := h.caller p hp
      rw [hno] at hyes
      cases hyes
    · rw [hsame]
      exact h.uncalled hno
  · intro p hp
    rw [hobject] at hp
    rw [hcalled]
    exact h.caller p hp
  · intro hyes
    rw [hcalled] at hyes
    rw [hobject]
    rcases hnone with hsetting | hsame
    · exact Or.inl hsetting
    · rw [hsame]
      exact h.called hyes
  · intro p hp
    rw [hpromise]
    exact h.last p (hlast p hp)
  · intro p q hp hq
    exact h.last_unique p q (hlast p hp) (hlast q hq)
  · intro p hp
    rw [hobject] at hp
    rw [hcalled]
    rcases hp with hp | hp
    · exact h.broken p (Or.inl hp)
    · exact h.broken p (hstarted p hp)
  · intro p hp
    rw [hobject]
    rcases hsome p with hbreaking | hsame
    · exact Or.inl hbreaking
    · rw [hsame] at hp ⊢
      exact h.breaking p hp
  · intro hzero
    rw [hpromise] at hzero
    rw [hobject]
    rcases h.resolved hzero with hyes | hparty
    · exact Or.inl (hresult hyes)
    · exact Or.inr hparty

section

omit [DecidableEq π]

variable {value : Option π → Try ε α} {func : K}

/-- While the promise of {lit}`setValue` exists, no destructor has a result to
set. -/
theorem setter_some_of_pos (h : Turns s) (hpos : 0 < s.promiseRef) (p : π) :
    s.base.setter (some p) = .check := by
  by_contra hset
  have hzero := h.last p (Or.inr (Or.inr hset))
  omega

/-- A setter that has begun has not won before its first step. -/
theorem not_won_check : ¬ (FutureState.Pc.check).phase.Won := by
  simp [FutureState.Pc.phase, FutureState.Phase.Won]

/-- {lit}`setValue` does not throw. -/
theorem setter_none_ne_threw (h : Turns s) (hbase : FutureState.Inv value func s.base)
    (hpos : 0 < s.promiseRef) (e : LogicError) : s.base.setter none ≠ .threw e := by
  intro hthrew
  rcases hbase.race.result_iff.mp (hbase.race.setter_threw none e hthrew).2 with ⟨i, hwon⟩
  cases i with
  | none =>
      rw [hthrew] at hwon
      simp [FutureState.Pc.phase, FutureState.Phase.Won] at hwon
  | some p =>
      rw [h.setter_some_of_pos hpos p] at hwon
      exact not_won_check hwon

/-- The broken promise is reported without an exception. -/
theorem setter_some_ne_threw (h : Turns s) (hbase : FutureState.Inv value func s.base) {p : π}
    (hp : (s.object p).role = .breaking) (e : LogicError) :
    s.base.setter (some p) ≠ .threw e := by
  intro hthrew
  rcases hbase.race.result_iff.mp (hbase.race.setter_threw (some p) e hthrew).2 with ⟨i, hwon⟩
  cases i with
  | none =>
      rw [h.uncalled (h.broken p (Or.inl hp))] at hwon
      exact not_won_check hwon
  | some q =>
      have hq : s.base.setter (some q) ≠ .check := by
        intro hcheck
        rw [hcheck] at hwon
        exact not_won_check hwon
      have heq := h.last_unique q p (Or.inr (Or.inr hq)) (Or.inr (Or.inl hp))
      rw [heq, hthrew] at hwon
      simp [FutureState.Pc.phase, FutureState.Phase.Won] at hwon

/-- {lit}`setValue` stores its value alone. -/
theorem apart_none [DecidableEq π] (h : Turns s) (hpos : 0 < s.promiseRef)
    (answer : FutureState.Answer) :
    FutureState.SettersApart s.base (.setResult none answer) := by
  intro _ j hj hlive
  cases j with
  | none => exact hj rfl
  | some p =>
      rw [h.setter_some_of_pos hpos p] at hlive
      simp [FutureState.Pc.phase, FutureState.Phase.Live] at hlive

/-- A destructor stores the broken promise alone. -/
theorem apart_some [DecidableEq π] (h : Turns s) {p : π} (hp : (s.object p).role = .breaking)
    (answer : FutureState.Answer) :
    FutureState.SettersApart s.base (.setResult (some p) answer) := by
  intro _ j hj hlive
  cases j with
  | none =>
      rw [h.uncalled (h.broken p (Or.inl hp))] at hlive
      simp [FutureState.Pc.phase, FutureState.Phase.Live] at hlive
  | some q =>
      have hq : s.base.setter (some q) ≠ .check := by
        intro hcheck
        rw [hcheck] at hlive
        simp [FutureState.Pc.phase, FutureState.Phase.Live] at hlive
      exact hj (congrArg some (h.last_unique q p (Or.inr (Or.inr hq)) (Or.inr (Or.inl hp))))

/-- A returned setter has published its result. -/
theorem hasResult_of_returned (hbase : FutureState.Inv value func s.base) {i : Option π}
    (hi : s.base.setter i = .returned) : s.base.shared.fs.state.hasResult = true := by
  refine hbase.race.result_iff.mpr ⟨i, ?_⟩
  rw [hi]
  exact Or.inr rfl

/-- When the last promise has gone without a result, {lit}`setValue` was not
called. -/
theorem uncalled_of_deciding (h : Turns s) (hbase : FutureState.Inv value func s.base) {p : π}
    (hp : (s.object p).role = .deciding)
    (hpos : ∀ q, (s.object q).role = .setting → 0 < s.promiseRef)
    (hresult : s.base.shared.fs.state.hasResult = false) : s.calledBy = none := by
  by_contra hcalled
  rcases h.called hcalled with ⟨q, hq⟩ | hreturned
  · have hzero := h.last p (Or.inl hp)
    have hone := hpos q hq
    omega
  · rw [hasResult_of_returned hbase hreturned] at hresult
    exact Bool.noConfusion hresult

end

end Turns

/-! ## The counters -/

/-- The object counts as a promise. -/
def Object.counted : Object π → Bool
  | .idle .here | .setting => true
  | _ => false

/-- The object refers to the shared state. -/
def Object.refers : Object π → Bool
  | .idle .here | .setting | .checking _ _ | .breaking _ | .leaving _ => true
  | _ => false

variable [Fintype π]

/-- Number of the references to the shared state. -/
def System.total (s : System π ε α K) : Nat :=
  tally Object.refers s.object + s.others

/-- The counters against the objects. -/
structure Counts (s : System π ε α K) : Prop where
  promises : s.promiseRef = tally Object.counted s.object
  references : s.attached = s.total
  bounded : s.total ≤ 255
  deleted : s.deleted = decide (s.total = 0)
  used : s.unused = true ∨ 0 < s.others

namespace Counts

variable {s s' : System π ε α K}

theorem counted_le (s : System π ε α K) : tally Object.counted s.object ≤ s.total := by
  have hle : tally Object.counted s.object ≤ tally Object.refers s.object := by
    refine tally_le_tally ?_
    intro x hx
    cases x with
    | idle pointer => cases pointer <;> first | rfl | cases hx
    | setting => rfl
    | _ => cases hx
  unfold System.total
  omega

theorem total_pos {p : π} (hp : (s.object p).refers = true) : 0 < s.total := by
  have hpos : 0 < tally Object.refers s.object := tally_pos hp
  unfold System.total
  omega

theorem live (h : Counts s) (hpos : 0 < s.total) : s.deleted = false := by
  rw [h.deleted, decide_eq_false_iff_not]
  omega

theorem promise_pos (h : Counts s) {p : π} (hp : (s.object p).counted = true) :
    0 < s.promiseRef := by
  rw [h.promises]
  exact tally_pos hp

/-- Objects and counters change together. -/
theorem replace (h : Counts s) (hpos : 0 < s'.total)
    (hpromise : s'.promiseRef = tally Object.counted s'.object)
    (hattached : s'.attached = s'.total) (hbounded : s'.total ≤ 255)
    (hdeleted : s'.deleted = s.deleted) (hlive : 0 < s.total)
    (hused : s'.unused = true ∨ 0 < s'.others) : Counts s' := by
  refine ⟨hpromise, hattached, hbounded, ?_, hused⟩
  rw [hdeleted, h.live hlive, eq_comm, decide_eq_false_iff_not]
  omega

variable [DecidableEq π]

theorem counted_setObject (s : System π ε α K) (p : π) (x : Object π) :
    tally Object.counted (s.setObject p x).object + (if (s.object p).counted then 1 else 0) =
      tally Object.counted s.object + if x.counted then 1 else 0 :=
  tally_update Object.counted s.object p x

theorem total_setObject (s : System π ε α K) (p : π) (x : Object π) :
    (s.setObject p x).total + (if (s.object p).refers then 1 else 0) =
      s.total + if x.refers then 1 else 0 := by
  have hupdate := tally_update Object.refers s.object p x
  show tally Object.refers (Function.update s.object p x) + s.others + _ =
    tally Object.refers s.object + s.others + _
  omega

/-- An object changes without a change of its references. -/
theorem setObject (h : Counts s) {p : π} {x : Object π}
    (hcounted : x.counted = (s.object p).counted) (hrefers : x.refers = (s.object p).refers) :
    Counts (s.setObject p x) := by
  have hpromise := counted_setObject s p x
  have htotal := total_setObject s p x
  rw [hcounted] at hpromise
  rw [hrefers] at htotal
  have hsame : (s.setObject p x).total = s.total := by omega
  refine ⟨?_, ?_, ?_, ?_, h.used⟩
  · show s.promiseRef = _
    rw [h.promises]
    omega
  · rw [hsame]
    exact h.references
  · rw [hsame]
    exact h.bounded
  · rw [hsame]
    exact h.deleted

/-- Two objects exchange their pointers. -/
theorem exchange (h : Counts s) {p q : π} {x y : Object π} (hne : q ≠ p)
    (hcounted : x.counted = (s.object q).counted ∧ y.counted = (s.object p).counted)
    (hrefers : x.refers = (s.object q).refers ∧ y.refers = (s.object p).refers) :
    Counts ((s.setObject p x).setObject q y) := by
  have hother : (s.setObject p x).object q = s.object q := Function.update_of_ne hne _ _
  have hpromise := counted_setObject s p x
  have htotal := total_setObject s p x
  have hpromise' := counted_setObject (s.setObject p x) q y
  have htotal' := total_setObject (s.setObject p x) q y
  rw [hother, hcounted.2] at hpromise'
  rw [hother, hrefers.2] at htotal'
  rw [hcounted.1] at hpromise
  rw [hrefers.1] at htotal
  have hsame : ((s.setObject p x).setObject q y).total = s.total := by omega
  refine ⟨?_, ?_, ?_, ?_, h.used⟩
  · show s.promiseRef = _
    rw [h.promises]
    omega
  · rw [hsame]
    exact h.references
  · rw [hsame]
    exact h.bounded
  · rw [hsame]
    exact h.deleted

/-- A copied promise. -/
theorem attachHere (h : Counts s) {p : π} (hcounted : (s.object p).counted = false)
    (hrefers : (s.object p).refers = false) (hlive : 0 < s.total) (hroom : s.total + 1 ≤ 255) :
    Counts { s.setObject p (.idle .here) with
      promiseRef := (s.promiseRef + 1) % 2 ^ 64
      attached := (s.attached + 1) % 2 ^ 8 } := by
  have hpromise := counted_setObject s p (.idle .here)
  have htotal := total_setObject s p (.idle .here)
  have hle := counted_le s
  have hpromises := h.promises
  have hreferences := h.references
  rw [hcounted] at hpromise
  rw [hrefers] at htotal
  simp only [Bool.false_eq_true, if_false, Object.counted, Object.refers, if_true]
    at hpromise htotal
  have hnew : ({ s.setObject p (.idle .here) with
      promiseRef := (s.promiseRef + 1) % 2 ^ 64
      attached := (s.attached + 1) % 2 ^ 8 } : System π ε α K).total = s.total + 1 := htotal
  refine h.replace (by omega) ?_ ?_ (by omega) rfl hlive h.used
  · show (s.promiseRef + 1) % 2 ^ 64 = tally Object.counted (s.setObject p (.idle .here)).object
    rw [Nat.mod_eq_of_lt (by omega)]
    omega
  · rw [hnew]
    show (s.attached + 1) % 2 ^ 8 = s.total + 1
    omega

/-- The first step of {lit}`detachPromise`. -/
theorem destroyHere (h : Counts s) {p : π} {next : Next π} (hp : s.object p = .idle .here) :
    Counts { s.setObject p (.checking s.promiseRef next) with promiseRef := s.promiseRef - 1 } := by
  have hpromise := counted_setObject s p (.checking s.promiseRef next)
  have htotal := total_setObject s p (.checking s.promiseRef next)
  have hlive : 0 < s.total := total_pos (p := p) (by rw [hp]; rfl)
  have hpromises := h.promises
  rw [hp] at hpromise htotal
  simp only [Object.counted, Object.refers, if_true, Bool.false_eq_true, if_false]
    at hpromise htotal
  have hsame : ({ s.setObject p (.checking s.promiseRef next) with
      promiseRef := s.promiseRef - 1 } : System π ε α K).total = s.total := by
    exact Nat.add_right_cancel htotal
  refine h.replace (by omega) ?_ ?_ ?_ rfl hlive h.used
  · show s.promiseRef - 1 =
      tally Object.counted (s.setObject p (.checking s.promiseRef next)).object
    omega
  · rw [hsame]
    exact h.references
  · rw [hsame]
    exact h.bounded

/-- The last step of {lit}`detachPromise`. -/
theorem leave (h : Counts s) {p : π} {x : Object π} (hcounted : x.counted = (s.object p).counted)
    (hp : (s.object p).refers = true) (hx : x.refers = false) :
    Counts (s.setObject p x).detachOne ∧ (s.setObject p x).detachOne.fault = s.fault := by
  have hpromise := counted_setObject s p x
  have htotal := total_setObject s p x
  have hlive : 0 < s.total := total_pos hp
  have hreferences := h.references
  have hpromises := h.promises
  have hbounded := h.bounded
  rw [hcounted] at hpromise
  rw [hp, hx] at htotal
  simp only [if_true, Bool.false_eq_true, if_false] at htotal
  have heq : (s.setObject p x).detachOne = { s.setObject p x with
      attached := s.attached - 1
      deleted := decide (s.attached = 1) } := by
    unfold System.detachOne
    rw [if_neg (show (s.setObject p x).attached ≠ 0 by
      show s.attached ≠ 0
      omega)]
    rfl
  rw [heq]
  refine ⟨⟨?_, ?_, ?_, ?_, h.used⟩, rfl⟩
  · show s.promiseRef = tally Object.counted (s.setObject p x).object
    omega
  · show s.attached - 1 = (s.setObject p x).total
    omega
  · show (s.setObject p x).total ≤ 255
    omega
  · show decide (s.attached = 1) = decide ((s.setObject p x).total = 0)
    congr 1
    exact propext (by omega)

end Counts

/-! ## Every step -/

/-- Everything that holds in a run. -/
structure Inv (value : Option π → Try ε α) (func : K) (s : System π ε α K) : Prop where
  base : FutureState.Inv value func s.base
  turns : Turns s
  counts : Counts s
  noFault : s.fault = false

/-- A copied pointer is not null, and one more reference fits. -/
def Copies (s : System π ε α K) : Option Pointer → Prop
  | some .null => False
  | some .here => s.total + 1 ≤ 255
  | _ => True

instance (s : System π ε α K) : ∀ pointer, Decidable (Copies s pointer)
  | some .null => isFalse id
  | some .here => inferInstanceAs (Decidable (s.total + 1 ≤ 255))
  | some .elsewhere => isTrue trivial
  | none => isTrue trivial

/-- No promise is copied from a moved-from one, and the references stay below
the limit of the counter. -/
def Fits (s : System π ε α K) : Label π → Prop
  | .copy _ q => Copies s (s.object q).source
  | .copyPointer p =>
      match s.object p with
      | .assigning q => Copies s (s.object q).source
      | _ => True
  | .attachOther => s.total + 1 ≤ 255
  | .detach p answer => (s.base.setter (some p)).accepts answer = true → s.total + 1 ≤ 255
  | .setValueStep _ answer => (s.base.setter none).accepts answer = true → s.total + 1 ≤ 255
  | .setContinuation answer => s.base.attacher.accepts answer = true → s.total + 1 ≤ 255
  | _ => True

instance (s : System π ε α K) : ∀ l, Decidable (Fits s l)
  | .copy _ q => inferInstanceAs (Decidable (Copies s (s.object q).source))
  | .copyPointer p =>
      match h : s.object p with
      | .assigning q => decidable_of_iff (Copies s (s.object q).source) (by simp [Fits, h])
      | .absent | .idle _ | .setting | .checking _ _ | .breaking _ | .leaving _ =>
          isTrue (by simp [Fits, h])
  | .attachOther => inferInstanceAs (Decidable (s.total + 1 ≤ 255))
  | .detach p answer => inferInstanceAs
      (Decidable ((s.base.setter (some p)).accepts answer = true → s.total + 1 ≤ 255))
  | .setValueStep _ answer => inferInstanceAs
      (Decidable ((s.base.setter none).accepts answer = true → s.total + 1 ≤ 255))
  | .setContinuation answer => inferInstanceAs
      (Decidable (s.base.attacher.accepts answer = true → s.total + 1 ≤ 255))
  | .newPromise _ | .assign _ _ | .move _ _ | .moveAssign _ _ | .destroy _ | .setValue _
  | .detachOther | .runTask => isTrue trivial

namespace Inv

variable [DecidableEq π] {value : Option π → Try ε α} {func : K} {s s' : System π ε α K}

/-- A step on the shared state by a party that holds a reference. -/
theorem baseStep (h : Inv value func s) {l : FutureState.Label (Option π)}
    (hlive : 0 < s.total) (hapart : FutureState.SettersApart s.base l)
    (hroom : ∀ base, FutureState.step value func s.base l = some base →
      s.base.shared.pending < base.shared.pending →
        base.shared.pending = s.base.shared.pending + 1 ∧ s.total + 1 ≤ 255)
    (hnone : ∀ base, FutureState.step value func s.base l = some base →
      (∃ p, (s.object p).role = .setting) ∨ base.setter none = s.base.setter none)
    (hsome : ∀ base, FutureState.step value func s.base l = some base → ∀ p,
      (s.object p).role = .breaking ∨ base.setter (some p) = s.base.setter (some p))
    (hused : ∀ base, FutureState.step value func s.base l = some base → 0 < s.others ∨
      base.attacher = s.base.attacher ∧ s.base.shared.pending ≤ base.shared.pending)
    (hstep : PromiseCopies.baseStep value func s l = some s') : Inv value func s' := by
  rcases Option.bind_eq_some_iff.mp hstep with ⟨base, hbase, hnext⟩
  rw [System.access, if_neg (by simp [h.counts.live hlive])] at hnext
  cases hnext
  have hinv := h.base.step hapart hbase
  have hreferences := h.counts.references
  have hbounded := h.counts.bounded
  have hnew : ({ s with
      base := base
      others := s.others + (base.shared.pending - s.base.shared.pending)
      attached := (s.attached + (base.shared.pending - s.base.shared.pending)) % 2 ^ 8 } :
      System π ε α K).total = s.total + (base.shared.pending - s.base.shared.pending) := by
    show tally Object.refers s.object + (s.others + _) = tally Object.refers s.object + s.others + _
    omega
  have hfits : s.total + (base.shared.pending - s.base.shared.pending) ≤ 255 := by
    by_cases hmore : s.base.shared.pending < base.shared.pending
    · rcases hroom base hbase hmore with ⟨hone, hle⟩
      omega
    · omega
  refine ⟨hinv, ?_, ?_, h.noFault⟩
  · exact h.turns.rebase rfl rfl rfl (hnone base hbase) (hsome base hbase)
      (FutureState.step_hasResult hbase)
  · refine h.counts.replace (by omega) h.counts.promises ?_ (by omega) rfl hlive ?_
    · rw [hnew]
      show (s.attached + (base.shared.pending - s.base.shared.pending)) % 2 ^ 8 = _
      omega
    · rcases hused base hbase with hothers | ⟨hattacher, hpending⟩
      · refine Or.inr ?_
        show 0 < s.others + _
        omega
      · by_cases hmore : s.base.shared.pending < base.shared.pending
        · refine Or.inr ?_
          show 0 < s.others + _
          omega
        · have hsame : base.shared.pending = s.base.shared.pending := by omega
          rcases h.counts.used with hunused | hothers
          · refine Or.inl ?_
            unfold System.unused at hunused ⊢
            rw [hattacher, hsame]
            exact hunused
          · refine Or.inr ?_
            show 0 < s.others + _
            omega

/-- An object changes without a change of its part and its references. -/
theorem setObject (h : Inv value func s) {p : π} {x : Object π}
    (hrole : x.role = (s.object p).role) (hcounted : x.counted = (s.object p).counted)
    (hrefers : x.refers = (s.object p).refers) : Inv value func (s.setObject p x) := by
  refine ⟨h.base, ?_, h.counts.setObject hcounted hrefers, h.noFault⟩
  refine h.turns.congr rfl rfl ?_ Iff.rfl
  intro q
  exact apply_update_of_eq hrole q

/-- Two idle objects exchange their pointers. -/
theorem exchange (h : Inv value func s) {p q : π} {x y : Object π} (hne : q ≠ p)
    (hroles : x.role = .none ∧ y.role = .none ∧ (s.object p).role = .none ∧
      (s.object q).role = .none)
    (hcounted : x.counted = (s.object q).counted ∧ y.counted = (s.object p).counted)
    (hrefers : x.refers = (s.object q).refers ∧ y.refers = (s.object p).refers) :
    Inv value func ((s.setObject p x).setObject q y) := by
  refine ⟨h.base, ?_, h.counts.exchange hne hcounted hrefers, h.noFault⟩
  refine h.turns.congr rfl rfl ?_ Iff.rfl
  intro r
  have hfirst : ((s.setObject p x).object r).role = (s.object r).role :=
    apply_update_of_eq (hroles.1.trans hroles.2.2.1.symm) r
  have hq : ((s.setObject p x).object q).role = .none := by
    rw [show (s.setObject p x).object q = s.object q from Function.update_of_ne hne _ _]
    exact hroles.2.2.2
  have hsecond : (((s.setObject p x).setObject q y).object r).role =
      ((s.setObject p x).object r).role :=
    apply_update_of_eq (hroles.2.1.trans hq.symm) r
  exact hsecond.trans hfirst

omit [Fintype π] [DecidableEq π] in
theorem refers_of_counted {x : Object π} (h : x.counted = true) : x.refers = true := by
  cases x with
  | idle pointer => cases pointer <;> first | rfl | cases h
  | setting => rfl
  | _ => cases h

omit [Fintype π] [DecidableEq π] in
theorem counted_of_source {x : Object π} (h : x.source = some .here) : x.counted = true := by
  cases x with
  | idle pointer =>
      cases h
      rfl
  | setting => rfl
  | _ => cases h

/-- The pointer of another promise is copied. -/
theorem attachCopy (h : Inv value func s) {p q : π} {pointer : Pointer}
    (hp : (s.object p).role = .none ∧ (s.object p).counted = false ∧
      (s.object p).refers = false)
    (hq : (s.object q).source = some pointer) (hcopies : Copies s (s.object q).source)
    (hstep : s.attachCopy p pointer = some s') : Inv value func s' := by
  rw [hq] at hcopies
  cases pointer with
  | null => exact hcopies.elim
  | elsewhere =>
      cases hstep
      exact h.setObject hp.1.symm hp.2.1.symm hp.2.2.symm
  | here =>
      have hcounted := counted_of_source hq
      have hlive : 0 < s.total := Counts.total_pos (refers_of_counted hcounted)
      have hpos := h.counts.promise_pos hcounted
      have hle := Counts.counted_le s
      have hbounded := h.counts.bounded
      have hpromises := h.counts.promises
      rw [System.attachCopy, System.access, if_neg (by simp [h.counts.live hlive])] at hstep
      cases hstep
      refine ⟨h.base, ?_, h.counts.attachHere hp.2.1 hp.2.2 hlive hcopies, h.noFault⟩
      refine h.turns.congr rfl rfl ?_ ?_
      · intro r
        have hrole : (Object.idle .here : Object π).role = (s.object p).role := hp.1.symm
        exact apply_update_of_eq hrole r
      · show (s.promiseRef + 1) % 2 ^ 64 = 0 ↔ s.promiseRef = 0
        omega

/-- {lit}`~Promise`. -/
theorem destroy (h : Inv value func s) {p : π} {next : Next π} {pointer : Pointer}
    (hp : s.object p = .idle pointer) (hstep : s.destroy p next pointer = some s') :
    Inv value func s' := by
  have hplain : pointer ≠ .here → Inv value func (s.setObject p next.object) := by
    intro hne
    refine h.setObject ?_ ?_ ?_ <;> rw [hp] <;> cases next <;> cases pointer <;>
      first | rfl | exact absurd rfl hne
  cases pointer with
  | null =>
      cases hstep
      exact hplain nofun
  | elsewhere =>
      cases hstep
      exact hplain nofun
  | here =>
      have hlive : 0 < s.total := Counts.total_pos (p := p) (by rw [hp]; rfl)
      have hpos : 0 < s.promiseRef := h.counts.promise_pos (p := p) (by rw [hp]; rfl)
      rw [System.destroy, System.access, if_neg (by simp [h.counts.live hlive]),
        if_neg (by omega)] at hstep
      cases hstep
      refine ⟨h.base, ?_, h.counts.destroyHere hp, h.noFault⟩
      by_cases hone : s.promiseRef = 1
      · rw [hone]
        exact h.turns.destroyLast hone (by rw [hp]; rfl)
      · refine h.turns.congr rfl rfl ?_ ?_
        · intro r
          refine apply_update_of_eq (f := Object.role) ?_ r
          rw [hp]
          simp [Object.role, hone]
        · show s.promiseRef - 1 = 0 ↔ s.promiseRef = 0
          omega

/-- The look at the result in {lit}`detachPromise`. -/
theorem check (h : Inv value func s) {p : π} {old : Nat} {next : Next π}
    (hp : s.object p = .checking old next) :
    Inv value func (s.setObject p
      (if !s.base.shared.fs.state.hasResult && old = 1 then .breaking next
        else .leaving next)) := by
  have hsetting : ∀ q, (s.object q).role = .setting → 0 < s.promiseRef := by
    intro q hq
    refine h.counts.promise_pos (p := q) ?_
    cases hobject : s.object q with
    | setting => rfl
    | checking old' next' =>
        rw [hobject, Object.role] at hq
        split at hq <;> cases hq
    | _ =>
        rw [hobject] at hq
        cases hq
  have hnotsetting : (s.object p).role ≠ .setting := by
    rw [hp, Object.role]
    split <;> nofun
  have hnotbreaking : (s.object p).role ≠ .breaking := by
    rw [hp, Object.role]
    split <;> nofun
  split
  · next hbroken =>
      simp only [Bool.and_eq_true, Bool.not_eq_true', decide_eq_true_eq] at hbroken
      have hdeciding : (s.object p).role = .deciding := by
        rw [hp, Object.role, if_pos hbroken.2]
      have hcalled := h.turns.uncalled_of_deciding h.base hdeciding hsetting hbroken.1
      refine ⟨h.base, ?_, h.counts.setObject (by rw [hp]; rfl) (by rw [hp]; rfl), h.noFault⟩
      refine h.turns.setObject ?_ ?_ nofun ?_ ?_
      · exact iff_of_false nofun hnotsetting
      · intro _
        exact ⟨hcalled, hdeciding⟩
      · intro hbreaking
        exact absurd hbreaking hnotbreaking
      · intro _
        exact Or.inr (iff_of_true (Or.inr rfl) (Or.inl hdeciding))
  · next hkept =>
      refine ⟨h.base, ?_, h.counts.setObject (by rw [hp]; rfl) (by rw [hp]; rfl), h.noFault⟩
      refine h.turns.setObject ?_ nofun nofun ?_ ?_
      · exact iff_of_false nofun hnotsetting
      · intro hbreaking
        exact absurd hbreaking hnotbreaking
      · intro _
        cases hresult : s.base.shared.fs.state.hasResult with
        | true => exact Or.inl rfl
        | false =>
            refine Or.inr (iff_of_false (by simp [Object.role]) ?_)
            rintro (hdeciding | hbreaking)
            · rw [hp, Object.role] at hdeciding
              split at hdeciding
              · next hone => simp [hresult, hone] at hkept
              · cases hdeciding
            · exact hnotbreaking hbreaking

/-- A step of the setter whose turn it is. -/
theorem setterStep (h : Inv value func s) {i : Option π} {answer : FutureState.Answer}
    (hlive : 0 < s.total) (hapart : FutureState.SettersApart s.base (.setResult i answer))
    (hroom : (s.base.setter i).accepts answer = true → s.total + 1 ≤ 255)
    (hnone : (∃ p, (s.object p).role = .setting) ∨ i ≠ none)
    (hsome : ∀ p, (s.object p).role = .breaking ∨ i ≠ some p)
    (hstep : PromiseCopies.baseStep value func s (.setResult i answer) = some s') :
    Inv value func s' := by
  refine h.baseStep hlive hapart ?_ ?_ ?_ ?_ hstep
  · intro base hbase hmore
    rcases FutureState.step_setResult hbase with ⟨-, -, hpending⟩
    cases haccepts : (s.base.setter i).accepts answer with
    | false =>
        rw [haccepts] at hpending
        simp only [Bool.false_eq_true, if_false] at hpending
        omega
    | true =>
        rw [haccepts] at hpending
        exact ⟨hpending, hroom haccepts⟩
  · intro base hbase
    rcases hnone with hsetting | hne
    · exact Or.inl hsetting
    · exact Or.inr ((FutureState.step_setResult hbase).2.1 none hne.symm)
  · intro base hbase p
    rcases hsome p with hbreaking | hne
    · exact Or.inl hbreaking
    · exact Or.inr ((FutureState.step_setResult hbase).2.1 (some p) hne.symm)
  · intro base hbase
    rcases FutureState.step_setResult hbase with ⟨hattacher, -, hpending⟩
    exact Or.inr ⟨hattacher, by omega⟩

/-- A step of {lit}`detachPromise`. -/
theorem detach (h : Inv value func s) {p : π} {answer : FutureState.Answer}
    (hfits : (s.base.setter (some p)).accepts answer = true → s.total + 1 ≤ 255)
    (hstep : detachStep value func s p answer = some s') : Inv value func s' := by
  have hlive : (s.object p).refers = true → s.deleted = false := fun hp =>
    h.counts.live (Counts.total_pos hp)
  unfold detachStep at hstep
  split at hstep
  · next old next hp =>
      rw [System.access, if_neg (by simp [hlive (by rw [hp]; rfl)])] at hstep
      cases hstep
      exact h.check hp
  · next next hp =>
      have hrole : (s.object p).role = .breaking := by
        rw [hp]
        rfl
      split at hstep
      · next hreturned =>
          cases hstep
          refine ⟨h.base, ?_, h.counts.setObject (by rw [hp]; rfl) (by rw [hp]; rfl), h.noFault⟩
          refine h.turns.setObject ?_ nofun nofun ?_ ?_
          · rw [hrole]
            exact iff_of_false nofun nofun
          · intro _ _
            exact Or.inr hreturned
          · intro _
            exact Or.inl (Turns.hasResult_of_returned h.base hreturned)
      · next e hthrew => exact absurd hthrew (h.turns.setter_some_ne_threw h.base hrole e)
      · refine h.setterStep (Counts.total_pos (p := p) (by rw [hp]; rfl))
          (h.turns.apart_some hrole answer) hfits (Or.inr nofun) ?_ hstep
        intro q
        by_cases hq : q = p
        · rw [hq]
          exact Or.inl hrole
        · refine Or.inr fun heq => hq ?_
          exact (Option.some.inj heq).symm
  · next next hp =>
      rw [System.access, if_neg (by simp [hlive (by rw [hp]; rfl)])] at hstep
      cases hstep
      have hcounts : Counts (s.setObject p next.object).detachOne ∧
          (s.setObject p next.object).detachOne.fault = s.fault := by
        refine h.counts.leave ?_ (by rw [hp]; rfl) ?_
        · rw [hp]
          cases next <;> rfl
        · cases next <;> rfl
      have hsame : (s.setObject p next.object).detachOne.base = s.base ∧
          (s.setObject p next.object).detachOne.calledBy = s.calledBy ∧
          (s.setObject p next.object).detachOne.object = (s.setObject p next.object).object ∧
          (s.setObject p next.object).detachOne.promiseRef = s.promiseRef := by
        unfold System.detachOne
        split <;> exact ⟨rfl, rfl, rfl, rfl⟩
      refine ⟨by rw [hsame.1]; exact h.base, ?_, hcounts.1, hcounts.2.trans h.noFault⟩
      refine h.turns.congr hsame.1 hsame.2.1 ?_ (by rw [hsame.2.2.2])
      intro q
      rw [hsame.2.2.1]
      refine apply_update_of_eq ?_ q
      rw [hp]
      cases next <;> rfl
  · cases hstep

/-- A step of the call of {lit}`setValue`. -/
theorem setValueStep (h : Inv value func s) {p : π} {answer : FutureState.Answer}
    (hp : s.object p = .setting)
    (hfits : (s.base.setter none).accepts answer = true → s.total + 1 ≤ 255)
    (hstep : (match s.base.setter none with
      | .returned | .threw _ => some (s.setObject p (.idle .here))
      | _ => PromiseCopies.baseStep value func s (.setResult none answer)) = some s') :
    Inv value func s' := by
  have hrole : (s.object p).role = .setting := by
    rw [hp]
    rfl
  have hpos : 0 < s.promiseRef := h.counts.promise_pos (p := p) (by rw [hp]; rfl)
  split at hstep
  · next hreturned =>
      cases hstep
      exact ⟨h.base, h.turns.setValueReturns rfl hrole hreturned,
        h.counts.setObject (by rw [hp]; rfl) (by rw [hp]; rfl), h.noFault⟩
  · next e hthrew => exact absurd hthrew (h.turns.setter_none_ne_threw h.base hpos e)
  · exact h.setterStep (Counts.total_pos (p := p) (by rw [hp]; rfl))
      (h.turns.apart_none hpos answer) hfits (Or.inl ⟨p, hrole⟩) (fun _ => Or.inr nofun) hstep

omit [DecidableEq π] in
/-- A new reference of a future or a guard. -/
theorem attachOther (h : Inv value func s) (hlive : 0 < s.total) (hroom : s.total + 1 ≤ 255) :
    Inv value func { s with
      others := s.others + 1
      attached := (s.attached + 1) % 2 ^ 8 } := by
  have hreferences := h.counts.references
  have hnew : ({ s with
      others := s.others + 1
      attached := (s.attached + 1) % 2 ^ 8 } : System π ε α K).total = s.total + 1 := rfl
  refine ⟨h.base, h.turns.congr rfl rfl (fun _ => rfl) Iff.rfl, ?_, h.noFault⟩
  refine h.counts.replace (by omega) h.counts.promises ?_ (by omega) rfl hlive ?_
  · rw [hnew]
    show (s.attached + 1) % 2 ^ 8 = s.total + 1
    omega
  · exact Or.inr (Nat.succ_pos _)

omit [DecidableEq π] in
/-- A future or a guard lets go. -/
theorem detachOther (h : Inv value func s) (hothers : 0 < s.others)
    (hused : s.unused = true ∨ 1 < s.others) :
    Inv value func { s.detachOne with others := s.others - 1 } := by
  have hreferences := h.counts.references
  have hbounded := h.counts.bounded
  have htotal : s.total = tally Object.refers s.object + s.others := rfl
  have heq : ({ s.detachOne with others := s.others - 1 } : System π ε α K) = { s with
      attached := s.attached - 1
      deleted := decide (s.attached = 1)
      others := s.others - 1 } := by
    unfold System.detachOne
    rw [if_neg (by omega)]
  have hnew : ({ s with
      attached := s.attached - 1
      deleted := decide (s.attached = 1)
      others := s.others - 1 } : System π ε α K).total + 1 = s.total := by
    show tally Object.refers s.object + (s.others - 1) + 1 = s.total
    omega
  rw [heq]
  refine ⟨h.base, h.turns.congr rfl rfl (fun _ => rfl) Iff.rfl, ?_, h.noFault⟩
  refine ⟨h.counts.promises, ?_, by omega, ?_, ?_⟩
  · show s.attached - 1 = _
    omega
  · show decide (s.attached = 1) = decide _
    congr 1
    exact propext (by omega)
  · rcases hused with hunused | hmore
    · exact Or.inl hunused
    · refine Or.inr ?_
      show 0 < s.others - 1
      omega

/-- A step of {lit}`setContinuation`. -/
theorem setContinuation (h : Inv value func s) {answer : FutureState.Answer}
    (hothers : s.base.attacher = .check → 0 < s.others)
    (hfits : s.base.attacher.accepts answer = true → s.total + 1 ≤ 255)
    (hstep : PromiseCopies.baseStep value func s (.setContinuation answer) = some s') :
    Inv value func s' := by
  have hheld : 0 < s.others ∨ s.base.attacher = .returned := by
    rcases h.counts.used with hunused | hpos
    · simp only [System.unused, Bool.and_eq_true, Bool.or_eq_true, decide_eq_true_eq] at hunused
      rcases hunused.1 with hcheck | hreturned
      · exact Or.inl (hothers hcheck)
      · exact Or.inr hreturned
    · exact Or.inl hpos
  rcases hheld with hpos | hreturned
  · have hapart : FutureState.SettersApart s.base (.setContinuation answer) := trivial
    refine h.baseStep (by unfold System.total; omega) hapart ?_ ?_ ?_ ?_ hstep
    · intro base hbase hmore
      rcases FutureState.step_setContinuation hbase with ⟨-, hpending⟩
      cases haccepts : s.base.attacher.accepts answer with
      | false =>
          rw [haccepts] at hpending
          simp only [Bool.false_eq_true, if_false] at hpending
          omega
      | true =>
          rw [haccepts] at hpending
          exact ⟨hpending, hfits haccepts⟩
    · intro base hbase
      exact Or.inr (by rw [(FutureState.step_setContinuation hbase).1])
    · intro base hbase p
      exact Or.inr (by rw [(FutureState.step_setContinuation hbase).1])
    · intro base hbase
      exact Or.inl hpos
  · -- the call is over
    rcases Option.bind_eq_some_iff.mp hstep with ⟨base, hbase, -⟩
    simp [FutureState.step, FutureState.setContinuationStep, FutureState.transferStep,
      FutureState.scheduleContinuationStep, hreturned] at hbase

/-- A submitted task runs. -/
theorem runTask (h : Inv value func s)
    (hstep : PromiseCopies.baseStep value func s .runTask = some s') : Inv value func s' := by
  rcases Option.bind_eq_some_iff.mp hstep with ⟨base, hbase, -⟩
  have hpending := (FutureState.step_runTask hbase).1
  have hpos : 0 < s.others := by
    refine h.counts.used.resolve_left ?_
    intro hunused
    simp only [System.unused, Bool.and_eq_true, decide_eq_true_eq] at hunused
    omega
  have hapart : FutureState.SettersApart s.base .runTask := trivial
  refine h.baseStep (by unfold System.total; omega) hapart ?_ ?_ ?_ ?_ hstep
  · intro base' hbase' hmore
    have hless := (FutureState.step_runTask hbase').1
    omega
  · intro base' hbase'
    exact Or.inr (by rw [(FutureState.step_runTask hbase').2.1])
  · intro base' hbase' p
    exact Or.inr (by rw [(FutureState.step_runTask hbase').2.1])
  · intro base' hbase'
    exact Or.inl hpos

/-- Every step keeps counters, references and setters together. -/
theorem step (h : Inv value func s) {l : Label π} (hfits : Fits s l)
    (hstep : PromiseCopies.step value func s l = some s') : Inv value func s' := by
  cases l with
  | newPromise p =>
      simp only [PromiseCopies.step, Option.ite_none_right_eq_some, Option.some.injEq] at hstep
      rcases hstep with ⟨hp, rfl⟩
      refine h.setObject ?_ ?_ ?_ <;> rw [hp] <;> rfl
  | copy p q =>
      simp only [PromiseCopies.step] at hstep
      split at hstep
      · next pointer hp hq =>
          exact h.attachCopy (by rw [hp]; exact ⟨rfl, rfl, rfl⟩) hq hfits hstep
      · cases hstep
  | assign p q =>
      simp only [PromiseCopies.step] at hstep
      split at hstep
      · next pointer pointer' hp hq =>
          split at hstep
          · cases hstep
            exact h
          · exact h.destroy hp hstep
      · cases hstep
  | copyPointer p =>
      simp only [PromiseCopies.step] at hstep
      split at hstep
      · next q hp =>
          rcases Option.bind_eq_some_iff.mp hstep with ⟨pointer, hq, hcopy⟩
          simp only [Fits, hp] at hfits
          exact h.attachCopy (by rw [hp]; exact ⟨rfl, rfl, rfl⟩) hq hfits hcopy
      · cases hstep
  | move p q =>
      simp only [PromiseCopies.step] at hstep
      split at hstep
      · next pointer hp hq =>
          cases hstep
          have hne : q ≠ p := by
            rintro rfl
            rw [hp] at hq
            cases hq
          refine h.exchange hne ?_ ?_ ?_ <;> rw [hp, hq]
          · exact ⟨rfl, rfl, rfl, rfl⟩
          · exact ⟨rfl, rfl⟩
          · exact ⟨rfl, rfl⟩
      · cases hstep
  | moveAssign p q =>
      simp only [PromiseCopies.step] at hstep
      split at hstep
      · next pointer pointer' hp hq =>
          cases hstep
          by_cases hne : q = p
          · subst hne
            rw [hp] at hq
            cases hq
            have hfirst : Inv value func (s.setObject q (.idle pointer)) := by
              refine h.setObject ?_ ?_ ?_ <;> rw [hp]
            refine hfirst.setObject ?_ ?_ ?_ <;>
              rw [show (s.setObject q (.idle pointer)).object q = .idle pointer from
                Function.update_self ..]
          · refine h.exchange hne ?_ ?_ ?_ <;> rw [hp, hq]
            · exact ⟨rfl, rfl, rfl, rfl⟩
            · exact ⟨rfl, rfl⟩
            · exact ⟨rfl, rfl⟩
      · cases hstep
  | destroy p =>
      simp only [PromiseCopies.step] at hstep
      split at hstep
      · next pointer hp => exact h.destroy hp hstep
      · cases hstep
  | detach p answer => exact h.detach hfits hstep
  | setValue p =>
      simp only [PromiseCopies.step, Option.ite_none_right_eq_some, Option.some.injEq] at hstep
      rcases hstep with ⟨⟨hp, hcalled⟩, rfl⟩
      have hpos : 0 < s.promiseRef := h.counts.promise_pos (p := p) (by rw [hp]; rfl)
      have hcounts : Counts (s.setObject p .setting) :=
        h.counts.setObject (by rw [hp]; rfl) (by rw [hp]; rfl)
      exact ⟨h.base, h.turns.setValue (by rw [hp]; rfl) hcalled hpos,
        ⟨hcounts.promises, hcounts.references, hcounts.bounded, hcounts.deleted, hcounts.used⟩,
        h.noFault⟩
  | setValueStep p answer =>
      simp only [PromiseCopies.step, Option.ite_none_right_eq_some] at hstep
      exact h.setValueStep hstep.1 hfits hstep.2
  | attachOther =>
      simp only [PromiseCopies.step, Option.ite_none_right_eq_some] at hstep
      rcases hstep with ⟨hholder, hstep⟩
      have hlive : 0 < s.total := by
        have hle := Counts.counted_le s
        have hpromises := h.counts.promises
        unfold System.total at hle ⊢
        omega
      rw [System.access, if_neg (by simp [h.counts.live hlive])] at hstep
      cases hstep
      exact h.attachOther hlive hfits
  | detachOther =>
      simp only [PromiseCopies.step, Option.ite_none_right_eq_some] at hstep
      rcases hstep with ⟨hholder, hstep⟩
      have hothers : 0 < s.others := by
        rcases hholder with hmore | hone
        · omega
        · exact hone.1
      have hlive : 0 < s.total := by
        unfold System.total
        omega
      rw [System.access, if_neg (by simp [h.counts.live hlive])] at hstep
      cases hstep
      refine h.detachOther hothers ?_
      rcases hholder with hmore | hone
      · exact Or.inr hmore
      · exact Or.inl hone.2
  | setContinuation answer =>
      simp only [PromiseCopies.step, Option.ite_none_right_eq_some] at hstep
      exact h.setContinuation hstep.1 hfits hstep.2
  | runTask => exact h.runTask hstep

theorem initial (fs₀ : FutureState ε α K) (p₀ : π)
    (hbase : FutureState.Inv value func (FutureState.System.initial fs₀)) :
    Inv value func (System.initial fs₀ p₀) := by
  have hobject : ∀ p, (System.initial fs₀ p₀ : System π ε α K).object p =
      if p = p₀ then .idle .here else .absent := fun _ => rfl
  have hupdate : (System.initial fs₀ p₀ : System π ε α K).object =
      Function.update (fun _ => .absent) p₀ (.idle .here) := by
    funext p
    rw [hobject]
    by_cases hp : p = p₀
    · rw [hp, if_pos rfl, Function.update_self]
    · rw [if_neg hp, Function.update_of_ne hp]
  have hcount : ∀ f : Object π → Bool, f .absent = false → f (.idle .here) = true →
      tally f (System.initial fs₀ p₀ : System π ε α K).object = 1 := by
    intro f habsent hhere
    have hone := tally_update f (fun _ : π => Object.absent) p₀ (.idle .here)
    rw [habsent, hhere] at hone
    rw [hupdate]
    have hzero : tally f (fun _ : π => Object.absent) = 0 := by simp [tally, habsent]
    simpa [hzero] using hone
  have hrole : ∀ p, ((System.initial fs₀ p₀ : System π ε α K).object p).role = .none := by
    intro p
    rw [hobject]
    split <;> rfl
  have htotal : (System.initial fs₀ p₀ : System π ε α K).total = 1 :=
    hcount Object.refers rfl rfl
  refine ⟨hbase, ?_, ?_, rfl⟩
  · have hlast : ∀ p, ¬ (System.initial fs₀ p₀ : System π ε α K).Last p := by
      intro p hp
      unfold System.Last at hp
      rw [hrole] at hp
      exact (hp.resolve_left nofun).resolve_left nofun rfl
    refine ⟨fun _ => rfl, ?_, fun hno => absurd rfl hno, ?_, ?_, ?_, ?_, nofun⟩
    · intro p hp
      rw [hrole] at hp
      cases hp
    · intro p hp
      exact absurd hp (hlast p)
    · intro p q hp
      exact absurd hp (hlast p)
    · intro p hp
      exact absurd (Or.inr hp) (hlast p)
    · intro p hp
      exact absurd rfl hp
  · refine ⟨(hcount Object.counted rfl rfl).symm, htotal.symm, by omega, ?_, Or.inl rfl⟩
    rw [htotal]
    rfl

end Inv

/-! ## Whole runs -/

section

variable [DecidableEq π]

/-- The results of the setters: the value that is set, and the exception for a
broken promise. -/
def results (v : Try ε α) (brokenPromise : ε) : Option π → Try ε α
  | none => v
  | some _ => .error brokenPromise

/-- The result the promises leave behind. -/
def System.outcome (v : Try ε α) (brokenPromise : ε) (s : System π ε α K) : Try ε α :=
  if s.calledBy = none then .error brokenPromise else v

/-- No promise object refers to the shared state any more. -/
def System.Gone (s : System π ε α K) : Prop :=
  ∀ p, (s.object p).refers = false

instance (s : System π ε α K) : Decidable s.Gone :=
  inferInstanceAs (Decidable (∀ p, (s.object p).refers = false))

/-- What is promised to the users of promise copies: nothing goes wrong, the
continuation runs at most once and with the outcome, a result is the outcome,
there is one when the last promise has gone, and then a continuation that was
registered has run once the calls and tasks are over. -/
structure Kept (v : Try ε α) (brokenPromise : ε) (func : K) (s : System π ε α K) : Prop where
  noFault : s.fault = false
  atMostOnce : s.base.shared.invoked = [] ∨
    s.base.shared.invoked = [(some func, s.outcome v brokenPromise)]
  result : s.base.shared.fs.state.hasResult = true →
    s.base.shared.fs.tryValue = s.outcome v brokenPromise
  resolved : s.Gone → s.base.shared.fs.state.hasResult = true
  run : s.Gone → s.base.attacher = .returned → s.base.shared.pending = 0 →
    s.base.shared.invoked = [(some func, s.outcome v brokenPromise)]

variable {v : Try ε α} {brokenPromise : ε} {func : K} {s s' : System π ε α K}

namespace Inv

omit [DecidableEq π] in
/-- The setter that has stored its result is the one whose turn it was. -/
theorem outcome_eq (h : Inv (results v brokenPromise) func s) {i : Option π}
    (hi : (s.base.setter i).phase.Live) :
    results v brokenPromise i = s.outcome v brokenPromise := by
  have hstarted : s.base.setter i ≠ .check := by
    intro hcheck
    rw [hcheck] at hi
    simp [FutureState.Pc.phase, FutureState.Phase.Live] at hi
  unfold System.outcome
  cases i with
  | none =>
      rw [if_neg fun hno => hstarted (h.turns.uncalled hno)]
      rfl
  | some p =>
      rw [if_pos (h.turns.broken p (Or.inr hstarted))]
      rfl

omit [Fintype π] [DecidableEq π] in
theorem role_of_gone (hgone : s.Gone) (p : π) : (s.object p).role = .none := by
  have hp := hgone p
  cases hobject : s.object p <;> rw [hobject] at hp <;> first | rfl | cases hp

omit [DecidableEq π] in
/-- When no promise is left there is a result. -/
theorem hasResult_of_gone (h : Inv (results v brokenPromise) func s) (hgone : s.Gone) :
    s.base.shared.fs.state.hasResult = true := by
  have hzero : s.promiseRef = 0 := by
    rw [h.counts.promises]
    by_contra hne
    rcases exists_of_tally_pos (Nat.pos_of_ne_zero hne) with ⟨p, hp⟩
    have href := refers_of_counted hp
    rw [hgone p] at href
    exact Bool.noConfusion href
  rcases h.turns.resolved hzero with hresult | ⟨p, hp⟩
  · exact hresult
  · rw [role_of_gone hgone p] at hp
    rcases hp with hp | hp <;> cases hp

omit [DecidableEq π] in
/-- Everything that is promised. -/
theorem kept (h : Inv (results v brokenPromise) func s) :
    Kept v brokenPromise func s := by
  have hinvoked : s.base.shared.invoked = [] ∨
      s.base.shared.invoked = [(some func, s.outcome v brokenPromise)] := by
    rcases h.base.debt.invoked_once with hnone | ⟨i, hi, honce⟩
    · exact Or.inl hnone
    · rw [h.outcome_eq (Or.inr (Or.inr hi))] at honce
      exact Or.inr honce
  refine ⟨h.noFault, hinvoked, ?_, h.hasResult_of_gone, ?_⟩
  · intro hresult
    rcases h.base.race.result_iff.mp hresult with ⟨i, hwon⟩
    rw [h.base.race.stored i hwon.live]
    exact h.outcome_eq hwon.live
  · intro hgone hattacher hpending
    have hresult := h.hasResult_of_gone hgone
    have hcont : s.base.shared.fs.state.hasContinuation = true := by
      refine h.base.race.continuation_iff.mpr ?_
      rw [hattacher]
      exact Or.inr rfl
    have hdone : s.base.shared.fs.state = .done := by
      revert hresult hcont
      cases s.base.shared.fs.state <;> decide
    refine hinvoked.resolve_left ?_
    intro hnone
    rcases h.base.debt.owed hdone hpending hnone with howing | ⟨i, howing⟩
    · rw [hattacher] at howing
      cases howing
    · cases i with
      | none =>
          have hcalled : s.calledBy ≠ none := by
            intro hno
            rw [h.turns.uncalled hno] at howing
            cases howing
          rcases h.turns.called hcalled with ⟨p, hp⟩ | hreturned
          · rw [role_of_gone hgone p] at hp
            cases hp
          · rw [hreturned] at howing
            cases howing
      | some p =>
          have hstarted : s.base.setter (some p) ≠ .check := by
            intro hcheck
            rw [hcheck] at howing
            cases howing
          rcases h.turns.breaking p hstarted with hbreaking | hreturned
          · rw [role_of_gone hgone p] at hbreaking
            cases hbreaking
          · rw [hreturned] at howing
            cases howing

end Inv

/-! ## The end of a run -/

variable {value : Option π → Try ε α}

omit [Fintype π] in
/-- The shared state only changes by its own steps. -/
theorem base_of_step {l : Label π} (hstep : step value func s l = some s') :
    s'.base = s.base ∨ ∃ l', FutureState.step value func s.base l' = some s'.base := by
  have haccess : ∀ x, s.access (some x) = some s' → x.base = s.base → s'.base = s.base := by
    intro x hx hsame
    unfold System.access at hx
    split at hx <;> cases hx
    · rfl
    · exact hsame
  have hbase : ∀ l', baseStep value func s l' = some s' →
      s'.base = s.base ∨ ∃ l', FutureState.step value func s.base l' = some s'.base := by
    intro l' hl'
    rcases Option.bind_eq_some_iff.mp hl' with ⟨base, hstep', hx⟩
    unfold System.access at hx
    split at hx <;> cases hx
    · exact Or.inl rfl
    · exact Or.inr ⟨l', hstep'⟩
  have hcopy : ∀ p pointer, s.attachCopy p pointer = some s' → s'.base = s.base := by
    intro p pointer hcopy
    cases pointer with
    | here => exact haccess _ hcopy rfl
    | _ =>
        cases hcopy
        rfl
  have hdestroy : ∀ p next pointer, s.destroy p next pointer = some s' → s'.base = s.base := by
    intro p next pointer hdestroy
    cases pointer with
    | here =>
        refine haccess _ hdestroy ?_
        split <;> rfl
    | _ =>
        cases hdestroy
        rfl
  have hdetach : ∀ x : System π ε α K, x.detachOne.base = x.base := by
    intro x
    unfold System.detachOne
    split <;> rfl
  cases l with
  | newPromise p | setValue p =>
      simp only [step, Option.ite_none_right_eq_some, Option.some.injEq] at hstep
      rcases hstep with ⟨-, rfl⟩
      exact Or.inl rfl
  | copy p q =>
      simp only [step] at hstep
      split at hstep
      · exact Or.inl (hcopy _ _ hstep)
      · cases hstep
  | assign p q =>
      simp only [step] at hstep
      split at hstep
      · split at hstep
        · cases hstep
          exact Or.inl rfl
        · exact Or.inl (hdestroy _ _ _ hstep)
      · cases hstep
  | copyPointer p =>
      simp only [step] at hstep
      split at hstep
      · rcases Option.bind_eq_some_iff.mp hstep with ⟨pointer, -, hpointer⟩
        exact Or.inl (hcopy _ _ hpointer)
      · cases hstep
  | move p q | moveAssign p q =>
      simp only [step] at hstep
      split at hstep
      · cases hstep
        exact Or.inl rfl
      · cases hstep
  | destroy p =>
      simp only [step] at hstep
      split at hstep
      · exact Or.inl (hdestroy _ _ _ hstep)
      · cases hstep
  | detach p answer =>
      simp only [step, detachStep] at hstep
      split at hstep
      · exact Or.inl (haccess _ hstep rfl)
      · split at hstep
        · cases hstep
          exact Or.inl rfl
        · cases hstep
          exact Or.inl rfl
        · exact hbase _ hstep
      · exact Or.inl (haccess _ hstep (hdetach _))
      · cases hstep
  | setValueStep p answer =>
      simp only [step, Option.ite_none_right_eq_some] at hstep
      rcases hstep with ⟨-, hstep⟩
      split at hstep
      · cases hstep
        exact Or.inl rfl
      · cases hstep
        exact Or.inl rfl
      · exact hbase _ hstep
  | attachOther =>
      simp only [step, Option.ite_none_right_eq_some] at hstep
      exact Or.inl (haccess _ hstep.2 rfl)
  | detachOther =>
      simp only [step, Option.ite_none_right_eq_some] at hstep
      exact Or.inl (haccess _ hstep.2 (hdetach s))
  | setContinuation answer =>
      simp only [step, Option.ite_none_right_eq_some] at hstep
      exact hbase _ hstep.2
  | runTask => exact hbase _ hstep

/-- The parts of the invariant that the continuation needs to come to its end. -/
structure Ending (value : Option π → Try ε α) (func : K) (executor : Option Nat)
    (forceSched : Bool) (s : System π ε α K) : Prop where
  inv : Inv value func s
  wired : FutureState.Wired executor forceSched s.base

theorem Ending.step {executor : Option Nat} {forceSched : Bool} {l : Label π}
    (h : Ending value func executor forceSched s) (hfits : Fits s l)
    (hstep : (machine value func).step s l = some s') :
    Ending value func executor forceSched s' := by
  simp only [machine, h.inv.noFault, Bool.false_eq_true, if_false] at hstep
  refine ⟨h.inv.step hfits hstep, ?_⟩
  rcases base_of_step hstep with hsame | ⟨l', hl'⟩
  · rw [hsame]
    exact h.wired
  · exact h.wired.step hl'

/-- A step on the shared state by somebody who holds a reference. -/
theorem baseStep_eq (h : Inv value func s) (hothers : 0 < s.others)
    {l : FutureState.Label (Option π)} {base : FutureState.System (Option π) ε α K}
    (hbase : FutureState.step value func s.base l = some base) :
    ∃ s', baseStep value func s l = some s' ∧ s'.base = base ∧ s'.object = s.object ∧
      s'.calledBy = s.calledBy := by
  have hlive : s.deleted = false := by
    refine h.counts.live ?_
    unfold System.total
    omega
  have hnext : baseStep value func s l = some { s with
      base := base
      others := s.others + (base.shared.pending - s.base.shared.pending)
      attached := (s.attached + (base.shared.pending - s.base.shared.pending)) % 2 ^ 8 } := by
    rw [baseStep, hbase, Option.bind_some, System.access, if_neg (by simp [hlive])]
  exact ⟨_, hnext, rfl, rfl, rfl⟩

/-- Behind the last promise a registered continuation can be brought to its
end. -/
theorem Ending.progress {executor : Option Nat} {forceSched : Bool}
    (hforce : forceSched = true → executor ≠ none)
    (h : Ending value func executor forceSched s) (hstarted : s.base.attacher ≠ .check)
    (hgoal : ¬ (s.base.attacher = .returned ∧ s.base.shared.pending = 0)) :
    ∃ l s', Fits s l ∧ (machine value func).step s l = some s' ∧ s'.object = s.object ∧
      s'.calledBy = s.calledBy ∧ s'.base.attacher ≠ .check ∧
      s'.base.attacher.rank + s'.base.shared.pending <
        s.base.attacher.rank + s.base.shared.pending := by
  have hothers : 0 < s.others := by
    refine h.inv.counts.used.resolve_left ?_
    intro hunused
    simp only [System.unused, Bool.and_eq_true, Bool.or_eq_true, decide_eq_true_eq] at hunused
    exact hgoal ⟨hunused.1.resolve_left hstarted, hunused.2⟩
  have hmachine : ∀ l, (machine value func).step s l = PromiseCopies.step value func s l := by
    intro l
    simp [machine, h.inv.noFault]
  by_cases hattacher : s.base.attacher = .returned
  · -- the call is over, so a submitted task is left
    rcases Nat.exists_eq_succ_of_ne_zero fun hzero => hgoal ⟨hattacher, hzero⟩ with ⟨n, hn⟩
    have hbase : FutureState.step value func s.base .runTask =
        some { s.base with shared := { s.base.shared.invoke with pending := n } } := by
      simp [FutureState.step, hn]
    rcases baseStep_eq h.inv hothers hbase with
      ⟨s', hstep, hs', hobject, hcalled⟩
    refine ⟨.runTask, s', trivial, (hmachine _).trans hstep, hobject, hcalled, ?_, ?_⟩
    · rw [hs']
      exact hstarted
    · rw [hs', hn]
      exact Nat.add_lt_add_left (Nat.lt_succ_self n) _
  · have hnull : s.base.attacher ≠ .nullExecutor := fun hpc =>
      hforce (h.wired.attacher_null hpc).2 (h.wired.attacher_null hpc).1
    rcases FutureState.transferStep_progress FutureState.continuationSide
      (fun fs => { fs with continuation := some func }) s.base.shared ⟨false, false⟩ hattacher
      h.inv.base.race.attacher_not_failed hnull with ⟨sh, pc, hmove, hlt⟩
    have hbase : FutureState.step value func s.base (.setContinuation ⟨false, false⟩) =
        some { s.base with shared := sh, attacher := pc } := by
      simp [FutureState.step, FutureState.setContinuationStep, hmove]
    have hrefused : s.base.attacher.accepts ⟨false, false⟩ = false := by
      cases s.base.attacher <;> rfl
    have hpending := (FutureState.step_setContinuation hbase).2
    rw [hrefused] at hpending
    simp only [Bool.false_eq_true, if_false, Nat.add_zero] at hpending
    rcases baseStep_eq h.inv hothers hbase with
      ⟨s', hstep, hs', hobject, hcalled⟩
    refine ⟨.setContinuation ⟨false, false⟩, s', ?_, ?_, hobject, hcalled, ?_, ?_⟩
    · intro haccepts
      rw [hrefused] at haccepts
      exact Bool.noConfusion haccepts
    · rw [hmachine, PromiseCopies.step, if_pos fun hcheck => absurd hcheck hstarted]
      exact hstep
    · rw [hs']
      rintro rfl
      have hrank : s.base.attacher.rank ≤ 12 := by
        cases s.base.attacher <;> simp [FutureState.Pc.rank]
      rw [hpending] at hlt
      rw [show (FutureState.Pc.check).rank = 12 from rfl] at hlt
      omega
    · rw [hs']
      exact hlt

end

/-- A copy is overwritten in one thread while the other promise sets the value;
the continuation is registered behind the last destructor. -/
def overwrittenCopy (p q r : Fin 3) : List (Label (Fin 3)) :=
  let answer : FutureState.Answer := ⟨false, false⟩
  [.copy q p, .attachOther, .newPromise r, .setValue p, .setValueStep p answer, .assign q r,
    .setValueStep p answer, .detach q answer, .setValueStep p answer, .detach q answer,
    .setValueStep p answer, .copyPointer q, .setValueStep p answer, .destroy p, .detach p answer,
    .detach p answer] ++ List.replicate 7 (.setContinuation answer)

section

variable [DecidableEq π] (value : Option π → Try ε α) (func : K) {s : System π ε α K}

omit [Fintype π] in
/-- Copying a promise into objects that do not exist yet: all of them refer to
the shared state, which counts them. -/
theorem run_copies {p : π} {copies : List π} (hfault : s.fault = false)
    (hdeleted : s.deleted = false) (hp : s.object p = .idle .here)
    (hpromiseRef : s.promiseRef < 2 ^ 64) (hattached : s.attached < 2 ^ 8)
    (hnodup : copies.Nodup) (hfresh : ∀ c ∈ copies, s.object c = .absent) :
    ∃ t, (machine value func).run s (copies.map fun copy => .copy copy p) = some t ∧
      t.fault = false ∧ t.deleted = false ∧ t.base = s.base ∧
      (∀ o, t.object o = if o ∈ copies then .idle .here else s.object o) ∧
      t.promiseRef = (s.promiseRef + copies.length) % 2 ^ 64 ∧
      t.attached = (s.attached + copies.length) % 2 ^ 8 := by
  induction copies generalizing s with
  | nil =>
      exact ⟨s, rfl, hfault, hdeleted, rfl, fun o => by simp, (Nat.mod_eq_of_lt hpromiseRef).symm,
        (Nat.mod_eq_of_lt hattached).symm⟩
  | cons c copies ih =>
      rcases List.nodup_cons.mp hnodup with ⟨hc, hnodup⟩
      have hnone := hfresh c List.mem_cons_self
      have hpc : p ≠ c := by
        rintro rfl
        rw [hp] at hnone
        cases hnone
      let copied : System π ε α K := { s.setObject c (.idle .here) with
        promiseRef := (s.promiseRef + 1) % 2 ^ 64
        attached := (s.attached + 1) % 2 ^ 8 }
      have hstep : (machine value func).step s (.copy c p) = some copied := by
        simp [machine, hfault, step, hnone, hp, Object.source, System.attachCopy, System.access,
          hdeleted, copied]
      have hobject : ∀ o, copied.object o = if o = c then .idle .here else s.object o := by
        intro o
        simp [copied, System.setObject, Function.update_apply]
      have hfresh' : ∀ d ∈ copies, copied.object d = .absent := by
        intro d hd
        rw [hobject, if_neg (ne_of_mem_of_not_mem hd hc)]
        exact hfresh d (List.mem_cons_of_mem c hd)
      rcases ih (s := copied) hfault hdeleted (by rw [hobject, if_neg hpc]; exact hp)
        (Nat.mod_lt _ (by decide)) (Nat.mod_lt _ (by decide)) hnodup hfresh' with
        ⟨t, hrun, htfault, htdeleted, htbase, htobject, htpromiseRef, htattached⟩
      refine ⟨t, ?_, htfault, htdeleted, htbase, ?_, ?_, ?_⟩
      · rw [List.map_cons, Machine.run_cons_eq_some]
        exact ⟨copied, hstep, hrun⟩
      · intro o
        rw [htobject o, hobject o]
        by_cases ho : o = c
        · simp [ho]
        · simp [ho]
      · rw [htpromiseRef, List.length_cons, Nat.mod_add_mod]
        congr 1
        omega
      · rw [htattached, List.length_cons, Nat.mod_add_mod]
        congr 1
        omega

omit [Fintype π] in
/-- The destructor of a promise deletes the shared state when its counter has
one reference, whoever else still refers to it. -/
theorem run_lastReference {p q : π} (answer : FutureState.Answer) (hfault : s.fault = false)
    (hdeleted : s.deleted = false) (hp : s.object p = .idle .here) (hq : s.object q = .idle .here)
    (hne : q ≠ p) (hmany : 1 < s.promiseRef) (hattached : s.attached = 1) :
    ∃ t, (machine value func).run s
        [.destroy p, .detach p answer, .detach p answer, .destroy q] = some t ∧
      t.deleted = true ∧ t.base = s.base ∧ t.fault = true := by
  have hpos : s.promiseRef ≠ 0 := by omega
  have hstays : s.promiseRef ≠ 1 := by omega
  -- the call that deletes the shared state, and then the use of its address
  simp [Machine.run, machine, step, detachStep, hp, hq, hne, hfault, System.destroy,
    System.access, System.setObject, System.detachOne, hdeleted, hattached, hpos, hstays]

end

/-- A promise with 256 copies is destroyed, and its first copy is destroyed
after it. -/
def manyPromises (p q : Fin 257) : List (Label (Fin 257)) :=
  (List.finRange 257).tail.map (fun copy => .copy copy p) ++
    [.destroy p, .detach p ⟨false, false⟩, .detach p ⟨false, false⟩, .destroy q]

/-- With 256 copies the counter of a promise has come back to one. -/
theorem run_manyPromises :
    ∃ s, (machine (results (.value 7 : Try Unit Nat) ()) ()).run
        (System.initial (FutureState.configured none none false) (0 : Fin 257)) (manyPromises 0 1) =
          some s ∧
      s.deleted = true ∧ s.base.shared.fs.state.hasResult = false ∧ s.fault = true := by
  have hzero : (0 : Fin 257) ∉ (List.finRange 257).tail := fun h => mem_tail_finRange.mp h rfl
  have hone : (1 : Fin 257) ∈ (List.finRange 257).tail := mem_tail_finRange.mpr (by decide)
  have hlength : (List.finRange 257).tail.length = 256 := by
    rw [List.length_tail, List.length_finRange]
  rcases run_copies (results (.value 7 : Try Unit Nat) ()) ()
    (s := System.initial (FutureState.configured none none false) (0 : Fin 257)) (p := 0) rfl rfl
    rfl (by decide) (by decide) (List.nodup_finRange 257).tail
    (fun c hc => if_neg (mem_tail_finRange.mp hc)) with
    ⟨t, hrun, hfault, hdeleted, hbase, hobject, hpromiseRef, hattached⟩
  have hfirst : t.object 0 = .idle .here := by
    rw [hobject, if_neg hzero]
    rfl
  have hcopy : t.object 1 = .idle .here := by rw [hobject, if_pos hone]
  rw [hlength] at hpromiseRef hattached
  rcases run_lastReference (results (.value 7 : Try Unit Nat) ()) () ⟨false, false⟩ hfault hdeleted
    hfirst hcopy (by decide) (by rw [hpromiseRef]; decide) hattached with
    ⟨u, hlast, hgone, hsame, hfaults⟩
  refine ⟨u, machine _ _ |>.run_append hrun hlast, hgone, ?_, hfaults⟩
  rw [hsame, hbase]
  rfl

end PromiseCopies

end AsyncSimple
