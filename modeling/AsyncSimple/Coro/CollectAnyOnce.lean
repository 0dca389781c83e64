import AsyncSimple.Coro.CollectAnyCancel
import Mathlib.Data.Fintype.Option

/-!
# One continuation for {lit}`collectAny`

The tasks and the cancel handler are the parties of a count-down that starts one
above the number of tasks.  The first of them continues the coroutine, unless the
await did not suspend, in which case none of them runs.

Main results:

- Theorem {lit}`Inv.step`: the invariant is kept by every step.
- Theorem {lit}`collectAny_continues_once`: one continuation with the result of
  the first completion or the exception, in every run.
-/

namespace AsyncSimple

open Transition Signal

namespace CollectAny

variable {n : Nat} {ε : Type} {α : Fin n → Type}

/-! ## Program points -/

namespace TaskPc

/-- Value found by the decrement. -/
def oldCount : TaskPc → Option Int
  | .counted count | .emit count | .resume count | .finished count => some count
  | _ => none

/-- Value found by a task that is past the store of its result, if it stores
one. -/
def storedCount : TaskPc → Option Int
  | .emit count | .resume count | .finished count => some count
  | _ => none

/-- Value found by a task whose callback has ended. -/
def finishedCount : TaskPc → Option Int
  | .finished count => some count
  | _ => none

/-- Only the first completion stores a result and resumes. -/
def First (n : Nat) : TaskPc → Prop
  | .emit count | .resume count => count = n + 1
  | _ => True

theorem oldCount_of_storedCount {pc : TaskPc} {o : Int} (h : pc.storedCount = some o) :
    pc.oldCount = some o := by
  cases pc <;> simp_all [storedCount, oldCount]

theorem storedCount_of_finishedCount {pc : TaskPc} {o : Int} (h : pc.finishedCount = some o) :
    pc.storedCount = some o := by
  cases pc <;> simp_all [finishedCount, storedCount]

theorem ne_unstarted_of_oldCount {pc : TaskPc} {o : Int} (h : pc.oldCount = some o) :
    pc ≠ .unstarted := by
  rintro rfl
  cases h

end TaskPc

namespace HandlerPc

def oldCount : HandlerPc → Option Int
  | .counted count | .finished count => some count
  | .notRun => none

def finishedCount : HandlerPc → Option Int
  | .finished count => some count
  | _ => none

theorem oldCount_of_finishedCount {pc : HandlerPc} {o : Int} (h : pc.finishedCount = some o) :
    pc.oldCount = some o := by
  cases pc <;> simp_all [finishedCount, oldCount]

theorem ne_notRun_of_oldCount {pc : HandlerPc} {o : Int} (h : pc.oldCount = some o) :
    pc ≠ .notRun := by
  rintro rfl
  cases h

end HandlerPc

/-- First task that the loop has not started yet. -/
def MainPc.next (n : Nat) : MainPc → Nat
  | .loop i => i
  | .returned true => n
  | _ => 0

theorem MainPc.next_of_refused {main : MainPc} (h : main.Refused) : main.next n = 0 := by
  unfold MainPc.Refused at h
  split at h
  · rfl
  · rfl
  · exact h.elim

theorem MainPc.not_registered_of_refused {main : MainPc} (h : main.Refused) :
    ¬ main.Registered := by
  unfold MainPc.Refused at h
  split at h
  · exact id
  · exact id
  · exact h.elim

theorem MainPc.next_of_unsettled {main : MainPc} (h : ¬ main.Settled) : main.next n = 0 := by
  cases main with
  | loop i | notSuspended | returned value => exact (h trivial).elim
  | _ => rfl

/-- Value found by a party. -/
def State.oldCount (s : State n ε α) : Option (Fin n) → Option Int
  | none => s.handler.oldCount
  | some i => (s.task i).oldCount

/-- Who has made the coroutine continue, as the program points tell. -/
def State.Continued (s : State n ε α) : Continuer n → Prop
  | .awaitReady => s.main = .notSuspended
  | .awaitSuspend => s.main = .returned false
  | .party none => s.handler.finishedCount = some (n + 1 : Int)
  | .party (some i) => (s.task i).finishedCount = some (n + 1 : Int)

/-- What {lit}`await_resume` makes of {lit}`_result`. -/
def outcomeOf (form : Form) : Option (Σ i, Try ε (α i)) → Outcome n ε α
  | some ⟨i, value⟩ => .result i value
  | none =>
      match form with
      | .vector => .defaultResult
      | .variadic => .nullResult

/-! ## The invariant -/

/-- What holds of one call while its tasks and the emission run. -/
structure Inv (cfg : Config n ε α) (s : State n ε α) : Prop where
  slot : SlotInv cfg s.slot s.main s.coro s.handler
  throws : s.emittedBefore = true ∨ s.main.Refused ∧ cfg.earlierHandler = false →
    Doomed s.slot s.coro
  countDown : CountDown (n + 1) s.downs s.oldCount s.event.count
  unstarted : ∀ i : Fin n, s.task i = .unstarted ↔ s.main.next n ≤ i
  bound : s.main.next n ≤ n
  first : ∀ i, (s.task i).First n
  stored : ∀ r, s.result = some r ↔
    ∃ i, r = ⟨i, cfg.outcome i⟩ ∧ (s.task i).storedCount = some (n + 1 : Int)
  continues : Logged s.continues s.Continued
  suspended : s.coro = .suspended ↔ s.continues = []
  byHandler : s.handler.finishedCount = some (n + 1 : Int) → s.emittedBefore = true
  outcome : ∀ o, s.coro = .done o → o = .signalException ∨ o = outcomeOf cfg.form s.result
  dangling : s.dangling = false

namespace Inv

variable {cfg : Config n ε α} {s s' : State n ε α}

theorem initial (cfg : Config n ε α) : Inv cfg (State.initial cfg) where
  slot := by
    refine ⟨rfl, nofun, fun _ => rfl, by simp [State.initial, SlotConfig.slot], trivial, ?_,
      False.elim, ?_, trivial, trivial, trivial, ?_, ?_⟩
    · refine iff_of_false ?_ id
      simp only [State.initial, SlotConfig.slot]
      split <;> nofun
    · rintro (hnone | hv)
      · simp only [State.initial, SlotConfig.slot, Bool.or_eq_false_iff] at hnone
        simp [State.initial, SlotConfig.slot, hnone.2]
      · exact hv.elim
    · simp only [State.initial, SlotConfig.slot]
      rintro (hin | hv | hrun)
      · split at hin <;> cases hin
      · cases hv
      · exact (hrun rfl).elim
    · simp only [State.initial, SlotConfig.slot]
      split
      case isTrue hearlier => exact fun _ => hearlier
      case isFalse => nofun
  throws := by
    rintro (hbefore | ⟨hrefused, -⟩)
    · cases hbefore
    · exact hrefused.elim
  countDown := CountDown.initial (n + 1) fun p => by cases p <;> rfl
  unstarted := fun i => by simp [State.initial, MainPc.next]
  bound := Nat.zero_le n
  first := fun _ => trivial
  stored := fun r => by simp [State.initial, TaskPc.storedCount]
  continues := ⟨List.nodup_nil, fun c => by
    rcases c with _ | _ | _ | i <;>
      simp [State.initial, State.Continued, HandlerPc.finishedCount, TaskPc.finishedCount]⟩
  suspended := iff_of_true rfl rfl
  byHandler := nofun
  outcome := nofun
  dangling := rfl

theorem card_le (n : Nat) : Fintype.card (Option (Fin n)) ≤ n + 1 := by
  rw [Fintype.card_option, Fintype.card_fin]

/-- No party decrements the counter when the await did not suspend. -/
theorem not_refused_of_oldCount (h : Inv cfg s) {p : Option (Fin n)} {o : Int}
    (hp : s.oldCount p = some o) : ¬ s.main.Refused := by
  intro hrefused
  cases p with
  | none =>
      have hregistered := h.slot.cancel (.inr (.inr (HandlerPc.ne_notRun_of_oldCount hp)))
      exact MainPc.not_registered_of_refused hrefused hregistered
  | some i =>
      refine TaskPc.ne_unstarted_of_oldCount hp ((h.unstarted i).mpr ?_)
      rw [MainPc.next_of_refused hrefused]
      exact Nat.zero_le _

theorem oldCount_of_continued {p : Option (Fin n)} (hp : s.Continued (.party p)) :
    s.oldCount p = some (n + 1 : Int) := by
  cases p with
  | none => exact HandlerPc.oldCount_of_finishedCount hp
  | some i => exact TaskPc.oldCount_of_storedCount (TaskPc.storedCount_of_finishedCount hp)

/-- The continuation of a party excludes every other one. -/
theorem eq_party_of_continued (h : Inv cfg s) {p : Option (Fin n)} {c : Continuer n}
    (hp : s.oldCount p = some (n + 1 : Int)) (hc : s.Continued c) : c = .party p := by
  rcases c with _ | _ | q
  · have hmain : s.main = .notSuspended := hc
    exact (h.not_refused_of_oldCount hp (by rw [hmain]; trivial)).elim
  · have hmain : s.main = .returned false := hc
    exact (h.not_refused_of_oldCount hp (by rw [hmain]; trivial)).elim
  · rw [h.countDown.inj (oldCount_of_continued hc) hp]

theorem continued_unique (h : Inv cfg s) {c d : Continuer n} (hc : s.Continued c)
    (hd : s.Continued d) : c = d := by
  rcases d with _ | _ | p
  · rcases c with _ | _ | q
    · rfl
    · have hmain : s.main = .notSuspended := hd
      have hmain' : s.main = .returned false := hc
      rw [hmain] at hmain'
      cases hmain'
    · exact (h.eq_party_of_continued (oldCount_of_continued hc) hd).symm
  · rcases c with _ | _ | q
    · have hmain : s.main = .returned false := hd
      have hmain' : s.main = .notSuspended := hc
      rw [hmain] at hmain'
      cases hmain'
    · rfl
    · exact (h.eq_party_of_continued (oldCount_of_continued hc) hd).symm
  · exact h.eq_party_of_continued (oldCount_of_continued hd) hc

/-- While the party that came first has not ended, the coroutine is suspended. -/
theorem continues_nil (h : Inv cfg s) {p : Option (Fin n)}
    (hp : s.oldCount p = some (n + 1 : Int)) (hnot : ¬ s.Continued (.party p)) :
    s.continues = [] := by
  rw [h.continues.eq_nil_iff]
  intro c hc
  rw [h.eq_party_of_continued hp hc] at hc
  exact hnot hc

theorem access_eq (h : Inv cfg s) (hcontinues : s.continues = []) : s.access = s := by
  have hdangling := h.dangling
  cases s
  simp_all [State.access]

/-- The coroutine does not continue before the await is decided. -/
theorem suspended_of_unsettled (h : Inv cfg s) (hmain : ¬ s.main.Settled) :
    s.coro = .suspended := by
  rw [h.suspended, h.continues.eq_nil_iff]
  have hnext : s.main.next n = 0 ∧ ¬ s.main.Registered := by
    cases hm : s.main with
    | loop i | notSuspended | returned value =>
        rw [hm] at hmain
        exact (hmain trivial).elim
    | _ => exact ⟨rfl, id⟩
  have hunstarted : ∀ i, s.task i = .unstarted := fun i =>
    (h.unstarted i).mpr (by rw [hnext.1]; exact Nat.zero_le _)
  intro c hc
  rcases c with _ | _ | _ | i
  · have hm : s.main = .notSuspended := hc
    rw [hm] at hmain
    exact hmain trivial
  · have hm : s.main = .returned false := hc
    rw [hm] at hmain
    exact hmain trivial
  · have hrun := HandlerPc.ne_notRun_of_oldCount (oldCount_of_continued hc)
    exact hnext.2 (h.slot.cancel (.inr (.inr hrun)))
  · have hfinished : (s.task i).finishedCount = some (n + 1 : Int) := hc
    rw [hunstarted i] at hfinished
    cases hfinished

/-! ### Steps of the callbacks -/

/-- A task moves and the counter, the result and the continuations stay. -/
theorem move (h : Inv cfg s) {i : Fin n} {pc : TaskPc} {main : MainPc}
    (hslot : SlotInv cfg s.slot main s.coro s.handler)
    (hrefused : main.Refused ↔ s.main.Refused)
    (hfirst : pc.First n) (hold : pc.oldCount = (s.task i).oldCount)
    (hstored : pc.storedCount = some (n + 1 : Int) ↔
      (s.task i).storedCount = some (n + 1 : Int))
    (hfinished : pc.finishedCount = some (n + 1 : Int) ↔
      (s.task i).finishedCount = some (n + 1 : Int))
    (hunstarted : ∀ j : Fin n, Function.update s.task i pc j = .unstarted ↔ main.next n ≤ j)
    (hbound : main.next n ≤ n)
    (hready : main = .notSuspended ↔ s.main = .notSuspended)
    (hreturned : main = .returned false ↔ s.main = .returned false) :
    Inv cfg ((s.setTask i pc).setMain main) := by
  refine ⟨hslot, ?_, h.countDown.congr fun p => ?_, hunstarted, hbound,
    forall_update hfirst h.first, fun r => ?_, h.continues.congr fun c => ?_, h.suspended,
    h.byHandler, h.outcome, h.dangling⟩
  · rintro (hbefore | ⟨hr, hearlier⟩)
    · exact h.throws (.inl hbefore)
    · exact h.throws (.inr ⟨hrefused.mp hr, hearlier⟩)
  · cases p with
    | none => rfl
    | some j => exact apply_update_of_eq hold j
  · refine (h.stored r).trans (exists_congr fun j => and_congr_right fun _ => ?_)
    exact (iff_update_of_iff (p := fun pc : TaskPc => pc.storedCount = some (n + 1 : Int)) hstored
      j).symm
  · rcases c with _ | _ | _ | j
    · exact hready
    · exact hreturned
    · exact Iff.rfl
    · exact iff_update_of_iff (p := fun pc : TaskPc => pc.finishedCount = some (n + 1 : Int))
        hfinished j

theorem update_unstarted (h : Inv cfg s) {i : Fin n} {pc : TaskPc} (hi : s.task i ≠ .unstarted)
    (hpc : pc ≠ .unstarted) (j : Fin n) :
    Function.update s.task i pc j = .unstarted ↔ s.main.next n ≤ j := by
  rw [← h.unstarted j]
  by_cases hj : j = i
  · subst hj
    simp [hi, hpc]
  · rw [Function.update_of_ne hj]

/-- A started task moves without being noticed. -/
theorem setTask (h : Inv cfg s) {i : Fin n} {pc : TaskPc} (hi : s.task i ≠ .unstarted)
    (hpc : pc ≠ .unstarted) (hfirst : pc.First n) (hold : pc.oldCount = (s.task i).oldCount)
    (hstored : pc.storedCount = some (n + 1 : Int) ↔
      (s.task i).storedCount = some (n + 1 : Int))
    (hfinished : pc.finishedCount = some (n + 1 : Int) ↔
      (s.task i).finishedCount = some (n + 1 : Int)) : Inv cfg (s.setTask i pc) :=
  h.move h.slot Iff.rfl hfirst hold hstored hfinished (h.update_unstarted hi hpc) h.bound Iff.rfl
    Iff.rfl

theorem down (h : Inv cfg s) {i : Fin n} (hi : s.task i = .down) :
    Inv cfg { s.setTask i (.counted s.event.count) with
      event := s.event.downCount.2
      downs := s.downs ++ [some i] } := by
  have hold : s.oldCount (some i) = none := by
    simp [State.oldCount, hi, TaskPc.oldCount]
  have hne : s.task i ≠ .unstarted := by simp [hi]
  refine ⟨h.slot, h.throws, (h.countDown.down hold).congr fun p => ?_,
    h.update_unstarted hne nofun, h.bound, forall_update trivial h.first, fun r => ?_,
    h.continues.congr fun c => ?_, h.suspended, h.byHandler, h.outcome, h.dangling⟩
  · cases p with
    | none => rfl
    | some j =>
        by_cases hj : j = i
        · subst hj
          simp [State.oldCount, State.setTask, TaskPc.oldCount]
        · simp [State.oldCount, State.setTask, hj]
  · refine (h.stored r).trans (exists_congr fun j => and_congr_right fun _ => ?_)
    rw [State.setTask, apply_update_of_eq (f := TaskPc.storedCount) (by rw [hi]; rfl)]
  · rcases c with _ | _ | _ | j
    · exact Iff.rfl
    · exact Iff.rfl
    · exact Iff.rfl
    · simp only [State.Continued, State.setTask]
      rw [apply_update_of_eq (f := TaskPc.finishedCount) (by rw [hi]; rfl)]

/-- The first completion stores its result. -/
theorem store (h : Inv cfg s) {i : Fin n} (hi : s.task i = .counted (n + 1)) :
    Inv cfg { s.setTask i (.emit (n + 1)) with result := some ⟨i, cfg.outcome i⟩ } := by
  have hold : s.oldCount (some i) = some (n + 1 : Int) := by
    simp [State.oldCount, hi, TaskPc.oldCount]
  have hne : s.task i ≠ .unstarted := by simp [hi]
  have hcontinues : s.continues = [] := h.continues_nil hold (by
    simp [State.Continued, hi, TaskPc.finishedCount])
  have hsuspended := h.suspended.mpr hcontinues
  refine ⟨h.slot, h.throws, h.countDown.congr fun p => ?_, h.update_unstarted hne nofun, h.bound,
    forall_update rfl h.first, fun r => ?_, h.continues.congr fun c => ?_, h.suspended,
    h.byHandler, ?_, h.dangling⟩
  · cases p with
    | none => rfl
    | some j => exact apply_update_of_eq (f := TaskPc.oldCount) (by rw [hi]; rfl) j
  · constructor
    · intro hr
      refine ⟨i, (Option.some.inj hr).symm, ?_⟩
      simp [State.setTask, TaskPc.storedCount]
    · rintro ⟨j, rfl, hj⟩
      -- only the task that came first stores a result
      have hji : j = i := by
        by_contra hne'
        simp only [State.setTask, Function.update_of_ne hne'] at hj
        have hcount : s.oldCount (some j) = some (n + 1 : Int) := TaskPc.oldCount_of_storedCount hj
        exact hne' (Option.some.inj (h.countDown.inj hcount hold))
      rw [hji]
  · rcases c with _ | _ | _ | j
    · exact Iff.rfl
    · exact Iff.rfl
    · exact Iff.rfl
    · simp only [State.Continued, State.setTask]
      rw [apply_update_of_eq (f := TaskPc.finishedCount) (by rw [hi]; rfl)]
  · intro o ho
    have hdone : s.coro = .done o := ho
    rw [hsuspended] at hdone
    cases hdone

/-! ### Continuations -/

/-- The coroutine continues: {lit}`s` is the state without the continuation. -/
theorem continueBy {who : Continuer n} (hslot : SlotInv cfg s.slot s.main .suspended s.handler)
    (hcoro : s.coro = .suspended) (hcontinues : s.continues = [])
    (hcountDown : CountDown (n + 1) s.downs s.oldCount s.event.count)
    (hunstarted : ∀ i : Fin n, s.task i = .unstarted ↔ s.main.next n ≤ i)
    (hbound : s.main.next n ≤ n) (hfirst : ∀ i, (s.task i).First n)
    (hstored : ∀ r, s.result = some r ↔
      ∃ i, r = ⟨i, cfg.outcome i⟩ ∧ (s.task i).storedCount = some (n + 1 : Int))
    (hcontinued : ∀ c, s.Continued c ↔ c = who)
    (hhandler : s.handler.finishedCount = some (n + 1 : Int) → s.slot.visit.reached = true)
    (hdangling : s.dangling = false) : Inv cfg (s.continueBy cfg who) := by
  have heq : s.continueBy cfg who = { s with
      coro := CoroPc.start cfg.hasSlot
      emittedBefore := s.slot.visit.reached
      continues := [who] } := by
    simp [State.continueBy, hcoro, hcontinues, CoroPc.start]
  have hstart : (CoroPc.start cfg.hasSlot : CoroPc n ε α).Knows s.slot := by
    unfold CoroPc.start
    split <;> trivial
  rw [heq]
  refine ⟨hslot.setCoro hstart, Doomed.start hslot, hcountDown, hunstarted, hbound, hfirst,
    hstored, ⟨List.nodup_singleton who, fun c => ?_⟩, ?_, hhandler, ?_, hdangling⟩
  · rw [List.mem_singleton]
    exact (hcontinued c).symm
  · refine iff_of_false ?_ (by simp)
    simp only [CoroPc.start]
    split <;> simp
  · intro o ho
    simp only [CoroPc.start] at ho
    split at ho <;> cases ho

/-- The first completion resumes the coroutine. -/
theorem resume (h : Inv cfg s) {i : Fin n} {count : Int} (hi : s.task i = .resume count) :
    Inv cfg ((s.setTask i (.finished count)).continueBy cfg (.party (some i))) := by
  have hcount : count = n + 1 := by
    have hfirst := h.first i
    rwa [hi] at hfirst
  subst hcount
  have hold : s.oldCount (some i) = some (n + 1 : Int) := by
    simp [State.oldCount, hi, TaskPc.oldCount]
  have hne : s.task i ≠ .unstarted := by simp [hi]
  have hcontinues : s.continues = [] := h.continues_nil hold (by
    simp [State.Continued, hi, TaskPc.finishedCount])
  have hsuspended := h.suspended.mpr hcontinues
  have hslot := h.slot
  rw [hsuspended] at hslot
  have hnone := h.continues.eq_nil_iff.mp hcontinues
  refine continueBy hslot hsuspended hcontinues (h.countDown.congr fun p => ?_)
    (h.update_unstarted hne nofun) h.bound (forall_update trivial h.first) (fun r => ?_)
    (fun c => ?_) (fun hhandler => (hnone (.party none) hhandler).elim) h.dangling
  · cases p with
    | none => rfl
    | some j => exact apply_update_of_eq (f := TaskPc.oldCount) (by rw [hi]; rfl) j
  · refine (h.stored r).trans (exists_congr fun j => and_congr_right fun _ => ?_)
    rw [State.setTask, apply_update_of_eq (f := TaskPc.storedCount) (by rw [hi]; rfl)]
  · have hother : ∀ c, c ≠ .party (some i) →
        ((s.setTask i (.finished (n + 1))).Continued c ↔ s.Continued c) := by
      rintro (_ | _ | _ | j) hc
      · exact Iff.rfl
      · exact Iff.rfl
      · exact Iff.rfl
      · have hj : j ≠ i := fun hj => hc (by rw [hj])
        simp [State.Continued, State.setTask, hj]
    by_cases hc : c = .party (some i)
    · subst hc
      simp [State.Continued, State.setTask, TaskPc.finishedCount]
    · rw [hother c hc]
      exact iff_of_false (hnone c) hc

theorem step_task (h : Inv cfg s) {i : Fin n} (hstep : taskStep cfg s i = some s') :
    Inv cfg s' := by
  unfold taskStep at hstep
  split at hstep
  case h_1 | h_2 => cases hstep
  case h_3 hi =>
    cases hstep
    refine h.setTask (by simp [hi]) nofun trivial (by rw [hi]; rfl) ?_ ?_ <;> rw [hi] <;> rfl
  case h_4 hi =>
    cases hstep
    exact h.down hi
  case h_5 count hi =>
    have hold : s.oldCount (some i) = some count := by
      simp [State.oldCount, hi, TaskPc.oldCount]
    have hnot : ¬ s.Continued (.party (some i)) := by
      simp [State.Continued, hi, TaskPc.finishedCount]
    split at hstep
    case isTrue hcount =>
      cases hstep
      subst hcount
      rw [h.access_eq (h.continues_nil hold hnot)]
      exact h.store hi
    case isFalse hcount =>
      cases hstep
      refine h.setTask (by simp [hi]) nofun trivial (by rw [hi]; rfl) ?_ ?_ <;> rw [hi] <;>
        simp [TaskPc.storedCount, TaskPc.finishedCount, hcount]
  case h_6 count hi =>
    cases hstep
    have hcount : count = n + 1 := by
      have hfirst := h.first i
      rwa [hi] at hfirst
    have hold : s.oldCount (some i) = some (n + 1 : Int) := by
      simp [State.oldCount, hi, TaskPc.oldCount, hcount]
    have hnot : ¬ s.Continued (.party (some i)) := by
      simp [State.Continued, hi, TaskPc.finishedCount]
    rw [h.access_eq (h.continues_nil hold hnot)]
    refine h.setTask (by simp [hi]) nofun hcount (by rw [hi]; rfl) ?_ ?_ <;> rw [hi] <;> rfl
  case h_7 count hi =>
    cases hstep
    exact h.resume hi

/-! ### Steps of the emission -/

theorem setSlot (h : Inv cfg s) {slot : TerminateSlot Handler Unit}
    (hslot : SlotInv cfg slot s.main s.coro s.handler)
    (hcell : slot.cell = s.slot.cell ∨ slot.cell = .emittedTag)
    (hstate : s.slot.state = true → slot.state = true) : Inv cfg { s with slot := slot } :=
  ⟨hslot, fun hwhy => (h.throws hwhy).emission hcell hstate, h.countDown, h.unstarted, h.bound,
    h.first, h.stored, h.continues, h.suspended, h.byHandler, h.outcome, h.dangling⟩

/-- The cancel handler decrements the counter. -/
theorem handler_counted (h : Inv cfg s) (hv : s.slot.visit = .call (.handler .cancel))
    (hrun : s.handler = .notRun) :
    Inv cfg { s with
      handler := .counted s.event.count
      event := s.event.downCount.2
      downs := s.downs ++ [none] } := by
  have hold : s.oldCount none = none := by
    simp [State.oldCount, hrun, HandlerPc.oldCount]
  refine ⟨h.slot.counted hv, h.throws, (h.countDown.down hold).congr fun p => ?_, h.unstarted,
    h.bound, h.first, h.stored, h.continues.congr fun c => ?_, h.suspended, nofun, h.outcome,
    h.dangling⟩
  · cases p with
    | none => simp [State.oldCount, HandlerPc.oldCount]
    | some j => simp [State.oldCount]
  · rcases c with _ | _ | _ | j
    · exact Iff.rfl
    · exact Iff.rfl
    · simp [State.Continued, hrun, HandlerPc.finishedCount]
    · exact Iff.rfl

/-- The cancel handler returns; it resumes the coroutine when it came first. -/
theorem handler_finished (h : Inv cfg s) {count : Int}
    (hv : s.slot.visit = .call (.handler .cancel)) (hrun : s.handler = .counted count) :
    Inv cfg (if count = n + 1 then
      State.continueBy cfg { s with
        handler := .finished count
        slot := { s.slot with visit := .passed true } } (.party none)
      else { s with
        handler := .finished count
        slot := { s.slot with visit := .passed true } }) := by
  have hold : s.oldCount none = some count := by
    simp [State.oldCount, hrun, HandlerPc.oldCount]
  have hregistered := h.slot.cancel (.inr (.inl hv))
  have hslot : SlotInv cfg { s.slot with visit := .passed true } s.main s.coro
      (.finished count) := h.slot.passed hv rfl fun _ => hregistered
  have hcountDown : CountDown (n + 1) s.downs
      (State.oldCount { s with
        handler := .finished count
        slot := { s.slot with visit := .passed true } }) s.event.count := by
    refine h.countDown.congr fun p => ?_
    cases p with
    | none => exact hold.symm
    | some j => rfl
  split
  case isTrue hcount =>
    subst hcount
    have hnot : ¬ s.Continued (.party none) := by
      simp [State.Continued, hrun, HandlerPc.finishedCount]
    have hcontinues := h.continues_nil hold hnot
    have hsuspended := h.suspended.mpr hcontinues
    have hnone := h.continues.eq_nil_iff.mp hcontinues
    rw [hsuspended] at hslot
    refine continueBy hslot hsuspended hcontinues hcountDown h.unstarted h.bound h.first h.stored
      (fun c => ?_) (fun _ => rfl) h.dangling
    rcases c with _ | _ | _ | j
    · exact iff_of_false (hnone .awaitReady) nofun
    · exact iff_of_false (hnone .awaitSuspend) nofun
    · simp [State.Continued, HandlerPc.finishedCount]
    · exact iff_of_false (hnone (.party (some j))) nofun
  case isFalse hcount =>
    refine ⟨hslot, fun hwhy => (h.throws hwhy).emission (.inl rfl) id, hcountDown, h.unstarted,
      h.bound, h.first, h.stored, h.continues.congr fun c => ?_, h.suspended, ?_, h.outcome,
      h.dangling⟩
    · rcases c with _ | _ | _ | j
      · exact Iff.rfl
      · exact Iff.rfl
      · simp [State.Continued, hrun, HandlerPc.finishedCount, hcount]
      · exact Iff.rfl
    · simp [HandlerPc.finishedCount, hcount]

theorem step_emission (h : Inv cfg s) (hstep : emissionStep cfg s = some s') : Inv cfg s' := by
  have hknows := h.slot.handlerKnows
  unfold emissionStep at hstep
  split at hstep
  case h_1 child found hv =>
    cases hstep
    exact h.setSlot (h.slot.transfer hv) (.inl rfl) id
  case h_2 hv =>
    split at hstep
    case h_1 hrun =>
      cases hstep
      exact h.handler_counted hv hrun
    case h_2 count hrun =>
      cases hstep
      exact h.handler_finished hv hrun
    case h_3 => cases hstep
  case h_3 taken hother hv =>
    cases hstep
    have hrun : s.handler = .notRun := by
      cases hhandler : s.handler with
      | notRun => rfl
      | counted count =>
          rw [hhandler, HandlerPc.Knows, hv] at hknows
          exact (hother (VisitPc.call.inj hknows)).elim
      | finished count =>
          rw [hhandler, HandlerPc.Knows, hv] at hknows
          cases hknows
    refine h.setSlot (h.slot.passed hv ?_ ?_) (.inl rfl) id
    · rw [hrun]
      trivial
    · exact fun hne => (hne hrun).elim
  case h_4 =>
    rcases Option.map_eq_some_iff.mp hstep with ⟨slot, hvisit, rfl⟩
    rcases TerminateSlot.visitStep_frame hvisit with ⟨hstate, -, hcell⟩
    exact h.setSlot (h.slot.visitStep hvisit) hcell (hstate.trans ·)

theorem step_emits (h : Inv cfg s) (hopen : cfg.hasSlot = true ∧ cfg.filter = true)
    {slot : TerminateSlot Handler Unit} (hemits : s.slot.emits = some slot) :
    Inv cfg { s with slot := slot } := by
  rcases TerminateSlot.emits_frame hemits with ⟨hcell, hstate, -⟩
  exact h.setSlot (h.slot.emits hopen hemits) (.inl hcell) fun _ => hstate

/-! ### Steps of the thread that suspends -/

/-- The thread that suspends goes on before it starts a task. -/
theorem setMain (h : Inv cfg s) {slot : TerminateSlot Handler Unit} {main : MainPc}
    (hunsettled : ¬ s.main.Settled) (hslot : SlotInv cfg slot main .suspended s.handler)
    (hrefused : ¬ main.Refused) (hnext : main.next n = 0) :
    Inv cfg { s with slot := slot, main := main } := by
  have hsuspended := h.suspended_of_unsettled hunsettled
  have hnone := h.continues.eq_nil_iff.mp (h.suspended.mp hsuspended)
  refine ⟨by rw [hsuspended]; exact hslot, ?_, h.countDown, fun i => ?_, ?_, h.first, h.stored,
    h.continues.congr fun c => ?_, h.suspended, h.byHandler, h.outcome, h.dangling⟩
  · rintro (hbefore | ⟨hr, -⟩)
    · have hthrows := (h.throws (.inl hbefore)).throws
      rw [hsuspended] at hthrows
      exact hthrows.elim
    · exact (hrefused hr).elim
  · rw [h.unstarted i, MainPc.next_of_unsettled hunsettled]
    simp [hnext]
  · simp [hnext]
  · rcases c with _ | _ | _ | j
    · refine iff_of_false (fun hm => hrefused ?_) (hnone .awaitReady)
      have hmain : main = .notSuspended := hm
      rw [hmain]
      trivial
    · refine iff_of_false (fun hm => hrefused ?_) (hnone .awaitSuspend)
      have hmain : main = .returned false := hm
      rw [hmain]
      trivial
    · exact Iff.rfl
    · exact Iff.rfl

/-- The await does not suspend. -/
theorem refuse (h : Inv cfg s) {slot : TerminateSlot Handler Unit} {main : MainPc}
    {who : Continuer n} (hunsettled : ¬ s.main.Settled)
    (hslot : SlotInv cfg slot main .suspended s.handler)
    (hwho : main = .notSuspended ∧ who = .awaitReady ∨
      main = .returned false ∧ who = .awaitSuspend) :
    Inv cfg (State.continueBy cfg { s with slot := slot, main := main } who) := by
  have hsuspended := h.suspended_of_unsettled hunsettled
  have hcontinues := h.suspended.mp hsuspended
  have hnone := h.continues.eq_nil_iff.mp hcontinues
  have hnext : main.next n = 0 := by
    rcases hwho with ⟨rfl, -⟩ | ⟨rfl, -⟩ <;> rfl
  refine continueBy hslot hsuspended hcontinues h.countDown (fun i => ?_) (by simp [hnext]) h.first
    h.stored (fun c => ?_) (fun hhandler => (hnone (.party none) hhandler).elim) h.dangling
  · rw [h.unstarted i, MainPc.next_of_unsettled hunsettled]
    simp [hnext]
  · rcases hwho with ⟨rfl, rfl⟩ | ⟨rfl, rfl⟩ <;> rcases c with _ | _ | _ | j
    · simp [State.Continued]
    · simp [State.Continued]
    · exact iff_of_false (hnone (.party none)) nofun
    · exact iff_of_false (hnone (.party (some j))) nofun
    · simp [State.Continued]
    · simp [State.Continued]
    · exact iff_of_false (hnone (.party none)) nofun
    · exact iff_of_false (hnone (.party (some j))) nofun

/-- {lit}`await_suspend` returns after the loop. -/
theorem returned (h : Inv cfg s) (hmain : s.main = .loop n) :
    Inv cfg (s.setMain (.returned true)) := by
  have hknows := h.slot.mainKnows
  rw [hmain] at hknows
  have hreturned : MainPc.Knows cfg.hasSlot s.slot (.returned true) := hknows
  refine ⟨h.slot.setMain hreturned fun _ => trivial, ?_, h.countDown, fun i => ?_, le_rfl, h.first,
    h.stored, h.continues.congr fun c => ?_, h.suspended, h.byHandler, h.outcome, h.dangling⟩
  · rintro (hbefore | ⟨hrefused, -⟩)
    · exact h.throws (.inl hbefore)
    · exact hrefused.elim
  · have hi := h.unstarted i
    rwa [hmain] at hi
  · rcases c with _ | _ | _ | j
    · simp [State.Continued, State.setMain, hmain]
    · simp [State.Continued, State.setMain, hmain]
    · exact Iff.rfl
    · exact Iff.rfl

/-- A step of {lit}`emplace`. -/
theorem step_emplace (h : Inv cfg s) {pc : CallPc Handler} (hmain : s.main = .emplace pc)
    (hstep : mainStep cfg s = some s') : Inv cfg s' := by
  have hunsettled : ¬ s.main.Settled := by rw [hmain]; exact id
  have hslot := h.slot
  rw [h.suspended_of_unsettled hunsettled, hmain] at hslot
  have hafter := hslot.emplace
  simp only [mainStep, hmain] at hstep
  cases hnext : (s.slot.callStep pc).2 with
  | «at» pc' =>
      rw [hnext] at hafter hstep
      cases hstep
      exact h.setMain hunsettled hafter id rfl
  | returns value =>
      cases value with
      | true =>
          rw [hnext] at hafter hstep
          cases hstep
          exact h.setMain hunsettled hafter id rfl
      | false =>
          rw [hnext] at hafter hstep
          cases hstep
          exact h.refuse hunsettled hafter (.inr ⟨rfl, rfl⟩)
  | aborts =>
      rw [hnext] at hafter
      exact hafter.mainKnows.elim

theorem step_main (h : Inv cfg s) (hstep : mainStep cfg s = some s') : Inv cfg s' := by
  have hunsettled := h.suspended_of_unsettled
  cases hmain : s.main with
  | notSuspended | returned value | aborted =>
      simp only [mainStep, hmain] at hstep
      cases hstep
  | ready =>
      have hun : ¬ s.main.Settled := by rw [hmain]; exact id
      have hslot := h.slot
      rw [hunsettled hun, hmain] at hslot
      simp only [mainStep, hmain] at hstep
      split at hstep
      case isTrue hcanceled =>
        cases hstep
        have hstate : s.slot.state = true := by
          simp only [TerminateSlot.canceled, Bool.and_eq_true] at hcanceled
          exact hcanceled.2.1
        exact h.refuse hun (hslot.setMain hstate id) (.inl ⟨rfl, rfl⟩)
      case isFalse =>
        cases hstep
        exact h.setMain hun (hslot.setMain trivial id) id rfl
  | chain =>
      have hun : ¬ s.main.Settled := by rw [hmain]; exact id
      have hslot := h.slot
      rw [hunsettled hun, hmain] at hslot
      simp only [mainStep, hmain] at hstep
      split at hstep
      case isTrue =>
        cases hstep
        have hlookup : SlotInv cfg s.slot (.emplace (.emplaceLookup .cancel))
            (.suspended : CoroPc n ε α) s.handler := hslot.setMain trivial id
        exact h.setMain hun (hlookup.setChained (some ())) id rfl
      case isFalse hno =>
        cases hstep
        have hloop : MainPc.Knows cfg.hasSlot s.slot (.loop 0) := fun hhas => (hno hhas).elim
        exact h.setMain hun (hslot.setMain hloop False.elim) id rfl
  | emplace pc => exact h.step_emplace hmain hstep
  | loop i =>
      have hknows := h.slot.mainKnows
      have hbound := h.bound
      rw [hmain] at hknows hbound
      simp only [mainStep, hmain] at hstep
      split at hstep
      case isTrue hlt =>
        cases hstep
        have hi : s.task ⟨i, hlt⟩ = .unstarted :=
          (h.unstarted ⟨i, hlt⟩).mpr (by rw [hmain]; exact le_rfl)
        have hloop : MainPc.Knows cfg.hasSlot s.slot (.loop (i + 1)) := hknows
        refine h.move (h.slot.setMain hloop fun _ => trivial) (by rw [hmain]; rfl) trivial
          (by rw [hi]; rfl) (by rw [hi]; rfl) (by rw [hi]; rfl) (fun j => ?_) hlt
          (by simp [hmain]) (by simp [hmain])
        by_cases hj : j = ⟨i, hlt⟩
        · subst hj
          simp [MainPc.next]
        · rw [Function.update_of_ne hj, h.unstarted j, hmain]
          have hne : (j : Nat) ≠ i := fun heq => hj (Fin.ext heq)
          simp only [MainPc.next]
          omega
      case isFalse hge =>
        cases hstep
        have hin : i = n := Nat.le_antisymm hbound (Nat.le_of_not_lt hge)
        exact h.returned (hin ▸ hmain)

/-! ### Steps of {lit}`await_resume` -/

theorem setCoro (h : Inv cfg s) {slot : TerminateSlot Handler Unit} {coro : CoroPc n ε α}
    (hslot : SlotInv cfg slot s.main coro s.handler)
    (hthrows : Doomed s.slot s.coro → Doomed slot coro)
    (hbefore : s.coro ≠ .suspended) (hafter : coro ≠ .suspended)
    (houtcome : ∀ o, coro = .done o → o = .signalException ∨ o = outcomeOf cfg.form s.result) :
    Inv cfg { s with slot := slot, coro := coro } :=
  ⟨hslot, fun hwhy => hthrows (h.throws hwhy), h.countDown, h.unstarted, h.bound, h.first,
    h.stored, h.continues, iff_of_false hafter fun hnil => hbefore (h.suspended.mpr hnil),
    h.byHandler, houtcome, h.dangling⟩

theorem step_coro (h : Inv cfg s) (hstep : coroStep cfg s = some s') : Inv cfg s' := by
  have hsettled : s.coro ≠ .suspended → s.main.Settled := fun hcoro =>
    by_contra fun hmain => hcoro (h.suspended_of_unsettled hmain)
  cases hcoro : s.coro with
  | suspended | done o | aborted =>
      simp only [coroStep, hcoro] at hstep
      cases hstep
  | clear pc =>
      have hbefore : s.coro ≠ .suspended := by rw [hcoro]; nofun
      have hslot := h.slot
      rw [hcoro] at hslot
      have hafter := hslot.clear (hsettled hbefore)
      simp only [coroStep, hcoro, Option.some.injEq] at hstep
      have hs' : s' = { s with
          slot := (s.slot.callStep pc).1
          coro := SlotInv.coroAfter (s.slot.callStep pc).2 } := by
        rw [← hstep]
        cases (s.slot.callStep pc).2 with
        | returns value => cases value <;> rfl
        | _ => rfl
      rw [hs']
      refine h.setCoro hafter ?_ hbefore ?_ ?_
      · rw [hcoro]
        exact Doomed.clear
      · cases (s.slot.callStep pc).2 with
        | returns value => cases value <;> nofun
        | _ => nofun
      · cases (s.slot.callStep pc).2 with
        | returns value => cases value <;> nofun
        | _ => nofun
  | canceled =>
      have hbefore : s.coro ≠ .suspended := by rw [hcoro]; nofun
      simp only [coroStep, hcoro, Option.some.injEq] at hstep
      subst hstep
      cases hcanceled : s.slot.canceled with
      | true =>
          have hstate : s.slot.state = true := by
            simp only [TerminateSlot.canceled, Bool.and_eq_true] at hcanceled
            exact hcanceled.1
          have hdone : (.done .signalException : CoroPc n ε α).Knows s.slot := hstate
          refine h.setCoro (h.slot.setCoro hdone) (fun hd => ⟨hd.state, hd.empty, trivial⟩) hbefore
            nofun ?_
          intro o ho
          exact .inl (CoroPc.done.inj ho).symm
      | false =>
          refine h.setCoro (h.slot.setCoro trivial) (fun hd => ?_) hbefore nofun nofun
          have hfilter := h.slot.filter.trans (h.slot.admits hd.state)
          simp [TerminateSlot.canceled, hd.state, hfilter] at hcanceled
  | take =>
      have hbefore : s.coro ≠ .suspended := by rw [hcoro]; nofun
      simp only [coroStep, hcoro, Option.some.injEq] at hstep
      have hs' : s' = { s with coro := .done (outcomeOf cfg.form s.result) } := by
        rw [← hstep]
        cases s.result with
        | none => cases cfg.form <;> rfl
        | some r => rfl
      rw [hs']
      have hknows : (.done (outcomeOf cfg.form s.result) : CoroPc n ε α).Knows s.slot := by
        cases s.result with
        | none => cases cfg.form <;> trivial
        | some r => trivial
      refine h.setCoro (h.slot.setCoro hknows) (fun hd => ?_) hbefore nofun ?_
      · have hthrows := hd.throws
        rw [hcoro] at hthrows
        exact hthrows.elim
      · intro o ho
        exact .inr (CoroPc.done.inj ho).symm

/-- Every step keeps the invariant, an emission only if the filter admits it. -/
theorem step (h : Inv cfg s) {l : Label n}
    (hadmits : l = .emits → cfg.hasSlot = true → cfg.filter = true)
    (hstep : CollectAny.step cfg s l = some s') : Inv cfg s' := by
  cases l with
  | main => exact h.step_main hstep
  | coro => exact h.step_coro hstep
  | task i => exact h.step_task hstep
  | emits =>
      simp only [CollectAny.step] at hstep
      split at hstep
      case isTrue hslot =>
        rcases Option.map_eq_some_iff.mp hstep with ⟨slot, hemits, rfl⟩
        exact h.step_emits ⟨hslot, hadmits rfl hslot⟩ hemits
      case isFalse => cases hstep
  | emission => exact h.step_emission hstep

end Inv

end CollectAny

end AsyncSimple
