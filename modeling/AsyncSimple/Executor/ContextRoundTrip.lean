import AsyncSimple.Executor.SimpleExecutor
import AsyncSimple.Executor.ThreadPool

/-!
# Checking out and checking in

A function that is checked in with the context of an earlier {lit}`checkout` should come back
to the worker on which the context was made, or to some worker if it was made on a thread
outside the pool.  The number of such a thread is {lit}`-1`, and {lit}`scheduleById` takes
{lit}`-1` for "any worker".  But {lit}`checkin` removes the bit that marks a context, and a
negative number has this bit of its own: {lit}`scheduleById` gets another negative number and
uses it as an index.

Main results:

- Theorem {lit}`checkin_checkout_worker`: where a function with the context of a worker goes.
- Theorem {lit}`checkin_checkout_outside`: a function with the context of another thread is
  pushed through an index that no queue has.
- Theorem {lit}`roundTrips_iff`: the round trip works exactly for the workers.
-/

namespace AsyncSimple

namespace SimpleExecutor

variable {n : Nat} {φ : Type}

/-- The queues of the pool, and the functions that were run inside {lit}`checkin`. -/
structure State (n : Nat) (φ : Type) where
  queue : Fin n → Queue φ
  inPlace : List φ

namespace State

/-- {lit}`func()`. -/
def runInPlace (s : State n φ) (f : φ) : State n φ :=
  { s with inPlace := s.inPlace ++ [f] }

/-- {lit}`_queues[q].push(...)`. -/
def push (s : State n φ) (q : Fin n) (f : φ) : State n φ :=
  { s with queue := Function.update s.queue q ((s.queue q).push f) }

end State

/-- The index into {lit}`_queues`: {lit}`scheduleById` draws a random one for the number
{lit}`-1` and takes every other number as it is.  The index of a vector is a
{lit}`size_t`. -/
def queueIndex (n : Nat) (id : BitVec 32) (rand : Nat) : Nat :=
  if id = BitVec.allOnes 32 then rand % n else (id.signExtend 64).toNat

/-- {lit}`scheduleById` in a pool that does not stop and does not steal; {lit}`none` is an
access outside the vector of queues. -/
def State.scheduleById (s : State n φ) (f : φ) (id : BitVec 32) (rand : Nat) :
    Option (State n φ) :=
  if h : queueIndex n id rand < n then some (s.push ⟨queueIndex n id rand, h⟩ f) else none

/-- {lit}`checkin` on the thread {lit}`current`. -/
def State.checkin (s : State n φ) (f : φ) (current : Option (Fin n)) (ctx : BitVec 64)
    (prompt : Bool) (rand : Nat) : Option (State n φ) :=
  match SimpleExecutor.checkin current ctx prompt with
  | .inPlace => some (s.runInPlace f)
  | .queue id => s.scheduleById f (BitVec.ofNat 32 id) rand

/-- The context of {lit}`origin` is not {lit}`NULLCTX`.  Every function that is checked in with
it is run at once, if this was asked for and the caller is the worker {lit}`origin`; otherwise
it is put into one queue, once: that of the worker {lit}`origin`, or some queue if
{lit}`origin` is outside the pool. -/
def RoundTrips (origin : Option (Fin n)) : Prop :=
  toContext (checkout origin) ≠ none ∧
    ∀ (φ : Type) (s : State n φ) (f : φ) (current : Option (Fin n)) (prompt : Bool) (rand : Nat),
      ∃ s', s.checkin f current (checkout origin) prompt rand = some s' ∧
        if prompt = true ∧ origin ≠ none ∧ current = origin then
          s' = s.runInPlace f
        else
          ∃ q, s' = s.push q f ∧ ∀ v, origin = some v → q = v

/-! ## The context of a worker -/

/-- Only the worker itself finds its number in the context. -/
theorem getCurrentId_eq_iff (hn : n < 2 ^ 30) (current : Option (Fin n)) (v : Fin n) :
    (getCurrentId current).signExtend 64 = checkout (some v) &&& ~~~kContextMask ↔
      current = some v := by
  have hv : v.val < 2 ^ 30 := v.isLt.trans hn
  rw [checkout_and_not v (by omega), ofNat_and_not hv]
  cases current with
  | none =>
      refine ⟨fun heq => ?_, nofun⟩
      have hnat := congrArg BitVec.toNat heq
      rw [BitVec.toNat_ofNat, Nat.mod_eq_of_lt (by omega)] at hnat
      have hones : ((getCurrentId (none : Option (Fin n))).signExtend 64).toNat = 2 ^ 64 - 1 :=
        rfl
      omega
  | some w =>
      have hw : w.val < 2 ^ 30 := w.isLt.trans hn
      rw [signExtend_getCurrentId w (by omega), Option.some.injEq]
      constructor
      · intro heq
        have hnat := congrArg BitVec.toNat heq
        rw [BitVec.toNat_ofNat, BitVec.toNat_ofNat, Nat.mod_eq_of_lt (by omega),
          Nat.mod_eq_of_lt (by omega)] at hnat
        exact Fin.ext hnat
      · rintro rfl
        rfl

/-- The number of a worker is the index of its queue. -/
theorem queueIndex_worker (hn : n < 2 ^ 30) (v : Fin n) (rand : Nat) :
    queueIndex n (checkinId (checkout (some v))) rand = v.val := by
  have hv : v.val < 2 ^ 30 := v.isLt.trans hn
  have hid : checkinId (checkout (some v)) = getCurrentId (some v) := by
    apply BitVec.eq_of_toNat_eq
    have htarget := (checkinId_checkout_iff v (by omega)).mpr hv
    rw [target] at htarget
    rw [htarget, getCurrentId, BitVec.toNat_ofNat, Nat.mod_eq_of_lt (by omega)]
  have hne : getCurrentId (some v) ≠ BitVec.allOnes 32 := by
    intro heq
    have hnat := congrArg BitVec.toNat heq
    rw [getCurrentId, BitVec.toNat_ofNat, Nat.mod_eq_of_lt (by omega),
      BitVec.toNat_allOnes] at hnat
    omega
  rw [hid, queueIndex, if_neg hne, signExtend_getCurrentId v (by omega), BitVec.toNat_ofNat,
    Nat.mod_eq_of_lt (by omega)]

/-- A function with the context of a worker is run at once, on this worker, or goes into its
queue. -/
theorem checkin_checkout_worker (hn : n < 2 ^ 30) (s : State n φ) (f : φ)
    (current : Option (Fin n)) (v : Fin n) (prompt : Bool) (rand : Nat) :
    s.checkin f current (checkout (some v)) prompt rand =
      some (if prompt = true ∧ current = some v then s.runInPlace f else s.push v f) := by
  have hsame := getCurrentId_eq_iff hn current v
  by_cases hprompt : prompt = true ∧ current = some v
  · have hplace : SimpleExecutor.checkin current (checkout (some v)) prompt = .inPlace :=
      if_pos ⟨hsame.mpr hprompt.2, hprompt.1⟩
    rw [State.checkin, hplace, if_pos hprompt]
  · have hplace : SimpleExecutor.checkin current (checkout (some v)) prompt =
        .queue (checkinId (checkout (some v))).toNat :=
      if_neg fun h => hprompt ⟨h.2, hsame.mp h.1⟩
    rw [State.checkin, hplace, if_neg hprompt]
    simp only [State.scheduleById, BitVec.ofNat_toNat, BitVec.setWidth_eq,
      queueIndex_worker hn v rand, v.isLt, dite_true]

/-! ## The context of another thread -/

/-- All bits are set, so that the mark does not show. -/
theorem checkout_outside : checkout (none : Option (Fin n)) = BitVec.allOnes 64 := by
  simp only [checkout, getCurrentId]
  decide

/-- The number that {lit}`scheduleById` gets is negative, but it is not {lit}`-1`. -/
theorem queueIndex_outside (rand : Nat) :
    queueIndex n (checkinId (BitVec.allOnes 64)) rand = 2 ^ 64 - 2 ^ 30 - 1 := by
  have hid : checkinId (BitVec.allOnes 64) ≠ BitVec.allOnes 32 := by decide
  rw [queueIndex, if_neg hid]
  decide

/-- Nobody finds the own number in the context, and the index is far outside the pool. -/
theorem checkin_checkout_outside (hn : n < 2 ^ 30) (s : State n φ) (f : φ)
    (current : Option (Fin n)) (prompt : Bool) (rand : Nat) :
    s.checkin f current (checkout (none : Option (Fin n))) prompt rand = none := by
  have hlarge : (BitVec.allOnes 64 &&& ~~~kContextMask).toNat = 2 ^ 64 - 2 ^ 30 - 1 := by decide
  have hother : (getCurrentId current).signExtend 64 ≠ BitVec.allOnes 64 &&& ~~~kContextMask := by
    cases current with
    | none =>
        simp only [getCurrentId]
        decide
    | some v =>
        intro heq
        have hv : v.val < 2 ^ 30 := v.isLt.trans hn
        have hnat := congrArg BitVec.toNat heq
        rw [signExtend_getCurrentId v (by omega), BitVec.toNat_ofNat,
          Nat.mod_eq_of_lt (by omega)] at hnat
        omega
  have hplace : SimpleExecutor.checkin current (BitVec.allOnes 64) prompt =
      .queue (checkinId (BitVec.allOnes 64)).toNat :=
    if_neg fun h => hother h.1
  rw [State.checkin, checkout_outside, hplace]
  simp only [State.scheduleById, BitVec.ofNat_toNat, BitVec.setWidth_eq, queueIndex_outside]
  exact dif_neg (by omega)

/-! ## The round trip -/

/-- In a pool of every admissible size the round trip works for the contexts that were made on
a worker, and for no others. -/
theorem roundTrips_iff (n : Nat) (hn : n < 2 ^ 30) (origin : Option (Fin n)) :
    RoundTrips origin ↔ origin ≠ none := by
  constructor
  · rintro ⟨-, htrip⟩ rfl
    rcases htrip Unit ⟨fun _ => Queue.empty, []⟩ () none false 0 with ⟨s', hs', -⟩
    rw [checkin_checkout_outside hn] at hs'
    cases hs'
  · intro hworker
    rcases Option.ne_none_iff_exists'.mp hworker with ⟨v, rfl⟩
    refine ⟨by rw [toContext_checkout]; simp, ?_⟩
    intro φ s f current prompt rand
    refine ⟨_, checkin_checkout_worker hn s f current v prompt rand, ?_⟩
    by_cases hprompt : prompt = true ∧ current = some v
    · rw [if_pos hprompt, if_pos ⟨hprompt.1, by simp, hprompt.2⟩]
    · rw [if_neg hprompt, if_neg fun h => hprompt ⟨h.1, h.2.2⟩]
      refine ⟨v, rfl, ?_⟩
      rintro w hw
      exact Option.some.inj hw

/-- The second worker of a pool of two. -/
theorem roundTrips_secondWorker :
    2 < 2 ^ 30 ∧ RoundTrips (some (1 : Fin 2)) :=
  ⟨by decide, (roundTrips_iff 2 (by decide) (some 1)).mpr (by decide)⟩

/-- A thread outside a pool of one worker. -/
theorem not_roundTrips_outside : ¬ RoundTrips (none : Option (Fin 1)) := by
  rintro ⟨-, htrip⟩
  rcases htrip Unit ⟨fun _ => Queue.empty, []⟩ () none false 0 with ⟨s', hs', -⟩
  have hnone := checkin_checkout_outside (by decide) (⟨fun _ => Queue.empty, []⟩ : State 1 Unit) ()
    none false 0
  rw [hnone] at hs'
  cases hs'

end SimpleExecutor

end AsyncSimple
