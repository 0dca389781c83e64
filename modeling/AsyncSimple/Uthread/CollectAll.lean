import AsyncSimple.Library.Counting
import AsyncSimple.Library.Machine

/-!
# Collecting the results of uthreads

{lit}`uthread::collectAll` launches one uthread for every function and awaits a promise that is
set by the destructor of a shared {lit}`Context`.  References to the {lit}`Context` are held by
the lambda of the caller, by the closures that are scheduled on the executor, and by the
{lit}`func_` of every {lit}`thread_context`; the last one to go sets the promise.

Every uthread stores the result of its function in one entry of a vector.  The entries of a
{lit}`std::vector<bool>` are packed: a word is read, one bit of it is changed, and the word is
written back.

The uthreads run, suspend and finish in any order.  A uthread first runs inside the constructor
of its {lit}`Uthread`, in a task of the executor or in the caller.  When it has finished, its
{lit}`thread_context` goes with the {lit}`Uthread` if {lit}`detach` has seen the result, and
otherwise with the continuation of {lit}`done_`, at some later moment.

Main results:

- Theorem {lit}`Inv.step`: the references are counted, and the promise is set when the last one
  goes.
- Theorem {lit}`Entries.step`: no entry is lost while no word is written that another uthread has
  read and not written back.
- Theorem {lit}`collectAll_collects`: the caller continues after all functions have returned, the
  promise is set once, and the entries are the results.
-/

namespace AsyncSimple

open Transition

namespace UthreadCollect

variable {n : Nat} {α : Type}

/-! ## State -/

/-- The result of the {lit}`Context`: none, entries of their own, or entries of which
{lit}`width` share a word. -/
inductive Layout where
  | void
  | separate
  | packed (width : Nat)
deriving DecidableEq, Repr

/-- The entries that are written together with entry {lit}`i`. -/
def Layout.shares (layout : Layout) (i j : Fin n) : Bool :=
  match layout with
  | .packed width => i.val / width == j.val / width
  | _ => i == j

/-- {lit}`Launch`, without {lit}`Prompt`. -/
inductive Policy where
  | schedule
  | current
deriving DecidableEq, Repr

/-- How far a uthread has come. -/
inductive Phase (n : Nat) (α : Type) where
  | idle
  /-- the executor has accepted the closure -/
  | queued
  | running
  | suspended
  /-- the function has returned -/
  | returned
  /-- the word of the entry has been read -/
  | read (word : Fin n → α)
  | stored
  /-- {lit}`done_` is set -/
  | finished

/-- The code that has constructed the {lit}`Uthread`. -/
inductive Host where
  | none
  /-- the uthread runs for the first time -/
  | constructing
  | constructed
  /-- after {lit}`detach`, which has or has not seen the result of {lit}`done_` -/
  | joined (sawResult : Bool)
  /-- the {lit}`Uthread` is gone or has been moved away -/
  | ended
  /-- the closure is gone -/
  | released
deriving DecidableEq, Repr

/-- A uthread, its host, and whether its {lit}`thread_context` exists. -/
structure Uthread (n : Nat) (α : Type) where
  phase : Phase n α
  host : Host
  alive : Bool

/-- Program points of the caller. -/
inductive Pc (n : Nat) (α : Type) where
  | loop (i : Nat)
  /-- in {lit}`async<Current>` -/
  | launched (i : Fin n)
  /-- the counter {lit}`i` has overflowed -/
  | overflow (i : Nat)
  | lambdaEnd
  | await
  | continued (result : Fin n → α)

structure State (n : Nat) (α : Type) where
  useCount : Nat
  tasks : Nat
  result : Fin n → α
  /-- what the promise was set to, latest first -/
  promised : List (Fin n → α)
  assertsHeld : Bool
  uthread : Fin n → Uthread n α
  pc : Pc n α

/-- After {lit}`std::make_shared<Context>`. -/
def State.initial (n : Nat) (α : Type) [Inhabited α] : State n α where
  useCount := 1
  tasks := n
  result := fun _ => default
  promised := []
  assertsHeld := true
  uthread := fun _ => ⟨.idle, .none, false⟩
  pc := .loop 0

/-- One reference to the {lit}`Context` goes; the destructor is run with the last one. -/
def State.release (s : State n α) : State n α :=
  if s.useCount = 1 then
    { s with
      useCount := 0
      assertsHeld := s.assertsHeld && s.tasks == 0
      promised := s.result :: s.promised }
  else
    { s with useCount := s.useCount - 1 }

/-! ## Steps of a uthread -/

/-- What a uthread, its host or the executor does next. -/
inductive Move where
  /-- the executor runs the closure -/
  | start
  | suspend
  | resume
  /-- the function returns -/
  | returns
  | store
  | finish
  /-- the host goes on -/
  | host
  /-- the executor destroys the closure -/
  | closure
  /-- the continuation of {lit}`done_` is destroyed -/
  | destroy
deriving DecidableEq, Repr

/-- What a move does to the {lit}`Context`. -/
inductive Effect (n : Nat) (α : Type) where
  | keep
  | copy
  | release
  | store (result : Fin n → α)
  | fetchSub

def State.apply (s : State n α) : Effect n α → State n α
  | .keep => s
  | .copy => { s with useCount := s.useCount + 1 }
  | .release => s.release
  | .store result => { s with result := result }
  | .fetchSub => { s with tasks := s.tasks - 1 }

/-- The uthread leaves the stack, and the constructor returns if it was still running. -/
def Host.handBack : Host → Host
  | .constructing => .constructed
  | host => host

/-- The host has called {lit}`detach`, and the continuation of {lit}`done_` has the
{lit}`Uthread` if it still exists. -/
def Host.handedOver : Host → Bool
  | .joined false | .ended | .released => true
  | _ => false

def Phase.isFinished : Phase n α → Bool
  | .finished => true
  | _ => false

/-- The word of entry {lit}`i` is written back. -/
def writeWord (layout : Layout) (i : Fin n) (value : α) (word result : Fin n → α) : Fin n → α :=
  fun j => if j = i then value else if layout.shares i j then word j else result j

/-- A move of uthread {lit}`i`, whose function returns {lit}`value`. -/
def uthreadStep (policy : Policy) (layout : Layout) (i : Fin n) (value : α) (result : Fin n → α)
    (u : Uthread n α) : Move → Option (Uthread n α × Effect n α)
  | .start =>
      match u.phase with
      -- the closure is constant, so that `func_` gets a copy
      | .queued => some (⟨.running, .constructing, true⟩, .copy)
      | _ => none
  | .suspend =>
      match u.phase with
      | .running => some ({ u with phase := .suspended, host := u.host.handBack }, .keep)
      | _ => none
  | .resume =>
      match u.phase with
      | .suspended => some ({ u with phase := .running }, .keep)
      | _ => none
  | .returns =>
      match u.phase with
      | .running => some ({ u with phase := .returned }, .keep)
      | _ => none
  | .store =>
      match u.phase, layout with
      | .returned, .void => some ({ u with phase := .stored }, .keep)
      | .returned, .separate =>
          some ({ u with phase := .stored }, .store (Function.update result i value))
      | .returned, .packed _ => some ({ u with phase := .read result }, .keep)
      | .read word, _ =>
          some ({ u with phase := .stored }, .store (writeWord layout i value word result))
      | _, _ => none
  | .finish =>
      match u.phase with
      | .stored => some ({ u with phase := .finished, host := u.host.handBack }, .fetchSub)
      | _ => none
  | .host =>
      match u.host with
      | .constructed => some ({ u with host := .joined u.phase.isFinished }, .keep)
      | .joined false => some ({ u with host := .ended }, .keep)
      | .joined true => some ({ u with host := .ended, alive := false }, .release)
      | _ => none
  | .closure =>
      match policy, u.host with
      | .schedule, .ended => some ({ u with host := .released }, .release)
      | _, _ => none
  | .destroy =>
      if u.alive && u.phase.isFinished && u.host.handedOver then
        some ({ u with alive := false }, .release)
      else
        none

/-! ## All interleavings -/

/-- The loop goes on behind {lit}`++i`; the counter is an {lit}`int`. -/
def Pc.next (i : Nat) : Pc n α :=
  if i + 1 < 2 ^ 31 then .loop (i + 1) else .overflow (i + 1)

/-- {lit}`async<Policy>` of one function. -/
def State.launch (policy : Policy) (s : State n α) (i : Fin n) : State n α :=
  match policy with
  | .schedule =>
      { s with
        useCount := s.useCount + 1
        uthread := Function.update s.uthread i ⟨.queued, .none, false⟩
        pc := .next i }
  | .current =>
      { s with
        useCount := s.useCount + 1
        uthread := Function.update s.uthread i ⟨.running, .constructing, true⟩
        pc := .launched i }

/-- One step of the caller. -/
def mainStep (policy : Policy) (s : State n α) : Option (State n α) :=
  match s.pc with
  | .loop i => if h : i < n then some (s.launch policy ⟨i, h⟩) else some { s with pc := .lambdaEnd }
  | .launched i => if (s.uthread i).host = .ended then some { s with pc := .next i } else none
  | .lambdaEnd => some { s.release with pc := .await }
  | .await =>
      match s.promised with
      | [] => none
      | result :: _ => some { s with pc := .continued result }
  | .overflow _ | .continued _ => none

inductive Label (n : Nat) where
  | main
  | uthread (i : Fin n) (move : Move)
deriving DecidableEq, Repr

def step (policy : Policy) (layout : Layout) (results : Fin n → α) (s : State n α) :
    Label n → Option (State n α)
  | .main => mainStep policy s
  | .uthread i move =>
      (uthreadStep policy layout i (results i) s.result (s.uthread i) move).map fun (u, effect) =>
        State.apply { s with uthread := Function.update s.uthread i u } effect

/-- The caller and the uthreads of the functions, whose results are {lit}`results`. -/
def machine (policy : Policy) (layout : Layout) (results : Fin n → α) :
    Machine (State n α) (Label n) where
  step := step policy layout results

def Phase.isRead : Phase n α → Bool
  | .read _ => true
  | _ => false

/-- The function of the uthread has returned. -/
def Phase.hasReturned : Phase n α → Bool
  | .returned | .read _ | .stored | .finished => true
  | _ => false

/-- When a uthread writes its word back, with an entry that differs from the initial one, no
other uthread has read this word and not written it. -/
def Apart [Inhabited α] (layout : Layout) (results : Fin n → α) (s : State n α) :
    Label n → Prop
  | .uthread i .store => (s.uthread i).phase.isRead = true → results i ≠ default →
      ∀ j, j ≠ i → layout.shares i j = true → (s.uthread j).phase.isRead = false
  | _ => True

instance [Inhabited α] [DecidableEq α] (layout : Layout) (results : Fin n → α) (s : State n α) :
    ∀ l, Decidable (Apart layout results s l)
  | .uthread i .store =>
      inferInstanceAs (Decidable ((s.uthread i).phase.isRead = true → results i ≠ default →
        ∀ j, j ≠ i → layout.shares i j = true → (s.uthread j).phase.isRead = false))
  | .main | .uthread _ .start | .uthread _ .suspend | .uthread _ .resume | .uthread _ .returns
  | .uthread _ .finish | .uthread _ .host | .uthread _ .closure | .uthread _ .destroy =>
      isTrue trivial

/-! ## A uthread and its references -/

/-- The constructor has returned, and {lit}`detach` has not seen the result of {lit}`done_`. -/
def Host.beside : Host → Bool
  | .constructed | .joined false | .ended | .released => true
  | _ => false

/-- The phases, hosts and lifetimes that go together. -/
def Uthread.Ok (policy : Policy) (u : Uthread n α) : Prop :=
  (u.host = .released → policy = .schedule) ∧
  match u.phase with
  | .idle => u.host = .none ∧ u.alive = false
  | .queued => policy = .schedule ∧ u.host = .none ∧ u.alive = false
  | .suspended => u.host.beside = true ∧ u.alive = true
  | .running | .returned | .read _ | .stored =>
      (u.host = .constructing ∨ u.host.beside = true) ∧ u.alive = true
  | .finished =>
      (u.host = .joined true ∨ u.host = .constructed) ∧ u.alive = true ∨
        u.host.handedOver = true

def Phase.isIdle : Phase n α → Bool
  | .idle => true
  | _ => false

/-- The closure holds a reference from {lit}`schedule` on. -/
def Uthread.closureRefs (policy : Policy) (u : Uthread n α) : Nat :=
  if policy = .schedule ∧ u.phase.isIdle = false ∧ u.host ≠ .released then 1 else 0

/-- References to the {lit}`Context` of the closure and of {lit}`func_`. -/
def Uthread.refs (policy : Policy) (u : Uthread n α) : Nat :=
  u.closureRefs policy + u.alive.toNat

def Uthread.unfinished (u : Uthread n α) : Bool :=
  !u.phase.isFinished

def Effect.copies : Effect n α → Nat
  | .copy => 1
  | _ => 0

def Effect.releases : Effect n α → Nat
  | .release => 1
  | _ => 0

def Effect.subtracts : Effect n α → Nat
  | .fetchSub => 1
  | _ => 0

/-- Everything a move can do. -/
inductive Moved (policy : Policy) (layout : Layout) (i : Fin n) (value : α) (result : Fin n → α)
    (u : Uthread n α) : Move → Uthread n α → Effect n α → Prop where
  | start (hphase : u.phase = .queued) :
      Moved policy layout i value result u .start ⟨.running, .constructing, true⟩ .copy
  | suspend (hphase : u.phase = .running) :
      Moved policy layout i value result u .suspend
        { u with phase := .suspended, host := u.host.handBack } .keep
  | resume (hphase : u.phase = .suspended) :
      Moved policy layout i value result u .resume { u with phase := .running } .keep
  | returns (hphase : u.phase = .running) :
      Moved policy layout i value result u .returns { u with phase := .returned } .keep
  | skip (hphase : u.phase = .returned) (hlayout : layout = .void) :
      Moved policy layout i value result u .store { u with phase := .stored } .keep
  | store (hphase : u.phase = .returned) (hlayout : layout = .separate) :
      Moved policy layout i value result u .store { u with phase := .stored }
        (.store (Function.update result i value))
  | read {width} (hphase : u.phase = .returned) (hlayout : layout = .packed width) :
      Moved policy layout i value result u .store { u with phase := .read result } .keep
  | write {word} (hphase : u.phase = .read word) :
      Moved policy layout i value result u .store { u with phase := .stored }
        (.store (writeWord layout i value word result))
  | finish (hphase : u.phase = .stored) :
      Moved policy layout i value result u .finish
        { u with phase := .finished, host := u.host.handBack } .fetchSub
  | detach (hhost : u.host = .constructed) :
      Moved policy layout i value result u .host
        { u with host := .joined u.phase.isFinished } .keep
  | endMoved (hhost : u.host = .joined false) :
      Moved policy layout i value result u .host { u with host := .ended } .keep
  | endDestroyed (hhost : u.host = .joined true) :
      Moved policy layout i value result u .host { u with host := .ended, alive := false } .release
  | closure (hpolicy : policy = .schedule) (hhost : u.host = .ended) :
      Moved policy layout i value result u .closure { u with host := .released } .release
  | destroy (halive : u.alive = true) (hphase : u.phase.isFinished = true)
      (hhost : u.host.handedOver = true) :
      Moved policy layout i value result u .destroy { u with alive := false } .release

section

variable {policy : Policy} {layout : Layout} {i : Fin n} {value : α} {result : Fin n → α}
  {u u' : Uthread n α} {move : Move} {effect : Effect n α}

theorem uthreadStep_moved
    (hstep : uthreadStep policy layout i value result u move = some (u', effect)) :
    Moved policy layout i value result u move u' effect := by
  cases move with
  | start =>
      simp only [uthreadStep] at hstep
      split at hstep <;> cases hstep
      case h_1 hphase => exact .start hphase
  | suspend =>
      simp only [uthreadStep] at hstep
      split at hstep <;> cases hstep
      case h_1 hphase => exact .suspend hphase
  | resume =>
      simp only [uthreadStep] at hstep
      split at hstep <;> cases hstep
      case h_1 hphase => exact .resume hphase
  | returns =>
      simp only [uthreadStep] at hstep
      split at hstep <;> cases hstep
      case h_1 hphase => exact .returns hphase
  | store =>
      simp only [uthreadStep] at hstep
      split at hstep <;> cases hstep
      case h_1 hphase => exact .skip hphase rfl
      case h_2 hphase => exact .store hphase rfl
      case h_3 hphase => exact .read hphase rfl
      case h_4 hphase => exact .write hphase
  | finish =>
      simp only [uthreadStep] at hstep
      split at hstep <;> cases hstep
      case h_1 hphase => exact .finish hphase
  | host =>
      simp only [uthreadStep] at hstep
      split at hstep <;> cases hstep
      case h_1 hhost => exact .detach hhost
      case h_2 hhost => exact .endMoved hhost
      case h_3 hhost => exact .endDestroyed hhost
  | closure =>
      simp only [uthreadStep] at hstep
      split at hstep <;> cases hstep
      case h_1 hhost => exact .closure rfl hhost
  | destroy =>
      simp only [uthreadStep, Bool.and_eq_true] at hstep
      split at hstep <;> cases hstep
      next h => exact .destroy h.1.1 h.1.2 h.2

theorem Phase.isFinished_iff {phase : Phase n α} : phase.isFinished = true ↔ phase = .finished := by
  cases phase <;> simp [Phase.isFinished]

theorem Host.beside_handBack {host : Host} (h : host = .constructing ∨ host.beside = true) :
    host.handBack.beside = true := by
  rcases h with rfl | h
  · rfl
  · revert h
    cases host <;> simp [Host.handBack, Host.beside]

/-- A host beside the uthread has not called {lit}`detach`, or has handed it over. -/
theorem Host.constructed_or_handedOver {host : Host} (h : host.beside = true) :
    host = .constructed ∨ host.handedOver = true := by
  revert h
  rcases host with _ | _ | _ | (_ | _) | _ | _ <;> simp [Host.beside, Host.handedOver]

theorem Host.handBack_eq_released {host : Host} : host.handBack = .released ↔ host = .released := by
  cases host <;> simp [Host.handBack]

theorem Moved.ok (h : Moved policy layout i value result u move u' effect) (hok : u.Ok policy) :
    u'.Ok policy := by
  rcases u with ⟨phase, host, alive⟩
  rcases hok with ⟨hreleased, hrest⟩
  cases h with
  | start hphase => exact ⟨by simp, .inl rfl, rfl⟩
  | suspend hphase =>
      cases hphase
      exact ⟨fun h => hreleased (Host.handBack_eq_released.mp h),
        Host.beside_handBack hrest.1, hrest.2⟩
  | resume hphase =>
      cases hphase
      exact ⟨hreleased, .inr hrest.1, hrest.2⟩
  | returns hphase | skip hphase | store hphase | read hphase | write hphase =>
      cases hphase
      exact ⟨hreleased, hrest⟩
  | finish hphase =>
      cases hphase
      refine ⟨fun h => hreleased (Host.handBack_eq_released.mp h), ?_⟩
      exact (Host.constructed_or_handedOver (Host.beside_handBack hrest.1)).imp
        (fun h => ⟨.inr h, hrest.2⟩) id
  | detach hhost =>
      cases hhost
      refine ⟨by simp, ?_⟩
      cases phase with
      | idle | queued => simp at hrest
      | finished => exact .inl ⟨.inl rfl, by simpa [Host.handedOver] using hrest⟩
      | suspended => exact ⟨rfl, hrest.2⟩
      | _ => exact ⟨.inr rfl, hrest.2⟩
  | endMoved hhost =>
      cases hhost
      refine ⟨by simp, ?_⟩
      cases phase with
      | idle | queued => simp at hrest
      | finished => exact .inr rfl
      | suspended => exact ⟨rfl, hrest.2⟩
      | _ => exact ⟨.inr rfl, hrest.2⟩
  | endDestroyed hhost =>
      cases hhost
      refine ⟨by simp, ?_⟩
      cases phase <;> simp_all [Host.beside, Host.handedOver]
  | closure hpolicy hhost =>
      cases hhost
      refine ⟨fun _ => hpolicy, ?_⟩
      cases phase with
      | idle | queued => simp at hrest
      | finished => exact .inr rfl
      | suspended => exact ⟨rfl, hrest.2⟩
      | _ => exact ⟨.inr rfl, hrest.2⟩
  | destroy halive hphase hhost =>
      cases Phase.isFinished_iff.mp hphase
      exact ⟨hreleased, .inr hhost⟩

theorem Uthread.refs_congr (hidle : u'.phase.isIdle = u.phase.isIdle)
    (hhost : u'.host = .released ↔ u.host = .released) (halive : u'.alive = u.alive) :
    u'.refs policy = u.refs policy := by
  simp only [Uthread.refs, Uthread.closureRefs, hidle, ne_eq, hhost, halive]

/-- A uthread whose host has handed it back has been launched. -/
theorem Uthread.Ok.not_idle (h : u.Ok policy) (hhost : u.host ≠ .none) :
    u.phase.isIdle = false := by
  cases hphase : u.phase with
  | idle =>
      simp only [Uthread.Ok, hphase] at h
      exact absurd h.2.1 hhost
  | _ => rfl

/-- The references are those that the moves copy and release. -/
theorem Moved.refs (h : Moved policy layout i value result u move u' effect) (hok : u.Ok policy) :
    u'.refs policy + effect.releases = u.refs policy + effect.copies := by
  cases h with
  | start hphase =>
      simp only [Uthread.Ok, hphase] at hok
      rcases hok with ⟨-, hpolicy, hhost, halive⟩
      simp [Uthread.refs, Uthread.closureRefs, hpolicy, hhost, hphase, halive, Phase.isIdle,
        Effect.releases, Effect.copies]
  | suspend hphase | finish hphase =>
      exact Uthread.refs_congr (by simp [hphase, Phase.isIdle]) Host.handBack_eq_released rfl
  | resume hphase | returns hphase | skip hphase | store hphase | read hphase | write hphase =>
      exact Uthread.refs_congr (by simp [hphase, Phase.isIdle]) Iff.rfl rfl
  | detach hhost | endMoved hhost =>
      exact Uthread.refs_congr rfl (by simp [hhost]) rfl
  | endDestroyed hhost =>
      have hclosure : Uthread.closureRefs policy { u with host := .ended, alive := false } =
          u.closureRefs policy := by
        simp [Uthread.closureRefs, hhost]
      have halive : u.alive = true := by
        rcases u with ⟨phase, host, alive⟩
        rcases hok with ⟨-, hrest⟩
        cases hhost
        cases phase <;> simp_all [Host.beside, Host.handedOver]
      simp [Uthread.refs, hclosure, halive, Effect.releases, Effect.copies]
  | closure hpolicy hhost =>
      have hidle := hok.not_idle (by simp [hhost])
      simp [Uthread.refs, Uthread.closureRefs, hpolicy, hhost, hidle, Effect.releases,
        Effect.copies]
      omega
  | destroy halive hphase hhost =>
      have hclosure : Uthread.closureRefs policy { u with alive := false } =
          u.closureRefs policy := rfl
      simp [Uthread.refs, hclosure, halive, Effect.releases, Effect.copies]

/-- Every uthread subtracts one from {lit}`tasks` when it finishes. -/
theorem Moved.unfinished (h : Moved policy layout i value result u move u' effect) :
    u'.unfinished.toNat + effect.subtracts = u.unfinished.toNat := by
  rcases u with ⟨phase, host, alive⟩
  cases h with
  | start hphase | suspend hphase | resume hphase | returns hphase | skip hphase | store hphase
  | read hphase | write hphase | finish hphase =>
      cases hphase
      rfl
  | _ => rfl

/-- Only launched uthreads move. -/
theorem Moved.isIdle (h : Moved policy layout i value result u move u' effect)
    (hok : u.Ok policy) : u.phase.isIdle = false ∧ u'.phase.isIdle = false := by
  cases h with
  | start hphase | suspend hphase | resume hphase | returns hphase | skip hphase | store hphase
  | read hphase | write hphase | finish hphase => exact ⟨by rw [hphase]; rfl, rfl⟩
  | detach hhost | endMoved hhost | endDestroyed hhost | closure _ hhost =>
      have hidle := hok.not_idle (by rw [hhost]; simp)
      exact ⟨hidle, hidle⟩
  | destroy _ hphase =>
      have hidle : u.phase.isIdle = false := by
        rw [Phase.isFinished_iff.mp hphase]
        rfl
      exact ⟨hidle, hidle⟩

/-- Without references to the {lit}`Context`, a launched uthread has finished. -/
theorem Uthread.Ok.finished_of_refs (h : u.Ok policy) (hidle : u.phase.isIdle = false)
    (hrefs : u.refs policy = 0) : u.phase = .finished := by
  have halive : u.alive = false := by
    cases halive : u.alive with
    | false => rfl
    | true => simp [Uthread.refs, halive] at hrefs
  have hclosure : u.closureRefs policy = 0 := by
    simp only [Uthread.refs] at hrefs
    omega
  cases hphase : u.phase with
  | finished => rfl
  | idle =>
      rw [hphase] at hidle
      cases hidle
  | queued =>
      simp only [Uthread.Ok, hphase] at h
      rcases h with ⟨-, hpolicy, hhost, -⟩
      simp [Uthread.closureRefs, hpolicy, hhost, hidle] at hclosure
  | running | suspended | returned | read word | stored =>
      simp only [Uthread.Ok, hphase] at h
      rw [h.2.2] at halive
      cases halive

end

/-! ## The invariant -/

/-- The lambda of the caller holds a reference. -/
def Pc.holds : Pc n α → Bool
  | .await | .continued _ => false
  | _ => true

/-- The caller has launched uthread {lit}`i`. -/
def Pc.reached (i : Fin n) : Pc n α → Bool
  | .loop j | .overflow j => decide (i.val < j)
  | .launched j => decide (i.val ≤ j.val)
  | _ => true

/-- The references are counted, up to an effect that is still to come. -/
structure Counted (policy : Policy) (effect : Effect n α) (s : State n α) : Prop where
  ok : ∀ i, (s.uthread i).Ok policy
  reached : ∀ i, (s.uthread i).phase.isIdle = !s.pc.reached i
  useCount : s.useCount + effect.copies =
    s.pc.holds.toNat + ∑ i, (s.uthread i).refs policy + effect.releases
  tasks : s.tasks = ∑ i, (s.uthread i).unfinished.toNat + effect.subtracts
  promised : s.promised.length = if s.useCount = 0 then 1 else 0
  asserts : s.assertsHeld = true
  continued : ∀ result, s.pc = .continued result → s.promised = [result]
  launched : ∀ i, s.pc = .launched i → policy = .current

/-- What holds in every state. -/
def Inv (policy : Policy) (s : State n α) : Prop :=
  Counted policy .keep s

section

variable {policy : Policy} {layout : Layout} {results : Fin n → α} {s s' : State n α}

theorem Inv.initial [Inhabited α] : Inv policy (State.initial n α) := by
  have hrefs : (⟨.idle, .none, false⟩ : Uthread n α).refs policy = 0 := by
    simp [Uthread.refs, Uthread.closureRefs, Phase.isIdle]
  refine ⟨fun i => ⟨by simp [State.initial], rfl, rfl⟩, fun i => rfl, ?_, ?_, rfl, rfl, ?_, ?_⟩
  · simp [State.initial, hrefs, Pc.holds, Effect.copies, Effect.releases]
  · simp [State.initial, Uthread.unfinished, Phase.isFinished, Effect.subtracts]
  · simp [State.initial]
  · simp [State.initial]

namespace Counted

variable {effect : Effect n α}

/-- When the last reference goes, all uthreads have finished. -/
theorem all_finished (h : Counted policy effect s) (hholds : s.pc.holds = false)
    (hsum : ∑ i, (s.uthread i).refs policy = 0) (i : Fin n) : (s.uthread i).phase = .finished := by
  have hreached : s.pc.reached i = true := by
    cases hpc : s.pc <;> simp [hpc, Pc.holds] at hholds <;> rfl
  have hidle := h.reached i
  rw [hreached] at hidle
  have hrefs := (Finset.sum_eq_zero_iff.mp hsum) i (Finset.mem_univ i)
  exact (h.ok i).finished_of_refs hidle hrefs

/-- Nobody else holds the last reference. -/
theorem of_last (h : Counted policy .release s) (hlast : s.useCount = 1) :
    s.pc.holds = false ∧ ∑ i, (s.uthread i).refs policy = 0 := by
  have hcount := h.useCount
  simp only [Effect.copies, Effect.releases] at hcount
  cases hholds : s.pc.holds with
  | false => exact ⟨rfl, by omega⟩
  | true =>
      rw [hholds] at hcount
      simp only [Bool.toNat_true] at hcount
      omega

theorem release (h : Counted policy .release s) : Inv policy s.release := by
  have hcount := h.useCount
  simp only [Effect.copies, Effect.releases] at hcount
  have htasks := h.tasks
  simp only [Effect.subtracts] at htasks
  have hpromised := h.promised
  rw [if_neg (by omega)] at hpromised
  have hnone : s.promised = [] := List.eq_nil_of_length_eq_zero hpromised
  have hnot : ∀ result, s.pc ≠ .continued result := by
    intro result hpc
    have hone := h.continued result hpc
    rw [hnone] at hone
    cases hone
  by_cases hlast : s.useCount = 1
  · rcases h.of_last hlast with ⟨hholds, hsum⟩
    have hzero : s.tasks = 0 := by
      rw [htasks]
      simp [Uthread.unfinished, h.all_finished hholds hsum, Phase.isFinished]
    simp only [State.release, if_pos hlast]
    refine ⟨h.ok, h.reached, ?_, htasks, ?_, ?_, ?_, h.launched⟩
    · simp [hholds, hsum, Effect.copies, Effect.releases]
    · simp [hnone]
    · simp [h.asserts, hzero]
    · exact fun result hpc => absurd hpc (hnot result)
  · simp only [State.release, if_neg hlast]
    refine ⟨h.ok, h.reached, ?_, htasks, ?_, h.asserts, h.continued, h.launched⟩
    · simp only [Effect.copies, Effect.releases]
      omega
    · rw [hpromised, if_neg (show s.useCount - 1 ≠ 0 by omega)]

/-- The effect takes place; a reference is copied from another one. -/
theorem apply (h : Counted policy effect s) (hcopy : effect.copies ≠ 0 → s.useCount ≠ 0) :
    Inv policy (s.apply effect) := by
  have hcount := h.useCount
  have htasks := h.tasks
  cases effect with
  | keep => exact h
  | release => exact h.release
  | store result =>
      exact ⟨h.ok, h.reached, hcount, htasks, h.promised, h.asserts, h.continued, h.launched⟩
  | fetchSub =>
      refine ⟨h.ok, h.reached, hcount, ?_, h.promised, h.asserts, h.continued, h.launched⟩
      simp only [Effect.subtracts] at htasks
      simp [State.apply, htasks, Effect.subtracts]
  | copy =>
      have hpromised := h.promised
      rw [if_neg (hcopy (by simp [Effect.copies]))] at hpromised
      refine ⟨h.ok, h.reached, hcount, htasks, ?_, h.asserts, h.continued, h.launched⟩
      simpa [State.apply] using hpromised

end Counted

/-- One uthread is replaced, and the caller is somewhere else. -/
theorem Inv.moveUthread (h : Inv policy s) {i : Fin n} {u : Uthread n α} {effect : Effect n α}
    {pc : Pc n α} (hok : u.Ok policy)
    (hreached : ∀ j, pc.reached j = if j = i then !u.phase.isIdle else s.pc.reached j)
    (hrefs : u.refs policy + effect.releases = (s.uthread i).refs policy + effect.copies)
    (hunfinished : u.unfinished.toNat + effect.subtracts = (s.uthread i).unfinished.toNat)
    (hholds : pc.holds = s.pc.holds)
    (hcontinued : ∀ result, pc = .continued result → s.promised = [result])
    (hlaunched : ∀ j, pc = .launched j → policy = .current) :
    Counted policy effect { s with uthread := Function.update s.uthread i u, pc := pc } := by
  have hcount := h.useCount
  have htasks := h.tasks
  simp only [Effect.copies, Effect.releases, Effect.subtracts] at hcount htasks
  have hsumRefs := sum_update (fun u : Uthread n α => u.refs policy) s.uthread i u
  have hsumTasks := sum_update (fun u : Uthread n α => u.unfinished.toNat) s.uthread i u
  refine ⟨?_, ?_, ?_, ?_, h.promised, h.asserts, hcontinued, hlaunched⟩
  · exact forall_update (p := fun _ (u : Uthread n α) => u.Ok policy) hok h.ok
  · intro j
    by_cases hj : j = i
    · subst hj
      simp [hreached j]
    · simp only [Function.update_of_ne hj, hreached j, if_neg hj]
      exact h.reached j
  · simp only [hholds]
    omega
  · simp only at hsumTasks ⊢
    omega

theorem Inv.useCount_pos_of_refs (h : Inv policy s) {i : Fin n}
    (hrefs : 0 < (s.uthread i).refs policy) : 0 < s.useCount := by
  have hcount := h.useCount
  simp only [Effect.copies, Effect.releases] at hcount
  have hle : (s.uthread i).refs policy ≤ ∑ j, (s.uthread j).refs policy :=
    Finset.single_le_sum (f := fun j => (s.uthread j).refs policy) (fun _ _ => Nat.zero_le _)
      (Finset.mem_univ i)
  omega

/-- A move is counted before its effect takes place. -/
theorem Inv.counted (h : Inv policy s) {i : Fin n} {move : Move} {u : Uthread n α}
    {effect : Effect n α}
    (hmoved : Moved policy layout i (results i) s.result (s.uthread i) move u effect) :
    Counted policy effect { s with uthread := Function.update s.uthread i u } := by
  have hidle := hmoved.isIdle (h.ok i)
  have hreached : s.pc.reached i = true := by
    have hreached := h.reached i
    rw [hidle.1] at hreached
    simpa using hreached
  refine h.moveUthread (hmoved.ok (h.ok i)) ?_ (hmoved.refs (h.ok i)) hmoved.unfinished rfl
    h.continued h.launched
  intro j
  by_cases hj : j = i
  · subst hj
    simp [hreached, hidle.2]
  · simp [hj]

theorem Inv.uthread (h : Inv policy s) {i : Fin n} {move : Move} {u : Uthread n α}
    {effect : Effect n α}
    (hmoved : Moved policy layout i (results i) s.result (s.uthread i) move u effect) :
    Inv policy (State.apply { s with uthread := Function.update s.uthread i u } effect) := by
  refine (h.counted hmoved).apply ?_
  intro hcopies
  have hidle := (hmoved.isIdle (h.ok i)).1
  cases hmoved with
  | start hphase =>
      -- the closure holds the reference that is copied
      have hok := h.ok i
      simp only [Uthread.Ok, hphase] at hok
      rcases hok with ⟨-, hpolicy, hhost, -⟩
      have hrefs : 0 < (s.uthread i).refs policy := by
        simp [Uthread.refs, Uthread.closureRefs, hpolicy, hhost, hidle]
      exact Nat.ne_of_gt (h.useCount_pos_of_refs hrefs)
  | _ => exact absurd rfl hcopies

theorem Pc.next_holds (i : Nat) : (Pc.next i : Pc n α).holds = true := by
  simp only [Pc.next]
  split <;> rfl

theorem Pc.next_reached (i : Nat) (j : Fin n) :
    (Pc.next i : Pc n α).reached j = decide (j.val < i + 1) := by
  simp only [Pc.next]
  split <;> rfl

/-- The loop goes on, or its counter overflows. -/
theorem Pc.next_ne (i : Nat) :
    (∀ result, (Pc.next i : Pc n α) ≠ .continued result) ∧
      ∀ j, (Pc.next i : Pc n α) ≠ .launched j := by
  simp only [Pc.next]
  split <;> simp

/-- The caller is somewhere else. -/
theorem Inv.setPc (h : Inv policy s) {effect : Effect n α} {pc : Pc n α}
    (hreached : ∀ j, pc.reached j = s.pc.reached j)
    (hcount : s.pc.holds.toNat + effect.copies = pc.holds.toNat + effect.releases)
    (hsubtracts : effect.subtracts = 0)
    (hcontinued : ∀ result, pc = .continued result → s.promised = [result])
    (hlaunched : ∀ j, pc = .launched j → policy = .current) :
    Counted policy effect { s with pc := pc } := by
  have huse := h.useCount
  simp only [Effect.copies, Effect.releases] at huse
  refine ⟨h.ok, ?_, ?_, ?_, h.promised, h.asserts, hcontinued, hlaunched⟩
  · intro j
    rw [hreached j]
    exact h.reached j
  · simp only
    omega
  · rw [hsubtracts]
    exact h.tasks

/-- A function is launched. -/
theorem Inv.launch (h : Inv policy s) {i : Fin n} (hpc : s.pc = .loop i.val) :
    Inv policy (s.launch policy i) := by
  have hidle : (s.uthread i).phase.isIdle = true := by
    rw [h.reached i, hpc]
    simp [Pc.reached]
  have hphase : (s.uthread i).phase = .idle := by
    revert hidle
    cases (s.uthread i).phase <;> simp [Phase.isIdle]
  have hok := h.ok i
  simp only [Uthread.Ok, hphase] at hok
  have hrefs : (s.uthread i).refs policy = 0 := by
    simp [Uthread.refs, Uthread.closureRefs, hidle, hok.2.2]
  have hunfinished : (s.uthread i).unfinished = true := by
    simp [Uthread.unfinished, hphase, Phase.isFinished]
  have huse : s.useCount ≠ 0 := by
    have hcount := h.useCount
    rw [hpc] at hcount
    simp only [Pc.holds, Effect.copies, Effect.releases, Bool.toNat_true] at hcount
    omega
  cases policy with
  | schedule =>
      have hcounted : Counted .schedule .copy { s with
          uthread := Function.update s.uthread i ⟨.queued, .none, false⟩, pc := .next i } := by
        refine h.moveUthread ⟨by simp, rfl, rfl, rfl⟩ ?_ ?_ ?_ ?_ ?_ ?_
        · intro j
          rw [Pc.next_reached, hpc]
          by_cases hj : j = i
          · simp [hj, Phase.isIdle]
          · have hne : j.val ≠ i.val := fun heq => hj (Fin.ext heq)
            simp only [hj, if_false, Pc.reached, decide_eq_decide]
            omega
        · rw [hrefs]
          rfl
        · rw [hunfinished]
          rfl
        · rw [Pc.next_holds, hpc]
          rfl
        · exact fun result hnext => absurd hnext ((Pc.next_ne i.val).1 result)
        · exact fun j hnext => absurd hnext ((Pc.next_ne i.val).2 j)
      exact hcounted.apply fun _ => huse
  | current =>
      have hcounted : Counted .current .copy { s with
          uthread := Function.update s.uthread i ⟨.running, .constructing, true⟩
          pc := .launched i } := by
        refine h.moveUthread ⟨by simp, .inl rfl, rfl⟩ ?_ ?_ ?_ ?_ ?_ ?_
        · intro j
          rw [hpc]
          by_cases hj : j = i
          · simp [hj, Phase.isIdle, Pc.reached]
          · have hne : j.val ≠ i.val := fun heq => hj (Fin.ext heq)
            simp only [hj, if_false, Pc.reached, decide_eq_decide]
            omega
        · rw [hrefs]
          rfl
        · rw [hunfinished]
          rfl
        · rw [hpc]
          rfl
        · simp
        · exact fun _ _ => rfl
      exact hcounted.apply fun _ => huse

theorem State.release_setPc (s : State n α) (pc : Pc n α) :
    { s.release with pc := pc } = State.release { s with pc := pc } := by
  simp only [State.release]
  split <;> rfl

/-- The lambda of the caller returns. -/
theorem Inv.counted_lambdaEnd (h : Inv policy s) (hpc : s.pc = .lambdaEnd) :
    Counted policy .release { s with pc := .await } :=
  h.setPc (by rw [hpc]; exact fun _ => rfl) (by rw [hpc]; rfl) rfl (by simp) (by simp)

theorem Inv.main (h : Inv policy s) (hstep : mainStep policy s = some s') : Inv policy s' := by
  simp only [mainStep] at hstep
  split at hstep
  case h_1 i hpc =>
    split at hstep
    · next hi =>
        cases hstep
        exact h.launch (i := ⟨i, hi⟩) hpc
    · next hi =>
        cases hstep
        refine h.setPc ?_ (by rw [hpc]; rfl) rfl (by simp) (by simp)
        intro j
        rw [hpc]
        simp only [Pc.reached, eq_comm (a := true), decide_eq_true_eq]
        omega
  case h_2 i hpc =>
    split at hstep
    · cases hstep
      refine h.setPc ?_ (by rw [hpc, Pc.next_holds]; rfl) rfl ?_ ?_
      · intro j
        rw [Pc.next_reached, hpc]
        simp only [Pc.reached, decide_eq_decide]
        omega
      · exact fun result hnext => absurd hnext ((Pc.next_ne i.val).1 result)
      · exact fun j hnext => absurd hnext ((Pc.next_ne i.val).2 j)
    · cases hstep
  case h_3 hpc =>
    cases hstep
    rw [State.release_setPc]
    exact (h.counted_lambdaEnd hpc).release
  case h_4 hpc =>
    split at hstep
    · cases hstep
    · next result rest hpromised =>
        cases hstep
        refine h.setPc (by rw [hpc]; exact fun _ => rfl) (by rw [hpc]; rfl) rfl ?_ (by simp)
        rintro _ ⟨⟩
        have hlength := h.promised
        rw [hpromised, List.length_cons] at hlength
        have hrest : rest = [] := by
          apply List.eq_nil_of_length_eq_zero
          split at hlength <;> omega
        rw [hpromised, hrest]
  case h_5 | h_6 => cases hstep

theorem Inv.step (h : Inv policy s) {l : Label n}
    (hstep : UthreadCollect.step policy layout results s l = some s') : Inv policy s' := by
  cases l with
  | main => exact h.main hstep
  | uthread i move =>
      simp only [UthreadCollect.step, Option.map_eq_some_iff] at hstep
      rcases hstep with ⟨⟨u, effect⟩, hmove, rfl⟩
      exact h.uthread (uthreadStep_moved hmove)

end

/-! ## The entries -/

def Phase.hasStored : Phase n α → Bool
  | .stored | .finished => true
  | _ => false

/-- Every uthread that has stored its result finds it in its entry, and a word that was read is
as it is in the vector. -/
structure Entries [Inhabited α] (layout : Layout) (results : Fin n → α) (s : State n α) :
    Prop where
  unwritten : ∀ i, (s.uthread i).phase.hasStored = false → s.result i = default
  written : layout ≠ .void → ∀ i, (s.uthread i).phase.hasStored = true → s.result i = results i
  read : ∀ i word, (s.uthread i).phase = .read word →
    ∀ j, j ≠ i → layout.shares i j = true → word j = s.result j
  promised : layout ≠ .void → ∀ result ∈ s.promised, result = results

theorem Layout.shares_comm (layout : Layout) (i j : Fin n) :
    layout.shares i j = layout.shares j i := by
  cases layout <;> simp only [Layout.shares] <;> exact Bool.beq_comm

namespace Entries

variable [Inhabited α] {policy : Policy} {layout : Layout} {results : Fin n → α} {s s' : State n α}

theorem initial : Entries layout results (State.initial n α) := by
  refine ⟨fun _ _ => rfl, ?_, ?_, ?_⟩ <;> simp [State.initial, Phase.hasStored]

theorem congr (h : Entries layout results s) (huthread : s'.uthread = s.uthread)
    (hresult : s'.result = s.result) (hpromised : s'.promised = s.promised) :
    Entries layout results s' := by
  refine ⟨?_, ?_, ?_, ?_⟩
  · rw [huthread, hresult]
    exact h.unwritten
  · rw [huthread, hresult]
    exact h.written
  · rw [huthread, hresult]
    exact h.read
  · rw [hpromised]
    exact h.promised

/-- A move that stores nothing. -/
theorem keep (h : Entries layout results s) {i : Fin n} {u : Uthread n α}
    (hstored : layout ≠ .void → u.phase.hasStored = (s.uthread i).phase.hasStored)
    (hstays : (s.uthread i).phase.hasStored = true → u.phase.hasStored = true)
    (hread : ∀ word, u.phase = .read word → (s.uthread i).phase = .read word ∨ word = s.result) :
    Entries layout results { s with uthread := Function.update s.uthread i u } := by
  refine ⟨?_, ?_, ?_, h.promised⟩
  · refine forall_update (p := fun j (u : Uthread n α) => u.phase.hasStored = false →
      s.result j = default) ?_ h.unwritten
    intro hnot
    refine h.unwritten i ?_
    cases hbefore : (s.uthread i).phase.hasStored with
    | false => rfl
    | true =>
        rw [hstays hbefore] at hnot
        cases hnot
  · intro hlayout
    refine forall_update (p := fun j (u : Uthread n α) => u.phase.hasStored = true →
      s.result j = results j) ?_ (h.written hlayout)
    intro hnow
    exact h.written hlayout i ((hstored hlayout).symm.trans hnow)
  · refine forall_update (p := fun j (u : Uthread n α) => ∀ word, u.phase = .read word →
      ∀ k, k ≠ j → layout.shares j k = true → word k = s.result k) ?_ h.read
    intro word hword k hk hshares
    rcases hread word hword with hbefore | rfl
    · exact h.read i word hbefore k hk hshares
    · rfl

/-- One entry is stored, and nobody holds an old copy of it that differs. -/
theorem store (h : Entries layout results s) {i : Fin n} {u : Uthread n α}
    (hu : u.phase = .stored) (hnot : (s.uthread i).phase.hasStored = false)
    (hapart : ∀ j word, j ≠ i → layout.shares j i = true → (s.uthread j).phase = .read word →
      results i = default) :
    Entries layout results { s with
      uthread := Function.update s.uthread i u
      result := Function.update s.result i (results i) } := by
  refine ⟨?_, ?_, ?_, h.promised⟩
  · intro j hj
    by_cases hji : j = i
    · subst hji
      simp [hu, Phase.hasStored] at hj
    · simp only [Function.update_of_ne hji] at hj ⊢
      exact h.unwritten j hj
  · intro hlayout j hj
    by_cases hji : j = i
    · subst hji
      simp
    · simp only [Function.update_of_ne hji] at hj ⊢
      exact h.written hlayout j hj
  · intro j word hword k hk hshares
    by_cases hji : j = i
    · subst hji
      simp [hu] at hword
    · simp only [Function.update_of_ne hji] at hword
      by_cases hki : k = i
      · subst hki
        simp only [Function.update_self]
        rw [h.read j word hword k hk hshares, h.unwritten k hnot]
        exact (hapart j word hji hshares hword).symm
      · simp only [Function.update_of_ne hki]
        exact h.read j word hword k hk hshares

/-- With what was read as it is in the vector, writing the word changes one entry. -/
theorem writeWord_eq (h : Entries layout results s) {i : Fin n} {word : Fin n → α}
    (hword : (s.uthread i).phase = .read word) :
    writeWord layout i (results i) word s.result = Function.update s.result i (results i) := by
  funext j
  simp only [writeWord]
  split
  · next hj => simp [hj]
  · next hj =>
      rw [Function.update_of_ne hj]
      split
      · next hshares => exact h.read i word hword j hj hshares
      · rfl

/-- The destructor finds all results. -/
theorem release (h : Entries layout results s) (hcounted : Counted policy .release s) :
    Entries layout results s.release := by
  simp only [State.release]
  split
  · next hlast =>
      rcases hcounted.of_last hlast with ⟨hholds, hsum⟩
      refine ⟨h.unwritten, h.written, h.read, ?_⟩
      intro hlayout result hresult
      rcases List.mem_cons.mp hresult with rfl | hresult
      · funext i
        refine h.written hlayout i ?_
        rw [hcounted.all_finished hholds hsum i]
        rfl
      · exact h.promised hlayout result hresult
  · exact h.congr rfl rfl rfl

theorem uthread (h : Entries layout results s) (hinv : Inv policy s) {i : Fin n} {move : Move}
    {u : Uthread n α} {effect : Effect n α} (hapart : Apart layout results s (.uthread i move))
    (hmoved : Moved policy layout i (results i) s.result (s.uthread i) move u effect) :
    Entries layout results
      (State.apply { s with uthread := Function.update s.uthread i u } effect) := by
  have hcounted := hinv.counted hmoved
  cases hmoved with
  | start hphase =>
      have hkept := h.keep (i := i) (u := ⟨.running, .constructing, true⟩)
        (by simp [hphase, Phase.hasStored]) (by simp [hphase, Phase.hasStored]) (by simp)
      exact hkept.congr rfl rfl rfl
  | suspend hphase | resume hphase | returns hphase =>
      exact h.keep (by simp [hphase, Phase.hasStored]) (by simp [hphase, Phase.hasStored]) (by simp)
  | skip hphase hlayout =>
      exact h.keep (fun hne => absurd hlayout hne) (by simp [hphase, Phase.hasStored]) (by simp)
  | store hphase hlayout =>
      refine h.store rfl (by simp [hphase, Phase.hasStored]) ?_
      intro j word hj hshares
      simp [hlayout, Layout.shares, hj] at hshares
  | read hphase hlayout =>
      refine h.keep (by simp [hphase, Phase.hasStored]) (by simp [hphase, Phase.hasStored]) ?_
      rintro word ⟨⟩
      exact .inr rfl
  | write hphase =>
      simp only [State.apply, h.writeWord_eq hphase]
      refine h.store rfl (by simp [hphase, Phase.hasStored]) ?_
      intro j word hj hshares hword
      by_contra hne
      rw [layout.shares_comm] at hshares
      have hnot := hapart (by rw [hphase]; rfl) hne j hj hshares
      rw [hword] at hnot
      cases hnot
  | finish hphase =>
      have hkept := h.keep (i := i)
        (u := ⟨.finished, (s.uthread i).host.handBack, (s.uthread i).alive⟩)
        (by simp [hphase, Phase.hasStored]) (by simp [Phase.hasStored]) (by simp)
      exact hkept.congr rfl rfl rfl
  | detach hhost | endMoved hhost =>
      exact h.keep (fun _ => rfl) id (fun word hword => .inl hword)
  | endDestroyed hhost | closure hpolicy hhost | destroy halive hphase hhost =>
      refine Entries.release ?_ hcounted
      exact h.keep (fun _ => rfl) id (fun word hword => .inl hword)

theorem main (h : Entries layout results s) (hinv : Inv policy s)
    (hstep : mainStep policy s = some s') : Entries layout results s' := by
  simp only [mainStep] at hstep
  split at hstep
  case h_1 i hpc =>
    split at hstep
    · next hi =>
        cases hstep
        have hidle : (s.uthread ⟨i, hi⟩).phase.hasStored = false := by
          have hreached := hinv.reached ⟨i, hi⟩
          simp only [hpc, Pc.reached, Nat.lt_irrefl, decide_false, Bool.not_false] at hreached
          revert hreached
          cases (s.uthread ⟨i, hi⟩).phase <;> simp [Phase.isIdle, Phase.hasStored]
        cases policy with
        | schedule =>
            have hkept := h.keep (i := ⟨i, hi⟩) (u := ⟨.queued, .none, false⟩)
              (fun _ => hidle.symm) (by simp [hidle]) (by simp)
            exact hkept.congr rfl rfl rfl
        | current =>
            have hkept := h.keep (i := ⟨i, hi⟩) (u := ⟨.running, .constructing, true⟩)
              (fun _ => hidle.symm) (by simp [hidle]) (by simp)
            exact hkept.congr rfl rfl rfl
    · cases hstep
      exact h.congr rfl rfl rfl
  case h_2 i hpc =>
    split at hstep <;> cases hstep
    exact h.congr rfl rfl rfl
  case h_3 hpc =>
    cases hstep
    rw [State.release_setPc]
    have hawait : Entries layout results { s with pc := .await } := h.congr rfl rfl rfl
    exact hawait.release (hinv.counted_lambdaEnd hpc)
  case h_4 hpc =>
    split at hstep <;> cases hstep
    exact h.congr rfl rfl rfl
  case h_5 | h_6 => cases hstep

theorem step (h : Entries layout results s) (hinv : Inv policy s) {l : Label n}
    (hapart : Apart layout results s l)
    (hstep : UthreadCollect.step policy layout results s l = some s') :
    Entries layout results s' := by
  cases l with
  | main => exact h.main hinv hstep
  | uthread i move =>
      simp only [UthreadCollect.step, Option.map_eq_some_iff] at hstep
      rcases hstep with ⟨⟨u, effect⟩, hmove, rfl⟩
      exact h.uthread hinv hapart (uthreadStep_moved hmove)

end Entries

/-! ## Every run can be completed -/

/-- Steps that a uthread may still make when it does not suspend again. -/
def Phase.rank : Phase n α → Nat
  | .idle => 8
  | .queued => 7
  | .suspended => 6
  | .running => 5
  | .returned => 4
  | .read _ => 3
  | .stored => 2
  | .finished => 1

def Host.rank : Host → Nat
  | .none => 5
  | .constructing => 4
  | .constructed => 3
  | .joined _ => 2
  | .ended => 1
  | .released => 0

def Uthread.rank (u : Uthread n α) : Nat :=
  u.phase.rank + u.host.rank + u.alive.toNat

def Pc.rank : Pc n α → Nat
  | .loop i => 2 * (n - i) + 3
  | .launched i => 2 * (n - i.val) + 2
  | .lambdaEnd => 2
  | .await => 1
  | .overflow _ | .continued _ => 0

def State.rank (s : State n α) : Nat :=
  s.pc.rank + ∑ i, (s.uthread i).rank

/-- The host is still in the code that has constructed the uthread. -/
def Host.active : Host → Bool
  | .constructing | .constructed | .joined _ => true
  | _ => false

theorem Host.rank_handBack_le (host : Host) : host.handBack.rank ≤ host.rank := by
  cases host <;> simp [Host.handBack, Host.rank]

section

variable {policy : Policy} {layout : Layout} {i : Fin n} {value : α} {result : Fin n → α}
  {u : Uthread n α}

/-- The host, the closure and the {lit}`thread_context` of a finished uthread go. -/
theorem exists_move_of_finished (hok : u.Ok policy) (hphase : u.phase = .finished)
    (hneeds : 0 < u.refs policy ∨ u.host.active = true) :
    ∃ move u' effect, uthreadStep policy layout i value result u move = some (u', effect) ∧
      u'.rank < u.rank := by
  rcases u with ⟨phase, host, alive⟩
  cases hphase
  rcases hok with ⟨hreleased, hrest⟩
  cases host with
  | none | constructing => simp [Host.handedOver] at hrest
  | constructed =>
      refine ⟨.host, _, _, rfl, ?_⟩
      simp only [Uthread.rank, Host.rank]
      omega
  | joined sawResult =>
      cases sawResult
      · refine ⟨.host, _, _, rfl, ?_⟩
        simp only [Uthread.rank, Host.rank]
        omega
      · refine ⟨.host, _, _, rfl, ?_⟩
        simp only [Uthread.rank, Host.rank, Bool.toNat_false]
        omega
  | ended =>
      cases alive with
      | true =>
          refine ⟨.destroy, _, _, rfl, ?_⟩
          simp [Uthread.rank]
      | false =>
          cases policy with
          | schedule =>
              refine ⟨.closure, _, _, rfl, ?_⟩
              simp only [Uthread.rank, Host.rank]
              omega
          | current => simp [Uthread.refs, Uthread.closureRefs, Host.active] at hneeds
  | released =>
      cases alive with
      | true =>
          refine ⟨.destroy, _, _, rfl, ?_⟩
          simp [Uthread.rank]
      | false => simp [Uthread.refs, Uthread.closureRefs, Host.active] at hneeds

/-- A uthread that holds a reference, or whose host waits for it, can come nearer to its end. -/
theorem exists_move (hok : u.Ok policy) (hneeds : 0 < u.refs policy ∨ u.host.active = true) :
    ∃ move u' effect, uthreadStep policy layout i value result u move = some (u', effect) ∧
      u'.rank < u.rank := by
  have hhandBack := Host.rank_handBack_le u.host
  cases hphase : u.phase with
  | idle =>
      simp only [Uthread.Ok, hphase] at hok
      simp [Uthread.refs, Uthread.closureRefs, hphase, hok.2, Phase.isIdle, Host.active] at hneeds
  | queued =>
      simp only [Uthread.Ok, hphase] at hok
      refine ⟨.start, _, _, by simp only [uthreadStep, hphase]; rfl, ?_⟩
      simp [Uthread.rank, hphase, hok.2.2, Phase.rank, Host.rank]
  | suspended =>
      refine ⟨.resume, _, _, by simp only [uthreadStep, hphase]; rfl, ?_⟩
      simp [Uthread.rank, hphase, Phase.rank]
  | running =>
      refine ⟨.returns, _, _, by simp only [uthreadStep, hphase]; rfl, ?_⟩
      simp [Uthread.rank, hphase, Phase.rank]
  | returned =>
      cases layout with
      | void | separate | packed width =>
          refine ⟨.store, _, _, by simp only [uthreadStep, hphase]; rfl, ?_⟩
          simp [Uthread.rank, hphase, Phase.rank]
  | read word =>
      refine ⟨.store, _, _, by simp only [uthreadStep, hphase]; rfl, ?_⟩
      simp [Uthread.rank, hphase, Phase.rank]
  | stored =>
      refine ⟨.finish, _, _, by simp only [uthreadStep, hphase]; rfl, ?_⟩
      simp only [Uthread.rank, hphase, Phase.rank]
      omega
  | finished => exact exists_move_of_finished hok hphase hneeds

end

section

variable {policy : Policy} {layout : Layout} {results : Fin n → α} {s s' : State n α}

theorem State.apply_pc (s : State n α) (effect : Effect n α) :
    (s.apply effect).pc = s.pc ∧ (s.apply effect).uthread = s.uthread := by
  cases effect with
  | release =>
      simp only [State.apply, State.release]
      split <;> exact ⟨rfl, rfl⟩
  | _ => exact ⟨rfl, rfl⟩

theorem exists_step_of_uthread (hinv : Inv policy s) {i : Fin n}
    (hneeds : 0 < (s.uthread i).refs policy ∨ (s.uthread i).host.active = true) :
    ∃ l s', step policy layout results s l = some s' ∧ s'.rank < s.rank := by
  have hmoves : ∃ move u' effect, uthreadStep policy layout i (results i) s.result (s.uthread i)
      move = some (u', effect) ∧ u'.rank < (s.uthread i).rank := exists_move (hinv.ok i) hneeds
  rcases hmoves with ⟨move, u', effect, hmove, hlt⟩
  refine ⟨.uthread i move, _, by simp only [step, hmove]; rfl, ?_⟩
  simp only [State.rank, State.apply_pc]
  exact Nat.add_lt_add_left (sum_update_lt hlt) _

theorem Pc.next_rank_lt {i : Nat} (hi : i < n) :
    (Pc.next i : Pc n α).rank < 2 * (n - i) + 2 := by
  simp only [Pc.next]
  split
  · simp only [Pc.rank]
    omega
  · simp only [Pc.rank]
    omega

theorem State.rank_setPc {pc : Pc n α} (hlt : pc.rank < s.pc.rank) :
    State.rank { s with pc := pc } < s.rank :=
  Nat.add_lt_add_right hlt _

theorem State.rank_release (s : State n α) : s.release.rank = s.rank := by
  simp only [State.release]
  split <;> rfl

theorem Inv.rank_launch_lt (hinv : Inv policy s) {i : Fin n} (hpc : s.pc = .loop i.val) :
    (s.launch policy i).rank < s.rank := by
  have hphase : (s.uthread i).phase = .idle := by
    have hreached := hinv.reached i
    simp only [hpc, Pc.reached, Nat.lt_irrefl, decide_false, Bool.not_false] at hreached
    revert hreached
    cases (s.uthread i).phase <;> simp [Phase.isIdle]
  have hok := hinv.ok i
  simp only [Uthread.Ok, hphase] at hok
  have hnext := Pc.next_rank_lt (α := α) i.isLt
  cases policy with
  | schedule =>
      have hlt := sum_update_lt (r := Uthread.rank) (f := s.uthread) (i := i)
        (a := ⟨.queued, .none, false⟩)
        (by simp [Uthread.rank, hphase, hok.2, Phase.rank])
      have hrank : s.rank = 2 * (n - i.val) + 3 + ∑ j, (s.uthread j).rank := by
        rw [State.rank, hpc, Pc.rank]
      change (Pc.next i.val : Pc n α).rank +
        ∑ j, (Function.update s.uthread i ⟨.queued, .none, false⟩ j).rank < s.rank
      omega
  | current =>
      have hlt := sum_update_lt (r := Uthread.rank) (f := s.uthread) (i := i)
        (a := ⟨.running, .constructing, true⟩)
        (by simp [Uthread.rank, hphase, hok.2, Phase.rank, Host.rank])
      have hrank : s.rank = 2 * (n - i.val) + 3 + ∑ j, (s.uthread j).rank := by
        rw [State.rank, hpc, Pc.rank]
      change 2 * (n - i.val) + 2 +
        ∑ j, (Function.update s.uthread i ⟨.running, .constructing, true⟩ j).rank < s.rank
      omega

/-- The host of a launched uthread has ended, or waits for it. -/
theorem Uthread.Ok.active {u : Uthread n α} (h : u.Ok .current) (hidle : u.phase.isIdle = false)
    (hended : u.host ≠ .ended) : u.host.active = true := by
  rcases u with ⟨phase, host, alive⟩
  rcases h with ⟨hreleased, hrest⟩
  cases host with
  | none => cases phase <;> simp_all [Phase.isIdle, Host.beside, Host.handedOver]
  | ended => exact absurd rfl hended
  | released => cases hreleased rfl
  | constructing | constructed | joined sawResult => rfl

theorem Inv.exists_step (hinv : Inv policy s) (hpc : ∀ result, s.pc ≠ .continued result)
    (hoverflow : ∀ i, s.pc ≠ .overflow i) :
    ∃ l s', UthreadCollect.step policy layout results s l = some s' ∧ s'.rank < s.rank := by
  cases hs : s.pc with
  | continued result => exact absurd hs (hpc result)
  | overflow i => exact absurd hs (hoverflow i)
  | loop i =>
      by_cases hi : i < n
      · exact ⟨.main, s.launch policy ⟨i, hi⟩, by simp [UthreadCollect.step, mainStep, hs, hi],
          hinv.rank_launch_lt (i := ⟨i, hi⟩) hs⟩
      · refine ⟨.main, { s with pc := .lambdaEnd },
          by simp [UthreadCollect.step, mainStep, hs, hi], ?_⟩
        exact State.rank_setPc (by rw [hs]; simp [Pc.rank])
  | launched i =>
      by_cases hended : (s.uthread i).host = .ended
      · refine ⟨.main, { s with pc := .next i },
          by simp [UthreadCollect.step, mainStep, hs, hended], ?_⟩
        refine State.rank_setPc ?_
        rw [hs]
        exact Pc.next_rank_lt i.isLt
      · cases hinv.launched i hs
        have hidle : (s.uthread i).phase.isIdle = false := by
          rw [hinv.reached i, hs]
          simp [Pc.reached]
        exact exists_step_of_uthread hinv (.inr ((hinv.ok i).active hidle hended))
  | lambdaEnd =>
      refine ⟨.main, { s.release with pc := .await },
        by simp [UthreadCollect.step, mainStep, hs], ?_⟩
      rw [State.release_setPc, State.rank_release]
      exact State.rank_setPc (by rw [hs]; simp [Pc.rank])
  | await =>
      cases hpromised : s.promised with
      | cons result rest =>
          refine ⟨.main, { s with pc := .continued result },
            by simp [UthreadCollect.step, mainStep, hs, hpromised], ?_⟩
          exact State.rank_setPc (by rw [hs]; simp [Pc.rank])
      | nil =>
          -- somebody holds a reference
          have hlength := hinv.promised
          rw [hpromised] at hlength
          have hcount := hinv.useCount
          rw [hs] at hcount
          simp only [Pc.holds, Effect.copies, Effect.releases, Bool.toNat_false] at hcount
          have hpos : ∑ i, (s.uthread i).refs policy ≠ 0 := by
            intro hzero
            rw [if_pos (by omega)] at hlength
            cases hlength
          rcases Finset.exists_ne_zero_of_sum_ne_zero hpos with ⟨i, -, hi⟩
          exact exists_step_of_uthread hinv (.inl (Nat.pos_of_ne_zero hi))

/-- The counter overflows only with {lit}`2 ^ 31` functions. -/
theorem overflow_step (h : ∀ i, s.pc = .overflow i → 2 ^ 31 ≤ n) {l : Label n}
    (hstep : step policy layout results s l = some s') :
    ∀ i, s'.pc = .overflow i → 2 ^ 31 ≤ n := by
  have hnext : ∀ i j : Nat, i < n → (Pc.next i : Pc n α) = .overflow j → 2 ^ 31 ≤ n := by
    intro i j hi hpc
    simp only [Pc.next] at hpc
    split at hpc
    · cases hpc
    · omega
  cases l with
  | uthread i move =>
      simp only [step, Option.map_eq_some_iff] at hstep
      rcases hstep with ⟨⟨u, effect⟩, -, rfl⟩
      rw [(State.apply_pc _ effect).1]
      exact h
  | main =>
      simp only [step, mainStep] at hstep
      intro j hj
      split at hstep
      case h_1 i hpc =>
        split at hstep
        · next hi =>
            cases hstep
            cases policy with
            | schedule => exact hnext i j hi hj
            | current => cases hj
        · cases hstep
          cases hj
      case h_2 i hpc =>
        split at hstep <;> cases hstep
        exact hnext i.val j i.isLt hj
      case h_3 =>
        cases hstep
        cases hj
      case h_4 =>
        split at hstep <;> cases hstep
        cases hj
      case h_5 | h_6 => cases hstep

/-- The caller can always be brought behind {lit}`await`. -/
theorem Inv.exists_continued (hinv : Inv policy s) (hn : n < 2 ^ 31)
    (hoverflow : ∀ i, s.pc = .overflow i → 2 ^ 31 ≤ n) :
    ∃ ks t result, (machine policy layout results).run s ks = some t ∧
      t.pc = .continued result := by
  have hprogress : ∀ s : State n α,
      Inv policy s ∧ (∀ i, s.pc = .overflow i → 2 ^ 31 ≤ n) →
      ¬ (∃ result, s.pc = .continued result) →
      ∃ l s', True ∧ (machine policy layout results).step s l = some s' ∧
        (Inv policy s' ∧ ∀ i, s'.pc = .overflow i → 2 ^ 31 ≤ n) ∧ s'.rank < s.rank := by
    rintro s ⟨hs, hbound⟩ hnot
    have hpc : ∀ result, s.pc ≠ .continued result := fun result hpc => hnot ⟨result, hpc⟩
    have hnone : ∀ i, s.pc ≠ .overflow i := fun i hpc => Nat.not_le_of_lt hn (hbound i hpc)
    rcases hs.exists_step hpc hnone with ⟨l, s', hstep, hlt⟩
    exact ⟨l, s', trivial, hstep, ⟨hs.step hstep, overflow_step hbound hstep⟩, hlt⟩
  rcases Machine.exists_run_of_measure _ (fun _ => True) State.rank hprogress ⟨hinv, hoverflow⟩ with
    ⟨ks, t, -, hrun, -, result, hpc⟩
  exact ⟨ks, t, result, hrun, hpc⟩

end

/-! ## The caller -/

/-- What {lit}`collectAll` is for. -/
structure Collects (policy : Policy) (layout : Layout) (results : Fin n → α) (s : State n α) :
    Prop where
  returned : ∀ result, s.pc = .continued result → ∀ i, (s.uthread i).phase.hasReturned = true
  atMostOnce : s.promised.length ≤ 1
  once : ∀ result, s.pc = .continued result → s.promised = [result]
  asserts : s.assertsHeld = true
  entries : ∀ result, s.pc = .continued result → layout ≠ .void → result = results
  completes : ∃ ks t result, (machine policy layout results).run s ks = some t ∧
    t.pc = .continued result

/-- For every number of functions that an {lit}`int` can count, both policies, every result type
and every interleaving of the uthreads: the caller continues only after all functions have
returned, the promise is set exactly once, and the entries are what the functions have returned,
if no uthread writes a word with a changed entry while another one has read this word and not
written it back. -/
theorem collectAll_collects [Inhabited α] (policy : Policy) (layout : Layout)
    (results : Fin n → α) (hn : n < 2 ^ 31) {ls : List (Label n)} {s : State n α}
    (hapart : (machine policy layout results).RunsWithin (Apart layout results)
      (State.initial n α) ls)
    (hrun : (machine policy layout results).run (State.initial n α) ls = some s) :
    Collects policy layout results s := by
  have hall : Inv policy s ∧ (∀ i, s.pc = .overflow i → 2 ^ 31 ≤ n) ∧
      Entries layout results s := by
    refine (machine policy layout results).runsWithin_invariant
      (P := fun s => Inv policy s ∧ (∀ i, s.pc = .overflow i → 2 ^ 31 ≤ n) ∧
        Entries layout results s) ?_ ⟨Inv.initial, by simp [State.initial], Entries.initial⟩
      hapart hrun
    rintro s l s' ⟨hinv, hbound, hentries⟩ hok hstep
    exact ⟨hinv.step hstep, overflow_step hbound hstep, hentries.step hinv hok hstep⟩
  rcases hall with ⟨hinv, hbound, hentries⟩
  refine ⟨?_, ?_, hinv.continued, hinv.asserts, ?_, hinv.exists_continued hn hbound⟩
  · intro result hpc i
    -- the promise was set, so no reference is left
    have hlength := hinv.promised
    rw [hinv.continued result hpc] at hlength
    have hcount := hinv.useCount
    simp only [Effect.copies, Effect.releases] at hcount
    have hsum : ∑ i, (s.uthread i).refs policy = 0 := by
      by_cases hzero : s.useCount = 0
      · omega
      · rw [if_neg hzero] at hlength
        cases hlength
    rw [hinv.all_finished (by rw [hpc]; rfl) hsum i]
    rfl
  · rw [hinv.promised]
    split <;> omega
  · intro result hpc hlayout
    exact hentries.promised hlayout result (by rw [hinv.continued result hpc]; simp)

/-- The result with which the caller has continued. -/
def Pc.result : Pc n α → Option (Fin n → α)
  | .continued result => some result
  | _ => none

/-- Both of two uthreads make the same move. -/
def both (move : Move) : List (Label 2) :=
  (List.finRange 2).map fun i => .uthread i move

/-- Two functions are scheduled; the uthreads run side by side up to their stores, which are
{lit}`stores`. -/
def twoTasks (stores : List (Label 2)) : List (Label 2) :=
  List.replicate 4 .main ++ both .start ++ both .returns ++ stores ++ both .finish ++
    both .host ++ both .host ++ both .closure ++ [.main]

/-- One uthread stores its entry after the other. -/
def inTurn : List (Label 2) :=
  twoTasks ((List.finRange 2).flatMap fun i => [.uthread i .store, .uthread i .store])

theorem collectAll_collects_in_turn :
    ∃ s, (machine .schedule (.packed 64) fun _ : Fin 2 => true).run (State.initial 2 Bool) inTurn =
        some s ∧
      Collects .schedule (.packed 64) (fun _ => true) s ∧ s.pc.result.isSome = true := by
  rcases Machine.exists_run_of_any (machine .schedule (.packed 64) fun _ : Fin 2 => true)
    (State.initial 2 Bool) inTurn (fun s => s.pc.result.isSome = true) (by decide +kernel) with
    ⟨s, hrun, hpc⟩
  exact ⟨s, hrun, collectAll_collects .schedule (.packed 64) (fun _ => true) (by decide)
    (by decide +kernel) hrun, hpc⟩

/-- Both uthreads read the word before one of them writes it. -/
def racing : List (Label 2) :=
  twoTasks (both .store ++ both .store)

/-- Both functions return {lit}`true`, and one entry is {lit}`false`. -/
theorem racing_loses_entry :
    ∃ s, (machine .schedule (.packed 64) fun _ : Fin 2 => true).run (State.initial 2 Bool) racing =
        some s ∧
      (∃ i, s.pc.result.map (fun result => result i) = some false) ∧
      ¬ Collects .schedule (.packed 64) (fun _ => true) s := by
  rcases Machine.exists_run_of_any (machine .schedule (.packed 64) fun _ : Fin 2 => true)
    (State.initial 2 Bool) racing
    (fun s => ∃ i, s.pc.result.map (fun result => result i) = some false) (by decide +kernel) with
    ⟨s, hrun, i, hfalse⟩
  refine ⟨s, hrun, ⟨i, hfalse⟩, fun hcollects => ?_⟩
  cases hpc : s.pc with
  | continued result =>
      rw [hpc, hcollects.entries result hpc (by simp)] at hfalse
      simp [Pc.result] at hfalse
  | _ =>
      rw [hpc] at hfalse
      cases hfalse

end UthreadCollect

end AsyncSimple
