import AsyncSimple.Library.LinkedList

/-!
# Dispatching an await chain

{lit}`co_await dispatch(ex)` moves a coroutine and all coroutines that wait for it to another
executor.  {lit}`ChangeLaziessExecutorTo` follows the continuations from the frame that awaits
to the detached coroutine at the root, whose own continuation is null, and stores the executor
in every frame on the way.  The handle is scheduled after that; when {lit}`schedule` returns
false, the old executor is stored again and an exception is thrown.

Main results:

- Theorem {lit}`changeLaziessExecutorTo_chain`: the walk changes the frames of the chain and no
  others, and makes as many rounds as there are frames.
- Theorem {lit}`allOrNothing_iff`: the chain is moved as a whole or not at all, unless
  {lit}`schedule` throws.
-/

namespace AsyncSimple

open PointerList

namespace Dispatch

variable {α ξ : Type}

/-! ## Frames -/

/-- What the walk reads and writes of the promise of a coroutine; null pointers are
{lit}`none`. -/
structure Frame (α ξ : Type) where
  continuation : Option α
  executor : Option ξ
deriving DecidableEq, Repr

/-- {lit}`GetContinuationFromHandle`. -/
def getContinuationFromHandle (frames : α → Frame α ξ) (h : α) : Option α :=
  (frames h).continuation

/-- What {lit}`schedule` does with the handle. -/
inductive Answer where
  | returnsTrue
  | returnsFalse
  | throws
deriving DecidableEq, Repr

/-- The exceptions at the {lit}`co_await`. -/
inductive Error where
  /-- "dispatch to executor failed" -/
  | dispatchFailed
  /-- the exception of {lit}`schedule` -/
  | fromSchedule
deriving DecidableEq, Repr

/-- How {lit}`await_suspend` ends. -/
inductive Outcome where
  | resumed
  | suspended
  | raised (e : Error)
deriving DecidableEq, Repr

/-- The frames when {lit}`await_suspend` ends or the handle has been scheduled, the calls of
{lit}`schedule` and the outcome. -/
structure Result (α ξ : Type) where
  frames : α → Frame α ξ
  scheduled : List (ξ × α)
  outcome : Outcome

section

variable [DecidableEq α]

/-- {lit}`promise._executor = ex`. -/
def setExecutor (frames : α → Frame α ξ) (h : α) (ex : Option ξ) : α → Frame α ξ :=
  Function.update frames h { frames h with executor := ex }

/-- {lit}`ChangeLaziessExecutorTo`, with the number of frames it has changed; {lit}`none` is a
walk that has not ended within the fuel. -/
def changeLaziessExecutorTo : Nat → (α → Frame α ξ) → α → Option ξ →
    Option ((α → Frame α ξ) × Nat)
  | 0, _, _, _ => none
  | fuel + 1, frames, h, ex =>
      match getContinuationFromHandle frames h with
      | none => some (frames, 0)
      | some continuation =>
          (changeLaziessExecutorTo fuel (setExecutor frames h ex) continuation ex).map
            fun walk => (walk.1, walk.2 + 1)

/-- {lit}`DispatchAwaiter::await_suspend`. -/
def awaitSuspend [DecidableEq ξ] (fuel : Nat) (frames : α → Frame α ξ) (h : α) (ex : ξ)
    (schedule : Answer) : Option (Result α ξ) :=
  if (frames h).executor = some ex then
    some ⟨frames, [], .resumed⟩
  else do
    let oldEx := (frames h).executor
    let changed ← changeLaziessExecutorTo fuel frames h (some ex)
    match schedule with
    | .returnsTrue => some ⟨changed.1, [(ex, h)], .suspended⟩
    | .returnsFalse =>
        let restored ← changeLaziessExecutorTo fuel changed.1 h oldEx
        some ⟨restored.1, [(ex, h)], .raised .dispatchFailed⟩
    | .throws => some ⟨changed.1, [(ex, h)], .raised .fromSchedule⟩

end

/-! ## Await chains -/

/-- The frames from the awaiting one to the last {lit}`Lazy`, which the coroutine {lit}`root`
without a continuation awaits; all of them have the executor {lit}`e₀`. -/
structure AwaitChain (frames : α → Frame α ξ) (h : α) (lazies : List α) (root : α)
    (e₀ : Option ξ) : Prop where
  linked : Chain (getContinuationFromHandle frames) (some h) (lazies ++ [root])
  nonempty : lazies ≠ []
  executor : ∀ a ∈ lazies, (frames a).executor = e₀

/-- The frames of the list get the executor. -/
def setAll [DecidableEq α] (frames : α → Frame α ξ) (lazies : List α) (ex : Option ξ) :
    α → Frame α ξ :=
  fun a => if a ∈ lazies then { frames a with executor := ex } else frames a

/-- What {lit}`dispatch` promises for a chain: when the executor is the present one, nothing
happens; otherwise the frames of the chain get the new executor if {lit}`schedule` returns
true, and have the old one and an exception is raised if it returns false or throws.  Other
frames do not change, and the walk makes one round for every frame of the chain. -/
def AllOrNothing [DecidableEq α] [DecidableEq ξ] (frames : α → Frame α ξ) (h : α)
    (lazies : List α) (e₀ : Option ξ) (ex : ξ) (schedule : Answer) : Prop :=
  (∀ fuel, lazies.length < fuel → ∀ ex', ∃ frames',
    changeLaziessExecutorTo fuel frames h ex' = some (frames', lazies.length)) ∧
  ∀ fuel, lazies.length < fuel → ∃ r, awaitSuspend fuel frames h ex schedule = some r ∧
    (∀ a, a ∉ lazies → r.frames a = frames a) ∧
    if some ex = e₀ then
      r.scheduled = [] ∧ r.outcome = .resumed ∧ r.frames = frames
    else if schedule = .returnsTrue then
      r.outcome = .suspended ∧ ∀ a ∈ lazies, (r.frames a).executor = some ex
    else
      (∃ e, r.outcome = .raised e) ∧ ∀ a ∈ lazies, (r.frames a).executor = e₀

section

variable [DecidableEq α]

theorem setAll_of_not_mem {frames : α → Frame α ξ} {lazies : List α} {ex : Option ξ} {a : α}
    (ha : a ∉ lazies) : setAll frames lazies ex a = frames a :=
  if_neg ha

theorem setAll_of_mem {frames : α → Frame α ξ} {lazies : List α} {ex : Option ξ} {a : α}
    (ha : a ∈ lazies) : (setAll frames lazies ex a).executor = ex := by
  rw [setAll, if_pos ha]

/-- The walk does not look at the executors. -/
theorem continuation_setAll (frames : α → Frame α ξ) (lazies : List α) (ex : Option ξ) :
    getContinuationFromHandle (setAll frames lazies ex) = getContinuationFromHandle frames := by
  funext a
  simp only [getContinuationFromHandle, setAll]
  split <;> rfl

theorem continuation_setExecutor (frames : α → Frame α ξ) (h : α) (ex : Option ξ) :
    getContinuationFromHandle (setExecutor frames h ex) = getContinuationFromHandle frames := by
  funext a
  by_cases ha : a = h
  · subst ha
    simp [getContinuationFromHandle, setExecutor]
  · simp [getContinuationFromHandle, setExecutor, ha]

theorem setAll_cons (frames : α → Frame α ξ) (h : α) (lazies : List α) (ex : Option ξ) :
    setAll (setExecutor frames h ex) lazies ex = setAll frames (h :: lazies) ex := by
  funext a
  by_cases ha : a = h
  · subst ha
    by_cases hmem : a ∈ lazies <;> simp [setAll, setExecutor, hmem]
  · by_cases hmem : a ∈ lazies <;> simp [setAll, setExecutor, hmem, ha]

/-- Storing the old executor again undoes the walk. -/
theorem setAll_setAll {frames : α → Frame α ξ} {lazies : List α} {ex e₀ : Option ξ}
    (hexecutor : ∀ a ∈ lazies, (frames a).executor = e₀) :
    setAll (setAll frames lazies ex) lazies e₀ = frames := by
  funext a
  by_cases ha : a ∈ lazies
  · simp [setAll, ha, ← hexecutor a ha]
  · simp [setAll, ha]

/-- The walk changes the frames of the chain and ends at the root. -/
theorem changeLaziessExecutorTo_chain {frames : α → Frame α ξ} {h root : α} {lazies : List α}
    (hlinked : Chain (getContinuationFromHandle frames) (some h) (lazies ++ [root])) {fuel : Nat}
    (hfuel : lazies.length < fuel) (ex : Option ξ) :
    changeLaziessExecutorTo fuel frames h ex =
      some (setAll frames lazies ex, lazies.length) := by
  induction lazies generalizing frames h fuel with
  | nil =>
      rcases hlinked with ⟨hroot, hend⟩
      cases hroot
      rw [chain_nil] at hend
      have hsame : setAll frames [] ex = frames := by
        funext a
        simp [setAll]
      cases fuel with
      | zero => exact absurd hfuel (Nat.lt_irrefl _)
      | succ fuel => simp [changeLaziessExecutorTo, hend, hsame]
  | cons a lazies ih =>
      rcases hlinked with ⟨hhead, hrest⟩
      cases hhead
      cases fuel with
      | zero => exact absurd hfuel (Nat.not_lt_zero _)
      | succ fuel =>
          -- the frame has a continuation: the next frame of the chain, or the root
          cases hnext : getContinuationFromHandle frames a with
          | none =>
              rw [hnext] at hrest
              cases lazies <;> exact absurd hrest.1 nofun
          | some c =>
              rw [List.append_eq, hnext, ← continuation_setExecutor frames a ex] at hrest
              have hlater := ih hrest (Nat.lt_of_succ_lt_succ hfuel)
              rw [changeLaziessExecutorTo, hnext]
              simp only [hlater, Option.map_some, setAll_cons, List.length_cons]

/-- A chain is also one after a walk. -/
theorem AwaitChain.setAll {frames : α → Frame α ξ} {h root : α} {lazies : List α}
    {e₀ : Option ξ} (hchain : AwaitChain frames h lazies root e₀) (ex : Option ξ) :
    AwaitChain (setAll frames lazies ex) h lazies root ex where
  linked := by
    rw [continuation_setAll]
    exact hchain.linked
  nonempty := hchain.nonempty
  executor := fun _ ha => setAll_of_mem ha

omit [DecidableEq α] in
/-- The awaiting frame belongs to the chain. -/
theorem AwaitChain.head_mem {frames : α → Frame α ξ} {h root : α} {lazies : List α}
    {e₀ : Option ξ} (hchain : AwaitChain frames h lazies root e₀) : h ∈ lazies := by
  rcases List.exists_cons_of_ne_nil hchain.nonempty with ⟨a, rest, rfl⟩
  have hhead := hchain.linked.1
  cases hhead
  simp

variable [DecidableEq ξ]

/-- What {lit}`await_suspend` does with a chain. -/
theorem awaitSuspend_chain {frames : α → Frame α ξ} {h root : α} {lazies : List α}
    {e₀ : Option ξ} (hchain : AwaitChain frames h lazies root e₀) (ex : ξ) (schedule : Answer)
    {fuel : Nat} (hfuel : lazies.length < fuel) :
    awaitSuspend fuel frames h ex schedule = some (
      if e₀ = some ex then ⟨frames, [], .resumed⟩
      else match schedule with
        | .returnsTrue => ⟨Dispatch.setAll frames lazies (some ex), [(ex, h)], .suspended⟩
        | .returnsFalse => ⟨frames, [(ex, h)], .raised .dispatchFailed⟩
        | .throws => ⟨Dispatch.setAll frames lazies (some ex), [(ex, h)],
            .raised .fromSchedule⟩) := by
  have hold : (frames h).executor = e₀ := hchain.executor h hchain.head_mem
  have hwalk := changeLaziessExecutorTo_chain hchain.linked hfuel (some ex)
  have hback := changeLaziessExecutorTo_chain (hchain.setAll (some ex)).linked hfuel e₀
  rw [setAll_setAll hchain.executor] at hback
  rw [awaitSuspend, hold]
  split
  · rfl
  · cases schedule <;> simp [hwalk, hback]

/-- For every chain, every target and every behaviour of {lit}`schedule`: the promise is kept
exactly if the target is the present executor or {lit}`schedule` does not throw. -/
theorem allOrNothing_iff (frames : α → Frame α ξ) (h root : α) (lazies : List α) (e₀ : Option ξ)
    (ex : ξ) (schedule : Answer) (hchain : AwaitChain frames h lazies root e₀) :
    AllOrNothing frames h lazies e₀ ex schedule ↔ some ex = e₀ ∨ schedule ≠ .throws := by
  have hspec := fun (fuel : Nat) (hfuel : lazies.length < fuel) =>
    awaitSuspend_chain hchain ex schedule hfuel
  constructor
  · rintro ⟨-, hpromise⟩
    by_contra hbad
    rw [not_or, not_not] at hbad
    rcases hbad with ⟨hne, rfl⟩
    rcases hpromise (lazies.length + 1) (Nat.lt_succ_self _) with ⟨r, hr, -, hend⟩
    rw [hspec _ (Nat.lt_succ_self _), if_neg (Ne.symm hne), Option.some.injEq] at hr
    subst hr
    rw [if_neg hne, if_neg nofun] at hend
    have hhead := hend.2 h hchain.head_mem
    rw [setAll_of_mem hchain.head_mem] at hhead
    exact hne hhead
  · intro hgood
    refine ⟨fun fuel hfuel ex' =>
      ⟨_, changeLaziessExecutorTo_chain hchain.linked hfuel ex'⟩, fun fuel hfuel => ?_⟩
    refine ⟨_, hspec fuel hfuel, ?_⟩
    by_cases hsame : some ex = e₀
    · rw [if_pos hsame.symm, if_pos hsame]
      exact ⟨fun _ _ => rfl, rfl, rfl, rfl⟩
    · rw [if_neg (Ne.symm hsame), if_neg hsame]
      cases schedule with
      | returnsTrue =>
          rw [if_pos rfl]
          exact ⟨fun a ha => setAll_of_not_mem ha, rfl, fun a ha => setAll_of_mem ha⟩
      | returnsFalse =>
          rw [if_neg nofun]
          exact ⟨fun _ _ => rfl, ⟨_, rfl⟩, hchain.executor⟩
      | throws => exact absurd rfl (hgood.resolve_left hsame)

end

/-- Two frames under a root. -/
def twoFrames : Fin 3 → Frame (Fin 3) Bool :=
  fun a => ⟨if h : a.val + 1 < 3 then some ⟨a.val + 1, h⟩ else none, some false⟩

theorem twoFrames_chain : AwaitChain twoFrames 0 [0, 1] 2 (some false) where
  linked := by simp [twoFrames, getContinuationFromHandle]
  nonempty := nofun
  executor := fun _ _ => rfl

/-- A refused dispatch leaves both frames as they were. -/
theorem allOrNothing_iff_refused :
    AllOrNothing twoFrames 0 [0, 1] (some false) true .returnsFalse :=
  (allOrNothing_iff twoFrames 0 2 [0, 1] (some false) true .returnsFalse twoFrames_chain).mpr
    (.inr nofun)

/-- {lit}`schedule` throws, and both frames keep the new executor. -/
theorem not_allOrNothing_throws :
    AwaitChain twoFrames 0 [0, 1] 2 (some false) ∧
      ¬ AllOrNothing twoFrames 0 [0, 1] (some false) true .throws := by
  refine ⟨twoFrames_chain, ?_⟩
  rintro ⟨-, hpromise⟩
  rcases hpromise 3 (by decide) with ⟨r, hr, -, hend⟩
  rw [awaitSuspend_chain twoFrames_chain true .throws (by decide), if_neg nofun,
    Option.some.injEq] at hr
  subst hr
  rw [if_neg nofun, if_neg nofun] at hend
  have hhead := hend.2 0 (by decide)
  rw [setAll_of_mem (by decide)] at hhead
  cases hhead

end Dispatch

end AsyncSimple
