import AsyncSimple.Library.Counting
import AsyncSimple.Signal.Moves

/-!
# What a handler is told

A handler gets the signal types that were triggered, after the filter of its slot.
{lit}`SignalSlotSharedState::operator()` keeps them in a local variable, from which the loop
over the managers removes every type whose manager it has passed; this variable is also the
argument of the handlers.  A handler is therefore told the types whose managers are not newer
than its own.

Main results:

- Theorem {lit}`EmissionPc.Follows.step`: what is left in the local variable.
- Theorem {lit}`told_iff`: a call tells all handlers of a slot what was triggered exactly if
  none of them has a newer manager with a triggered type in front of it.
-/

namespace AsyncSimple

open Transition

namespace Signal

open SignalType

variable {κ ε : Type}

/-! ## Recording the arguments -/

/-- The first argument of a handler: {lit}`state` before the type of the handler is removed
from it. -/
def Visit.argument (v : Visit κ) (i : Index) : SignalType :=
  v.state ^^^ i.signal

/-- The walk passes its local variable on as it is. -/
theorem Visit.argument_done (v : Visit κ) (i : Index) (managers : List Index) :
    (v.done i managers).argument i = v.state := by
  simp only [Visit.argument, Visit.done, BitVec.xor_assoc, BitVec.xor_self, BitVec.xor_zero]

/-- An invocation of a handler: the call of {lit}`emits`, the slot, the type and the handler,
its argument, the types that the call has triggered, the filter that it has found on the slot
and the managers that it has found there, the newest first. -/
structure Told (κ ε : Type) where
  emission : ε
  slot : κ
  index : Index
  handler : Nat
  argument : SignalType
  triggered : SignalType
  filter : SignalType
  managers : List Index
deriving DecidableEq

/-- The types triggered after filtering. -/
def Told.expected (x : Told κ ε) : SignalType :=
  x.triggered &&& x.filter

/-- The types whose managers were created after that of the handler. -/
def Told.newer (x : Told κ ε) : List Index :=
  x.managers.takeWhile fun j => j ≠ x.index

/-- A signal with a record of what its handlers were told, and for every call of
{lit}`emits` what it has loaded from the slot it is at. -/
structure Observed (κ ε : Type) where
  system : System κ ε
  filter : ε → SignalType
  managers : ε → List Index
  told : List (Told κ ε)

def Observed.initial (place₀ : κ × Index) : Observed κ ε where
  system := System.initial place₀
  filter := fun _ => 0#64
  managers := fun _ => []
  told := []

/-- What the next step of a call loads, or tells a handler. -/
def Observed.observe [DecidableEq ε] (s : Observed κ ε) (e : ε) : Observed κ ε :=
  match s.system.emission e with
  | .nodes _ (k :: _) => { s with filter := Function.update s.filter e (s.system.filter k) }
  | .managers v =>
      { s with managers := Function.update s.managers e (s.system.managers v.slot) }
  | .call v i (.handler h) =>
      { s with told := s.told ++
          [⟨e, v.slot, i, h, v.argument i, v.valid, s.filter e, s.managers e⟩] }
  | _ => s

/-- The record after a move. -/
def Observed.record [DecidableEq ε] (s : Observed κ ε) : Label κ ε → Observed κ ε
  | .emission e _ => s.observe e
  | _ => s

def Observed.step [DecidableEq κ] [DecidableEq ε] (s : Observed κ ε) (l : Label κ ε) :
    Option (Observed κ ε) :=
  (Signal.step s.system l).map fun system => { s.record l with system := system }

/-- A signal whose handlers are observed. -/
def observedMachine [DecidableEq κ] [DecidableEq ε] : Machine (Observed κ ε) (Label κ ε) where
  step := Observed.step

/-! ## The local variable of the walk -/

/-- Of the expected types, those of the passed managers are gone. -/
def Remains (expected : SignalType) (passed : List Index) (state : SignalType) : Prop :=
  ∀ j, has state j = (has expected j && !passed.contains j)

theorem Remains.nil (expected : SignalType) : Remains expected [] expected := by
  intro j
  simp

/-- A manager whose type is not in the variable is passed. -/
theorem Remains.skip {expected state : SignalType} {passed : List Index} {i : Index}
    (h : Remains expected passed state) (hi : has state i = false) :
    Remains expected (passed ++ [i]) state := by
  intro j
  by_cases hj : j = i
  · subst hj
    rw [hi]
    simp
  · rw [h j]
    simp [hj]

/-- The type of a manager is removed. -/
theorem Remains.done {expected state : SignalType} {passed : List Index} {i : Index}
    (h : Remains expected passed state) (hi : has state i = true) :
    Remains expected (passed ++ [i]) (state ^^^ i.signal) := by
  intro j
  by_cases hj : i = j
  · subst hj
    simp [hi]
  · rw [has_xor, has_signal, h j]
    simp [hj, Ne.symm hj]

/-- The variable has lost nothing exactly if no passed manager has an expected type. -/
theorem Remains.eq_iff {expected state : SignalType} {passed : List Index}
    (h : Remains expected passed state) :
    state = expected ↔ ∀ j ∈ passed, has expected j = false := by
  constructor
  · rintro rfl j hj
    have hbit := h j
    simpa [hj] using hbit
  · intro hnone
    refine ext_has fun j => ?_
    rw [h j]
    by_cases hj : j ∈ passed
    · simp [hnone j hj]
    · simp [hj]

/-- What a call has loaded from a slot and what is left of it. -/
def EmissionPc.Follows (filter : SignalType) (managers : List Index) : EmissionPc κ → Prop
  | .managers v => v.state = v.valid &&& filter
  | .chained v => v.state = v.valid &&& filter ∧ v.managers = managers
  | .walk v => ∃ passed, managers = passed ++ v.managers ∧
      Remains (v.valid &&& filter) passed v.state
  | .call v i _ => ∃ passed, managers = passed ++ i :: v.managers ∧ i ∉ passed ∧
      Remains (v.valid &&& filter) passed (v.argument i) ∧
      Remains (v.valid &&& filter) (passed ++ [i]) v.state
  | _ => True

/-- Behind a manager with a type of the variable. -/
theorem EmissionPc.Follows.done {filter : SignalType} {managers : List Index} {v : Visit κ}
    {i : Index} {rest : List Index} (h : (EmissionPc.walk v).Follows filter managers)
    (hm : v.managers = i :: rest) (hbit : has v.state i = true) (found : Cell Nat) :
    (EmissionPc.walk (v.done i rest)).Follows filter managers ∧
      (EmissionPc.call (v.done i rest) i found).Follows filter managers := by
  rcases h with ⟨passed, hmanagers, hremains⟩
  rw [hm] at hmanagers
  have hdone := hremains.done hbit
  refine ⟨⟨passed ++ [i], by simp [hmanagers, Visit.done], hdone⟩, passed, hmanagers, ?_, ?_, hdone⟩
  · intro hi
    have hgone := hremains i
    rw [hbit] at hgone
    simp [hi] at hgone
  · rw [Visit.argument_done]
    exact hremains

/-- What a call has loaded when it goes on from a program point. -/
def System.loads (s : System κ ε) (filter : SignalType) (managers : List Index) :
    EmissionPc κ → SignalType × List Index
  | .nodes _ (k :: _) => (s.filter k, managers)
  | .managers v => (filter, s.managers v.slot)
  | _ => (filter, managers)

theorem Forward.follows {s : System κ ε} {pc pc' : EmissionPc κ} (h : Forward s pc pc')
    {filter : SignalType} {managers : List Index} (hfollows : pc.Follows filter managers) :
    pc'.Follows (s.loads filter managers pc).1 (s.loads filter managers pc).2 := by
  cases h with
  | filter valid k rest => exact rfl
  | load v => exact ⟨hfollows, rfl⟩
  | chained v =>
      rcases hfollows with ⟨hstate, hmanagers⟩
      refine ⟨[], hmanagers.symm, ?_⟩
      rw [hstate]
      exact Remains.nil _
  | skip v i rest hm hbit =>
      rcases hfollows with ⟨passed, hmanagers, hremains⟩
      refine ⟨passed ++ [i], ?_, hremains.skip hbit⟩
      rw [hm] at hmanagers
      simp [System.loads, hmanagers]
  | multi v i rest hm hbit hi => exact (EmissionPc.Follows.done hfollows hm hbit .null).1
  | multiCall v i rest hm hbit hi hfound => exact (EmissionPc.Follows.done hfollows hm hbit _).2
  | _ => trivial

section

variable [DecidableEq κ] [DecidableEq ε]

omit [DecidableEq κ] in
theorem System.setEmission_emission_self (s : System κ ε) (e : ε) (pc : EmissionPc κ) :
    (s.setEmission e pc).emission e = pc := by
  simp [System.setEmission]

/-- A step of a call keeps track of its local variable. -/
theorem EmissionPc.Follows.step {s s' : System κ ε} {e : ε} (hmove : EmissionMove s e s')
    {filter : SignalType} {managers : List Index}
    (h : (s.emission e).Follows filter managers) :
    (s'.emission e).Follows (s.loads filter managers (s.emission e)).1
      (s.loads filter managers (s.emission e)).2 := by
  cases hmove with
  | forward pc hforward =>
      rw [System.setEmission_emission_self]
      exact hforward.follows h
  | update type hpc =>
      rw [hpc]
      simp [System.setEmission, EmissionPc.Follows]
  | exchange v i rest hpc hm hbit hi =>
      rw [hpc] at h ⊢
      rw [System.setEmission_emission_self, afterExchange]
      split
      · exact (h.done hm hbit .null).1
      · exact (h.done hm hbit _).2
  | call v i found hpc =>
      rw [hpc] at h ⊢
      rw [System.setEmission_emission_self]
      rcases h with ⟨passed, hmanagers, -, -, hremains⟩
      exact ⟨passed ++ [i], by simp [System.loads, hmanagers], hremains⟩

/-! ## The invariant -/

/-- The handler was told all types exactly if none of them has a newer manager. -/
def Told.Exact (x : Told κ ε) : Prop :=
  x.argument = x.expected ↔ ∀ j ∈ x.newer, has x.expected j = false

/-- Every call is where its record says, and the record of the handlers is exact. -/
structure ToldInv (s : Observed κ ε) : Prop where
  follows : ∀ e, (s.system.emission e).Follows (s.filter e) (s.managers e)
  exact : ∀ x ∈ s.told, x.Exact

namespace ToldInv

variable {s s' : Observed κ ε}

omit [DecidableEq κ] [DecidableEq ε] in
theorem initial (place₀ : κ × Index) : ToldInv (Observed.initial place₀ : Observed κ ε) where
  follows := fun _ => trivial
  exact := by simp [Observed.initial]

omit [DecidableEq κ] in
/-- The record follows the loads of the call and no other's. -/
theorem observe_loads (s : Observed κ ε) (e : ε) :
    (∀ e', e' ≠ e → (s.observe e).filter e' = s.filter e' ∧
      (s.observe e).managers e' = s.managers e') ∧
    ((s.observe e).filter e, (s.observe e).managers e) =
      s.system.loads (s.filter e) (s.managers e) (s.system.emission e) := by
  unfold Observed.observe
  split
  · next valid k rest hpc =>
      refine ⟨fun e' he' => ⟨Function.update_of_ne he' _ _, rfl⟩, ?_⟩
      simp [System.loads, hpc]
  · next v hpc =>
      refine ⟨fun e' he' => ⟨rfl, Function.update_of_ne he' _ _⟩, ?_⟩
      simp [System.loads, hpc]
  · next v i h hpc =>
      refine ⟨fun e' he' => ⟨rfl, rfl⟩, ?_⟩
      simp [System.loads, hpc]
  · next hnodes hmanagers _ =>
      refine ⟨fun e' he' => ⟨rfl, rfl⟩, ?_⟩
      unfold System.loads
      split
      · next valid k rest hpc => exact absurd hpc (hnodes valid k rest)
      · next v hpc => exact absurd hpc (hmanagers v)
      · rfl

omit [DecidableEq κ] in
/-- A handler that is told something is told it exactly. -/
theorem observe_told (h : ToldInv s) (e : ε) : ∀ x ∈ (s.observe e).told, x.Exact := by
  intro x hx
  unfold Observed.observe at hx
  split at hx
  · exact h.exact x hx
  · exact h.exact x hx
  · next v i g hpc =>
      rcases List.mem_append.mp hx with hx | hx
      · exact h.exact x hx
      · have hfollows := h.follows e
        rw [hpc] at hfollows
        rcases hfollows with ⟨passed, hmanagers, hi, hremains, -⟩
        rw [List.mem_singleton] at hx
        subst hx
        have hnewer : (s.managers e).takeWhile (fun j => j ≠ i) = passed := by
          rw [hmanagers, List.takeWhile_append_of_pos]
          · simp
          · intro j hj
            simpa using ne_of_mem_of_not_mem hj hi
        rw [Told.Exact, Told.newer]
        dsimp only
        rw [hnewer]
        exact hremains.eq_iff
  · exact h.exact x hx

theorem step (h : ToldInv s) {l : Label κ ε} (hstep : s.step l = some s') : ToldInv s' := by
  rcases Option.map_eq_some_iff.mp hstep with ⟨system, hsystem, rfl⟩
  cases l with
  | emission e spurious =>
      refine ⟨fun e' => ?_, h.observe_told e⟩
      have hmove := emissionMove_of_emissionStep hsystem
      rcases observe_loads s e with ⟨hothers, hloads⟩
      by_cases he : e' = e
      · subst he
        have hfollows := EmissionPc.Follows.step hmove (h.follows e')
        rw [← hloads] at hfollows
        exact hfollows
      · have hsame : system.emission e' = s.system.emission e' := by
          cases hmove with
          | call v i found hpc => cases found <;> exact Function.update_of_ne he _ _
          | _ => exact Function.update_of_ne he _ _
        have hkept := h.follows e'
        rw [← hsame, ← (hothers e' he).1, ← (hothers e' he).2] at hkept
        exact hkept
  | emits e type =>
      refine ⟨fun e' => ?_, h.exact⟩
      simp only [Signal.step, Option.ite_none_right_eq_some, Option.some.injEq] at hsystem
      rcases hsystem with ⟨hpc, rfl⟩
      refine forall_update (p := fun e' pc => EmissionPc.Follows (s.filter e') (s.managers e') pc)
        ?_ h.follows e'
      split <;> trivial
  | _ =>
      refine ⟨fun e' => ?_, h.exact⟩
      rcases ownerMove_of_step hsystem (by simp) (by simp) with ⟨k, hmove⟩
      have hkept := h.follows e'
      rw [← hmove.frame.2] at hkept
      exact hkept

end ToldInv

/-! ## All runs -/

/-- In every run and for every slot: a call of {lit}`emits` tells all handlers that it invokes
on the slot the types that it has triggered, after the filter of the slot, exactly if none of
these types has a manager on the slot that is newer than the manager of an invoked handler. -/
theorem told_iff (place₀ : κ × Index) (ls : List (Label κ ε)) (s : Observed κ ε)
    (hrun : observedMachine.run (Observed.initial place₀) ls = some s) (e : ε) (k : κ) :
    (∀ x ∈ s.told, x.emission = e → x.slot = k → x.argument = x.triggered &&& x.filter) ↔
      ∀ x ∈ s.told, x.emission = e → x.slot = k →
        ∀ j ∈ x.newer, has (x.triggered &&& x.filter) j = false := by
  have hinv : ToldInv s :=
    observedMachine.run_invariant (fun _ _ _ h hstep => h.step hstep) (ToldInv.initial place₀) hrun
  constructor
  · intro htold x hx he hk
    exact (hinv.exact x hx).mp (htold x hx he hk)
  · intro hnewer x hx he hk
    exact (hinv.exact x hx).mpr (hnewer x hx he hk)

end

/-- A slot registers two handlers, and both signals are emitted at once. -/
def twoHandlers (k e : Fin 1) (i j : Index) : List (Label (Fin 1) (Fin 1)) :=
  [.regist k 0xFFFFFFFFFFFFFFFF#64, .owner k false] ++
    .emplace k i :: List.replicate 5 (.owner k false) ++
    .emplace k j :: List.replicate 5 (.owner k false) ++
    .emits e 0x30000#64 :: List.replicate 9 (.emission e false)

theorem told_iff_twoHandlers :
    ∃ s, observedMachine.run (Observed.initial (0, 0)) (twoHandlers 0 0 16 17) = some s ∧
      s.told.map Told.argument = [0x30000#64, 0x10000#64] ∧
      ¬ ∀ x ∈ s.told, x.emission = 0 → x.slot = 0 →
        ∀ j ∈ x.newer, has (x.triggered &&& x.filter) j = false := by
  rcases observedMachine.exists_run_of_any (Observed.initial (0, 0)) (twoHandlers 0 0 16 17)
    (fun s => s.told.map Told.argument = [0x30000#64, 0x10000#64] ∧
      ¬ ∀ x ∈ s.told, x.emission = 0 → x.slot = 0 → x.argument = x.triggered &&& x.filter)
    (by decide +kernel) with ⟨s, hrun, harguments, hs⟩
  exact ⟨s, hrun, harguments, fun h => hs ((told_iff (0, 0) _ s hrun 0 0).mpr h)⟩

/-- The handler that was registered first is not told that the other signal was emitted, too. -/
theorem exists_not_told :
    ∃ s, observedMachine.run (Observed.initial (0, 0)) (twoHandlers 0 0 16 17) = some s ∧
      ¬ ∀ x ∈ s.told, x.emission = 0 → x.slot = 0 → x.argument = x.triggered &&& x.filter :=
  observedMachine.exists_run_of_any (Observed.initial (0, 0)) (twoHandlers 0 0 16 17)
    (fun s => ¬ ∀ x ∈ s.told, x.emission = 0 → x.slot = 0 →
      x.argument = x.triggered &&& x.filter) (by decide +kernel)

end Signal

end AsyncSimple
