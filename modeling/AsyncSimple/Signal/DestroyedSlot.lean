import AsyncSimple.Signal.Revocation

/-!
# Emissions after a slot is destroyed

The node of a slot and its handlers belong to the signal and outlive the slot.  {lit}`~Slot`
exchanges the pointer {lit}`_chainedSignalHandler` for null and leaves the cells of the
ordinary handlers as they are.  An emission that has already loaded one of the pointers calls
the handler when it comes to it.

The machine is that of the signal, with the chained handlers, whose pointer an emission loads
in a step before the call, and with the destructors.  A {lit}`FilterGuard` stores filters as
{lit}`setFilter` does.

Main results:

- Theorem {lit}`SilentInv.step`: a slot that is destroyed while none of its handlers can be
  reached stays silent.
- Theorem {lit}`silent_of_dormant`: in every run of this kind no handler of a destroyed slot
  is started.
-/

namespace AsyncSimple

open Transition

namespace Signal

open SignalType

variable {κ ε ν : Type}

/-! ## Slots that are destroyed -/

/-- A handler that an emission has started: an ordinary one, or a chained one with the signal
it captures. -/
inductive Started (ν : Type) where
  | handler (h : Nat)
  | chained (target : ν)
deriving DecidableEq, Repr

/-- A signal with the chained handlers of its slots, the chained handlers that emissions have
loaded and not called yet, with their slots, and the slots whose destructor has returned.
{lit}`late` records the handlers that were started after the destruction of the slot they had
been registered through. -/
structure Destroying (κ ε ν : Type) where
  system : System κ ε
  chainedSignalHandler : κ → Option ν
  loaded : ε → Option (κ × ν)
  destroyed : κ → Bool
  late : List (κ × Started ν)

def Destroying.initial (place₀ : κ × Index) : Destroying κ ε ν where
  system := System.initial place₀
  chainedSignalHandler := fun _ => none
  loaded := fun _ => none
  destroyed := fun _ => false
  late := []

/-- The moves of the signal, {lit}`Slot::chainedSignal` and {lit}`~Slot`. -/
inductive DestroyLabel (κ ε ν : Type) where
  | signal (l : Label κ ε)
  | chainedSignal (k : κ) (target : Option ν)
  | destroy (k : κ)
deriving DecidableEq, Repr

/-- A handler of the slot {lit}`k` begins to run. -/
def Destroying.start (s : Destroying κ ε ν) (k : κ) (started : Started ν) : Destroying κ ε ν :=
  { s with late := if s.destroyed k then (k, started) :: s.late else s.late }

variable [DecidableEq κ] [DecidableEq ε]

/-- The signal moves by itself. -/
def Destroying.moves (s : Destroying κ ε ν) (l : Label κ ε) : Option (Destroying κ ε ν) :=
  (Signal.step s.system l).map fun system => { s with system := system }

/-- A step of an emission.  A chained handler is called when its pointer is not null and a
type passes the filter. -/
def Destroying.emissionStep (s : Destroying κ ε ν) (e : ε) (spurious : Bool) :
    Option (Destroying κ ε ν) :=
  match s.system.emission e with
  | .chained v =>
      match s.loaded e with
      | some (k, target) =>
          ({ s with loaded := Function.update s.loaded e none }.start k (.chained target)).moves
            (.emission e spurious)
      | none =>
          match s.chainedSignalHandler v.slot with
          | some target =>
              if v.state ≠ 0#64 then
                some { s with loaded := Function.update s.loaded e (some (v.slot, target)) }
              else
                s.moves (.emission e spurious)
          | none => s.moves (.emission e spurious)
  | .call _ _ (.handler h) =>
      (s.start (s.system.place h).1 (.handler h)).moves (.emission e spurious)
  | _ => s.moves (.emission e spurious)

def Destroying.step (s : Destroying κ ε ν) : DestroyLabel κ ε ν → Option (Destroying κ ε ν)
  | .signal l =>
      -- nobody uses a slot after its destruction
      if l.ownerOf.any s.destroyed then
        none
      else
        match l with
        | .emission e spurious => s.emissionStep e spurious
        | l => s.moves l
  | .chainedSignal k target =>
      if s.system.owner k = .idle ∧ s.destroyed k = false then
        some { s with chainedSignalHandler := Function.update s.chainedSignalHandler k target }
      else
        none
  | .destroy k =>
      if s.system.owner k = .idle ∧ s.destroyed k = false then
        some { s with
          chainedSignalHandler := Function.update s.chainedSignalHandler k none
          destroyed := Function.update s.destroyed k true }
      else
        none

/-- A signal whose slots are destroyed. -/
def destroyingMachine : Machine (Destroying κ ε ν) (DestroyLabel κ ε ν) where
  step := Destroying.step

/-- No handler was started after the destruction of its slot. -/
def Silent (s : Destroying κ ε ν) : Prop :=
  s.late = []

instance (k : κ) (i : Index) (pc : EmissionPc κ) : Decidable (pc.Admitted k i) :=
  match pc with
  | .managers v | .chained v | .walk v =>
      inferInstanceAs (Decidable (v.slot = k ∧ has v.state i = true))
  | .call v j _ => inferInstanceAs (Decidable (v.slot = k ∧ (j = i ∨ has v.state i = true)))
  | .notCalled | .update _ _ | .head _ | .nodes _ _ | .returned _ => isFalse id

instance [Fintype ε] (k : κ) (i : Index) (s : System κ ε) : Decidable (Closed k i s) :=
  inferInstanceAs (Decidable (∀ e, ¬ (s.emission e).Admitted k i))

/-- No emission can come to the handler of the type: the cell has none, or the filter excludes
the type and no emission that was admitted before is still at the slot. -/
def Unreachable (s : System κ ε) (k : κ) (i : Index) : Prop :=
  (s.handler k i).handler? = none ∨ Excludes k i s ∧ Closed k i s

/-- None of the handlers of the slot can be reached: not through a cell, not by an emission
that has found one of them, and not by one that has loaded the chained one. -/
structure Dormant (s : Destroying κ ε ν) (k : κ) : Prop where
  cells : ∀ i, Unreachable s.system k i
  hands : ∀ e, ∀ h ∈ (s.system.emission e).inHand, (s.system.place h).1 ≠ k
  loaded : ∀ e, ∀ p ∈ s.loaded e, p.1 ≠ k

/-- A slot is destroyed when none of its handlers can be reached. -/
def DestroysDormant (s : Destroying κ ε ν) : DestroyLabel κ ε ν → Prop
  | .destroy k => Dormant s k
  | _ => True

instance [Fintype ε] (s : Destroying κ ε ν) (k : κ) : Decidable (Dormant s k) :=
  have : ∀ i, Decidable (Unreachable s.system k i) := fun _ => inferInstanceAs (Decidable (_ ∨ _))
  decidable_of_iff ((∀ i, Unreachable s.system k i) ∧
      (∀ e, ∀ h ∈ (s.system.emission e).inHand, (s.system.place h).1 ≠ k) ∧
      ∀ e, ∀ p ∈ s.loaded e, p.1 ≠ k)
    ⟨fun h => ⟨h.1, h.2.1, h.2.2⟩, fun h => ⟨h.cells, h.hands, h.loaded⟩⟩

instance [Fintype ε] (s : Destroying κ ε ν) (l : DestroyLabel κ ε ν) :
    Decidable (DestroysDormant s l) :=
  match l with
  | .destroy k => inferInstanceAs (Decidable (Dormant s k))
  | .signal _ | .chainedSignal _ _ => isTrue trivial

/-! ## What happens to a slot that its owner leaves alone -/

section

variable {s s' : System κ ε}

/-- The calls and steps of the owner of a slot are its moves. -/
theorem ownerMove_of_ownerOf {l : Label κ ε} {k : κ} (hl : l.ownerOf = some k)
    (hstep : Signal.step s l = some s') : OwnerMove s k s' := by
  cases l with
  | emits e type | emission e spurious => cases hl
  | owner k' spurious =>
      cases hl
      exact ownerMove_of_ownerStep hstep
  | clear k' i =>
      cases hl
      simp only [Signal.step, Option.ite_none_right_eq_some, Option.some.injEq] at hstep
      rcases hstep with ⟨hpc, rfl⟩
      split
      · next hi => exact .clear i hpc hi
      · exact .nothing hpc
  | regist k' filter | setFilter k' filter | emplace k' i =>
      cases hl
      simp only [Signal.step, Option.ite_none_right_eq_some, Option.some.injEq] at hstep
      rcases hstep with ⟨hpc, rfl⟩
      constructor
      exact hpc

/-- A step is a move of its owner, or a move of an emission. -/
theorem ownerMove_or_emissionMove {l : Label κ ε} (hstep : Signal.step s l = some s') :
    (∃ k, l.ownerOf = some k ∧ OwnerMove s k s') ∨
      l.ownerOf = none ∧ ∃ e, EmissionMove s e s' := by
  cases l with
  | emits e type => exact .inr ⟨rfl, e, emissionMove_of_emits hstep⟩
  | emission e spurious => exact .inr ⟨rfl, e, emissionMove_of_emissionStep hstep⟩
  | _ => exact .inl ⟨_, rfl, ownerMove_of_ownerOf rfl hstep⟩

omit [DecidableEq ε] in
/-- An owner changes no other filter. -/
theorem OwnerMove.filter_other {k k' : κ} (h : OwnerMove s k s') (hk : k' ≠ k) :
    s'.filter k' = s.filter k' := by
  cases h with
  | setFilter filter hpc | register filter hpc => exact Function.update_of_ne hk _ _
  | cell i pc s' hpc hmove => cases hmove <;> rfl
  | _ => rfl

/-- An emission changes a cell by exchanging its handler for the tag. -/
theorem EmissionMove.handler_cases {e : ε} (h : EmissionMove s e s') (k : κ) (i : Index) :
    s'.handler k i = s.handler k i ∨ s'.handler k i = .emittedTag := by
  cases h with
  | exchange v j managers hpc hm hbit hj =>
      by_cases hcell : k = v.slot ∧ i = j
      · rcases hcell with ⟨rfl, rfl⟩
        exact .inr System.setCell_handler_self
      · exact .inl (System.setCell_handler_of_ne hcell)
  | call v j found hpc => cases found <;> exact .inl rfl
  | _ => exact .inl rfl

/-- An emission comes to a handler through its cell. -/
theorem EmissionMove.of_call {e e' : ε} (h : EmissionMove s e s') {v : Visit κ} {i : Index}
    {g : Nat} (hcall : s'.emission e' = .call v i (.handler g)) :
    s.emission e' = .call v i (.handler g) ∨ s.handler v.slot i = .handler g := by
  have hset : ∀ pc : EmissionPc κ, Function.update s.emission e pc e' = .call v i (.handler g) →
      s.emission e' = .call v i (.handler g) ∨ pc = .call v i (.handler g) := by
    intro pc hpc
    by_cases he : e' = e
    · subst he
      rw [Function.update_self] at hpc
      exact .inr hpc
    · exact .inl ((Function.update_of_ne he _ _).symm.trans hpc)
  cases h with
  | forward pc hforward =>
      refine (hset pc hcall).imp_right ?_
      rintro rfl
      exact hforward.of_call.2.symm
  | update type hpc =>
      refine (hset _ hcall).imp_right fun hpc => ?_
      cases hpc
  | exchange w j managers hpc hm hbit hj =>
      refine (hset _ hcall).imp_right fun hpc => ?_
      unfold afterExchange at hpc
      split at hpc
      · cases hpc
      · injection hpc with hv hi hfound
        subst hv hi
        exact hfound
  | call w j found hpc =>
      have hemission : (runHandler s found).emission = s.emission := by cases found <;> rfl
      rw [System.setEmission, hemission] at hcall
      refine (hset _ hcall).imp_right fun hpc => ?_
      cases hpc

/-- What cannot be reached stays so, unless the owner calls something. -/
theorem Unreachable.step {k : κ} {i : Index} (h : Unreachable s k i) {l : Label κ ε}
    (hl : l.ownerOf ≠ some k) (hstep : Signal.step s l = some s') : Unreachable s' k i := by
  rcases ownerMove_or_emissionMove hstep with ⟨k', hk', hmove⟩ | ⟨-, e, hmove⟩
  · have hne : k ≠ k' := by
      rintro rfl
      exact hl hk'
    rcases h with hcell | ⟨hfilter, hclosed⟩
    · exact .inl (by rwa [(hmove.frame_other hne).2])
    · refine .inr ⟨?_, hclosed.step hfilter hstep⟩
      rwa [Excludes, hmove.filter_other hne]
  · rcases h with hcell | ⟨hfilter, hclosed⟩
    · left
      rcases hmove.handler_cases k i with hsame | htag
      · rwa [hsame]
      · rw [htag]
        rfl
    · refine .inr ⟨?_, hclosed.step hfilter hstep⟩
      rwa [Excludes, hmove.frame.2.2.1]

/-- An emission does not find a handler that cannot be reached. -/
theorem hands_step (hinv : Inv s) {k : κ} (hcells : ∀ i, Unreachable s k i)
    (hhands : ∀ e, ∀ h ∈ (s.emission e).inHand, (s.place h).1 ≠ k) {l : Label κ ε}
    (hstep : Signal.step s l = some s') :
    ∀ e, ∀ h ∈ (s'.emission e).inHand, (s'.place h).1 ≠ k := by
  intro e' g hg hplace
  have hcall : ∃ v i, s'.emission e' = .call v i (.handler g) := by
    unfold EmissionPc.inHand at hg
    split at hg
    case h_1 v i f hpc =>
      cases hg
      exact ⟨v, i, hpc⟩
    case h_2 => cases hg
  rcases hcall with ⟨v, i, hcall⟩
  have hbefore : s.emission e' = .call v i (.handler g) → False := by
    intro hpc
    rcases hinv.handlers.inCall e' v i g hpc with ⟨hcreated, -, -⟩
    rw [(place_step hstep).2 g hcreated] at hplace
    exact hhands e' g (by rw [hpc]; rfl) hplace
  rcases ownerMove_or_emissionMove hstep with ⟨k', hk', hmove⟩ | ⟨-, e, hmove⟩
  · rw [hmove.frame.2] at hcall
    exact hbefore hcall
  · rcases hmove.of_call hcall with hpc | hcell
    · exact hbefore hpc
    · have hslot : v.slot = k := by
        rw [← hplace, ((hinv.step hstep).handlers.inCall e' v i g hcall).2.1]
      rw [hslot] at hcell
      rcases hcells i with hnone | ⟨hfilter, hclosed⟩
      · rw [hcell] at hnone
        cases hnone
      · refine hclosed.step hfilter hstep e' ?_
        rw [hcall]
        exact ⟨hslot, .inl rfl⟩

end

/-! ## The invariant -/

/-- The destroyed slots are dormant and have no chained handler. -/
structure SilentInv (s : Destroying κ ε ν) : Prop where
  inv : Inv s.system
  dormant : ∀ k, s.destroyed k = true → Dormant s k
  chained : ∀ k, s.destroyed k = true → s.chainedSignalHandler k = none
  silent : Silent s

namespace SilentInv

variable {s s' : Destroying κ ε ν}

omit [DecidableEq κ] [DecidableEq ε] in
theorem initial (place₀ : κ × Index) :
    SilentInv (Destroying.initial place₀ : Destroying κ ε ν) where
  inv := Inv.initial place₀
  dormant := by simp [Destroying.initial]
  chained := by simp [Destroying.initial]
  silent := rfl

/-- A step of the signal in which no owner of a destroyed slot takes part. -/
theorem moves (h : SilentInv s) {l : Label κ ε} (hl : ¬ l.ownerOf.any s.destroyed)
    (hstep : s.moves l = some s') : SilentInv s' := by
  rcases Option.map_eq_some_iff.mp hstep with ⟨system, hsystem, rfl⟩
  refine ⟨h.inv.step hsystem, fun k hk => ?_, h.chained, h.silent⟩
  have howner : l.ownerOf ≠ some k := by
    intro hlk
    exact hl (by rw [hlk]; exact hk)
  have hdormant := h.dormant k hk
  exact {
    cells := fun i => (hdormant.cells i).step howner hsystem
    hands := hands_step h.inv hdormant.cells hdormant.hands hsystem
    loaded := hdormant.loaded }

omit [DecidableEq κ] [DecidableEq ε] in
/-- A handler of a slot that lives is started. -/
theorem start (h : SilentInv s) {k : κ} (hk : s.destroyed k = false) (started : Started ν) :
    SilentInv (s.start k started) := by
  have heq : s.start k started = s := by
    unfold Destroying.start
    rw [hk]
    rfl
  rwa [heq]

omit [DecidableEq κ] in
/-- An emission loads a chained handler of a slot that lives, or calls it. -/
theorem setLoaded (h : SilentInv s) {e : ε} {loaded : Option (κ × ν)}
    (hloaded : ∀ p ∈ loaded, s.destroyed p.1 = false) :
    SilentInv { s with loaded := Function.update s.loaded e loaded } where
  inv := h.inv
  dormant := by
    intro k hk
    have hdormant := h.dormant k hk
    refine ⟨hdormant.cells, hdormant.hands, ?_⟩
    refine forall_update (p := fun _ (loaded : Option (κ × ν)) => ∀ p ∈ loaded, p.1 ≠ k) ?_
      hdormant.loaded
    rintro p hp rfl
    rw [hloaded p hp] at hk
    cases hk
  chained := h.chained
  silent := h.silent

theorem emissionStep (h : SilentInv s) {e : ε} {spurious : Bool}
    (hstep : s.emissionStep e spurious = some s') : SilentInv s' := by
  have hmoves : ∀ {t : Destroying κ ε ν}, SilentInv t →
      t.moves (.emission e spurious) = some s' → SilentInv s' := fun ht hmove =>
    ht.moves (by simp [Label.ownerOf]) hmove
  unfold Destroying.emissionStep at hstep
  split at hstep
  case h_1 v hpc =>
    split at hstep
    case h_1 k target hloaded =>
      have hk : s.destroyed k = false := by
        by_contra hk
        exact (h.dormant k (Bool.eq_true_of_not_eq_false hk)).loaded e (k, target) hloaded rfl
      have hcleared : SilentInv { s with loaded := Function.update s.loaded e none } :=
        h.setLoaded fun p hp => absurd hp (Option.not_mem_none p)
      exact hmoves (hcleared.start hk _) hstep
    case h_2 hloaded =>
      split at hstep
      case h_1 target htarget =>
        split at hstep
        case isTrue =>
          cases hstep
          refine h.setLoaded fun p hp => ?_
          cases hp
          by_contra hk
          have hnone := h.chained v.slot (Bool.eq_true_of_not_eq_false hk)
          rw [htarget] at hnone
          cases hnone
        case isFalse => exact hmoves h hstep
      case h_2 => exact hmoves h hstep
  case h_2 v i g hpc =>
    have hk : s.destroyed (s.system.place g).1 = false := by
      by_contra hk
      exact (h.dormant _ (Bool.eq_true_of_not_eq_false hk)).hands e g (by rw [hpc]; rfl) rfl
    exact hmoves (h.start hk _) hstep
  case h_3 => exact hmoves h hstep

omit [DecidableEq ε] in
/-- The owner of a slot that lives sets or removes its chained handler. -/
theorem setChained (h : SilentInv s) {k : κ} (hk : s.destroyed k = false) (target : Option ν) :
    SilentInv { s with
      chainedSignalHandler := Function.update s.chainedSignalHandler k target } where
  inv := h.inv
  dormant := fun k' hk' => { h.dormant k' hk' with }
  chained := by
    intro k' hk'
    have hne : k' ≠ k := by
      rintro rfl
      exact Bool.noConfusion (hk.symm.trans hk')
    exact (Function.update_of_ne hne _ _).trans (h.chained k' hk')
  silent := h.silent

omit [DecidableEq ε] in
/-- A slot is destroyed that is dormant. -/
theorem destroy (h : SilentInv s) {k : κ} (hdormant : Dormant s k) :
    SilentInv { s with
      chainedSignalHandler := Function.update s.chainedSignalHandler k none
      destroyed := Function.update s.destroyed k true } where
  inv := h.inv
  dormant := by
    intro k' hk'
    by_cases hne : k' = k
    · subst hne
      exact { hdormant with }
    · have hbefore := h.dormant k' ((Function.update_of_ne hne _ _).symm.trans hk')
      exact { hbefore with }
  chained := by
    intro k' hk'
    by_cases hne : k' = k
    · subst hne
      exact Function.update_self ..
    · have hbefore := h.chained k' ((Function.update_of_ne hne _ _).symm.trans hk')
      exact (Function.update_of_ne hne _ _).trans hbefore
  silent := h.silent

theorem step (h : SilentInv s) {l : DestroyLabel κ ε ν} (hdormant : DestroysDormant s l)
    (hstep : s.step l = some s') : SilentInv s' := by
  cases l with
  | signal l =>
      simp only [Destroying.step] at hstep
      split at hstep
      · cases hstep
      · next hl =>
          split at hstep
          · exact h.emissionStep hstep
          · exact h.moves hl hstep
  | chainedSignal k target =>
      simp only [Destroying.step, Option.ite_none_right_eq_some, Option.some.injEq] at hstep
      rcases hstep with ⟨⟨-, hk⟩, rfl⟩
      exact h.setChained hk target
  | destroy k =>
      simp only [Destroying.step, Option.ite_none_right_eq_some, Option.some.injEq] at hstep
      rcases hstep with ⟨-, rfl⟩
      exact h.destroy hdormant

end SilentInv

/-! ## All runs -/

/-- Any interleaving of the owners' calls and destructors and of any number of emissions starts
no handler of a destroyed slot, if each slot is destroyed when none of its handlers can be
reached. -/
theorem silent_of_dormant (place₀ : κ × Index) (ls : List (DestroyLabel κ ε ν))
    (s : Destroying κ ε ν)
    (hdormant : destroyingMachine.RunsWithin DestroysDormant (Destroying.initial place₀) ls)
    (hrun : destroyingMachine.run (Destroying.initial place₀) ls = some s) : Silent s :=
  (destroyingMachine.runsWithin_invariant (fun _ _ _ h hok hstep => h.step hok hstep)
    (SilentInv.initial place₀) hdormant hrun).silent

/-- The moves of the signal among those of the destroying machine. -/
def signals (ls : List (Label (Fin 1) (Fin 1))) : List (DestroyLabel (Fin 1) (Fin 1) (Fin 1)) :=
  ls.map .signal

/-- A slot with a chained signal and a handler is cleared and destroyed before an emission. -/
def clearedAndDestroyed (k : Fin 1) : List (DestroyLabel (Fin 1) (Fin 1) (Fin 1)) :=
  signals (emplaced k 32) ++ [.chainedSignal k (some k)] ++
    signals (.clear k 32 :: List.replicate 2 (.owner k false)) ++ [.destroy k] ++
    signals (comesToHandler k 0x100000000#64 ++ List.replicate 2 (.emission k false))

theorem silent_of_dormant_cleared :
    ∃ s, destroyingMachine.run (Destroying.initial (0, 32)) (clearedAndDestroyed 0) = some s ∧
      (s.destroyed 0 = true ∧ s.system.emission 0 = .returned 0x100000000#64) ∧ Silent s := by
  rcases destroyingMachine.exists_run_of_any (Destroying.initial (0, 32)) (clearedAndDestroyed 0)
    (fun s => s.destroyed 0 = true ∧ s.system.emission 0 = .returned 0x100000000#64)
    (by decide +kernel) with ⟨s, hrun, hs⟩
  exact ⟨s, hrun, hs, silent_of_dormant (0, 32) _ s (by decide +kernel) hrun⟩

/-- A handler is left in its cell when the slot is destroyed, and an emission starts it. -/
def handlerLeft (k : Fin 1) : List (DestroyLabel (Fin 1) (Fin 1) (Fin 1)) :=
  signals (emplaced k 32) ++ [.destroy k] ++
    signals (comesToHandler k 0x100000000#64 ++ [.emission k false])

/-- The slot is destroyed between the exchange of a trigger-once handler and its start. -/
def handlerInHand (k : Fin 1) : List (DestroyLabel (Fin 1) (Fin 1) (Fin 1)) :=
  signals (emplaced k 0 ++ comesToHandler k 1#64) ++ [.destroy k] ++ signals [.emission k false]

/-- The slot is destroyed between the load of the chained handler and its call. -/
def chainedLoaded (k : Fin 1) : List (DestroyLabel (Fin 1) (Fin 1) (Fin 1)) :=
  signals [.regist k 0xFFFFFFFFFFFFFFFF#64, .owner k false] ++ [.chainedSignal k (some k)] ++
    signals (.emits k 1#64 :: List.replicate 5 (.emission k false)) ++ [.destroy k] ++
    signals [.emission k false]

/-- Handlers are started after the destruction of their slot: one that stayed in its cell, one
that an emission had in hand, and a chained one that an emission had loaded. -/
theorem exists_not_silent :
    [(handlerLeft 0, 32, Started.handler 0), (handlerInHand 0, 0, Started.handler 0),
      (chainedLoaded 0, 0, Started.chained 0)].Forall fun p =>
        ∃ s, destroyingMachine.run (Destroying.initial (0, p.2.1)) p.1 = some s ∧
          s.late = [(0, p.2.2)] ∧ ¬ Silent s := by
  have hlate : ∀ (s : Destroying (Fin 1) (Fin 1) (Fin 1)) p, s.late = [p] → ¬ Silent s := by
    intro s p hs hsilent
    rw [Silent, hs] at hsilent
    cases hsilent
  refine ⟨?_, ?_, ?_⟩
  · rcases destroyingMachine.exists_run_of_any (Destroying.initial (0, 32)) (handlerLeft 0)
      (fun s => s.late = [(0, .handler 0)]) (by decide +kernel) with ⟨s, hrun, hs⟩
    exact ⟨s, hrun, hs, hlate s _ hs⟩
  · rcases destroyingMachine.exists_run_of_any (Destroying.initial (0, 0)) (handlerInHand 0)
      (fun s => s.late = [(0, .handler 0)]) (by decide +kernel) with ⟨s, hrun, hs⟩
    exact ⟨s, hrun, hs, hlate s _ hs⟩
  · rcases destroyingMachine.exists_run_of_any (Destroying.initial (0, 0)) (chainedLoaded 0)
      (fun s => s.late = [(0, .chained 0)]) (by decide +kernel) with ⟨s, hrun, hs⟩
    exact ⟨s, hrun, hs, hlate s _ hs⟩

end Signal

end AsyncSimple
