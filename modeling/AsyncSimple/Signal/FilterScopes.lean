import AsyncSimple.Library.Counting
import AsyncSimple.Signal.Handlers

/-!
# Filter scopes

{lit}`Slot::setScopedFilter` returns a guard that keeps the filter it has found and narrows it;
the destructor of the guard puts the old filter back.  A handler that is emplaced inside a
scope is to be safe from the excluded signals until the scope ends.

An emission first puts its types into the state of the signal and then loads the filter of the
slot; the owner first stores the filter and then tests the state in {lit}`emplace`.  When the
test lets a handler pass, no emission of its type has come to the filter yet, and those that
come later are stopped there.

Main results:

- Theorem {lit}`Closed.step`: behind an excluding filter no emission of the type comes to the
  handlers of the slot.
- Theorem {lit}`Shielded.step`: a handler that is emplaced behind an excluding filter is not
  started as long as the filter excludes its type.
- Theorem {lit}`filterScopes_protect`: this for every run and every nesting of scopes, and the
  filters that the guards restore.
-/

namespace AsyncSimple

open Transition

namespace Signal

open SignalType

variable {κ ε : Type}

/-! ## Owners with guards -/

/-- A signal whose owners use scopes: the guards of every slot, the newest first, and the
filter that the constructor of the newest guard has not stored yet. -/
structure Scoped (κ ε : Type) where
  system : System κ ε
  /-- {lit}`FilterGuard::_oldFilter` -/
  guards : κ → List SignalType
  storing : κ → Option SignalType

def Scoped.initial (place₀ : κ × Index) : Scoped κ ε where
  system := System.initial place₀
  guards := fun _ => []
  storing := fun _ => none

/-- The moves of the signal, and those of the guards. -/
inductive ScopedLabel (κ ε : Type) where
  | signal (l : Label κ ε)
  /-- the constructor of {lit}`FilterGuard` loads the old filter -/
  | setScopedFilter (k : κ) (filter : SignalType)
  /-- the constructor stores the narrowed filter -/
  | store (k : κ)
  /-- the destructor of the newest guard -/
  | leave (k : κ)
deriving DecidableEq, Repr

/-- The slot whose owner calls or goes on. -/
def Label.ownerOf : Label κ ε → Option κ
  | .regist k _ | .setFilter k _ | .emplace k _ | .clear k _ | .owner k _ => some k
  | .emits _ _ | .emission _ _ => none

/-- The owner is inside the constructor of a guard. -/
def Scoped.inConstructor (s : Scoped κ ε) (l : Label κ ε) : Bool :=
  match l.ownerOf with
  | some k => (s.storing k).isSome
  | none => false

def Scoped.step [DecidableEq κ] [DecidableEq ε] (s : Scoped κ ε) :
    ScopedLabel κ ε → Option (Scoped κ ε)
  | .signal l =>
      if s.inConstructor l then
        none
      else
        (Signal.step s.system l).map fun system => { s with system := system }
  | .setScopedFilter k filter =>
      if s.system.owner k = .idle ∧ s.storing k = none then
        let oldFilter := s.system.filter k
        some { s with
          guards := Function.update s.guards k (oldFilter :: s.guards k)
          storing := Function.update s.storing k (some (oldFilter &&& filter)) }
      else
        none
  | .store k =>
      match s.storing k with
      | none => none
      | some filter =>
          (Signal.step s.system (.setFilter k filter)).map fun system =>
            { s with system := system, storing := Function.update s.storing k none }
  | .leave k =>
      match s.guards k with
      | [] => none
      | oldFilter :: guards =>
          if s.storing k = none then
            (Signal.step s.system (.setFilter k oldFilter)).map fun system =>
              { s with system := system, guards := Function.update s.guards k guards }
          else
            none

/-- A signal with its slots, emissions and filter scopes. -/
def scopedMachine [DecidableEq κ] [DecidableEq ε] : Machine (Scoped κ ε) (ScopedLabel κ ε) where
  step := Scoped.step

/-- The filter of the slot excludes the type. -/
def Excludes (k : κ) (i : Index) (s : System κ ε) : Prop :=
  has (s.filter k) i = false

instance (k : κ) (i : Index) (s : System κ ε) : Decidable (Excludes k i s) :=
  inferInstanceAs (Decidable (_ = _))

/-- The handler has not been started, and no emission has it in hand. -/
def NotStarted (s : System κ ε) (g : Nat) : Prop :=
  s.invoked g = 0 ∧ ∀ e v i, s.emission e ≠ .call v i (.handler g)

/-- The guards of the slot have not been left below the given depth. -/
def DeeperThan (k : κ) (depth : Nat) (s : Scoped κ ε) : Prop :=
  depth < (s.guards k).length

instance (k : κ) (depth : Nat) (s : Scoped κ ε) : Decidable (DeeperThan k depth s) :=
  inferInstanceAs (Decidable (_ < _))

/-! ## Behind an excluding filter -/

/-- An emission is at the slot and has found its filter to admit the type. -/
def EmissionPc.Admitted (k : κ) (i : Index) : EmissionPc κ → Prop
  | .managers v | .chained v | .walk v => v.slot = k ∧ has v.state i = true
  | .call v j _ => v.slot = k ∧ (j = i ∨ has v.state i = true)
  | _ => False

/-- No emission of the type is at the handlers of the slot. -/
def Closed (k : κ) (i : Index) (s : System κ ε) : Prop :=
  ∀ e, ¬ (s.emission e).Admitted k i

/-- An admitted emission delivers the type. -/
theorem EmissionPc.Admitted.carries {slots : List κ} {managers : κ → List Index}
    {pc : EmissionPc κ} {k : κ} {i : Index} (h : pc.Admitted k i)
    (hsound : pc.Sound slots managers) : pc.Carries i := by
  cases pc with
  | managers v | chained v | walk v => exact hsound.within i h.2
  | call v j found =>
      rcases h.2 with rfl | hbit
      · exact hsound.2.1
      · exact hsound.1.within i hbit
  | _ => exact h.elim

/-- A signal that has not been emitted is at no slot. -/
theorem Closed.of_not_emitted {s : System κ ε} (hinv : Inv s) {k : κ} {i : Index}
    (hi : isMultiTriggerSignal i = false) (hstate : has s.state i = false) : Closed k i s := by
  intro e hadmitted
  have hcarries := hadmitted.carries (hinv.slot.visits e)
  rw [hinv.carrier.emitted e i hi hcarries] at hstate
  cases hstate

/-- Where a step of the walk goes, no more types are admitted than before. -/
theorem Visit.has_done {v : Visit κ} {i j : Index} {managers : List Index}
    (hbit : has v.state j = true) (h : has (v.done j managers).state i = true) :
    has v.state i = true := by
  have hxor : (has v.state i ^^ decide (j = i)) = true := by simpa [Visit.done] using h
  by_cases hij : j = i
  · subst hij
    exact hbit
  · simpa [hij] using hxor

theorem Forward.admitted {s : System κ ε} {pc pc' : EmissionPc κ} (h : Forward s pc pc') {k : κ}
    {i : Index} (hfilter : Excludes k i s) (hadmitted : pc'.Admitted k i) : pc.Admitted k i := by
  cases h with
  | filter valid k' rest =>
      rcases hadmitted with ⟨hk, hbit⟩
      subst hk
      have hexcludes : has (s.filter k') i = false := hfilter
      simp [hexcludes] at hbit
  | load v => exact hadmitted
  | chained v => exact hadmitted
  | skip v j managers hm hbit => exact hadmitted
  | multi v j managers hm hbit hj => exact ⟨hadmitted.1, Visit.has_done hbit hadmitted.2⟩
  | multiCall v j managers hm hbit hj hfound =>
      refine ⟨hadmitted.1, ?_⟩
      rcases hadmitted.2 with rfl | hlater
      · exact hbit
      · exact Visit.has_done hbit hlater
  | _ => exact hadmitted.elim

/-- A handler of a trigger-once type that was removed is neither run nor in hand. -/
theorem HandlerInv.notStarted_of_removed {s : System κ ε} (h : HandlerInv s) {k : κ} {i : Index}
    {g : Nat} (hi : isMultiTriggerSignal i = false) (hcreated : g < s.created)
    (hplace : s.place g = (k, i)) (hremoved : (s.fate g).Removed) : NotStarted s g := by
  constructor
  · have hsettled := h.settled g k i hcreated hplace hi
    rcases hremoved with hfate | hfate <;> rwa [Settled, hfate] at hsettled
  · intro e v j hcall
    rcases h.inCall e v j g hcall with ⟨-, hplace', htaken⟩
    rw [hplace, Prod.mk.injEq] at hplace'
    have hj : isMultiTriggerSignal j = false := by rwa [← hplace'.2]
    have hfate := (htaken hj).1
    rcases hremoved with hremoved | hremoved <;> rw [hremoved] at hfate <;> cases hfate

section

variable [DecidableEq κ] [DecidableEq ε]

/-- Behind an excluding filter no emission of the type comes to the handlers. -/
theorem Closed.step {s s' : System κ ε} {k : κ} {i : Index} (h : Closed k i s)
    (hfilter : Excludes k i s) {l : Label κ ε} (hstep : Signal.step s l = some s') :
    Closed k i s' := by
  rcases step_cases hstep with ⟨k', hmove⟩ | ⟨e, hmove⟩
  · intro e
    rw [hmove.frame.2]
    exact h e
  · have hset : ∀ pc : EmissionPc κ, ¬ pc.Admitted k i →
        ∀ e', ¬ (Function.update s.emission e pc e').Admitted k i := fun pc hpc =>
      forall_update (p := fun _ pc => ¬ EmissionPc.Admitted k i pc) hpc h
    cases hmove with
    | forward pc hforward => exact hset pc fun hpc => h e (hforward.admitted hfilter hpc)
    | update type hpc => exact hset _ fun hpc => hpc
    | exchange v j managers hpc hm hbit hj =>
        refine hset _ fun hadmitted => h e ?_
        rw [hpc]
        unfold afterExchange at hadmitted
        split at hadmitted
        · exact ⟨hadmitted.1, Visit.has_done hbit hadmitted.2⟩
        · refine ⟨hadmitted.1, ?_⟩
          rcases hadmitted.2 with rfl | hlater
          · exact hbit
          · exact Visit.has_done hbit hlater
    | call v j found hpc =>
        have hemission : (runHandler s found).emission = s.emission := by cases found <;> rfl
        intro e'
        rw [System.setEmission, hemission]
        refine hset (.walk v) (fun hadmitted => h e ?_) e'
        rw [hpc]
        exact ⟨hadmitted.1, .inr hadmitted.2⟩

/-! ## A handler that is emplaced behind an excluding filter -/

/-- The owner has not come past the test of the signal's state. -/
def OwnerPc.BeforeTest (i : Index) (g : Nat) : OwnerPc κ → Prop
  | .lookup j h | .publish j h _ | .cell j (.emplaceTest h) => j = i ∧ h = g
  | _ => False

omit [DecidableEq κ] in
theorem OwnerPc.BeforeTest.emplacing {pc : OwnerPc κ} {i : Index} {g : Nat}
    (h : pc.BeforeTest i g) : pc.emplacing = some (i, g) := by
  cases pc with
  | lookup j f | publish j f next =>
      rcases h with ⟨rfl, rfl⟩
      rfl
  | cell j pc =>
      cases pc with
      | emplaceTest f =>
          rcases h with ⟨rfl, rfl⟩
          rfl
      | _ => exact h.elim
  | _ => exact h.elim

/-- Handlers are recorded once, when they are created. -/
theorem place_step {s s' : System κ ε} {l : Label κ ε} (hstep : Signal.step s l = some s') :
    s.created ≤ s'.created ∧ ∀ g < s.created, s'.place g = s.place g := by
  rcases step_cases hstep with ⟨k, hmove⟩ | ⟨e, hmove⟩
  · cases hmove with
    | emplace i hpc =>
        refine ⟨Nat.le_succ _, fun g hg => ?_⟩
        exact Function.update_of_ne (Nat.ne_of_lt hg) _ _
    | cell i pc s' hpc hmove => cases hmove <;> exact ⟨Nat.le_refl _, fun _ _ => rfl⟩
    | _ => exact ⟨Nat.le_refl _, fun _ _ => rfl⟩
  · have hframe := hmove.frame.2.2.2.2
    rw [hframe.1, hframe.2.1]
    exact ⟨Nat.le_refl _, fun _ _ => rfl⟩

/-- A handler is invoked by an emission that has it in hand. -/
theorem invoked_step {s s' : System κ ε} {l : Label κ ε} {g : Nat}
    (hnone : ∀ e v i, s.emission e ≠ .call v i (.handler g))
    (hstep : Signal.step s l = some s') : s'.invoked g = s.invoked g := by
  rcases step_cases hstep with ⟨k, hmove⟩ | ⟨e, hmove⟩
  · cases hmove with
    | cell i pc s' hpc hmove => cases hmove <;> rfl
    | _ => rfl
  · cases hmove with
    | call v i found hpc =>
        cases found with
        | handler f =>
            have hne : g ≠ f := by
              rintro rfl
              exact hnone e v i hpc
            exact Function.update_of_ne hne _ _
        | _ => rfl
    | _ => rfl

/-- The handler has not been started: its {lit}`emplace` has not tested the state, or has
returned false, or no emission of the type can come to it. -/
structure Shielded (k : κ) (i : Index) (g : Nat) (s : System κ ε) : Prop where
  created : g < s.created
  place : s.place g = (k, i)
  invoked : s.invoked g = 0
  stage : (s.owner k).BeforeTest i g ∨ s.fate g = .rejected ∨ Closed k i s

namespace Shielded

variable {k : κ} {i : Index} {g : Nat} {s s' : System κ ε}

/-- The call of {lit}`emplace`. -/
theorem emplace (hinv : Inv s) (hstep : Signal.step s (.emplace k i) = some s') :
    Shielded k i s.created s' := by
  simp only [Signal.step, Option.ite_none_right_eq_some, Option.some.injEq] at hstep
  rcases hstep with ⟨hidle, rfl⟩
  refine ⟨Nat.lt_succ_self _, Function.update_self _ _ _, ?_, .inl ?_⟩
  · exact (hinv.handlers.fresh s.created (Nat.le_refl _)).2
  · simp [System.setOwner, OwnerPc.BeforeTest]

omit [DecidableEq κ] [DecidableEq ε] in
/-- No emission has the handler in hand. -/
theorem notInHand (h : Shielded k i g s) (hinv : Inv s) (hi : isMultiTriggerSignal i = false)
    (e : ε) (v : Visit κ) (j : Index) : s.emission e ≠ .call v j (.handler g) := by
  intro hcall
  rcases hinv.handlers.inCall e v j g hcall with ⟨-, hplace, htaken⟩
  rw [h.place, Prod.mk.injEq] at hplace
  rcases hplace with ⟨rfl, rfl⟩
  have hfate := (htaken hi).1
  rcases h.stage with htest | hrejected | hclosed
  · rw [(hinv.handlers.emplacing _ _ _ htest.emplacing).2.2] at hfate
    cases hfate
  · rw [hrejected] at hfate
    cases hfate
  · refine hclosed e ?_
    rw [hcall]
    exact ⟨rfl, .inl rfl⟩

omit [DecidableEq κ] [DecidableEq ε] in
theorem notStarted (h : Shielded k i g s) (hinv : Inv s) (hi : isMultiTriggerSignal i = false) :
    NotStarted s g :=
  ⟨h.invoked, h.notInHand hinv hi⟩

omit [DecidableEq ε] in
/-- The owner goes on with its {lit}`emplace`. -/
theorem stage_owner (hinv : Inv s) (hi : isMultiTriggerSignal i = false)
    (htest : (s.owner k).BeforeTest i g) (hmove : OwnerMove s k s') :
    (s'.owner k).BeforeTest i g ∨ s'.fate g = .rejected ∨ Closed k i s' := by
  cases hmove with
  | present j f hpc hj =>
      rw [hpc] at htest
      exact .inl (by simpa [System.setOwner, OwnerPc.BeforeTest] using htest)
  | missing j f hpc hj =>
      rw [hpc] at htest
      exact .inl (by simpa [System.setOwner, OwnerPc.BeforeTest] using htest)
  | publish j f next hpc =>
      rw [hpc] at htest
      exact .inl (by simpa [System.setOwner, System.setCell, OwnerPc.BeforeTest] using htest)
  | cell j pc s' hpc hcell =>
      rw [hpc] at htest
      cases hcell with
      | tested f hstate =>
          rcases htest with ⟨rfl, rfl⟩
          -- the state does not have the type, and the emissions are as before
          have hemitted : has s.state j = false := by
            simpa [System.triggered, hi] using hstate
          exact .inr (.inr (Closed.of_not_emitted hinv hi hemitted))
      | reject pc f hemplaced hwhy =>
          cases pc with
          | emplaceTest f' =>
              rcases htest with ⟨rfl, rfl⟩
              cases hemplaced
              exact .inr (.inl (by simp [System.setFate]))
          | _ => exact htest.elim
      | quit pc hemplaced =>
          cases pc with
          | emplaceTest f' => cases hemplaced
          | _ => exact htest.elim
      | abort pc old hwhich hchanged htag =>
          rcases hwhich with ⟨f, rfl⟩ | rfl <;> exact htest.elim
      | _ => exact htest.elim
  | regist filter hpc | setFilter filter hpc | emplace j hpc | clear j hpc hj | nothing hpc
  | retry filter next hpc | register filter hpc =>
      rw [hpc] at htest
      exact htest.elim

/-- A step under an excluding filter does not start the handler. -/
theorem step (h : Shielded k i g s) (hinv : Inv s) (hi : isMultiTriggerSignal i = false)
    (hfilter : Excludes k i s) {l : Label κ ε} (hstep : Signal.step s l = some s') :
    Shielded k i g s' := by
  rcases place_step hstep with ⟨hcreated, hplace⟩
  refine ⟨h.created.trans_le hcreated, ?_, ?_, ?_⟩
  · rw [hplace g h.created, h.place]
  · rw [invoked_step (h.notInHand hinv hi) hstep, h.invoked]
  · rcases h.stage with htest | hrejected | hclosed
    · rcases step_cases hstep with ⟨k', hmove⟩ | ⟨e, hmove⟩
      · by_cases hk : k = k'
        · subst hk
          exact stage_owner hinv hi htest hmove
        · rw [(hmove.frame_other hk).1]
          exact .inl htest
      · rw [hmove.frame.1]
        exact .inl htest
    · exact .inr (.inl (hinv.handlers.rejected_step hstep hrejected))
    · exact .inr (.inr (hclosed.step hfilter hstep))

end Shielded

/-! ## Steps of the signal below the scopes -/

/-- A move is one of the signal, or leaves the signal alone. -/
theorem Scoped.step_system {s s' : Scoped κ ε} {l : ScopedLabel κ ε} (hstep : s.step l = some s') :
    s'.system = s.system ∨ ∃ l', Signal.step s.system l' = some s'.system := by
  cases l with
  | signal l =>
      simp only [Scoped.step] at hstep
      split at hstep
      · cases hstep
      · rcases Option.map_eq_some_iff.mp hstep with ⟨system, hsystem, rfl⟩
        exact .inr ⟨l, hsystem⟩
  | setScopedFilter k filter =>
      simp only [Scoped.step] at hstep
      split at hstep
      · cases hstep
        exact .inl rfl
      · cases hstep
  | store k =>
      simp only [Scoped.step] at hstep
      split at hstep
      · cases hstep
      · rcases Option.map_eq_some_iff.mp hstep with ⟨system, hsystem, rfl⟩
        exact .inr ⟨_, hsystem⟩
  | leave k =>
      simp only [Scoped.step] at hstep
      split at hstep
      · cases hstep
      · split at hstep
        · rcases Option.map_eq_some_iff.mp hstep with ⟨system, hsystem, rfl⟩
          exact .inr ⟨_, hsystem⟩
        · cases hstep

/-- What every step of the signal keeps holds in every run with scopes. -/
theorem Scoped.run_system {P : System κ ε → Prop} {ok : System κ ε → Prop}
    (hkept : ∀ s l s', P s → ok s → Signal.step s l = some s' → P s') {s t : Scoped κ ε}
    {ls : List (ScopedLabel κ ε)} (hs : P s.system)
    (hok : scopedMachine.RunsWithin (fun s _ => ok s.system) s ls)
    (hrun : scopedMachine.run s ls = some t) : P t.system := by
  refine scopedMachine.runsWithin_invariant (P := fun s => P s.system) ?_ hs hok hrun
  intro s l s' hs hok hstep
  rcases Scoped.step_system hstep with hsame | ⟨l', hl'⟩
  · rw [hsame]
    exact hs
  · exact hkept _ _ _ hs hok hl'

/-- Every state of a run with scopes is one of a run of the signal. -/
theorem Scoped.inv_of_run {s t : Scoped κ ε} {ls : List (ScopedLabel κ ε)} (hs : Inv s.system)
    (hrun : scopedMachine.run s ls = some t) : Inv t.system := by
  refine scopedMachine.run_invariant (P := fun s => Inv s.system) ?_ hs hrun
  intro s l s' hs hstep
  rcases Scoped.step_system hstep with hsame | ⟨l', hl'⟩
  · rw [hsame]
    exact hs
  · exact hs.step hl'

/-! ## Guards -/

/-- A move leaves the guards of a slot alone, adds one or takes the newest. -/
theorem Scoped.guards_step {s s' : Scoped κ ε} {l : ScopedLabel κ ε} (hstep : s.step l = some s')
    (k : κ) : s'.guards k = s.guards k ∨ (∃ filter, s'.guards k = filter :: s.guards k) ∨
      ∃ filter, s.guards k = filter :: s'.guards k := by
  cases l with
  | signal l =>
      simp only [Scoped.step] at hstep
      split at hstep
      · cases hstep
      · rcases Option.map_eq_some_iff.mp hstep with ⟨system, -, rfl⟩
        exact .inl rfl
  | setScopedFilter k' filter =>
      simp only [Scoped.step] at hstep
      split at hstep
      · cases hstep
        by_cases hk : k = k'
        · subst hk
          exact .inr (.inl ⟨s.system.filter k, by simp⟩)
        · exact .inl (by simp [hk])
      · cases hstep
  | store k' =>
      simp only [Scoped.step] at hstep
      split at hstep
      · cases hstep
      · rcases Option.map_eq_some_iff.mp hstep with ⟨system, -, rfl⟩
        exact .inl rfl
  | leave k' =>
      simp only [Scoped.step] at hstep
      split at hstep
      · cases hstep
      · next oldFilter guards hguards =>
          split at hstep
          · rcases Option.map_eq_some_iff.mp hstep with ⟨system, -, rfl⟩
            by_cases hk : k = k'
            · subst hk
              exact .inr (.inr ⟨oldFilter, by simp [hguards]⟩)
            · exact .inl (by simp [hk])
          · cases hstep

/-- A guard that has not been left is where it was. -/
theorem Scoped.suffix_of_run {k : κ} {old : SignalType} {outer : List SignalType}
    {s t : Scoped κ ε} {ls : List (ScopedLabel κ ε)} (hs : old :: outer <:+ s.guards k)
    (hok : scopedMachine.RunsWithin (fun s _ => DeeperThan k outer.length s) s ls)
    (hrun : scopedMachine.run s ls = some t) (ht : DeeperThan k outer.length t) :
    old :: outer <:+ t.guards k := by
  refine scopedMachine.runsWithin_invariant
    (P := fun s => DeeperThan k outer.length s → old :: outer <:+ s.guards k) ?_ (fun _ => hs)
    hok hrun ht
  intro s l s' hs hdeep hstep hdeep'
  rcases Scoped.guards_step hstep k with hsame | ⟨filter, hadd⟩ | ⟨filter, htake⟩
  · rw [hsame]
    exact hs hdeep
  · rw [hadd]
    exact (hs hdeep).trans (List.suffix_cons _ _)
  · have hsuffix := hs hdeep
    rw [htake] at hsuffix
    rcases List.suffix_cons_iff.mp hsuffix with hall | hrest
    · -- the guard itself cannot be the one that was left
      have htail : outer = s'.guards k := (List.cons.inj hall).2
      rw [DeeperThan, ← htail] at hdeep'
      exact absurd hdeep' (Nat.lt_irrefl _)
    · exact hrest

/-- The destructor of a guard stores what the guard has kept. -/
theorem Scoped.leave_eq {s s' : Scoped κ ε} {k : κ} {old : SignalType} {outer : List SignalType}
    (hguards : s.guards k = old :: outer) (hstep : s.step (.leave k) = some s') :
    s'.system.filter k = old ∧ s'.guards k = outer := by
  simp only [Scoped.step, hguards] at hstep
  split at hstep
  · rcases Option.map_eq_some_iff.mp hstep with ⟨system, hsystem, rfl⟩
    simp only [Signal.step, Option.ite_none_right_eq_some, Option.some.injEq] at hsystem
    rcases hsystem with ⟨-, rfl⟩
    simp
  · cases hstep

/-! ## All runs -/

/-- In every run of the owners, with their scopes and filters, and of any number of emissions:
a handler of a trigger-once type that is emplaced while the filter excludes the type is not
started before the filter has been changed to admit it, and never if the owner removes it
before; and a guard that is left after the guards inside it restores the filter that it
found. -/
theorem filterScopes_protect (k : κ) (i : Index) (hi : isMultiTriggerSignal i = false)
    (place₀ : κ × Index) (ls : List (ScopedLabel κ ε)) (s : Scoped κ ε)
    (hrun : scopedMachine.run (Scoped.initial place₀) ls = some s) :
    (∀ s₁, s.step (.signal (.emplace k i)) = some s₁ →
      ∀ ms t, scopedMachine.RunsWithin (fun s _ => Excludes k i s.system) s₁ ms →
        scopedMachine.run s₁ ms = some t →
          NotStarted t.system s.system.created ∧
          ((t.system.fate s.system.created).Removed →
            ∀ ns u, scopedMachine.run t ns = some u → NotStarted u.system s.system.created)) ∧
    ∀ filter s₁, s.step (.setScopedFilter k filter) = some s₁ →
      ∀ ms t, scopedMachine.RunsWithin (fun t _ => DeeperThan k (s.guards k).length t) s₁ ms →
        scopedMachine.run s₁ ms = some t → (t.guards k).length = (s.guards k).length + 1 →
          ∀ u, t.step (.leave k) = some u →
            u.system.filter k = s.system.filter k ∧ u.guards k = s.guards k := by
  have hinv : Inv s.system := Scoped.inv_of_run (Inv.initial place₀) hrun
  constructor
  · intro s₁ hemplace ms t hexcludes hms
    have hsystem : Signal.step s.system (.emplace k i) = some s₁.system := by
      simp only [Scoped.step] at hemplace
      split at hemplace
      · cases hemplace
      · rcases Option.map_eq_some_iff.mp hemplace with ⟨system, hsystem, rfl⟩
        exact hsystem
    have hinv₁ : Inv s₁.system := hinv.step hsystem
    have hshielded : Inv t.system ∧ Shielded k i s.system.created t.system := by
      refine Scoped.run_system (P := fun t => Inv t ∧ Shielded k i s.system.created t) ?_
        ⟨hinv₁, Shielded.emplace hinv hsystem⟩ hexcludes hms
      rintro s l s' ⟨hinv, hs⟩ hfilter hstep
      exact ⟨hinv.step hstep, hs.step hinv hi hfilter hstep⟩
    rcases hshielded with ⟨hinv', hs⟩
    refine ⟨hs.notStarted hinv' hi, fun hremoved ns u hns => ?_⟩
    have hlater : Inv u.system ∧ (u.system.fate s.system.created).Removed ∧
        s.system.created < u.system.created ∧ u.system.place s.system.created = (k, i) := by
      refine scopedMachine.run_invariant (P := fun u => Inv u.system ∧
        (u.system.fate s.system.created).Removed ∧ s.system.created < u.system.created ∧
        u.system.place s.system.created = (k, i)) ?_ ⟨hinv', hremoved, hs.created, hs.place⟩ hns
      rintro u l u' ⟨hinv, hremoved, hcreated, hplace⟩ hstep
      rcases Scoped.step_system hstep with hsame | ⟨l', hl'⟩
      · rw [hsame]
        exact ⟨hinv, hremoved, hcreated, hplace⟩
      · rcases place_step hl' with ⟨hle, hkept⟩
        refine ⟨hinv.step hl', hinv.handlers.removed_step hl' hremoved, hcreated.trans_le hle, ?_⟩
        rw [hkept _ hcreated, hplace]
    exact hlater.1.handlers.notStarted_of_removed hi hlater.2.2.1 hlater.2.2.2 hlater.2.1
  · intro filter s₁ henter ms t hdeep hms hdepth u hleave
    have hguards : s₁.guards k = s.system.filter k :: s.guards k := by
      simp only [Scoped.step] at henter
      split at henter
      · cases henter
        simp
      · cases henter
    have hsuffix : s.system.filter k :: s.guards k <:+ t.guards k := by
      refine Scoped.suffix_of_run ?_ hdeep hms ?_
      · rw [hguards]
      · rw [DeeperThan, hdepth]
        exact Nat.lt_succ_self _
    have hsame : s.system.filter k :: s.guards k = t.guards k :=
      hsuffix.eq_of_length (by rw [List.length_cons, hdepth])
    exact Scoped.leave_eq hsame.symm hleave

/-- A slot opens a scope that excludes {lit}`Terminate`, registers a handler, and an emission of
{lit}`Terminate` passes. -/
def openScope (k : Fin 1) : List (ScopedLabel (Fin 1) (Fin 1)) :=
  [.signal (.regist k 0xFFFFFFFFFFFFFFFF#64), .signal (.owner k false),
    .setScopedFilter k 0xFFFFFFFFFFFFFFFE#64, .store k]

def emitInScope (k e : Fin 1) : List (ScopedLabel (Fin 1) (Fin 1)) :=
  List.replicate 5 (.signal (.owner k false)) ++
    .signal (.emits e 1#64) :: List.replicate 7 (.signal (.emission e false))

theorem filterScopes_protect_emitInScope :
    ∃ s s₁ t, scopedMachine.run (Scoped.initial (0, 0)) (openScope 0) = some s ∧
      s.step (.signal (.emplace 0 0)) = some s₁ ∧ scopedMachine.run s₁ (emitInScope 0 0) = some t ∧
      (t.system.fate 0 = .accepted ∧ t.system.emission 0 = .returned 1#64) ∧
      NotStarted t.system 0 := by
  rcases scopedMachine.exists_run_of_any (Scoped.initial (0, 0)) (openScope 0)
    (fun s => s.system.created = 0 ∧ (s.step (.signal (.emplace 0 0))).any fun s₁ =>
      decide (scopedMachine.RunsWithin (fun s _ => Excludes 0 0 s.system) s₁ (emitInScope 0 0)) &&
        (scopedMachine.run s₁ (emitInScope 0 0)).any fun t =>
          decide (t.system.fate 0 = .accepted ∧ t.system.emission 0 = .returned 1#64))
    (by decide +kernel) with ⟨s, hrun, hcreated, hany⟩
  rcases (Option.any_eq_true _ _).mp hany with ⟨s₁, hs₁, hrest⟩
  rw [Bool.and_eq_true, decide_eq_true_iff] at hrest
  rcases (Option.any_eq_true _ _).mp hrest.2 with ⟨t, ht, hend⟩
  refine ⟨s, s₁, t, hrun, hs₁, ht, of_decide_eq_true hend, ?_⟩
  have hsafe := ((filterScopes_protect 0 0 rfl (0, 0) (openScope 0) s hrun).1 s₁ hs₁
    (emitInScope 0 0) t hrest.1 ht).1
  rwa [hcreated] at hsafe

end

end Signal

end AsyncSimple
