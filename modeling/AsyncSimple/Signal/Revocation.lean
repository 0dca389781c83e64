import AsyncSimple.Signal.FilterScopes

/-!
# Removing a handler

{lit}`Slot::clear`, and {lit}`Slot::emplace` when it replaces a handler, exchange the pointer
in the cell and delete the old handler.  An emission of a trigger-once signal takes the handler
out of the cell before it runs it, so that the owner's exchange fails then.  An emission of a
signal that triggers many times only loads the pointer: the owner deletes the handler under
its hands.

The machine is that of the signal, with two refinements.  The run of a handler has a beginning
and an end, and the owner deletes the old handler in a step after its exchange, with which the
call returns.

Main results:

- Theorem {lit}`Unheld.step`: a removed handler is in nobody's hands, when no emission holds
  the multi-trigger handlers that are exchanged.
- Theorem {lit}`revoked_of_unheld`: in every run of this kind no handler is started after its
  removal or deleted while it is executed.
-/

namespace AsyncSimple

open Transition

namespace Signal

open SignalType

variable {κ ε : Type}

/-! ## Handlers with a lifetime -/

/-- A signal with the handlers that are being executed, the ones that an owner has taken out
of a cell and not deleted yet, and the deleted ones.  {lit}`late` records the handlers that
were started after the call that removed them had returned, {lit}`torn` those that were
deleted while an emission executed them. -/
structure Lifetimes (κ ε : Type) where
  system : System κ ε
  executing : List (ε × Nat)
  oldHandler : κ → Option Nat
  deleted : List Nat
  late : List Nat
  torn : List Nat

def Lifetimes.initial (place₀ : κ × Index) : Lifetimes κ ε where
  system := System.initial place₀
  executing := []
  oldHandler := fun _ => none
  deleted := []
  late := []
  torn := []

/-- The handler that the next step of the owner exchanges for another one or for null, and its
type. -/
def System.removes (s : System κ ε) (k : κ) : Option (Index × Nat) :=
  match s.owner k with
  | .cell i (.emplaceCas _ (.handler old)) | .cell i (.clearCas (.handler old)) =>
      if s.handler k i = .handler old then some (i, old) else none
  | _ => none

variable [DecidableEq κ] [DecidableEq ε]

/-- {lit}`delete oldHandler; return true;`. -/
def Lifetimes.delete (s : Lifetimes κ ε) (k : κ) (h : Nat) : Lifetimes κ ε :=
  { s with
    oldHandler := Function.update s.oldHandler k none
    deleted := h :: s.deleted
    torn := if h ∈ s.executing.map Prod.snd then h :: s.torn else s.torn }

/-- {lit}`(*handler)(signal, self)` begins. -/
def Lifetimes.start (s : Lifetimes κ ε) (e : ε) (h : Nat) : Lifetimes κ ε :=
  { s with
    executing := (e, h) :: s.executing
    late := if h ∈ s.deleted then h :: s.late else s.late }

/-- A step of an emission: a handler that was found is started, and ends in a later step. -/
def Lifetimes.emissionStep (s : Lifetimes κ ε) (e : ε) (spurious : Bool) :
    Option (Lifetimes κ ε) :=
  match s.system.emission e with
  | .call _ _ (.handler h) =>
      if (e, h) ∈ s.executing then
        (Signal.step s.system (.emission e spurious)).map fun system =>
          { s with system := system, executing := s.executing.filter fun p => p.1 ≠ e }
      else
        some (s.start e h)
  | _ =>
      (Signal.step s.system (.emission e spurious)).map fun system => { s with system := system }

/-- A step of the owner of a slot. -/
def Lifetimes.ownerStep (s : Lifetimes κ ε) (k : κ) (spurious : Bool) : Option (Lifetimes κ ε) :=
  match s.oldHandler k with
  | some h => some (s.delete k h)
  | none =>
      (Signal.step s.system (.owner k spurious)).map fun system =>
        { s with
          system := system
          oldHandler := Function.update s.oldHandler k ((s.system.removes k).map Prod.snd) }

def Lifetimes.step (s : Lifetimes κ ε) (l : Label κ ε) : Option (Lifetimes κ ε) :=
  match l with
  | .owner k spurious => s.ownerStep k spurious
  | .emission e spurious => s.emissionStep e spurious
  | l =>
      -- an owner calls nothing while its last call has not returned
      if (l.ownerOf.bind s.oldHandler).isSome then
        none
      else
        (Signal.step s.system l).map fun system => { s with system := system }

/-- A signal with the lifetimes of its handlers. -/
def lifetimeMachine : Machine (Lifetimes κ ε) (Label κ ε) where
  step := Lifetimes.step

/-- No handler was started after its removal, and none was deleted while it was executed. -/
def Revoked (s : Lifetimes κ ε) : Prop :=
  s.late = [] ∧ s.torn = []

/-- The handler that an emission has found and not finished. -/
def EmissionPc.inHand : EmissionPc κ → Option Nat
  | .call _ _ (.handler h) => some h
  | _ => none

/-- When the step exchanges a handler of a multi-trigger type, no emission is between its load
of this handler and the end of the call. -/
def Unheld (s : Lifetimes κ ε) : Label κ ε → Prop
  | .owner k _ => ∀ p ∈ s.system.removes k, s.oldHandler k = none →
      isMultiTriggerSignal p.1 = true → ∀ e, (s.system.emission e).inHand ≠ some p.2
  | _ => True

instance [Fintype ε] (s : Lifetimes κ ε) (l : Label κ ε) : Decidable (Unheld s l) :=
  match l with
  | .owner k _ => inferInstanceAs (Decidable (∀ p ∈ s.system.removes k, s.oldHandler k = none →
      isMultiTriggerSignal p.1 = true → ∀ e, (s.system.emission e).inHand ≠ some p.2))
  | .regist _ _ | .setFilter _ _ | .emplace _ _ | .clear _ _ | .emits _ _ | .emission _ _ =>
      isTrue trivial

/-! ## Removal -/

section

variable {s s' : System κ ε}

/-- The exchange settles the fate of the old handler. -/
theorem removed_of_removes (hinv : Inv s) {k : κ} {spurious : Bool} {i : Index} {g : Nat}
    (hremoves : s.removes k = some (i, g))
    (hstep : Signal.step s (.owner k spurious) = some s') : (s'.fate g).Removed := by
  unfold System.removes at hremoves
  split at hremoves
  case h_1 j f old hpc =>
    split at hremoves
    case isTrue hcell =>
      cases hremoves
      have hpending := (hinv.handlers.emplacing k i f (by rw [hpc]; rfl)).2.2
      have haccepted := (hinv.handlers.inCell k i g hcell).2.2.1
      have hne : g ≠ f := by
        rintro rfl
        rw [hpending] at haccepted
        cases haccepted
      simp only [Signal.step, ownerStep, hpc, cellStep, hcell, settle, if_true] at hstep
      cases hstep
      exact .inl (by simp [System.setFate, hne])
    case isFalse => cases hremoves
  case h_2 j old hpc =>
    split at hremoves
    case isTrue hcell =>
      cases hremoves
      simp only [Signal.step, ownerStep, hpc, cellStep, hcell, settle, if_true] at hstep
      cases hstep
      exact .inr (by simp [System.setFate])
    case isFalse => cases hremoves
  case h_3 => cases hremoves

/-- Handlers are removed by an exchange of the owner. -/
theorem removes_of_removed (hinv : Inv s) {l : Label κ ε} {g : Nat}
    (hstep : Signal.step s l = some s') (hbefore : ¬ (s.fate g).Removed)
    (hafter : (s'.fate g).Removed) :
    ∃ k spurious i, l = .owner k spurious ∧ s.removes k = some (i, g) ∧
      s.handler k i = .handler g := by
  have hsame : s'.fate ≠ s.fate := fun h => hbefore (by rwa [h] at hafter)
  have haccepted : s.fate g = .accepted := by
    rcases hinv.handlers.fate_step hstep g with heq | ⟨-, hnot⟩ | ⟨haccepted, -⟩
    · exact absurd (heq ▸ hafter) hbefore
    · exact absurd hafter hnot
    · exact haccepted
  cases l with
  | owner k spurious =>
      refine ⟨k, spurious, ?_⟩
      cases ownerMove_of_ownerStep hstep with
      | cell i pc s' hpc hmove =>
          have hpending : ∀ f, pc.emplaced = some f → s.fate f = .pending := fun f hf =>
            (hinv.handlers.emplacing k i f (by rw [hpc, OwnerPc.emplacing, hf]; rfl)).2.2
          have hne : ∀ f, pc.emplaced = some f → g ≠ f := by
            rintro f hf rfl
            rw [hpending g hf] at haccepted
            cases haccepted
          cases hmove with
          | replace f old hcell =>
              by_cases hold : g = old
              · subst hold
                exact ⟨i, rfl, by simp [System.removes, hpc, hcell], hcell⟩
              · have hfate : ((((s.setCell k i (.handler f)).setOwner k .idle).setFate old
                    .replaced).setFate f .accepted).fate g = s.fate g := by
                  simp [System.setFate, System.setOwner, System.setCell, hne f rfl, hold]
                exact absurd (hfate ▸ hafter) hbefore
          | remove old hcell =>
              by_cases hold : g = old
              · subst hold
                exact ⟨i, rfl, by simp [System.removes, hpc, hcell], hcell⟩
              · have hfate : (((s.setCell k i .null).setOwner k .idle).setFate old .cleared).fate g
                    = s.fate g := Function.update_of_ne hold _ _
                exact absurd (hfate ▸ hafter) hbefore
          | reject pc f hemplaced hwhy =>
              have hfate : ((s.setOwner k .idle).setFate f .rejected).fate g = s.fate g :=
                Function.update_of_ne (hne f hemplaced) _ _
              exact absurd (hfate ▸ hafter) hbefore
          | accept f hcell =>
              have hfate : (((s.setCell k i (.handler f)).setOwner k .idle).setFate f
                  .accepted).fate g = s.fate g := Function.update_of_ne (hne f rfl) _ _
              exact absurd (hfate ▸ hafter) hbefore
          | _ => exact absurd rfl hsame
      | _ => exact absurd rfl hsame
  | emission e spurious =>
      exact absurd (emissionMove_of_emissionStep hstep).frame.2.2.2.2.2.2 hsame
  | emits e type => exact absurd (emissionMove_of_emits hstep).frame.2.2.2.2.2.2 hsame
  | clear k i =>
      simp only [Signal.step, Option.ite_none_right_eq_some, Option.some.injEq] at hstep
      rcases hstep with ⟨-, rfl⟩
      split at hsame <;> exact absurd rfl hsame
  | regist k filter | setFilter k filter | emplace k i =>
      simp only [Signal.step, Option.ite_none_right_eq_some, Option.some.injEq] at hstep
      rcases hstep with ⟨-, rfl⟩
      exact absurd rfl hsame

/-- No emission has a removed handler in hand. -/
def Apart (s : System κ ε) : Prop :=
  ∀ g, (s.fate g).Removed → ∀ e v j, s.emission e ≠ .call v j (.handler g)

omit [DecidableEq κ] [DecidableEq ε] in
/-- A handler that an emission has just found is in its cell, and not removed. -/
theorem found_not_removed (hinv : Inv s) {k : κ} {i : Index} {g : Nat}
    (hcell : s.handler k i = .handler g) : ¬ (s.fate g).Removed := by
  rw [(hinv.handlers.inCell k i g hcell).2.2.1]
  rintro (hfate | hfate) <;> cases hfate

omit [DecidableEq κ] [DecidableEq ε] in
/-- A trigger-once handler that an emission has in hand is not in its cell any more. -/
theorem not_inHand_of_cell (hinv : Inv s) {k : κ} {i : Index} {g : Nat}
    (hi : isMultiTriggerSignal i = false) (hcell : s.handler k i = .handler g) (e : ε)
    (v : Visit κ) (j : Index) : s.emission e ≠ .call v j (.handler g) := by
  intro hcall
  rcases hinv.handlers.inCall e v j g hcall with ⟨-, hplace, htaken⟩
  rw [(hinv.handlers.inCell k i g hcell).2.1, Prod.mk.injEq] at hplace
  rcases hplace with ⟨rfl, rfl⟩
  have htag := (htaken hi).2.2
  rw [hcell] at htag
  cases htag

/-- An emission comes to a handler through its cell. -/
theorem Apart.emissionMove (h : Apart s) (hinv : Inv s) {e : ε} (hmove : EmissionMove s e s') :
    Apart s' := by
  intro g hremoved e' v j
  rw [hmove.frame.2.2.2.2.2.2] at hremoved
  have hset : ∀ pc : EmissionPc κ, pc ≠ .call v j (.handler g) →
      Function.update s.emission e pc e' ≠ .call v j (.handler g) := fun pc hpc =>
    forall_update (p := fun _ pc => pc ≠ EmissionPc.call v j (.handler g)) hpc
      (fun e => h g hremoved e v j) e'
  cases hmove with
  | forward pc hforward =>
      refine hset pc ?_
      rintro rfl
      exact found_not_removed hinv hforward.of_call.2.symm hremoved
  | update type hpc =>
      refine hset _ fun hcall => ?_
      cases hcall
  | exchange w i managers hpc hm hbit hi =>
      refine hset _ fun hcall => ?_
      unfold afterExchange at hcall
      split at hcall
      · cases hcall
      · injection hcall with _ _ hfound
        exact found_not_removed hinv hfound hremoved
  | call w i found hpc =>
      have hemission : (runHandler s found).emission = s.emission := by cases found <;> rfl
      rw [System.setEmission, hemission]
      refine hset _ fun hcall => ?_
      cases hcall

/-- A step keeps the removed handlers out of all hands, if an exchange on a multi-trigger cell
does not meet an emission. -/
theorem Apart.step (h : Apart s) (hinv : Inv s) {l : Label κ ε}
    (hunheld : ∀ k spurious i g, l = .owner k spurious → s.removes k = some (i, g) →
      isMultiTriggerSignal i = true → ∀ e v j, s.emission e ≠ .call v j (.handler g))
    (hstep : Signal.step s l = some s') : Apart s' := by
  rcases step_cases hstep with ⟨k, hmove⟩ | ⟨e, hmove⟩
  · intro g hremoved e v j
    rw [hmove.frame.2]
    by_cases hbefore : (s.fate g).Removed
    · exact h g hbefore e v j
    · rcases removes_of_removed hinv hstep hbefore hremoved with
        ⟨k', spurious, i, hl, hremoves, hcell⟩
      cases hi : isMultiTriggerSignal i with
      | true => exact hunheld k' spurious i g hl hremoves hi e v j
      | false => exact not_inHand_of_cell hinv hi hcell e v j
  · exact h.emissionMove hinv hmove

end

/-! ## The invariant -/

/-- Handlers that are executed are in hand, those that wait for their deletion or are deleted
are removed, and nobody has a removed handler in hand. -/
structure LifetimeInv (s : Lifetimes κ ε) : Prop where
  inv : Inv s.system
  apart : Apart s.system
  executing : ∀ e g, (e, g) ∈ s.executing → ∃ v j, s.system.emission e = .call v j (.handler g)
  oldHandler : ∀ k g, s.oldHandler k = some g → (s.system.fate g).Removed
  deleted : ∀ g ∈ s.deleted, (s.system.fate g).Removed
  revoked : Revoked s

namespace LifetimeInv

variable {s s' : Lifetimes κ ε}

omit [DecidableEq κ] [DecidableEq ε] in
theorem initial (place₀ : κ × Index) : LifetimeInv (Lifetimes.initial place₀ : Lifetimes κ ε) where
  inv := Inv.initial place₀
  apart := by simp [Apart, Lifetimes.initial, System.initial]
  executing := by simp [Lifetimes.initial]
  oldHandler := by simp [Lifetimes.initial]
  deleted := by simp [Lifetimes.initial]
  revoked := ⟨rfl, rfl⟩

/-- The signal moves; the emissions that execute a handler stay where they are. -/
theorem system (h : LifetimeInv s) {l : Label κ ε} {system : System κ ε}
    (hstep : Signal.step s.system l = some system) (hapart : Apart system)
    {executing : List (ε × Nat)} {oldHandler : κ → Option Nat}
    (hexecuting : ∀ e g, (e, g) ∈ executing →
      (e, g) ∈ s.executing ∧ system.emission e = s.system.emission e)
    (hold : ∀ k g, oldHandler k = some g →
      s.oldHandler k = some g ∨ (system.fate g).Removed) :
    LifetimeInv { s with
      system := system
      executing := executing
      oldHandler := oldHandler } where
  inv := h.inv.step hstep
  apart := hapart
  executing := by
    intro e g hmem
    rcases hexecuting e g hmem with ⟨hmem, hsame⟩
    rcases h.executing e g hmem with ⟨v, j, hcall⟩
    exact ⟨v, j, hsame.trans hcall⟩
  oldHandler := by
    intro k g hk
    rcases hold k g hk with hk | hremoved
    · exact h.inv.handlers.removed_step hstep (h.oldHandler k g hk)
    · exact hremoved
  deleted := fun g hg => h.inv.handlers.removed_step hstep (h.deleted g hg)
  revoked := h.revoked

omit [DecidableEq ε] in
/-- A deleted handler is not executed. -/
theorem delete (h : LifetimeInv s) {k : κ} {g : Nat} (hk : s.oldHandler k = some g) :
    LifetimeInv (s.delete k g) := by
  have hremoved := h.oldHandler k g hk
  have hfree : g ∉ s.executing.map Prod.snd := by
    intro hmem
    rcases List.mem_map.mp hmem with ⟨⟨e, g'⟩, hpair, rfl⟩
    rcases h.executing e g' hpair with ⟨v, j, hcall⟩
    exact h.apart g' hremoved e v j hcall
  refine ⟨h.inv, h.apart, h.executing, ?_, ?_, h.revoked.1, ?_⟩
  · refine forall_update (p := fun _ (old : Option Nat) =>
      ∀ g, old = some g → (s.system.fate g).Removed) nofun h.oldHandler
  · intro f hf
    rcases List.mem_cons.mp hf with rfl | hf
    · exact hremoved
    · exact h.deleted f hf
  · exact (if_neg hfree).trans h.revoked.2

omit [DecidableEq κ] [DecidableEq ε] in
/-- A handler that is started is not deleted. -/
theorem start (h : LifetimeInv s) {e : ε} {v : Visit κ} {i : Index} {g : Nat}
    (hcall : s.system.emission e = .call v i (.handler g)) : LifetimeInv (s.start e g) := by
  have halive : g ∉ s.deleted := fun hg => h.apart g (h.deleted g hg) e v i hcall
  refine ⟨h.inv, h.apart, ?_, h.oldHandler, h.deleted, ?_, h.revoked.2⟩
  · intro e' g' hmem
    rcases List.mem_cons.mp hmem with heq | hmem
    · cases heq
      exact ⟨v, i, hcall⟩
    · exact h.executing e' g' hmem
  · exact (if_neg halive).trans h.revoked.1

theorem emissionStep (h : LifetimeInv s) {e : ε} {spurious : Bool}
    (hstep : s.emissionStep e spurious = some s') : LifetimeInv s' := by
  have hothers : ∀ system, Signal.step s.system (.emission e spurious) = some system →
      Apart system ∧ ∀ e', e' ≠ e → system.emission e' = s.system.emission e' := by
    intro system hsystem
    have hmove := emissionMove_of_emissionStep hsystem
    refine ⟨h.apart.emissionMove h.inv hmove, fun e' he' => ?_⟩
    cases hmove with
    | call v i found hpc => cases found <;> exact Function.update_of_ne he' _ _
    | _ => exact Function.update_of_ne he' _ _
  unfold Lifetimes.emissionStep at hstep
  split at hstep
  case h_1 v i g hpc =>
    split at hstep
    · rcases Option.map_eq_some_iff.mp hstep with ⟨system, hsystem, rfl⟩
      rcases hothers system hsystem with ⟨hapart, hsame⟩
      refine h.system hsystem hapart ?_ fun k g hk => .inl hk
      intro e' g' hmem
      rcases List.mem_filter.mp hmem with ⟨hmem, hne⟩
      exact ⟨hmem, hsame e' (by simpa using hne)⟩
    · cases hstep
      exact h.start hpc
  case h_2 hpc =>
    rcases Option.map_eq_some_iff.mp hstep with ⟨system, hsystem, rfl⟩
    rcases hothers system hsystem with ⟨hapart, hsame⟩
    refine h.system hsystem hapart ?_ fun k g hk => .inl hk
    intro e' g' hmem
    refine ⟨hmem, hsame e' ?_⟩
    rintro rfl
    rcases h.executing e' g' hmem with ⟨v, j, hcall⟩
    exact hpc v j g' hcall

theorem ownerStep (h : LifetimeInv s) {k : κ} {spurious : Bool}
    (hunheld : Unheld s (.owner k spurious)) (hstep : s.ownerStep k spurious = some s') :
    LifetimeInv s' := by
  unfold Lifetimes.ownerStep at hstep
  split at hstep
  case h_1 g hold =>
    cases hstep
    exact h.delete hold
  case h_2 hold =>
    rcases Option.map_eq_some_iff.mp hstep with ⟨system, hsystem, rfl⟩
    have hapart : Apart system := by
      refine h.apart.step h.inv ?_ hsystem
      rintro k' spurious' i g hl hremoves hi
      cases hl
      intro e v j hcall
      refine hunheld (i, g) hremoves hold hi e ?_
      rw [hcall]
      rfl
    refine h.system hsystem hapart ?_ ?_
    · intro e g hmem
      exact ⟨hmem, by rw [(ownerMove_of_ownerStep hsystem).frame.2]⟩
    · refine forall_update (p := fun k' (old : Option Nat) => ∀ g, old = some g →
        s.oldHandler k' = some g ∨ (system.fate g).Removed) ?_ fun k' g hk' => .inl hk'
      intro g hg
      rcases Option.map_eq_some_iff.mp hg with ⟨⟨i, g'⟩, hremoves, rfl⟩
      exact .inr (removed_of_removes h.inv hremoves hsystem)

theorem step (h : LifetimeInv s) {l : Label κ ε} (hunheld : Unheld s l)
    (hstep : s.step l = some s') : LifetimeInv s' := by
  have hcalls : ∀ l, (∀ k spurious, l ≠ .owner k spurious) →
      (∀ e spurious, l ≠ .emission e spurious) → (Signal.step s.system l).map
        (fun system => { s with system := system }) = some s' → LifetimeInv s' := by
    intro l howner hemission hmap
    rcases Option.map_eq_some_iff.mp hmap with ⟨system, hsystem, rfl⟩
    have hapart : Apart system :=
      h.apart.step h.inv (fun k spurious _ _ hl => absurd hl (howner k spurious)) hsystem
    refine h.system hsystem hapart ?_ fun k g hk => .inl hk
    intro e g hmem
    refine ⟨hmem, ?_⟩
    cases l with
    | emits e' type =>
        -- an emission that executes a handler was called before
        simp only [Signal.step, Option.ite_none_right_eq_some, Option.some.injEq] at hsystem
        rcases hsystem with ⟨hpc, rfl⟩
        have hne : e ≠ e' := by
          rintro rfl
          rcases h.executing e g hmem with ⟨v, j, hcall⟩
          rw [hpc] at hcall
          cases hcall
        exact Function.update_of_ne hne _ _
    | owner k spurious => exact absurd rfl (howner k spurious)
    | emission e' spurious => exact absurd rfl (hemission e' spurious)
    | _ =>
        rcases ownerMove_of_step hsystem (by simp) hemission with ⟨k, hmove⟩
        rw [hmove.frame.2]
  cases l with
  | owner k spurious => exact h.ownerStep hunheld hstep
  | emission e spurious => exact h.emissionStep hstep
  | _ =>
      simp only [Lifetimes.step] at hstep
      split at hstep
      · cases hstep
      · exact hcalls _ (by simp) (by simp) hstep

end LifetimeInv

/-! ## All runs -/

/-- Any interleaving of the owners' calls and of any number of emissions starts no handler
after its removal and deletes none that is executed, if no exchange of a multi-trigger handler
meets an emission that holds this handler.  For trigger-once handlers nothing is required. -/
theorem revoked_of_unheld (place₀ : κ × Index) (ls : List (Label κ ε)) (s : Lifetimes κ ε)
    (hunheld : lifetimeMachine.RunsWithin Unheld (Lifetimes.initial place₀) ls)
    (hrun : lifetimeMachine.run (Lifetimes.initial place₀) ls = some s) : Revoked s :=
  (lifetimeMachine.runsWithin_invariant (fun _ _ _ h hok hstep => h.step hok hstep)
    (LifetimeInv.initial place₀) hunheld hrun).revoked

/-- A slot with a handler of the type {lit}`i`. -/
def emplaced (k : Fin 1) (i : Index) : List (Label (Fin 1) (Fin 1)) :=
  [.regist k 0xFFFFFFFFFFFFFFFF#64, .owner k false, .emplace k i] ++
    List.replicate 5 (.owner k false)

/-- An emission comes to the manager of the handler and exchanges or loads the pointer. -/
def comesToHandler (e : Fin 1) (type : SignalType) : List (Label (Fin 1) (Fin 1)) :=
  .emits e type :: List.replicate 6 (.emission e false)

/-- {lit}`Slot::clear`. -/
def clears (k : Fin 1) (i : Index) : List (Label (Fin 1) (Fin 1)) :=
  .clear k i :: List.replicate 3 (.owner k false)

/-- The owner removes a handler that has been run. -/
theorem revoked_of_unheld_afterRun :
    ∃ s, lifetimeMachine.run (Lifetimes.initial (0, 32))
        (emplaced 0 32 ++ comesToHandler 0 0x100000000#64 ++ List.replicate 4 (.emission 0 false) ++
          clears 0 32) = some s ∧
      (s.system.invoked 0 = 1 ∧ s.deleted = [0]) ∧ Revoked s := by
  rcases lifetimeMachine.exists_run_of_any (Lifetimes.initial (0, 32))
    (emplaced 0 32 ++ comesToHandler 0 0x100000000#64 ++ List.replicate 4 (.emission 0 false) ++
      clears 0 32)
    (fun s => s.system.invoked 0 = 1 ∧ s.deleted = [0]) (by decide +kernel) with ⟨s, hrun, hs⟩
  exact ⟨s, hrun, hs, revoked_of_unheld (0, 32) _ s (by decide +kernel) hrun⟩

/-- The owner clears a multi-trigger handler between the load of its pointer and its start, or
while it is executed. -/
theorem exists_not_revoked :
    (∃ s, lifetimeMachine.run (Lifetimes.initial (0, 32))
        (emplaced 0 32 ++ comesToHandler 0 0x100000000#64 ++ clears 0 32 ++ [.emission 0 false]) =
          some s ∧ s.late = [0] ∧ ¬ Revoked s) ∧
    ∃ s, lifetimeMachine.run (Lifetimes.initial (0, 32))
        (emplaced 0 32 ++ comesToHandler 0 0x100000000#64 ++ [.emission 0 false] ++ clears 0 32) =
          some s ∧ s.torn = [0] ∧ ¬ Revoked s := by
  constructor
  · rcases lifetimeMachine.exists_run_of_any (Lifetimes.initial (0, 32))
      (emplaced 0 32 ++ comesToHandler 0 0x100000000#64 ++ clears 0 32 ++ [.emission 0 false])
      (fun s => s.late = [0]) (by decide +kernel) with ⟨s, hrun, hs⟩
    exact ⟨s, hrun, hs, fun h => by rw [h.1] at hs; cases hs⟩
  · rcases lifetimeMachine.exists_run_of_any (Lifetimes.initial (0, 32))
      (emplaced 0 32 ++ comesToHandler 0 0x100000000#64 ++ [.emission 0 false] ++ clears 0 32)
      (fun s => s.torn = [0]) (by decide +kernel) with ⟨s, hrun, hs⟩
    exact ⟨s, hrun, hs, fun h => by rw [h.2] at hs; cases hs⟩

end Signal

end AsyncSimple
