import AsyncSimple.Signal.Carrier

/-!
# What the calls of emits return

Calls of {lit}`emits` with overlapping arguments race in {lit}`UpdateState`.  A
call may leave the loop without an exchange, and the exchange of a call may add
only some of its types.

Main results:

- Theorem {lit}`RequestInv.step`: what a call has learnt of the state agrees
  with what it was asked to emit.
- Theorem {lit}`updateState_partitions`: the trigger-once types that were
  requested are divided among the returned values, the others are returned by
  every call, and a call that returns {lit}`None` has done nothing.
-/

namespace AsyncSimple

open Transition

namespace Signal

open SignalType

variable {κ ε : Type}

/-- One set of types is contained in another. -/
def SignalType.Within (a b : SignalType) : Prop :=
  ∀ i, has a i = true → has b i = true

theorem SignalType.Within.refl (a : SignalType) : Within a a :=
  fun _ h => h

theorem SignalType.Within.trans {a b c : SignalType} (hab : Within a b) (hbc : Within b c) :
    Within a c :=
  fun i h => hbc i (hab i h)

/-- The program point agrees with a request of these types: {lit}`expected` is
an earlier state, and behind {lit}`UpdateState` all the types are in the state
and the valid ones are requested ones with all that trigger again. -/
def EmissionPc.Answers (state type : SignalType) : EmissionPc κ → Prop
  | .notCalled => False
  | .update type' expected => type' = type ∧ Within expected state
  | pc => Within pc.valid type ∧ Within (type &&& high32bitsMask) pc.valid ∧ Within type state

/-- The state only grows. -/
theorem EmissionPc.Answers.mono {state state' type : SignalType} {pc : EmissionPc κ}
    (h : pc.Answers state type) (hgrows : Within state state') : pc.Answers state' type := by
  cases pc with
  | notCalled => exact h
  | update type' expected => exact ⟨h.1, h.2.trans hgrows⟩
  | _ => exact ⟨h.1, h.2.1, h.2.2.trans hgrows⟩

/-- No type is new: the request is contained in the state that was seen. -/
theorem within_of_validSignal_eq_zero {type expected : SignalType}
    (h : validSignal type expected = 0#64) : Within type expected := by
  intro i hi
  have hbit : has (validSignal type expected) i = false := by
    rw [h]
    exact has_zero
  rw [validSignal, has_xor, has_or, hi, Bool.or_true] at hbit
  simpa using hbit

/-- The returned types are requested ones. -/
theorem validSignal_within (type expected : SignalType) :
    Within (validSignal type expected ||| (type &&& high32bitsMask)) type := by
  intro i hi
  rw [validSignal, has_or, has_xor, has_or, has_and] at hi
  cases htype : has type i with
  | true => rfl
  | false => simp [htype] at hi

/-- The types that trigger again are returned. -/
theorem high32bits_within (type expected : SignalType) :
    Within (type &&& high32bitsMask) (validSignal type expected ||| (type &&& high32bitsMask)) := by
  intro i hi
  rw [has_or, hi, Bool.or_true]

/-- Local steps keep the agreement with a request. -/
theorem Forward.answers {s : System κ ε} {pc pc' : EmissionPc κ} {type : SignalType}
    (h : Forward s pc pc') (hanswers : pc.Answers s.state type) : pc'.Answers s.state type := by
  cases h with
  | none | start type' => exact hanswers.elim
  | retry type' expected => exact ⟨hanswers.1, Within.refl _⟩
  | nothing type' expected hvalid | again type' expected hvalid =>
      rcases hanswers with ⟨rfl, hexpected⟩
      exact ⟨validSignal_within type' expected, high32bits_within type' expected,
        (within_of_validSignal_eq_zero hvalid).trans hexpected⟩
  | _ => exact hanswers

/-- A call keeps the types it delivers. -/
theorem Forward.carries_of_carries {s : System κ ε} {pc pc' : EmissionPc κ} {i : Index}
    (h : Forward s pc pc') (hcarries : pc.Carries i) : pc'.Carries i := by
  cases h with
  | none | start type | retry type expected | nothing type expected hvalid
  | again type expected hvalid => simp [EmissionPc.Carries, EmissionPc.valid] at hcarries
  | _ => exact hcarries

/-- The calls so far agree with the moves that started them. -/
structure RequestInv (ks : List (Label κ ε)) (s : System κ ε) : Prop where
  answers : ∀ e type, Label.emits e type ∈ ks → (s.emission e).Answers s.state type
  called : ∀ e, s.emission e ≠ .notCalled → ∃ type, Label.emits e type ∈ ks
  requested : ∀ i, has s.state i = true → ∃ e type, Label.emits e type ∈ ks ∧ has type i = true

theorem RequestInv.initial (place₀ : κ × Index) :
    RequestInv [] (System.initial place₀ : System κ ε) := by
  constructor <;> simp [System.initial]

namespace RequestInv

variable {ks : List (Label κ ε)} {s s' : System κ ε}

/-- A move that calls nothing. -/
theorem snoc (h : RequestInv ks s) {l : Label κ ε} (hl : ∀ e type, l ≠ .emits e type) :
    RequestInv (ks ++ [l]) s := by
  have hmem : ∀ e type, Label.emits e type ∈ ks ++ [l] ↔ Label.emits e type ∈ ks := by
    intro e type
    rw [List.mem_append, List.mem_singleton, or_iff_left (hl e type).symm]
  refine ⟨?_, ?_, ?_⟩
  · intro e type hold
    exact h.answers e type ((hmem e type).mp hold)
  · intro e hcalled
    rcases h.called e hcalled with ⟨type, hold⟩
    exact ⟨type, (hmem e type).mpr hold⟩
  · intro i hi
    rcases h.requested i hi with ⟨e, type, hold, hbit⟩
    exact ⟨e, type, (hmem e type).mpr hold, hbit⟩

/-- The move that calls {lit}`emits`. -/
theorem emits [DecidableEq ε] (h : RequestInv ks s) {e : ε} {type : SignalType}
    (hpc : s.emission e = .notCalled) :
    RequestInv (ks ++ [.emits e type])
      (s.setEmission e (if type = 0#64 then .returned 0#64 else .update type s.state)) := by
  refine ⟨?_, ?_, ?_⟩
  · intro e' type' hmem
    rcases List.mem_append.mp hmem with hold | hnew
    · have hanswers := h.answers e' type' hold
      have he : e' ≠ e := by
        rintro rfl
        rw [hpc] at hanswers
        exact hanswers
      simpa [System.setEmission, he] using hanswers
    · rw [List.mem_singleton] at hnew
      injection hnew with he htype
      subst he htype
      simp only [System.setEmission, Function.update_self]
      split
      · next hzero =>
          subst hzero
          refine ⟨Within.refl _, ?_, ?_⟩ <;> intro i hi <;> simp at hi
      · exact ⟨rfl, Within.refl _⟩
  · intro e' hcalled
    by_cases he : e' = e
    · subst he
      exact ⟨type, List.mem_append_right _ List.mem_cons_self⟩
    · rcases h.called e' (by simpa [System.setEmission, he] using hcalled) with ⟨type', hmem⟩
      exact ⟨type', List.mem_append_left _ hmem⟩
  · intro i hi
    rcases h.requested i hi with ⟨e', type', hmem, hbit⟩
    exact ⟨e', type', List.mem_append_left _ hmem, hbit⟩

theorem ownerMove [DecidableEq κ] (h : RequestInv ks s) {k : κ} (hmove : OwnerMove s k s') :
    RequestInv ks s' := by
  rcases h with ⟨hanswers, hcalled, hrequested⟩
  rw [← hmove.frame.1, ← hmove.frame.2] at hanswers
  rw [← hmove.frame.2] at hcalled
  rw [← hmove.frame.1] at hrequested
  exact ⟨hanswers, hcalled, hrequested⟩

end RequestInv

variable [DecidableEq κ] [DecidableEq ε]

/-- Emissions only add to the state. -/
theorem EmissionMove.grows {s s' : System κ ε} {e : ε} (h : EmissionMove s e s') :
    Within s.state s'.state := by
  cases h with
  | forward pc hforward => exact Within.refl _
  | update type hpc =>
      intro i hi
      rw [has_or, hi, Bool.true_or]
  | exchange v i managers hpc => exact Within.refl _
  | call v i found hpc => cases found <;> exact Within.refl _

/-- The state of a signal only grows. -/
theorem state_within_of_step {s s' : System κ ε} {l : Label κ ε} (hstep : step s l = some s') :
    Within s.state s'.state := by
  rcases step_cases hstep with ⟨k, hmove⟩ | ⟨e, hmove⟩
  · rw [hmove.frame.1]
    exact Within.refl _
  · exact hmove.grows

/-- A step of one call leaves the other calls alone. -/
theorem EmissionMove.emission_of_ne {s s' : System κ ε} {e e' : ε} (h : EmissionMove s e s')
    (he : e' ≠ e) : s'.emission e' = s.emission e' := by
  cases h with
  | call v i found hpc => cases found <;> simp [System.setEmission, runHandler, he]
  | _ => simp [System.setEmission, System.setCell, he]

/-- A step of a call keeps its agreement with its request. -/
theorem EmissionMove.answers {s s' : System κ ε} {e : ε} {type : SignalType}
    (h : EmissionMove s e s') (hanswers : (s.emission e).Answers s.state type) :
    (s'.emission e).Answers s'.state type := by
  cases h with
  | forward pc hforward =>
      simp only [System.setEmission, Function.update_self]
      exact hforward.answers hanswers
  | update type' hpc =>
      rw [hpc] at hanswers
      rcases hanswers with ⟨rfl, -⟩
      simp only [System.setEmission, Function.update_self]
      refine ⟨validSignal_within type' s.state, high32bits_within type' s.state, ?_⟩
      intro i hi
      rw [has_or, hi, Bool.or_true]
  | exchange v i managers hpc =>
      rw [hpc] at hanswers
      simp only [System.setEmission, System.setCell, Function.update_self, afterExchange]
      split <;> exact hanswers
  | call v i found hpc =>
      rw [hpc] at hanswers
      have hwalk : (EmissionPc.walk v).Answers s.state type := hanswers
      cases found <;> simpa only [runHandler, System.setEmission, Function.update_self] using hwalk

/-- A call that carries a type carries it to its end. -/
theorem EmissionMove.carries {s s' : System κ ε} {e e' : ε} {i : Index}
    (h : EmissionMove s e s') (hcarries : (s.emission e').Carries i) :
    (s'.emission e').Carries i := by
  by_cases he : e' = e
  · subst he
    cases h with
    | forward pc hforward =>
        simp only [System.setEmission, Function.update_self]
        exact hforward.carries_of_carries hcarries
    | update type hpc =>
        rw [hpc] at hcarries
        simp [EmissionPc.Carries, EmissionPc.valid] at hcarries
    | exchange v j managers hpc =>
        rw [hpc] at hcarries
        simp only [System.setEmission, System.setCell, Function.update_self, afterExchange]
        split <;> exact hcarries
    | call v j found hpc =>
        rw [hpc] at hcarries
        have hwalk : (EmissionPc.walk v).Carries i := hcarries
        cases found <;>
          simpa only [runHandler, System.setEmission, Function.update_self] using hwalk
  · rw [h.emission_of_ne he]
    exact hcarries

theorem carries_of_step {s s' : System κ ε} {l : Label κ ε} {e : ε} {i : Index}
    (hcarries : (s.emission e).Carries i) (hstep : step s l = some s') :
    (s'.emission e).Carries i := by
  rcases step_cases hstep with ⟨k, hmove⟩ | ⟨e', hmove⟩
  · rwa [hmove.frame.2]
  · exact hmove.carries hcarries

namespace RequestInv

variable {ks : List (Label κ ε)} {s s' : System κ ε}

/-- A step of a call that is under way. -/
theorem emissionMove (h : RequestInv ks s) {e : ε} (hmove : EmissionMove s e s')
    (hpc : s.emission e ≠ .notCalled) : RequestInv ks s' := by
  refine ⟨?_, ?_, ?_⟩
  · intro e' type hmem
    by_cases he : e' = e
    · subst he
      exact hmove.answers (h.answers e' type hmem)
    · rw [hmove.emission_of_ne he]
      exact (h.answers e' type hmem).mono hmove.grows
  · intro e' hcalled
    by_cases he : e' = e
    · rw [he]
      exact h.called e hpc
    · exact h.called e' (by rwa [hmove.emission_of_ne he] at hcalled)
  · intro i hi
    cases hmove with
    | forward pc hforward => exact h.requested i hi
    | update type hupdate =>
        rw [has_or, Bool.or_eq_true] at hi
        rcases hi with hold | hnew
        · exact h.requested i hold
        · rcases h.called e hpc with ⟨type', hmem⟩
          have hanswers := h.answers e type' hmem
          rw [hupdate] at hanswers
          rw [hanswers.1] at hnew
          exact ⟨e, type', hmem, hnew⟩
    | exchange v j managers hwalk => exact h.requested i hi
    | call v j found hcall => exact h.requested i (by cases found <;> exact hi)

/-- Every step keeps the calls and the requests together. -/
theorem step (h : RequestInv ks s) {l : Label κ ε} (hstep : step s l = some s') :
    RequestInv (ks ++ [l]) s' := by
  cases l with
  | emits e type =>
      simp only [Signal.step, Option.ite_none_right_eq_some, Option.some.injEq] at hstep
      rcases hstep with ⟨hpc, rfl⟩
      exact h.emits hpc
  | emission e spurious =>
      have hpc : s.emission e ≠ .notCalled := by
        intro hpc
        simp [Signal.step, emissionStep, hpc] at hstep
      exact (h.emissionMove (emissionMove_of_emissionStep hstep) hpc).snoc (by simp)
  | regist k filter | setFilter k filter | emplace k i | clear k i | owner k spurious =>
      refine snoc ?_ (by simp)
      rcases ownerMove_of_step hstep (by simp) (by simp) with ⟨k', hmove⟩
      exact h.ownerMove hmove

end RequestInv

/-! ## Calls that have nothing to deliver -/

/-- The call is behind {lit}`UpdateState` and walks over the slots. -/
def EmissionPc.Visits : EmissionPc κ → Prop
  | .notCalled | .update _ _ | .returned _ => False
  | _ => True

/-- {lit}`emits` only goes on to the slots with a type to deliver. -/
theorem valid_ne_zero_of_update {s s' : System κ ε} {e : ε} {spurious : Bool}
    {type expected : SignalType} (hpc : s.emission e = .update type expected)
    (hstep : emissionStep s e spurious = some s') (hvisits : (s'.emission e).Visits) :
    (s'.emission e).valid ≠ 0#64 := by
  simp only [emissionStep, hpc] at hstep
  split at hstep
  · cases hstep
    simp only [System.setEmission, Function.update_self] at hvisits ⊢
    split at hvisits
    · exact hvisits.elim
    · next hresult =>
        rw [if_neg hresult]
        exact hresult
  · next hvalid =>
      split at hstep
      · cases hstep
        simp only [System.setEmission, Function.update_self]
        intro hzero
        exact hvalid (BitVec.or_eq_zero_iff.mp hzero).1
      · cases hstep
        simp [System.setEmission, EmissionPc.Visits] at hvisits

omit [DecidableEq κ] [DecidableEq ε] in
theorem Forward.valid_eq {s : System κ ε} {pc pc' : EmissionPc κ} (h : Forward s pc pc')
    (hvisits : pc.Visits) : pc'.valid = pc.valid := by
  cases h with
  | none | start type | retry type expected | nothing type expected hvalid
  | again type expected hvalid => exact hvisits.elim
  | _ => rfl

/-- A step from one slot or manager to the next keeps the delivered types. -/
theorem EmissionMove.valid_eq {s s' : System κ ε} {e : ε} (h : EmissionMove s e s')
    (hvisits : (s.emission e).Visits) : (s'.emission e).valid = (s.emission e).valid := by
  cases h with
  | forward pc hforward =>
      simp only [System.setEmission, Function.update_self]
      exact hforward.valid_eq hvisits
  | update type hpc =>
      rw [hpc] at hvisits
      exact hvisits.elim
  | exchange v i managers hpc =>
      simp only [System.setEmission, System.setCell, Function.update_self, afterExchange, hpc]
      split <;> rfl
  | call v i found hpc =>
      rw [hpc]
      cases found <;> simp [runHandler, System.setEmission, EmissionPc.valid]

/-- Calls that walk over the slots have something to deliver. -/
theorem valid_ne_zero_of_step {s s' : System κ ε} {l : Label κ ε}
    (h : ∀ e, (s.emission e).Visits → (s.emission e).valid ≠ 0#64) (hstep : step s l = some s')
    (e : ε) (hvisits : (s'.emission e).Visits) : (s'.emission e).valid ≠ 0#64 := by
  cases l with
  | emits e' type =>
      simp only [step, Option.ite_none_right_eq_some, Option.some.injEq] at hstep
      rcases hstep with ⟨hpc, rfl⟩
      by_cases he : e = e'
      · subst he
        simp only [System.setEmission, Function.update_self] at hvisits
        split at hvisits <;> exact hvisits.elim
      · simp only [System.setEmission, Function.update_of_ne he] at hvisits ⊢
        exact h e hvisits
  | emission e' spurious =>
      have hmove := emissionMove_of_emissionStep hstep
      by_cases he : e = e'
      · subst he
        cases hpc : s.emission e with
        | update type expected => exact valid_ne_zero_of_update hpc hstep hvisits
        | notCalled | returned valid => simp [step, emissionStep, hpc] at hstep
        | _ =>
            have hold : (s.emission e).Visits := by
              rw [hpc]
              trivial
            rw [hmove.valid_eq hold]
            exact h e hold
      · rw [hmove.emission_of_ne he] at hvisits ⊢
        exact h e hvisits
  | _ =>
      rcases ownerMove_of_step hstep (by simp) (by simp) with ⟨k, hmove⟩
      rw [hmove.frame.2] at hvisits ⊢
      exact h e hvisits

/-- The call of {lit}`emits` that makes this move. -/
def Label.caller : Label κ ε → Option ε
  | .emits e _ | .emission e _ => some e
  | _ => none

/-- A call that neither was nor comes behind {lit}`UpdateState` only changes its
own program point. -/
theorem eq_setEmission_of_not_visits {s s' : System κ ε} {l : Label κ ε} {e : ε}
    (hstep : step s l = some s') (hcaller : l.caller = some e) (hbefore : ¬ (s.emission e).Visits)
    (hafter : ¬ (s'.emission e).Visits) :
    ∃ pc : EmissionPc κ, ¬ pc.Visits ∧ s' = s.setEmission e pc := by
  have hmove : EmissionMove s e s' := by
    cases l with
    | emits e' type =>
        cases hcaller
        exact emissionMove_of_emits hstep
    | emission e' spurious =>
        cases hcaller
        exact emissionMove_of_emissionStep hstep
    | _ => cases hcaller
  cases hmove with
  | forward pc hforward =>
      simp only [System.setEmission, Function.update_self] at hafter
      exact ⟨pc, hafter, rfl⟩
  | update type hpc =>
      simp only [System.setEmission, Function.update_self] at hafter
      exact absurd trivial hafter
  | exchange v i managers hpc =>
      rw [hpc] at hbefore
      exact absurd trivial hbefore
  | call v i found hpc =>
      rw [hpc] at hbefore
      exact absurd trivial hbefore

/-- A call that returns {lit}`None` is never behind {lit}`UpdateState`: what it
had to deliver there it would still have to deliver at its end. -/
theorem not_visits_of_silent (place₀ : κ × Index) {ks ms : List (Label κ ε)} {t s : System κ ε}
    {e : ε} (hfirst : machine.run (System.initial place₀) ks = some t)
    (hrest : machine.run t ms = some s) (hsilent : s.emission e = .returned 0#64) :
    ¬ (t.emission e).Visits := by
  intro hvisits
  have hdelivers : ∀ e, (t.emission e).Visits → (t.emission e).valid ≠ 0#64 := by
    refine machine.run_invariant (fun _ _ _ h hstep => valid_ne_zero_of_step h hstep) ?_ hfirst
    intro e hnone
    exact hnone.elim
  rcases exists_has_of_ne_zero (hdelivers e hvisits) with ⟨i, hi⟩
  have hend : (s.emission e).Carries i :=
    machine.run_invariant (fun _ _ _ h hstep => carries_of_step h hstep) hi hrest
  rw [hsilent] at hend
  simp [EmissionPc.Carries, EmissionPc.valid] at hend

/-! ## The returned values -/

/-- The values the calls have returned, against what they were asked to emit. -/
structure Partition (ls : List (Label κ ε)) (s : System κ ε) : Prop where
  once : ∀ i, isMultiTriggerSignal i = false →
    (∃ e type, Label.emits e type ∈ ls ∧ has type i = true) →
    ∃! e, ∃ valid, s.emission e = .returned valid ∧ has valid i = true
  returned : ∀ e type, Label.emits e type ∈ ls → ∃ valid, s.emission e = .returned valid ∧
    Within valid type ∧ Within (type &&& high32bitsMask) valid
  union : ∀ i, has s.state i = true ↔ ∃ e type, Label.emits e type ∈ ls ∧ has type i = true

omit [DecidableEq κ] [DecidableEq ε] in
/-- When all calls have returned, their values divide the requested types. -/
theorem RequestInv.partition {ls : List (Label κ ε)} {s : System κ ε} (h : RequestInv ls s)
    (hcarrier : CarrierInv s)
    (hreturned : ∀ e type, Label.emits e type ∈ ls → ∃ valid, s.emission e = .returned valid) :
    Partition ls s := by
  have hstate : ∀ e type, Label.emits e type ∈ ls → Within type s.state := by
    intro e type hmem
    have hanswers := h.answers e type hmem
    rcases hreturned e type hmem with ⟨valid, hpc⟩
    rw [hpc] at hanswers
    exact hanswers.2.2
  refine ⟨?_, ?_, ?_⟩
  · rintro i hi ⟨e₀, type₀, hmem₀, hbit₀⟩
    rcases hcarrier.carried i (hstate e₀ type₀ hmem₀ i hbit₀) hi with ⟨e, hcarries⟩
    have hcalled : s.emission e ≠ .notCalled := by
      intro hpc
      rw [hpc] at hcarries
      simp [EmissionPc.Carries, EmissionPc.valid] at hcarries
    rcases h.called e hcalled with ⟨type, hmem⟩
    rcases hreturned e type hmem with ⟨valid, hpc⟩
    refine ⟨e, ⟨valid, hpc, ?_⟩, ?_⟩
    · rw [hpc] at hcarries
      exact hcarries
    · rintro e' ⟨valid', hpc', hbit'⟩
      refine hcarrier.unique e' e i hi ?_ hcarries
      rw [hpc']
      exact hbit'
  · intro e type hmem
    have hanswers := h.answers e type hmem
    rcases hreturned e type hmem with ⟨valid, hpc⟩
    rw [hpc] at hanswers
    exact ⟨valid, hpc, hanswers.1, hanswers.2.1⟩
  · intro i
    constructor
    · exact h.requested i
    · rintro ⟨e, type, hmem, hbit⟩
      exact hstate e type hmem i hbit

/-- For every interleaving of any number of calls of {lit}`emits`: the state
grows with every step, a call that returns {lit}`None` only moves its own
program point and visits no slot, and once all calls have returned their values
divide what was requested. -/
theorem updateState_partitions (place₀ : κ × Index) (ls : List (Label κ ε)) (s : System κ ε)
    (hrun : machine.run (System.initial place₀) ls = some s) :
    (∀ ks l ms u u', ls = ks ++ l :: ms → machine.run (System.initial place₀) ks = some u →
      machine.step u l = some u' → Within u.state u'.state ∧
        ∀ e, s.emission e = .returned 0#64 → l.caller = some e →
          ∃ pc : EmissionPc κ, ¬ pc.Visits ∧ u' = u.setEmission e pc) ∧
      ((∀ e type, Label.emits e type ∈ ls → ∃ valid, s.emission e = .returned valid) →
        Partition ls s) := by
  refine ⟨?_, ?_⟩
  · intro ks l ms u u' hls hfirst hstep
    refine ⟨state_within_of_step hstep, ?_⟩
    intro e hsilent hcaller
    have hquiet : ∀ ks' ms' t, ls = ks' ++ ms' →
        machine.run (System.initial place₀) ks' = some t → ¬ (t.emission e).Visits := by
      intro ks' ms' t hls' ht
      have hrest : machine.run t ms' = some s := by
        rw [← hrun, hls']
        exact (machine.run_append_of_run ht).symm
      exact not_visits_of_silent place₀ ht hrest hsilent
    have hnext : machine.run (System.initial place₀) (ks ++ [l]) = some u' :=
      machine.run_append hfirst (machine.run_cons_eq_some.mpr ⟨u', hstep, rfl⟩)
    exact eq_setEmission_of_not_visits hstep hcaller (hquiet ks (l :: ms) u hls hfirst)
      (hquiet (ks ++ [l]) ms u' (by rw [hls, List.append_assoc, List.singleton_append]) hnext)
  · intro hreturned
    have hrequests : RequestInv ls s :=
      machine.run_history_invariant (fun _ _ _ _ h hstep => h.step hstep)
        (RequestInv.initial place₀) hrun
    have hcarrier : CarrierInv s :=
      machine.run_invariant (fun _ _ _ h hstep => h.step hstep) (CarrierInv.initial place₀) hrun
    exact hrequests.partition hcarrier hreturned

/-- Three calls race: the second adds a type to those of the first, which has to
try again, and the third finds nothing to add. -/
def overlappingRequests (d e f : Fin 3) : List (Label (Fin 1) (Fin 3)) :=
  [.emits d 0x100000003#64, .emits e 6#64, .emission e true, .emission e false, .emission d false,
    .emission d false, .emits f 3#64, .emission f false, .emission d false, .emission d false,
    .emission e false, .emission e false]

theorem updateState_partitions_overlappingRequests :
    ∃ s, machine.run (System.initial (0, 0)) (overlappingRequests 0 1 2) = some s ∧
      (s.emission 0 = .returned 0x100000001#64 ∧ s.emission 1 = .returned 6#64 ∧
        s.emission 2 = .returned 0#64) ∧ Partition (overlappingRequests 0 1 2) s := by
  rcases machine.exists_run_of_any (System.initial (0, 0)) (overlappingRequests 0 1 2)
    (fun s => s.emission 0 = .returned 0x100000001#64 ∧ s.emission 1 = .returned 6#64 ∧
      s.emission 2 = .returned 0#64) (by decide +kernel) with ⟨s, hrun, hs⟩
  refine ⟨s, hrun, hs, (updateState_partitions (0, 0) (overlappingRequests 0 1 2) s hrun).2 ?_⟩
  intro e _ _
  rcases hs with ⟨h₀, h₁, h₂⟩
  match e with
  | 0 => exact ⟨_, h₀⟩
  | 1 => exact ⟨_, h₁⟩
  | 2 => exact ⟨_, h₂⟩

end Signal

end AsyncSimple
