import AsyncSimple.Coro.CollectAnyCancel

/-!
# Emplacing a handler while {lit}`Terminate` is emitted

An awaiter puts one handler into the slot of its coroutine and never takes it out.  The
emission of {lit}`Terminate` sets the bit, looks for the manager, and exchanges the
handler cell; the awaiter creates the manager, tests the bit, and exchanges the cell.

Main results:

- Theorem {lit}`EmplaceInv.emplace`: the call never meets the failed assertion behind
  its exchange.
- Theorem {lit}`EmplaceInv.visitStep`: an emission that passes the slot after the handler
  was put into it has taken the handler out.
-/

namespace AsyncSimple

open Transition Signal

open CollectAny (Marked Found Missed Admitted found_of_marked not_missed_of_found)

/-- The call of {lit}`emplace` with the cancel handler. -/
inductive Emplacing where
  | before
  | at (pc : CallPc Handler)
  | accepted
  | refused
deriving DecidableEq, Repr

/-- How the call goes on; {lit}`none` after the failed assertion. -/
def Emplacing.after : CallNext Handler → Option Emplacing
  | .at pc => some (.at pc)
  | .returns true => some .accepted
  | .returns false => some .refused
  | .aborts => none

/-- What the caller of {lit}`emplace` knows about the slot.  Its handler is in the cell,
or the emission runs it, or has run it. -/
def Emplacing.Knows (slot : TerminateSlot Handler Unit) : Emplacing → Prop
  | .before | .at (.emplaceLookup .cancel) => True
  | .at (.cell (.emplaceTest .cancel)) => slot.manager = true
  | .at (.cell (.emplaceLoad .cancel)) => slot.manager = true ∧ ¬ Missed slot.visit
  | .at (.cell (.emplaceCas .cancel old)) =>
      slot.manager = true ∧ ¬ Missed slot.visit ∧ old ≠ .emittedTag ∧
        (slot.cell = old ∨ slot.cell = .emittedTag)
  | .accepted =>
      slot.manager = true ∧ ¬ Missed slot.visit ∧
        (slot.cell = .handler .cancel ∨ slot.visit = .call (.handler .cancel) ∨
          slot.visit = .passed true)
  | .refused => slot.state = true
  | .at _ => False

/-- The slot of a filter that admits {lit}`Terminate`, and the caller. -/
structure EmplaceInv (slot : TerminateSlot Handler Unit) (call : Emplacing) : Prop where
  filter : slot.filter = true
  emitted : slot.state = true ↔ slot.visit ≠ .notCalled
  admitted : Admitted slot.visit
  marked : slot.cell = .emittedTag ↔ Marked slot.visit
  found : Found slot.visit → slot.manager = true
  missed : slot.manager = false ∨ Missed slot.visit → slot.cell = .null
  knows : call.Knows slot
  cancel : slot.cell = .handler .cancel ∨ slot.visit = .call (.handler .cancel) →
    call = .accepted

namespace EmplaceInv

variable {slot slot' : TerminateSlot Handler Unit} {call call' : Emplacing}

theorem state_of_tag (h : EmplaceInv slot call) (htag : slot.cell = .emittedTag) :
    slot.state = true := by
  refine h.emitted.mpr fun hv => ?_
  have hmarked := h.marked.mp htag
  rw [hv] at hmarked
  exact hmarked

/-- The caller moves and the slot stays. -/
theorem setCall (h : EmplaceInv slot call) (hknows : call'.Knows slot)
    (haccepted : call = .accepted → call' = .accepted) : EmplaceInv slot call' :=
  { h with
    knows := hknows
    cancel := fun hin => haccepted (h.cancel hin) }

/-! ## The caller -/

theorem emplace {pc : CallPc Handler} (h : EmplaceInv slot (.at pc)) :
    ∃ next, Emplacing.after (slot.callStep pc).2 = some next ∧
      EmplaceInv (slot.callStep pc).1 next ∧
      (next = .accepted → (slot.callStep pc).1.cell = .handler .cancel) := by
  have hknows := h.knows
  have hnot : Emplacing.at pc ≠ .accepted := by simp
  cases pc with
  | clearLookup => exact hknows.elim
  | emplaceLookup g =>
      cases g with
      | earlier => exact hknows.elim
      | cancel =>
          refine ⟨_, rfl, { h with
            found := fun _ => rfl, missed := ?_, knows := rfl, cancel := ?_ }, by simp⟩
          · rintro (hnone | hv)
            · cases hnone
            · exact h.missed (.inr hv)
          · exact fun hin => absurd (h.cancel hin) hnot
  | cell pc =>
      cases pc with
      | clearLoad | clearCas _ => exact hknows.elim
      | emplaceTest g =>
          cases g with
          | earlier => exact hknows.elim
          | cancel =>
              cases hs : slot.state with
              | true =>
                  rw [TerminateSlot.callStep_emplaceTest_triggered hs]
                  exact ⟨_, rfl, h.setCall hs (fun heq => absurd heq hnot), by simp⟩
              | false =>
                  have hv : slot.visit = .notCalled := by
                    by_contra hv
                    rw [h.emitted.mpr hv] at hs
                    cases hs
                  rw [TerminateSlot.callStep_emplaceTest hs]
                  exact ⟨_, rfl, h.setCall ⟨hknows, by rw [hv]; exact id⟩
                    (fun heq => absurd heq hnot), by simp⟩
      | emplaceLoad g =>
          cases g with
          | earlier => exact hknows.elim
          | cancel =>
              by_cases htag : slot.cell = .emittedTag
              · rw [TerminateSlot.callStep_emplaceLoad_emitted htag]
                exact ⟨_, rfl, h.setCall (h.state_of_tag htag) (fun heq => absurd heq hnot),
                  by simp⟩
              · rw [TerminateSlot.callStep_emplaceLoad htag]
                exact ⟨_, rfl, h.setCall ⟨hknows.1, hknows.2, htag, .inl rfl⟩
                  (fun heq => absurd heq hnot), by simp⟩
      | emplaceCas g old =>
          cases g with
          | earlier => exact hknows.elim
          | cancel =>
              rcases hknows with ⟨hmanager, hmissed, hold, hloaded⟩
              by_cases hcell : slot.cell = old
              · have hunmarked : ¬ Marked slot.visit := fun hmarked =>
                  hold (hcell ▸ h.marked.mpr hmarked)
                rw [TerminateSlot.callStep_emplaceCas hcell]
                refine ⟨_, rfl, { h with
                  marked := iff_of_false (by simp) hunmarked
                  missed := ?_
                  knows := ⟨hmanager, hmissed, .inl rfl⟩
                  cancel := fun _ => rfl }, fun _ => rfl⟩
                rintro (hnone | hv)
                · exact absurd (hnone.symm.trans hmanager) (by simp)
                · exact (hmissed hv).elim
              · have htag := hloaded.resolve_left hcell
                rw [TerminateSlot.callStep_emplaceCas_emitted hcell htag]
                exact ⟨_, rfl, h.setCall (h.state_of_tag htag) (fun heq => absurd heq hnot),
                  by simp⟩

/-! ## The emission -/

/-- What the caller knows survives a step of the emission that leaves the cell alone or
marks it and, if the handler was in it, goes on to run it. -/
theorem knows_emission (h : EmplaceInv slot call) (hmanager : slot'.manager = slot.manager)
    (hmissed : Missed slot'.visit → slot.manager = false ∨ Missed slot.visit)
    (hcell : slot'.cell = slot.cell ∨ slot'.cell = .emittedTag)
    (hstate : slot.state = true → slot'.state = true)
    (htaken : slot.cell = .handler .cancel → slot'.cell ≠ .handler .cancel →
      slot'.visit = .call (.handler .cancel))
    (hpassed : slot.visit = .call (.handler .cancel) ∨ slot.visit = .passed true →
      slot'.visit = .call (.handler .cancel) ∨ slot'.visit = .passed true) :
    call.Knows slot' := by
  have hknows := h.knows
  have hnot : slot.manager = true ∧ ¬ Missed slot.visit →
      slot'.manager = true ∧ ¬ Missed slot'.visit := by
    rintro ⟨hm, hv⟩
    refine ⟨hmanager.trans hm, fun hv' => ?_⟩
    rcases hmissed hv' with hnone | hold
    · exact absurd (hnone.symm.trans hm) (by simp)
    · exact hv hold
  unfold Emplacing.Knows at hknows
  split at hknows
  · trivial
  · trivial
  · exact hmanager.trans hknows
  · exact hnot hknows
  · rcases hknows with ⟨hm, hv, hold, hloaded⟩
    refine ⟨(hnot ⟨hm, hv⟩).1, (hnot ⟨hm, hv⟩).2, hold, ?_⟩
    rcases hcell with hsame | htag
    · rwa [hsame]
    · exact .inr htag
  · rcases hknows with ⟨hm, hv, hin | hcall⟩
    · refine ⟨(hnot ⟨hm, hv⟩).1, (hnot ⟨hm, hv⟩).2, ?_⟩
      by_cases hstays : slot'.cell = .handler .cancel
      · exact .inl hstays
      · exact .inr (.inl (htaken hin hstays))
    · exact ⟨(hnot ⟨hm, hv⟩).1, (hnot ⟨hm, hv⟩).2, .inr (hpassed hcall)⟩
  · exact hstate hknows
  · exact hknows.elim

/-- A step of the emission that leaves the cell alone. -/
theorem setVisit (h : EmplaceInv slot call) {visit : VisitPc Handler Unit} {state : Bool}
    (hstate : state = true) (hcalled : visit ≠ .notCalled) (hadmitted : Admitted visit)
    (hmarked : Marked visit ↔ Marked slot.visit) (hfound : Found visit → slot.manager = true)
    (hmissed : Missed visit → slot.manager = false ∨ Missed slot.visit)
    (hcall : visit ≠ .call (.handler .cancel))
    (hpassed : slot.visit = .call (.handler .cancel) ∨ slot.visit = .passed true →
      visit = .passed true) :
    EmplaceInv { slot with state := state, visit := visit } call :=
  { h with
    emitted := iff_of_true hstate hcalled
    admitted := hadmitted
    marked := h.marked.trans hmarked.symm
    found := hfound
    missed := fun hnot => h.missed (hnot.elim .inl hmissed)
    knows := h.knows_emission rfl hmissed (.inl rfl) (fun _ => hstate)
      (fun hin hout => absurd hin hout) (fun hv => .inr (hpassed hv))
    cancel := fun hin => h.cancel (.inl (hin.resolve_right hcall)) }

theorem emits (h : EmplaceInv slot call) (hemits : slot.emits = some slot') :
    EmplaceInv slot' call := by
  unfold TerminateSlot.emits at hemits
  split at hemits
  case h_1 hv =>
    cases hemits
    exact h.setVisit rfl (by simp) trivial (by rw [hv]; exact Iff.rfl) False.elim False.elim
      (by simp) (by rw [hv]; simp)
  case h_2 => cases hemits

theorem visitStep (h : EmplaceInv slot call) (hstep : slot.visitStep = some slot') :
    EmplaceInv slot' call := by
  have hadmitted := h.admitted
  have hfound := h.found
  have hset : slot.visit ≠ .notCalled → slot.state = true := h.emitted.mpr
  unfold TerminateSlot.visitStep at hstep
  split at hstep
  case h_1 | h_2 | h_3 | h_4 => cases hstep
  case h_5 hv =>
    cases hstep
    exact h.setVisit (hset (by simp [hv])) (by simp) h.filter (by rw [hv]; exact Iff.rfl)
      False.elim False.elim (by simp) (by rw [hv]; simp)
  case h_6 admitted hv =>
    cases hstep
    rw [hv] at hadmitted
    exact h.setVisit (hset (by simp [hv])) (by simp) hadmitted (by rw [hv]; exact Iff.rfl)
      id .inl (by simp) (by rw [hv]; simp)
  case h_7 admitted found hv =>
    rw [hv] at hadmitted hfound
    have htrue : admitted = true := hadmitted
    subst htrue
    have hmissed : found = false → slot.manager = false ∨ Missed slot.visit := by
      rw [hv]
      exact .inr
    split at hstep <;> cases hstep <;>
      exact h.setVisit (hset (by simp [hv])) (by simp) trivial (by rw [hv]; exact Iff.rfl)
        hfound hmissed (by simp) (by rw [hv]; simp)
  case h_8 found hv =>
    rw [hv] at hfound
    cases found with
    | false =>
        cases hstep
        exact h.setVisit (hset (by simp [hv])) (by simp) trivial
          (by rw [hv]; simp [Marked]) (by simp [Found]) (by rw [hv]; exact .inr) (by simp)
          (by rw [hv]; simp)
    | true =>
        -- the exchange of the cell
        have hmanager : slot.manager = true := hfound rfl
        have hunmarked : slot.cell ≠ .emittedTag := by
          intro htag
          have hmarked := h.marked.mp htag
          rw [hv] at hmarked
          exact hmarked
        simp only [if_true, Option.some.injEq] at hstep
        subst hstep
        have hstate := hset (by simp [hv])
        cases hcell : slot.cell with
        | emittedTag => exact absurd hcell hunmarked
        | null | handler g =>
            refine { h with
              emitted := iff_of_true hstate (by simp)
              admitted := trivial
              marked := iff_of_true rfl (by simp [Marked])
              found := fun _ => hmanager
              missed := ?_
              knows := h.knows_emission rfl ?_ (.inr rfl) id ?_ ?_
              cancel := ?_ }
            · rintro (hnone | hmissed)
              · exact absurd (hnone.symm.trans hmanager) (by simp)
              · simp [Missed] at hmissed
            · simp [Missed]
            · intro hin _
              rw [hcell] at hin
              simp_all
            · rw [hv]
              simp
            · intro hin
              exact h.cancel (.inl (by simp_all))

/-- The handler that is in the slot is run before the emission passes the slot. -/
theorem visitStep_ne_passed (h : EmplaceInv slot .accepted) (hstep : slot.visitStep = some slot') :
    slot'.visit ≠ .passed true := by
  rcases h.knows with ⟨-, hmissed, hwhere⟩
  have hadmitted := h.admitted
  unfold TerminateSlot.visitStep at hstep
  split at hstep
  case h_1 | h_2 | h_3 | h_4 => cases hstep
  case h_5 | h_6 =>
    cases hstep
    simp
  case h_7 admitted found hv =>
    rw [hv] at hadmitted
    cases (show admitted = true from hadmitted)
    split at hstep <;> cases hstep <;> simp
  case h_8 found hv =>
    rw [hv] at hmissed hwhere
    cases found with
    | false => exact absurd rfl hmissed
    | true =>
        have hcell : slot.cell = .handler .cancel := by simpa using hwhere
        simp only [hcell, if_true, Option.some.injEq] at hstep
        subst hstep
        simp

/-- The chained handler has been called. -/
theorem transferred (h : EmplaceInv slot call) {child : Unit} {found : Bool}
    (hv : slot.visit = .transfer child found) :
    EmplaceInv { slot with visit := .walk found } call := by
  have hfound := h.found
  rw [hv] at hfound
  exact h.setVisit (h.emitted.mpr (by simp [hv])) (by simp) trivial (by rw [hv]; exact Iff.rfl)
    hfound (by rw [hv]; exact .inr) (by simp) (by rw [hv]; simp)

/-- The handler that was taken out has been called. -/
theorem called (h : EmplaceInv slot call) {taken : Cell Handler} (hv : slot.visit = .call taken) :
    EmplaceInv { slot with visit := .passed true } call := by
  have hfound := h.found
  rw [hv] at hfound
  exact h.setVisit (h.emitted.mpr (by simp [hv])) (by simp) trivial
    (by rw [hv]; simp [Marked]) (fun _ => hfound trivial) (by simp [Missed]) (by simp) (by simp)

end EmplaceInv

end AsyncSimple
