import AsyncSimple.Signal.TerminateSlot

/-!
# A slot whose filter excludes {lit}`Terminate`

An emission that the filter excludes sets the bit of the signal and passes the
slot.  This module compares such a slot with one on which {lit}`Terminate` was
never emitted: the owner's calls give the same answers, with one exception.
{lit}`Slot::emplace` tests the bit without looking at the filter.

The signal may also have been emitted before the filter excluded it, and its
emission may still be on the way to the handler.  The bit is set before that, so
that the comparison then ends at the test of {lit}`emplace`.
-/

namespace AsyncSimple

namespace Signal

/-- The emission is not at the slot, or the filter has stopped it there. -/
def VisitPc.Excluded {η χ : Type} : VisitPc η χ → Prop
  | .notCalled | .filter => True
  | .managers admitted | .chained admitted _ => admitted = false
  | .passed marked => marked = false
  | _ => False

/-- The step is the test of the signal's state in {lit}`emplace`. -/
def CallPc.testsState {η : Type} : CallPc η → Bool
  | .cell (.emplaceTest _) => true
  | _ => false

/-- The owner has not come past the test of {lit}`emplace`. -/
def CallPc.Early {η : Type} : CallPc η → Prop
  | .emplaceLookup _ | .cell (.emplaceTest _) => True
  | _ => False

/-- Before the test there is only the look-up of the manager. -/
theorem CallPc.Early.next {pc : CallPc Handler} (h : pc.Early) (htest : pc.testsState = false)
    (slot : TerminateSlot Handler Unit) :
    ∃ g, (slot.callStep pc).2 = .at (.cell (.emplaceTest g)) := by
  rcases pc with g | _ | pc
  · exact ⟨g, rfl⟩
  · exact h.elim
  · cases pc with
    | emplaceTest g => cases htest
    | _ => exact h.elim

/-- A call of {lit}`emplace` for the handler of the await, on a cell that nobody
else changes. -/
def CallPc.Emplacing (cell : Cell Handler) : CallPc Handler → Prop
  | .emplaceLookup .cancel | .cell (.emplaceTest .cancel) | .cell (.emplaceLoad .cancel) => True
  | .cell (.emplaceCas .cancel old) => cell = old
  | _ => False

/-- A call of {lit}`clear`. -/
def CallPc.Clearing : CallPc Handler → Prop
  | .clearLookup | .cell .clearLoad | .cell (.clearCas _) => True
  | _ => False

theorem CallPc.Clearing.testsState {pc : CallPc Handler} (h : pc.Clearing) :
    pc.testsState = false := by
  rcases pc with _ | _ | pc
  · exact h.elim
  · rfl
  · cases pc with
    | emplaceTest g => exact h.elim
    | _ => rfl

theorem CallPc.Clearing.next {pc pc' : CallPc Handler} (h : pc.Clearing)
    {slot : TerminateSlot Handler Unit} (hnext : (slot.callStep pc).2 = .at pc') :
    pc'.Clearing := by
  cases pc with
  | emplaceLookup g => exact h.elim
  | clearLookup =>
      simp only [TerminateSlot.callStep] at hnext
      split at hnext
      · cases hnext
        trivial
      · cases hnext
  | cell pc =>
      rcases TerminateSlot.toCall_eq_at hnext with ⟨next, hcell, rfl⟩
      cases pc with
      | clearLoad =>
          simp only [cellStep] at hcell
          split at hcell
          · cases hcell
          · cases hcell
            trivial
      | clearCas old =>
          simp only [cellStep] at hcell
          split at hcell
          · cases hcell
          · exact (TerminateSlot.afterFailedExchange_ne_at _ _ hcell).elim
      | _ => exact h.elim

/-- The slot of a run with an emission next to that of a run without.
{lit}`early` says that the owner has not come past the test of
{lit}`emplace`. -/
structure SlotAgrees (early : Prop) (a b : TerminateSlot Handler Unit) : Prop where
  filter : a.filter = false
  filter_eq : b.filter = false
  state : b.state = false
  visit : b.visit = .notCalled
  unmarked : b.cell ≠ .emittedTag
  manager : a.manager = b.manager
  cell : a.cell = b.cell ∧ a.visit.Excluded ∨
    early ∧ a.state = true ∧ a.cell ≠ .handler .cancel ∧ a.visit ≠ .call (.handler .cancel)

namespace SlotAgrees

variable {early early' : Prop} {a a' b : TerminateSlot Handler Unit}

theorem mono (h : SlotAgrees early a b) (himp : early → early') : SlotAgrees early' a b :=
  ⟨h.filter, h.filter_eq, h.state, h.visit, h.unmarked, h.manager,
    h.cell.imp_right fun hearly => ⟨himp hearly.1, hearly.2⟩⟩

theorem canceled_left (h : SlotAgrees early a b) : a.canceled = false := by
  simp [TerminateSlot.canceled, h.filter]

theorem canceled_right (h : SlotAgrees early a b) : b.canceled = false := by
  simp [TerminateSlot.canceled, h.state]

/-- The handler of the await is not run. -/
theorem visit_ne_call (h : SlotAgrees early a b) : a.visit ≠ .call (.handler .cancel) := by
  intro hv
  rcases h.cell with ⟨-, hexcluded⟩ | ⟨-, -, -, hne⟩
  · rw [hv] at hexcluded
    exact hexcluded
  · exact hne hv

theorem emits (h : SlotAgrees early a b) (hemits : a.emits = some a') : SlotAgrees early a' b := by
  unfold TerminateSlot.emits at hemits
  split at hemits
  case h_1 =>
    cases hemits
    refine ⟨h.filter, h.filter_eq, h.state, h.visit, h.unmarked, h.manager, ?_⟩
    rcases h.cell with ⟨hcell, -⟩ | ⟨hearly, -, hcell, -⟩
    · exact .inl ⟨hcell, trivial⟩
    · exact .inr ⟨hearly, rfl, hcell, nofun⟩
  case h_2 => cases hemits

/-- An emission that began before the filter excluded it goes on. -/
theorem setVisit (h : SlotAgrees early a b) {visit : VisitPc Handler Unit}
    (hcalled : ¬ a.visit.Excluded) (hvisit : visit ≠ .call (.handler .cancel)) :
    SlotAgrees early { a with visit := visit } b := by
  refine ⟨h.filter, h.filter_eq, h.state, h.visit, h.unmarked, h.manager, ?_⟩
  rcases h.cell with ⟨-, hexcluded⟩ | ⟨hearly, hstate, hcell, -⟩
  · exact (hcalled hexcluded).elim
  · exact .inr ⟨hearly, hstate, hcell, hvisit⟩

theorem visitStep (h : SlotAgrees early a b) (hstep : a.visitStep = some a') :
    SlotAgrees early a' b := by
  rcases h with ⟨hfilter, hfilter', hs, hv, hunmarked, hmanager, hcell⟩
  unfold TerminateSlot.visitStep at hstep
  split at hstep
  case h_1 | h_2 | h_3 | h_4 => cases hstep
  case h_5 hvisit =>
    cases hstep
    exact ⟨hfilter, hfilter', hs, hv, hunmarked, hmanager,
      hcell.imp (fun hc => ⟨hc.1, hfilter⟩) fun he => ⟨he.1, he.2.1, he.2.2.1, nofun⟩⟩
  case h_6 admitted hvisit =>
    cases hstep
    rw [hvisit] at hcell
    exact ⟨hfilter, hfilter', hs, hv, hunmarked, hmanager,
      hcell.imp (fun hc => ⟨hc.1, hc.2⟩) fun he => ⟨he.1, he.2.1, he.2.2.1, nofun⟩⟩
  case h_7 admitted found hvisit =>
    rw [hvisit] at hcell
    have hnext : ∀ visit : VisitPc Handler Unit, visit ≠ .call (.handler .cancel) →
        SlotAgrees early { a with visit := if admitted then visit else .passed false } b := by
      intro visit hne
      refine ⟨hfilter, hfilter', hs, hv, hunmarked, hmanager, ?_⟩
      rcases hcell with ⟨hc, hadmitted⟩ | ⟨hearly, hstate, hc, -⟩
      · have hno : admitted = false := hadmitted
        exact .inl ⟨hc, by rw [hno]; rfl⟩
      · refine .inr ⟨hearly, hstate, hc, ?_⟩
        dsimp only
        split
        · exact hne
        · nofun
    split at hstep
    · cases hstep
      exact hnext _ nofun
    · cases hstep
      exact hnext _ nofun
  case h_8 found hvisit =>
    rw [hvisit] at hcell
    rcases hcell with ⟨-, hexcluded⟩ | ⟨hearly, hstate, hc, -⟩
    · exact hexcluded.elim
    · split at hstep
      · cases hstep
        refine ⟨hfilter, hfilter', hs, hv, hunmarked, hmanager, .inr ⟨hearly, hstate, nofun, ?_⟩⟩
        dsimp only
        split
        · nofun
        · exact fun hcall => hc (VisitPc.call.inj hcall)
      · cases hstep
        exact ⟨hfilter, hfilter', hs, hv, hunmarked, hmanager, .inr ⟨hearly, hstate, hc, nofun⟩⟩

theorem setChained (h : SlotAgrees early a b) (child : Option Unit) :
    SlotAgrees early { a with chainedSignal := child } { b with chainedSignal := child } :=
  ⟨h.filter, h.filter_eq, h.state, h.visit, h.unmarked, h.manager, h.cell⟩

theorem callStep_unmarked (h : SlotAgrees early a b) (pc : CallPc Handler) :
    (b.callStep pc).1.cell ≠ .emittedTag := by
  have hunmarked := h.unmarked
  cases pc with
  | emplaceLookup g => exact hunmarked
  | clearLookup => exact hunmarked
  | cell pc =>
      cases pc with
      | emplaceTest g => exact hunmarked
      | emplaceLoad g => exact hunmarked
      | clearLoad => exact hunmarked
      | emplaceCas g old =>
          simp only [TerminateSlot.callStep, cellStep]
          split
          · intro h
            cases h
          · exact hunmarked
      | clearCas old =>
          simp only [TerminateSlot.callStep, cellStep]
          split
          · intro h
            cases h
          · exact hunmarked

/-- A step of {lit}`emplace` or {lit}`clear` gives the same answer unless it is
the test of {lit}`emplace` after an emission. -/
theorem callStep (h : SlotAgrees early a b) {pc : CallPc Handler} (hpc : early → pc.Early)
    (htest : pc.testsState = true → a.state = false) :
    (a.callStep pc).2 = (b.callStep pc).2 ∧
      SlotAgrees (early ∧ pc.testsState = false) (a.callStep pc).1 (b.callStep pc).1 := by
  have hunmarked := h.callStep_unmarked pc
  cases pc with
  | emplaceLookup g =>
      exact ⟨rfl, h.filter, h.filter_eq, h.state, h.visit, hunmarked, rfl,
        h.cell.imp_right fun he => ⟨⟨he.1, rfl⟩, he.2⟩⟩
  | clearLookup =>
      refine ⟨?_, h.filter, h.filter_eq, h.state, h.visit, hunmarked, h.manager,
        h.cell.imp_right fun he => (hpc he.1).elim⟩
      simp only [TerminateSlot.callStep, h.manager]
  | cell pc =>
      have hcell : a.cell = b.cell ∧ a.visit.Excluded := by
        refine h.cell.resolve_right ?_
        rintro ⟨hearly, hstate, -⟩
        have hpc' := hpc hearly
        cases pc with
        | emplaceTest g =>
            rw [htest rfl] at hstate
            cases hstate
        | _ => exact hpc'
      have hcellStep : cellStep a.state a.cell pc = cellStep b.state b.cell pc := by
        cases pc with
        | emplaceTest g => rw [htest rfl, h.state, hcell.1]
        | _ => simp only [cellStep, hcell.1]
      refine ⟨?_, h.filter, h.filter_eq, h.state, h.visit, hunmarked, h.manager,
        .inl ⟨?_, hcell.2⟩⟩
      · simp only [TerminateSlot.callStep, hcellStep]
      · simp only [TerminateSlot.callStep, hcellStep]

/-- Without an emission {lit}`emplace` succeeds. -/
theorem emplace (h : SlotAgrees early a b) {pc : CallPc Handler} (hpc : pc.Emplacing b.cell) :
    (∃ pc', (b.callStep pc).2 = .at pc' ∧ pc'.Emplacing (b.callStep pc).1.cell) ∨
      (b.callStep pc).2 = .returns true := by
  rcases pc with (_ | _) | _ | (g | g | ⟨g, old⟩ | _ | old)
  · exact .inl ⟨_, rfl, trivial⟩
  · exact hpc.elim
  · exact hpc.elim
  · cases g with
    | cancel =>
        rw [TerminateSlot.callStep_emplaceTest h.state]
        exact .inl ⟨_, rfl, trivial⟩
    | earlier => exact hpc.elim
  · cases g with
    | cancel =>
        rw [TerminateSlot.callStep_emplaceLoad h.unmarked]
        exact .inl ⟨_, rfl, rfl⟩
    | earlier => exact hpc.elim
  · cases g with
    | cancel =>
        rw [TerminateSlot.callStep_emplaceCas hpc]
        exact .inr rfl
    | earlier => exact hpc.elim
  · exact hpc.elim
  · exact hpc.elim

end SlotAgrees

/-- The slot at the start of an await whose slot excludes {lit}`Terminate`: fresh,
or {lit}`Terminate` was emitted before, with the emission anywhere. -/
structure SlotConfig.Starts (cfg : SlotConfig) (slot : TerminateSlot Handler Unit) : Prop where
  filter : slot.filter = cfg.filter
  manager : slot.manager = cfg.slot.manager
  emitted : slot = cfg.slot ∨ slot.state = true ∧ slot.cell ≠ .handler .cancel ∧
    slot.visit ≠ .call (.handler .cancel)

theorem SlotConfig.Starts.agrees {cfg : SlotConfig} {slot : TerminateSlot Handler Unit}
    (h : cfg.Starts slot) (hfilter : cfg.filter = false) {early : Prop} (hearly : early) :
    SlotAgrees early slot cfg.slot := by
  have hunmarked : cfg.slot.cell ≠ .emittedTag := by
    simp only [SlotConfig.slot]
    split <;> nofun
  refine ⟨h.filter.trans hfilter, hfilter, rfl, rfl, hunmarked, h.manager, ?_⟩
  rcases h.emitted with rfl | ⟨hstate, hcell, hvisit⟩
  · exact .inl ⟨rfl, trivial⟩
  · exact .inr ⟨hearly, hstate, hcell, hvisit⟩

end Signal

end AsyncSimple
