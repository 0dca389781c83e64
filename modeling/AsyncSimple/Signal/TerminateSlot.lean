import AsyncSimple.Signal.HandlerCell

/-!
# A slot as an awaiter sees it

The awaiters of the library use one slot of their coroutine and one signal type,
{lit}`Terminate`.  This module restricts a signal to that view: the bit of
{lit}`Terminate` in the state, whether the filter of the slot admits it, its
handler cell and the chained signal.  The owner's calls are those of the full
slot.  Of the emissions only the one that sets the bit visits the handlers; its
steps at this slot are kept and those at other slots are delays.
-/

namespace AsyncSimple

namespace Signal

/-- Program points of the emission of {lit}`Terminate` at the slot. -/
inductive VisitPc (η χ : Type) where
  | notCalled
  /-- the bit is set and the filter not loaded yet -/
  | filter
  | managers (admitted : Bool)
  | chained (admitted found : Bool)
  /-- before the call of the chained handler -/
  | transfer (child : χ) (found : Bool)
  /-- at the head of the loop over the managers -/
  | walk (found : Bool)
  /-- before the call of the handler that was taken out -/
  | call (taken : Cell η)
  /-- done with the slot, which was or was not marked -/
  | passed (marked : Bool)
deriving DecidableEq, Repr

/-- The emission has come to the handler, or past the slot. -/
def VisitPc.reached {η χ : Type} : VisitPc η χ → Bool
  | .call _ | .passed _ => true
  | _ => false

/-- Steps left for the emission. -/
def VisitPc.remaining {η χ : Type} : VisitPc η χ → Nat
  | .notCalled => 7
  | .filter => 6
  | .managers _ => 5
  | .chained _ _ => 4
  | .transfer _ _ => 3
  | .walk _ => 2
  | .call _ => 1
  | .passed _ => 0

/-- The part of a signal and its slot that concerns {lit}`Terminate`. -/
structure TerminateSlot (η χ : Type) where
  state : Bool
  filter : Bool
  manager : Bool
  cell : Cell η
  chainedSignal : Option χ
  visit : VisitPc η χ
deriving DecidableEq, Repr

/-- Program points of {lit}`emplace` and {lit}`clear`, with the look-up of the
manager. -/
inductive CallPc (η : Type) where
  | emplaceLookup (h : η)
  | clearLookup
  | cell (pc : CellPc η)
deriving DecidableEq, Repr

/-- How a call goes on. -/
inductive CallNext (η : Type) where
  | at (pc : CallPc η)
  | returns (value : Bool)
  | aborts
deriving DecidableEq, Repr

/-- Steps left in a call. -/
def CallPc.remaining {η : Type} : CallPc η → Nat
  | .emplaceLookup _ => 4
  | .clearLookup | .cell (.emplaceTest _) => 3
  | .cell (.emplaceLoad _) | .cell .clearLoad => 2
  | .cell (.emplaceCas _ _) | .cell (.clearCas _) => 1

theorem CallPc.remaining_pos {η : Type} (pc : CallPc η) : 0 < pc.remaining := by
  rcases pc with _ | _ | pc
  · exact Nat.succ_pos 3
  · exact Nat.succ_pos 2
  · cases pc <;> exact Nat.succ_pos _

variable {η χ : Type}

def CellNext.toCall : CellNext η → CallNext η
  | .at pc => .at (.cell pc)
  | .returns value => .returns value
  | .aborts => .aborts

namespace TerminateSlot

/-- {lit}`Slot::hasTriggered(Terminate)` and {lit}`Slot::canceled`: both look at
the filter. -/
def canceled (slot : TerminateSlot η χ) : Bool :=
  slot.state && slot.filter

/-- One step of {lit}`emplace` or {lit}`clear`. -/
def callStep [DecidableEq η] (slot : TerminateSlot η χ) :
    CallPc η → TerminateSlot η χ × CallNext η
  | .emplaceLookup h => ({ slot with manager := true }, .at (.cell (.emplaceTest h)))
  | .clearLookup => (slot, if slot.manager then .at (.cell .clearLoad) else .returns false)
  | .cell pc =>
      let after := cellStep slot.state slot.cell pc
      ({ slot with cell := after.1 }, after.2.toCall)

section

variable [DecidableEq η] {slot : TerminateSlot η χ} {h : η} {old : Cell η}

omit [DecidableEq η] in
theorem toCall_eq_at {next : CellNext η} {pc : CallPc η} (h : next.toCall = .at pc) :
    ∃ pc', next = .at pc' ∧ pc = .cell pc' := by
  cases next with
  | «at» pc' => exact ⟨pc', rfl, (CallNext.at.inj h).symm⟩
  | returns value => cases h
  | aborts => cases h

omit [DecidableEq η] in
theorem afterFailedExchange_ne_at (cell : Cell η) (pc : CellPc η) :
    afterFailedExchange cell ≠ .at pc := by
  cases cell <;> nofun

theorem callStep_remaining {pc pc' : CallPc η} (hnext : (slot.callStep pc).2 = .at pc') :
    pc'.remaining < pc.remaining := by
  cases pc with
  | emplaceLookup g =>
      cases hnext
      exact Nat.lt_succ_self 3
  | clearLookup =>
      simp only [callStep] at hnext
      split at hnext
      · cases hnext
        exact Nat.lt_succ_self 2
      · cases hnext
  | cell pc =>
      rcases toCall_eq_at hnext with ⟨next, hcell, rfl⟩
      cases pc with
      | emplaceTest g =>
          simp only [cellStep] at hcell
          split at hcell
          · cases hcell
          · cases hcell
            exact Nat.lt_succ_self 2
      | emplaceLoad g =>
          simp only [cellStep] at hcell
          split at hcell
          · cases hcell
          · cases hcell
            exact Nat.lt_succ_self 1
      | clearLoad =>
          simp only [cellStep] at hcell
          split at hcell
          · cases hcell
          · cases hcell
            exact Nat.lt_succ_self 1
      | emplaceCas g old =>
          simp only [cellStep] at hcell
          split at hcell
          · cases hcell
          · exact (afterFailedExchange_ne_at _ _ hcell).elim
      | clearCas old =>
          simp only [cellStep] at hcell
          split at hcell
          · cases hcell
          · exact (afterFailedExchange_ne_at _ _ hcell).elim

/-- A step on the cell is one of the slot. -/
theorem callStep_cell {pc : CellPc η} {cell : Cell η} {next : CellNext η}
    (hcell : cellStep slot.state slot.cell pc = (cell, next)) :
    slot.callStep (.cell pc) = ({ slot with cell := cell }, next.toCall) := by
  change ({ slot with cell := (cellStep slot.state slot.cell pc).1 },
    (cellStep slot.state slot.cell pc).2.toCall) = _
  rw [hcell]

theorem callStep_emplaceTest_triggered (hs : slot.state = true) :
    slot.callStep (.cell (.emplaceTest h)) = (slot, .returns false) := by
  have hstep : cellStep slot.state slot.cell (.emplaceTest h) = (slot.cell, .returns false) :=
    congrArg (Prod.mk slot.cell) (if_pos hs)
  exact callStep_cell hstep

theorem callStep_emplaceTest (hs : slot.state = false) :
    slot.callStep (.cell (.emplaceTest h)) = (slot, .at (.cell (.emplaceLoad h))) := by
  have hstep : cellStep slot.state slot.cell (.emplaceTest h) = (slot.cell, .at (.emplaceLoad h)) :=
    congrArg (Prod.mk slot.cell) (if_neg (Bool.eq_false_iff.mp hs))
  exact callStep_cell hstep

theorem callStep_emplaceLoad_emitted (htag : slot.cell = .emittedTag) :
    slot.callStep (.cell (.emplaceLoad h)) = (slot, .returns false) := by
  have hstep : cellStep slot.state slot.cell (.emplaceLoad h) = (slot.cell, .returns false) :=
    congrArg (Prod.mk slot.cell) (if_pos htag)
  exact callStep_cell hstep

theorem callStep_emplaceLoad (htag : slot.cell ≠ .emittedTag) :
    slot.callStep (.cell (.emplaceLoad h)) = (slot, .at (.cell (.emplaceCas h slot.cell))) := by
  have hstep : cellStep slot.state slot.cell (.emplaceLoad h) =
      (slot.cell, .at (.emplaceCas h slot.cell)) :=
    congrArg (Prod.mk slot.cell) (if_neg htag)
  exact callStep_cell hstep

theorem callStep_emplaceCas (hcell : slot.cell = old) :
    slot.callStep (.cell (.emplaceCas h old)) =
      ({ slot with cell := .handler h }, .returns true) := by
  have hstep : cellStep slot.state slot.cell (.emplaceCas h old) = (.handler h, .returns true) :=
    if_pos hcell
  exact callStep_cell hstep

omit [DecidableEq η] in
theorem failedExchange_emitted (htag : slot.cell = .emittedTag) :
    (slot.cell, afterFailedExchange slot.cell) = (slot.cell, .returns false) := by
  rw [htag]
  rfl

theorem callStep_emplaceCas_emitted (hcell : slot.cell ≠ old) (htag : slot.cell = .emittedTag) :
    slot.callStep (.cell (.emplaceCas h old)) = (slot, .returns false) := by
  have hstep : cellStep slot.state slot.cell (.emplaceCas h old) = (slot.cell, .returns false) :=
    (if_neg hcell).trans (failedExchange_emitted htag)
  exact callStep_cell hstep

theorem callStep_clearLoad_empty (hcell : slot.cell = .null ∨ slot.cell = .emittedTag) :
    slot.callStep (.cell .clearLoad) = (slot, .returns false) := by
  have hstep : cellStep slot.state slot.cell .clearLoad = (slot.cell, .returns false) :=
    congrArg (Prod.mk slot.cell) (if_pos hcell.symm)
  exact callStep_cell hstep

theorem callStep_clearLoad (hcell : slot.cell = .handler h) :
    slot.callStep (.cell .clearLoad) = (slot, .at (.cell (.clearCas (.handler h)))) := by
  have hfull : ¬ (slot.cell = .emittedTag ∨ slot.cell = .null) := by
    rw [hcell]
    rintro (htag | hnull)
    · cases htag
    · cases hnull
  have hstep : cellStep slot.state slot.cell .clearLoad =
      (slot.cell, .at (.clearCas slot.cell)) :=
    congrArg (Prod.mk slot.cell) (if_neg hfull)
  rw [← hcell]
  exact callStep_cell hstep

theorem callStep_clearCas (hcell : slot.cell = old) :
    slot.callStep (.cell (.clearCas old)) = ({ slot with cell := .null }, .returns true) := by
  have hstep : cellStep slot.state slot.cell (.clearCas old) = (.null, .returns true) :=
    if_pos hcell
  exact callStep_cell hstep

theorem callStep_clearCas_emitted (hcell : slot.cell ≠ old) (htag : slot.cell = .emittedTag) :
    slot.callStep (.cell (.clearCas old)) = (slot, .returns false) := by
  have hstep : cellStep slot.state slot.cell (.clearCas old) = (slot.cell, .returns false) :=
    (if_neg hcell).trans (failedExchange_emitted htag)
  exact callStep_cell hstep

end

/-- Somebody calls {lit}`emits(Terminate)`; only the call that sets the bit goes
on to the slots. -/
def emits (slot : TerminateSlot η χ) : Option (TerminateSlot η χ) :=
  match slot.visit with
  | .notCalled => some { slot with state := true, visit := .filter }
  | _ => none

/-- One step of the emission at the slot.  The calls of a handler or of the
chained signal are left to the user of the slot. -/
def visitStep (slot : TerminateSlot η χ) : Option (TerminateSlot η χ) :=
  match slot.visit with
  | .notCalled | .transfer _ _ | .call _ | .passed _ => none
  | .filter => some { slot with visit := .managers slot.filter }
  | .managers admitted => some { slot with visit := .chained admitted slot.manager }
  | .chained admitted found =>
      match slot.chainedSignal with
      | some child =>
          some { slot with
            visit := if admitted then .transfer child found else .passed false }
      | none => some { slot with visit := if admitted then .walk found else .passed false }
  | .walk found =>
      if found then
        some { slot with
          cell := .emittedTag
          visit := if slot.cell matches .null then .passed true else .call slot.cell }
      else
        some { slot with visit := .passed false }

/-- The emission only marks the cell. -/
theorem visitStep_frame {slot slot' : TerminateSlot η χ} (h : slot.visitStep = some slot') :
    slot'.state = slot.state ∧ slot'.filter = slot.filter ∧
      (slot'.cell = slot.cell ∨ slot'.cell = .emittedTag) := by
  unfold visitStep at h
  split at h
  case h_1 | h_2 | h_3 | h_4 => cases h
  case h_5 | h_6 =>
    cases h
    exact ⟨rfl, rfl, .inl rfl⟩
  case h_7 =>
    split at h <;> cases h <;> exact ⟨rfl, rfl, .inl rfl⟩
  case h_8 =>
    split at h
    · cases h
      exact ⟨rfl, rfl, .inr rfl⟩
    · cases h
      exact ⟨rfl, rfl, .inl rfl⟩

theorem visitStep_remaining {slot slot' : TerminateSlot η χ} (h : slot.visitStep = some slot') :
    slot'.visit.remaining < slot.visit.remaining := by
  unfold visitStep at h
  split at h
  case h_1 | h_2 | h_3 | h_4 => cases h
  case h_5 hv | h_6 hv =>
    cases h
    simp [hv, VisitPc.remaining]
  case h_7 hv =>
    split at h <;> cases h <;> rw [hv] <;> dsimp only <;> split <;> simp [VisitPc.remaining]
  case h_8 hv =>
    split at h <;> cases h <;> rw [hv]
    · dsimp only
      split <;> simp [VisitPc.remaining]
    · simp [VisitPc.remaining]

theorem emits_frame {slot slot' : TerminateSlot η χ} (h : slot.emits = some slot') :
    slot'.cell = slot.cell ∧ slot'.state = true ∧
      slot'.visit.remaining < slot.visit.remaining := by
  unfold emits at h
  split at h
  case h_1 hv =>
    cases h
    exact ⟨rfl, rfl, by simp [hv, VisitPc.remaining]⟩
  case h_2 => cases h

end TerminateSlot

/-! ## The slot of an await -/

/-- The handlers a slot can hold during an await: the one of this await, or one
from before it. -/
inductive Handler where
  | cancel
  | earlier
deriving DecidableEq, Repr

/-- The slot an await finds: whether there is one, whether its filter admits
{lit}`Terminate`, and what its owner has done with it before. -/
structure SlotConfig where
  hasSlot : Bool
  filter : Bool
  manager : Bool
  earlierHandler : Bool
deriving DecidableEq, Repr

/-- The slot before {lit}`Terminate` is emitted.  A handler from before is in a
cell that exists. -/
def SlotConfig.slot (cfg : SlotConfig) : TerminateSlot Handler Unit where
  state := false
  filter := cfg.filter
  manager := cfg.manager || cfg.earlierHandler
  cell := if cfg.earlierHandler then .handler .earlier else .null
  chainedSignal := none
  visit := .notCalled

end Signal

end AsyncSimple
