import Mathlib.Logic.Function.Basic

/-!
# One handler cell of a slot

A slot keeps one atomic pointer for each signal type its owner has used.  The
owner registers a handler in {lit}`Slot::emplace` and removes it in
{lit}`Slot::clear`; an emission takes it in {lit}`SignalSlotSharedState::invoke`
and leaves {lit}`emittedTag` behind when the signal triggers only once.  This
module gives the atomic steps of the two owner calls on one cell; everything
that uses a slot refers to them.
-/

namespace AsyncSimple

namespace Signal

/-- The values of {lit}`std::atomic<Handler*>`. -/
inductive Cell (η : Type) where
  | null
  | emittedTag
  | handler (h : η)
deriving DecidableEq, Repr

/-- Program points of {lit}`emplace` and {lit}`clear` once the cell is known. -/
inductive CellPc (η : Type) where
  /-- before the test of the signal's state -/
  | emplaceTest (h : η)
  /-- before the load of the old handler -/
  | emplaceLoad (h : η)
  | emplaceCas (h : η) (oldHandler : Cell η)
  | clearLoad
  | clearCas (oldHandler : Cell η)
deriving DecidableEq, Repr

/-- How a call goes on: at a program point, with its return value, or with the
failed assertion after a {lit}`compare_exchange`. -/
inductive CellNext (η : Type) where
  | at (pc : CellPc η)
  | returns (value : Bool)
  | aborts
deriving DecidableEq, Repr

variable {η : Type}

/-- A failed exchange expects to have met an emission. -/
def afterFailedExchange (cell : Cell η) : CellNext η :=
  match cell with
  | .emittedTag => .returns false
  | _ => .aborts

variable [DecidableEq η]

/-- One atomic step of {lit}`emplace` or {lit}`clear`.  {lit}`triggered` is the
result of the test for a trigger-once signal that is already in the state. -/
def cellStep (triggered : Bool) (cell : Cell η) : CellPc η → Cell η × CellNext η
  | .emplaceTest h => (cell, if triggered then .returns false else .at (.emplaceLoad h))
  | .emplaceLoad h =>
      (cell, if cell = .emittedTag then .returns false else .at (.emplaceCas h cell))
  | .emplaceCas h oldHandler =>
      if cell = oldHandler then (.handler h, .returns true) else (cell, afterFailedExchange cell)
  | .clearLoad =>
      (cell, if cell = .emittedTag ∨ cell = .null then .returns false else .at (.clearCas cell))
  | .clearCas oldHandler =>
      if cell = oldHandler then (.null, .returns true) else (cell, afterFailedExchange cell)

end Signal

end AsyncSimple
