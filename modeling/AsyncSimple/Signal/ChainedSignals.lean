import Mathlib.Data.List.Nodup
import AsyncSimple.Signal.Moves

/-!
# Signals that are chained through their slots

{lit}`Slot::chainedSignal` lets a slot pass what it receives on to another
signal, so that {lit}`emits` recurses through a graph of signals.  The graph may
have cycles.  Here one call of {lit}`emits` runs by itself, the handlers do not
call back, and nobody changes a slot: the call is a function of the signals'
states and the handler cells.
-/

namespace AsyncSimple

namespace Signal

/-- The slots of live signals: for each slot its filter, the signal its
{lit}`_chainedSignalHandler` locks, and the indices of its handler managers in
the order of their list.  A slot belongs to one signal, and
{lit}`_handlerTables` has one manager for an index. -/
structure Network (ν κ : Type) where
  slots : ν → List κ
  filter : κ → SignalType
  chainedSignal : κ → Option ν
  managers : κ → List Index
  slots_nodup : ∀ a, (slots a).Nodup
  slots_owner : ∀ a b k, k ∈ slots a → k ∈ slots b → a = b
  managers_nodup : ∀ k, (managers k).Nodup

/-- What a call of {lit}`emits` changes, with a record of the handlers that were
run from each cell. -/
structure World (ν κ η : Type) where
  state : ν → SignalType
  handler : κ → Index → Cell η
  ran : κ → Index → List (Cell η)

variable {ν κ η : Type}

/-- {lit}`Signal::UpdateState` without a racing call: the new state and the
returned value. -/
def updateState (state type : SignalType) : SignalType × SignalType :=
  if validSignal type state = 0#64 then
    (state, validSignal type state ||| (type &&& high32bitsMask))
  else
    (state ||| type, validSignal type state ||| (type &&& high32bitsMask))

/-- What is run of a cell. -/
def Cell.called : Cell η → List (Cell η)
  | .null => []
  | cell => [cell]

namespace World

def setState [DecidableEq ν] (w : World ν κ η) (a : ν) (state : SignalType) : World ν κ η :=
  { w with state := Function.update w.state a state }

theorem setState_state_self [DecidableEq ν] (w : World ν κ η) (a : ν) (state : SignalType) :
    (w.setState a state).state a = state :=
  Function.update_self ..

theorem setState_state_of_ne [DecidableEq ν] (w : World ν κ η) {a b : ν} (state : SignalType)
    (hb : b ≠ a) : (w.setState a state).state b = w.state b :=
  Function.update_of_ne hb _ _

variable [DecidableEq κ]

/-- {lit}`SignalSlotSharedState::invoke` on the cell of an index. -/
def invoke (w : World ν κ η) (k : κ) (i : Index) : World ν κ η where
  state := w.state
  handler :=
    if isMultiTriggerSignal i then
      w.handler
    else
      Function.update w.handler k (Function.update (w.handler k) i .emittedTag)
  ran := Function.update w.ran k
    (Function.update (w.ran k) i (w.ran k i ++ (w.handler k i).called))

/-- The loop of {lit}`SignalSlotSharedState::operator()` over the managers. -/
def walk (k : κ) : World ν κ η → SignalType → List Index → World ν κ η
  | w, _, [] => w
  | w, state, i :: managers =>
      if state = 0#64 then
        w
      else if state &&& i.signal ≠ 0#64 then
        walk k (w.invoke k i) (state ^^^ i.signal) managers
      else
        walk k w state managers

end World

namespace Network

variable [DecidableEq ν] [DecidableEq κ]

/-- {lit}`SignalSlotSharedState::operator()`; {lit}`chain` is the call of
{lit}`emits` on the chained signal. -/
def deliver (net : Network ν κ)
    (chain : World ν κ η → ν → SignalType → Option (World ν κ η × SignalType))
    (type : SignalType) (w : World ν κ η) (k : κ) : Option (World ν κ η) :=
  let state := type &&& net.filter k
  match net.chainedSignal k with
  | none => some (w.walk k state (net.managers k))
  | some b =>
      if state = 0#64 then
        some (w.walk k state (net.managers k))
      else
        (chain w b state).map fun after => after.1.walk k state (net.managers k)

/-- {lit}`Signal::emits` with a bound on the depth of the recursion. -/
def emits (net : Network ν κ) :
    Nat → World ν κ η → ν → SignalType → Option (World ν κ η × SignalType)
  | 0, _, _, _ => none
  | depth + 1, w, a, type =>
      if type = 0#64 then
        some (w, 0#64)
      else
        let updated := updateState (w.state a) type
        let w' := w.setState a updated.1
        if updated.2 = 0#64 then
          some (w', updated.2)
        else
          ((net.slots a).foldlM (net.deliver (emits net depth) updated.2) w').map
            fun after => (after, updated.2)

end Network

end Signal

end AsyncSimple
