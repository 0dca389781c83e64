import AsyncSimple.Library.Machine
import AsyncSimple.Signal.HandlerCell

/-!
# Signals, slots and emissions

A {lit}`Signal` has a word of the signal types that were emitted and a list of
slots.  The owner of a slot publishes a {lit}`HandlerManager` for each type it
uses, which holds the handler cell of that type.  {lit}`Signal::emits` first
updates the word and then walks over the slots and, in each slot, over the
managers.  Every atomic operation is one step.

List nodes are published at the front and never removed while the signal lives,
so that a loaded head pointer is modelled by the list it leads to.
-/

namespace AsyncSimple

open Transition

namespace Signal

/-- {lit}`SignalType`: a set of signal types as a word. -/
abbrev SignalType := BitVec 64

/-- {lit}`HandlerManager::_index`. -/
abbrev Index := Fin 64

/-- {lit}`uint64_t{1} << index`. -/
def Index.signal (i : Index) : SignalType := 1#64 <<< i.val

/-- {lit}`high32bits_mask`. -/
def high32bitsMask : SignalType := 0xFFFFFFFF#64 <<< 32

/-- {lit}`isMultiTriggerSignal`, for the signal of one index. -/
def isMultiTriggerSignal (i : Index) : Bool := decide (32 ≤ i.val)

/-- The index is in the set. -/
def SignalType.has (type : SignalType) (i : Index) : Bool := type.getLsbD i.val

variable {κ ε : Type}

/-! ## The owners of the slots -/

/-- Program points of the owner of a slot.  Handlers are named by numbers. -/
inductive OwnerPc (κ : Type) where
  /-- the slot is not constructed yet -/
  | absent
  /-- {lit}`registSlot` before its exchange -/
  | registering (filter : SignalType) (next : List κ)
  | idle
  /-- {lit}`loadHandler<true>` of {lit}`emplace` -/
  | lookup (i : Index) (h : Nat)
  /-- before the store of a new manager -/
  | publish (i : Index) (h : Nat) (next : List Index)
  | cell (i : Index) (pc : CellPc Nat)
  /-- an assertion has failed -/
  | aborted
deriving DecidableEq, Repr

/-- What has become of a handler: its {lit}`emplace` is running, has returned
false or true, or a later call has replaced or removed it. -/
inductive Fate where
  | pending
  | rejected
  | accepted
  | replaced
  | cleared
deriving DecidableEq, Repr

/-! ## Emissions -/

/-- The local variables of {lit}`SignalSlotSharedState::operator()` and of the
loop over the slots around it. -/
structure Visit (κ : Type) where
  valid : SignalType
  slot : κ
  state : SignalType
  managers : List Index
  rest : List κ
deriving DecidableEq, Repr

/-- Program points of one call of {lit}`emits`. -/
inductive EmissionPc (κ : Type) where
  | notCalled
  /-- {lit}`UpdateState` at the head of its loop -/
  | update (type expected : SignalType)
  /-- before the load of {lit}`_slotsHead` -/
  | head (valid : SignalType)
  /-- before the load of the next slot's filter -/
  | nodes (valid : SignalType) (rest : List κ)
  /-- before the load of {lit}`_handlerManager` -/
  | managers (v : Visit κ)
  /-- before the load of {lit}`_chainedSignalHandler` and its call -/
  | chained (v : Visit κ)
  /-- at the head of the loop over the managers -/
  | walk (v : Visit κ)
  /-- a handler of index {lit}`i` was found and is about to be run -/
  | call (v : Visit κ) (i : Index) (found : Cell Nat)
  | returned (valid : SignalType)
deriving DecidableEq, Repr

/-- The signal, its slots, their owners and the calls of {lit}`emits`, with a
record of the handlers: the slot and index each was meant for, its fate and the
number of its invocations.  {lit}`tagUsed` says that {lit}`emittedTag` was
invoked and deleted. -/
structure System (κ ε : Type) where
  state : SignalType
  slotsHead : List κ
  filter : κ → SignalType
  managers : κ → List Index
  handler : κ → Index → Cell Nat
  owner : κ → OwnerPc κ
  emission : ε → EmissionPc κ
  created : Nat
  place : Nat → κ × Index
  fate : Nat → Fate
  invoked : Nat → Nat
  tagUsed : Bool

/-- A freshly created signal; {lit}`place₀` fills the record of handlers that do
not exist yet. -/
def System.initial (place₀ : κ × Index) : System κ ε where
  state := 0#64
  slotsHead := []
  filter := fun _ => 0#64
  managers := fun _ => []
  handler := fun _ _ => .null
  owner := fun _ => .absent
  emission := fun _ => .notCalled
  created := 0
  place := fun _ => place₀
  fate := fun _ => .pending
  invoked := fun _ => 0
  tagUsed := false

variable [DecidableEq κ] [DecidableEq ε]

namespace System

def setOwner (s : System κ ε) (k : κ) (pc : OwnerPc κ) : System κ ε :=
  { s with owner := Function.update s.owner k pc }

def setEmission (s : System κ ε) (e : ε) (pc : EmissionPc κ) : System κ ε :=
  { s with emission := Function.update s.emission e pc }

def setCell (s : System κ ε) (k : κ) (i : Index) (cell : Cell Nat) : System κ ε :=
  { s with handler := Function.update s.handler k (Function.update (s.handler k) i cell) }

def setFate (s : System κ ε) (h : Nat) (fate : Fate) : System κ ε :=
  { s with fate := Function.update s.fate h fate }

end System

/-- A trigger-once signal that is in the state. -/
def System.triggered (s : System κ ε) (i : Index) : Bool :=
  !isMultiTriggerSignal i && SignalType.has s.state i

/-- The record of the handlers when a call on a cell returns. -/
def settle (pc : CellPc Nat) (next : CellNext Nat) (s : System κ ε) : System κ ε :=
  match pc, next with
  | .emplaceTest h, .returns false | .emplaceLoad h, .returns false
  | .emplaceCas h _, .returns false => s.setFate h .rejected
  | .emplaceCas h (.handler old), .returns true => (s.setFate old .replaced).setFate h .accepted
  | .emplaceCas h _, .returns true => s.setFate h .accepted
  | .clearCas (.handler old), .returns true => s.setFate old .cleared
  | _, _ => s

/-- The owner's program point after a step on a cell. -/
def ownerAfter (i : Index) : CellNext Nat → OwnerPc κ
  | .at pc => .cell i pc
  | .returns _ => .idle
  | .aborts => .aborted

/-- One step of the owner of a slot; {lit}`spurious` is the failure of a
{lit}`compare_exchange_weak`. -/
def ownerStep (s : System κ ε) (k : κ) (spurious : Bool) : Option (System κ ε) :=
  match s.owner k with
  | .absent | .idle | .aborted => none
  | .registering filter next =>
      if s.slotsHead = next ∧ spurious = false then
        some { s.setOwner k .idle with
          slotsHead := k :: next
          filter := Function.update s.filter k filter }
      else
        some (s.setOwner k (.registering filter s.slotsHead))
  | .lookup i h =>
      if i ∈ s.managers k then
        some (s.setOwner k (.cell i (.emplaceTest h)))
      else
        some (s.setOwner k (.publish i h (s.managers k)))
  | .publish i h next =>
      some { (s.setOwner k (.cell i (.emplaceTest h))).setCell k i .null with
        managers := Function.update s.managers k (i :: next) }
  | .cell i pc =>
      let after := cellStep (s.triggered i) (s.handler k i) pc
      some (settle pc after.2 ((s.setCell k i after.1).setOwner k (ownerAfter i after.2)))

/-- {lit}`validSignal` in {lit}`UpdateState`. -/
def validSignal (type expected : SignalType) : SignalType :=
  (expected ||| type) ^^^ expected

/-- One iteration of the loop over the managers.  A trigger-once handler is
exchanged for {lit}`emittedTag`; a handler that is not null is run next. -/
def walkStep (s : System κ ε) (e : ε) (v : Visit κ) : System κ ε :=
  match v.managers with
  | [] => s.setEmission e (.nodes v.valid v.rest)
  | i :: managers =>
      if v.state = 0#64 then
        s.setEmission e (.nodes v.valid v.rest)
      else if v.state &&& i.signal ≠ 0#64 then
        let v' := { v with state := v.state ^^^ i.signal, managers := managers }
        let found := s.handler v.slot i
        let s' := if isMultiTriggerSignal i then s else s.setCell v.slot i .emittedTag
        if found = .null then
          s'.setEmission e (.walk v')
        else
          s'.setEmission e (.call v' i found)
      else
        s.setEmission e (.walk { v with managers := managers })

/-- Run a handler; one that triggers only once is deleted afterwards. -/
def runHandler (s : System κ ε) : Cell Nat → System κ ε
  | .handler h => { s with invoked := Function.update s.invoked h (s.invoked h + 1) }
  | .emittedTag => { s with tagUsed := true }
  | .null => s

/-- One step of a call of {lit}`emits`. -/
def emissionStep (s : System κ ε) (e : ε) (spurious : Bool) : Option (System κ ε) :=
  match s.emission e with
  | .notCalled | .returned _ => none
  | .update type expected =>
      let valid := validSignal type expected
      if valid = 0#64 then
        let result := valid ||| (type &&& high32bitsMask)
        some (s.setEmission e (if result = 0#64 then .returned result else .head result))
      else if s.state = expected ∧ spurious = false then
        some { s.setEmission e (.head (valid ||| (type &&& high32bitsMask))) with
          state := expected ||| type }
      else
        some (s.setEmission e (.update type s.state))
  | .head valid => some (s.setEmission e (.nodes valid s.slotsHead))
  | .nodes valid [] => some (s.setEmission e (.returned valid))
  | .nodes valid (k :: rest) =>
      some (s.setEmission e (.managers ⟨valid, k, valid &&& s.filter k, [], rest⟩))
  | .managers v => some (s.setEmission e (.chained { v with managers := s.managers v.slot }))
  | .chained v => some (s.setEmission e (.walk v))
  | .walk v => some (walkStep s e v)
  | .call v _ found => some ((runHandler s found).setEmission e (.walk v))

/-- The moves: an owner constructs its slot, sets its filter or starts a call,
somebody calls {lit}`emits`, and all of them go on. -/
inductive Label (κ ε : Type) where
  | regist (k : κ) (filter : SignalType)
  | setFilter (k : κ) (filter : SignalType)
  | emplace (k : κ) (i : Index)
  | clear (k : κ) (i : Index)
  | owner (k : κ) (spurious : Bool)
  | emits (e : ε) (type : SignalType)
  | emission (e : ε) (spurious : Bool)
deriving DecidableEq, Repr

/-- One atomic step of the system. -/
def step (s : System κ ε) : Label κ ε → Option (System κ ε)
  | .regist k filter =>
      if s.owner k = .absent then some (s.setOwner k (.registering filter s.slotsHead)) else none
  | .setFilter k filter =>
      if s.owner k = .idle then
        some { s with filter := Function.update s.filter k filter }
      else
        none
  | .emplace k i =>
      if s.owner k = .idle then
        some { s.setOwner k (.lookup i s.created) with
          created := s.created + 1
          place := Function.update s.place s.created (k, i) }
      else
        none
  | .clear k i =>
      if s.owner k = .idle then
        -- without a manager the call returns false at once
        some (if i ∈ s.managers k then s.setOwner k (.cell i .clearLoad) else s)
      else
        none
  | .owner k spurious => ownerStep s k spurious
  | .emits e type =>
      if s.emission e = .notCalled then
        some (s.setEmission e (if type = 0#64 then .returned 0#64 else .update type s.state))
      else
        none
  | .emission e spurious => emissionStep s e spurious

/-- A signal with all its slots and emissions. -/
def machine : Machine (System κ ε) (Label κ ε) where
  step := step

end Signal

end AsyncSimple
