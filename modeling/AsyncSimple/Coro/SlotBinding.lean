import AsyncSimple.Signal.Emission

/-!
# Slots along an await chain

The frames of an await chain share one lazy local by pointer.  A wrapper of
{lit}`setLazyLocal` has a local of its own, whose constructor decides whether there is a
slot, and {lit}`moveSlotFromContinuation` moves the slot of the local that the wrapper
inherits, where it allows the call.  The local dies with the wrapper.

A call tree is executed here with the locals in a heap.  The events of an execution are
what {lit}`CurrentSlot` yields in the frames, before and after each awaited child.

Main results:

- Theorem {lit}`run_tagged`: under a local with a type tag every further
  {lit}`setLazyLocal` is refused and nothing changes.
- Theorems {lit}`run_keeps` and {lit}`run_loses`: under a local without a tag the slot
  stays exactly if no {lit}`setLazyLocal` is let through.
- Theorem {lit}`stable_iff`: when {lit}`CurrentSlot` is the slot of the root's signal in
  every frame at every point.
-/

namespace AsyncSimple

open Signal

namespace SlotBinding

/-! ## Lazy locals -/

/-- A {lit}`Slot` object, its signal and its filter. -/
structure Slot where
  object : Nat
  signal : Nat
  filter : SignalType
deriving DecidableEq, Repr

/-- {lit}`LazyLocalBase`; {lit}`none` is the null pointer. -/
structure LazyLocalBase where
  typeinfo : Option Nat
  slot : Option Slot
deriving DecidableEq, Repr

/-- The constructor that a local is made with, and its arguments. -/
inductive Construct where
  /-- {lit}`LazyLocalBase(Signal*, SignalType)` -/
  | signal (signal : Nat) (type : SignalType)
  /-- {lit}`LazyLocalBase(char*, Signal*, SignalType)` -/
  | typeinfo (tag : Nat) (signal : Option Nat) (type : SignalType)
deriving DecidableEq, Repr

/-- The signal that the constructor is given. -/
def Construct.given : Construct → Option Nat
  | .signal s _ => some s
  | .typeinfo _ s _ => s

/-- The local after its constructor; a slot gets the address of the local. -/
def Construct.create (object : Nat) : Construct → LazyLocalBase
  | .signal s type => ⟨none, some ⟨object, s, type⟩⟩
  -- the signal and the type are not used
  | .typeinfo tag _ _ => ⟨some tag, none⟩

/-- The locals that are alive, by their addresses. -/
structure Heap where
  locals : Nat → Option LazyLocalBase
  next : Nat

namespace Heap

def initial : Heap where
  locals := fun _ => none
  next := 0

def getTypeTag (h : Heap) (l : Nat) : Option Nat :=
  (h.locals l).bind LazyLocalBase.typeinfo

def getSlot (h : Heap) (l : Nat) : Option Slot :=
  (h.locals l).bind LazyLocalBase.slot

def setLocal (h : Heap) (l : Nat) (lazyLocal : Option LazyLocalBase) : Heap :=
  { h with locals := Function.update h.locals l lazyLocal }

def setSlot (h : Heap) (l : Nat) (slot : Option Slot) : Heap :=
  h.setLocal l ((h.locals l).map fun lazyLocal => { lazyLocal with slot := slot })

/-- A new local at the next address. -/
def create (h : Heap) (construct : Construct) : Heap :=
  { locals := Function.update h.locals h.next (some (construct.create h.next))
    next := h.next + 1 }

/-- {lit}`CurrentSlot` in a frame with this {lit}`_lazy_local`. -/
def currentSlot (h : Heap) (lazyLocal : Option Nat) : Option Slot :=
  lazyLocal.bind h.getSlot

/-- {lit}`moveSlotFromContinuation`; {lit}`none` when the assertion throws. -/
def moveSlotFromContinuation (h : Heap) (nowLocal : Nat) : Option Nat → Option Heap
  | none => some h
  | some preLocal =>
      if h.getTypeTag preLocal = none ∧ (h.getSlot preLocal).isSome ∧
          h.getSlot nowLocal = none then
        some ((h.setSlot nowLocal (h.getSlot preLocal)).setSlot preLocal none)
      else
        none

end Heap

/-! ## Call trees -/

/-- What a frame does.  {lit}`locals` are the {lit}`setLazyLocal` calls on the awaited
child, the outermost wrapper first; {lit}`caught` says that the frame goes on when the
child throws. -/
inductive Body where
  | coReturn
  | throws
  | await (locals : List Construct) (child : Body) (caught : Bool) (rest : Body)
deriving DecidableEq, Repr

/-- How a frame ends. -/
inductive Outcome where
  | returned
  | threw
deriving DecidableEq, Repr

/-- What a frame sees: {lit}`CurrentSlot` at some point, and on both sides of an awaited
child. -/
inductive Event where
  | currentSlot (slot : Option Slot)
  | awaited (before after : Option Slot)
deriving DecidableEq, Repr

structure Execution where
  heap : Heap
  events : List Event
  outcome : Outcome

/-- The wrappers of {lit}`setLazyLocal` around a child, under the local that the
outermost one inherits. -/
def setLazyLocalImpl (child : Option Nat → Heap → Execution) :
    List Construct → Option Nat → Heap → Execution
  | [], lazyLocal, h => child lazyLocal h
  | construct :: inner, lazyLocal, h =>
      match (h.create construct).moveSlotFromContinuation h.next lazyLocal with
      | none => ⟨(h.create construct).setLocal h.next none, [], .threw⟩
      | some h' =>
          let self := setLazyLocalImpl child inner (some h.next) h'
          { self with heap := self.heap.setLocal h.next none }

/-- Execute a frame with this {lit}`_lazy_local`; an awaited child without a local
inherits the pointer. -/
def run : Body → Option Nat → Heap → Execution
  | .coReturn, lazyLocal, h => ⟨h, [.currentSlot (h.currentSlot lazyLocal)], .returned⟩
  | .throws, lazyLocal, h => ⟨h, [.currentSlot (h.currentSlot lazyLocal)], .threw⟩
  | .await locals child caught rest, lazyLocal, h =>
      let awaited := setLazyLocalImpl (run child) locals lazyLocal h
      let seen := [.currentSlot (h.currentSlot lazyLocal)] ++ awaited.events ++
        [.awaited (h.currentSlot lazyLocal) (awaited.heap.currentSlot lazyLocal)]
      if awaited.outcome = .threw ∧ caught = false then
        ⟨awaited.heap, seen, .threw⟩
      else
        let after := run rest lazyLocal awaited.heap
        { after with events := seen ++ after.events }

/-- The root with its wrappers, the outermost one binds the signal. -/
def start (root : Construct) (inner : List Construct) (body : Body) : Execution :=
  setLazyLocalImpl (run body) (root :: inner) none Heap.initial

/-- The slot that the event shows, on both sides of an await. -/
def Event.Shows (slot : Option Slot) : Event → Prop
  | .currentSlot current => current = slot
  | .awaited before after => before = slot ∧ after = slot

/-- {lit}`CurrentSlot` is bound to the signal, and is the same after an await. -/
def Event.Bound (signal : Nat) : Event → Prop
  | .currentSlot current => current.map Slot.signal = some signal
  | .awaited before after => after = before

/-- In every frame at every point. -/
def Stable (signal : Nat) (e : Execution) : Prop :=
  ∀ event ∈ e.events, event.Bound signal

instance (signal : Nat) : DecidablePred (Event.Bound signal)
  | .currentSlot _ => inferInstanceAs (Decidable (_ = _))
  | .awaited _ _ => inferInstanceAs (Decidable (_ = _))

instance (signal : Nat) (e : Execution) : Decidable (Stable signal e) :=
  inferInstanceAs (Decidable (∀ event ∈ e.events, event.Bound signal))

/-- How a frame ends that runs under a local without a tag and with a slot;
{lit}`none` as soon as it, or a frame that shares the local, awaits a child under a
wrapper whose local has a tag. -/
def Body.keepsSlot : Body → Option Outcome
  | .coReturn => some .returned
  | .throws => some .threw
  | .await (.typeinfo _ _ _ :: _) _ _ _ => none
  -- refused, the local of the wrapper has a slot already
  | .await (.signal _ _ :: _) _ caught rest => if caught then rest.keepsSlot else some .threw
  | .await [] child caught rest =>
      match child.keepsSlot with
      | none => none
      | some .threw => if caught then rest.keepsSlot else some .threw
      | some .returned => rest.keepsSlot

/-- No frame loses its slot: the local of the root is made with a slot and none of its
frames awaits a child under a wrapper with a tag.  If another wrapper is put on the root
itself, no frame uses the local of the root. -/
def Undisturbed : Construct → List Construct → Body → Prop
  | .signal _ _, [], body => body.keepsSlot.isSome
  | .signal _ _, _ :: _, _ => True
  | .typeinfo _ _ _, inner, _ => inner ≠ []

instance (root : Construct) (inner : List Construct) (body : Body) :
    Decidable (Undisturbed root inner body) := by
  unfold Undisturbed
  split <;> infer_instance

/-! ## What a call leaves alone -/

namespace Heap

@[simp]
theorem locals_setLocal_self (h : Heap) (l : Nat) (lazyLocal : Option LazyLocalBase) :
    (h.setLocal l lazyLocal).locals l = lazyLocal := by
  simp [setLocal]

theorem locals_setLocal_of_ne (h : Heap) {l k : Nat} (lazyLocal : Option LazyLocalBase)
    (hne : k ≠ l) : (h.setLocal l lazyLocal).locals k = h.locals k := by
  simp [setLocal, hne]

@[simp]
theorem next_setLocal (h : Heap) (l : Nat) (lazyLocal : Option LazyLocalBase) :
    (h.setLocal l lazyLocal).next = h.next :=
  rfl

theorem locals_setSlot_of_ne (h : Heap) {l k : Nat} (slot : Option Slot) (hne : k ≠ l) :
    (h.setSlot l slot).locals k = h.locals k :=
  h.locals_setLocal_of_ne _ hne

@[simp]
theorem next_setSlot (h : Heap) (l : Nat) (slot : Option Slot) :
    (h.setSlot l slot).next = h.next :=
  rfl

theorem getSlot_setSlot_self (h : Heap) {l : Nat} (slot : Option Slot)
    (hlive : (h.locals l).isSome) : (h.setSlot l slot).getSlot l = slot := by
  rcases Option.isSome_iff_exists.mp hlive with ⟨lazyLocal, hlocal⟩
  simp [getSlot, setSlot, hlocal]

@[simp]
theorem getSlot_setSlot_none (h : Heap) (l : Nat) : (h.setSlot l none).getSlot l = none := by
  cases hlocal : h.locals l <;> simp [getSlot, setSlot, hlocal]

@[simp]
theorem locals_create_next (h : Heap) (construct : Construct) :
    (h.create construct).locals h.next = some (construct.create h.next) := by
  simp [create]

theorem locals_create_of_lt (h : Heap) (construct : Construct) {l : Nat} (hl : l < h.next) :
    (h.create construct).locals l = h.locals l := by
  simp [create, Nat.ne_of_lt hl]

@[simp]
theorem next_create (h : Heap) (construct : Construct) :
    (h.create construct).next = h.next + 1 :=
  rfl

theorem getSlot_congr {h h' : Heap} {l : Nat} (hlocal : h'.locals l = h.locals l) :
    h'.getSlot l = h.getSlot l := by
  simp [getSlot, hlocal]

theorem getTypeTag_congr {h h' : Heap} {l : Nat} (hlocal : h'.locals l = h.locals l) :
    h'.getTypeTag l = h.getTypeTag l := by
  simp [getTypeTag, hlocal]

/-- The move only touches its two locals. -/
theorem moveSlotFromContinuation_frame {h h' : Heap} {nowLocal : Nat} {preLocal : Option Nat}
    (hmove : h.moveSlotFromContinuation nowLocal preLocal = some h') :
    h'.next = h.next ∧
      ∀ l, l ≠ nowLocal → preLocal ≠ some l → h'.locals l = h.locals l := by
  cases preLocal with
  | none =>
      cases hmove
      exact ⟨rfl, fun _ _ _ => rfl⟩
  | some preLocal =>
      simp only [moveSlotFromContinuation] at hmove
      split at hmove
      · cases hmove
        refine ⟨rfl, ?_⟩
        intro l hnow hpre
        have hne : l ≠ preLocal := by
          rintro rfl
          exact hpre rfl
        rw [locals_setSlot_of_ne _ _ hne, locals_setSlot_of_ne _ _ hnow]
      · cases hmove

end Heap

/-- A call under one local leaves the other locals alone. -/
def Respects (call : Option Nat → Heap → Execution) : Prop :=
  ∀ lazyLocal h l, l < h.next → lazyLocal ≠ some l →
    (call lazyLocal h).heap.locals l = h.locals l ∧ l < (call lazyLocal h).heap.next

theorem setLazyLocalImpl_respects {child : Option Nat → Heap → Execution}
    (hchild : Respects child) (locals : List Construct) :
    Respects (setLazyLocalImpl child locals) := by
  induction locals with
  | nil => exact hchild
  | cons construct inner ih =>
      intro lazyLocal h l hl hne
      have hnext : l ≠ h.next := Nat.ne_of_lt hl
      simp only [setLazyLocalImpl]
      split
      · -- refused
        refine ⟨?_, Nat.lt_succ_of_lt hl⟩
        rw [Heap.locals_setLocal_of_ne _ _ hnext, Heap.locals_create_of_lt _ _ hl]
      · next h' hmove =>
          rcases Heap.moveSlotFromContinuation_frame hmove with ⟨hnext', hothers⟩
          have hl' : l < h'.next := by
            rw [hnext', Heap.next_create]
            exact Nat.lt_succ_of_lt hl
          have hne' : some h.next ≠ some l := by
            intro heq
            exact hnext (Option.some.inj heq).symm
          rcases ih (some h.next) h' l hl' hne' with ⟨hlocal, hlt⟩
          refine ⟨?_, hlt⟩
          rw [Heap.locals_setLocal_of_ne _ _ hnext, hlocal, hothers l hnext hne,
            Heap.locals_create_of_lt _ _ hl]

theorem run_respects (body : Body) : Respects (run body) := by
  induction body with
  | coReturn => exact fun _ _ _ hl _ => ⟨rfl, hl⟩
  | throws => exact fun _ _ _ hl _ => ⟨rfl, hl⟩
  | await locals child caught rest ihchild ihrest =>
      intro lazyLocal h l hl hne
      rcases setLazyLocalImpl_respects ihchild locals lazyLocal h l hl hne with ⟨hlocal, hlt⟩
      simp only [run]
      split
      · exact ⟨hlocal, hlt⟩
      · rcases ihrest lazyLocal _ l hlt hne with ⟨hlocal', hlt'⟩
        exact ⟨hlocal'.trans hlocal, hlt'⟩

/-! ## Moves that are refused and moves that are not -/

/-- A local with a type tag keeps its slot. -/
theorem move_tagged {h : Heap} {l tag : Nat} (construct : Construct) (hl : l < h.next)
    (htag : h.getTypeTag l = some tag) :
    (h.create construct).moveSlotFromContinuation h.next (some l) = none := by
  have htag' : (h.create construct).getTypeTag l = some tag := by
    rw [Heap.getTypeTag_congr (h.locals_create_of_lt construct hl), htag]
  simp [Heap.moveSlotFromContinuation, htag']

/-- A local that has a slot of its own takes no other. -/
theorem move_signal (h : Heap) (l signal : Nat) (type : SignalType) :
    (h.create (.signal signal type)).moveSlotFromContinuation h.next (some l) = none := by
  simp [Heap.moveSlotFromContinuation, Heap.getSlot, Construct.create]

/-- A local with a tag takes the slot of a local without one. -/
theorem move_typeinfo {h : Heap} {l : Nat} {slot : Slot} (tag : Nat) (signal : Option Nat)
    (type : SignalType) (hl : l < h.next) (htag : h.getTypeTag l = none)
    (hslot : h.getSlot l = some slot) :
    ∃ h', (h.create (.typeinfo tag signal type)).moveSlotFromContinuation h.next (some l) =
        some h' ∧ h'.next = h.next + 1 ∧ h'.getSlot l = none ∧
      h'.getSlot h.next = some slot ∧ h'.getTypeTag h.next = some tag := by
  have hlocal := h.locals_create_of_lt (.typeinfo tag signal type) hl
  have hslot' : (h.create (.typeinfo tag signal type)).getSlot l = some slot := by
    rw [Heap.getSlot_congr hlocal, hslot]
  have hnext : h.next ≠ l := (Nat.ne_of_lt hl).symm
  have hnow : (h.create (.typeinfo tag signal type)).getSlot h.next = none := by
    simp [Heap.getSlot, Construct.create]
  refine ⟨((h.create (.typeinfo tag signal type)).setSlot h.next (some slot)).setSlot l none,
    ?_, rfl, Heap.getSlot_setSlot_none _ _, ?_, ?_⟩
  · simp [Heap.moveSlotFromContinuation, hslot', hnow, Heap.getTypeTag_congr hlocal, htag]
  · rw [Heap.getSlot_congr (Heap.locals_setSlot_of_ne _ _ hnext),
      Heap.getSlot_setSlot_self _ _ (by simp)]
  · rw [Heap.getTypeTag_congr (Heap.locals_setSlot_of_ne _ _ hnext)]
    simp [Heap.getTypeTag, Heap.setSlot, Construct.create]

/-- The local is as it was, and all frames have seen its slot. -/
structure Unchanged (h : Heap) (l : Nat) (e : Execution) : Prop where
  kept : e.heap.locals l = h.locals l
  live : l < e.heap.next
  events : ∀ event ∈ e.events, event.Shows (h.getSlot l)

/-- A refused wrapper does nothing. -/
theorem Unchanged.refused {h : Heap} {l : Nat} (child : Option Nat → Heap → Execution)
    {construct : Construct} {lazyLocal : Option Nat} (inner : List Construct) (hl : l < h.next)
    (hmove : (h.create construct).moveSlotFromContinuation h.next lazyLocal = none) :
    Unchanged h l (setLazyLocalImpl child (construct :: inner) lazyLocal h) ∧
      (setLazyLocalImpl child (construct :: inner) lazyLocal h).outcome = .threw := by
  have hself : setLazyLocalImpl child (construct :: inner) lazyLocal h =
      ⟨(h.create construct).setLocal h.next none, [], .threw⟩ := by
    simp [setLazyLocalImpl, hmove]
  rw [hself]
  refine ⟨⟨?_, Nat.lt_succ_of_lt hl, by simp⟩, rfl⟩
  rw [Heap.locals_setLocal_of_ne _ _ (Nat.ne_of_lt hl), Heap.locals_create_of_lt _ _ hl]

/-- A frame that loses nothing while it awaits a child. -/
theorem Unchanged.await {h : Heap} {l : Nat} {locals : List Construct} {child rest : Body}
    {caught : Bool} {awaited : Execution} (hchild : Unchanged h l awaited)
    (hawaited : setLazyLocalImpl (run child) locals (some l) h = awaited)
    (hrest : ¬ (awaited.outcome = .threw ∧ caught = false) →
      Unchanged awaited.heap l (run rest (some l) awaited.heap)) :
    Unchanged h l (run (.await locals child caught rest) (some l) h) := by
  have hslot : awaited.heap.getSlot l = h.getSlot l := Heap.getSlot_congr hchild.kept
  have hseen : ∀ event ∈ [Event.currentSlot (h.currentSlot (some l))] ++ awaited.events ++
      [.awaited (h.currentSlot (some l)) (awaited.heap.currentSlot (some l))],
      event.Shows (h.getSlot l) := by
    intro event hevent
    rcases List.mem_append.mp hevent with hevent | hevent
    · rcases List.mem_append.mp hevent with hevent | hevent
      · cases List.mem_singleton.mp hevent
        rfl
      · exact hchild.events event hevent
    · cases List.mem_singleton.mp hevent
      exact ⟨rfl, hslot⟩
  simp only [run, hawaited]
  split
  · exact ⟨hchild.kept, hchild.live, hseen⟩
  · next hgoes =>
      have hafter := hrest hgoes
      refine ⟨hafter.kept.trans hchild.kept, hafter.live, ?_⟩
      intro event hevent
      rcases List.mem_append.mp hevent with hevent | hevent
      · exact hseen event hevent
      · rw [← hslot]
        exact hafter.events event hevent

/-- Under a local with a type tag every wrapper is refused, and nothing changes. -/
theorem run_tagged {body : Body} {h : Heap} {l tag : Nat} (hl : l < h.next)
    (htag : h.getTypeTag l = some tag) : Unchanged h l (run body (some l) h) := by
  induction body generalizing h with
  | coReturn | throws =>
      refine ⟨rfl, hl, ?_⟩
      intro event hevent
      cases List.mem_singleton.mp hevent
      rfl
  | await locals child caught rest ihchild ihrest =>
      have hawaited : Unchanged h l (setLazyLocalImpl (run child) locals (some l) h) := by
        cases locals with
        | nil => exact ihchild hl htag
        | cons construct inner =>
            exact (Unchanged.refused _ inner hl (move_tagged construct hl htag)).1
      refine hawaited.await rfl fun _ => ihrest hawaited.live ?_
      rw [Heap.getTypeTag_congr hawaited.kept, htag]

/-! ## Frames of a local without a tag -/

/-- A wrapper with a tag takes the slot, and it is gone when the wrapper has ended. -/
theorem getSlot_taken {h : Heap} {l tag : Nat} {slot : Slot} {child : Body}
    (signal : Option Nat) (type : SignalType) (inner : List Construct) (hl : l < h.next)
    (htag : h.getTypeTag l = none) (hslot : h.getSlot l = some slot) :
    (setLazyLocalImpl (run child) (.typeinfo tag signal type :: inner) (some l) h).heap.getSlot l
      = none := by
  rcases move_typeinfo tag signal type hl htag hslot with
    ⟨h', hmove, hnext, hgone, -, -⟩
  have hne : some h.next ≠ some l := by
    intro heq
    exact Nat.ne_of_lt hl (Option.some.inj heq).symm
  have hl' : l < h'.next := by
    rw [hnext]
    exact Nat.lt_succ_of_lt hl
  have hkept := (setLazyLocalImpl_respects (run_respects child) inner (some h.next) h' l hl' hne).1
  simp only [setLazyLocalImpl, hmove]
  rw [Heap.getSlot_congr (Heap.locals_setLocal_of_ne _ _ (Nat.ne_of_lt hl)),
    Heap.getSlot_congr hkept, hgone]

section Plain

variable {body : Body} {h : Heap} {l : Nat} {slot : Slot}

/-- The frames keep their slot and end as the tree says. -/
theorem run_keeps {outcome : Outcome} (hl : l < h.next) (htag : h.getTypeTag l = none)
    (hslot : h.getSlot l = some slot) (hkeeps : body.keepsSlot = some outcome) :
    Unchanged h l (run body (some l) h) ∧ (run body (some l) h).outcome = outcome := by
  induction body generalizing h outcome with
  | coReturn | throws =>
      cases hkeeps
      refine ⟨⟨rfl, hl, ?_⟩, rfl⟩
      intro event hevent
      cases List.mem_singleton.mp hevent
      rfl
  | await locals child caught rest ihchild ihrest =>
      -- what the awaited child leaves, and how it ends
      obtain ⟨awaited, hawaited⟩ : ∃ e, setLazyLocalImpl (run child) locals (some l) h = e :=
        ⟨_, rfl⟩
      have hchild : Unchanged h l awaited ∧
          (if awaited.outcome = .threw ∧ caught = false then some .threw else rest.keepsSlot) =
            some outcome := by
        cases locals with
        | nil =>
            cases hends : child.keepsSlot with
            | none => simp [Body.keepsSlot, hends] at hkeeps
            | some ends =>
                rcases ihchild hl htag hslot hends with ⟨hunchanged, houtcome⟩
                rw [show run child (some l) h = awaited from hawaited] at hunchanged houtcome
                refine ⟨hunchanged, ?_⟩
                cases ends <;> cases caught <;> simp_all [Body.keepsSlot]
        | cons construct inner =>
            cases construct with
            | typeinfo tag signal type => simp [Body.keepsSlot] at hkeeps
            | signal signal type =>
                rcases Unchanged.refused (run child) inner hl (move_signal h l signal type) with
                  ⟨hunchanged, houtcome⟩
                rw [hawaited] at hunchanged houtcome
                refine ⟨hunchanged, ?_⟩
                cases caught <;> simp_all [Body.keepsSlot]
      rcases hchild with ⟨hunchanged, hrest⟩
      have hafter : ¬ (awaited.outcome = .threw ∧ caught = false) →
          Unchanged awaited.heap l (run rest (some l) awaited.heap) ∧
            (run rest (some l) awaited.heap).outcome = outcome := by
        intro hgoes
        rw [if_neg hgoes] at hrest
        refine ihrest hunchanged.live ?_ ?_ hrest
        · rw [Heap.getTypeTag_congr hunchanged.kept, htag]
        · rw [Heap.getSlot_congr hunchanged.kept, hslot]
      refine ⟨hunchanged.await hawaited fun hgoes => (hafter hgoes).1, ?_⟩
      simp only [run, hawaited]
      split
      · next hthrew =>
          rw [if_pos hthrew] at hrest
          exact Option.some.inj hrest
      · next hgoes => exact (hafter hgoes).2

/-- Some frame sees its slot before an await and none afterwards. -/
theorem run_loses (hl : l < h.next) (htag : h.getTypeTag l = none)
    (hslot : h.getSlot l = some slot) (hloses : body.keepsSlot = none) :
    Event.awaited (some slot) none ∈ (run body (some l) h).events := by
  induction body generalizing h with
  | coReturn | throws => simp [Body.keepsSlot] at hloses
  | await locals child caught rest ihchild ihrest =>
      obtain ⟨awaited, hawaited⟩ : ∃ e, setLazyLocalImpl (run child) locals (some l) h = e :=
        ⟨_, rfl⟩
      -- the loss is seen by the child, by this frame after the child, or by the rest
      suffices hlate : Event.awaited (some slot) none ∈ awaited.events ∨
          awaited.heap.getSlot l = none ∨
          ¬ (awaited.outcome = .threw ∧ caught = false) ∧
            Event.awaited (some slot) none ∈ (run rest (some l) awaited.heap).events by
        have hseen : Event.awaited (some slot) none ∈ awaited.events ∨
            awaited.heap.getSlot l = none → Event.awaited (some slot) none ∈
              [Event.currentSlot (h.currentSlot (some l))] ++ awaited.events ++
                [.awaited (h.currentSlot (some l)) (awaited.heap.currentSlot (some l))] := by
          rintro (hchild | hgone)
          · simp [hchild]
          · simp [Heap.currentSlot, hslot, hgone]
        simp only [run, hawaited]
        split
        · next hthrew =>
            rcases hlate with hchild | hgone | hrest
            · exact hseen (.inl hchild)
            · exact hseen (.inr hgone)
            · exact absurd hthrew hrest.1
        · refine List.mem_append.mpr ?_
          rcases hlate with hchild | hgone | hrest
          · exact .inl (hseen (.inl hchild))
          · exact .inl (hseen (.inr hgone))
          · exact .inr hrest.2
      have hrest : Unchanged h l awaited → rest.keepsSlot = none →
          Event.awaited (some slot) none ∈ (run rest (some l) awaited.heap).events := by
        intro hunchanged hnone
        refine ihrest hunchanged.live ?_ ?_ hnone
        · rw [Heap.getTypeTag_congr hunchanged.kept, htag]
        · rw [Heap.getSlot_congr hunchanged.kept, hslot]
      subst hawaited
      cases locals with
      | nil =>
          cases hends : child.keepsSlot with
          | none => exact .inl (ihchild hl htag hslot hends)
          | some ends =>
              rcases run_keeps hl htag hslot hends with ⟨hunchanged, houtcome⟩
              refine .inr (.inr ⟨?_, hrest hunchanged ?_⟩)
              · rintro ⟨hthrew, rfl⟩
                cases houtcome.symm.trans hthrew
                simp [Body.keepsSlot, hends] at hloses
              · cases ends <;> cases caught <;> simp_all [Body.keepsSlot]
      | cons construct inner =>
          cases construct with
          | typeinfo tag signal type =>
              exact .inr (.inl (getSlot_taken signal type inner hl htag hslot))
          | signal signal type =>
              have hunchanged :=
                (Unchanged.refused (run child) inner hl (move_signal h l signal type)).1
              cases caught with
              | false => simp [Body.keepsSlot] at hloses
              | true =>
                  have hnone : rest.keepsSlot = none := by
                    simpa [Body.keepsSlot] using hloses
                  exact .inr (.inr ⟨by simp, hrest hunchanged hnone⟩)

end Plain

/-! ## The whole tree -/

/-- The wrapper of the root inherits no local. -/
theorem start_events (root : Construct) (inner : List Construct) (body : Body) :
    (start root inner body).events =
      (setLazyLocalImpl (run body) inner (some Heap.initial.next)
        (Heap.initial.create root)).events :=
  rfl

/-- When all frames see one slot, its signal decides. -/
theorem Unchanged.slotStable_iff {h : Heap} {l : Nat} {e : Execution} (hunchanged : Unchanged h l e)
    (hstarted : ∃ slot, .currentSlot slot ∈ e.events) (signal : Nat) :
    Stable signal e ↔ (h.getSlot l).map Slot.signal = some signal := by
  constructor
  · intro hstable
    rcases hstarted with ⟨slot, hslot⟩
    have hshows : slot = h.getSlot l := hunchanged.events _ hslot
    rw [← hshows]
    exact hstable _ hslot
  · intro hsignal event hevent
    have hshows := hunchanged.events event hevent
    cases event with
    | currentSlot slot =>
        rw [show slot = h.getSlot l from hshows]
        exact hsignal
    | awaited before after => exact hshows.2.trans hshows.1.symm

/-- Every frame looks at its slot when it starts. -/
theorem run_started (body : Body) (lazyLocal : Option Nat) (h : Heap) :
    ∃ slot, .currentSlot slot ∈ (run body lazyLocal h).events := by
  refine ⟨h.currentSlot lazyLocal, ?_⟩
  cases body with
  | coReturn | throws => simp [run]
  | await locals child caught rest =>
      simp only [run]
      split <;> simp

theorem stable_of_refused {inner : List Construct} {construct root : Construct} {body : Body}
    (hmove : ((Heap.initial.create root).create construct).moveSlotFromContinuation
      (Heap.initial.create root).next (some Heap.initial.next) = none) (signal : Nat) :
    Stable signal (start root (construct :: inner) body) := by
  intro event hevent
  rw [start_events, setLazyLocalImpl, hmove] at hevent
  cases hevent

/-- For every call tree whose root is bound to the signal: {lit}`CurrentSlot` yields a slot
bound to it in every frame at every point and is the same before and after every await,
exactly if the local of the root was made by the constructor that makes the slot, and no
frame of that local awaits a child under a wrapper whose local has a tag. -/
theorem stable_iff (root : Construct) (inner : List Construct) (body : Body) (signal : Nat)
    (hroot : root.given = some signal) :
    Stable signal (start root inner body) ↔ Undisturbed root inner body := by
  have hl : Heap.initial.next < (Heap.initial.create root).next := Nat.lt_succ_self _
  cases root with
  | signal s type =>
      cases hroot
      have hslot : (Heap.initial.create (.signal signal type)).getSlot Heap.initial.next =
          some ⟨Heap.initial.next, signal, type⟩ := by
        simp [Heap.getSlot, Construct.create]
      have htag : (Heap.initial.create (.signal signal type)).getTypeTag Heap.initial.next =
          none := by
        simp [Heap.getTypeTag, Construct.create]
      cases inner with
      | nil =>
          simp only [Undisturbed, Stable, start_events, setLazyLocalImpl]
          cases hkeeps : body.keepsSlot with
          | none =>
              have hlost := run_loses hl htag hslot hkeeps
              simp only [Option.isSome_none, Bool.false_eq_true, iff_false]
              intro hstable
              cases hstable _ hlost
          | some outcome =>
              have hunchanged := (run_keeps hl htag hslot hkeeps).1
              have hstable := (hunchanged.slotStable_iff (run_started _ _ _) signal).mpr
                (by rw [hslot]; rfl)
              exact ⟨fun _ => rfl, fun _ => hstable⟩
      | cons construct inner =>
          refine ⟨fun _ => trivial, fun _ => ?_⟩
          cases construct with
          | signal s' type' => exact stable_of_refused (move_signal _ _ s' type') signal
          | typeinfo tag s' type' =>
              rcases move_typeinfo tag s' type' hl htag hslot with
                ⟨h', hmove, hnext, -, hslot', htag'⟩
              have hl' : (Heap.initial.create (.signal signal type)).next < h'.next := by
                rw [hnext]
                exact Nat.lt_succ_self _
              simp only [Stable, start_events, setLazyLocalImpl, hmove]
              cases inner with
              | nil =>
                  have hunchanged : Unchanged h' _ (run body (some _) h') :=
                    run_tagged hl' htag'
                  exact (hunchanged.slotStable_iff (run_started _ _ _) signal).mpr
                    (by rw [hslot']; rfl)
              | cons construct inner =>
                  intro event hevent
                  rw [setLazyLocalImpl, move_tagged construct hl' htag'] at hevent
                  cases hevent
  | typeinfo tag s type =>
      have htag : (Heap.initial.create (.typeinfo tag s type)).getTypeTag Heap.initial.next =
          some tag := by
        simp [Heap.getTypeTag, Construct.create]
      cases inner with
      | nil =>
          have hunchanged : Unchanged _ _ (run body (some _) _) := run_tagged hl htag
          simp only [Undisturbed, ne_eq, not_true_eq_false, iff_false, Stable, start_events,
            setLazyLocalImpl]
          intro hstable
          have hnone := (hunchanged.slotStable_iff (run_started _ _ _) signal).mp hstable
          simp [Heap.getSlot, Construct.create] at hnone
      | cons construct inner =>
          refine ⟨fun _ => List.cons_ne_nil _ _, fun _ => ?_⟩
          exact stable_of_refused (move_tagged construct hl htag) signal

/-- A frame awaits a child that throws, then one that is refused, then one that returns. -/
def plainTree : Body :=
  .await [] .throws true (.await [.signal 9 15#64] .coReturn true
    (.await [] .coReturn false .coReturn))

theorem stable_iff_plainTree :
    (start (.signal 7 15#64) [] plainTree).outcome = .returned ∧
      (start (.signal 7 15#64) [] plainTree).events.length = 9 ∧
      Stable 7 (start (.signal 7 15#64) [] plainTree) :=
  ⟨by decide, by decide, (stable_iff (.signal 7 15#64) [] plainTree 7 rfl).mpr (by decide)⟩

/-- A frame awaits one child under a derived local. -/
def wrappedChild : Body :=
  .await [.typeinfo 1 none 15#64] .coReturn false .coReturn

/-- Under the wrapper the child sees the slot, and the frame has none afterwards; a derived
local that was given the signal has no slot at all. -/
theorem slot_lost :
    (start (.signal 7 15#64) [] wrappedChild).events =
        [.currentSlot (some ⟨0, 7, 15#64⟩), .currentSlot (some ⟨0, 7, 15#64⟩),
          .awaited (some ⟨0, 7, 15#64⟩) none, .currentSlot none] ∧
      ¬ Stable 7 (start (.signal 7 15#64) [] wrappedChild) ∧
      (start (.typeinfo 1 (some 7) 15#64) [] .coReturn).events = [.currentSlot none] ∧
      ¬ Stable 7 (start (.typeinfo 1 (some 7) 15#64) [] .coReturn) := by
  decide

end SlotBinding

end AsyncSimple
