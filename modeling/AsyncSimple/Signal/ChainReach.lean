import Mathlib.Data.Fintype.Prod
import Mathlib.Logic.Relation
import AsyncSimple.Signal.ChainedSignals
import AsyncSimple.Signal.UpdateState

/-!
# How far an emission travels along chained signals

A call of {lit}`emits` is divided into phases: a phase lets states grow and hands
types to slots.  A slot that is handed a type passes it on to its chained signal
and runs its handler of the type, when its filter admits the type.  A type that
is new in a signal is handed to all slots of the signal, and to each of them
once.

Main results:

- Theorem {lit}`emitted_of_emits`: what one call does, by induction on the
  depth of the recursion.
- Theorem {lit}`exists_emits`: each level of the recursion adds a type
  somewhere, so that the recursion ends.
- Theorem {lit}`chained_emits_reaches`: a type arrives exactly at the signals
  that admitting slots lead to, and the handlers there run once.
-/

namespace AsyncSimple

namespace Signal

open SignalType

variable {ν κ η : Type}

/-- All types in the set trigger once. -/
def SignalType.TriggersOnce (type : SignalType) : Prop :=
  ∀ i, has type i = true → isMultiTriggerSignal i = false

theorem SignalType.TriggersOnce.and {type : SignalType} (h : TriggersOnce type)
    (filter : SignalType) : TriggersOnce (type &&& filter) := by
  intro i hi
  rw [has_and, Bool.and_eq_true] at hi
  exact h i hi.1

/-- The state after {lit}`UpdateState`. -/
theorem has_updateState_state (state type : SignalType) (i : Index) :
    has (updateState state type).1 i = true ↔ has state i = true ∨ has type i = true := by
  unfold updateState
  split
  · next hvalid =>
      refine ⟨Or.inl, ?_⟩
      rintro (hstate | htype)
      · exact hstate
      · exact within_of_validSignal_eq_zero hvalid i htype
  · rw [has_or, Bool.or_eq_true]

/-- Trigger-once types are valid when they are new. -/
theorem has_updateState_valid {type : SignalType} (honce : TriggersOnce type)
    (state : SignalType) (i : Index) :
    has (updateState state type).2 i = true ↔ has type i = true ∧ has state i = false := by
  have hvalid : (updateState state type).2 =
      validSignal type state ||| (type &&& high32bitsMask) := by
    unfold updateState
    split <;> rfl
  rw [hvalid]
  cases htype : has type i with
  | true =>
      rw [has_validSignal (honce i htype), htype]
      simp
  | false =>
      refine iff_of_false ?_ (fun h => Bool.noConfusion h.1)
      intro hi
      rw [validSignal_within type state i hi] at htype
      exact Bool.noConfusion htype

/-! ## The loop over the managers -/

namespace World

variable [DecidableEq κ]

theorem walk_state (k : κ) (w : World ν κ η) (state : SignalType) (managers : List Index) :
    (w.walk k state managers).state = w.state := by
  induction managers generalizing w state with
  | nil => rfl
  | cons i managers ih =>
      simp only [walk]
      split
      · rfl
      · split
        · rw [ih]
          rfl
        · exact ih w state

/-- One cell in two worlds. -/
def SameCell (w w' : World ν κ η) (k : κ) (i : Index) : Prop :=
  w'.handler k i = w.handler k i ∧ w'.ran k i = w.ran k i

/-- The cell has been exchanged for {lit}`emittedTag` and its handler run. -/
def Invoked (w w' : World ν κ η) (k : κ) (i : Index) : Prop :=
  w'.handler k i = .emittedTag ∧ w'.ran k i = w.ran k i ++ (w.handler k i).called

omit [DecidableEq κ] in
theorem SameCell.trans {w₁ w₂ w₃ : World ν κ η} {k : κ} {i : Index} (h₁ : SameCell w₁ w₂ k i)
    (h₂ : SameCell w₂ w₃ k i) : SameCell w₁ w₃ k i :=
  ⟨h₂.1.trans h₁.1, h₂.2.trans h₁.2⟩

omit [DecidableEq κ] in
theorem Invoked.of_same_left {w₁ w₂ w₃ : World ν κ η} {k : κ} {i : Index}
    (h₁ : SameCell w₁ w₂ k i) (h₂ : Invoked w₂ w₃ k i) : Invoked w₁ w₃ k i := by
  refine ⟨h₂.1, ?_⟩
  rw [h₂.2, h₁.1, h₁.2]

omit [DecidableEq κ] in
theorem Invoked.of_same_right {w₁ w₂ w₃ : World ν κ η} {k : κ} {i : Index}
    (h₁ : Invoked w₁ w₂ k i) (h₂ : SameCell w₂ w₃ k i) : Invoked w₁ w₃ k i :=
  ⟨h₂.1.trans h₁.1, h₂.2.trans h₁.2⟩

theorem invoke_invoked (w : World ν κ η) (k : κ) {i : Index}
    (hi : isMultiTriggerSignal i = false) : Invoked w (w.invoke k i) k i := by
  simp [Invoked, invoke, hi]

theorem invoke_same (w : World ν κ η) {k k' : κ} {i j : Index} (h : ¬ (k' = k ∧ j = i)) :
    SameCell w (w.invoke k i) k' j := by
  unfold SameCell invoke
  by_cases hk : k' = k
  · have hj : j ≠ i := fun hj => h ⟨hk, hj⟩
    subst hk
    cases isMultiTriggerSignal i <;> simp [hj]
  · cases isMultiTriggerSignal i <;> simp [hk]

/-- The types of the call that have a manager are the only ones touched. -/
theorem walk_same (k : κ) (w : World ν κ η) (state : SignalType) (managers : List Index)
    {k' : κ} {j : Index} (h : ¬ (k' = k ∧ j ∈ managers ∧ has state j = true)) :
    SameCell w (w.walk k state managers) k' j := by
  induction managers generalizing w state with
  | nil => exact ⟨rfl, rfl⟩
  | cons i managers ih =>
      simp only [walk]
      split
      · exact ⟨rfl, rfl⟩
      · split
        · next hbit =>
            rw [and_signal_ne_zero] at hbit
            have hfirst : SameCell w (w.invoke k i) k' j := by
              refine w.invoke_same ?_
              rintro ⟨hk, rfl⟩
              exact h ⟨hk, List.mem_cons_self, hbit⟩
            refine hfirst.trans (ih (w.invoke k i) (state ^^^ i.signal) ?_)
            rintro ⟨hk, hj, hhas⟩
            rw [has_xor, has_signal] at hhas
            by_cases hij : i = j
            · subst hij
              exact h ⟨hk, List.mem_cons_self, hbit⟩
            · exact h ⟨hk, List.mem_cons_of_mem i hj, by simpa [hij] using hhas⟩
        · refine ih w state ?_
          rintro ⟨hk, hj, hhas⟩
          exact h ⟨hk, List.mem_cons_of_mem i hj, hhas⟩

/-- Every type of the call that has a manager is invoked. -/
theorem walk_invoked (k : κ) (w : World ν κ η) {state : SignalType} {managers : List Index}
    (honce : TriggersOnce state) (hnodup : managers.Nodup) {j : Index} (hj : j ∈ managers)
    (hhas : has state j = true) : Invoked w (w.walk k state managers) k j := by
  induction managers generalizing w state with
  | nil => cases hj
  | cons i managers ih =>
      rcases List.nodup_cons.mp hnodup with ⟨hi, hnodup'⟩
      have hne : state ≠ 0#64 := by
        rintro rfl
        rw [has_zero] at hhas
        exact Bool.noConfusion hhas
      simp only [walk, if_neg hne]
      split
      · next hbit =>
          rw [and_signal_ne_zero] at hbit
          by_cases hij : j = i
          · subst hij
            -- the rest of the list has no second manager for the index
            refine (w.invoke_invoked k (honce j hhas)).of_same_right (walk_same k _ _ _ ?_)
            exact fun hlater => hi hlater.2.1
          · have hrest : has (state ^^^ i.signal) j = true := by
              simp [hhas, Ne.symm hij]
            have honce' : TriggersOnce (state ^^^ i.signal) := by
              intro j' hj'
              by_cases hj'i : i = j'
              · subst hj'i
                exact honce i hbit
              · exact honce j' (by simpa [hj'i] using hj')
            have hfirst : SameCell w (w.invoke k i) k j := w.invoke_same fun h => hij h.2
            exact Invoked.of_same_left hfirst
              (ih (w.invoke k i) honce' hnodup' ((List.mem_cons.mp hj).resolve_left hij) hrest)
      · next hbit =>
          rw [and_signal_ne_zero, Bool.not_eq_true] at hbit
          have hij : j ≠ i := by
            rintro rfl
            rw [hhas] at hbit
            exact Bool.noConfusion hbit
          exact ih w honce hnodup' ((List.mem_cons.mp hj).resolve_left hij) hhas

end World

/-! ## Phases of a call -/

/-- The type is in the later state of the signal only. -/
def World.NewAt (w w' : World ν κ η) (a : ν) (i : Index) : Prop :=
  has (w'.state a) i = true ∧ has (w.state a) i = false

namespace Network

variable (net : Network ν κ)

/-- A slot of {lit}`a` that admits the type is chained to {lit}`b`. -/
def Edge (i : Index) (a b : ν) : Prop :=
  ∃ k ∈ net.slots a, has (net.filter k) i = true ∧ net.chainedSignal k = some b

/-- The type is new in the signal of the slot. -/
def NewSlot (w w' : World ν κ η) (k : κ) (i : Index) : Prop :=
  ∃ a, k ∈ net.slots a ∧ w.NewAt w' a i

/-- Of the slots that are handed types, those that invoke a handler cell. -/
def Invokes (handed : κ → Index → Prop) (k : κ) (i : Index) : Prop :=
  handed k i ∧ has (net.filter k) i = true ∧ i ∈ net.managers k

/-- States grow, and the slots that are handed a type pass it on and invoke its
cell; the other cells stay as they are. -/
structure Phase (w w' : World ν κ η) (handed : κ → Index → Prop) : Prop where
  grows : ∀ a, Within (w.state a) (w'.state a)
  forwards : ∀ k i b, handed k i → has (net.filter k) i = true →
    net.chainedSignal k = some b → has (w'.state b) i = true
  invoked : ∀ k i, net.Invokes handed k i → w.Invoked w' k i
  same : ∀ k i, ¬ net.Invokes handed k i → w.SameCell w' k i

variable {net}

theorem NewSlot.of_state_eq {w w' : World ν κ η} {k : κ} {i : Index} (h : w'.state = w.state) :
    ¬ net.NewSlot w w' k i := by
  rintro ⟨a, -, hnew, hold⟩
  rw [h, hold] at hnew
  exact Bool.noConfusion hnew

/-- A type of a signal that it had before is not new in its slots. -/
theorem NewSlot.not_of_has {w w' : World ν κ η} {k : κ} {i : Index} {a : ν}
    (hk : k ∈ net.slots a) (hhas : has (w.state a) i = true) : ¬ net.NewSlot w w' k i := by
  rintro ⟨b, hb, -, hold⟩
  rw [net.slots_owner a b k hk hb, hold] at hhas
  exact Bool.noConfusion hhas

/-- New types of two phases. -/
theorem newSlot_iff {w w₁ w₂ : World ν κ η} (h₁ : ∀ a, Within (w.state a) (w₁.state a))
    (h₂ : ∀ a, Within (w₁.state a) (w₂.state a)) (k : κ) (i : Index) :
    net.NewSlot w w₂ k i ↔ net.NewSlot w w₁ k i ∨ net.NewSlot w₁ w₂ k i := by
  constructor
  · rintro ⟨a, hk, hnew, hold⟩
    cases hmid : has (w₁.state a) i with
    | true => exact Or.inl ⟨a, hk, hmid, hold⟩
    | false => exact Or.inr ⟨a, hk, hnew, hmid⟩
  · rintro (⟨a, hk, hnew, hold⟩ | ⟨a, hk, hnew, hold⟩)
    · exact ⟨a, hk, h₂ a i hnew, hold⟩
    · refine ⟨a, hk, hnew, ?_⟩
      by_contra hhas
      rw [Bool.not_eq_false] at hhas
      rw [h₁ a i hhas] at hold
      exact Bool.noConfusion hold

namespace Phase

variable {w w₁ w₂ : World ν κ η} {handed handed₁ handed₂ : κ → Index → Prop}

theorem congr (h : net.Phase w w₁ handed₁) (heq : ∀ k i, handed₁ k i ↔ handed₂ k i) :
    net.Phase w w₁ handed₂ := by
  have hsame : handed₁ = handed₂ := by
    funext k i
    exact propext (heq k i)
  rw [← hsame]
  exact h

/-- A phase without slots. -/
theorem of_cells_eq (hgrows : ∀ a, Within (w.state a) (w₁.state a))
    (hhandler : w₁.handler = w.handler) (hran : w₁.ran = w.ran) :
    net.Phase w w₁ fun _ _ => False := by
  refine ⟨hgrows, ?_, ?_, ?_⟩
  · intro k i b hhanded
    exact hhanded.elim
  · intro k i hinvokes
    exact hinvokes.1.elim
  · intro k i _
    exact ⟨by rw [hhandler], by rw [hran]⟩

/-- Two phases that hand different types to slots. -/
theorem trans (h₁ : net.Phase w w₁ handed₁) (h₂ : net.Phase w₁ w₂ handed₂)
    (hapart : ∀ k i, handed₁ k i → ¬ handed₂ k i) :
    net.Phase w w₂ fun k i => handed₁ k i ∨ handed₂ k i := by
  refine ⟨fun a => (h₁.grows a).trans (h₂.grows a), ?_, ?_, ?_⟩
  · rintro k i b (hhanded | hhanded) hfilter hchained
    · exact h₂.grows b i (h₁.forwards k i b hhanded hfilter hchained)
    · exact h₂.forwards k i b hhanded hfilter hchained
  · rintro k i ⟨hhanded | hhanded, hfilter, hmem⟩
    · refine (h₁.invoked k i ⟨hhanded, hfilter, hmem⟩).of_same_right (h₂.same k i ?_)
      exact fun hagain => hapart k i hhanded hagain.1
    · refine World.Invoked.of_same_left (h₁.same k i ?_) (h₂.invoked k i ⟨hhanded, hfilter, hmem⟩)
      exact fun hbefore => hapart k i hbefore.1 hhanded
  · intro k i hnot
    have hnot₁ : ¬ net.Invokes handed₁ k i := fun h => hnot ⟨Or.inl h.1, h.2⟩
    have hnot₂ : ¬ net.Invokes handed₂ k i := fun h => hnot ⟨Or.inr h.1, h.2⟩
    exact (h₁.same k i hnot₁).trans (h₂.same k i hnot₂)

/-- The handlers of one slot, after its types were passed on. -/
theorem walk [DecidableEq κ] {k : κ} {type : SignalType} (honce : TriggersOnce type)
    (hforwards : ∀ i b, has (type &&& net.filter k) i = true → net.chainedSignal k = some b →
      has (w.state b) i = true) :
    net.Phase w (w.walk k (type &&& net.filter k) (net.managers k))
      fun k' i => k' = k ∧ has type i = true := by
  have hstate := w.walk_state k (type &&& net.filter k) (net.managers k)
  refine ⟨?_, ?_, ?_, ?_⟩
  · intro a
    rw [hstate]
    exact Within.refl _
  · rintro k' i b ⟨rfl, htype⟩ hfilter hchained
    rw [hstate]
    exact hforwards i b (by rw [has_and, htype, hfilter, Bool.and_self]) hchained
  · rintro k' i ⟨⟨rfl, htype⟩, hfilter, hmem⟩
    refine w.walk_invoked k' (honce.and _) (net.managers_nodup k') hmem ?_
    rw [has_and, htype, hfilter, Bool.and_self]
  · intro k' i hnot
    refine w.walk_same k _ _ ?_
    rintro ⟨rfl, hmem, hhas⟩
    rw [has_and, Bool.and_eq_true] at hhas
    exact hnot ⟨⟨rfl, hhas.1⟩, hhas.2, hmem⟩

end Phase

/-! ## One call -/

variable (net)

/-- What a call of {lit}`emits` on {lit}`a` has done: the types it has added are
requested ones and have come along admitting slots, and they were handed to all
slots of the signals they are new in. -/
structure Emitted (w w' : World ν κ η) (a : ν) (type : SignalType) : Prop where
  phase : net.Phase w w' (net.NewSlot w w')
  arrives : Within type (w'.state a)
  reach : ∀ b i, w.NewAt w' b i → has type i = true ∧ Relation.ReflTransGen (net.Edge i) a b

/-- The same for the slots of {lit}`a` that the loop has visited. -/
structure Visited (w w' : World ν κ η) (a : ν) (type : SignalType) (ks : List κ) : Prop where
  phase : net.Phase w w' fun k i => (k ∈ ks ∧ has type i = true) ∨ net.NewSlot w w' k i
  reach : ∀ b i, w.NewAt w' b i → has type i = true ∧ Relation.ReflTransGen (net.Edge i) a b

variable {net}

/-- The loop has visited no slot yet. -/
theorem Visited.nil (w : World ν κ η) (a : ν) (type : SignalType) :
    net.Visited w w a type [] := by
  have hnew : ∀ k i, ¬ net.NewSlot w w k i := fun k i => NewSlot.of_state_eq rfl
  refine ⟨?_, ?_⟩
  · refine (Phase.of_cells_eq (fun _ => Within.refl _) rfl rfl).congr ?_
    intro k i
    simp [hnew k i]
  · rintro b i ⟨hnew, hold⟩
    rw [hold] at hnew
    exact Bool.noConfusion hnew

/-- The loop goes on with the next slots. -/
theorem Visited.cons {w w₁ w₂ : World ν κ η} {a : ν} {type : SignalType} {k : κ} {ks : List κ}
    (h₁ : net.Visited w w₁ a type [k]) (h₂ : net.Visited w₁ w₂ a type ks)
    (hslots : k :: ks ⊆ net.slots a) (hnodup : (k :: ks).Nodup)
    (htype : Within type (w.state a)) : net.Visited w w₂ a type (k :: ks) := by
  have hapart : ∀ k' i, ((k' ∈ [k] ∧ has type i = true) ∨ net.NewSlot w w₁ k' i) →
      ¬ ((k' ∈ ks ∧ has type i = true) ∨ net.NewSlot w₁ w₂ k' i) := by
    rintro k' i (⟨hk, hi⟩ | hnew) (⟨hks, hi'⟩ | hnew')
    · rw [List.mem_singleton.mp hk] at hks
      exact (List.nodup_cons.mp hnodup).1 hks
    · rw [List.mem_singleton.mp hk] at hnew'
      exact NewSlot.not_of_has (hslots List.mem_cons_self)
        (h₁.phase.grows a i (htype i hi)) hnew'
    · exact NewSlot.not_of_has (hslots (List.mem_cons_of_mem k hks)) (htype i hi') hnew
    · rcases hnew with ⟨b, hb, hthere, -⟩
      exact NewSlot.not_of_has hb hthere hnew'
  refine ⟨(h₁.phase.trans h₂.phase hapart).congr ?_, ?_⟩
  · intro k' i
    rw [newSlot_iff h₁.phase.grows h₂.phase.grows, List.mem_singleton, List.mem_cons]
    tauto
  · rintro b i ⟨hnew, hold⟩
    cases hmid : has (w₁.state b) i with
    | true => exact h₁.reach b i ⟨hmid, hold⟩
    | false => exact h₂.reach b i ⟨hnew, hmid⟩

/-- One slot: its types are passed on and then its handlers are run. -/
theorem Visited.slot [DecidableEq κ] {w w₁ : World ν κ η} {a : ν} {type : SignalType} {k : κ}
    (hphase : net.Phase w w₁ (net.NewSlot w w₁))
    (hreach : ∀ b i, w.NewAt w₁ b i →
      has type i = true ∧ Relation.ReflTransGen (net.Edge i) a b)
    (hforwards : ∀ i b, has (type &&& net.filter k) i = true → net.chainedSignal k = some b →
      has (w₁.state b) i = true)
    (hk : k ∈ net.slots a) (honce : TriggersOnce type) (htype : Within type (w.state a)) :
    net.Visited w (w₁.walk k (type &&& net.filter k) (net.managers k)) a type [k] := by
  have hstate := w₁.walk_state k (type &&& net.filter k) (net.managers k)
  have hapart : ∀ k' i, net.NewSlot w w₁ k' i → ¬ (k' = k ∧ has type i = true) := by
    rintro k' i hnew ⟨rfl, hi⟩
    exact NewSlot.not_of_has hk (htype i hi) hnew
  refine ⟨(hphase.trans (Phase.walk honce hforwards) hapart).congr ?_, ?_⟩
  · intro k' i
    rw [List.mem_singleton, or_comm]
    refine or_congr Iff.rfl ?_
    simp only [NewSlot, World.NewAt, hstate]
  · intro b i hnew
    unfold World.NewAt at hnew
    rw [hstate] at hnew
    exact hreach b i hnew

variable [DecidableEq ν] [DecidableEq κ]

omit [DecidableEq ν] in
/-- {lit}`SignalSlotSharedState::operator()`. -/
theorem visited_of_deliver
    {chain : World ν κ η → ν → SignalType → Option (World ν κ η × SignalType)}
    (hchain : ∀ w b type after, TriggersOnce type → chain w b type = some after →
      net.Emitted w after.1 b type)
    {w w' : World ν κ η} {a : ν} {type : SignalType} {k : κ} (hk : k ∈ net.slots a)
    (honce : TriggersOnce type) (htype : Within type (w.state a))
    (hdeliver : net.deliver chain type w k = some w') : net.Visited w w' a type [k] := by
  have hidle : (∀ i b, has (type &&& net.filter k) i = true → net.chainedSignal k = some b →
      has (w.state b) i = true) →
      net.Visited w (w.walk k (type &&& net.filter k) (net.managers k)) a type [k] := by
    intro hforwards
    have hnew : ∀ k i, ¬ net.NewSlot w w k i := fun k i => NewSlot.of_state_eq rfl
    refine Visited.slot ?_ ?_ hforwards hk honce htype
    · refine (Phase.of_cells_eq (fun _ => Within.refl _) rfl rfl).congr ?_
      intro k i
      exact iff_of_false id (hnew k i)
    · rintro b i ⟨hnew, hold⟩
      rw [hold] at hnew
      exact Bool.noConfusion hnew
  simp only [deliver] at hdeliver
  split at hdeliver
  · next hchained =>
      cases hdeliver
      refine hidle ?_
      intro i b _ hb
      rw [hchained] at hb
      cases hb
  · next b hchained =>
      split at hdeliver
      · next hzero =>
          cases hdeliver
          refine hidle ?_
          intro i b' hi
          rw [hzero, has_zero] at hi
          exact Bool.noConfusion hi
      · rw [Option.map_eq_some_iff] at hdeliver
        rcases hdeliver with ⟨after, hafter, rfl⟩
        have hemitted := hchain w b _ after (honce.and _) hafter
        refine Visited.slot hemitted.phase ?_ ?_ hk honce htype
        · intro c i hnew
          rcases hemitted.reach c i hnew with ⟨hi, hpath⟩
          rw [has_and, Bool.and_eq_true] at hi
          exact ⟨hi.1, Relation.ReflTransGen.head ⟨k, hk, hi.2, hchained⟩ hpath⟩
        · intro i b' hi hb'
          rw [hchained] at hb'
          cases hb'
          exact hemitted.arrives i hi

omit [DecidableEq ν] in
/-- The loop over the slots. -/
theorem visited_of_foldlM
    {chain : World ν κ η → ν → SignalType → Option (World ν κ η × SignalType)}
    (hchain : ∀ w b type after, TriggersOnce type → chain w b type = some after →
      net.Emitted w after.1 b type)
    {a : ν} {type : SignalType} (honce : TriggersOnce type) {ks : List κ}
    (hslots : ks ⊆ net.slots a) (hnodup : ks.Nodup) {w w' : World ν κ η}
    (htype : Within type (w.state a))
    (hloop : ks.foldlM (net.deliver chain type) w = some w') : net.Visited w w' a type ks := by
  induction ks generalizing w with
  | nil =>
      cases hloop
      exact Visited.nil _ a type
  | cons k ks ih =>
      rw [List.foldlM_cons] at hloop
      rcases Option.bind_eq_some_iff.mp hloop with ⟨w₁, hfirst, hrest⟩
      have h₁ := visited_of_deliver hchain (hslots List.mem_cons_self) honce htype hfirst
      have h₂ := ih (fun k' hk' => hslots (List.mem_cons_of_mem k hk'))
        (List.nodup_cons.mp hnodup).2 (htype.trans (h₁.phase.grows a)) hrest
      exact h₁.cons h₂ hslots hnodup htype

omit [DecidableEq κ] in
/-- The slots of a signal whose state has grown. -/
theorem Visited.emitted {w w' : World ν κ η} {a : ν} {type state valid : SignalType}
    (hvalid : ∀ i, has valid i = true ↔ has type i = true ∧ has (w.state a) i = false)
    (hstate : ∀ i, has state i = true ↔ has (w.state a) i = true ∨ has type i = true)
    (h : net.Visited (w.setState a state) w' a valid (net.slots a)) :
    net.Emitted w w' a type := by
  have hset : ∀ b, b ≠ a → (w.setState a state).state b = w.state b := fun b hb =>
    w.setState_state_of_ne state hb
  have hself : (w.setState a state).state a = state := w.setState_state_self a state
  have hgrows : ∀ b, Within (w.state b) ((w.setState a state).state b) := by
    intro b i hi
    by_cases hb : b = a
    · subst hb
      rw [hself]
      exact (hstate i).mpr (Or.inl hi)
    · rwa [hset b hb]
  -- the types that the update has added are the valid ones
  have hupdate : ∀ b i, w.NewAt (w.setState a state) b i ↔ b = a ∧ has valid i = true := by
    intro b i
    unfold World.NewAt
    by_cases hb : b = a
    · subst hb
      rw [hself, hstate, hvalid]
      cases has (w.state b) i <;> simp
    · rw [hset b hb]
      simp [hb]
  refine ⟨?_, ?_, ?_⟩
  · have hfirst : net.Phase w (w.setState a state) fun _ _ => False :=
      Phase.of_cells_eq hgrows rfl rfl
    refine (hfirst.trans h.phase fun _ _ hno => hno.elim).congr ?_
    intro k i
    rw [newSlot_iff hgrows h.phase.grows, false_or]
    refine or_congr ?_ Iff.rfl
    simp only [NewSlot, hupdate]
    constructor
    · rintro ⟨hk, hi⟩
      exact ⟨a, hk, rfl, hi⟩
    · rintro ⟨b, hk, rfl, hi⟩
      exact ⟨hk, hi⟩
  · intro i hi
    refine h.phase.grows a i ?_
    rw [hself]
    exact (hstate i).mpr (Or.inr hi)
  · rintro b i ⟨hnew, hold⟩
    cases hmid : has ((w.setState a state).state b) i with
    | true =>
        rcases (hupdate b i).mp ⟨hmid, hold⟩ with ⟨rfl, hi⟩
        exact ⟨((hvalid i).mp hi).1, Relation.ReflTransGen.refl⟩
    | false =>
        rcases h.reach b i ⟨hnew, hmid⟩ with ⟨hi, hpath⟩
        exact ⟨((hvalid i).mp hi).1, hpath⟩

omit [DecidableEq κ] in
/-- The valid types are in the state that {lit}`UpdateState` leaves. -/
theorem valid_within_setState (w : World ν κ η) (a : ν) {type : SignalType}
    (honce : TriggersOnce type) : Within (updateState (w.state a) type).2
      ((w.setState a (updateState (w.state a) type).1).state a) := by
  intro i hi
  rw [World.setState_state_self, has_updateState_state]
  exact Or.inr ((has_updateState_valid honce (w.state a) i).mp hi).1

/-- What one call of {lit}`emits` with trigger-once types does. -/
theorem emitted_of_emits (net : Network ν κ) (depth : Nat) :
    ∀ (w : World ν κ η) (a : ν) (type : SignalType) (after : World ν κ η × SignalType),
      TriggersOnce type → net.emits depth w a type = some after →
      net.Emitted w after.1 a type := by
  induction depth with
  | zero =>
      intro w a type after _ hemits
      cases hemits
  | succ depth ih =>
      intro w a type after honce hemits
      have hnothing : Within type (w.state a) → net.Emitted w w a type := by
        intro htype
        have hvisited : net.Visited w w a type [] := Visited.nil w a type
        refine ⟨hvisited.phase.congr ?_, htype, hvisited.reach⟩
        intro k i
        simp
      simp only [emits] at hemits
      split at hemits
      · next hzero =>
          cases hemits
          refine hnothing ?_
          intro i hi
          rw [hzero, has_zero] at hi
          exact Bool.noConfusion hi
      · split at hemits
        · next hvalid =>
            cases hemits
            have htype : Within type (w.state a) := by
              intro i hi
              by_contra hnew
              have hbit := (has_updateState_valid honce (w.state a) i).mpr
                ⟨hi, Bool.eq_false_iff.mpr hnew⟩
              rw [hvalid, has_zero] at hbit
              exact Bool.noConfusion hbit
            have hstate : (updateState (w.state a) type).1 = w.state a := by
              refine ext_has fun i => Bool.eq_iff_iff.mpr ?_
              rw [has_updateState_state]
              exact or_iff_left_of_imp (htype i)
            rw [hstate, World.setState, Function.update_eq_self]
            exact hnothing htype
        · rw [Option.map_eq_some_iff] at hemits
          rcases hemits with ⟨w', hloop, rfl⟩
          have hvalid := has_updateState_valid honce (w.state a)
          have hstate := has_updateState_state (w.state a) type
          have honce' : TriggersOnce (updateState (w.state a) type).2 :=
            fun i hi => honce i ((hvalid i).mp hi).1
          exact Visited.emitted hvalid hstate (visited_of_foldlM ih honce'
            (List.Subset.refl _) (net.slots_nodup a) (valid_within_setState w a honce) hloop)

/-! ## The end of the recursion -/

section

variable [Fintype ν]

/-- The types that signals have not received yet. -/
def missing (w : World ν κ η) : Finset (ν × Index) :=
  Finset.univ.filter fun p => has (w.state p.1) p.2 = false

omit [DecidableEq κ] [DecidableEq ν] in
theorem missing_subset {w w' : World ν κ η} (hgrows : ∀ a, Within (w.state a) (w'.state a)) :
    missing w' ⊆ missing w := by
  refine Finset.monotone_filter_right _ ?_
  intro p _ hp
  by_contra hhas
  rw [Bool.not_eq_false] at hhas
  rw [hgrows p.1 p.2 hhas] at hp
  exact Bool.noConfusion hp

omit [DecidableEq κ] [DecidableEq ν] in
theorem missing_card_lt {w w' : World ν κ η} (hgrows : ∀ a, Within (w.state a) (w'.state a))
    {a : ν} {i : Index} (hnew : w.NewAt w' a i) : (missing w').card < (missing w).card := by
  refine Finset.card_lt_card ((Finset.ssubset_iff_of_subset (missing_subset hgrows)).mpr ?_)
  refine ⟨(a, i), Finset.mem_filter.mpr ⟨Finset.mem_univ _, hnew.2⟩, ?_⟩
  intro hmem
  have hold := (Finset.mem_filter.mp hmem).2
  rw [hnew.1] at hold
  exact Bool.noConfusion hold

omit [DecidableEq κ] [DecidableEq ν] in
theorem missing_card_le (w : World ν κ η) : (missing w).card ≤ 64 * Fintype.card ν := by
  have hcard := Finset.card_filter_le (Finset.univ : Finset (ν × Index))
    fun p => has (w.state p.1) p.2 = false
  rw [Finset.card_univ, Fintype.card_prod, Fintype.card_fin, Nat.mul_comm] at hcard
  exact hcard

omit [DecidableEq ν] in
/-- The loop ends when the calls on the chained signals do. -/
theorem exists_foldlM
    {chain : World ν κ η → ν → SignalType → Option (World ν κ η × SignalType)} {bound : Nat}
    (hchain : ∀ w b type after, TriggersOnce type → chain w b type = some after →
      net.Emitted w after.1 b type)
    (hends : ∀ w b type, TriggersOnce type → (missing w).card < bound →
      ∃ after, chain w b type = some after)
    {a : ν} {type : SignalType} (honce : TriggersOnce type) {ks : List κ}
    (hslots : ks ⊆ net.slots a) {w : World ν κ η} (htype : Within type (w.state a))
    (hbound : (missing w).card < bound) : ∃ w', ks.foldlM (net.deliver chain type) w = some w' := by
  induction ks generalizing w with
  | nil => exact ⟨w, rfl⟩
  | cons k ks ih =>
      have hfirst : ∃ w₁, net.deliver chain type w k = some w₁ := by
        simp only [deliver]
        split
        · exact ⟨_, rfl⟩
        · next b hchained =>
            split
            · exact ⟨_, rfl⟩
            · rcases hends w b _ (honce.and _) hbound with ⟨after, hafter⟩
              exact ⟨_, by rw [hafter, Option.map_some]⟩
      rcases hfirst with ⟨w₁, hw₁⟩
      have hvisited := visited_of_deliver hchain (hslots List.mem_cons_self) honce htype hw₁
      have hgrows := hvisited.phase.grows
      rcases ih (fun k' hk' => hslots (List.mem_cons_of_mem k hk')) (htype.trans (hgrows a))
        (Nat.lt_of_le_of_lt (Finset.card_le_card (missing_subset hgrows)) hbound) with ⟨w', hw'⟩
      exact ⟨w', by rw [List.foldlM_cons, hw₁]; exact hw'⟩

/-- The recursion is not deeper than there are types to add. -/
theorem exists_emits (net : Network ν κ) (depth : Nat) :
    ∀ (w : World ν κ η) (a : ν) (type : SignalType), TriggersOnce type → (missing w).card < depth →
      ∃ after, net.emits depth w a type = some after := by
  induction depth with
  | zero =>
      intro w a type _ hdepth
      exact absurd hdepth (Nat.not_lt_zero _)
  | succ depth ih =>
      intro w a type honce hdepth
      simp only [emits]
      split
      · exact ⟨_, rfl⟩
      · split
        · exact ⟨_, rfl⟩
        · next hne =>
            have hvalid := has_updateState_valid honce (w.state a)
            have hstate := has_updateState_state (w.state a) type
            rcases exists_has_of_ne_zero hne with ⟨i, hi⟩
            have hgrows : ∀ b, Within (w.state b)
                ((w.setState a (updateState (w.state a) type).1).state b) := by
              intro b j hj
              by_cases hb : b = a
              · subst hb
                rw [World.setState_state_self, hstate]
                exact Or.inl hj
              · rwa [World.setState_state_of_ne _ _ hb]
            have hadds : w.NewAt (w.setState a (updateState (w.state a) type).1) a i := by
              exact ⟨valid_within_setState w a honce i hi, ((hvalid i).mp hi).2⟩
            have hless := missing_card_lt hgrows hadds
            rcases exists_foldlM (emitted_of_emits net depth) ih
              (fun j hj => honce j ((hvalid j).mp hj).1) (List.Subset.refl (net.slots a))
              (valid_within_setState w a honce) (by omega) with ⟨w', hw'⟩
            exact ⟨_, by rw [hw', Option.map_some]⟩

end

/-- In any finite graph of chained signals, cycles included, a call of
{lit}`emits` with trigger-once types returns; a type has then arrived exactly at
the signals to which slots that admit it lead, and its handlers have run once in
the admitting slots of these signals and nowhere else. -/
theorem chained_emits_reaches [Fintype ν] (net : Network ν κ) (w : World ν κ η)
    (hstate : ∀ a, w.state a = 0#64) (hran : ∀ k i, w.ran k i = []) (a : ν) (type : SignalType)
    (honce : TriggersOnce type) (depth : Nat) (hdepth : 64 * Fintype.card ν < depth) :
    ∃ w' valid, net.emits depth w a type = some (w', valid) ∧
      (∀ b i, has (w'.state b) i = true ↔
        has type i = true ∧ Relation.ReflTransGen (net.Edge i) a b) ∧
      ∀ b k i h, k ∈ net.slots b → i ∈ net.managers k → w.handler k i = .handler h →
        w'.ran k i = if has (w'.state b) i = true ∧ has (net.filter k) i = true then
          [.handler h] else [] := by
  have hends := Nat.lt_of_le_of_lt (missing_card_le w) hdepth
  rcases net.exists_emits depth w a type honce hends with ⟨⟨w', valid⟩, hemits⟩
  have hemitted := net.emitted_of_emits depth w a type (w', valid) honce hemits
  have hold : ∀ b i, has (w.state b) i = false := by
    intro b i
    rw [hstate b, has_zero]
  have hhanded : ∀ b k i, k ∈ net.slots b →
      (net.NewSlot w w' k i ↔ has (w'.state b) i = true) := by
    intro b k i hk
    constructor
    · rintro ⟨c, hc, hnew, -⟩
      rwa [net.slots_owner b c k hk hc]
    · intro hhas
      exact ⟨b, hk, hhas, hold b i⟩
  refine ⟨w', valid, hemits, ?_, ?_⟩
  · intro b i
    constructor
    · intro hhas
      exact hemitted.reach b i ⟨hhas, hold b i⟩
    · rintro ⟨htype, hpath⟩
      induction hpath with
      | refl => exact hemitted.arrives i htype
      | tail _ hedge ih =>
          rcases hedge with ⟨k, hk, hfilter, hchained⟩
          exact hemitted.phase.forwards k i _ ((hhanded _ k i hk).mpr ih) hfilter hchained
  · intro b k i h hk hmem hcell
    split
    · next hadmits =>
        have hinvoked := hemitted.phase.invoked k i
          ⟨(hhanded b k i hk).mpr hadmits.1, hadmits.2, hmem⟩
        rw [hinvoked.2, hran, hcell]
        rfl
    · next hnot =>
        have hsame := hemitted.phase.same k i
          fun hinvokes => hnot ⟨(hhanded b k i hk).mp hinvokes.1, hinvokes.2.1⟩
        rw [hsame.2, hran]

/-- Two signals that are chained to each other, the way back for one type only;
each slot has a handler for every type. -/
def mutualChain (first second : Fin 2) : Network (Fin 2) (Fin 2) where
  slots := fun a => [a]
  filter := fun k => if k = first then 3#64 else 1#64
  chainedSignal := fun k => some (if k = first then second else first)
  managers := fun _ => List.finRange 64
  slots_nodup := by decide
  slots_owner := by decide
  managers_nodup := fun _ => List.nodup_finRange 64

theorem chained_emits_reaches_mutualChain :
    ∃ w' valid, (mutualChain 0 1).emits 129
        ⟨fun _ => 0#64, fun k i => .handler (k, i), fun _ _ => []⟩ 0 3#64 = some (w', valid) ∧
      has (w'.state 1) 1 = true ∧ w'.ran 1 0 = [.handler (1, 0)] ∧ w'.ran 1 1 = [] := by
  have honce : TriggersOnce 3#64 := by
    unfold TriggersOnce
    decide
  rcases (mutualChain 0 1).chained_emits_reaches
    ⟨fun _ => 0#64, fun k i => Cell.handler (k, i), fun _ _ => []⟩ (fun _ => rfl) (fun _ _ => rfl)
    0 3#64 honce 129 (by decide) with ⟨w', valid, hemits, hstate, hran⟩
  have hedge : ∀ i, i = 0 ∨ i = 1 → has (w'.state 1) i = true := by
    intro i hi
    refine (hstate 1 i).mpr ⟨by rcases hi with rfl | rfl <;> decide, ?_⟩
    refine Relation.ReflTransGen.single ⟨0, List.mem_singleton_self 0, ?_, rfl⟩
    rcases hi with rfl | rfl <;> decide
  refine ⟨w', valid, hemits, hedge 1 (Or.inr rfl), ?_, ?_⟩
  · rw [hran 1 1 0 (1, 0) (by decide) (List.mem_finRange 0) rfl, if_pos]
    exact ⟨hedge 0 (Or.inl rfl), by decide⟩
  · rw [hran 1 1 1 (1, 1) (by decide) (List.mem_finRange 1) rfl, if_neg]
    exact fun h => absurd h.2 (by decide)

end Network

end Signal

end AsyncSimple
