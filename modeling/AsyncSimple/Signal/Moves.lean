import AsyncSimple.Signal.Emission

/-!
# What the steps of owners and emissions do

The step functions are inverted once: everything a step of a call of
{lit}`emits` or of an owner can do is listed here, and the invariants are proved
from these lists.

Main results:

- Theorem {lit}`emissionMove_of_emissionStep`: the steps of a call of
  {lit}`emits`.
- Theorem {lit}`ownerMove_of_ownerStep`: the steps of the owner of a slot.
- Theorem {lit}`step_cases`: every step is one of these.
-/

namespace AsyncSimple

open Transition

namespace Signal

/-! ## Bits -/

namespace SignalType

variable {a b : SignalType} {i j : Index}

@[simp]
theorem has_zero : has 0#64 i = false :=
  BitVec.getLsbD_zero

@[simp]
theorem has_or : has (a ||| b) i = (has a i || has b i) :=
  BitVec.getLsbD_or

@[simp]
theorem has_and : has (a &&& b) i = (has a i && has b i) :=
  BitVec.getLsbD_and

@[simp]
theorem has_xor : has (a ^^^ b) i = (has a i ^^ has b i) :=
  BitVec.getLsbD_xor

@[simp]
theorem has_signal : has i.signal j = decide (i = j) := by
  have hi := i.isLt
  have hj := j.isLt
  rw [has, Index.signal, BitVec.getLsbD_shiftLeft, BitVec.getLsbD_one, Bool.eq_iff_iff]
  simp [Fin.ext_iff]
  omega

@[simp]
theorem has_high32bitsMask : has high32bitsMask i = isMultiTriggerSignal i := by
  revert i
  decide

/-- Two sets with the same members are equal. -/
theorem ext_has (h : ∀ i, has a i = has b i) : a = b := by
  apply BitVec.eq_of_getLsbD_eq
  intro n hn
  exact h ⟨n, hn⟩

/-- A set that is not empty has a member. -/
theorem exists_has_of_ne_zero (h : a ≠ 0#64) : ∃ i, has a i = true := by
  by_contra hnone
  refine h (ext_has fun i => ?_)
  rw [has_zero]
  exact Bool.eq_false_iff.mpr fun hi => hnone ⟨i, hi⟩

/-- The test {lit}`nowSignal & state`. -/
theorem and_signal_ne_zero : a &&& i.signal ≠ 0#64 ↔ has a i = true := by
  constructor
  · intro hne
    by_contra hno
    apply hne
    apply ext_has
    intro j
    by_cases hij : i = j
    · subst hij
      simpa using hno
    · simp [hij]
  · intro hhas hzero
    have hbit : has (a &&& i.signal) i = true := by simp [hhas]
    rw [hzero, has_zero] at hbit
    exact Bool.noConfusion hbit

end SignalType

open SignalType

/-- What {lit}`UpdateState` reports of a trigger-once type. -/
theorem has_validSignal {type expected : SignalType} {i : Index}
    (hi : isMultiTriggerSignal i = false) :
    has (validSignal type expected ||| (type &&& high32bitsMask)) i =
      (has type i && !has expected i) := by
  simp only [validSignal, has_or, has_xor, has_and, has_high32bitsMask, hi, Bool.and_false,
    Bool.or_false]
  cases has expected i <;> simp

variable {κ ε : Type}

/-! ## What a step of an emission can do -/

/-- The visit behind the manager of index {lit}`i`, whose type is done. -/
def Visit.done (v : Visit κ) (i : Index) (managers : List Index) : Visit κ :=
  { v with state := v.state ^^^ i.signal, managers := managers }

/-- Steps of {lit}`emits` that touch nothing but local variables. -/
inductive Forward (s : System κ ε) : EmissionPc κ → EmissionPc κ → Prop where
  | none : Forward s .notCalled (.returned 0#64)
  | start (type : SignalType) : Forward s .notCalled (.update type s.state)
  | retry (type expected : SignalType) :
      Forward s (.update type expected) (.update type s.state)
  | nothing (type expected : SignalType) (h : validSignal type expected = 0#64) :
      Forward s (.update type expected)
        (.returned (validSignal type expected ||| (type &&& high32bitsMask)))
  | again (type expected : SignalType) (h : validSignal type expected = 0#64) :
      Forward s (.update type expected)
        (.head (validSignal type expected ||| (type &&& high32bitsMask)))
  | head (valid : SignalType) : Forward s (.head valid) (.nodes valid s.slotsHead)
  | finish (valid : SignalType) : Forward s (.nodes valid []) (.returned valid)
  | filter (valid : SignalType) (k : κ) (rest : List κ) :
      Forward s (.nodes valid (k :: rest)) (.managers ⟨valid, k, valid &&& s.filter k, [], rest⟩)
  | load (v : Visit κ) :
      Forward s (.managers v) (.chained { v with managers := s.managers v.slot })
  | chained (v : Visit κ) : Forward s (.chained v) (.walk v)
  | leave (v : Visit κ) (h : v.managers = [] ∨ v.state = 0#64) :
      Forward s (.walk v) (.nodes v.valid v.rest)
  | skip (v : Visit κ) (i : Index) (managers : List Index) (hm : v.managers = i :: managers)
      (h : has v.state i = false) : Forward s (.walk v) (.walk { v with managers := managers })
  | multi (v : Visit κ) (i : Index) (managers : List Index) (hm : v.managers = i :: managers)
      (h : has v.state i = true) (hi : isMultiTriggerSignal i = true) :
      Forward s (.walk v) (.walk (v.done i managers))
  | multiCall (v : Visit κ) (i : Index) (managers : List Index) (hm : v.managers = i :: managers)
      (h : has v.state i = true) (hi : isMultiTriggerSignal i = true)
      (hfound : s.handler v.slot i ≠ .null) :
      Forward s (.walk v) (.call (v.done i managers) i (s.handler v.slot i))

/-- A local step only finds multi-trigger handlers. -/
theorem Forward.of_call {s : System κ ε} {pc : EmissionPc κ} {v : Visit κ} {i : Index}
    {found : Cell Nat} (h : Forward s pc (.call v i found)) :
    isMultiTriggerSignal i = true ∧ found = s.handler v.slot i := by
  generalize hpc : EmissionPc.call v i found = pc' at h
  cases h with
  | multiCall v' j managers hm hbit hj hfound =>
      injection hpc with hv hi hcell
      subst hv hi hcell
      exact ⟨hj, rfl⟩
  | _ => cases hpc

/-- A local step does not start at a handler that is about to run. -/
theorem Forward.not_call {s : System κ ε} {pc : EmissionPc κ} {v : Visit κ} {i : Index}
    {found : Cell Nat} (h : Forward s (.call v i found) pc) : False := by
  cases h

/-- Where a call goes after it has exchanged a trigger-once handler. -/
def afterExchange (v : Visit κ) (i : Index) (found : Cell Nat) : EmissionPc κ :=
  if found = .null then .walk v else .call v i found

/-- The steps of {lit}`emits`: move on, add types to the state, exchange a
handler, or run one. -/
inductive EmissionMove [DecidableEq κ] [DecidableEq ε] (s : System κ ε) (e : ε) :
    System κ ε → Prop where
  | forward (pc : EmissionPc κ) (h : Forward s (s.emission e) pc) :
      EmissionMove s e (s.setEmission e pc)
  | update (type : SignalType) (h : s.emission e = .update type s.state) :
      EmissionMove s e { s.setEmission e
          (.head (validSignal type s.state ||| (type &&& high32bitsMask))) with
        state := s.state ||| type }
  | exchange (v : Visit κ) (i : Index) (managers : List Index) (h : s.emission e = .walk v)
      (hm : v.managers = i :: managers) (hbit : has v.state i = true)
      (hi : isMultiTriggerSignal i = false) :
      EmissionMove s e ((s.setCell v.slot i .emittedTag).setEmission e
        (afterExchange (v.done i managers) i (s.handler v.slot i)))
  | call (v : Visit κ) (i : Index) (found : Cell Nat) (h : s.emission e = .call v i found) :
      EmissionMove s e ((runHandler s found).setEmission e (.walk v))

/-- Everything a step of {lit}`emits` can do. -/
theorem emissionMove_of_emissionStep [DecidableEq κ] [DecidableEq ε] {s s' : System κ ε} {e : ε}
    {spurious : Bool} (hstep : emissionStep s e spurious = some s') : EmissionMove s e s' := by
  unfold emissionStep at hstep
  have hlocal : ∀ pc, Forward s (s.emission e) pc → EmissionMove s e (s.setEmission e pc) :=
    fun pc h => EmissionMove.forward pc h
  cases hpc : s.emission e with
  | notCalled => simp [hpc] at hstep
  | returned valid => simp [hpc] at hstep
  | update type expected =>
      rw [hpc] at hlocal
      simp only [hpc] at hstep
      split at hstep
      · next hvalid =>
          cases hstep
          split
          · exact hlocal _ (Forward.nothing type expected hvalid)
          · exact hlocal _ (Forward.again type expected hvalid)
      · split at hstep
        · next hcas =>
            cases hstep
            rcases hcas with ⟨rfl, -⟩
            exact EmissionMove.update type hpc
        · cases hstep
          exact hlocal _ (Forward.retry type expected)
  | head valid =>
      rw [hpc] at hlocal
      simp only [hpc, Option.some.injEq] at hstep
      subst hstep
      exact hlocal _ (Forward.head valid)
  | nodes valid rest =>
      rw [hpc] at hlocal
      cases rest with
      | nil =>
          simp only [hpc, Option.some.injEq] at hstep
          subst hstep
          exact hlocal _ (Forward.finish valid)
      | cons k rest =>
          simp only [hpc, Option.some.injEq] at hstep
          subst hstep
          exact hlocal _ (Forward.filter valid k rest)
  | managers v =>
      rw [hpc] at hlocal
      simp only [hpc, Option.some.injEq] at hstep
      subst hstep
      exact hlocal _ (Forward.load v)
  | chained v =>
      rw [hpc] at hlocal
      simp only [hpc, Option.some.injEq] at hstep
      subst hstep
      exact hlocal _ (Forward.chained v)
  | walk v =>
      rw [hpc] at hlocal
      simp only [hpc, Option.some.injEq] at hstep
      subst hstep
      unfold walkStep
      split
      · next hm => exact hlocal _ (Forward.leave v (Or.inl hm))
      · next i managers hm =>
          split
          · next hzero => exact hlocal _ (Forward.leave v (Or.inr hzero))
          · split
            · next hbit =>
                rw [and_signal_ne_zero] at hbit
                cases hi : isMultiTriggerSignal i with
                | false =>
                    have hmove := EmissionMove.exchange v i managers hpc hm hbit hi
                    rw [afterExchange] at hmove
                    simp only [Bool.false_eq_true, if_false]
                    split
                    · next hfound => rwa [if_pos hfound] at hmove
                    · next hfound => rwa [if_neg hfound] at hmove
                | true =>
                    simp only [if_true]
                    split
                    · exact hlocal _ (Forward.multi v i managers hm hbit hi)
                    · next hfound =>
                        exact hlocal _ (Forward.multiCall v i managers hm hbit hi hfound)
            · next hbit =>
                rw [and_signal_ne_zero, Bool.not_eq_true] at hbit
                exact hlocal _ (Forward.skip v i managers hm hbit)
  | call v i found =>
      simp only [hpc, Option.some.injEq] at hstep
      subst hstep
      exact EmissionMove.call v i found hpc

/-! ## What a step of an owner can do -/

/-- The handler a call of {lit}`emplace` wants to register. -/
def CellPc.emplaced : CellPc Nat → Option Nat
  | .emplaceTest h | .emplaceLoad h | .emplaceCas h _ => some h
  | .clearLoad | .clearCas _ => none

/-- A cell holds this handler. -/
def Cell.handler? : Cell Nat → Option Nat
  | .handler h => some h
  | _ => none

/-- The outcomes of a step on a cell. -/
inductive CellMove [DecidableEq κ] (s : System κ ε) (k : κ) (i : Index) :
    CellPc Nat → System κ ε → Prop where
  | tested (h : Nat) (hstate : s.triggered i = false) :
      CellMove s k i (.emplaceTest h) (s.setOwner k (.cell i (.emplaceLoad h)))
  | loaded (h : Nat) (hcell : s.handler k i ≠ .emittedTag) :
      CellMove s k i (.emplaceLoad h) (s.setOwner k (.cell i (.emplaceCas h (s.handler k i))))
  | found (h : Nat) (hcell : s.handler k i = .handler h) :
      CellMove s k i .clearLoad (s.setOwner k (.cell i (.clearCas (.handler h))))
  | reject (pc : CellPc Nat) (h : Nat) (hpc : pc.emplaced = some h)
      (hwhy : s.triggered i = true ∨ s.handler k i = .emittedTag) :
      CellMove s k i pc ((s.setOwner k .idle).setFate h .rejected)
  | quit (pc : CellPc Nat) (hpc : pc.emplaced = none) : CellMove s k i pc (s.setOwner k .idle)
  | accept (h : Nat) (hcell : (s.handler k i).handler? = none) :
      CellMove s k i (.emplaceCas h (s.handler k i))
        (((s.setCell k i (.handler h)).setOwner k .idle).setFate h .accepted)
  | replace (h old : Nat) (hcell : s.handler k i = .handler old) :
      CellMove s k i (.emplaceCas h (.handler old))
        ((((s.setCell k i (.handler h)).setOwner k .idle).setFate old .replaced).setFate h .accepted)
  | remove (old : Nat) (hcell : s.handler k i = .handler old) :
      CellMove s k i (.clearCas (.handler old))
        (((s.setCell k i .null).setOwner k .idle).setFate old .cleared)
  | empty (old : Cell Nat) (hcell : s.handler k i = old) (hold : old.handler? = none) :
      CellMove s k i (.clearCas old) ((s.setCell k i .null).setOwner k .idle)
  | abort (pc : CellPc Nat) (old : Cell Nat)
      (hpc : (∃ h, pc = .emplaceCas h old) ∨ pc = .clearCas old)
      (hchanged : s.handler k i ≠ old) (htag : s.handler k i ≠ .emittedTag) :
      CellMove s k i pc (s.setOwner k .aborted)

/-- The outcomes of a call or step of an owner. -/
inductive OwnerMove [DecidableEq κ] (s : System κ ε) (k : κ) : System κ ε → Prop where
  | regist (filter : SignalType) (h : s.owner k = .absent) :
      OwnerMove s k (s.setOwner k (.registering filter s.slotsHead))
  | setFilter (filter : SignalType) (h : s.owner k = .idle) :
      OwnerMove s k { s with filter := Function.update s.filter k filter }
  | emplace (i : Index) (h : s.owner k = .idle) :
      OwnerMove s k { s.setOwner k (.lookup i s.created) with
        created := s.created + 1
        place := Function.update s.place s.created (k, i) }
  | clear (i : Index) (h : s.owner k = .idle) (hi : i ∈ s.managers k) :
      OwnerMove s k (s.setOwner k (.cell i .clearLoad))
  | nothing (h : s.owner k = .idle) : OwnerMove s k s
  | retry (filter : SignalType) (next : List κ) (h : s.owner k = .registering filter next) :
      OwnerMove s k (s.setOwner k (.registering filter s.slotsHead))
  | register (filter : SignalType) (h : s.owner k = .registering filter s.slotsHead) :
      OwnerMove s k { s.setOwner k .idle with
        slotsHead := k :: s.slotsHead
        filter := Function.update s.filter k filter }
  | present (i : Index) (h : Nat) (hpc : s.owner k = .lookup i h) (hi : i ∈ s.managers k) :
      OwnerMove s k (s.setOwner k (.cell i (.emplaceTest h)))
  | missing (i : Index) (h : Nat) (hpc : s.owner k = .lookup i h) (hi : i ∉ s.managers k) :
      OwnerMove s k (s.setOwner k (.publish i h (s.managers k)))
  | publish (i : Index) (h : Nat) (next : List Index) (hpc : s.owner k = .publish i h next) :
      OwnerMove s k { (s.setOwner k (.cell i (.emplaceTest h))).setCell k i .null with
        managers := Function.update s.managers k (i :: next) }
  | cell (i : Index) (pc : CellPc Nat) (s' : System κ ε) (hpc : s.owner k = .cell i pc)
      (hmove : CellMove s k i pc s') : OwnerMove s k s'

section

variable [DecidableEq κ]

@[simp]
theorem System.setCell_self (s : System κ ε) (k : κ) (i : Index) :
    s.setCell k i (s.handler k i) = s := by
  simp [System.setCell]

/-- Writing one cell leaves the others alone. -/
theorem System.setCell_handler_of_ne {s : System κ ε} {k k' : κ} {i j : Index} {cell : Cell Nat}
    (h : ¬ (k' = k ∧ j = i)) : (s.setCell k i cell).handler k' j = s.handler k' j := by
  by_cases hk : k' = k
  · have hj : j ≠ i := fun hj => h ⟨hk, hj⟩
    subst hk
    simp [System.setCell, hj]
  · simp [System.setCell, hk]

@[simp]
theorem System.setCell_handler_self {s : System κ ε} {k : κ} {i : Index} {cell : Cell Nat} :
    (s.setCell k i cell).handler k i = cell := by
  simp [System.setCell]

/-- The step functions on a cell have these outcomes. -/
theorem cellMove_of_cellStep (s : System κ ε) (k : κ) (i : Index) (pc : CellPc Nat) :
    CellMove s k i pc (settle pc (cellStep (s.triggered i) (s.handler k i) pc).2
      ((s.setCell k i (cellStep (s.triggered i) (s.handler k i) pc).1).setOwner k
        (ownerAfter i (cellStep (s.triggered i) (s.handler k i) pc).2))) := by
  cases pc with
  | emplaceTest h =>
      cases ht : s.triggered i with
      | true => simpa [cellStep, settle, ownerAfter] using
          CellMove.reject (.emplaceTest h) h rfl (Or.inl ht)
      | false => simpa [cellStep, settle, ownerAfter] using CellMove.tested h ht
  | emplaceLoad h =>
      by_cases htag : s.handler k i = .emittedTag
      · have hcell := s.setCell_self k i
        rw [htag] at hcell
        simpa [cellStep, settle, ownerAfter, htag, hcell] using
          CellMove.reject (.emplaceLoad h) h rfl (Or.inr htag)
      · simpa [cellStep, settle, ownerAfter, htag] using CellMove.loaded h htag
  | emplaceCas h old =>
      by_cases hold : s.handler k i = old
      · subst hold
        cases hcell : s.handler k i with
        | handler o =>
            simpa [cellStep, settle, ownerAfter] using CellMove.replace h o hcell
        | null =>
            have hmove := CellMove.accept (s := s) (k := k) (i := i) h (by rw [hcell]; rfl)
            rw [hcell] at hmove
            simpa [cellStep, settle, ownerAfter] using hmove
        | emittedTag =>
            have hmove := CellMove.accept (s := s) (k := k) (i := i) h (by rw [hcell]; rfl)
            rw [hcell] at hmove
            simpa [cellStep, settle, ownerAfter] using hmove
      · by_cases htag : s.handler k i = .emittedTag
        · have hcell := s.setCell_self k i
          rw [htag] at hcell hold
          simpa [cellStep, settle, ownerAfter, htag, hcell, hold, afterFailedExchange] using
            CellMove.reject (.emplaceCas h old) h rfl (Or.inr htag)
        · have habort : afterFailedExchange (s.handler k i) = .aborts := by
            cases hcell : s.handler k i <;> simp_all [afterFailedExchange]
          simpa [cellStep, settle, ownerAfter, hold, habort] using
            CellMove.abort (.emplaceCas h old) old (Or.inl ⟨h, rfl⟩) hold htag
  | clearLoad =>
      cases hcell : s.handler k i with
      | handler h =>
          have hself := s.setCell_self k i
          rw [hcell] at hself
          simpa [cellStep, settle, ownerAfter, hself] using CellMove.found h hcell
      | null =>
          have hself := s.setCell_self k i
          rw [hcell] at hself
          simpa [cellStep, settle, ownerAfter, hself] using
            CellMove.quit (s := s) (k := k) (i := i) .clearLoad rfl
      | emittedTag =>
          have hself := s.setCell_self k i
          rw [hcell] at hself
          simpa [cellStep, settle, ownerAfter, hself] using
            CellMove.quit (s := s) (k := k) (i := i) .clearLoad rfl
  | clearCas old =>
      by_cases hold : s.handler k i = old
      · cases hcell : old with
        | handler o =>
            rw [hcell] at hold
            simpa [cellStep, settle, ownerAfter, hold] using CellMove.remove o hold
        | null =>
            rw [hcell] at hold
            simpa [cellStep, settle, ownerAfter, hold] using CellMove.empty .null hold rfl
        | emittedTag =>
            rw [hcell] at hold
            simpa [cellStep, settle, ownerAfter, hold] using CellMove.empty .emittedTag hold rfl
      · by_cases htag : s.handler k i = .emittedTag
        · have hcell := s.setCell_self k i
          rw [htag] at hcell hold
          simpa [cellStep, settle, ownerAfter, htag, hcell, hold, afterFailedExchange] using
            CellMove.quit (s := s) (k := k) (i := i) (.clearCas old) rfl
        · have habort : afterFailedExchange (s.handler k i) = .aborts := by
            cases hcell : s.handler k i <;> simp_all [afterFailedExchange]
          simpa [cellStep, settle, ownerAfter, hold, habort] using
            CellMove.abort (.clearCas old) old (Or.inr rfl) hold htag

/-- Everything a step of an owner can do. -/
theorem ownerMove_of_ownerStep {s s' : System κ ε} {k : κ} {spurious : Bool}
    (hstep : ownerStep s k spurious = some s') : OwnerMove s k s' := by
  unfold ownerStep at hstep
  cases hpc : s.owner k <;> simp only [hpc, reduceCtorEq] at hstep
  case registering filter next =>
    split at hstep
    · next hcas =>
        cases hstep
        rcases hcas with ⟨rfl, -⟩
        exact OwnerMove.register filter hpc
    · cases hstep
      exact OwnerMove.retry filter next hpc
  case lookup i h =>
    split at hstep
    · next hi =>
        cases hstep
        exact OwnerMove.present i h hpc hi
    · next hi =>
        cases hstep
        exact OwnerMove.missing i h hpc hi
  case publish i h next =>
    cases hstep
    exact OwnerMove.publish i h next hpc
  case cell i pc =>
    cases hstep
    exact OwnerMove.cell i pc _ hpc (cellMove_of_cellStep s k i pc)

/-- A step of an owner needs a call that is under way. -/
theorem ownerStep_busy {s s' : System κ ε} {k : κ} {spurious : Bool}
    (hstep : ownerStep s k spurious = some s') : s.owner k ≠ .absent ∧ s.owner k ≠ .idle := by
  constructor <;> intro hpc <;> simp [ownerStep, hpc] at hstep

/-- All moves but the call of {lit}`emits` and its steps are moves of an owner. -/
theorem ownerMove_of_step [DecidableEq ε] {s s' : System κ ε} {l : Label κ ε}
    (hstep : step s l = some s') (hemits : ∀ e type, l ≠ .emits e type)
    (hemission : ∀ e spurious, l ≠ .emission e spurious) : ∃ k, OwnerMove s k s' := by
  cases l with
  | regist k filter =>
      simp only [step, Option.ite_none_right_eq_some, Option.some.injEq] at hstep
      rcases hstep with ⟨hpc, rfl⟩
      exact ⟨k, OwnerMove.regist filter hpc⟩
  | setFilter k filter =>
      simp only [step, Option.ite_none_right_eq_some, Option.some.injEq] at hstep
      rcases hstep with ⟨hpc, rfl⟩
      exact ⟨k, OwnerMove.setFilter filter hpc⟩
  | emplace k i =>
      simp only [step, Option.ite_none_right_eq_some, Option.some.injEq] at hstep
      rcases hstep with ⟨hpc, rfl⟩
      exact ⟨k, OwnerMove.emplace i hpc⟩
  | clear k i =>
      simp only [step, Option.ite_none_right_eq_some, Option.some.injEq] at hstep
      rcases hstep with ⟨hpc, rfl⟩
      split
      · next hi => exact ⟨k, OwnerMove.clear i hpc hi⟩
      · exact ⟨k, OwnerMove.nothing hpc⟩
  | owner k spurious => exact ⟨k, ownerMove_of_ownerStep hstep⟩
  | emits e type => exact absurd rfl (hemits e type)
  | emission e spurious => exact absurd rfl (hemission e spurious)

/-- The call of {lit}`emits` with its first load. -/
theorem emissionMove_of_emits [DecidableEq ε] {s s' : System κ ε} {e : ε} {type : SignalType}
    (hstep : step s (.emits e type) = some s') : EmissionMove s e s' := by
  simp only [step, Option.ite_none_right_eq_some, Option.some.injEq] at hstep
  rcases hstep with ⟨hpc, rfl⟩
  refine EmissionMove.forward _ ?_
  rw [hpc]
  split
  · exact Forward.none
  · exact Forward.start type

/-- Everything a step of the system can do. -/
theorem step_cases [DecidableEq ε] {s s' : System κ ε} {l : Label κ ε}
    (hstep : step s l = some s') :
    (∃ k, OwnerMove s k s') ∨ ∃ e, EmissionMove s e s' := by
  cases l with
  | emits e type => exact Or.inr ⟨e, emissionMove_of_emits hstep⟩
  | emission e spurious => exact Or.inr ⟨e, emissionMove_of_emissionStep hstep⟩
  | _ => exact Or.inl (ownerMove_of_step hstep (by simp) (by simp))

/-- An owner changes neither the state of the signal nor an emission. -/
theorem OwnerMove.frame {s s' : System κ ε} {k : κ} (h : OwnerMove s k s') :
    s'.state = s.state ∧ s'.emission = s.emission := by
  cases h with
  | cell i pc s' hpc hmove => cases hmove <;> exact ⟨rfl, rfl⟩
  | _ => exact ⟨rfl, rfl⟩

/-- An emission changes neither owners, slots nor the owners' records. -/
theorem EmissionMove.frame [DecidableEq ε] {s s' : System κ ε} {e : ε}
    (h : EmissionMove s e s') : s'.owner = s.owner ∧ s'.slotsHead = s.slotsHead ∧
      s'.filter = s.filter ∧ s'.managers = s.managers ∧ s'.created = s.created ∧
      s'.place = s.place ∧ s'.fate = s.fate := by
  cases h with
  | call v i found hpc => cases found <;> exact ⟨rfl, rfl, rfl, rfl, rfl, rfl, rfl⟩
  | _ => exact ⟨rfl, rfl, rfl, rfl, rfl, rfl, rfl⟩

/-- An owner changes no other slot. -/
theorem OwnerMove.frame_other {s s' : System κ ε} {k k' : κ} (h : OwnerMove s k s')
    (hk : k' ≠ k) : s'.owner k' = s.owner k' ∧ s'.handler k' = s.handler k' := by
  cases h with
  | cell i pc s' hpc hmove =>
      cases hmove <;> simp [System.setOwner, System.setCell, System.setFate, hk]
  | _ => simp [System.setOwner, System.setCell, hk]

end

end Signal

end AsyncSimple
