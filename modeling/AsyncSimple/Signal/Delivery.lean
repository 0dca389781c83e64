import Mathlib.Algebra.GroupWithZero.Nat
import AsyncSimple.Signal.Handlers

/-!
# Delivery of a signal to the registered handlers

A handler is registered only while its type is not in the state or the carrier
of the type is still on its way, and the carrier exchanges the cell once; so a
registered handler is run once or is removed by its owner before.

Main results:

- Theorem {lit}`ReachInv.step`: the carrier does not miss a registered handler.
- Theorem {lit}`DeliveryInv.exists_invoked`: the steps of the carrier alone lead
  to the invocation.
- Theorem {lit}`handler_delivered_once`: delivery in all runs.
-/

namespace AsyncSimple

open Transition

namespace Signal

open SignalType

variable {κ ε : Type}

/-! ## The carrier does not miss a handler -/

/-- The owner is between the test of the state and its exchange. -/
def OwnerPc.Tested (i : Index) : OwnerPc κ → Prop
  | .cell j (.emplaceLoad _) | .cell j (.emplaceCas _ _) => j = i
  | _ => False

/-- Labels that keep the filter of slot {lit}`k` open for type {lit}`i`. -/
def Admits (k : κ) (i : Index) : Label κ ε → Prop
  | .regist k' filter | .setFilter k' filter => k' = k → has filter i = true
  | _ => True

instance [DecidableEq κ] (k : κ) (i : Index) (l : Label κ ε) : Decidable (Admits k i l) := by
  cases l <;> simp only [Admits] <;> infer_instance

/-- The filter of slot {lit}`k` is open for type {lit}`i`. -/
structure FilterInv (k : κ) (i : Index) (s : System κ ε) : Prop where
  registering : ∀ filter next, s.owner k = .registering filter next → has filter i = true
  admits : k ∈ s.slotsHead → has (s.filter k) i = true

theorem FilterInv.initial (k : κ) (i : Index) (place₀ : κ × Index) :
    FilterInv k i (System.initial place₀ : System κ ε) := by
  constructor <;> simp [System.initial]

/-- A registered handler, or one that is past the test of the state, has the
carrier before it, unless the owner is going to meet the mark. -/
def ReachInv (k : κ) (i : Index) (s : System κ ε) : Prop :=
  (s.handler k i).handler? ≠ none ∨ (s.owner k).Tested i →
    ∀ e, (s.emission e).Carries i →
      (s.emission e).Reaches k i ∨ s.handler k i = .emittedTag

theorem ReachInv.initial (k : κ) (i : Index) (place₀ : κ × Index) :
    ReachInv k i (System.initial place₀ : System κ ε) := by
  simp [ReachInv, System.initial, Cell.handler?, OwnerPc.Tested]

section

variable [DecidableEq κ] [DecidableEq ε] {s s' : System κ ε} {k : κ} {i : Index}

omit [DecidableEq ε] in
/-- Moves that keep slots and filters and register nothing. -/
theorem FilterInv.setOwner (h : FilterInv k i s) {k' : κ} {pc : OwnerPc κ}
    (hpc : ∀ filter next, pc = .registering filter next → k' = k → has filter i = true) :
    FilterInv k i (s.setOwner k' pc) := by
  refine ⟨?_, h.admits⟩
  intro filter next hreg
  by_cases hk : k = k'
  · subst hk
    exact hpc filter next (by simpa [System.setOwner] using hreg) rfl
  · exact h.registering filter next (by simpa [System.setOwner, hk] using hreg)

omit [DecidableEq κ] [DecidableEq ε] in
theorem FilterInv.congr (h : FilterInv k i s) (howner : s'.owner k = s.owner k)
    (hslots : s'.slotsHead = s.slotsHead) (hfilter : s'.filter = s.filter) :
    FilterInv k i s' := by
  constructor
  · rw [howner]
    exact h.registering
  · rw [hslots, hfilter]
    exact h.admits

omit [DecidableEq ε] in
theorem FilterInv.ownerStep (h : FilterInv k i s) {k' : κ} {spurious : Bool}
    (hstep : ownerStep s k' spurious = some s') : FilterInv k i s' := by
  rcases ownerStep_busy hstep with ⟨habsent, hidle⟩
  have hout : ∀ pc : OwnerPc κ, (∀ filter next, pc ≠ .registering filter next) →
      FilterInv k i (s.setOwner k' pc) := by
    intro pc hpc
    exact h.setOwner fun filter next heq _ => absurd heq (hpc filter next)
  have hmove := ownerMove_of_ownerStep hstep
  cases hmove with
  | regist filter hpc => exact absurd hpc habsent
  | setFilter filter hpc => exact absurd hpc hidle
  | emplace j hpc => exact absurd hpc hidle
  | clear j hpc hj => exact absurd hpc hidle
  | nothing hpc => exact absurd hpc hidle
  | retry filter next hpc =>
      refine h.setOwner ?_
      rintro filter' next' heq rfl
      cases heq
      exact h.registering filter next hpc
  | register filter hpc =>
      refine ⟨(hout .idle (by simp)).registering, ?_⟩
      intro hk
      by_cases hkk : k = k'
      · subst hkk
        simpa using h.registering filter _ hpc
      · have hmem : k ∈ s.slotsHead := by simpa [hkk] using hk
        simpa [hkk] using h.admits hmem
  | present j g hpc hj => exact hout _ (by simp)
  | missing j g hpc hj => exact hout _ (by simp)
  | publish j g next hpc => exact (hout (.cell j (.emplaceTest g)) (by simp)).congr rfl rfl rfl
  | cell j pc s' hpc hmove =>
      cases hmove with
      | tested g hstate | loaded g hcell | found g hcell | quit pc hg
      | abort pc old hold hchanged hmark => exact hout _ (by simp)
      | reject pc g hg hwhy | accept g hcell | replace g old hcell | remove old hcell
      | empty old hcell hold => exact (hout .idle (by simp)).congr rfl rfl rfl

theorem FilterInv.step (h : FilterInv k i s) {l : Label κ ε} (hl : Admits k i l)
    (hstep : step s l = some s') : FilterInv k i s' := by
  cases l with
  | regist k' filter =>
      simp only [Signal.step, Option.ite_none_right_eq_some, Option.some.injEq] at hstep
      rcases hstep with ⟨-, rfl⟩
      refine h.setOwner ?_
      rintro filter' next' heq hk
      cases heq
      exact hl hk
  | setFilter k' filter =>
      simp only [Signal.step, Option.ite_none_right_eq_some, Option.some.injEq] at hstep
      rcases hstep with ⟨-, rfl⟩
      refine ⟨h.registering, ?_⟩
      intro hk
      by_cases hkk : k = k'
      · subst hkk
        simpa using hl rfl
      · simpa [hkk] using h.admits hk
  | emplace k' j =>
      simp only [Signal.step, Option.ite_none_right_eq_some, Option.some.injEq] at hstep
      rcases hstep with ⟨-, rfl⟩
      have hlookup : FilterInv k i (s.setOwner k' (.lookup j s.created)) := h.setOwner (by simp)
      exact hlookup.congr rfl rfl rfl
  | clear k' j =>
      simp only [Signal.step, Option.ite_none_right_eq_some, Option.some.injEq] at hstep
      rcases hstep with ⟨-, rfl⟩
      split
      · exact h.setOwner (by simp)
      · exact h
  | owner k' spurious => exact h.ownerStep hstep
  | emits e type =>
      simp only [Signal.step, Option.ite_none_right_eq_some, Option.some.injEq] at hstep
      rcases hstep with ⟨-, rfl⟩
      exact h.congr rfl rfl rfl
  | emission e spurious =>
      rcases (emissionMove_of_emissionStep hstep).frame with ⟨howner, hslots, hfilter, -⟩
      exact h.congr (congrFun howner k) hslots hfilter

namespace ReachInv

omit [DecidableEq κ] [DecidableEq ε] in
/-- The premise of the invariant puts the cell in the way of the carrier. -/
theorem listed (hslot : SlotInv s)
    (hactive : (s.handler k i).handler? ≠ none ∨ (s.owner k).Tested i) :
    k ∈ s.slotsHead ∧ i ∈ s.managers k := by
  rcases hactive with hcell | htested
  · have hne : s.handler k i ≠ .null := by
      intro hnull
      rw [hnull] at hcell
      exact hcell rfl
    exact (hslot.occupied k i hne).symm
  · have hknows := hslot.knows k
    have hlisted := hslot.listed k
    cases hpc : s.owner k with
    | cell j pc =>
        rw [hpc] at htested hknows hlisted
        cases pc with
        | emplaceLoad g | emplaceCas g old =>
            have hji : j = i := htested
            subst hji
            exact ⟨hlisted.mpr trivial, hknows⟩
        | emplaceTest g | clearLoad | clearCas old => exact htested.elim
    | absent | registering filter next | idle | lookup j g | publish j g next | aborted =>
        rw [hpc] at htested
        exact htested.elim

omit [DecidableEq κ] [DecidableEq ε] in
/-- Moves that bring no new handler past the test. -/
theorem congr (h : ReachInv k i s) (hemission : s'.emission = s.emission)
    (hhandler : s'.handler k i = s.handler k i)
    (howner : (s'.owner k).Tested i → (s.owner k).Tested i) : ReachInv k i s' := by
  intro hactive e hcarries
  rw [hhandler] at hactive ⊢
  rw [hemission] at hcarries ⊢
  exact h (hactive.imp id howner) e hcarries

omit [DecidableEq ε] in
theorem cell (h : ReachInv k i s) (hi : isMultiTriggerSignal i = false) (hcarrier : CarrierInv s)
    (htag : TagInv s) {j : Index} {pc : CellPc Nat} (hpc : s.owner k = .cell j pc)
    (hmove : CellMove s k j pc s') : ReachInv k i s' := by
  have hsees := htag.sees k
  rw [hpc] at hsees
  cases hmove with
  | tested g hstate =>
      by_cases hji : j = i
      · subst hji
        intro _ e hcarries
        have hemitted := hcarrier.emitted e j hi hcarries
        simp [System.triggered, hi, hemitted] at hstate
      · exact h.congr rfl rfl fun htested =>
          absurd (by simpa [System.setOwner, OwnerPc.Tested] using htested) hji
  | loaded g hcell =>
      refine h.congr rfl rfl fun htested => ?_
      rw [hpc]
      simpa [System.setOwner, OwnerPc.Tested] using htested
  | found g hcell | reject pc g hg hwhy | quit pc hg | abort pc old hold hchanged hmark =>
      exact h.congr rfl rfl fun htested => by
        simp [System.setOwner, System.setFate, OwnerPc.Tested] at htested
  | accept g hcell =>
      by_cases hji : j = i
      · subst hji
        intro _ e hcarries
        have hactive : (s.owner k).Tested j := by
          rw [hpc]
          rfl
        exact Or.inl ((h (Or.inr hactive) e hcarries).resolve_right hsees.1)
      · refine h.congr rfl ?_ fun htested => by
          simp [System.setOwner, System.setFate, OwnerPc.Tested] at htested
        exact System.setCell_handler_of_ne fun hsame => hji hsame.2.symm
  | replace g old hcell =>
      by_cases hji : j = i
      · subst hji
        intro _ e hcarries
        have hactive : (s.handler k j).handler? ≠ none := by
          rw [hcell]
          exact Option.some_ne_none old
        refine Or.inl ((h (Or.inl hactive) e hcarries).resolve_right ?_)
        rw [hcell]
        simp
      · refine h.congr rfl ?_ fun htested => by
          simp [System.setOwner, System.setFate, OwnerPc.Tested] at htested
        exact System.setCell_handler_of_ne fun hsame => hji hsame.2.symm
  | remove old hcell | empty old hcell hold =>
      by_cases hji : j = i
      · subst hji
        rintro (hcell' | htested) e hcarries
        · simp [System.setOwner, System.setFate, System.setCell, Cell.handler?] at hcell'
        · simp [System.setOwner, System.setFate, OwnerPc.Tested] at htested
      · refine h.congr rfl ?_ fun htested => by
          simp [System.setOwner, System.setFate, OwnerPc.Tested] at htested
        exact System.setCell_handler_of_ne fun hsame => hji hsame.2.symm

omit [DecidableEq ε] in
theorem ownerMove (h : ReachInv k i s) (hi : isMultiTriggerSignal i = false)
    (hcarrier : CarrierInv s) (hslot : SlotInv s) (htag : TagInv s) {k' : κ}
    (hmove : OwnerMove s k' s') : ReachInv k i s' := by
  by_cases hk : k = k'
  · subst hk
    cases hmove with
    | cell j pc s' hpc hmove => exact h.cell hi hcarrier htag hpc hmove
    | publish j g next hpc =>
        have hcells : (s.setCell k j .null).handler = s.handler := by
          rw [hslot.setCell_null_of_publish hpc]
        exact h.congr rfl (congrFun (congrFun hcells k) i) fun htested => by
          simp [System.setOwner, System.setCell, OwnerPc.Tested] at htested
    | setFilter filter hpc | nothing hpc => exact h.congr rfl rfl id
    | _ => exact h.congr rfl rfl fun htested => by simp [System.setOwner, OwnerPc.Tested] at htested
  · rcases hmove.frame_other hk with ⟨howner, hhandler⟩
    refine h.congr hmove.frame.2 (congrFun hhandler i) fun htested => ?_
    rwa [howner] at htested

theorem emissionMove (h : ReachInv k i s) (hi : isMultiTriggerSignal i = false)
    (hslot : SlotInv s) (hfilter : FilterInv k i s) {e : ε}
    (hmove : EmissionMove s e s') : ReachInv k i s' := by
  -- every other call is where it was
  have hothers : ∀ pc e', e' ≠ e → (s.setEmission e pc).emission e' = s.emission e' := by
    intro pc e' he
    simp [System.setEmission, he]
  cases hmove with
  | forward pc hforward =>
      intro hactive e' hcarries
      rcases listed hslot hactive with ⟨hk, hmem⟩
      by_cases he : e' = e
      · subst he
        have hcarries' : (s.emission e').Carries i :=
          (hforward.carries_iff hi).mp (by simpa [System.setEmission] using hcarries)
        refine (h hactive e' hcarries').imp (fun hreaches => ?_) id
        simpa [System.setEmission] using
          hforward.reaches hi hcarries' (hfilter.admits hk) hk hmem hreaches
      · rw [hothers pc e' he] at hcarries ⊢
        exact h hactive e' hcarries
  | update type hpc =>
      intro hactive e' hcarries
      by_cases he : e' = e
      · subst he
        exact Or.inl (by simp [System.setEmission, EmissionPc.Reaches])
      · have hsame := hothers
          (.head (validSignal type s.state ||| (type &&& high32bitsMask))) e' he
        have hcarries' : (s.emission e').Carries i := by
          rw [← hsame]
          exact hcarries
        refine (h hactive e' hcarries').imp (fun hreaches => ?_) id
        rw [← hsame] at hreaches
        exact hreaches
  | exchange v j managers hpc hm hbit hj =>
      intro hactive e' hcarries
      by_cases hsame : v.slot = k ∧ j = i
      · rcases hsame with ⟨rfl, rfl⟩
        exact Or.inr (by simp [System.setEmission])
      · have hcell : ((s.setCell v.slot j .emittedTag).setEmission e
            (afterExchange (v.done j managers) j (s.handler v.slot j))).handler k i =
            s.handler k i :=
          System.setCell_handler_of_ne fun heq => hsame ⟨heq.1.symm, heq.2.symm⟩
        rw [hcell] at hactive ⊢
        by_cases he : e' = e
        · subst he
          have hcarries' : (s.emission e').Carries i := by
            rw [hpc]
            exact carries_afterExchange.mp (by simpa [System.setEmission] using hcarries)
          refine (h hactive e' hcarries').imp (fun hreaches => ?_) id
          rw [hpc] at hreaches
          simpa [System.setEmission] using (reaches_afterExchange hm hsame).mpr hreaches
        · have hcarries' : (s.emission e').Carries i := by
            simpa [System.setEmission, System.setCell, he] using hcarries
          refine (h hactive e' hcarries').imp (fun hreaches => ?_) id
          simpa [System.setEmission, System.setCell, he] using hreaches
  | call v j found hpc =>
      have hran : ReachInv k i (runHandler s found) := by
        cases found <;> exact h.congr rfl rfl id
      have hpc' : (runHandler s found).emission e = .call v j found := by
        cases found <;> exact hpc
      intro hactive e' hcarries
      by_cases he : e' = e
      · subst he
        have hwalk : (EmissionPc.walk v).Carries i := by simpa [System.setEmission] using hcarries
        have hcarries' : ((runHandler s found).emission e').Carries i := by
          rw [hpc']
          exact hwalk
        refine (hran hactive e' hcarries').imp (fun hreaches => ?_) id
        rw [hpc'] at hreaches
        have hreaches' : (EmissionPc.walk v).Reaches k i := hreaches
        simpa [System.setEmission] using hreaches'
      · have hcarries' : ((runHandler s found).emission e').Carries i := by
          simpa [System.setEmission, he] using hcarries
        refine (hran hactive e' hcarries').imp (fun hreaches => ?_) id
        simpa [System.setEmission, he] using hreaches

theorem step (h : ReachInv k i s) (hi : isMultiTriggerSignal i = false) (hcarrier : CarrierInv s)
    (hslot : SlotInv s) (htag : TagInv s) (hfilter : FilterInv k i s) {l : Label κ ε}
    (hstep : step s l = some s') : ReachInv k i s' := by
  rcases step_cases hstep with ⟨k', hmove⟩ | ⟨e, hmove⟩
  · exact h.ownerMove hi hcarrier hslot htag hmove
  · exact h.emissionMove hi hslot hfilter hmove

end ReachInv

/-! ## Progress of the carrier -/

/-- Steps needed for the slots that are left. -/
def nodesWork (managers : κ → List Index) (rest : List κ) : Nat :=
  (rest.map fun k => 2 * (managers k).length + 6).sum

/-- Steps a carrier has left at most. -/
def EmissionPc.work (slots : List κ) (managers : κ → List Index) : EmissionPc κ → Nat
  | .head _ => nodesWork managers slots + 2
  | .nodes _ rest => nodesWork managers rest + 1
  | .managers v => 2 * (managers v.slot).length + 6 + nodesWork managers v.rest
  | .chained v => 2 * v.managers.length + 5 + nodesWork managers v.rest
  | .walk v => 2 * v.managers.length + 3 + nodesWork managers v.rest
  | .call v _ _ => 2 * v.managers.length + 4 + nodesWork managers v.rest
  | _ => 0

omit [DecidableEq κ] [DecidableEq ε] in
theorem Forward.work_lt {pc pc' : EmissionPc κ} (h : Forward s pc pc') (hcarries : pc.Carries i) :
    pc'.work s.slotsHead s.managers < pc.work s.slotsHead s.managers := by
  cases h with
  | none | start type | retry type expected | nothing type expected hvalid
  | again type expected hvalid => simp [EmissionPc.Carries, EmissionPc.valid] at hcarries
  | head valid => simp [EmissionPc.work]
  | finish valid => simp [EmissionPc.work]
  | filter valid k' rest =>
      simp only [EmissionPc.work, nodesWork, List.map_cons, List.sum_cons]
      omega
  | load v => simp [EmissionPc.work]
  | chained v => simp [EmissionPc.work]
  | leave v hend =>
      simp only [EmissionPc.work]
      omega
  | skip v j rest hm hbit =>
      simp only [EmissionPc.work, hm, List.length_cons]
      omega
  | multi v j rest hm hbit hj | multiCall v j rest hm hbit hj hfound =>
      simp only [EmissionPc.work, Visit.done, hm, List.length_cons]
      omega

/-- A step of a carrier decreases its work and keeps what it carries. -/
theorem EmissionMove.carrier {e : ε} (h : EmissionMove s e s')
    (hi : isMultiTriggerSignal i = false) (hcarries : (s.emission e).Carries i) :
    (s'.emission e).Carries i ∧
      (s'.emission e).work s'.slotsHead s'.managers <
        (s.emission e).work s.slotsHead s.managers := by
  cases h with
  | forward pc hforward =>
      have hcarries' := (hforward.carries_iff hi).mpr hcarries
      simpa [System.setEmission] using And.intro hcarries' (hforward.work_lt hcarries)
  | update type hpc =>
      rw [hpc] at hcarries
      simp [EmissionPc.Carries, EmissionPc.valid] at hcarries
  | exchange v j managers hpc hm hbit hj =>
      rw [hpc] at hcarries
      have hcarries' : (afterExchange (v.done j managers) j (s.handler v.slot j)).Carries i :=
        carries_afterExchange.mpr hcarries
      refine ⟨by simpa [System.setEmission] using hcarries', ?_⟩
      simp only [System.setEmission, System.setCell, Function.update_self, hpc, afterExchange]
      split <;> simp only [EmissionPc.work, Visit.done, hm, List.length_cons] <;> omega
  | call v j found hpc =>
      rw [hpc] at hcarries
      have hcarries' : (EmissionPc.walk v).Carries i := hcarries
      refine ⟨by simpa [System.setEmission] using hcarries', ?_⟩
      cases found <;> simp [System.setEmission, runHandler, hpc, EmissionPc.work]

/-- A call that has a cell before it can go on. -/
theorem exists_emissionStep {e : ε} (hreaches : (s.emission e).Reaches k i) :
    ∃ t, emissionStep s e false = some t := by
  unfold emissionStep
  cases hpc : s.emission e with
  | notCalled | returned valid | update type expected =>
      rw [hpc] at hreaches
      exact hreaches.elim
  | head valid | managers v | chained v | walk v | call v j found => exact ⟨_, rfl⟩
  | nodes valid rest => cases rest <;> exact ⟨_, rfl⟩

/-- All invariants together. -/
structure DeliveryInv (k : κ) (i : Index) (s : System κ ε) : Prop where
  carrier : CarrierInv s
  slot : SlotInv s
  tag : TagInv s
  handlers : HandlerInv s
  filter : FilterInv k i s
  reach : ReachInv k i s

theorem DeliveryInv.step (h : DeliveryInv k i s) (hi : isMultiTriggerSignal i = false)
    {l : Label κ ε} (hl : Admits k i l) (hstep : step s l = some s') : DeliveryInv k i s' where
  carrier := h.carrier.step hstep
  slot := h.slot.step hstep
  tag := h.tag.step h.carrier h.slot hstep
  handlers := h.handlers.step h.carrier h.slot h.tag hstep
  filter := h.filter.step hl hstep
  reach := h.reach.step hi h.carrier h.slot h.tag h.filter hstep

omit [DecidableEq κ] [DecidableEq ε] in
/-- An accepted handler that was not run yet has the carrier before it or is
about to run. -/
theorem DeliveryInv.carrier_active (h : DeliveryInv k i s) (hi : isMultiTriggerSignal i = false)
    {g : Nat} (hlt : g < s.created) (hplace : s.place g = (k, i)) (hfate : s.fate g = .accepted)
    (hnot : s.invoked g ≠ 1) {e : ε} (hcarries : (s.emission e).Carries i) :
    (s.emission e).Reaches k i ∨ ∃ v, s.emission e = .call v i (.handler g) := by
  have hsettled := h.handlers.settled g k i hlt hplace hi
  rw [Settled, hfate] at hsettled
  rcases hsettled with hcell | ⟨e', v, hcall, -⟩ | hdone
  · have hactive : (s.handler k i).handler? ≠ none := by
      rw [hcell]
      exact Option.some_ne_none g
    refine Or.inl ((h.reach (Or.inl hactive) e hcarries).resolve_right ?_)
    rw [hcell]
    simp
  · have he := h.carrier.unique e' e i hi (h.slot.carries_of_call hcall) hcarries
    subst he
    exact Or.inr ⟨v, hcall⟩
  · exact absurd hdone.1 hnot

/-- The steps of the carrier alone lead to the invocation of an accepted
handler. -/
theorem DeliveryInv.exists_invoked (h : DeliveryInv k i s) (hi : isMultiTriggerSignal i = false)
    {g : Nat} (hlt : g < s.created) (hplace : s.place g = (k, i)) (hfate : s.fate g = .accepted)
    (hemitted : has s.state i = true) :
    ∃ ls t, (∀ l ∈ ls, ∃ e, l = .emission e false) ∧ machine.run s ls = some t ∧
      t.invoked g = 1 := by
  rcases h.carrier.carried i hemitted hi with ⟨e, hcarries⟩
  have hprogress : ∀ s : System κ ε,
      (DeliveryInv k i s ∧ g < s.created ∧ s.place g = (k, i) ∧ s.fate g = .accepted ∧
        (s.emission e).Carries i) → ¬ s.invoked g = 1 →
      ∃ l s', (∃ e, l = .emission e false) ∧ machine.step s l = some s' ∧
        (DeliveryInv k i s' ∧ g < s'.created ∧ s'.place g = (k, i) ∧ s'.fate g = .accepted ∧
          (s'.emission e).Carries i) ∧
        (s'.emission e).work s'.slotsHead s'.managers <
          (s.emission e).work s.slotsHead s.managers := by
    rintro s ⟨hs, hlt, hplace, hfate, hcarries⟩ hgoal
    have hstep : ∃ t, emissionStep s e false = some t := by
      rcases hs.carrier_active hi hlt hplace hfate hgoal hcarries with hreaches | ⟨v, hcall⟩
      · exact exists_emissionStep hreaches
      · exact ⟨_, by simp only [emissionStep, hcall]; rfl⟩
    rcases hstep with ⟨t, ht⟩
    have hmove := emissionMove_of_emissionStep ht
    rcases hmove.frame with ⟨-, -, -, -, hcreated, hplaces, hfates⟩
    rcases hmove.carrier hi hcarries with ⟨hcarries', hwork⟩
    have hadmits : Admits k i (Label.emission e false : Label κ ε) := trivial
    refine ⟨.emission e false, t, ⟨e, rfl⟩, ht, ⟨hs.step hi hadmits ht, ?_, ?_, ?_, hcarries'⟩,
      hwork⟩
    · rw [hcreated]
      exact hlt
    · rw [hplaces]
      exact hplace
    · rw [hfates]
      exact hfate
  rcases Machine.exists_run_of_measure machine (fun l => ∃ e, l = Label.emission e false)
    (fun s => (s.emission e).work s.slotsHead s.managers) hprogress
    ⟨h, hlt, hplace, hfate, hcarries⟩ with ⟨ls, t, hls, hrun, -, hinvoked⟩
  exact ⟨ls, t, hls, hrun, hinvoked⟩

end

/-! ## All runs -/

/-- What the signal promises for a handler that was emplaced for one slot and
one trigger-once type: it is run at most once; an {lit}`emplace` that returned
false does not run it and has seen an emission; a replaced or removed handler is
not run; an accepted one is in its cell before the emission, has been run when
the carrier has returned, and can be brought there by the carrier alone. -/
structure Delivered [DecidableEq κ] [DecidableEq ε] (s : System κ ε) (k : κ) (i : Index)
    (g : Nat) : Prop where
  once : s.invoked g ≤ 1
  pending : s.fate g = .pending → s.invoked g = 0
  refused : s.fate g = .rejected → s.invoked g = 0 ∧ has s.state i = true
  removed : s.fate g = .replaced ∨ s.fate g = .cleared → s.invoked g = 0
  registered : s.fate g = .accepted → has s.state i = false →
    s.handler k i = .handler g ∧ s.invoked g = 0
  notLost : s.fate g = .accepted → has s.state i = true →
    (∀ e, (s.emission e).Carries i → ∃ valid, s.emission e = .returned valid) → s.invoked g = 1
  delivery : s.fate g = .accepted → has s.state i = true →
    ∃ ls t, (∀ l ∈ ls, ∃ e, l = .emission e false) ∧ machine.run s ls = some t ∧ t.invoked g = 1

theorem DeliveryInv.delivered [DecidableEq κ] [DecidableEq ε] {s : System κ ε} {k : κ}
    {i : Index} (h : DeliveryInv k i s) (hi : isMultiTriggerSignal i = false) {g : Nat}
    (hlt : g < s.created) (hplace : s.place g = (k, i)) : Delivered s k i g := by
  have hsettled := h.handlers.settled g k i hlt hplace hi
  have hcellZero : s.handler k i = .handler g → s.invoked g = 0 := fun hcell =>
    (h.handlers.inCell k i g hcell).2.2.2 hi
  have hcallZero : ∀ e v, s.emission e = .call v i (.handler g) → s.invoked g = 0 :=
    fun e v hcall => ((h.handlers.inCall e v i g hcall).2.2 hi).2.1
  have hquiet : has s.state i = false → ∀ e, ¬ (s.emission e).Carries i := by
    intro hstate e hcarries
    rw [h.carrier.emitted e i hi hcarries] at hstate
    exact Bool.noConfusion hstate
  have haccepted : s.fate g = .accepted → (s.handler k i = .handler g ∨
      (∃ e v, s.emission e = .call v i (.handler g) ∧ v.slot = k) ∨
      (s.invoked g = 1 ∧ has s.state i = true)) := by
    intro hfate
    rwa [Settled, hfate] at hsettled
  refine ⟨?_, ?_, ?_, ?_, ?_, ?_, ?_⟩
  · cases hfate : s.fate g with
    | accepted =>
        rcases haccepted hfate with hcell | ⟨e, v, hcall, -⟩ | hdone
        · rw [hcellZero hcell]
          exact Nat.zero_le 1
        · rw [hcallZero e v hcall]
          exact Nat.zero_le 1
        · exact Nat.le_of_eq hdone.1
    | rejected =>
        rw [Settled, hfate] at hsettled
        rw [hsettled.1]
        exact Nat.zero_le 1
    | pending | replaced | cleared =>
        rw [Settled, hfate] at hsettled
        have hzero : s.invoked g = 0 := hsettled
        rw [hzero]
        exact Nat.zero_le 1
  · intro hfate
    rwa [Settled, hfate] at hsettled
  · intro hfate
    rwa [Settled, hfate] at hsettled
  · rintro (hfate | hfate) <;> rwa [Settled, hfate] at hsettled
  · intro hfate hstate
    rcases haccepted hfate with hcell | ⟨e, v, hcall, -⟩ | hdone
    · exact ⟨hcell, hcellZero hcell⟩
    · exact absurd (h.slot.carries_of_call hcall) (hquiet hstate e)
    · rw [hdone.2] at hstate
      exact Bool.noConfusion hstate
  · intro hfate hstate hreturned
    by_contra hnot
    rcases h.carrier.carried i hstate hi with ⟨e, hcarries⟩
    rcases hreturned e hcarries with ⟨valid, hpc⟩
    rcases h.carrier_active hi hlt hplace hfate hnot hcarries with hreaches | ⟨v, hcall⟩
    · rw [hpc] at hreaches
      exact hreaches
    · rw [hpc] at hcall
      cases hcall
  · intro hfate hstate
    exact h.exists_invoked hi hlt hplace hfate hstate

/-- A slot registers a handler for {lit}`Terminate` while an emission that
started before meets it. -/
def emitWhileEmplacing (k e : Fin 1) (i : Index) : List (Label (Fin 1) (Fin 1)) :=
  [.regist k 0xFFFFFFFFFFFFFFFF#64, .owner k false, .emplace k i, .owner k false, .owner k false,
    .owner k false, .emits e 1#64, .emission e true, .emission e false, .owner k false,
    .owner k false, .emission e false, .emission e false, .emission e false, .emission e false,
    .emission e false, .emission e false, .emission e false, .emission e false]

end Signal

end AsyncSimple
