import AsyncSimple.Signal.Moves

/-!
# Which emission carries a signal type

A trigger-once type is handed to the slots by one call of {lit}`emits` only: the
one whose exchange has put it into the state of the signal, the carrier of the
type.  This module fixes the carrier and describes what is local to a call of
{lit}`emits` and to the owner of a slot.

Main results:

- Theorem {lit}`CarrierInv.step`: a type in the state has exactly one carrier.
- Theorem {lit}`Forward.sound`: the local variables of an emission.
- Theorem {lit}`SlotInv.step`: how slots, managers and cells hang together.
-/

namespace AsyncSimple

open Transition

namespace Signal

open SignalType

variable {κ ε : Type}

/-! ## The carrier of a type -/

/-- The types a call of {lit}`emits` has put into the state. -/
def EmissionPc.valid : EmissionPc κ → SignalType
  | .notCalled | .update _ _ => 0#64
  | .head valid | .nodes valid _ | .returned valid => valid
  | .managers v | .chained v | .walk v | .call v _ _ => v.valid

/-- The call delivers the type {lit}`i`. -/
def EmissionPc.Carries (i : Index) (pc : EmissionPc κ) : Prop :=
  has pc.valid i = true

/-- Local steps keep what a call delivers. -/
theorem Forward.carries_iff {s : System κ ε} {pc pc' : EmissionPc κ} (h : Forward s pc pc')
    {i : Index} (hi : isMultiTriggerSignal i = false) : pc'.Carries i ↔ pc.Carries i := by
  cases h with
  | nothing type expected hvalid | again type expected hvalid =>
      simp [EmissionPc.Carries, EmissionPc.valid, hvalid, hi]
  | _ => rfl

/-- Every trigger-once type in the state has one carrier, and there are no
other carriers. -/
structure CarrierInv (s : System κ ε) : Prop where
  emitted : ∀ e i, isMultiTriggerSignal i = false → (s.emission e).Carries i → has s.state i = true
  carried : ∀ i, has s.state i = true → isMultiTriggerSignal i = false →
    ∃ e, (s.emission e).Carries i
  unique : ∀ e e' i, isMultiTriggerSignal i = false → (s.emission e).Carries i →
    (s.emission e').Carries i → e = e'

theorem CarrierInv.initial (place₀ : κ × Index) :
    CarrierInv (System.initial place₀ : System κ ε) := by
  constructor <;> simp [System.initial, EmissionPc.Carries, EmissionPc.valid]

namespace CarrierInv

variable {s s' : System κ ε}

/-- Nothing changes for the carriers when all calls keep what they deliver. -/
theorem congr (h : CarrierInv s) (hstate : s'.state = s.state)
    (hvalid : ∀ e i, isMultiTriggerSignal i = false →
      ((s'.emission e).Carries i ↔ (s.emission e).Carries i)) : CarrierInv s' where
  emitted := by
    intro e i hi hcarries
    rw [hstate]
    exact h.emitted e i hi ((hvalid e i hi).mp hcarries)
  carried := by
    intro i hhas hi
    rw [hstate] at hhas
    rcases h.carried i hhas hi with ⟨e, he⟩
    exact ⟨e, (hvalid e i hi).mpr he⟩
  unique := by
    intro e e' i hi he he'
    exact h.unique e e' i hi ((hvalid e i hi).mp he) ((hvalid e' i hi).mp he')

variable [DecidableEq ε]

/-- A step of one call that keeps what it delivers. -/
theorem setEmission (h : CarrierInv s) {e : ε} {pc : EmissionPc κ} (hstate : s'.state = s.state)
    (hemission : s'.emission = Function.update s.emission e pc)
    (hvalid : ∀ i, isMultiTriggerSignal i = false →
      (pc.Carries i ↔ (s.emission e).Carries i)) : CarrierInv s' := by
  refine h.congr hstate ?_
  intro e' i hi
  rw [hemission]
  by_cases he : e' = e
  · subst he
    simpa using hvalid i hi
  · simp [he]

/-- The exchange of {lit}`UpdateState`: the call becomes the carrier of the
types that were not in the state. -/
theorem update (h : CarrierInv s) {e : ε} {type : SignalType}
    (hpc : s.emission e = .update type s.state) :
    CarrierInv { s.setEmission e
        (.head (validSignal type s.state ||| (type &&& high32bitsMask))) with
      state := s.state ||| type } := by
  have hnew : ∀ i, isMultiTriggerSignal i = false →
      (EmissionPc.Carries (κ := κ) i
        (.head (validSignal type s.state ||| (type &&& high32bitsMask))) ↔
        has type i = true ∧ has s.state i = false) := by
    intro i hi
    rw [EmissionPc.Carries, EmissionPc.valid, has_validSignal hi]
    simp
  refine ⟨?_, ?_, ?_⟩
  · intro e' i hi hcarries
    by_cases he : e' = e
    · subst he
      have htype := (hnew i hi).mp (by simpa [System.setEmission] using hcarries)
      simp [htype.1]
    · have hold := h.emitted e' i hi (by simpa [System.setEmission, he] using hcarries)
      simp [hold]
  · intro i hhas hi
    cases hold : has s.state i with
    | true =>
        rcases h.carried i hold hi with ⟨e', he'⟩
        have hne : e' ≠ e := by
          rintro rfl
          rw [hpc] at he'
          simp [EmissionPc.Carries, EmissionPc.valid] at he'
        exact ⟨e', by simpa [System.setEmission, hne] using he'⟩
    | false =>
        have htype : has type i = true := by simpa [hold] using hhas
        exact ⟨e, by simpa [System.setEmission] using (hnew i hi).mpr ⟨htype, hold⟩⟩
  · have hold : ∀ e' i, isMultiTriggerSignal i = false → e' ≠ e →
        (s.emission e').Carries i → ¬ (has type i = true ∧ has s.state i = false) := by
      intro e' i hi _ hcarries hfresh
      rw [h.emitted e' i hi hcarries] at hfresh
      exact Bool.noConfusion hfresh.2
    intro e₁ e₂ i hi h₁ h₂
    by_cases he₁ : e₁ = e
    · by_cases he₂ : e₂ = e
      · rw [he₁, he₂]
      · subst he₁
        have hfresh := (hnew i hi).mp (by simpa [System.setEmission] using h₁)
        exact absurd hfresh (hold e₂ i hi he₂ (by simpa [System.setEmission, he₂] using h₂))
    · by_cases he₂ : e₂ = e
      · subst he₂
        have hfresh := (hnew i hi).mp (by simpa [System.setEmission] using h₂)
        exact absurd hfresh (hold e₁ i hi he₁ (by simpa [System.setEmission, he₁] using h₁))
      · exact h.unique e₁ e₂ i hi (by simpa [System.setEmission, he₁] using h₁)
          (by simpa [System.setEmission, he₂] using h₂)

variable [DecidableEq κ]

/-- Every step keeps the carriers. -/
theorem step (h : CarrierInv s) {l : Label κ ε} (hstep : step s l = some s') :
    CarrierInv s' := by
  rcases step_cases hstep with ⟨k, hmove⟩ | ⟨e, hmove⟩
  · refine h.congr hmove.frame.1 ?_
    intro e i _
    rw [hmove.frame.2]
  · cases hmove with
    | forward pc hforward => exact h.setEmission rfl rfl fun j hj => hforward.carries_iff hj
    | update type hpc => exact h.update hpc
    | exchange v i managers hpc =>
        refine h.setEmission rfl rfl ?_
        intro j _
        rw [hpc, afterExchange]
        split <;> rfl
    | call v i found hpc =>
        have hemission : ((runHandler s found).setEmission e (.walk v)).emission =
            Function.update s.emission e (.walk v) := by
          cases found <;> rfl
        refine h.setEmission ?_ hemission ?_
        · cases found <;> rfl
        · intro j _
          rw [hpc]
          rfl

end CarrierInv

/-! ## Slots, managers and cells -/

/-- The slots of a visit are listed, each once, its types are among those the
call delivers, and its managers are published. -/
structure Visit.Sound (slots : List κ) (managers : κ → List Index) (v : Visit κ) : Prop where
  within : ∀ i, has v.state i = true → has v.valid i = true
  nodup : (v.slot :: v.rest).Nodup
  listed : v.slot :: v.rest ⊆ slots
  published : v.managers ⊆ managers v.slot

/-- The local variables of a call of {lit}`emits` are sound. -/
def EmissionPc.Sound (slots : List κ) (managers : κ → List Index) : EmissionPc κ → Prop
  | .nodes _ rest => rest.Nodup ∧ rest ⊆ slots
  | .managers v | .chained v | .walk v => v.Sound slots managers
  | .call v i found => v.Sound slots managers ∧ has v.valid i = true ∧ has v.state i = false ∧
      i ∈ managers v.slot ∧ found ≠ .null
  | _ => True

/-- Published slots and managers stay published. -/
theorem Visit.Sound.mono {slots slots' : List κ} {managers managers' : κ → List Index}
    {v : Visit κ} (h : v.Sound slots managers) (hslots : slots ⊆ slots')
    (hmanagers : ∀ k, managers k ⊆ managers' k) : v.Sound slots' managers' where
  within := h.within
  nodup := h.nodup
  listed := List.Subset.trans h.listed hslots
  published := List.Subset.trans h.published (hmanagers v.slot)

theorem EmissionPc.Sound.mono {slots slots' : List κ} {managers managers' : κ → List Index}
    {pc : EmissionPc κ} (h : pc.Sound slots managers) (hslots : slots ⊆ slots')
    (hmanagers : ∀ k, managers k ⊆ managers' k) : pc.Sound slots' managers' := by
  cases pc with
  | nodes valid rest => exact ⟨h.1, List.Subset.trans h.2 hslots⟩
  | managers v | chained v | walk v => exact Visit.Sound.mono h hslots hmanagers
  | call v i found =>
      rcases h with ⟨hv, hvalid, hstate, hi, hfound⟩
      exact ⟨hv.mono hslots hmanagers, hvalid, hstate, hmanagers v.slot hi, hfound⟩
  | notCalled | update type expected | head valid | returned valid => trivial

/-- Behind a manager the visit is still sound, and its type is done. -/
theorem Visit.Sound.done {slots : List κ} {managers : κ → List Index} {v : Visit κ} {i : Index}
    {rest : List Index} (h : v.Sound slots managers) (hm : v.managers = i :: rest)
    (hbit : has v.state i = true) :
    (v.done i rest).Sound slots managers ∧ has (v.done i rest).valid i = true ∧
      has (v.done i rest).state i = false ∧ i ∈ managers v.slot := by
  have hpublished := h.published
  rw [hm] at hpublished
  refine ⟨⟨?_, h.nodup, h.listed, ?_⟩, h.within i hbit, ?_, hpublished (by simp)⟩
  · intro j hj
    have hbit' : (has v.state j ^^ decide (i = j)) = true := by
      simpa [Visit.done] using hj
    by_cases hij : i = j
    · subst hij
      exact h.within i hbit
    · exact h.within j (by simpa [hij] using hbit')
  · intro j hj
    exact hpublished (List.mem_cons_of_mem i hj)
  · simp [Visit.done, hbit]

theorem Forward.sound {s : System κ ε} {pc pc' : EmissionPc κ} (h : Forward s pc pc')
    (hnodup : s.slotsHead.Nodup) (hsound : pc.Sound s.slotsHead s.managers) :
    pc'.Sound s.slotsHead s.managers := by
  cases h with
  | head valid => exact ⟨hnodup, List.Subset.refl _⟩
  | filter valid k rest =>
      refine ⟨?_, hsound.1, hsound.2, by simp⟩
      intro i hi
      simp only [has_and, Bool.and_eq_true] at hi
      exact hi.1
  | load v => exact ⟨hsound.within, hsound.nodup, hsound.listed, List.Subset.refl _⟩
  | chained v => exact hsound
  | leave v hend =>
      have hv : v.Sound s.slotsHead s.managers := hsound
      exact ⟨(List.nodup_cons.mp hv.nodup).2, fun k hk => hv.listed (List.mem_cons_of_mem _ hk)⟩
  | skip v i rest hm hbit =>
      have hpublished := hsound.published
      rw [hm] at hpublished
      exact ⟨hsound.within, hsound.nodup, hsound.listed,
        fun j hj => hpublished (List.mem_cons_of_mem i hj)⟩
  | multi v i rest hm hbit hi => exact (Visit.Sound.done hsound hm hbit).1
  | multiCall v i rest hm hbit hi hfound =>
      rcases Visit.Sound.done hsound hm hbit with ⟨hv, hvalid, hstate, hmem⟩
      exact ⟨hv, hvalid, hstate, hmem, hfound⟩
  | _ => trivial

/-- The slot of this owner is constructed. -/
def OwnerPc.Constructed : OwnerPc κ → Prop
  | .absent | .registering _ _ => False
  | _ => True

/-- What an owner knows about its managers. -/
def OwnerPc.Knows (managers : List Index) : OwnerPc κ → Prop
  | .publish i _ next => next = managers ∧ i ∉ managers
  | .cell i _ => i ∈ managers
  | _ => True

/-- Listed slots are the constructed ones, and only published cells of listed
slots are in use. -/
structure SlotInv (s : System κ ε) : Prop where
  nodup : s.slotsHead.Nodup
  listed : ∀ k, k ∈ s.slotsHead ↔ (s.owner k).Constructed
  visits : ∀ e, (s.emission e).Sound s.slotsHead s.managers
  knows : ∀ k, (s.owner k).Knows (s.managers k)
  occupied : ∀ k i, s.handler k i ≠ .null → i ∈ s.managers k ∧ k ∈ s.slotsHead

theorem SlotInv.initial (place₀ : κ × Index) :
    SlotInv (System.initial place₀ : System κ ε) := by
  constructor <;> simp [System.initial, OwnerPc.Constructed, EmissionPc.Sound, OwnerPc.Knows]

namespace SlotInv

variable {s s' : System κ ε}

/-- The parts of the state the invariant speaks about. -/
theorem congr (h : SlotInv s) (hslots : s'.slotsHead = s.slotsHead) (howner : s'.owner = s.owner)
    (hemission : s'.emission = s.emission) (hmanagers : s'.managers = s.managers)
    (hhandler : s'.handler = s.handler) : SlotInv s' := by
  rcases h with ⟨hnodup, hlisted, hvisits, hknows, hoccupied⟩
  constructor
  · rw [hslots]; exact hnodup
  · rw [hslots, howner]; exact hlisted
  · rw [hslots, hmanagers, hemission]; exact hvisits
  · rw [howner, hmanagers]; exact hknows
  · rw [hhandler, hmanagers, hslots]; exact hoccupied

/-- A call that is about to run a handler delivers its type. -/
theorem carries_of_call (h : SlotInv s) {e : ε} {v : Visit κ} {i : Index} {found : Cell Nat}
    (hcall : s.emission e = .call v i found) : (s.emission e).Carries i := by
  have hsound := h.visits e
  rw [hcall] at hsound ⊢
  exact hsound.2.1

/-- A visited cell may be written. -/
theorem setCell [DecidableEq κ] (h : SlotInv s) {k : κ} {i : Index} {cell : Cell Nat}
    (hi : i ∈ s.managers k) (hk : k ∈ s.slotsHead) : SlotInv (s.setCell k i cell) where
  nodup := h.nodup
  listed := h.listed
  visits := h.visits
  knows := h.knows
  occupied := by
    intro k' i' hne
    by_cases hk' : k' = k
    · subst hk'
      by_cases hi' : i' = i
      · subst hi'
        exact ⟨hi, hk⟩
      · exact h.occupied k' i' (by simpa [System.setCell, hi'] using hne)
    · exact h.occupied k' i' (by simpa [System.setCell, hk'] using hne)

theorem setEmission [DecidableEq ε] (h : SlotInv s) {e : ε} {pc : EmissionPc κ}
    (hpc : pc.Sound s.slotsHead s.managers) : SlotInv (s.setEmission e pc) where
  nodup := h.nodup
  listed := h.listed
  visits := by
    intro e'
    by_cases he : e' = e
    · subst he
      simpa [System.setEmission] using hpc
    · simpa [System.setEmission, he] using h.visits e'
  knows := h.knows
  occupied := h.occupied

theorem setOwner [DecidableEq κ] (h : SlotInv s) {k : κ} {pc : OwnerPc κ}
    (hconstructed : pc.Constructed ↔ (s.owner k).Constructed) (hknows : pc.Knows (s.managers k)) :
    SlotInv (s.setOwner k pc) where
  nodup := h.nodup
  listed := by
    intro k'
    by_cases hk : k' = k
    · subst hk
      simpa [System.setOwner, hconstructed] using h.listed k'
    · simpa [System.setOwner, hk] using h.listed k'
  visits := h.visits
  knows := by
    intro k'
    by_cases hk : k' = k
    · subst hk
      simpa [System.setOwner] using hknows
    · simpa [System.setOwner, hk] using h.knows k'
  occupied := h.occupied

variable [DecidableEq κ]

theorem register (h : SlotInv s) {k : κ} {filter : SignalType}
    (hpc : s.owner k = .registering filter s.slotsHead) :
    SlotInv { s.setOwner k .idle with
      slotsHead := k :: s.slotsHead
      filter := Function.update s.filter k filter } := by
  have hnew : k ∉ s.slotsHead := by
    rw [h.listed k, hpc]
    exact id
  refine ⟨List.nodup_cons.mpr ⟨hnew, h.nodup⟩, ?_, ?_, ?_, ?_⟩
  · intro k'
    by_cases hk : k' = k
    · subst hk
      simp [System.setOwner, OwnerPc.Constructed]
    · simpa [System.setOwner, hk] using h.listed k'
  · intro e
    exact (h.visits e).mono (fun _ hk => List.mem_cons_of_mem k hk) fun _ => List.Subset.refl _
  · intro k'
    by_cases hk : k' = k
    · subst hk
      simp [System.setOwner, OwnerPc.Knows]
    · simpa [System.setOwner, hk] using h.knows k'
  · intro k' i hne
    have hoccupied := h.occupied k' i hne
    exact ⟨hoccupied.1, List.mem_cons_of_mem k hoccupied.2⟩

theorem publish (h : SlotInv s) {k : κ} {i : Index} {g : Nat} {next : List Index}
    (hpc : s.owner k = .publish i g next) :
    SlotInv { (s.setOwner k (.cell i (.emplaceTest g))).setCell k i .null with
      managers := Function.update s.managers k (i :: next) } := by
  have hknows := h.knows k
  rw [hpc] at hknows
  rcases hknows with ⟨rfl, -⟩
  have hgrow : ∀ k', s.managers k' ⊆ Function.update s.managers k (i :: s.managers k) k' := by
    intro k' j hj
    by_cases hk : k' = k
    · subst hk
      simp [hj]
    · simpa [hk] using hj
  have hk : k ∈ s.slotsHead := by
    rw [h.listed k, hpc]
    trivial
  refine ⟨h.nodup, ?_, ?_, ?_, ?_⟩
  · intro k'
    by_cases hk' : k' = k
    · subst hk'
      simpa [System.setOwner, System.setCell, OwnerPc.Constructed] using hk
    · simpa [System.setOwner, System.setCell, hk'] using h.listed k'
  · intro e
    exact (h.visits e).mono (List.Subset.refl _) hgrow
  · intro k'
    by_cases hk' : k' = k
    · subst hk'
      simp [System.setOwner, System.setCell, OwnerPc.Knows]
    · simpa [System.setOwner, System.setCell, hk'] using h.knows k'
  · intro k' j hne
    by_cases hk' : k' = k
    · subst hk'
      by_cases hj : j = i
      · subst hj
        simp [System.setCell] at hne
      · have hoccupied := h.occupied k' j (by simpa [System.setCell, System.setOwner, hj] using hne)
        exact ⟨hgrow k' hoccupied.1, hoccupied.2⟩
    · have hoccupied := h.occupied k' j (by simpa [System.setCell, System.setOwner, hk'] using hne)
      exact ⟨hgrow k' hoccupied.1, hoccupied.2⟩

/-- The cell of a new manager is empty already. -/
theorem setCell_null_of_publish (h : SlotInv s) {k : κ} {i : Index} {g : Nat}
    {next : List Index} (hpc : s.owner k = .publish i g next) : s.setCell k i .null = s := by
  have hknows := h.knows k
  rw [hpc] at hknows
  have hnull : s.handler k i = .null := by
    by_contra hne
    exact hknows.2 (h.occupied k i hne).1
  have hself := s.setCell_self k i
  rwa [hnull] at hself

/-- Steps on a published cell. -/
theorem cell (h : SlotInv s) {k : κ} {i : Index} {pc : CellPc Nat}
    (hpc : s.owner k = .cell i pc) (hmove : CellMove s k i pc s') : SlotInv s' := by
  have hi : i ∈ s.managers k := by
    have hknows := h.knows k
    rw [hpc] at hknows
    exact hknows
  have hk : k ∈ s.slotsHead := by
    rw [h.listed k, hpc]
    trivial
  have hidle : ∀ t : System κ ε, SlotInv t → t.owner k = s.owner k →
      SlotInv (t.setOwner k .idle) := by
    intro t ht howner
    refine ht.setOwner ?_ trivial
    rw [howner, hpc]
    exact Iff.rfl
  have hon : ∀ pc', SlotInv (s.setOwner k (.cell i pc')) := by
    intro pc'
    refine h.setOwner ?_ hi
    rw [hpc]
    exact Iff.rfl
  cases hmove with
  | tested g hstate => exact hon _
  | loaded g hcell => exact hon _
  | found g hcell => exact hon _
  | reject pc g hg hwhy => exact (hidle s h rfl).congr rfl rfl rfl rfl rfl
  | quit pc hg => exact hidle s h rfl
  | accept g hcell => exact (hidle _ (h.setCell hi hk) rfl).congr rfl rfl rfl rfl rfl
  | replace g old hcell => exact (hidle _ (h.setCell hi hk) rfl).congr rfl rfl rfl rfl rfl
  | remove old hcell => exact (hidle _ (h.setCell hi hk) rfl).congr rfl rfl rfl rfl rfl
  | empty old hcell hold => exact hidle _ (h.setCell hi hk) rfl
  | abort pc old hold hchanged htag =>
      refine h.setOwner ?_ trivial
      rw [hpc]
      exact Iff.rfl

theorem ownerMove (h : SlotInv s) {k : κ} (hmove : OwnerMove s k s') : SlotInv s' := by
  cases hmove with
  | regist filter hpc | retry filter next hpc =>
      refine h.setOwner ?_ trivial
      rw [hpc]
      exact Iff.rfl
  | setFilter filter hpc => exact h.congr rfl rfl rfl rfl rfl
  | emplace i hpc =>
      have hlookup : SlotInv (s.setOwner k (.lookup i s.created)) := by
        refine h.setOwner ?_ trivial
        rw [hpc]
        exact Iff.rfl
      exact hlookup.congr rfl rfl rfl rfl rfl
  | clear i hpc hi =>
      refine h.setOwner ?_ hi
      rw [hpc]
      exact Iff.rfl
  | nothing hpc => exact h
  | register filter hpc => exact h.register hpc
  | present i g hpc hi =>
      refine h.setOwner ?_ hi
      rw [hpc]
      exact Iff.rfl
  | missing i g hpc hi =>
      refine h.setOwner ?_ ⟨rfl, hi⟩
      rw [hpc]
      exact Iff.rfl
  | publish i g next hpc => exact h.publish hpc
  | cell i pc s' hpc hmove => exact h.cell hpc hmove

variable [DecidableEq ε]

theorem emissionMove (h : SlotInv s) {e : ε} (hmove : EmissionMove s e s') : SlotInv s' := by
  have hsound := h.visits e
  cases hmove with
  | forward pc hforward => exact h.setEmission (hforward.sound h.nodup hsound)
  | update type hpc =>
      have hhead : SlotInv (s.setEmission e
          (.head (validSignal type s.state ||| (type &&& high32bitsMask)))) :=
        h.setEmission trivial
      exact hhead.congr rfl rfl rfl rfl rfl
  | exchange v i managers hpc hm hbit hi =>
      rw [hpc] at hsound
      rcases Visit.Sound.done hsound hm hbit with ⟨hv, hvalid, hstate, hmem⟩
      have hcell : SlotInv (s.setCell v.slot i .emittedTag) :=
        h.setCell hmem (hsound.listed (by simp))
      refine hcell.setEmission ?_
      rw [afterExchange]
      split
      · exact hv
      · next hfound => exact ⟨hv, hvalid, hstate, hmem, hfound⟩
  | call v i found hpc =>
      rw [hpc] at hsound
      have hran : SlotInv (runHandler s found) := by
        cases found <;> exact h.congr rfl rfl rfl rfl rfl
      refine hran.setEmission ?_
      cases found <;> exact hsound.1

/-- Every step keeps slots, managers and cells together. -/
theorem step (h : SlotInv s) {l : Label κ ε} (hstep : step s l = some s') : SlotInv s' := by
  rcases step_cases hstep with ⟨k, hmove⟩ | ⟨e, hmove⟩
  · exact h.ownerMove hmove
  · exact h.emissionMove hmove

end SlotInv

end Signal

end AsyncSimple
