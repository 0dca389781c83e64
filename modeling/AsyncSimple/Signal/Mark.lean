import AsyncSimple.Signal.Carrier

/-!
# The way of the carrier and the mark it leaves

For one slot and one trigger-once type the carrier of the type is either on its
way to the handler cell or has passed it.  A cell that holds {lit}`emittedTag`
has been passed, so that no emission finds the mark again.

Main results:

- Theorem {lit}`Forward.reaches`: local steps of the carrier do not miss a
  published cell of a slot whose filter admits the type.
- Theorem {lit}`TagInv.step`: {lit}`emittedTag` marks the cells the carrier has
  exchanged, and neither an emission nor an assertion meets it.
-/

namespace AsyncSimple

open Transition

namespace Signal

open SignalType

variable {κ ε : Type}

/-! ## The way of the carrier -/

/-- The call still has the cell of type {lit}`i` in slot {lit}`k` before it. -/
def EmissionPc.Reaches (k : κ) (i : Index) : EmissionPc κ → Prop
  | .head _ => True
  | .nodes _ rest => k ∈ rest
  | .managers v => (v.slot = k ∧ has v.state i = true) ∨ k ∈ v.rest
  | .chained v | .walk v | .call v _ _ =>
      (v.slot = k ∧ has v.state i = true ∧ i ∈ v.managers) ∨ k ∈ v.rest
  | _ => False

/-- Local steps never bring a cell back before a carrier. -/
theorem Forward.reaches_of_reaches {s : System κ ε} {pc pc' : EmissionPc κ}
    (h : Forward s pc pc') {k : κ} {i : Index} (hi : isMultiTriggerSignal i = false)
    (hcarries : pc.Carries i) (hreaches : pc'.Reaches k i) : pc.Reaches k i := by
  cases h with
  | none | start type | retry type expected | nothing type expected hvalid
  | again type expected hvalid =>
      simp [EmissionPc.Carries, EmissionPc.valid] at hcarries
  | head valid => trivial
  | finish valid => exact hreaches.elim
  | filter valid k' rest =>
      rcases hreaches with ⟨rfl, -⟩ | hrest
      · exact List.mem_cons_self
      · exact List.mem_cons_of_mem k' hrest
  | load v =>
      rcases hreaches with ⟨hslot, hbit, -⟩ | hrest
      · exact Or.inl ⟨hslot, hbit⟩
      · exact Or.inr hrest
  | chained v => exact hreaches
  | leave v hend => exact Or.inr hreaches
  | skip v j rest hm hbit =>
      rcases hreaches with ⟨hslot, hhas, hmem⟩ | hrest
      · exact Or.inl ⟨hslot, hhas, by rw [hm]; exact List.mem_cons_of_mem j hmem⟩
      · exact Or.inr hrest
  | multi v j rest hm hbit hj | multiCall v j rest hm hbit hj hfound =>
      have hji : j ≠ i := by
        rintro rfl
        rw [hi] at hj
        exact Bool.noConfusion hj
      rcases hreaches with ⟨hslot, hhas, hmem⟩ | hrest
      · refine Or.inl ⟨hslot, by simpa [Visit.done, hji] using hhas, ?_⟩
        rw [hm]
        exact List.mem_cons_of_mem j hmem
      · exact Or.inr hrest

/-- Local steps do not pass a published cell that the filter admits. -/
theorem Forward.reaches {s : System κ ε} {pc pc' : EmissionPc κ} (h : Forward s pc pc')
    {k : κ} {i : Index} (hi : isMultiTriggerSignal i = false) (hcarries : pc.Carries i)
    (hfilter : has (s.filter k) i = true) (hk : k ∈ s.slotsHead) (hmem : i ∈ s.managers k)
    (hreaches : pc.Reaches k i) : pc'.Reaches k i := by
  cases h with
  | none | start type | retry type expected | nothing type expected hvalid
  | again type expected hvalid => exact hreaches.elim
  | head valid => exact hk
  | finish valid => exact absurd hreaches List.not_mem_nil
  | filter valid k' rest =>
      rcases List.mem_cons.mp hreaches with rfl | hrest
      · refine Or.inl ⟨rfl, ?_⟩
        have hvalid : has valid i = true := hcarries
        simp [hvalid, hfilter]
      · exact Or.inr hrest
  | load v =>
      rcases hreaches with ⟨hslot, hbit⟩ | hrest
      · exact Or.inl ⟨hslot, hbit, by rw [hslot]; exact hmem⟩
      · exact Or.inr hrest
  | chained v => exact hreaches
  | leave v hend =>
      rcases hreaches with ⟨-, hbit, hin⟩ | hrest
      · rcases hend with hnil | hzero
        · rw [hnil] at hin
          exact absurd hin List.not_mem_nil
        · rw [hzero, has_zero] at hbit
          exact Bool.noConfusion hbit
      · exact hrest
  | skip v j rest hm hbit =>
      rcases hreaches with ⟨hslot, hhas, hin⟩ | hrest
      · rw [hm] at hin
        rcases List.mem_cons.mp hin with rfl | hin
        · rw [hbit] at hhas
          exact Bool.noConfusion hhas
        · exact Or.inl ⟨hslot, hhas, hin⟩
      · exact Or.inr hrest
  | multi v j rest hm hbit hj | multiCall v j rest hm hbit hj hfound =>
      have hji : j ≠ i := by
        rintro rfl
        rw [hi] at hj
        exact Bool.noConfusion hj
      rcases hreaches with ⟨hslot, hhas, hin⟩ | hrest
      · rw [hm] at hin
        rcases List.mem_cons.mp hin with rfl | hin
        · exact absurd rfl hji
        · exact Or.inl ⟨hslot, by simpa [Visit.done, hji] using hhas, hin⟩
      · exact Or.inr hrest

/-- The exchange of one cell leaves the way to the other cells as it was. -/
theorem reaches_afterExchange {v : Visit κ} {i j : Index} {rest : List Index} {k : κ}
    {found : Cell Nat} (hm : v.managers = j :: rest) (hother : ¬ (v.slot = k ∧ j = i)) :
    (afterExchange (v.done j rest) j found).Reaches k i ↔ (EmissionPc.walk v).Reaches k i := by
  have hreaches : (afterExchange (v.done j rest) j found).Reaches k i ↔
      (v.slot = k ∧ has (v.done j rest).state i = true ∧ i ∈ rest) ∨ k ∈ v.rest := by
    rw [afterExchange]
    split <;> exact Iff.rfl
  rw [hreaches]
  simp only [EmissionPc.Reaches, hm, Visit.done, has_xor, has_signal, List.mem_cons]
  by_cases hslot : v.slot = k
  · have hji : j ≠ i := fun hji => hother ⟨hslot, hji⟩
    simp [hji, Ne.symm hji]
  · simp [hslot]

/-- Behind its exchange the cell does not come again. -/
theorem not_reaches_afterExchange {slots : List κ} {managers : κ → List Index} {v : Visit κ}
    {j : Index} {rest : List Index} {found : Cell Nat} (hv : v.Sound slots managers)
    (hbit : has v.state j = true) :
    ¬ (afterExchange (v.done j rest) j found).Reaches v.slot j := by
  have hreaches : (afterExchange (v.done j rest) j found).Reaches v.slot j ↔
      (v.slot = v.slot ∧ has (v.done j rest).state j = true ∧ j ∈ rest) ∨ v.slot ∈ v.rest := by
    rw [afterExchange]
    split <;> exact Iff.rfl
  have hnotin := (List.nodup_cons.mp hv.nodup).1
  rw [hreaches]
  simp [Visit.done, hbit, hnotin]

/-- The exchange does not change what the call delivers. -/
theorem carries_afterExchange {v : Visit κ} {i j : Index} {rest : List Index}
    {found : Cell Nat} :
    (afterExchange (v.done j rest) j found).Carries i ↔ has v.valid i = true := by
  rw [afterExchange]
  split <;> exact Iff.rfl

/-! ## The mark of an emission -/

/-- What an owner knows about its cells: between its load and its exchange only
an emission can have changed the cell. -/
def OwnerPc.Sees (cells : Index → Cell Nat) : OwnerPc κ → Prop
  | .cell i (.emplaceCas _ old) => old ≠ .emittedTag ∧ (cells i = old ∨ cells i = .emittedTag)
  | .cell i (.clearCas old) =>
      (∃ h, old = .handler h) ∧ (cells i = old ∨ cells i = .emittedTag)
  | .aborted => False
  | _ => True

/-- A marked cell is behind the carrier of its type, and the mark is neither
found by an emission nor met by a failed assertion. -/
structure TagInv (s : System κ ε) : Prop where
  marked : ∀ k i, s.handler k i = .emittedTag → isMultiTriggerSignal i = false ∧
    ∃ e, (s.emission e).Carries i ∧ ¬ (s.emission e).Reaches k i
  sees : ∀ k, (s.owner k).Sees (s.handler k)
  found : ∀ e v i, s.emission e ≠ .call v i .emittedTag
  unused : s.tagUsed = false

theorem TagInv.initial (place₀ : κ × Index) :
    TagInv (System.initial place₀ : System κ ε) := by
  constructor <;> simp [System.initial, OwnerPc.Sees]

/-- A mark made by an emission is no surprise to the owner. -/
theorem OwnerPc.Sees.mark {cells : Index → Cell Nat} {pc : OwnerPc κ} (h : pc.Sees cells)
    (j : Index) : pc.Sees (Function.update cells j .emittedTag) := by
  cases pc with
  | cell i pc =>
      cases pc with
      | emplaceCas g old =>
          rcases h with ⟨hold, hcell⟩
          refine ⟨hold, ?_⟩
          by_cases hij : i = j
          · subst hij
            simp
          · simpa [hij] using hcell
      | clearCas old =>
          rcases h with ⟨hold, hcell⟩
          refine ⟨hold, ?_⟩
          by_cases hij : i = j
          · subst hij
            simp
          · simpa [hij] using hcell
      | emplaceTest g | emplaceLoad g | clearLoad => trivial
  | aborted => exact h
  | absent | registering filter next | idle | lookup i g | publish i g next => trivial

namespace TagInv

variable {s s' : System κ ε}

/-- The carrier that has marked a cell is the carrier of the type. -/
theorem not_reaches (h : TagInv s) (hcarrier : CarrierInv s) {k : κ} {i : Index} {e : ε}
    (hcell : s.handler k i = .emittedTag) (hcarries : (s.emission e).Carries i) :
    ¬ (s.emission e).Reaches k i := by
  rcases h.marked k i hcell with ⟨hi, e', hcarries', hnot⟩
  rw [hcarrier.unique e e' i hi hcarries hcarries']
  exact hnot

/-- The parts of the state the invariant speaks about. -/
theorem congr (h : TagInv s) (howner : s'.owner = s.owner) (hemission : s'.emission = s.emission)
    (hhandler : s'.handler = s.handler) (hused : s'.tagUsed = s.tagUsed) : TagInv s' := by
  rcases h with ⟨hmarked, hsees, hfound, hunused⟩
  constructor
  · rw [hhandler, hemission]; exact hmarked
  · rw [howner, hhandler]; exact hsees
  · rw [hemission]; exact hfound
  · rw [hused]; exact hunused

/-- Steps of a call of {lit}`emits` that change no cell. -/
theorem setEmission [DecidableEq ε] (h : TagInv s) {e : ε} {pc : EmissionPc κ}
    (hcarries : ∀ i, isMultiTriggerSignal i = false → (s.emission e).Carries i → pc.Carries i)
    (hreaches : ∀ k i, isMultiTriggerSignal i = false → (s.emission e).Carries i →
      pc.Reaches k i → (s.emission e).Reaches k i)
    (hfound : ∀ v i, pc ≠ .call v i .emittedTag) : TagInv (s.setEmission e pc) where
  marked := by
    intro k i hcell
    rcases h.marked k i hcell with ⟨hi, e', hcarries', hnot⟩
    refine ⟨hi, e', ?_⟩
    by_cases he : e' = e
    · subst he
      simp only [System.setEmission, Function.update_self]
      exact ⟨hcarries i hi hcarries', fun hr => hnot (hreaches k i hi hcarries' hr)⟩
    · simpa [System.setEmission, he] using And.intro hcarries' hnot
  sees := h.sees
  found := by
    intro e' v i
    by_cases he : e' = e
    · subst he
      simpa [System.setEmission] using hfound v i
    · simpa [System.setEmission, he] using h.found e' v i
  unused := h.unused

variable [DecidableEq κ]

theorem setOwner (h : TagInv s) {k : κ} {pc : OwnerPc κ} (hpc : pc.Sees (s.handler k)) :
    TagInv (s.setOwner k pc) where
  marked := h.marked
  sees := by
    intro k'
    by_cases hk : k' = k
    · subst hk
      simpa [System.setOwner] using hpc
    · simpa [System.setOwner, hk] using h.sees k'
  found := h.found
  unused := h.unused

/-- An owner writes a cell and leaves its call. -/
theorem setCell_idle (h : TagInv s) {k : κ} {i : Index} {cell : Cell Nat}
    (hcell : cell ≠ .emittedTag) : TagInv ((s.setCell k i cell).setOwner k .idle) where
  marked := by
    intro k' i' hmark
    refine h.marked k' i' ?_
    by_cases hk : k' = k
    · subst hk
      by_cases hi : i' = i
      · subst hi
        exact absurd (by simpa [System.setCell, System.setOwner] using hmark) hcell
      · simpa [System.setCell, System.setOwner, hi] using hmark
    · simpa [System.setCell, System.setOwner, hk] using hmark
  sees := by
    intro k'
    by_cases hk : k' = k
    · subst hk
      simp [System.setOwner, OwnerPc.Sees]
    · simpa [System.setCell, System.setOwner, hk] using h.sees k'
  found := h.found
  unused := h.unused

theorem cell (h : TagInv s) {k : κ} {i : Index} {pc : CellPc Nat}
    (hpc : s.owner k = .cell i pc) (hmove : CellMove s k i pc s') : TagInv s' := by
  have hsees := h.sees k
  rw [hpc] at hsees
  cases hmove with
  | tested g hstate => exact h.setOwner trivial
  | loaded g hcell => exact h.setOwner ⟨hcell, Or.inl rfl⟩
  | found g hcell => exact h.setOwner ⟨⟨g, rfl⟩, Or.inl hcell⟩
  | reject pc g hg hwhy =>
      have hidle : TagInv (s.setOwner k .idle) := h.setOwner trivial
      exact hidle.congr rfl rfl rfl rfl
  | quit pc hg => exact h.setOwner trivial
  | accept g hcell | replace g old hcell =>
      have hidle : TagInv ((s.setCell k i (.handler g)).setOwner k .idle) :=
        h.setCell_idle (by simp)
      exact hidle.congr rfl rfl rfl rfl
  | remove old hcell =>
      have hidle : TagInv ((s.setCell k i .null).setOwner k .idle) := h.setCell_idle (by simp)
      exact hidle.congr rfl rfl rfl rfl
  | empty old hcell hold => exact h.setCell_idle (by simp)
  | abort pc old hold hchanged htag =>
      exfalso
      rcases hold with ⟨g, rfl⟩ | rfl
      · rcases hsees.2 with heq | heq
        · exact hchanged heq
        · exact htag heq
      · rcases hsees.2 with heq | heq
        · exact hchanged heq
        · exact htag heq

theorem ownerMove (h : TagInv s) (hslot : SlotInv s) {k : κ} (hmove : OwnerMove s k s') :
    TagInv s' := by
  cases hmove with
  | regist filter hpc | retry filter next hpc => exact h.setOwner trivial
  | setFilter filter hpc => exact h.congr rfl rfl rfl rfl
  | emplace i hpc =>
      have hlookup : TagInv (s.setOwner k (.lookup i s.created)) := h.setOwner trivial
      exact hlookup.congr rfl rfl rfl rfl
  | clear i hpc hi => exact h.setOwner trivial
  | nothing hpc => exact h
  | register filter hpc =>
      have hidle : TagInv (s.setOwner k .idle) := h.setOwner trivial
      exact hidle.congr rfl rfl rfl rfl
  | present i g hpc hi => exact h.setOwner trivial
  | missing i g hpc hi => exact h.setOwner trivial
  | publish i g next hpc =>
      have htest : TagInv (s.setOwner k (.cell i (.emplaceTest g))) := h.setOwner trivial
      have hcells : (s.setCell k i .null).handler = s.handler := by
        rw [hslot.setCell_null_of_publish hpc]
      exact htest.congr rfl rfl hcells rfl
  | cell i pc s' hpc hmove => exact h.cell hpc hmove

variable [DecidableEq ε]

/-- The exchange marks a cell that was not marked before. -/
theorem exchange (h : TagInv s) (hcarrier : CarrierInv s) (hslot : SlotInv s) {e : ε}
    {v : Visit κ} {i : Index} {managers : List Index} (hpc : s.emission e = .walk v)
    (hm : v.managers = i :: managers) (hbit : has v.state i = true)
    (hi : isMultiTriggerSignal i = false) :
    s.handler v.slot i ≠ .emittedTag ∧
    TagInv ((s.setCell v.slot i .emittedTag).setEmission e
      (afterExchange (v.done i managers) i (s.handler v.slot i))) := by
  have hsound := hslot.visits e
  rw [hpc] at hsound
  have hcarries : (s.emission e).Carries i := by
    rw [hpc]
    exact Visit.Sound.within hsound i hbit
  have hreaches : (s.emission e).Reaches v.slot i := by
    rw [hpc]
    exact Or.inl ⟨rfl, hbit, by simp [hm]⟩
  have hnew : s.handler v.slot i ≠ .emittedTag := by
    intro hcell
    exact h.not_reaches hcarrier hcell hcarries hreaches
  refine ⟨hnew, ?_, ?_, ?_, h.unused⟩
  · intro k' i' hcell
    by_cases hsame : v.slot = k' ∧ i = i'
    · rcases hsame with ⟨rfl, rfl⟩
      refine ⟨hi, e, ?_, ?_⟩
      · simpa [System.setEmission, hpc, carries_afterExchange] using
          Visit.Sound.within hsound i hbit
      · simpa [System.setEmission] using not_reaches_afterExchange hsound hbit
    · have hcell' : s.handler k' i' = .emittedTag := by
        by_cases hk : k' = v.slot
        · have hi' : i' ≠ i := fun hi' => hsame ⟨hk.symm, hi'.symm⟩
          subst hk
          simpa [System.setEmission, System.setCell, hi'] using hcell
        · simpa [System.setEmission, System.setCell, hk] using hcell
      rcases h.marked k' i' hcell' with ⟨hlow, e', hcarries', hnot⟩
      refine ⟨hlow, e', ?_⟩
      by_cases he : e' = e
      · subst he
        rw [hpc] at hcarries' hnot
        simp only [System.setEmission, Function.update_self]
        exact ⟨carries_afterExchange.mpr hcarries',
          fun hr => hnot ((reaches_afterExchange hm hsame).mp hr)⟩
      · simpa [System.setEmission, System.setCell, he] using And.intro hcarries' hnot
  · intro k'
    by_cases hk : k' = v.slot
    · subst hk
      simpa [System.setEmission, System.setCell] using (h.sees v.slot).mark i
    · simpa [System.setEmission, System.setCell, hk] using h.sees k'
  · intro e' v' i'
    by_cases he : e' = e
    · subst he
      simp only [System.setEmission, Function.update_self, afterExchange]
      split
      · simp
      · intro heq
        injection heq with _ _ hfound
        exact hnew hfound
    · simpa [System.setEmission, System.setCell, he] using h.found e' v' i'

theorem emissionMove (h : TagInv s) (hcarrier : CarrierInv s) (hslot : SlotInv s) {e : ε}
    (hmove : EmissionMove s e s') : TagInv s' := by
  cases hmove with
  | forward pc hforward =>
      refine h.setEmission (fun i hi hc => (hforward.carries_iff hi).mpr hc)
        (fun k i hi hc hr => hforward.reaches_of_reaches hi hc hr) ?_
      rintro v i rfl
      rcases hforward.of_call with ⟨hmulti, hfound⟩
      rw [(h.marked v.slot i hfound.symm).1] at hmulti
      exact Bool.noConfusion hmulti
  | update type hpc =>
      have hhead : TagInv (s.setEmission e
          (.head (validSignal type s.state ||| (type &&& high32bitsMask)))) := by
        refine h.setEmission ?_ ?_ (by simp)
        · intro i _ hcarries
          rw [hpc] at hcarries
          simp [EmissionPc.Carries, EmissionPc.valid] at hcarries
        · intro k i _ hcarries
          rw [hpc] at hcarries
          simp [EmissionPc.Carries, EmissionPc.valid] at hcarries
      exact hhead.congr rfl rfl rfl rfl
  | exchange v i managers hpc hm hbit hi => exact (h.exchange hcarrier hslot hpc hm hbit hi).2
  | call v i found hpc =>
      have htag : found ≠ .emittedTag := by
        rintro rfl
        exact h.found e v i hpc
      have hran : TagInv (runHandler s found) := by
        cases found with
        | emittedTag => exact absurd rfl htag
        | null => exact h
        | handler g => exact h.congr rfl rfl rfl rfl
      have hsame : (runHandler s found).emission e = .call v i found := by
        cases found <;> exact hpc
      refine hran.setEmission ?_ ?_ (by simp)
      · intro j _ hcarries
        rw [hsame] at hcarries
        exact hcarries
      · intro k j _ _ hreaches
        rw [hsame]
        exact hreaches

theorem step (h : TagInv s) (hcarrier : CarrierInv s) (hslot : SlotInv s) {l : Label κ ε}
    (hstep : step s l = some s') : TagInv s' := by
  rcases step_cases hstep with ⟨k, hmove⟩ | ⟨e, hmove⟩
  · exact h.ownerMove hslot hmove
  · exact h.emissionMove hcarrier hslot hmove

end TagInv

end Signal

end AsyncSimple
