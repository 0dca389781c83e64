import AsyncSimple.Signal.Mark

/-!
# What becomes of a handler

A handler object is with the owner that registers it, in its cell, with the
carrier that has taken it out of the cell, or it is done.  The record of its
fate and of its invocations agrees with that in every state.

Main results:

- Theorem {lit}`HandlerInv.step`: every step keeps the record of all handlers.
-/

namespace AsyncSimple

open Transition

namespace Signal

open SignalType

variable {κ ε : Type}

/-! ## What has become of the handlers -/

/-- The handler an owner is about to register, with its type. -/
def OwnerPc.emplacing : OwnerPc κ → Option (Index × Nat)
  | .lookup i h | .publish i h _ => some (i, h)
  | .cell i pc => pc.emplaced.map fun h => (i, h)
  | _ => none

/-- The record of a handler for a trigger-once type. -/
def Settled (s : System κ ε) (k : κ) (i : Index) (h : Nat) : Prop :=
  match s.fate h with
  | .pending | .replaced | .cleared => s.invoked h = 0
  | .rejected => s.invoked h = 0 ∧ has s.state i = true
  | .accepted => s.handler k i = .handler h ∨
      (∃ e v, s.emission e = .call v i (.handler h) ∧ v.slot = k) ∨
      (s.invoked h = 1 ∧ has s.state i = true)

/-- Every handler is where its record says: with its owner, in its cell, with
the carrier of its type, or done. -/
structure HandlerInv (s : System κ ε) : Prop where
  fresh : ∀ h, s.created ≤ h → s.fate h = .pending ∧ s.invoked h = 0
  emplacing : ∀ k i h, (s.owner k).emplacing = some (i, h) →
    h < s.created ∧ s.place h = (k, i) ∧ s.fate h = .pending
  inCell : ∀ k i h, s.handler k i = .handler h →
    h < s.created ∧ s.place h = (k, i) ∧ s.fate h = .accepted ∧
      (isMultiTriggerSignal i = false → s.invoked h = 0)
  inCall : ∀ e v i h, s.emission e = .call v i (.handler h) →
    h < s.created ∧ s.place h = (v.slot, i) ∧ (isMultiTriggerSignal i = false →
      s.fate h = .accepted ∧ s.invoked h = 0 ∧ s.handler v.slot i = .emittedTag)
  settled : ∀ h k i, h < s.created → s.place h = (k, i) → isMultiTriggerSignal i = false →
    Settled s k i h

theorem HandlerInv.initial (place₀ : κ × Index) :
    HandlerInv (System.initial place₀ : System κ ε) := by
  constructor <;> simp [System.initial, OwnerPc.emplacing]

namespace HandlerInv

variable {s s' : System κ ε}

/-- The parts of the state the invariant speaks about; the state of the signal
may grow. -/
theorem congr (h : HandlerInv s) (howner : s'.owner = s.owner)
    (hemission : s'.emission = s.emission) (hhandler : s'.handler = s.handler)
    (hcreated : s'.created = s.created) (hplace : s'.place = s.place) (hfate : s'.fate = s.fate)
    (hinvoked : s'.invoked = s.invoked)
    (hstate : ∀ i, has s.state i = true → has s'.state i = true) : HandlerInv s' := by
  rcases h with ⟨hfresh, hemplacing, hincell, hincall, hsettled⟩
  constructor
  · rw [hcreated, hfate, hinvoked]; exact hfresh
  · rw [howner, hcreated, hplace, hfate]; exact hemplacing
  · rw [hhandler, hcreated, hplace, hfate, hinvoked]; exact hincell
  · rw [hemission, hcreated, hplace, hfate, hinvoked, hhandler]; exact hincall
  · intro g k i hg hplace' hi
    rw [hcreated] at hg
    rw [hplace] at hplace'
    have hold := hsettled g k i hg hplace' hi
    unfold Settled at hold ⊢
    rw [hfate, hinvoked, hhandler, hemission]
    cases hf : s.fate g with
    | rejected =>
        rw [hf] at hold
        exact ⟨hold.1, hstate i hold.2⟩
    | accepted =>
        rw [hf] at hold
        exact hold.imp id (Or.imp id (And.imp id (hstate i)))
    | pending | replaced | cleared =>
        rw [hf] at hold
        exact hold

/-- A handler in its cell is not about to run. -/
theorem not_inCall (h : HandlerInv s) {k : κ} {i : Index} {g : Nat}
    (hcell : s.handler k i = .handler g) {e : ε} {v : Visit κ} {j : Index}
    (hj : isMultiTriggerSignal j = false) : s.emission e ≠ .call v j (.handler g) := by
  intro hcall
  rcases h.inCall e v j g hcall with ⟨-, hplace, hlow⟩
  have hplace' := (h.inCell k i g hcell).2.1
  rw [hplace] at hplace'
  cases hplace'
  have htag := (hlow hj).2.2
  rw [hcell] at htag
  cases htag

/-- A call of {lit}`emits` moves on and no handler that was about to run is
lost.  It may have found a multi-trigger handler. -/
theorem setEmission [DecidableEq ε] (h : HandlerInv s) {e : ε} {pc : EmissionPc κ}
    (hold : ∀ v i g, s.emission e ≠ .call v i (.handler g))
    (hnew : ∀ v i g, pc = .call v i (.handler g) →
      isMultiTriggerSignal i = true ∧ s.handler v.slot i = .handler g) :
    HandlerInv (s.setEmission e pc) where
  fresh := h.fresh
  emplacing := h.emplacing
  inCell := h.inCell
  inCall := by
    intro e' v i g hcall
    by_cases he : e' = e
    · subst he
      rcases hnew v i g (by simpa [System.setEmission] using hcall) with ⟨hi, hcell⟩
      rcases h.inCell v.slot i g hcell with ⟨hlt, hplace, -⟩
      refine ⟨hlt, hplace, fun hlow => ?_⟩
      rw [hi] at hlow
      exact Bool.noConfusion hlow
    · exact h.inCall e' v i g (by simpa [System.setEmission, he] using hcall)
  settled := by
    intro g k i hlt hplace hi
    have hsettled := h.settled g k i hlt hplace hi
    unfold Settled at hsettled ⊢
    cases hf : s.fate g with
    | accepted =>
        simp only [System.setEmission, hf] at hsettled ⊢
        refine hsettled.imp id (Or.imp ?_ id)
        rintro ⟨e', v, hcall, hslot⟩
        have he : e' ≠ e := by
          rintro rfl
          exact hold v i g hcall
        exact ⟨e', v, by simpa [he] using hcall, hslot⟩
    | pending | rejected | replaced | cleared => simpa [System.setEmission, hf] using hsettled

variable [DecidableEq κ]

/-- The owner moves on with its call, or out of it. -/
theorem setOwner (h : HandlerInv s) {k : κ} {pc : OwnerPc κ}
    (hpc : ∀ i g, pc.emplacing = some (i, g) → (s.owner k).emplacing = some (i, g)) :
    HandlerInv (s.setOwner k pc) where
  fresh := h.fresh
  emplacing := by
    intro k' i g hg
    by_cases hk : k' = k
    · subst hk
      exact h.emplacing k' i g (hpc i g (by simpa [System.setOwner] using hg))
    · exact h.emplacing k' i g (by simpa [System.setOwner, hk] using hg)
  inCell := h.inCell
  inCall := h.inCall
  settled := h.settled

/-- A new handler object. -/
theorem create (h : HandlerInv s) {k : κ} {i : Index} :
    HandlerInv { s.setOwner k (.lookup i s.created) with
      created := s.created + 1
      place := Function.update s.place s.created (k, i) } := by
  have hfresh := h.fresh s.created (Nat.le_refl _)
  have hold : ∀ g, g < s.created → Function.update s.place s.created (k, i) g = s.place g := by
    intro g hg
    exact Function.update_of_ne (Nat.ne_of_lt hg) _ _
  constructor
  · intro g hg
    exact h.fresh g (Nat.le_of_succ_le hg)
  · intro k' j g hg
    by_cases hk : k' = k
    · subst hk
      have hg' : i = j ∧ s.created = g := by
        simpa [System.setOwner, OwnerPc.emplacing] using hg
      rcases hg' with ⟨rfl, rfl⟩
      exact ⟨Nat.lt_succ_self _, by simp, hfresh.1⟩
    · rcases h.emplacing k' j g (by simpa [System.setOwner, hk] using hg) with ⟨hlt, hp, hf⟩
      exact ⟨Nat.lt_succ_of_lt hlt, (hold g hlt).trans hp, hf⟩
  · intro k' j g hg
    rcases h.inCell k' j g hg with ⟨hlt, hp, hrest⟩
    exact ⟨Nat.lt_succ_of_lt hlt, (hold g hlt).trans hp, hrest⟩
  · intro e v j g hg
    rcases h.inCall e v j g hg with ⟨hlt, hp, hrest⟩
    exact ⟨Nat.lt_succ_of_lt hlt, (hold g hlt).trans hp, hrest⟩
  · intro g k' j hg hp hj
    rcases Nat.lt_succ_iff_lt_or_eq.mp hg with hlt | rfl
    · exact h.settled g k' j hlt ((hold g hlt).symm.trans hp) hj
    · simp [Settled, System.setOwner, hfresh.1, hfresh.2]

omit [DecidableEq κ] in
/-- Handlers with different records are different. -/
theorem ne_of_fate {g g' : Nat} {fate fate' : Fate} (hg : s.fate g = fate)
    (hg' : s.fate g' = fate') (hne : fate' ≠ fate) : g' ≠ g := by
  rintro rfl
  exact hne (hg'.symm.trans hg)

/-- The record of a handler stays true when a cell is written that holds another one. -/
theorem settled_setCell {k k' : κ} {i j : Index} {g g' : Nat} {cell : Cell Nat} {fate : Fate}
    (hold : Settled s k' j g') (hne : g' ≠ g) (hcell : s.handler k i ≠ .handler g') :
    Settled ((s.setCell k i cell).setFate g fate) k' j g' := by
  have hcell' : s.handler k' j = .handler g' →
      (s.setCell k i cell).handler k' j = .handler g' := by
    intro hin
    have hsame : ¬ (k' = k ∧ j = i) := by
      rintro ⟨rfl, rfl⟩
      exact hcell hin
    rwa [System.setCell_handler_of_ne hsame]
  unfold Settled at hold ⊢
  simp only [System.setFate, Function.update_of_ne hne] at hold ⊢
  cases hf : s.fate g' with
  | accepted =>
      simp only [System.setCell] at hcell'
      simp only [System.setCell, hf] at hold ⊢
      exact hold.imp hcell' id
  | pending | rejected | replaced | cleared =>
      simpa [System.setCell, hf] using hold

/-- The {lit}`emplace` of this handler returns false. -/
theorem reject (h : HandlerInv s) {k : κ} {i : Index} {g : Nat}
    (hpc : (s.owner k).emplacing = some (i, g))
    (hemitted : isMultiTriggerSignal i = false → has s.state i = true) :
    HandlerInv ((s.setOwner k .idle).setFate g .rejected) := by
  rcases h.emplacing k i g hpc with ⟨hlt, hplace, hpending⟩
  have hother : ∀ g', s.fate g' = .accepted → g' ≠ g := fun g' haccepted =>
    ne_of_fate hpending haccepted (by simp)
  constructor
  · intro g' hg'
    have hne : g' ≠ g := Nat.ne_of_gt (Nat.lt_of_lt_of_le hlt hg')
    simpa [System.setFate, System.setOwner, hne] using h.fresh g' hg'
  · intro k' j g' hg'
    by_cases hk : k' = k
    · subst hk
      simp [System.setFate, System.setOwner, OwnerPc.emplacing] at hg'
    · rcases h.emplacing k' j g' (by simpa [System.setFate, System.setOwner, hk] using hg') with
        ⟨hlt', hp, hf⟩
      have hne : g' ≠ g := by
        rintro rfl
        rw [hplace] at hp
        exact hk (congrArg Prod.fst hp).symm
      exact ⟨hlt', hp, by simpa [System.setFate, System.setOwner, hne] using hf⟩
  · intro k' j g' hg'
    rcases h.inCell k' j g' hg' with ⟨hlt', hp, hf, hinvoked⟩
    exact ⟨hlt', hp, by simpa [System.setFate, System.setOwner, hother g' hf] using hf, hinvoked⟩
  · intro e v j g' hg'
    rcases h.inCall e v j g' hg' with ⟨hlt', hp, hlow⟩
    refine ⟨hlt', hp, fun hj => ?_⟩
    rcases hlow hj with ⟨hf, hrest⟩
    exact ⟨by simpa [System.setFate, System.setOwner, hother g' hf] using hf, hrest⟩
  · intro g' k' j hlt' hp hj
    by_cases hne : g' = g
    · subst hne
      have hp' : s.place g' = (k', j) := hp
      rw [hplace] at hp'
      cases hp'
      have hold := h.settled g' k i hlt' hplace hj
      rw [Settled, hpending] at hold
      simpa [Settled, System.setFate, System.setOwner] using And.intro hold (hemitted hj)
    · simpa [Settled, System.setFate, System.setOwner, hne] using h.settled g' k' j hlt' hp hj

/-- A handler is taken out of its cell by the owner. -/
theorem evict (h : HandlerInv s) {k : κ} {i : Index} {g : Nat} {fate : Fate}
    (hcell : s.handler k i = .handler g) (hfate : fate = .replaced ∨ fate = .cleared) :
    HandlerInv ((s.setCell k i .null).setFate g fate) := by
  rcases h.inCell k i g hcell with ⟨hlt, hplace, haccepted, hinvoked⟩
  have hnotin : ∀ k' j g', (s.setCell k i .null).handler k' j = .handler g' →
      s.handler k' j = .handler g' ∧ g' ≠ g := by
    intro k' j g' hg'
    by_cases hsame : k' = k ∧ j = i
    · rcases hsame with ⟨rfl, rfl⟩
      simp [System.setCell] at hg'
    · have hold : s.handler k' j = .handler g' := by
        rwa [System.setCell_handler_of_ne hsame] at hg'
      refine ⟨hold, ?_⟩
      rintro rfl
      have hp := (h.inCell k' j g' hold).2.1
      rw [hplace] at hp
      exact hsame ⟨(congrArg Prod.fst hp).symm, (congrArg Prod.snd hp).symm⟩
  constructor
  · intro g' hg'
    have hne : g' ≠ g := Nat.ne_of_gt (Nat.lt_of_lt_of_le hlt hg')
    simpa [System.setFate, System.setCell, hne] using h.fresh g' hg'
  · intro k' j g' hg'
    rcases h.emplacing k' j g' hg' with ⟨hlt', hp, hf⟩
    have hne : g' ≠ g := ne_of_fate haccepted hf (by simp)
    exact ⟨hlt', hp, by simpa [System.setFate, System.setCell, hne] using hf⟩
  · intro k' j g' hg'
    rcases hnotin k' j g' hg' with ⟨hold, hne⟩
    simpa [System.setFate, System.setCell, hne] using h.inCell k' j g' hold
  · intro e v j g' hg'
    rcases h.inCall e v j g' hg' with ⟨hlt', hp, hlow⟩
    refine ⟨hlt', hp, fun hj => ?_⟩
    rcases hlow hj with ⟨hf, hinv, htag⟩
    have hne : g' ≠ g := by
      rintro rfl
      exact h.not_inCall hcell hj hg'
    have hsame : ¬ (v.slot = k ∧ j = i) := by
      rintro ⟨rfl, rfl⟩
      rw [hcell] at htag
      cases htag
    exact ⟨by simpa [System.setFate, System.setCell, hne] using hf, hinv,
      (System.setCell_handler_of_ne hsame).trans htag⟩
  · intro g' k' j hlt' hp hj
    by_cases hne : g' = g
    · subst hne
      have hp' : s.place g' = (k', j) := hp
      rw [hplace] at hp'
      cases hp'
      rcases hfate with rfl | rfl <;>
        simpa [Settled, System.setFate, System.setCell] using hinvoked hj
    · exact settled_setCell (h.settled g' k' j hlt' hp hj) hne
        (by simpa [hcell] using Ne.symm hne)

/-- The {lit}`emplace` of this handler puts it into an empty cell. -/
theorem install (h : HandlerInv s) {k : κ} {i : Index} {g : Nat}
    (hpc : (s.owner k).emplacing = some (i, g)) (hcell : s.handler k i = .null) :
    HandlerInv (((s.setCell k i (.handler g)).setOwner k .idle).setFate g .accepted) := by
  rcases h.emplacing k i g hpc with ⟨hlt, hplace, hpending⟩
  have hinvoked : isMultiTriggerSignal i = false → s.invoked g = 0 := by
    intro hi
    have hold := h.settled g k i hlt hplace hi
    rwa [Settled, hpending] at hold
  have hother : ∀ g', s.fate g' = .accepted → g' ≠ g := fun g' haccepted =>
    ne_of_fate hpending haccepted (by simp)
  constructor
  · intro g' hg'
    have hne : g' ≠ g := Nat.ne_of_gt (Nat.lt_of_lt_of_le hlt hg')
    simpa [System.setFate, System.setOwner, System.setCell, hne] using h.fresh g' hg'
  · intro k' j g' hg'
    by_cases hk : k' = k
    · subst hk
      simp [System.setFate, System.setOwner, System.setCell, OwnerPc.emplacing] at hg'
    · rcases h.emplacing k' j g'
        (by simpa [System.setFate, System.setOwner, System.setCell, hk] using hg') with
        ⟨hlt', hp, hf⟩
      have hne : g' ≠ g := by
        rintro rfl
        rw [hplace] at hp
        exact hk (congrArg Prod.fst hp).symm
      exact ⟨hlt', hp, by simpa [System.setFate, System.setOwner, System.setCell, hne] using hf⟩
  · intro k' j g' hg'
    have hg'' : (s.setCell k i (.handler g)).handler k' j = .handler g' := hg'
    by_cases hsame : k' = k ∧ j = i
    · rcases hsame with ⟨rfl, rfl⟩
      rw [System.setCell_handler_self] at hg''
      cases hg''
      exact ⟨hlt, hplace, by simp [System.setFate], hinvoked⟩
    · rw [System.setCell_handler_of_ne hsame] at hg''
      rcases h.inCell k' j g' hg'' with ⟨hlt', hp, hf, hinv⟩
      exact ⟨hlt', hp, by
        simpa [System.setFate, System.setOwner, System.setCell, hother g' hf] using hf, hinv⟩
  · intro e v j g' hg'
    rcases h.inCall e v j g' hg' with ⟨hlt', hp, hlow⟩
    refine ⟨hlt', hp, fun hj => ?_⟩
    rcases hlow hj with ⟨hf, hinv, htag⟩
    have hsame : ¬ (v.slot = k ∧ j = i) := by
      rintro ⟨rfl, rfl⟩
      rw [hcell] at htag
      cases htag
    exact ⟨by simpa [System.setFate, System.setOwner, System.setCell, hother g' hf] using hf, hinv,
      (System.setCell_handler_of_ne hsame).trans htag⟩
  · intro g' k' j hlt' hp hj
    by_cases hne : g' = g
    · subst hne
      have hp' : s.place g' = (k', j) := hp
      rw [hplace] at hp'
      cases hp'
      simp [Settled, System.setFate, System.setOwner, System.setCell]
    · exact settled_setCell (h.settled g' k' j hlt' hp hj) hne (by simp [hcell])

theorem cell (h : HandlerInv s) (hcarrier : CarrierInv s) (htag : TagInv s) {k : κ} {i : Index}
    {pc : CellPc Nat} (hpc : s.owner k = .cell i pc) (hmove : CellMove s k i pc s') :
    HandlerInv s' := by
  have hsees := htag.sees k
  rw [hpc] at hsees
  have hquit : ∀ t : System κ ε, HandlerInv t → HandlerInv (t.setOwner k .idle) := by
    intro t ht
    exact ht.setOwner (by simp [OwnerPc.emplacing])
  cases hmove with
  | tested g hstate | loaded g hcell =>
      refine h.setOwner ?_
      rw [hpc]
      exact fun _ _ heq => heq
  | found g hcell => exact h.setOwner (by simp [OwnerPc.emplacing, CellPc.emplaced])
  | reject pc g hg hwhy =>
      have hemplacing : (s.owner k).emplacing = some (i, g) := by
        simp [hpc, OwnerPc.emplacing, hg]
      refine h.reject hemplacing ?_
      intro hi
      rcases hwhy with htriggered | hmark
      · simpa [System.triggered, hi] using htriggered
      · rcases (htag.marked k i hmark).2 with ⟨e, hcarries, -⟩
        exact hcarrier.emitted e i hi hcarries
  | quit pc hg => exact hquit s h
  | accept g hcell =>
      have hemplacing : (s.owner k).emplacing = some (i, g) := by
        simp [hpc, OwnerPc.emplacing, CellPc.emplaced]
      have hnull : s.handler k i = .null := by
        cases hc : s.handler k i with
        | null => rfl
        | emittedTag => exact absurd hc hsees.1
        | handler o => simp [hc, Cell.handler?] at hcell
      exact h.install hemplacing hnull
  | replace g old hcell =>
      have hevicted := h.evict hcell (Or.inl rfl)
      have hemplacing : (((s.setCell k i .null).setFate old .replaced).owner k).emplacing =
          some (i, g) := by
        simp [System.setFate, System.setCell, hpc, OwnerPc.emplacing, CellPc.emplaced]
      have hinstalled := hevicted.install hemplacing (by simp [System.setFate, System.setCell])
      refine hinstalled.congr rfl rfl ?_ rfl rfl rfl rfl fun _ hi => hi
      simp [System.setFate, System.setCell, System.setOwner]
  | remove old hcell =>
      have hevicted := hquit _ (h.evict hcell (Or.inr rfl))
      exact hevicted.congr rfl rfl rfl rfl rfl rfl rfl fun _ hi => hi
  | empty old hcell hold =>
      rcases hsees.1 with ⟨g, rfl⟩
      simp [Cell.handler?] at hold
  | abort pc old hold hchanged hmark => exact h.setOwner (by simp [OwnerPc.emplacing])

theorem ownerMove (h : HandlerInv s) (hcarrier : CarrierInv s) (hslot : SlotInv s)
    (htag : TagInv s) {k : κ} (hmove : OwnerMove s k s') : HandlerInv s' := by
  cases hmove with
  | regist filter hpc | retry filter next hpc => exact h.setOwner (by simp [OwnerPc.emplacing])
  | setFilter filter hpc => exact h.congr rfl rfl rfl rfl rfl rfl rfl fun _ hi => hi
  | emplace i hpc => exact h.create
  | clear i hpc hi => exact h.setOwner (by simp [OwnerPc.emplacing, CellPc.emplaced])
  | nothing hpc => exact h
  | register filter hpc =>
      have hidle : HandlerInv (s.setOwner k .idle) := h.setOwner (by simp [OwnerPc.emplacing])
      exact hidle.congr rfl rfl rfl rfl rfl rfl rfl fun _ hi => hi
  | present i g hpc hi | missing i g hpc hi =>
      refine h.setOwner ?_
      rw [hpc]
      exact fun _ _ heq => heq
  | publish i g next hpc =>
      have htest : HandlerInv (s.setOwner k (.cell i (.emplaceTest g))) := by
        refine h.setOwner ?_
        rw [hpc]
        exact fun _ _ heq => heq
      have hcells : (s.setCell k i .null).handler = s.handler := by
        rw [hslot.setCell_null_of_publish hpc]
      exact htest.congr rfl rfl hcells rfl rfl rfl rfl fun _ hi => hi
  | cell i pc s' hpc hmove => exact h.cell hcarrier htag hpc hmove

variable [DecidableEq ε]

/-- The carrier takes the handler out of its cell. -/
theorem exchange (h : HandlerInv s) {e : ε} {v w : Visit κ} {i : Index}
    (hpc : s.emission e = .walk v) (hslot : w.slot = v.slot) :
    HandlerInv ((s.setCell v.slot i .emittedTag).setEmission e
      (afterExchange w i (s.handler v.slot i))) := by
  have hcells : ∀ k j g, (s.setCell v.slot i .emittedTag).handler k j = .handler g →
      s.handler k j = .handler g := by
    intro k j g hg
    by_cases hsame : k = v.slot ∧ j = i
    · rcases hsame with ⟨rfl, rfl⟩
      simp at hg
    · rwa [System.setCell_handler_of_ne hsame] at hg
  have htags : ∀ k j, s.handler k j = .emittedTag →
      (s.setCell v.slot i .emittedTag).handler k j = .emittedTag := by
    intro k j htag
    by_cases hsame : k = v.slot ∧ j = i
    · rcases hsame with ⟨rfl, rfl⟩
      simp
    · rwa [System.setCell_handler_of_ne hsame]
  constructor
  · exact h.fresh
  · exact h.emplacing
  · intro k j g hg
    exact h.inCell k j g (hcells k j g hg)
  · intro e' v' j g hcall
    by_cases he : e' = e
    · subst he
      simp only [System.setEmission, Function.update_self, afterExchange] at hcall
      split at hcall
      · cases hcall
      · injection hcall with hv hi hfound
        subst hv hi
        rcases h.inCell v.slot i g hfound with ⟨hlt, hplace, haccepted, hinvoked⟩
        refine ⟨hlt, by rw [hslot]; exact hplace, fun hi => ⟨haccepted, hinvoked hi, ?_⟩⟩
        simp [System.setEmission, hslot]
    · rcases h.inCall e' v' j g
        (by simpa [System.setEmission, System.setCell, he] using hcall) with ⟨hlt, hplace, hlow⟩
      refine ⟨hlt, hplace, fun hj => ?_⟩
      rcases hlow hj with ⟨haccepted, hinvoked, htag⟩
      exact ⟨haccepted, hinvoked, htags v'.slot j htag⟩
  · intro g k j hlt hplace hj
    have hsettled := h.settled g k j hlt hplace hj
    unfold Settled at hsettled ⊢
    cases hf : s.fate g with
    | accepted =>
        simp only [hf] at hsettled
        have hf' : ((s.setCell v.slot i .emittedTag).setEmission e
            (afterExchange w i (s.handler v.slot i))).fate g = .accepted := hf
        simp only [hf']
        rcases hsettled with hcell | ⟨e', v', hcall, hv'⟩ | hdone
        · by_cases hsame : k = v.slot ∧ j = i
          · rcases hsame with ⟨rfl, rfl⟩
            refine Or.inr (Or.inl ⟨e, w, ?_, hslot⟩)
            simp [System.setEmission, afterExchange, hcell]
          · refine Or.inl ?_
            have hsame' : (s.setCell v.slot i .emittedTag).handler k j = s.handler k j :=
              System.setCell_handler_of_ne hsame
            exact hsame'.trans hcell
        · have he : e' ≠ e := by
            rintro rfl
            rw [hpc] at hcall
            cases hcall
          refine Or.inr (Or.inl ⟨e', v', ?_, hv'⟩)
          simpa [System.setEmission, System.setCell, he] using hcall
        · exact Or.inr (Or.inr hdone)
    | pending | rejected | replaced | cleared =>
        simpa [System.setEmission, System.setCell, hf] using hsettled

omit [DecidableEq κ] in
/-- The handler is run. -/
theorem call (h : HandlerInv s) (hcarrier : CarrierInv s) (hslot : SlotInv s) {e : ε}
    {v : Visit κ} {i : Index} {g : Nat} (hpc : s.emission e = .call v i (.handler g)) :
    HandlerInv ((runHandler s (.handler g)).setEmission e (.walk v)) := by
  rcases h.inCall e v i g hpc with ⟨hlt, hplace, hlow⟩
  have hcarries : ∀ e' v', s.emission e' = .call v' i (.handler g) →
      isMultiTriggerSignal i = false → e' = e := by
    intro e' v' hcall hi
    exact hcarrier.unique e' e i hi (hslot.carries_of_call hcall) (hslot.carries_of_call hpc)
  have hinvoked : ∀ g', g' ≠ g →
      ((runHandler s (.handler g)).setEmission e (.walk v)).invoked g' = s.invoked g' := by
    intro g' hne
    simp [runHandler, System.setEmission, hne]
  constructor
  · intro g' hg'
    have hne : g' ≠ g := Nat.ne_of_gt (Nat.lt_of_lt_of_le hlt hg')
    rw [hinvoked g' hne]
    exact h.fresh g' hg'
  · exact h.emplacing
  · intro k j g' hcell
    have hcell' : s.handler k j = .handler g' := hcell
    rcases h.inCell k j g' hcell' with ⟨hlt', hplace', haccepted, hinv⟩
    refine ⟨hlt', hplace', haccepted, fun hj => ?_⟩
    have hne : g' ≠ g := by
      rintro rfl
      rw [hplace] at hplace'
      cases hplace'
      exact h.not_inCall hcell' hj hpc
    rw [hinvoked g' hne]
    exact hinv hj
  · intro e' v' j g' hcall
    have he : e' ≠ e := by
      rintro rfl
      simp [System.setEmission] at hcall
    have hcall' : s.emission e' = .call v' j (.handler g') := by
      simpa [System.setEmission, runHandler, he] using hcall
    rcases h.inCall e' v' j g' hcall' with ⟨hlt', hplace', hlow'⟩
    refine ⟨hlt', hplace', fun hj => ?_⟩
    have hne : g' ≠ g := by
      rintro rfl
      rw [hplace] at hplace'
      have hij : i = j := congrArg Prod.snd hplace'
      subst hij
      exact he (hcarries e' v' hcall' hj)
    rw [hinvoked g' hne]
    exact hlow' hj
  · intro g' k j hlt' hplace' hj
    have hsettled := h.settled g' k j hlt' hplace' hj
    by_cases hne : g' = g
    · subst hne
      have hp : s.place g' = (k, j) := hplace'
      rw [hplace] at hp
      cases hp
      rcases hlow hj with ⟨haccepted, hzero, -⟩
      have hemitted := hcarrier.emitted e i hj (hslot.carries_of_call hpc)
      simp [Settled, System.setEmission, runHandler, haccepted, hzero, hemitted]
    · unfold Settled at hsettled ⊢
      rw [hinvoked g' hne]
      cases hf : s.fate g' with
      | accepted =>
          simp only [hf] at hsettled
          simp only [System.setEmission, runHandler, hf]
          refine hsettled.imp id (Or.imp ?_ id)
          rintro ⟨e', v', hcall, hv'⟩
          have he : e' ≠ e := by
            rintro rfl
            rw [hpc] at hcall
            injection hcall with _ _ hg
            injection hg with hg
            exact hne hg.symm
          exact ⟨e', v', by simpa [he] using hcall, hv'⟩
      | pending | rejected | replaced | cleared =>
          simpa [System.setEmission, runHandler, hf] using hsettled

theorem emissionMove (h : HandlerInv s) (hcarrier : CarrierInv s) (hslot : SlotInv s)
    (htag : TagInv s) {e : ε} (hmove : EmissionMove s e s') : HandlerInv s' := by
  cases hmove with
  | forward pc hforward =>
      refine h.setEmission ?_ ?_
      · intro v i g hcall
        rw [hcall] at hforward
        exact hforward.not_call
      · rintro v i g rfl
        rcases hforward.of_call with ⟨hi, hfound⟩
        exact ⟨hi, hfound.symm⟩
  | update type hpc =>
      have hhead : HandlerInv (s.setEmission e
          (.head (validSignal type s.state ||| (type &&& high32bitsMask)))) :=
        h.setEmission (by simp [hpc]) (by simp)
      exact hhead.congr rfl rfl rfl rfl rfl rfl rfl fun i hi => by
        have hi' : has s.state i = true := hi
        simp [hi']
  | exchange v i managers hpc hm hbit hi =>
      exact h.exchange hpc rfl
  | call v i found hpc =>
      cases found with
      | handler g => exact h.call hcarrier hslot hpc
      | null => exact h.setEmission (by simp [hpc]) (by simp)
      | emittedTag => exact absurd hpc (htag.found e v i)

theorem step (h : HandlerInv s) (hcarrier : CarrierInv s) (hslot : SlotInv s) (htag : TagInv s)
    {l : Label κ ε} (hstep : step s l = some s') : HandlerInv s' := by
  rcases step_cases hstep with ⟨k, hmove⟩ | ⟨e, hmove⟩
  · exact h.ownerMove hcarrier hslot htag hmove
  · exact h.emissionMove hcarrier hslot htag hmove

end HandlerInv

/-! ## The fate of a handler is settled once -/

/-- A later call of the owner has taken the handler out of its cell. -/
def Fate.Removed (fate : Fate) : Prop :=
  fate = .replaced ∨ fate = .cleared

/-- A handler gets its fate from its {lit}`emplace`, and an accepted one can be removed. -/
theorem HandlerInv.fate_step [DecidableEq κ] [DecidableEq ε] {s s' : System κ ε}
    (h : HandlerInv s) {l : Label κ ε} (hstep : Signal.step s l = some s') (g : Nat) :
    s'.fate g = s.fate g ∨ s.fate g = .pending ∧ ¬ (s'.fate g).Removed ∨
      s.fate g = .accepted ∧ (s'.fate g).Removed := by
  rcases step_cases hstep with ⟨k, hmove⟩ | ⟨e, hmove⟩
  · cases hmove with
    | cell i pc s' hpc hmove =>
        have hpending : ∀ f, pc.emplaced = some f → s.fate f = .pending := fun f hf =>
          (h.emplacing k i f (by rw [hpc, OwnerPc.emplacing, hf]; rfl)).2.2
        cases hmove with
        | reject pc f hemplaced hwhy =>
            by_cases hg : g = f
            · subst hg
              exact .inr (.inl ⟨hpending g hemplaced, by simp [System.setFate, Fate.Removed]⟩)
            · exact .inl (Function.update_of_ne hg _ _)
        | accept f hcell =>
            by_cases hg : g = f
            · subst hg
              exact .inr (.inl ⟨hpending g rfl, by simp [System.setFate, Fate.Removed]⟩)
            · exact .inl (Function.update_of_ne hg _ _)
        | replace f old hcell =>
            by_cases hg : g = f
            · subst hg
              exact .inr (.inl ⟨hpending g rfl, by simp [System.setFate, Fate.Removed]⟩)
            · by_cases hold : g = old
              · subst hold
                refine .inr (.inr ⟨(h.inCell k i g hcell).2.2.1, .inl ?_⟩)
                simp [System.setFate, hg]
              · exact .inl (by simp [System.setFate, System.setOwner, System.setCell, hg, hold])
        | remove old hcell =>
            by_cases hold : g = old
            · subst hold
              refine .inr (.inr ⟨(h.inCell k i g hcell).2.2.1, .inr ?_⟩)
              simp [System.setFate]
            · exact .inl (Function.update_of_ne hold _ _)
        | _ => exact .inl rfl
    | _ => exact .inl rfl
  · rw [hmove.frame.2.2.2.2.2.2]
    exact .inl rfl

/-- What was refused stays refused. -/
theorem HandlerInv.rejected_step [DecidableEq κ] [DecidableEq ε] {s s' : System κ ε}
    (h : HandlerInv s) {l : Label κ ε} (hstep : Signal.step s l = some s') {g : Nat}
    (hg : s.fate g = .rejected) : s'.fate g = .rejected := by
  rcases h.fate_step hstep g with hsame | ⟨hpending, -⟩ | ⟨haccepted, -⟩
  · rw [hsame, hg]
  · rw [hg] at hpending
    cases hpending
  · rw [hg] at haccepted
    cases haccepted

/-- What was removed stays removed. -/
theorem HandlerInv.removed_step [DecidableEq κ] [DecidableEq ε] {s s' : System κ ε}
    (h : HandlerInv s) {l : Label κ ε} (hstep : Signal.step s l = some s') {g : Nat}
    (hg : (s.fate g).Removed) : (s'.fate g).Removed := by
  rcases h.fate_step hstep g with hsame | ⟨hpending, -⟩ | ⟨-, hremoved⟩
  · rwa [hsame]
  · rw [hpending] at hg
    rcases hg with hg | hg <;> cases hg
  · exact hremoved

/-! ## All runs -/

/-- What holds in every run, whatever the filters are. -/
structure Inv (s : System κ ε) : Prop where
  carrier : CarrierInv s
  slot : SlotInv s
  tag : TagInv s
  handlers : HandlerInv s

namespace Inv

theorem initial (place₀ : κ × Index) : Inv (System.initial place₀ : System κ ε) :=
  ⟨CarrierInv.initial place₀, SlotInv.initial place₀, TagInv.initial place₀,
    HandlerInv.initial place₀⟩

theorem step [DecidableEq κ] [DecidableEq ε] {s s' : System κ ε} (h : Inv s) {l : Label κ ε}
    (hstep : Signal.step s l = some s') : Inv s' :=
  ⟨h.carrier.step hstep, h.slot.step hstep, h.tag.step h.carrier h.slot hstep,
    h.handlers.step h.carrier h.slot h.tag hstep⟩

end Inv

end Signal

end AsyncSimple
