import AsyncSimple.Coro.CollectAny

/-!
# Cancellation of {lit}`collectAny`

What the slot, the emission, the thread that suspends and the resumed coroutine
know about each other, for a filter that admits {lit}`Terminate`.

Main results:

- Theorem {lit}`SlotInv.visitStep`, {lit}`SlotInv.emplace` and
  {lit}`SlotInv.clear`: the invariant of the slot under the emission and under
  the two calls of the owner.
- Theorem {lit}`Doomed.start`: an emission that came before the coroutine
  continued makes {lit}`await_resume` throw.
-/

namespace AsyncSimple

open Transition Signal

namespace CollectAny

variable {n : Nat} {ε : Type} {α : Fin n → Type}

/-- The emission has exchanged the handler cell. -/
def Marked : VisitPc Handler Unit → Prop
  | .call _ => True
  | .passed marked => marked = true
  | _ => False

/-- The emission has found the manager of {lit}`Terminate`. -/
def Found : VisitPc Handler Unit → Prop
  | .chained _ found | .transfer _ found | .walk found | .passed found => found = true
  | .call _ => True
  | _ => False

/-- The emission loaded the managers before there was one for
{lit}`Terminate`. -/
def Missed : VisitPc Handler Unit → Prop
  | .chained _ found | .transfer _ found | .walk found | .passed found => found = false
  | _ => False

/-- Only an admitted signal gets beyond the load of the filter. -/
def Admitted : VisitPc Handler Unit → Prop
  | .managers admitted | .chained admitted _ => admitted = true
  | _ => True

/-- The handler is registered, if there is a slot. -/
def MainPc.Registered : MainPc → Prop
  | .loop _ | .returned true => True
  | _ => False

/-- The thread that suspends is done with the slot. -/
def MainPc.Settled : MainPc → Prop
  | .loop _ | .notSuspended | .returned _ => True
  | _ => False

/-- What the thread that suspends knows about the slot. -/
def MainPc.Knows (hasSlot : Bool) (slot : TerminateSlot Handler Unit) : MainPc → Prop
  | .ready | .chain | .emplace (.emplaceLookup .cancel) => True
  | .emplace (.cell (.emplaceTest .cancel)) => slot.manager = true
  | .emplace (.cell (.emplaceLoad .cancel)) => slot.manager = true ∧ ¬ Missed slot.visit
  | .emplace (.cell (.emplaceCas .cancel old)) =>
      slot.manager = true ∧ ¬ Missed slot.visit ∧ old ≠ .emittedTag ∧
        (slot.cell = old ∨ slot.cell = .emittedTag)
  | .loop _ | .returned true => hasSlot = true → slot.manager = true ∧ ¬ Missed slot.visit
  | .notSuspended | .returned false => slot.state = true
  | .emplace _ | .aborted => False

/-- What the coroutine knows about the slot in {lit}`await_resume`. -/
def CoroPc.Knows (slot : TerminateSlot Handler Unit) : CoroPc n ε α → Prop
  | .clear (.cell (.clearCas old)) =>
      (∃ h, old = .handler h) ∧ (slot.cell = old ∨ slot.cell = .emittedTag)
  | .clear .clearLookup | .clear (.cell .clearLoad) => True
  | .done .signalException => slot.state = true
  | .clear _ | .aborted => False
  | _ => True

/-- Where the emission is while it runs the cancel handler. -/
def HandlerPc.Knows (visit : VisitPc Handler Unit) : HandlerPc → Prop
  | .notRun => True
  | .counted _ => visit = .call (.handler .cancel)
  | .finished _ => visit = .passed true

/-- The coroutine will throw, or has thrown. -/
def CoroPc.Throws : CoroPc n ε α → Prop
  | .clear .clearLookup | .clear (.cell .clearLoad) | .canceled | .done .signalException => True
  | _ => False

/-- The slot and the parties that use it, as long as {lit}`Terminate` is emitted
only when the filter admits it. -/
structure SlotInv (cfg : Config n ε α) (slot : TerminateSlot Handler Unit) (main : MainPc)
    (coro : CoroPc n ε α) (handler : HandlerPc) : Prop where
  filter : slot.filter = cfg.filter
  admits : slot.state = true → cfg.filter = true
  noSlot : cfg.hasSlot = false → slot.visit = .notCalled
  emitted : slot.state = true ↔ slot.visit ≠ .notCalled
  admitted : Admitted slot.visit
  marked : slot.cell = .emittedTag ↔ Marked slot.visit
  found : Found slot.visit → slot.manager = true
  missed : slot.manager = false ∨ Missed slot.visit → slot.cell = .null
  mainKnows : main.Knows cfg.hasSlot slot
  coroKnows : coro.Knows slot
  handlerKnows : handler.Knows slot.visit
  cancel : slot.cell = .handler .cancel ∨ slot.visit = .call (.handler .cancel) ∨
    handler ≠ .notRun → main.Registered
  earlier : slot.cell = .handler .earlier → cfg.earlierHandler = true

theorem found_of_marked {visit : VisitPc Handler Unit} (h : Marked visit) : Found visit := by
  cases visit <;> first | exact h | exact h.elim

theorem not_missed_of_found {visit : VisitPc Handler Unit} (h : Found visit) : ¬ Missed visit := by
  cases visit <;> simp_all [Found, Missed]

/-- The emission can mark the cell and set the bit under the thread that
suspends, and can miss only a manager that does not exist. -/
theorem MainPc.Knows.emission {hasSlot : Bool} {slot slot' : TerminateSlot Handler Unit}
    {main : MainPc} (h : main.Knows hasSlot slot) (hmanager : slot'.manager = slot.manager)
    (hmissed : Missed slot'.visit → slot.manager = false ∨ Missed slot.visit)
    (hcell : slot'.cell = slot.cell ∨ slot'.cell = .emittedTag)
    (hstate : slot.state = true → slot'.state = true) : main.Knows hasSlot slot' := by
  have hnot : slot.manager = true ∧ ¬ Missed slot.visit →
      slot'.manager = true ∧ ¬ Missed slot'.visit := by
    rintro ⟨hm, hv⟩
    refine ⟨by rw [hmanager, hm], fun hv' => ?_⟩
    rcases hmissed hv' with hnone | hold
    · rw [hm] at hnone
      cases hnone
    · exact hv hold
  unfold MainPc.Knows at h
  split at h
  · trivial
  · trivial
  · trivial
  · exact hmanager.trans h
  · exact hnot h
  · rcases h with ⟨hm, hv, hold, hloaded⟩
    refine ⟨(hnot ⟨hm, hv⟩).1, (hnot ⟨hm, hv⟩).2, hold, ?_⟩
    rcases hcell with hsame | htag
    · rwa [hsame]
    · exact .inr htag
  · exact fun hslot => hnot (h hslot)
  · exact fun hslot => hnot (h hslot)
  · exact hstate h
  · exact hstate h
  · exact h.elim
  · exact h.elim

/-- A thread that is done with the slot does not rely on the cell. -/
theorem MainPc.Knows.of_settled {hasSlot : Bool} {slot slot' : TerminateSlot Handler Unit}
    {main : MainPc} (h : main.Knows hasSlot slot) (hsettled : main.Settled)
    (hmanager : slot'.manager = slot.manager) (hvisit : slot'.visit = slot.visit)
    (hstate : slot'.state = slot.state) : main.Knows hasSlot slot' := by
  unfold MainPc.Settled at hsettled
  split at hsettled
  · have hloop : hasSlot = true → slot.manager = true ∧ ¬ Missed slot.visit := h
    rw [← hmanager, ← hvisit] at hloop
    exact hloop
  · exact hstate.trans h
  · rename_i value
    cases value with
    | true =>
        have hreturned : hasSlot = true → slot.manager = true ∧ ¬ Missed slot.visit := h
        rw [← hmanager, ← hvisit] at hreturned
        exact hreturned
    | false => exact hstate.trans h
  · exact hsettled.elim

theorem CoroPc.Knows.emission {slot slot' : TerminateSlot Handler Unit} {coro : CoroPc n ε α}
    (h : coro.Knows slot) (hcell : slot'.cell = slot.cell ∨ slot'.cell = .emittedTag)
    (hstate : slot.state = true → slot'.state = true) : coro.Knows slot' := by
  unfold CoroPc.Knows at h
  split at h
  · rcases h with ⟨hold, hloaded⟩
    refine ⟨hold, ?_⟩
    rcases hcell with hsame | htag
    · rwa [hsame]
    · exact .inr htag
  · trivial
  · trivial
  · exact hstate h
  · exact h.elim
  · exact h.elim
  · unfold CoroPc.Knows
    split <;> first | trivial | simp_all

namespace SlotInv

variable {cfg : Config n ε α} {slot slot' : TerminateSlot Handler Unit} {main main' : MainPc}
  {coro coro' : CoroPc n ε α} {handler handler' : HandlerPc}

/-- What has to be checked for a step of the emission. -/
theorem emission (h : SlotInv cfg slot main coro handler)
    (hfilter : slot'.filter = slot.filter) (hmanager : slot'.manager = slot.manager)
    (hopen : cfg.hasSlot = true ∧ cfg.filter = true) (hstate : slot'.state = true)
    (hvisit : slot'.visit ≠ .notCalled) (hadmitted : Admitted slot'.visit)
    (hmarked : slot'.cell = .emittedTag ↔ Marked slot'.visit)
    (hcell : slot'.cell = slot.cell ∨ slot'.cell = .emittedTag)
    (hfound : Found slot'.visit → slot.manager = true)
    (hmissed : Missed slot'.visit → slot.manager = false ∨ Missed slot.visit)
    (hhandler : handler'.Knows slot'.visit)
    (hcancel : slot'.visit = .call (.handler .cancel) ∨ handler' ≠ .notRun → main.Registered) :
    SlotInv cfg slot' main coro handler' where
  filter := hfilter.trans h.filter
  admits := fun _ => hopen.2
  noSlot := fun hnone => by
    rw [hopen.1] at hnone
    cases hnone
  emitted := iff_of_true hstate hvisit
  admitted := hadmitted
  marked := hmarked
  found := fun hv => hmanager.trans (hfound hv)
  missed := by
    intro hnot
    have hunmarked : slot'.cell ≠ .emittedTag := by
      intro htag
      have hv := found_of_marked (hmarked.mp htag)
      rcases hnot with hnone | hv'
      · rw [hmanager, hfound hv] at hnone
        cases hnone
      · exact not_missed_of_found hv hv'
    rw [hcell.resolve_right hunmarked]
    apply h.missed
    rcases hnot with hnone | hv'
    · exact .inl (hmanager ▸ hnone)
    · exact hmissed hv'
  mainKnows := h.mainKnows.emission hmanager hmissed hcell fun _ => hstate
  coroKnows := h.coroKnows.emission hcell fun _ => hstate
  handlerKnows := hhandler
  cancel := by
    rintro (hin | hv)
    · rcases hcell with hsame | htag
      · exact h.cancel (.inl (hsame ▸ hin))
      · rw [htag] at hin
        cases hin
    · exact hcancel hv
  earlier := by
    intro hin
    rcases hcell with hsame | htag
    · exact h.earlier (hsame ▸ hin)
    · rw [htag] at hin
      cases hin

/-- An emission is under way only where there is a slot whose filter admits it. -/
theorem open_of_visit (h : SlotInv cfg slot main coro handler) (hv : slot.visit ≠ .notCalled) :
    cfg.hasSlot = true ∧ cfg.filter = true :=
  ⟨Bool.eq_true_of_not_eq_false fun hnone => hv (h.noSlot hnone), h.admits (h.emitted.mpr hv)⟩

/-- Outside the call of its handler the cancel handler has not run or is done. -/
theorem handler_notRun (h : SlotInv cfg slot main coro handler)
    (hmarked : ¬ Marked slot.visit) : handler = .notRun := by
  have hknows := h.handlerKnows
  cases handler with
  | notRun => rfl
  | counted count =>
      have hv : slot.visit = .call (.handler .cancel) := hknows
      rw [hv] at hmarked
      exact (hmarked trivial).elim
  | finished count =>
      have hv : slot.visit = .passed true := hknows
      rw [hv] at hmarked
      exact (hmarked rfl).elim

/-- A step of the emission before it runs a handler. -/
theorem emission_unmarked (h : SlotInv cfg slot main coro handler)
    (hopen : cfg.hasSlot = true ∧ cfg.filter = true) (hbefore : ¬ Marked slot.visit)
    (hvisit : slot.visit ≠ .notCalled ∨ slot'.state = true)
    (hslot : slot' = { slot with state := slot'.state, visit := slot'.visit })
    (hstate : slot.state = true → slot'.state = true) (hcalled : slot'.visit ≠ .notCalled)
    (hadmitted : Admitted slot'.visit) (hmarked : ¬ Marked slot'.visit)
    (hfound : Found slot'.visit → slot.manager = true)
    (hmissed : Missed slot'.visit → slot.manager = false ∨ Missed slot.visit) :
    SlotInv cfg slot' main coro handler := by
  have hnotRun := h.handler_notRun hbefore
  have hset : slot'.state = true := hvisit.elim (fun hv => hstate (h.emitted.mpr hv)) id
  have hcell : slot'.cell = slot.cell := by rw [hslot]
  refine h.emission (by rw [hslot]) (by rw [hslot]) hopen hset hcalled hadmitted ?_
    (.inl hcell) hfound hmissed (by rw [hnotRun]; trivial) ?_
  · rw [hcell]
    exact iff_of_false (fun htag => hbefore (h.marked.mp htag)) hmarked
  · rintro (hv | hrun)
    · rw [hv] at hmarked
      exact (hmarked trivial).elim
    · exact (hrun hnotRun).elim

theorem emits (h : SlotInv cfg slot main coro handler)
    (hopen : cfg.hasSlot = true ∧ cfg.filter = true) (hemits : slot.emits = some slot') :
    SlotInv cfg slot' main coro handler := by
  unfold TerminateSlot.emits at hemits
  split at hemits
  case h_1 hv =>
    cases hemits
    exact h.emission_unmarked hopen (by rw [hv]; exact id) (.inr rfl) rfl (fun _ => rfl) nofun
      trivial id False.elim False.elim
  case h_2 => cases hemits

theorem visitStep (h : SlotInv cfg slot main coro handler)
    (hstep : slot.visitStep = some slot') : SlotInv cfg slot' main coro handler := by
  have hadmitted := h.admitted
  have hfound := h.found
  have hopen := h.open_of_visit
  unfold TerminateSlot.visitStep at hstep
  split at hstep
  case h_1 | h_2 | h_3 | h_4 => cases hstep
  case h_5 hv =>
    cases hstep
    have hcalled : slot.visit ≠ .notCalled := by rw [hv]; nofun
    exact h.emission_unmarked (hopen hcalled) (by rw [hv]; exact id) (.inl hcalled) rfl id nofun
      (h.filter.trans (hopen hcalled).2) id False.elim False.elim
  case h_6 admitted hv =>
    cases hstep
    have hcalled : slot.visit ≠ .notCalled := by rw [hv]; nofun
    rw [hv] at hadmitted
    exact h.emission_unmarked (hopen hcalled) (by rw [hv]; exact id) (.inl hcalled) rfl id nofun
      hadmitted id id .inl
  case h_7 admitted found hv =>
    have hcalled : slot.visit ≠ .notCalled := by rw [hv]; nofun
    rw [hv] at hadmitted hfound
    have htrue : admitted = true := hadmitted
    have hmissed : found = false → slot.manager = false ∨ Missed slot.visit := by
      rw [hv]
      exact .inr
    subst htrue
    split at hstep <;> cases hstep <;>
      exact h.emission_unmarked (hopen hcalled) (by rw [hv]; exact id) (.inl hcalled) rfl id nofun
        trivial id hfound hmissed
  case h_8 found hv =>
    have hbefore : ¬ Marked slot.visit := by rw [hv]; exact id
    have hcalled : slot.visit ≠ .notCalled := by rw [hv]; nofun
    rw [hv] at hfound
    split at hstep
    case isTrue htrue =>
      cases hstep
      have hnotRun := h.handler_notRun hbefore
      have hmanager := hfound htrue
      have hstate := h.emitted.mpr hcalled
      -- the handler that is taken out goes into the call
      cases hcell : slot.cell with
      | null =>
          exact h.emission rfl rfl (hopen hcalled) hstate nofun trivial (iff_of_true rfl rfl)
            (.inr rfl) (fun _ => hmanager) nofun (by rw [hnotRun]; trivial) (by simp [hnotRun])
      | emittedTag => exact (hbefore (h.marked.mp hcell)).elim
      | handler g =>
          refine h.emission rfl rfl (hopen hcalled) hstate nofun trivial (iff_of_true rfl trivial)
            (.inr rfl) (fun _ => hmanager) False.elim (by rw [hnotRun]; trivial) ?_
          rintro (htaken | hrun)
          · have hg : g = .cancel := by simpa using htaken
            exact h.cancel (.inl (hcell.trans (by rw [hg])))
          · exact (hrun hnotRun).elim
    case isFalse hfalse =>
      cases hstep
      refine h.emission_unmarked (hopen hcalled) hbefore (.inl hcalled) rfl id nofun trivial
        (by simp [Marked]) nofun ?_
      intro _
      rw [hv]
      exact .inr (Bool.eq_false_of_not_eq_true hfalse)

theorem transfer (h : SlotInv cfg slot main coro handler) {child : Unit} {found : Bool}
    (hv : slot.visit = .transfer child found) :
    SlotInv cfg { slot with visit := .walk found } main coro handler := by
  have hcalled : slot.visit ≠ .notCalled := by rw [hv]; nofun
  have hfound := h.found
  rw [hv] at hfound
  refine h.emission_unmarked (h.open_of_visit hcalled) (by rw [hv]; exact id) (.inl hcalled) rfl
    id nofun trivial id hfound ?_
  rw [hv]
  exact .inr

/-- The handler the emission has called returns. -/
theorem passed (h : SlotInv cfg slot main coro handler) {taken : Cell Handler}
    (hv : slot.visit = .call taken) (hhandler : handler'.Knows (.passed true))
    (hcancel : handler' ≠ .notRun → main.Registered) :
    SlotInv cfg { slot with visit := .passed true } main coro handler' := by
  have hcalled : slot.visit ≠ .notCalled := by rw [hv]; nofun
  have hmarked : Marked slot.visit := by rw [hv]; trivial
  refine h.emission rfl rfl (h.open_of_visit hcalled) (h.emitted.mpr hcalled) nofun trivial
    (iff_of_true (h.marked.mpr hmarked) rfl) (.inl rfl)
    (fun _ => h.found (found_of_marked hmarked)) nofun hhandler ?_
  rintro (htaken | hrun)
  · cases htaken
  · exact hcancel hrun

/-- The emission enters the cancel handler, which decrements the counter. -/
theorem counted (h : SlotInv cfg slot main coro handler) {count : Int}
    (hv : slot.visit = .call (.handler .cancel)) :
    SlotInv cfg slot main coro (.counted count) :=
  ⟨h.filter, h.admits, h.noSlot, h.emitted, h.admitted, h.marked, h.found, h.missed, h.mainKnows,
    h.coroKnows, hv, fun _ => h.cancel (.inr (.inl hv)), h.earlier⟩

/-! ### The thread that suspends -/

theorem setMain (h : SlotInv cfg slot main coro handler) (hknows : main'.Knows cfg.hasSlot slot)
    (hregistered : main.Registered → main'.Registered) : SlotInv cfg slot main' coro handler :=
  ⟨h.filter, h.admits, h.noSlot, h.emitted, h.admitted, h.marked, h.found, h.missed, hknows,
    h.coroKnows, h.handlerKnows, fun hin => hregistered (h.cancel hin), h.earlier⟩

theorem setCoro (h : SlotInv cfg slot main coro handler) (hknows : coro'.Knows slot) :
    SlotInv cfg slot main coro' handler :=
  ⟨h.filter, h.admits, h.noSlot, h.emitted, h.admitted, h.marked, h.found, h.missed,
    h.mainKnows, hknows, h.handlerKnows, h.cancel, h.earlier⟩

theorem setChained (h : SlotInv cfg slot main coro handler) (child : Option Unit) :
    SlotInv cfg { slot with chainedSignal := child } main coro handler :=
  ⟨h.filter, h.admits, h.noSlot, h.emitted, h.admitted, h.marked, h.found, h.missed,
    h.mainKnows.emission rfl .inr (.inl rfl) id, h.coroKnows.emission (.inl rfl) id,
    h.handlerKnows, h.cancel, h.earlier⟩

/-- Where a call of {lit}`emplace` leaves the thread that suspends. -/
def mainAfter : CallNext Handler → MainPc
  | .at pc => .emplace pc
  | .returns true => .loop 0
  | .returns false => .returned false
  | .aborts => .aborted

/-- The emission has marked the cell, so that the bit is set. -/
theorem state_of_tag (h : SlotInv cfg slot main coro handler) (htag : slot.cell = .emittedTag) :
    slot.state = true := by
  refine h.emitted.mpr fun hnone => ?_
  have hmarked := h.marked.mp htag
  rw [hnone] at hmarked
  exact hmarked

/-- A step of {lit}`emplace` while the coroutine is suspended. -/
theorem emplace {pc : CallPc Handler} (h : SlotInv cfg slot (.emplace pc) .suspended handler) :
    SlotInv cfg (slot.callStep pc).1 (mainAfter (slot.callStep pc).2) (.suspended : CoroPc n ε α)
      handler := by
  have hknows := h.mainKnows
  cases pc with
  | clearLookup => exact hknows.elim
  | emplaceLookup g =>
      cases g with
      | earlier => exact hknows.elim
      | cancel =>
          exact ⟨h.filter, h.admits, h.noSlot, h.emitted, h.admitted, h.marked, fun _ => rfl,
            fun hnot => h.missed (.inr (hnot.resolve_left nofun)), rfl, trivial, h.handlerKnows,
            h.cancel, h.earlier⟩
  | cell pc =>
      cases pc with
      | clearLoad | clearCas _ => exact hknows.elim
      | emplaceTest g =>
          cases g with
          | earlier => exact hknows.elim
          | cancel =>
              cases hs : slot.state with
              | true =>
                  rw [TerminateSlot.callStep_emplaceTest_triggered hs]
                  have hrefused : MainPc.Knows cfg.hasSlot slot (.returned false) := hs
                  exact h.setMain hrefused id
              | false =>
                  have hv : slot.visit = .notCalled := by
                    by_contra hv
                    rw [h.emitted.mpr hv] at hs
                    cases hs
                  have hnext : MainPc.Knows cfg.hasSlot slot
                      (.emplace (.cell (.emplaceLoad .cancel))) :=
                    ⟨hknows, by rw [hv]; exact id⟩
                  rw [TerminateSlot.callStep_emplaceTest hs]
                  exact h.setMain hnext id
      | emplaceLoad g =>
          cases g with
          | earlier => exact hknows.elim
          | cancel =>
              by_cases htag : slot.cell = .emittedTag
              · rw [TerminateSlot.callStep_emplaceLoad_emitted htag]
                have hrefused : MainPc.Knows cfg.hasSlot slot (.returned false) :=
                  h.state_of_tag htag
                exact h.setMain hrefused id
              · rw [TerminateSlot.callStep_emplaceLoad htag]
                have hnext : MainPc.Knows cfg.hasSlot slot
                    (.emplace (.cell (.emplaceCas .cancel slot.cell))) :=
                  ⟨hknows.1, hknows.2, htag, .inl rfl⟩
                exact h.setMain hnext id
      | emplaceCas g old =>
          cases g with
          | earlier => exact hknows.elim
          | cancel =>
              rcases hknows with ⟨hmanager, hmissed, hold, hloaded⟩
              by_cases hcell : slot.cell = old
              · have hunmarked : ¬ Marked slot.visit := fun hmarked =>
                  hold (hcell ▸ h.marked.mpr hmarked)
                rw [TerminateSlot.callStep_emplaceCas hcell]
                refine ⟨h.filter, h.admits, h.noSlot, h.emitted, h.admitted,
                  iff_of_false nofun hunmarked, h.found, ?_, fun _ => ⟨hmanager, hmissed⟩, trivial,
                  h.handlerKnows,
                  fun _ => trivial, nofun⟩
                rintro (hnone | hv)
                · rw [hmanager] at hnone
                  cases hnone
                · exact (hmissed hv).elim
              · have htag := hloaded.resolve_left hcell
                rw [TerminateSlot.callStep_emplaceCas_emitted hcell htag]
                have hrefused : MainPc.Knows cfg.hasSlot slot (.returned false) :=
                  h.state_of_tag htag
                exact h.setMain hrefused id

/-! ### The coroutine in {lit}`await_resume` -/

/-- Where a call of {lit}`clear` leaves the coroutine. -/
def coroAfter : CallNext Handler → CoroPc n ε α
  | .at pc => .clear pc
  | .returns true => .take
  | .returns false => .canceled
  | .aborts => .aborted

/-- A step of {lit}`clear` when the other thread is done with the slot. -/
theorem clear {pc : CallPc Handler} (h : SlotInv cfg slot main (.clear pc) handler)
    (hsettled : main.Settled) :
    SlotInv cfg (slot.callStep pc).1 main (coroAfter (slot.callStep pc).2) handler := by
  have hknows := h.coroKnows
  cases pc with
  | emplaceLookup g => exact hknows.elim
  | clearLookup =>
      cases hm : slot.manager with
      | true =>
          simp only [TerminateSlot.callStep, hm, if_true]
          exact h.setCoro trivial
      | false =>
          simp only [TerminateSlot.callStep, hm, Bool.false_eq_true, if_false]
          exact h.setCoro trivial
  | cell pc =>
      cases pc with
      | emplaceTest _ | emplaceLoad _ | emplaceCas _ _ => exact hknows.elim
      | clearLoad =>
          cases hcell : slot.cell with
          | null =>
              rw [TerminateSlot.callStep_clearLoad_empty (.inl hcell)]
              exact h.setCoro trivial
          | emittedTag =>
              rw [TerminateSlot.callStep_clearLoad_empty (.inr hcell)]
              exact h.setCoro trivial
          | handler g =>
              rw [TerminateSlot.callStep_clearLoad hcell]
              exact h.setCoro ⟨⟨g, rfl⟩, .inl hcell⟩
      | clearCas old =>
          rcases hknows with ⟨⟨g, rfl⟩, hloaded⟩
          by_cases hcell : slot.cell = .handler g
          · have hunmarked : ¬ Marked slot.visit := fun hmarked => by
              rw [h.marked.mpr hmarked] at hcell
              cases hcell
            rw [TerminateSlot.callStep_clearCas hcell]
            refine ⟨h.filter, h.admits, h.noSlot, h.emitted, h.admitted,
              iff_of_false (by simp) hunmarked, h.found, fun _ => rfl, ?_, trivial,
              h.handlerKnows, ?_, by simp⟩
            · exact h.mainKnows.of_settled hsettled rfl rfl rfl
            · exact fun hin => h.cancel (hin.imp_left (by simp))
          · have htag := hloaded.resolve_left hcell
            rw [TerminateSlot.callStep_clearCas_emitted hcell htag]
            exact h.setCoro trivial

end SlotInv

/-! ## Awaits that end with the exception -/

/-- The await did not suspend. -/
def MainPc.Refused : MainPc → Prop
  | .notSuspended | .returned false => True
  | _ => False

/-- Where the coroutine continues. -/
def CoroPc.start (hasSlot : Bool) : CoroPc n ε α :=
  if hasSlot then .clear .clearLookup else .take

/-- There is nothing to clear, and {lit}`Terminate` is in the state. -/
structure Doomed (slot : TerminateSlot Handler Unit) (coro : CoroPc n ε α) : Prop where
  state : slot.state = true
  empty : slot.cell = .null ∨ slot.cell = .emittedTag
  throws : coro.Throws

namespace Doomed

variable {cfg : Config n ε α} {slot slot' : TerminateSlot Handler Unit} {main : MainPc}
  {coro : CoroPc n ε α} {handler : HandlerPc}

theorem emission (h : Doomed slot coro)
    (hcell : slot'.cell = slot.cell ∨ slot'.cell = .emittedTag)
    (hstate : slot.state = true → slot'.state = true) : Doomed slot' coro := by
  refine ⟨hstate h.state, ?_, h.throws⟩
  rcases hcell with hsame | htag
  · rw [hsame]
    exact h.empty
  · exact .inr htag

theorem clear {pc : CallPc Handler} (h : Doomed slot (.clear pc : CoroPc n ε α)) :
    Doomed (slot.callStep pc).1 (SlotInv.coroAfter (slot.callStep pc).2 : CoroPc n ε α) := by
  have hthrows := h.throws
  cases pc with
  | emplaceLookup g => exact hthrows.elim
  | clearLookup =>
      cases hm : slot.manager with
      | true =>
          simp only [TerminateSlot.callStep, hm, if_true]
          exact ⟨h.state, h.empty, trivial⟩
      | false =>
          simp only [TerminateSlot.callStep, hm, Bool.false_eq_true, if_false]
          exact ⟨h.state, h.empty, trivial⟩
  | cell pc =>
      cases pc with
      | clearLoad =>
          rw [TerminateSlot.callStep_clearLoad_empty h.empty]
          exact ⟨h.state, h.empty, trivial⟩
      | _ => exact hthrows.elim

/-- An emission that has come to the handler before the coroutine continues, or
one that made the await not suspend. -/
theorem start (h : SlotInv cfg slot main coro handler)
    (hwhy : slot.visit.reached = true ∨ main.Refused ∧ cfg.earlierHandler = false) :
    Doomed slot (CoroPc.start cfg.hasSlot : CoroPc n ε α) := by
  have hstate : slot.state = true := by
    rcases hwhy with hreached | ⟨hrefused, -⟩
    · refine h.emitted.mpr fun hnone => ?_
      rw [hnone] at hreached
      cases hreached
    · have hknows := h.mainKnows
      unfold MainPc.Refused at hrefused
      split at hrefused
      · exact hknows
      · exact hknows
      · exact hrefused.elim
  have hslot : cfg.hasSlot = true := (h.open_of_visit (h.emitted.mp hstate)).1
  refine ⟨hstate, ?_, by rw [CoroPc.start, if_pos hslot]; trivial⟩
  rcases hwhy with hreached | ⟨hrefused, hearlier⟩
  · cases hv : slot.visit with
    | call taken => exact .inr (h.marked.mpr (by rw [hv]; trivial))
    | passed marked =>
        cases marked with
        | true => exact .inr (h.marked.mpr (by rw [hv]; rfl))
        | false => exact .inl (h.missed (.inr (by rw [hv]; rfl)))
    | _ =>
        rw [hv] at hreached
        cases hreached
  · cases hcell : slot.cell with
    | null => exact .inl rfl
    | emittedTag => exact .inr rfl
    | handler g =>
        cases g with
        | cancel =>
            have hregistered := h.cancel (.inl hcell)
            unfold MainPc.Refused at hrefused
            split at hrefused <;> first | exact hregistered.elim | exact hrefused.elim
        | earlier =>
            rw [h.earlier hcell] at hearlier
            cases hearlier

end Doomed

end CollectAny

end AsyncSimple
