import AsyncSimple.Uthread.ContextSwitch

/-!
# Context switches follow the stacks

The links of the records spell, for every thread, a list of uthreads: those that are entered on
it, the innermost first.  Each stack below the innermost one waits in {lit}`switch_in`, and a
uthread that is not entered waits in {lit}`switch_out`, at the address that its record holds.  This
holds between the accesses of {lit}`switch_in`, {lit}`switch_out` and {lit}`s_main` as far as they
have come.

Main results:

- Theorem {lit}`At.next`: what one access does to the thread that makes it.
- Theorem {lit}`Inv.step`: the links and the waiting stacks spell the stacks of coroutines.
- Theorem {lit}`switches_follow_stacks`: in every run under the protocol there is no fault, what
  the callers see is a run of coroutines, and a thread executes its innermost coroutine.
-/

namespace AsyncSimple

open Transition
open Coroutines (Stacks Proper Status)

namespace ContextSwitch

variable {τ ι α : Type} {s s' : State τ ι α} {t t' : τ} {u v : ι} {a b : α}
  {o : Owner τ ι} {f : Frame ι} {l rest : List ι}

/-! ## Stacks that wait -/

/-- The stack of the innermost uthread, or the thread's own. -/
def top (t : τ) : List ι → Owner τ ι
  | [] => .thread t
  | u :: _ => .uthread u

/-- The stack belongs to the thread, or to a uthread of the list. -/
def Owns (t : τ) (l : List ι) : Owner τ ι → Prop
  | .thread t' => t' = t
  | .uthread u => u ∈ l

theorem owns_top : Owns t l (top t l) := by
  cases l with
  | nil => rfl
  | cons u rest => exact List.mem_cons_self

theorem Owns.cons (h : Owns t l o) : Owns t (u :: l) o := by
  cases o with
  | thread t' => exact h
  | uthread v => exact List.mem_cons_of_mem u h

theorem Owns.ne_uthread (h : Owns t l o) (hu : u ∉ l) : o ≠ .uthread u := by
  rintro rfl
  exact hu h

/-- The stack waits at the address in its record. -/
def State.Waits (s : State τ ι α) (o : Owner τ ι) (f : Frame ι) : Prop :=
  ∃ b, (s.record o).fcontext = some b ∧ s.parked b = some (o, f)

/-- The function of the uthread has begun on the uthread's own stack. -/
def State.Started (s : State τ ι α) (u : ι) : Prop :=
  (s.record (.uthread u)).thread = some u ∧ s.main (.uthread u) = some u

/-- The uthread was entered from the stack. -/
def State.Linked (s : State τ ι α) (u : ι) (o : Owner τ ι) : Prop :=
  (s.record (.uthread u)).link = some o

/-- The links lead along the list, and each stack below the first waits in the {lit}`switch_in` of
the one above it. -/
def State.Spine (s : State τ ι α) (t : τ) : List ι → Prop
  | [] => True
  | u :: rest => s.Started u ∧ s.Linked u (top t rest) ∧ s.Waits (top t rest) (.switchIn u) ∧
      s.Spine t rest

theorem State.Spine.congr (h : s.Spine t l) (hstarted : ∀ u ∈ l, s.Started u → s'.Started u)
    (hlinked : ∀ u ∈ l, ∀ o, s.Linked u o → s'.Linked u o)
    (hwaits : ∀ o f, Owns t l.tail o → s.Waits o f → s'.Waits o f) : s'.Spine t l := by
  induction l with
  | nil => trivial
  | cons u rest ih =>
      rcases h with ⟨hu, hlink, hbelow, hrest⟩
      refine ⟨hstarted u List.mem_cons_self hu, hlinked u List.mem_cons_self _ hlink,
        hwaits _ _ owns_top hbelow, ?_⟩
      refine ih hrest (fun v hv => hstarted v (List.mem_cons_of_mem u hv))
        (fun v hv => hlinked v (List.mem_cons_of_mem u hv)) fun o f ho => hwaits o f ?_
      cases rest with
      | nil => exact ho
      | cons v rest => exact ho.cons

/-- The thread executes its innermost uthread, and everything below waits. -/
structure State.Settled (s : State τ ι α) (t : τ) (l : List ι) : Prop where
  running : s.running t = top t l
  current : s.current t = some (top t l) ∨ l = [] ∧ s.current t = none
  spine : s.Spine t l

/-- The uthread can be entered. -/
def State.Ready (s : State τ ι α) (u : ι) : Prop :=
  (s.record (.uthread u)).thread = some u ∧
    (s.Waits (.uthread u) .start ∨
      s.Waits (.uthread u) (.switchOut u) ∧ s.main (.uthread u) = some u)

/-- The uthread has been jumped to, and the stack that it was entered from waits at the address. -/
structure State.Entering (s : State τ ι α) (t : τ) (u : ι) (rest : List ι) (a : α) : Prop where
  running : s.running t = .uthread u
  current : s.current t = some (.uthread u)
  thread : (s.record (.uthread u)).thread = some u
  linked : s.Linked u (top t rest)
  below : s.parked a = some (top t rest, .switchIn u)
  spine : s.Spine t rest

/-- What holds of a thread with these uthreads at each of its program points. -/
def At (s : State τ ι α) (t : τ) (l : List ι) : Pc ι α → Prop
  | .user => s.Settled t l
  | .setup u => ∃ rest, l = u :: rest ∧ s.Settled t rest
  | .exchange u => ∃ rest, l = u :: rest ∧ s.Settled t rest ∧ s.Ready u
  | .orUnthreaded u => ∃ rest, l = u :: rest ∧ s.running t = top t rest ∧
      s.current t = some (.uthread u) ∧ s.Spine t rest ∧ s.Ready u ∧
      (s.Linked u (top t rest) ∨ rest = [] ∧ (s.record (.uthread u)).link = none)
  | .jumpIn u => ∃ rest, l = u :: rest ∧ s.running t = top t rest ∧
      s.current t = some (.uthread u) ∧ s.Spine t rest ∧ s.Ready u ∧ s.Linked u (top t rest)
  | .storeIn u fctx => ∃ rest, l = u :: rest ∧ s.running t = top t rest ∧
      s.current t = some (top t rest) ∧ s.Spine t rest ∧ s.Started u ∧
      ∃ f, s.parked fctx = some (.uthread u, f) ∧ (s.done u = none → f = .switchOut u)
  | .restoreCurrent u => ∃ rest, l = u :: rest ∧ s.Settled t l
  | .jumpOut u => ∃ rest, l = u :: rest ∧ s.running t = .uthread u ∧
      s.current t = some (top t rest) ∧ s.Spine t l
  | .storeOut u fctx => ∃ rest, l = u :: rest ∧ s.Entering t u rest fctx ∧
      s.main (.uthread u) = some u
  | .assertCurrent fctx q => ∃ u rest, q = some u ∧ l = u :: rest ∧ s.Entering t u rest fctx
  | .storeMain fctx q => ∃ u rest, q = some u ∧ l = u :: rest ∧ s.Entering t u rest fctx
  | .restoreLast u => ∃ rest, l = u :: rest ∧ s.Settled t l ∧ s.done u ≠ none
  | .jumpLast u => ∃ rest, l = u :: rest ∧ s.running t = .uthread u ∧
      s.current t = some (top t rest) ∧ s.Spine t l ∧ s.done u ≠ none
  | .unreachable => False

/-! ## What other threads leave alone -/

/-- The step has left these stacks and their records alone. -/
structure SameFor (s s' : State τ ι α) (P : Owner τ ι → Prop) : Prop where
  record : ∀ o, P o → s'.record o = s.record o
  main : ∀ o, P o → s'.main o = s.main o
  done : ∀ u, P (.uthread u) → s'.done u = s.done u
  parked : ∀ b o f, P o → s.parked b = some (o, f) → s'.parked b = some (o, f)

namespace SameFor

variable {P : Owner τ ι → Prop}

theorem waits (h : SameFor s s' P) (ho : P o) (hwaits : s.Waits o f) : s'.Waits o f := by
  rcases hwaits with ⟨b, hrecord, hparked⟩
  exact ⟨b, (h.record o ho).symm ▸ hrecord, h.parked b o f ho hparked⟩

theorem started (h : SameFor s s' P) (hu : P (.uthread u)) (hstarted : s.Started u) :
    s'.Started u := by
  unfold State.Started
  rw [h.record _ hu, h.main _ hu]
  exact hstarted

theorem linked (h : SameFor s s' P) (hu : P (.uthread u)) (hlinked : s.Linked u o) :
    s'.Linked u o := by
  unfold State.Linked
  rw [h.record _ hu]
  exact hlinked

theorem ready (h : SameFor s s' P) (hu : P (.uthread u)) (hready : s.Ready u) : s'.Ready u := by
  rcases hready with ⟨hthread, hstart | ⟨hout, hmain⟩⟩
  · exact ⟨(h.record _ hu).symm ▸ hthread, .inl (h.waits hu hstart)⟩
  · exact ⟨(h.record _ hu).symm ▸ hthread, .inr ⟨h.waits hu hout, (h.main _ hu).symm ▸ hmain⟩⟩

theorem spine (h : SameFor s s' P) (hl : ∀ o, Owns t l o → P o) (hspine : s.Spine t l) :
    s'.Spine t l := by
  refine hspine.congr (fun u hu => h.started (hl (.uthread u) hu))
    (fun u hu o => h.linked (hl (.uthread u) hu)) fun o f ho => h.waits (hl o ?_)
  cases l with
  | nil => exact ho
  | cons v rest => exact ho.cons

theorem settled (h : SameFor s s' P) (hl : ∀ o, Owns t l o → P o)
    (hrunning : s'.running t = s.running t) (hcurrent : s'.current t = s.current t)
    (hsettled : s.Settled t l) : s'.Settled t l where
  running := hrunning.trans hsettled.running
  current := hcurrent.symm ▸ hsettled.current
  spine := h.spine hl hsettled.spine

theorem entering (h : SameFor s s' P) (hl : ∀ o, Owns t (u :: rest) o → P o)
    (hrunning : s'.running t = s.running t) (hcurrent : s'.current t = s.current t)
    (hentering : s.Entering t u rest a) : s'.Entering t u rest a where
  running := hrunning.trans hentering.running
  current := hcurrent.trans hentering.current
  thread := (h.record _ (hl (.uthread u) List.mem_cons_self)).symm ▸ hentering.thread
  linked := h.linked (hl (.uthread u) List.mem_cons_self) hentering.linked
  below := h.parked _ _ _ (hl _ owns_top.cons) hentering.below
  spine := h.spine (fun o ho => hl o ho.cons) hentering.spine

/-- A step that leaves the stacks of a thread alone leaves the thread where it was. -/
theorem at_pc (h : SameFor s s' P) (hl : ∀ o, Owns t l o → P o)
    (hrunning : s'.running t = s.running t) (hcurrent : s'.current t = s.current t)
    {pc : Pc ι α} (hat : At s t l pc) : At s' t l pc := by
  have hbelow : ∀ {v rest}, l = v :: rest → ∀ o, Owns t rest o → P o := by
    rintro v rest rfl o ho
    exact hl o ho.cons
  have hfirst : ∀ {v rest}, l = v :: rest → P (.uthread v) := by
    rintro v rest rfl
    exact hl (.uthread v) List.mem_cons_self
  cases pc with
  | user => exact h.settled hl hrunning hcurrent hat
  | setup v =>
      rcases hat with ⟨rest, hlist, hsettled⟩
      exact ⟨rest, hlist, h.settled (hbelow hlist) hrunning hcurrent hsettled⟩
  | exchange v =>
      rcases hat with ⟨rest, hlist, hsettled, hready⟩
      exact ⟨rest, hlist, h.settled (hbelow hlist) hrunning hcurrent hsettled,
        h.ready (hfirst hlist) hready⟩
  | orUnthreaded v =>
      rcases hat with ⟨rest, hlist, hrun, hcur, hspine, hready, hlink⟩
      refine ⟨rest, hlist, hrunning.trans hrun, hcurrent.trans hcur, h.spine (hbelow hlist) hspine,
        h.ready (hfirst hlist) hready, ?_⟩
      rw [h.record _ (hfirst hlist)]
      exact hlink.imp_left (h.linked (hfirst hlist))
  | jumpIn v =>
      rcases hat with ⟨rest, hlist, hrun, hcur, hspine, hready, hlink⟩
      exact ⟨rest, hlist, hrunning.trans hrun, hcurrent.trans hcur, h.spine (hbelow hlist) hspine,
        h.ready (hfirst hlist) hready, h.linked (hfirst hlist) hlink⟩
  | storeIn v fctx =>
      rcases hat with ⟨rest, hlist, hrun, hcur, hspine, hstarted, f, hparked, hdone⟩
      exact ⟨rest, hlist, hrunning.trans hrun, hcurrent.trans hcur, h.spine (hbelow hlist) hspine,
        h.started (hfirst hlist) hstarted, f, h.parked _ _ _ (hfirst hlist) hparked,
        (h.done v (hfirst hlist)).symm ▸ hdone⟩
  | restoreCurrent v =>
      rcases hat with ⟨rest, hlist, hsettled⟩
      exact ⟨rest, hlist, h.settled hl hrunning hcurrent hsettled⟩
  | jumpOut v =>
      rcases hat with ⟨rest, hlist, hrun, hcur, hspine⟩
      exact ⟨rest, hlist, hrunning.trans hrun, hcurrent.trans hcur, h.spine hl hspine⟩
  | storeOut v fctx =>
      rcases hat with ⟨rest, rfl, hentering, hmain⟩
      exact ⟨rest, rfl, h.entering hl hrunning hcurrent hentering,
        (h.main _ (hfirst rfl)).symm ▸ hmain⟩
  | assertCurrent fctx q =>
      rcases hat with ⟨v, rest, hq, rfl, hentering⟩
      exact ⟨v, rest, hq, rfl, h.entering hl hrunning hcurrent hentering⟩
  | storeMain fctx q =>
      rcases hat with ⟨v, rest, hq, rfl, hentering⟩
      exact ⟨v, rest, hq, rfl, h.entering hl hrunning hcurrent hentering⟩
  | restoreLast v =>
      rcases hat with ⟨rest, hlist, hsettled, hdone⟩
      exact ⟨rest, hlist, h.settled hl hrunning hcurrent hsettled,
        (h.done v (hfirst hlist)).symm ▸ hdone⟩
  | jumpLast v =>
      rcases hat with ⟨rest, hlist, hrun, hcur, hspine, hdone⟩
      exact ⟨rest, hlist, hrunning.trans hrun, hcurrent.trans hcur, h.spine hl hspine,
        (h.done v (hfirst hlist)).symm ▸ hdone⟩
  | unreachable => exact hat

end SameFor

/-! ## One access -/

/-- The uthread that the functions are about to leave. -/
def Pc.leaving : Pc ι α → Option ι
  | .storeIn u _ => some u
  | .restoreCurrent u => some u
  | .jumpOut u => some u
  | .restoreLast u => some u
  | .jumpLast u => some u
  | _ => none

@[simp]
theorem Pc.leaving_user : (Pc.user : Pc ι α).leaving = none :=
  rfl

namespace SameFor

variable {P Q : Owner τ ι → Prop} {data : Option ι} {frame : Frame ι}

theorem mono (h : SameFor s s' P) (hQ : ∀ o, Q o → P o) : SameFor s s' Q where
  record := fun o ho => h.record o (hQ o ho)
  main := fun o ho => h.main o (hQ o ho)
  done := fun u hu => h.done u (hQ _ hu)
  parked := fun b o f ho hb => h.parked b o f (hQ o ho) hb

theorem trans {s'' : State τ ι α} (h : SameFor s s' P) (h' : SameFor s' s'' P) :
    SameFor s s'' P where
  record := fun o ho => (h'.record o ho).trans (h.record o ho)
  main := fun o ho => (h'.main o ho).trans (h.main o ho)
  done := fun u hu => (h'.done u hu).trans (h.done u hu)
  parked := fun b o f ho hb => h'.parked b o f ho (h.parked b o f ho hb)

/-- Steps that change neither records nor stacks. -/
theorem of_eq (hrecord : s'.record = s.record) (hmain : s'.main = s.main)
    (hdone : s'.done = s.done) (hparked : s'.parked = s.parked) : SameFor s s' P where
  record := fun o _ => congrFun hrecord o
  main := fun o _ => congrFun hmain o
  done := fun u _ => congrFun hdone u
  parked := fun _ _ _ _ hb => hparked ▸ hb

theorem goto [DecidableEq τ] (s : State τ ι α) (t : τ) (pc : Pc ι α) : SameFor s (s.goto t pc) P :=
  of_eq rfl rfl rfl rfl

theorem setCurrent [DecidableEq τ] (s : State τ ι α) (t : τ) (o : Option (Owner τ ι)) :
    SameFor s (s.setCurrent t o) P :=
  of_eq rfl rfl rfl rfl

theorem setInside (s : State τ ι α) (inside : ι → Bool) :
    SameFor s { s with inside := inside } P :=
  of_eq rfl rfl rfl rfl

theorem setRecord [DecidableEq τ] [DecidableEq ι] (s : State τ ι α) (o : Owner τ ι)
    (r : JmpBufLink τ ι α) : SameFor s (s.setRecord o r) (· ≠ o) where
  record := fun o' ho' => by simp [State.setRecord, ho']
  main := fun _ _ => rfl
  done := fun _ _ => rfl
  parked := fun _ _ _ _ hb => hb

theorem setFcontext [DecidableEq τ] [DecidableEq ι] (s : State τ ι α) (o : Owner τ ι) (a : α) :
    SameFor s (s.setFcontext o a) (· ≠ o) :=
  setRecord s o _

/-- A new stack. -/
theorem parkNew [DecidableEq α] (hfree : s.parked a = none) (k : Owner τ ι × Frame ι) :
    SameFor s { s with parked := Function.update s.parked a (some k) } P where
  record := fun _ _ => rfl
  main := fun _ _ => rfl
  done := fun _ _ => rfl
  parked := fun b o f _ hb => by
    have hne : b ≠ a := by
      rintro rfl
      simp [hfree] at hb
    simp only [Function.update_of_ne hne]
    exact hb

theorem setMain [DecidableEq τ] [DecidableEq ι] (s : State τ ι α) (o : Owner τ ι) (m : Option ι) :
    SameFor s { s with main := Function.update s.main o m } (· ≠ o) where
  record := fun _ _ => rfl
  main := fun o' ho' => by simp [ho']
  done := fun _ _ => rfl
  parked := fun _ _ _ _ hb => hb

theorem jumped [DecidableEq τ] [DecidableEq α] (hb : s.parked b = some (o, f))
    (hfree : s.parked a = none) : SameFor s (s.jumped t a b data frame o f) (· ≠ o) where
  record := fun _ _ => rfl
  main := fun _ _ => rfl
  done := fun _ _ => rfl
  parked := fun c o' f' ho' hc => by
    refine Coroutines.exchange_of_waiting hfree ?_ hc
    rintro rfl
    rw [hb, Option.some.injEq, Prod.mk.injEq] at hc
    exact ho' hc.1.symm

end SameFor

/-- What the step of a thread with these uthreads leaves alone. -/
structure Stepped (s s' : State τ ι α) (t : τ) (l : List ι) : Prop where
  same : SameFor s s' fun o => ¬ Owns t l o
  others : ∀ t', t' ≠ t →
    s'.running t' = s.running t' ∧ s'.current t' = s.current t' ∧ s'.pc t' = s.pc t'
  leaving : (s'.pc t).leaving = (s.pc t).leaving ∨ ∃ v b, s.pc t = .storeIn v b
  inside : ∀ v, s'.inside v = s.inside v ∨ ∃ b, s.pc t = .storeIn v b
  own : ∀ t', (s'.record (.thread t')).thread = (s.record (.thread t')).thread ∧
    s'.main (.thread t') = s.main (.thread t')
  made : s'.made = s.made
  done : s'.done = s.done
  fault : s'.fault = s.fault

/-- What is left alone but for the stack of one owner is left alone but for those of the thread. -/
theorem SameFor.except (h : SameFor s s' (· ≠ o)) (ho : Owns t l o) :
    SameFor s s' fun o => ¬ Owns t l o :=
  h.mono fun _ hnot heq => hnot (heq ▸ ho)

/-- The uthreads below are not touched by what is done to the one above them. -/
theorem SameFor.spine_below (h : SameFor s s' (· ≠ .uthread u)) (hu : u ∉ rest)
    (hspine : s.Spine t rest) : s'.Spine t rest :=
  h.spine (fun _ ho => ho.ne_uthread hu) hspine

/-- What is below the innermost stack is not touched by what is done to this stack, as long as its
record keeps the link. -/
theorem SameFor.spine_of_top (h : SameFor s s' (· ≠ top t l)) (hnodup : l.Nodup)
    (hstarted : ∀ v, s.Started v → s'.Started v) (hlinked : ∀ v o, s.Linked v o → s'.Linked v o)
    (hspine : s.Spine t l) : s'.Spine t l := by
  cases l with
  | nil => trivial
  | cons v rest =>
      refine hspine.congr (fun w _ => hstarted w) (fun w _ => hlinked w) fun o f ho => ?_
      exact h.waits (ho.ne_uthread (List.nodup_cons.mp hnodup).1)

section Access

variable [DecidableEq τ] [DecidableEq ι]

theorem thread_setFcontext (s : State τ ι α) (o' : Owner τ ι) :
    ((s.setFcontext o a).record o').thread = (s.record o').thread := by
  simp only [State.setFcontext, State.setRecord, Function.update_apply]
  split
  · next heq => rw [heq]
  · rfl

theorem waits_setFcontext (hparked : s.parked a = some (o, f)) : (s.setFcontext o a).Waits o f :=
  ⟨a, by simp [State.setFcontext, State.setRecord], hparked⟩

/-- The innermost stack does not wait, so that its address may be written. -/
theorem spine_setFcontext_top (hnodup : l.Nodup) (hspine : s.Spine t l) :
    (s.setFcontext (top t l) a).Spine t l := by
  refine (SameFor.setRecord s (top t l) _).spine_of_top hnodup ?_ ?_ hspine
  · rintro v ⟨hthread, hmain⟩
    refine ⟨?_, hmain⟩
    simp only [State.setRecord, Function.update_apply]
    split
    · next heq => exact heq ▸ hthread
    · exact hthread
  · intro v o hlinked
    simp only [State.Linked, State.setRecord, Function.update_apply]
    split
    · next heq => exact heq ▸ hlinked
    · exact hlinked

/-- The uthread that has been jumped to is the innermost one when it has written the address of
the stack that it was entered from. -/
theorem State.Entering.settled (hnodup : (u :: rest).Nodup) (h : s.Entering t u rest a)
    (hmain : s.main (.uthread u) = some u) :
    (s.setFcontext (top t rest) a).Settled t (u :: rest) := by
  have hu := (List.nodup_cons.mp hnodup).1
  have hne : Owner.uthread u ≠ top t rest := (owns_top.ne_uthread hu).symm
  have hsame := SameFor.setFcontext s (top t rest) a
  exact
    { running := h.running
      current := .inl h.current
      spine := ⟨hsame.started hne ⟨h.thread, hmain⟩, hsame.linked hne h.linked,
        waits_setFcontext h.below,
        spine_setFcontext_top (List.nodup_cons.mp hnodup).2 h.spine⟩ }

end Access

variable {data : Option ι} {frame : Frame ι}

/-- A jump to a stack that waits. -/
theorem jump_eq_some [DecidableEq τ] [DecidableEq α]
    (hrecord : (s.record o).fcontext = some b) (hb : s.parked b = some (o, f))
    (hjump : s.jump t a (s.record o).fcontext data frame = some s') :
    s.parked a = none ∧ s' = s.jumped t a b data frame o f := by
  simp only [State.jump, hrecord, hb] at hjump
  split at hjump
  · next hfree => exact ⟨hfree, (Option.some.inj hjump).symm⟩
  · cases hjump

/-- A jump back arrives in the {lit}`switch_in` that has entered the uthread. -/
theorem jump_back [DecidableEq τ] [DecidableEq α] {target : Option α} (hnodup : (u :: rest).Nodup)
    (hrunning : s.running t = .uthread u) (hcurrent : s.current t = some (top t rest))
    (hspine : s.Spine t (u :: rest)) (hframe : s.done u = none → frame = .switchOut u)
    (htarget : target = (s.record (top t rest)).fcontext) (hleave : (s.pc t).leaving = some u)
    (hjump : s.jump t a target data frame = some s') :
    Stepped s s' t (u :: rest) ∧ At s' t (u :: rest) (s'.pc t) := by
  rcases hspine with ⟨hstarted, -, ⟨b, hrecord, hb⟩, hrest⟩
  rw [htarget] at hjump
  rcases jump_eq_some hrecord hb hjump with ⟨hfree, rfl⟩
  have hpc' : (s.jumped t a b data frame (top t rest) (.switchIn u)).pc t = .storeIn u a := by
    simp [State.jumped, Frame.resume]
  have hleaving : ((s.jumped t a b data frame (top t rest) (.switchIn u)).pc t).leaving =
      (s.pc t).leaving := by
    rw [hpc', hleave, Pc.leaving]
  have hsame : SameFor s (s.jumped t a b data frame (top t rest) (.switchIn u))
      (· ≠ top t rest) := SameFor.jumped hb hfree
  refine ⟨⟨hsame.except owns_top.cons, fun t' ht' => by simp [State.jumped, ht'],
    .inl hleaving, fun _ => .inl rfl, fun _ => ⟨rfl, rfl⟩, rfl, rfl, rfl⟩, ?_⟩
  rw [hpc']
  refine ⟨rest, rfl, by simp [State.jumped], hcurrent, ?_, hstarted, frame, ?_, hframe⟩
  · exact hsame.spine_of_top (List.nodup_cons.mp hnodup).2 (fun _ h => h) (fun _ _ h => h) hrest
  · simp [State.jumped, hrunning]

variable [DecidableEq τ] [DecidableEq ι] [DecidableEq α]

/-! ### Entering a uthread -/

theorem At.setup (hnodup : l.Nodup) (hpc : s.pc t = .setup u) (hat : At s t l (.setup u))
    (hstep : nextStep t a s = some s') : Stepped s s' t l ∧ At s' t l (s'.pc t) := by
  rcases hat with ⟨rest, rfl, hsettled⟩
  have hu := (List.nodup_cons.mp hnodup).1
  simp only [nextStep, hpc] at hstep
  split at hstep
  · next hfree =>
      cases hstep
      have hsame := ((SameFor.parkNew (P := (· ≠ .uthread u)) hfree (.uthread u, .start)).trans
        (SameFor.setRecord _ (.uthread u)
          { s.record (.uthread u) with fcontext := some a, thread := some u })).trans
        (SameFor.goto _ t (.exchange u))
      refine ⟨⟨hsame.except List.mem_cons_self, fun t' ht' => ?_,
        .inl (by simp [State.goto, hpc, Pc.leaving]), fun _ => .inl rfl, fun _ => ⟨rfl, rfl⟩,
        rfl, rfl, rfl⟩, ?_⟩
      · simp [State.goto, State.setRecord, ht']
      · simp only [State.goto, Function.update_self]
        refine ⟨rest, rfl, hsame.settled (fun o ho => ho.ne_uthread hu) rfl rfl hsettled, ?_, ?_⟩
        · simp [State.setRecord]
        · exact .inl ⟨a, by simp [State.setRecord], by simp [State.setRecord]⟩
  · cases hstep

theorem At.exchange (hnodup : l.Nodup) (hpc : s.pc t = .exchange u) (hat : At s t l (.exchange u))
    (hstep : nextStep t a s = some s') : Stepped s s' t l ∧ At s' t l (s'.pc t) := by
  rcases hat with ⟨rest, rfl, hsettled, hready⟩
  have hu := (List.nodup_cons.mp hnodup).1
  simp only [nextStep, hpc] at hstep
  cases hstep
  have hsame := (SameFor.setRecord s (.uthread u)
    { s.record (.uthread u) with link := s.current t }).trans
    ((SameFor.setCurrent _ t (some (.uthread u))).trans (SameFor.goto _ t (.orUnthreaded u)))
  refine ⟨⟨hsame.except List.mem_cons_self, fun t' ht' => ?_,
    .inl (by simp [State.goto, hpc, Pc.leaving]), fun _ => .inl rfl, fun _ => ⟨rfl, rfl⟩,
    rfl, rfl, rfl⟩, ?_⟩
  · simp [State.goto, State.setCurrent, State.setLink, State.setRecord, ht']
  · simp only [State.goto, State.setCurrent, State.setLink, Function.update_self]
    refine ⟨rest, rfl, hsettled.running, ?_, hsame.spine_below hu hsettled.spine, ?_, ?_⟩
    · simp
    · rcases hready with ⟨hthread, hwaits⟩
      refine ⟨by simp [State.setRecord, hthread], ?_⟩
      simpa [State.Waits, State.setRecord] using hwaits
    · -- the link is the current context, which may still be null on the thread's own stack
      rcases hsettled.current with hcurrent | ⟨hrest, hcurrent⟩
      · exact .inl (by simp [State.Linked, State.setRecord, hcurrent])
      · exact .inr ⟨hrest, by simp [State.setRecord, hcurrent]⟩

theorem At.orUnthreaded (hnodup : l.Nodup) (hpc : s.pc t = .orUnthreaded u)
    (hat : At s t l (.orUnthreaded u)) (hstep : nextStep t a s = some s') :
    Stepped s s' t l ∧ At s' t l (s'.pc t) := by
  rcases hat with ⟨rest, rfl, hrunning, hcurrent, hspine, hready, hlink⟩
  have hu := (List.nodup_cons.mp hnodup).1
  simp only [nextStep, hpc] at hstep
  split at hstep
  · next hnull =>
      cases hstep
      have hsame := (SameFor.setRecord s (.uthread u)
        { s.record (.uthread u) with link := some (.thread t) }).trans
        (SameFor.goto _ t (.jumpIn u))
      rcases hlink with hlink | ⟨rfl, -⟩
      · simp [State.Linked, hnull] at hlink
      · refine ⟨⟨hsame.except List.mem_cons_self, fun t' ht' => ?_,
          .inl (by simp [State.goto, hpc, Pc.leaving]), fun _ => .inl rfl, fun _ => ⟨rfl, rfl⟩,
          rfl, rfl, rfl⟩, ?_⟩
        · simp [State.goto, State.setLink, State.setRecord, ht']
        · simp only [State.goto, State.setLink, Function.update_self]
          refine ⟨[], rfl, hrunning, hcurrent, trivial, ?_, ?_⟩
          · rcases hready with ⟨hthread, hwaits⟩
            refine ⟨by simp [State.setRecord, hthread], ?_⟩
            simpa [State.Waits, State.setRecord] using hwaits
          · simp [State.Linked, State.setRecord, top]
  · next o hlinked =>
      cases hstep
      have hsame := SameFor.goto (P := fun _ => True) s t (.jumpIn u)
      refine ⟨⟨SameFor.goto s t _, fun t' ht' => ?_,
        .inl (by simp [State.goto, hpc, Pc.leaving]), fun _ => .inl rfl, fun _ => ⟨rfl, rfl⟩,
        rfl, rfl, rfl⟩, ?_⟩
      · simp [State.goto, ht']
      · simp only [State.goto, Function.update_self]
        refine ⟨rest, rfl, hrunning, hcurrent, hsame.spine (fun _ _ => trivial) hspine, hready, ?_⟩
        rcases hlink with hlink | ⟨-, hnull⟩
        · exact hlink
        · simp [hlinked] at hnull

/-- The uthread is jumped to, at the beginning or in {lit}`switch_out`. -/
theorem At.jumpIn (hnodup : l.Nodup) (hpc : s.pc t = .jumpIn u) (hat : At s t l (.jumpIn u))
    (hstep : nextStep t a s = some s') : Stepped s s' t l ∧ At s' t l (s'.pc t) := by
  rcases hat with ⟨rest, rfl, hrunning, hcurrent, hspine, ⟨hthread, hready⟩, hlink⟩
  have hu := (List.nodup_cons.mp hnodup).1
  simp only [nextStep, hpc] at hstep
  have hjump : ∀ f, s.Waits (.uthread u) f → ∃ b, s.parked b = some (.uthread u, f) ∧
      s.parked a = none ∧ s' = s.jumped t a b (some u) (.switchIn u) (.uthread u) f := by
    rintro f ⟨b, hrecord, hb⟩
    rw [hthread] at hstep
    exact ⟨b, hb, jump_eq_some hrecord hb hstep⟩
  have harrived : ∀ f b, (f.resume a (some u)).leaving = none →
      s.parked b = some (.uthread u, f) → s.parked a = none →
      s' = s.jumped t a b (some u) (.switchIn u) (.uthread u) f →
      Stepped s s' t (u :: rest) ∧ s'.Entering t u rest a := by
    rintro f b hf hb hfree rfl
    have hsame : SameFor s (s.jumped t a b (some u) (.switchIn u) (.uthread u) f)
        (· ≠ .uthread u) := SameFor.jumped hb hfree
    refine ⟨⟨hsame.except List.mem_cons_self, fun t' ht' => by simp [State.jumped, ht'],
      .inl ?_, fun _ => .inl rfl, fun _ => ⟨rfl, rfl⟩, rfl, rfl, rfl⟩, ?_⟩
    · simp only [State.jumped, Function.update_self, hpc]
      exact hf
    constructor
    · simp [State.jumped]
    · exact hcurrent
    · exact hthread
    · exact hlink
    · simp [State.jumped, hrunning]
    · exact hsame.spine_below hu hspine
  rcases hready with hstart | ⟨hout, hmain⟩
  · rcases hjump _ hstart with ⟨b, hb, hfree, rfl⟩
    rcases harrived _ b rfl hb hfree rfl with ⟨hstepped, hentering⟩
    refine ⟨hstepped, ?_⟩
    have hpc' : (s.jumped t a b (some u) (.switchIn u) (.uthread u) .start).pc t =
        .assertCurrent a (some u) := by simp [State.jumped, Frame.resume]
    rw [hpc']
    exact ⟨u, rest, rfl, rfl, hentering⟩
  · rcases hjump _ hout with ⟨b, hb, hfree, rfl⟩
    rcases harrived _ b rfl hb hfree rfl with ⟨hstepped, hentering⟩
    refine ⟨hstepped, ?_⟩
    have hpc' : (s.jumped t a b (some u) (.switchIn u) (.uthread u) (.switchOut u)).pc t =
        .storeOut u a := by simp [State.jumped, Frame.resume]
    rw [hpc']
    exact ⟨rest, rfl, hentering, hmain⟩

theorem At.assertCurrent {q : Option ι} (hpc : s.pc t = .assertCurrent b q)
    (hat : At s t l (.assertCurrent b q)) (hstep : nextStep t a s = some s') :
    Stepped s s' t l ∧ At s' t l (s'.pc t) := by
  rcases hat with ⟨u, rest, rfl, rfl, hentering⟩
  simp only [nextStep, hpc, hentering.current, hentering.thread, if_true] at hstep
  cases hstep
  have hsame := SameFor.goto (P := fun _ => True) s t (.storeMain b (some u))
  refine ⟨⟨SameFor.goto s t _, fun t' ht' => by simp [State.goto, ht'],
    .inl (by simp [State.goto, hpc, Pc.leaving]), fun _ => .inl rfl, fun _ => ⟨rfl, rfl⟩,
    rfl, rfl, rfl⟩, ?_⟩
  simp only [State.goto, Function.update_self]
  exact ⟨u, rest, rfl, rfl, hsame.entering (fun _ _ => trivial) rfl rfl hentering⟩

theorem At.storeMain {q : Option ι} (hnodup : l.Nodup) (hpc : s.pc t = .storeMain b q)
    (hat : At s t l (.storeMain b q)) (hstep : nextStep t a s = some s') :
    Stepped s s' t l ∧ At s' t l (s'.pc t) := by
  rcases hat with ⟨u, rest, rfl, rfl, hentering⟩
  have hu := (List.nodup_cons.mp hnodup).1
  have hlink : (s.record (.uthread u)).link = some (top t rest) := hentering.linked
  simp only [nextStep, hpc, hlink, hentering.running] at hstep
  cases hstep
  -- `main` begins on the stack of its own uthread
  have hmain := SameFor.setMain s (.uthread u) (some u)
  have hbegun : State.Entering { s with main := Function.update s.main (.uthread u) (some u) }
      t u rest b :=
    { running := hentering.running
      current := hentering.current
      thread := hentering.thread
      linked := hentering.linked
      below := hentering.below
      spine := hmain.spine_below hu hentering.spine }
  have hsettled := hbegun.settled hnodup (by simp)
  have hall := ((hmain.except List.mem_cons_self).trans
    ((SameFor.setFcontext _ (top t rest) b).except (l := u :: rest) owns_top.cons)).trans
    (SameFor.goto _ t .user)
  refine ⟨⟨hall, fun t' ht' => ?_,
    .inl (by simp [State.goto, hpc, Pc.leaving]), fun _ => .inl rfl, fun t' => ?_,
    rfl, rfl, rfl⟩, ?_⟩
  · simp [State.goto, State.setFcontext, State.setRecord, ht']
  · exact ⟨thread_setFcontext _ _, rfl⟩
  · simp only [State.goto, Function.update_self]
    exact (SameFor.goto (P := fun _ => True) _ t .user).settled (fun _ _ => trivial) rfl rfl
      hsettled

theorem At.storeOut (hnodup : l.Nodup) (hpc : s.pc t = .storeOut u b)
    (hat : At s t l (.storeOut u b)) (hstep : nextStep t a s = some s') :
    Stepped s s' t l ∧ At s' t l (s'.pc t) := by
  rcases hat with ⟨rest, rfl, hentering, hmain⟩
  have hlink : (s.record (.uthread u)).link = some (top t rest) := hentering.linked
  simp only [nextStep, hpc, hlink] at hstep
  cases hstep
  have hall := ((SameFor.setFcontext s (top t rest) b).except (l := u :: rest) owns_top.cons).trans
    (SameFor.goto _ t .user)
  refine ⟨⟨hall, fun t' ht' => ?_,
    .inl (by simp [State.goto, hpc, Pc.leaving]), fun _ => .inl rfl, fun t' => ?_,
    rfl, rfl, rfl⟩, ?_⟩
  · simp [State.goto, State.setFcontext, State.setRecord, ht']
  · exact ⟨thread_setFcontext _ _, rfl⟩
  · have hpc' : ((s.setFcontext (top t rest) b).goto t .user).pc t = .user := by simp [State.goto]
    rw [hpc']
    exact (SameFor.goto (P := fun _ => True) _ t .user).settled (fun _ _ => trivial) rfl rfl
      (hentering.settled hnodup hmain)

/-! ### Leaving a uthread -/

theorem At.restore (hpc : s.pc t = .restoreCurrent u) (hat : At s t l (.restoreCurrent u))
    (hstep : nextStep t a s = some s') : Stepped s s' t l ∧ At s' t l (s'.pc t) := by
  rcases hat with ⟨rest, rfl, hsettled⟩
  have hlink : (s.record (.uthread u)).link = some (top t rest) := hsettled.spine.2.1
  simp only [nextStep, hpc, hlink] at hstep
  cases hstep
  have hsame := (SameFor.setCurrent (P := fun _ => True) s t (some (top t rest))).trans
    (SameFor.goto _ t (.jumpOut u))
  refine ⟨⟨hsame.mono fun _ _ => trivial, fun t' ht' => ?_,
    .inl (by simp [State.goto, hpc, Pc.leaving]), fun _ => .inl rfl, fun _ => ⟨rfl, rfl⟩,
    rfl, rfl, rfl⟩, ?_⟩
  · simp [State.goto, State.setCurrent, ht']
  · simp only [State.goto, State.setCurrent, Function.update_self]
    exact ⟨rest, rfl, hsettled.running, by simp,
      hsame.spine (fun _ _ => trivial) hsettled.spine⟩

theorem At.restoreLast (hpc : s.pc t = .restoreLast u) (hat : At s t l (.restoreLast u))
    (hstep : nextStep t a s = some s') : Stepped s s' t l ∧ At s' t l (s'.pc t) := by
  rcases hat with ⟨rest, rfl, hsettled, hdone⟩
  have hlink : (s.record (.uthread u)).link = some (top t rest) := hsettled.spine.2.1
  simp only [nextStep, hpc, hlink] at hstep
  cases hstep
  have hsame := (SameFor.setCurrent (P := fun _ => True) s t (some (top t rest))).trans
    (SameFor.goto _ t (.jumpLast u))
  refine ⟨⟨hsame.mono fun _ _ => trivial, fun t' ht' => ?_,
    .inl (by simp [State.goto, hpc, Pc.leaving]), fun _ => .inl rfl, fun _ => ⟨rfl, rfl⟩,
    rfl, rfl, rfl⟩, ?_⟩
  · simp [State.goto, State.setCurrent, ht']
  · simp only [State.goto, State.setCurrent, Function.update_self]
    exact ⟨rest, rfl, hsettled.running, by simp,
      hsame.spine (fun _ _ => trivial) hsettled.spine, hdone⟩

theorem At.jumpOut (hnodup : l.Nodup) (hpc : s.pc t = .jumpOut u) (hat : At s t l (.jumpOut u))
    (hstep : nextStep t a s = some s') : Stepped s s' t l ∧ At s' t l (s'.pc t) := by
  rcases hat with ⟨rest, rfl, hrunning, hcurrent, hspine⟩
  have hlink : (s.record (.uthread u)).link = some (top t rest) := hspine.2.1
  simp only [nextStep, hpc, hlink] at hstep
  exact jump_back hnodup hrunning hcurrent hspine (fun _ => rfl) rfl
    (by rw [hpc, Pc.leaving]) hstep

theorem At.jumpLast (hnodup : l.Nodup) (hpc : s.pc t = .jumpLast u) (hat : At s t l (.jumpLast u))
    (hstep : nextStep t a s = some s') : Stepped s s' t l ∧ At s' t l (s'.pc t) := by
  rcases hat with ⟨rest, rfl, hrunning, hcurrent, hspine, hdone⟩
  have hlink : (s.record (.uthread u)).link = some (top t rest) := hspine.2.1
  simp only [nextStep, hpc, hlink] at hstep
  exact jump_back hnodup hrunning hcurrent hspine (fun hnone => absurd hnone hdone) rfl
    (by rw [hpc, Pc.leaving]) hstep

/-- The call that has entered the uthread returns. -/
theorem At.storeIn (hnodup : l.Nodup) (hpc : s.pc t = .storeIn u b) (hat : At s t l (.storeIn u b))
    (hstep : nextStep t a s = some s') :
    ∃ rest, l = u :: rest ∧ Stepped s s' t l ∧ At s' t rest (s'.pc t) ∧
      s'.inside = Function.update s.inside u false ∧ s'.Started u ∧
      (s.done u = none → s'.Waits (.uthread u) (.switchOut u)) := by
  rcases hat with ⟨rest, rfl, hrunning, hcurrent, hspine, hstarted, f, hparked, hdone⟩
  have hu := (List.nodup_cons.mp hnodup).1
  simp only [nextStep, hpc] at hstep
  cases hstep
  have hrecord := ((SameFor.setFcontext s (.uthread u) b).trans (SameFor.goto _ t .user)).trans
    (SameFor.setInside _ (Function.update s.inside u false))
  refine ⟨rest, rfl, ⟨hrecord.except List.mem_cons_self, fun t' ht' => ?_, .inr ⟨u, b, hpc⟩,
    fun v => ?_,
    fun _ => ⟨rfl, rfl⟩, rfl, rfl, rfl⟩, ?_, rfl, ?_, ?_⟩
  · simp [State.goto, State.setFcontext, State.setRecord, ht']
  · by_cases hv : v = u
    · exact .inr ⟨b, hv ▸ hpc⟩
    · exact .inl (Function.update_of_ne hv _ _)
  · simp only [State.goto, Function.update_self]
    exact ⟨hrunning, .inl hcurrent, hrecord.spine_below hu hspine⟩
  · refine ⟨?_, hstarted.2⟩
    simp [State.goto, State.setFcontext, State.setRecord, hstarted.1]
  · intro hnone
    rw [hdone hnone] at hparked
    exact waits_setFcontext hparked

/-- One access: the uthreads of the thread stay those that they were, until the call that has
entered the innermost one returns. -/
theorem At.next (hnodup : l.Nodup) (hat : At s t l (s.pc t)) (hstep : nextStep t a s = some s')
    (hstay : ∀ u b, s.pc t ≠ .storeIn u b) :
    Stepped s s' t l ∧ At s' t l (s'.pc t) := by
  generalize hpc : s.pc t = pc at hat hstay
  cases pc with
  | user => simp [nextStep, hpc] at hstep
  | setup u => exact hat.setup hnodup hpc hstep
  | exchange u => exact hat.exchange hnodup hpc hstep
  | orUnthreaded u => exact hat.orUnthreaded hnodup hpc hstep
  | jumpIn u => exact hat.jumpIn hnodup hpc hstep
  | storeIn u b => exact absurd rfl (hstay u b)
  | restoreCurrent u => exact hat.restore hpc hstep
  | jumpOut u => exact hat.jumpOut hnodup hpc hstep
  | storeOut u b => exact hat.storeOut hnodup hpc hstep
  | assertCurrent b q => exact hat.assertCurrent hpc hstep
  | storeMain b q => exact hat.storeMain hnodup hpc hstep
  | restoreLast u => exact hat.restoreLast hpc hstep
  | jumpLast u => exact hat.jumpLast hnodup hpc hstep
  | unreachable => exact hat.elim

end ContextSwitch

end AsyncSimple
