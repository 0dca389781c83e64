import AsyncSimple.Library.Counting
import AsyncSimple.Future.Handles

/-!
# The counters count the handles

A shared state is deleted when its last reference is released, and a
continuation that was scheduled is destroyed with the last guard, as long as
the eight bits of the counters suffice and no promise is copied from a moved-from
one.

Main results:

- Theorem {lit}`Inv.step`: every operation keeps counters and references
  together.
- Theorem {lit}`handles_counted`: no fault occurs in any run that keeps the two
  conditions, and every state is deleted exactly with its last reference.
- Theorem {lit}`copy_of_moved_promise`: the copy of a moved-from promise
  dereferences the null pointer.
-/

namespace AsyncSimple

open Transition

namespace Handles

variable {η : Type}

/-! ## References -/

/-- The kinds of references that are counted. -/
inductive Role where
  | any
  | promise
  | guard
  /-- a call that has to construct the first guards -/
  | pending
deriving DecidableEq, Repr

/-- The shared state an object refers to. -/
def Object.pointee : Object η → Option Nat
  | .promise fs _ | .future fs | .guard fs => fs
  | .setting fs _ | .attaching fs | .breaking fs _ | .leaving fs _ => some fs
  | .assigning _ => none

/-- The roles of an object. -/
def Object.plays : Role → Object η → Bool
  | .any, _ => true
  | .promise, .promise _ _ | .promise, .setting _ _ => true
  | .guard, .guard _ => true
  | .pending, .setting _ _ | .pending, .attaching _ | .pending, .breaking _ _ => true
  | _, _ => false

/-- The object is a reference of this role to the shared state. -/
def holds (role : Role) (fs : Nat) : Option (Object η) → Bool
  | none => false
  | some object => object.plays role && decide (object.pointee = some fs)

variable [Fintype η]

/-- Number of the references of a role to a shared state. -/
def System.count (s : System η) (role : Role) (fs : Nat) : Nat :=
  tally (holds role fs) s.object

/-- The counters against the references. -/
structure Agrees (c : Counters) (n : Role → Nat) : Prop where
  attached : c.attached = n .any
  bounded : n .any ≤ 255
  promises : c.promiseRef = n .promise
  guards : c.continuationRef = n .guard
  deleted : c.deleted = if n .any = 0 then 1 else 0
  pending : n .pending = if c.state = .done ∧ c.scheduled = false then 1 else 0
  done : c.scheduled = true → c.state = .done
  unscheduled : c.scheduled = false → n .guard = 0
  destroyed : c.destroyed = if c.scheduled = true ∧ n .guard = 0 then 1 else 0
  ran : 0 < c.ran → c.scheduled = true

/-- All shared states agree with their references, and there has been no fault. -/
structure Inv (s : System η) : Prop where
  counted : ∀ fs, fs < s.created → Agrees (s.shared fs) (s.count · fs)
  fresh : ∀ fs, s.created ≤ fs → s.count .any fs = 0
  noFault : s.fault = none

/-! ## What the counters do -/

namespace Agrees

variable {c : Counters} {n n' : Role → Nat}

omit [Fintype η]

/-- Counts that agree with the old ones. -/
theorem congr (h : Agrees c n) (heq : ∀ role, n' role = n role) : Agrees c n' := by
  have hsame : n' = n := funext heq
  rw [hsame]
  exact h

/-- A reference that is neither a promise nor a guard. -/
theorem attachOne (h : Agrees c n) (hlive : 0 < n .any) (hroom : n .any + 1 ≤ 255)
    (hany : n' .any = n .any + 1) (hrest : ∀ role, role ≠ .any → n' role = n role) :
    Agrees c.attachOne n' := by
  have hpromise := hrest .promise nofun
  have hguard := hrest .guard nofun
  have hpending := hrest .pending nofun
  have hdeleted := h.deleted
  refine ⟨?_, by omega, ?_, ?_, ?_, ?_, h.done, ?_, ?_, h.ran⟩
  · show (c.attached + 1) % 2 ^ 8 = n' .any
    rw [h.attached, hany, Nat.mod_eq_of_lt (by omega)]
  · rw [hpromise]
    exact h.promises
  · rw [hguard]
    exact h.guards
  · show c.deleted = _
    rw [hdeleted, if_neg (by omega), if_neg (by omega)]
  · rw [hpending]
    exact h.pending
  · rw [hguard]
    exact h.unscheduled
  · rw [hguard]
    exact h.destroyed

/-- One more promise. -/
theorem attachPromise (h : Agrees c n) (hlive : 0 < n .any) (hroom : n .any + 1 ≤ 255)
    (hle : n .promise ≤ n .any) (hany : n' .any = n .any + 1)
    (hpromise : n' .promise = n .promise + 1) (hguard : n' .guard = n .guard)
    (hpending : n' .pending = n .pending) : Agrees c.attachPromise n' := by
  have hnumber : (c.promiseRef + 1) % 2 ^ 64 = n .promise + 1 := by
    rw [h.promises, Nat.mod_eq_of_lt (by omega)]
  have hcounted : Agrees { c with promiseRef := (c.promiseRef + 1) % 2 ^ 64 }
      (Function.update n .promise (n .promise + 1)) :=
    ⟨h.attached, h.bounded, by rw [hnumber]; rfl, h.guards, h.deleted, h.pending, h.done,
      h.unscheduled, h.destroyed, h.ran⟩
  refine hcounted.attachOne hlive hroom hany ?_
  intro role hrole
  cases role with
  | any => exact absurd rfl hrole
  | promise => exact hpromise
  | guard => exact hguard
  | pending => exact hpending

/-- A reference that is neither a promise nor a guard is released. -/
theorem detachOne (h : Agrees c n) (hlive : 0 < n .any) (hany : n' .any + 1 = n .any)
    (hrest : ∀ role, role ≠ .any → n' role = n role) :
    ∃ c', c.detachOne = .ok c' ∧ Agrees c' n' := by
  have hguard := hrest .guard nofun
  have hpending := hrest .pending nofun
  have hattached := h.attached
  have hdeleted := h.deleted
  have hbounded := h.bounded
  rw [if_neg (by omega)] at hdeleted
  refine ⟨_, by rw [Counters.detachOne, if_neg (by omega)], ?_⟩
  refine ⟨?_, by omega, ?_, ?_, ?_, ?_, h.done, ?_, ?_, h.ran⟩
  · show c.attached - 1 = n' .any
    omega
  · rw [hrest .promise nofun]
    exact h.promises
  · rw [hguard]
    exact h.guards
  · show (if c.attached = 1 then c.deleted + 1 else c.deleted) = _
    by_cases hlast : c.attached = 1
    · rw [if_pos hlast, if_pos (by omega), hdeleted]
    · rw [if_neg hlast, if_neg (by omega), hdeleted]
  · rw [hpending]
    exact h.pending
  · rw [hguard]
    exact h.unscheduled
  · rw [hguard]
    exact h.destroyed

/-- The next state when a call brings a result or a continuation; the call that
makes it {lit}`DONE` has to schedule the continuation. -/
theorem transfer (h : Agrees c n) {c' : Counters} (hdone : c.state = .done → c'.state = .done)
    (hsame : c' = { c with state := c'.state, promiseRef := c'.promiseRef })
    (hany : n' .any = n .any) (hpromise : n' .promise = c'.promiseRef)
    (hguard : n' .guard = n .guard)
    (hpending : n' .pending = n .pending + if c.becomesDone c' then 1 else 0) : Agrees c' n' := by
  have hscheduled : c'.scheduled = c.scheduled := by rw [hsame]
  have hdestroyed : c'.destroyed = c.destroyed := by rw [hsame]
  have hran : c'.ran = c.ran := by rw [hsame]
  refine ⟨?_, ?_, hpromise.symm, ?_, ?_, ?_, ?_, ?_, ?_, ?_⟩
  · rw [hany, ← h.attached, hsame]
  · rw [hany]
    exact h.bounded
  · rw [hguard, ← h.guards, hsame]
  · rw [hany, ← h.deleted, hsame]
  · rw [hpending, h.pending, hscheduled, Counters.becomesDone]
    by_cases hbefore : c.state = .done
    · simp [hbefore, hdone hbefore]
    · have hno : c.scheduled = false := by
        by_contra hyes
        exact hbefore (h.done (by simpa using hyes))
      simp [hbefore, hno]
  · intro hyes
    rw [hscheduled] at hyes
    exact hdone (h.done hyes)
  · rw [hguard, hscheduled]
    exact h.unscheduled
  · rw [hguard, hscheduled, hdestroyed]
    exact h.destroyed
  · rw [hran, hscheduled]
    exact h.ran

/-- One more guard. -/
theorem attachGuard (h : Agrees c n) (hlive : 0 < n .any) (hroom : n .any + 1 ≤ 255)
    (hle : n .guard ≤ n .any) (hguards : 0 < n .guard) (hany : n' .any = n .any + 1)
    (hpromise : n' .promise = n .promise) (hguard : n' .guard = n .guard + 1)
    (hpending : n' .pending = n .pending) : Agrees c.attachGuard n' := by
  have hscheduled : c.scheduled = true := by
    by_contra hno
    have hnone := h.unscheduled (by simpa using hno)
    omega
  have hbase : Agrees c.attachOne (Function.update n .any (n .any + 1)) := by
    refine h.attachOne hlive hroom rfl ?_
    intro role hrole
    exact Function.update_of_ne hrole _ _
  refine ⟨?_, by omega, ?_, ?_, ?_, ?_, h.done, ?_, ?_, h.ran⟩
  · rw [hany]
    exact hbase.attached
  · rw [hpromise]
    exact h.promises
  · show (c.continuationRef + 1) % 2 ^ 8 = n' .guard
    rw [h.guards, hguard, Nat.mod_eq_of_lt (by omega)]
  · rw [hany]
    exact hbase.deleted
  · rw [hpending]
    exact h.pending
  · intro hno
    rw [show c.attachGuard.scheduled = c.scheduled from rfl, hscheduled] at hno
    exact Bool.noConfusion hno
  · show c.destroyed = _
    rw [h.destroyed, if_neg (by omega), if_neg (by omega)]

/-- The first guards. -/
theorem schedule (h : Agrees c n) {submits : Bool} {k : Nat} (hk : k = if submits then 2 else 1)
    (hpend : 0 < n .pending) (hroom : n .any + k ≤ 255) (hlive : 0 < n .any)
    (hany : n' .any = n .any + k) (hpromise : n' .promise = n .promise) (hguard : n' .guard = k)
    (hpending : n' .pending + 1 = n .pending) : Agrees (c.schedule submits) n' := by
  have hwaiting : c.state = .done ∧ c.scheduled = false := by
    by_contra hno
    have hnone := h.pending
    rw [if_neg hno] at hnone
    omega
  have hone := h.pending
  rw [if_pos hwaiting] at hone
  have hnoguard := h.unscheduled hwaiting.2
  have hattached := h.attached
  have hguards := h.guards
  have hdeleted := h.deleted
  have hdestroyed := h.destroyed
  rw [if_neg (by omega)] at hdeleted
  rw [if_neg (by simp [hwaiting.2])] at hdestroyed
  have hpromises := h.promises
  have hlarge : k = 1 ∨ k = 2 := by
    cases submits
    · exact Or.inl hk
    · exact Or.inr hk
  have hfirst : (c.attached + 1) % 2 ^ 8 = n .any + 1 ∧ (c.continuationRef + 1) % 2 ^ 8 = 1 := by
    omega
  have hcounts : (c.schedule submits).attached = n .any + k ∧
      (c.schedule submits).continuationRef = k := by
    cases submits
    · subst hk
      exact hfirst
    · subst hk
      simp only [Counters.schedule, Counters.attachGuard, Counters.attachOne, if_true, hfirst.1,
        hfirst.2]
      simp only [if_true] at hroom
      exact ⟨Nat.mod_eq_of_lt (by omega), rfl⟩
  have hother : (c.schedule submits).promiseRef = c.promiseRef ∧
      (c.schedule submits).state = c.state ∧ (c.schedule submits).deleted = c.deleted ∧
      (c.schedule submits).scheduled = true ∧ (c.schedule submits).destroyed = c.destroyed := by
    cases submits <;> exact ⟨rfl, rfl, rfl, rfl, rfl⟩
  rcases hother with ⟨hpromise', hstate', hdeleted', hscheduled', hdestroyed'⟩
  refine ⟨by omega, by omega, by omega, by omega, ?_, ?_, ?_, ?_, ?_, fun _ => hscheduled'⟩
  · rw [hdeleted', hdeleted, if_neg (by omega)]
  · rw [if_neg (by simp [hscheduled'])]
    omega
  · intro _
    rw [hstate']
    exact hwaiting.1
  · intro hno
    rw [hscheduled'] at hno
    exact Bool.noConfusion hno
  · rw [hdestroyed', hdestroyed, if_neg (by omega)]

/-- A guard is released; the last one destroys the continuation. -/
theorem detachGuard (h : Agrees c n) (hguards : 0 < n .guard) (hany : n' .any + 1 = n .any)
    (hpromise : n' .promise = n .promise) (hguard : n' .guard + 1 = n .guard)
    (hpending : n' .pending = n .pending) : ∃ c', c.detachGuard = .ok c' ∧ Agrees c' n' := by
  have hscheduled : c.scheduled = true := by
    by_contra hno
    have hnone := h.unscheduled (by simpa using hno)
    omega
  have hnumber := h.guards
  have hdestroyed := h.destroyed
  rw [if_neg (by omega)] at hdestroyed
  have hderef : c.derefContinuation = .ok { c with
      continuationRef := c.continuationRef - 1
      destroyed := if c.continuationRef = 1 then c.destroyed + 1 else c.destroyed } := by
    rw [Counters.derefContinuation, if_neg (by omega)]
  have hmiddle : Agrees { c with
      continuationRef := c.continuationRef - 1
      destroyed := if c.continuationRef = 1 then c.destroyed + 1 else c.destroyed }
      (Function.update n .guard (n' .guard)) := by
    refine ⟨h.attached, h.bounded, h.promises, ?_, h.deleted, h.pending, h.done, ?_, ?_, h.ran⟩
    · show c.continuationRef - 1 = n' .guard
      omega
    · intro hno
      rw [show c.scheduled = false from hno] at hscheduled
      exact Bool.noConfusion hscheduled
    · show (if c.continuationRef = 1 then c.destroyed + 1 else c.destroyed) =
        if c.scheduled = true ∧ n' .guard = 0 then 1 else 0
      by_cases hlast : c.continuationRef = 1
      · rw [if_pos hlast, if_pos ⟨hscheduled, by omega⟩, hdestroyed]
      · rw [if_neg hlast, if_neg (by omega), hdestroyed]
  have hlive : 0 < n .any := by omega
  have hrest : ∀ role, role ≠ .any → n' role = Function.update n .guard (n' .guard) role := by
    intro role hrole
    cases role with
    | any => exact absurd rfl hrole
    | promise => exact hpromise
    | guard => rfl
    | pending => exact hpending
  rcases hmiddle.detachOne hlive hany hrest with ⟨c', hdetach, hagrees⟩
  refine ⟨c', ?_, hagrees⟩
  rw [Counters.detachGuard, hderef]
  exact hdetach

/-- A run of the continuation under a guard. -/
theorem run (h : Agrees c n) (hguards : 0 < n .guard) :
    c.destroyed = 0 ∧ Agrees { c with ran := c.ran + 1 } n := by
  have hscheduled : c.scheduled = true := by
    by_contra hno
    have hnone := h.unscheduled (by simpa using hno)
    omega
  refine ⟨?_, ?_⟩
  · rw [h.destroyed, if_neg (by omega)]
  · exact ⟨h.attached, h.bounded, h.promises, h.guards, h.deleted, h.pending, h.done,
      h.unscheduled, h.destroyed, fun _ => hscheduled⟩

end Agrees

/-! ## Operations on the objects -/

omit [Fintype η] in
/-- An object is no reference to other shared states. -/
theorem holds_of_ne {object : Object η} {fs fs' : Nat} (h : object.pointee = some fs)
    (hne : fs' ≠ fs) (role : Role) : holds role fs' (some object) = false := by
  simp [holds, h, Ne.symm hne]

omit [Fintype η] in
theorem holds_of_pointee_none {object : Object η} (h : object.pointee = none) (role : Role)
    (fs : Nat) : holds role fs (some object) = false := by
  simp [holds, h]

theorem System.count_le (s : System η) (role : Role) (fs : Nat) :
    s.count role fs ≤ s.count .any fs := by
  refine tally_le_tally ?_
  rintro (- | object) hholds
  · exact hholds
  · simp only [holds, Bool.and_eq_true, decide_eq_true_eq] at hholds
    simp [holds, Object.plays, hholds.2]

theorem System.count_pos {s : System η} {o : η} {object : Object η} {role : Role} {fs : Nat}
    (ho : s.object o = some object) (hplays : object.plays role = true)
    (hpointee : object.pointee = some fs) : 0 < s.count role fs := by
  refine tally_pos (i := o) ?_
  simp [ho, holds, hplays, hpointee]

/-- A used pointer leads to a shared state that exists. -/
theorem Inv.live {s : System η} (h : Inv s) {o : η} {object : Object η} {fs : Nat}
    (ho : s.object o = some object) (hpointee : object.pointee = some fs) :
    fs < s.created ∧ 0 < s.count .any fs ∧ (s.shared fs).deleted = 0 := by
  have hpos : 0 < s.count .any fs := System.count_pos ho rfl hpointee
  have hlt : fs < s.created := by
    by_contra hge
    have hzero := h.fresh fs (Nat.le_of_not_lt hge)
    omega
  refine ⟨hlt, hpos, ?_⟩
  rw [(h.counted fs hlt).deleted, if_neg (Nat.ne_of_gt hpos)]

variable [DecidableEq η]

theorem System.count_setObject (s : System η) (o : η) (x : Option (Object η)) (role : Role)
    (fs : Nat) : (s.setObject o x).count role fs + (if holds role fs (s.object o) then 1 else 0) =
      s.count role fs + if holds role fs x then 1 else 0 :=
  tally_update (holds role fs) s.object o x

/-- An object that refers to the same states in the same roles. -/
theorem System.count_setObject_of_eq (s : System η) (o : η) {x : Option (Object η)} {role : Role}
    {fs : Nat} (h : holds role fs x = holds role fs (s.object o)) :
    (s.setObject o x).count role fs = s.count role fs :=
  tally_update_of_eq h

omit [Fintype η] [DecidableEq η] in
/-- A used shared state is there. -/
theorem access_eq {s : System η} {fs : Nat} {f : Counters → Except Fault Counters}
    {next : Counters → System η → System η} {c : Counters} (hlive : (s.shared fs).deleted = 0)
    (hf : f (s.shared fs) = .ok c) : s.access fs f next = next c (s.setShared fs c) := by
  rw [System.access, if_neg (by omega), hf]

namespace Inv

variable {s s' : System η}

omit [DecidableEq η] in
/-- Only one shared state and its references have changed. -/
theorem replace (h : Inv s) {fs : Nat} (hcreated : s'.created = s.created)
    (hfault : s'.fault = s.fault) (hshared : ∀ fs', fs' ≠ fs → s'.shared fs' = s.shared fs')
    (hcount : ∀ role fs', fs' ≠ fs → s'.count role fs' = s.count role fs')
    (hlt : fs < s.created) (hagrees : Agrees (s'.shared fs) (s'.count · fs)) : Inv s' := by
  refine ⟨?_, ?_, by rw [hfault]; exact h.noFault⟩
  · intro fs' hfs'
    by_cases hne : fs' = fs
    · rw [hne]
      exact hagrees
    · rw [hshared fs' hne]
      rw [hcreated] at hfs'
      exact (h.counted fs' hfs').congr fun role => hcount role fs' hne
  · intro fs' hge
    rw [hcreated] at hge
    have hne : fs' ≠ fs := by omega
    rw [hcount .any fs' hne]
    exact h.fresh fs' hge

omit [DecidableEq η] in
/-- Objects that refer to the same states in the same roles. -/
theorem congr (h : Inv s) (hcreated : s'.created = s.created) (hfault : s'.fault = s.fault)
    (hshared : s'.shared = s.shared) (hcount : ∀ role fs, s'.count role fs = s.count role fs) :
    Inv s' := by
  refine ⟨?_, ?_, by rw [hfault]; exact h.noFault⟩
  · intro fs hfs
    rw [hcreated] at hfs
    rw [hshared]
    exact (h.counted fs hfs).congr fun role => hcount role fs
  · intro fs hge
    rw [hcreated] at hge
    rw [hcount .any fs]
    exact h.fresh fs hge

/-- One object that refers to the same state in the same roles. -/
theorem setObject (h : Inv s) {o : η} {x : Option (Object η)}
    (hx : ∀ role fs, holds role fs x = holds role fs (s.object o)) : Inv (s.setObject o x) :=
  h.congr rfl rfl rfl fun role fs => s.count_setObject_of_eq o (hx role fs)

/-- One object and its shared state. -/
theorem setOne (h : Inv s) {fs : Nat} {o : η} {x : Option (Object η)} {c : Counters}
    (hlt : fs < s.created)
    (hother : ∀ role fs', fs' ≠ fs → holds role fs' x = holds role fs' (s.object o))
    (hagrees : Agrees c ((s.setObject o x).count · fs)) :
    Inv ((s.setShared fs c).setObject o x) := by
  refine h.replace rfl rfl ?_ ?_ hlt ?_
  · intro fs' hne
    exact Function.update_of_ne hne _ _
  · intro role fs' hne
    exact s.count_setObject_of_eq o (hother role fs' hne)
  · rw [show ((s.setShared fs c).setObject o x).shared fs = c from Function.update_self ..]
    exact hagrees

/-- Two objects exchange what they refer to. -/
theorem exchange (h : Inv s) {o o' : η} {x x' : Option (Object η)} (hne : o ≠ o')
    (hx : ∀ role fs, holds role fs x = holds role fs (s.object o'))
    (hx' : ∀ role fs, holds role fs x' = holds role fs (s.object o)) :
    Inv ((s.setObject o x).setObject o' x') := by
  refine h.congr rfl rfl rfl ?_
  intro role fs
  have hfirst := s.count_setObject o x role fs
  have hsecond := (s.setObject o x).count_setObject o' x' role fs
  rw [show (s.setObject o x).object o' = s.object o' from Function.update_of_ne hne.symm _ _,
    hx' role fs] at hsecond
  rw [hx role fs] at hfirst
  omega

/-- The move constructors: the new object takes the pointer of the old one. -/
theorem moveInto (h : Inv s) {o o' : η} {object x : Object η} (ho : s.object o = none)
    (ho' : s.object o' = some object) (hx : x.pointee = none) :
    Inv ((s.setObject o (some object)).setObject o' (some x)) := by
  have hne : o ≠ o' := by
    rintro rfl
    rw [ho] at ho'
    cases ho'
  refine h.exchange hne ?_ ?_
  · intro role fs
    rw [ho']
  · intro role fs
    rw [ho, holds_of_pointee_none hx]
    rfl

/-- The move assignments swap the pointers. -/
theorem swap (h : Inv s) {o o' : η} {object object' : Object η} (ho : s.object o = some object)
    (ho' : s.object o' = some object') :
    Inv ((s.setObject o (some object')).setObject o' (some object)) := by
  by_cases hne : o = o'
  · subst hne
    rw [ho] at ho'
    cases ho'
    have hfirst : Inv (s.setObject o (some object)) :=
      h.setObject fun role fs => by rw [ho]
    refine hfirst.setObject ?_
    intro role fs
    rw [show (s.setObject o (some object)).object o = some object from Function.update_self ..]
  · refine h.exchange hne ?_ ?_
    · intro role fs
      rw [ho']
    · intro role fs
      rw [ho]

/-- An object without a pointer comes or goes. -/
theorem setIdle (h : Inv s) {o : η} {x : Option (Object η)}
    (hold : ∀ role fs, holds role fs (s.object o) = false)
    (hx : ∀ role fs, holds role fs x = false) : Inv (s.setObject o x) :=
  h.setObject fun role fs => by rw [hold, hx]

/-- The default constructor of {lit}`Promise`. -/
theorem newPromise (h : Inv s) {p : η} (hp : s.object p = none) :
    Inv { (s.setObject p (some (.promise (some s.created) false))).setShared s.created
      Counters.create.attachPromise with created := s.created + 1 } := by
  have hcount : ∀ role fs, (s.setObject p (some (.promise (some s.created) false))).count role fs =
      s.count role fs +
        if holds role fs (some (.promise (some s.created) false : Object η)) then 1 else 0 := by
    intro role fs
    have hupdate := s.count_setObject p (some (.promise (some s.created) false)) role fs
    rw [hp] at hupdate
    exact hupdate
  have hother : ∀ role fs, fs ≠ s.created →
      (s.setObject p (some (.promise (some s.created) false))).count role fs =
        s.count role fs := by
    intro role fs hne
    rw [hcount role fs, holds_of_ne rfl hne]
    rfl
  have hzero : ∀ role, s.count role s.created = 0 := by
    intro role
    have hle := s.count_le role s.created
    rw [h.fresh s.created (Nat.le_refl _)] at hle
    omega
  refine ⟨?_, ?_, h.noFault⟩
  · intro fs hfs
    by_cases hnew : fs = s.created
    · subst hnew
      have hown : ∀ role, (s.setObject p (some (.promise (some s.created) false))).count role
          s.created = if (Object.promise (some s.created) false : Object η).plays role then 1
            else 0 := by
        intro role
        rw [hcount role, hzero role]
        simp [holds, Object.pointee]
      rw [show ({ (s.setObject p (some (.promise (some s.created) false))).setShared s.created
        Counters.create.attachPromise with created := s.created + 1 } : System η).shared s.created =
        Counters.create.attachPromise from Function.update_self ..]
      refine Agrees.congr (n := fun role => if (Object.promise (some s.created) false :
        Object η).plays role then 1 else 0) ?_ hown
      constructor <;>
        simp [Counters.create, Counters.attachPromise, Counters.attachOne, Object.plays]
    · have hlt : fs < s.created := by
        have hle : fs < s.created + 1 := hfs
        omega
      rw [show ({ (s.setObject p (some (.promise (some s.created) false))).setShared s.created
        Counters.create.attachPromise with created := s.created + 1 } : System η).shared fs =
        s.shared fs from Function.update_of_ne hnew _ _]
      exact (h.counted fs hlt).congr fun role => hother role fs hnew
  · intro fs hge
    have hle : s.created + 1 ≤ fs := hge
    exact (hother .any fs (by omega)).trans (h.fresh fs (by omega))

/-- A copied pointer is attached. -/
theorem attachCopy (h : Inv s) {p q : η} {object : Object η} {fs : Nat} {hasFuture : Bool}
    (hp : ∀ role fs, holds role fs (s.object p) = false) (hq : s.object q = some object)
    (hpointee : object.pointee = some fs) (hroom : s.count .any fs + 1 ≤ 255) :
    Inv (s.attachCopy p (some fs) hasFuture) := by
  rcases h.live hq hpointee with ⟨hlt, hpos, hlive⟩
  rw [System.attachCopy, access_eq (f := fun c => .ok c.attachPromise) hlive rfl]
  have hcount : ∀ role, (s.setObject p (some (.promise (some fs) hasFuture))).count role fs =
      s.count role fs + if (Object.promise (some fs) hasFuture : Object η).plays role then 1
        else 0 := by
    intro role
    have hupdate := s.count_setObject p (some (.promise (some fs) hasFuture)) role fs
    rw [hp role fs] at hupdate
    simpa [holds, Object.pointee] using hupdate
  refine h.setOne hlt ?_ ?_
  · intro role fs' hne
    rw [hp role fs', holds_of_ne rfl hne]
  · exact (h.counted fs hlt).attachPromise hpos hroom (s.count_le .promise fs) (hcount .any)
      (hcount .promise) (hcount .guard) (hcount .pending)

/-- How the counts change when an object that refers to the shared state becomes
another one or goes away. -/
theorem count_of_pointee {o : η} {object : Object η} {x : Option (Object η)} {fs : Nat}
    (ho : s.object o = some object) (hpointee : object.pointee = some fs) (role : Role) :
    (s.setObject o x).count role fs + (if object.plays role then 1 else 0) =
      s.count role fs + if holds role fs x then 1 else 0 := by
  have hupdate := s.count_setObject o x role fs
  rw [ho] at hupdate
  simpa [holds, hpointee] using hupdate

/-- {lit}`detachOne` by an object that is neither a promise nor a guard; it is
gone afterwards or refers to nothing. -/
theorem detach (h : Inv s) {o : η} {object : Object η} {x : Option (Object η)} {fs : Nat}
    (ho : s.object o = some object) (hpointee : object.pointee = some fs)
    (hplays : ∀ role, role ≠ .any → object.plays role = false)
    (hx : ∀ role fs, holds role fs x = false) :
    Inv (s.access fs Counters.detachOne fun _ s => s.setObject o x) := by
  rcases h.live ho hpointee with ⟨hlt, hpos, hlive⟩
  have hcount := count_of_pointee (x := x) ho hpointee
  have hany := hcount .any
  have hrest : ∀ role, role ≠ .any → (s.setObject o x).count role fs = s.count role fs := by
    intro role hrole
    have hrole' := hcount role
    rw [hplays role hrole, hx role fs] at hrole'
    exact hrole'
  rw [hx .any fs] at hany
  rcases (h.counted fs hlt).detachOne hpos hany hrest with ⟨c, hdetach, hagrees⟩
  rw [access_eq hlive hdetach]
  refine h.setOne hlt ?_ hagrees
  intro role fs' hne
  rw [hx role fs', ho, holds_of_ne hpointee hne]

/-- A call that may make the state {lit}`DONE`: the object is then about to
schedule the continuation. -/
theorem transfer (h : Inv s) {o : η} {object x : Object η} {fs : Nat} {c : Counters}
    (ho : s.object o = some object) (hpointee : object.pointee = some fs)
    (hx : x.pointee = some fs) (hdone : (s.shared fs).state = .done → c.state = .done)
    (hsame : c = { s.shared fs with state := c.state, promiseRef := c.promiseRef })
    (hpromise : c.promiseRef + (if object.plays .promise then 1 else 0) =
      (s.shared fs).promiseRef + if x.plays .promise then 1 else 0)
    (hguard : object.plays .guard = x.plays .guard) (hidle : object.plays .pending = false)
    (hpending : x.plays .pending = (s.shared fs).becomesDone c) :
    Inv ((s.setShared fs c).setObject o (some x)) := by
  rcases h.live ho hpointee with ⟨hlt, -, -⟩
  have hagrees := h.counted fs hlt
  have hcount : ∀ role, (s.setObject o (some x)).count role fs +
      (if object.plays role then 1 else 0) =
      s.count role fs + if x.plays role then 1 else 0 := by
    intro role
    rw [count_of_pointee ho hpointee role]
    simp [holds, hx]
  refine h.setOne hlt ?_ ?_
  · intro role fs' hne
    rw [ho, holds_of_ne hpointee hne, holds_of_ne hx hne]
  · refine hagrees.transfer hdone hsame ?_ ?_ ?_ ?_
    · exact Nat.add_right_cancel (hcount .any)
    · have hnumber := hcount .promise
      have hpromises := hagrees.promises
      omega
    · have hnumber := hcount .guard
      rw [hguard] at hnumber
      omega
    · have hnumber := hcount .pending
      rw [hidle, hpending] at hnumber
      exact hnumber

/-- {lit}`~Promise` up to {lit}`detachOne`. -/
theorem destroyPromise (h : Inv s) {p : η} {fs : Option Nat} {hasFuture : Bool} {next : Next η}
    (hp : s.object p = some (.promise fs hasFuture)) : Inv (s.destroyPromise p fs next) := by
  cases fs with
  | none =>
      refine h.setObject ?_
      intro role fs
      rw [hp, holds_of_pointee_none rfl]
      cases next <;> simp [holds, Object.pointee]
  | some fs =>
      rcases h.live hp rfl with ⟨hlt, hpos, hlive⟩
      have hpromises := (h.counted fs hlt).promises
      have hpromise : 0 < s.count .promise fs := System.count_pos hp rfl rfl
      rcases hdetach : (s.shared fs).detachPromise with fault | c
      · rw [Counters.detachPromise, if_neg (by omega)] at hdetach
        cases hdetach
      · have hc := hdetach
        rw [Counters.detachPromise, if_neg (by omega), Except.ok.injEq] at hc
        rw [System.destroyPromise, access_eq hlive hdetach]
        have hdone : (s.shared fs).state = .done → c.state = .done := by
          intro hdone
          rw [← hc, if_neg (by simp [hdone])]
          exact hdone
        have hnumber : c.promiseRef + 1 = (s.shared fs).promiseRef := by
          rw [← hc]
          show (s.shared fs).promiseRef - 1 + 1 = (s.shared fs).promiseRef
          omega
        refine h.transfer hp rfl ?_ hdone (by rw [← hc]) ?_ ?_ rfl ?_ <;>
          cases (s.shared fs).becomesDone c <;> first | rfl | exact hnumber

/-- {lit}`setResult` and {lit}`setContinuation` up to
{lit}`scheduleContinuation`. -/
theorem setState (h : Inv s) {o : η} {object x : Object η} {fs : Nat} {f : Counters → Counters}
    (ho : s.object o = some object) (hpointee : object.pointee = some fs)
    (hx : x.pointee = some fs) (hplays : ∀ role, role ≠ .pending → x.plays role = object.plays role)
    (hidle : object.plays .pending = false) (hbusy : x.plays .pending = true)
    (hdone : (s.shared fs).state = .done → (f (s.shared fs)).state = .done)
    (hsame : f (s.shared fs) = { s.shared fs with state := (f (s.shared fs)).state }) :
    Inv (s.access fs (fun c => .ok (f c)) fun c s' =>
      if (s.shared fs).becomesDone c then s'.setObject o (some x) else s') := by
  rcases h.live ho hpointee with ⟨hlt, hpos, hlive⟩
  rw [access_eq (f := fun c => .ok (f c)) hlive rfl]
  have hpromise : (f (s.shared fs)).promiseRef = (s.shared fs).promiseRef := by rw [hsame]
  have hsame' : f (s.shared fs) = { s.shared fs with
      state := (f (s.shared fs)).state
      promiseRef := (f (s.shared fs)).promiseRef } := by
    rw [hpromise]
    exact hsame
  have hmove : ∀ y : Object η, y.pointee = some fs →
      (∀ role, role ≠ .pending → y.plays role = object.plays role) →
      y.plays .pending = (s.shared fs).becomesDone (f (s.shared fs)) →
      Inv ((s.setShared fs (f (s.shared fs))).setObject o (some y)) := by
    intro y hy hroles hpending
    refine h.transfer ho hpointee hy hdone hsame' ?_ ?_ hidle hpending
    · rw [hpromise, hroles .promise nofun]
    · exact (hroles .guard nofun).symm
  split
  · next hbecomes => exact hmove x hx hplays (by rw [hbusy, hbecomes])
  · next hbecomes =>
      have hsame := hmove object hpointee (fun _ _ => rfl)
        (by rw [hidle, Bool.not_eq_true _ |>.mp hbecomes])
      rwa [show (s.setShared fs (f (s.shared fs))).setObject o (some object) =
        s.setShared fs (f (s.shared fs)) by
          rw [System.setObject, ← ho]
          exact congrArg (fun g => ({ s.setShared fs (f (s.shared fs)) with object := g } :
            System η)) (Function.update_eq_self o s.object)] at hsame

/-- {lit}`getFuture`. -/
theorem getFuture (h : Inv s) {f p : η} {fs : Nat} (hf : s.object f = none)
    (hp : s.object p = some (.promise (some fs) false)) (hroom : s.count .any fs + 1 ≤ 255) :
    Inv (s.access fs (fun c => .ok c.attachOne) fun _ s =>
      (s.setObject p (some (.promise (some fs) true))).setObject f (some (.future (some fs)))) := by
  rcases h.live hp rfl with ⟨hlt, hpos, hlive⟩
  rw [access_eq (f := fun c => .ok c.attachOne) hlive rfl]
  have hmarked : Inv (s.setObject p (some (.promise (some fs) true))) := by
    refine h.setObject ?_
    intro role fs'
    rw [hp]
    cases role <;> rfl
  have hsame : ∀ role fs', (s.setObject p (some (.promise (some fs) true))).count role fs' =
      s.count role fs' := by
    intro role fs'
    refine s.count_setObject_of_eq p ?_
    rw [hp]
    cases role <;> rfl
  have hpf : f ≠ p := by
    rintro rfl
    rw [hf] at hp
    cases hp
  have hnone : (s.setObject p (some (.promise (some fs) true))).object f = none := by
    rw [← hf]
    exact Function.update_of_ne hpf _ _
  have hcount : ∀ role, ((s.setObject p (some (.promise (some fs) true))).setObject f
      (some (.future (some fs)))).count role fs = s.count role fs +
      if (Object.future (some fs) : Object η).plays role then 1 else 0 := by
    intro role
    have hupdate := (s.setObject p (some (.promise (some fs) true))).count_setObject f
      (some (.future (some fs))) role fs
    rw [hnone, hsame] at hupdate
    simpa [holds, Object.pointee] using hupdate
  refine hmarked.setOne hlt ?_ ?_
  · intro role fs' hne
    rw [hnone, holds_of_ne rfl hne]
    rfl
  · refine (h.counted fs hlt).attachOne hpos hroom (hcount .any) ?_
    intro role hrole
    rw [hcount role]
    cases role with
    | any => exact absurd rfl hrole
    | _ => rfl

/-- The copy of a guard. -/
theorem copyGuard (h : Inv s) {g g' : η} {fs : Nat} (hg : s.object g = none)
    (hg' : s.object g' = some (.guard (some fs))) (hroom : s.count .any fs + 1 ≤ 255) :
    Inv (s.access fs (fun c => .ok c.attachGuard) fun _ s =>
      s.setObject g (some (.guard (some fs)))) := by
  rcases h.live hg' rfl with ⟨hlt, hpos, hlive⟩
  rw [access_eq (f := fun c => .ok c.attachGuard) hlive rfl]
  have hguards : 0 < s.count .guard fs := System.count_pos hg' rfl rfl
  have hcount : ∀ role, (s.setObject g (some (.guard (some fs)))).count role fs =
      s.count role fs + if (Object.guard (some fs) : Object η).plays role then 1 else 0 := by
    intro role
    have hupdate := s.count_setObject g (some (.guard (some fs))) role fs
    rw [hg] at hupdate
    simpa [holds, Object.pointee] using hupdate
  refine h.setOne hlt ?_ ?_
  · intro role fs' hne
    rw [hg, holds_of_ne rfl hne]
    rfl
  · exact (h.counted fs hlt).attachGuard hpos hroom (s.count_le .guard fs) hguards (hcount .any)
      (hcount .promise) (hcount .guard) (hcount .pending)

/-- The destructor of a guard. -/
theorem destroyGuard (h : Inv s) {g : η} {fs : Nat} (hg : s.object g = some (.guard (some fs))) :
    Inv (s.access fs Counters.detachGuard fun _ s => s.setObject g none) := by
  rcases h.live hg rfl with ⟨hlt, hpos, hlive⟩
  have hguards : 0 < s.count .guard fs := System.count_pos hg rfl rfl
  have hcount : ∀ role, (s.setObject g none).count role fs +
      (if (Object.guard (some fs) : Object η).plays role then 1 else 0) = s.count role fs :=
    count_of_pointee hg rfl
  have hagrees : ∃ c, (s.shared fs).detachGuard = .ok c ∧
      Agrees c ((s.setObject g none).count · fs) :=
    (h.counted fs hlt).detachGuard hguards (hcount .any) (hcount .promise) (hcount .guard)
      (hcount .pending)
  rcases hagrees with ⟨c, hdetach, hagrees⟩
  rw [access_eq hlive hdetach]
  refine h.setOne hlt ?_ hagrees
  intro role fs' hne
  rw [hg, holds_of_ne rfl hne]
  rfl

omit [DecidableEq η] in
/-- A run of the continuation under a guard. -/
theorem runContinuation (h : Inv s) {g : η} {fs : Nat}
    (hg : s.object g = some (.guard (some fs))) :
    Inv (s.access fs (fun c =>
      if 0 < c.destroyed then .error .deletedDereference else .ok { c with ran := c.ran + 1 })
      fun _ s => s) := by
  rcases h.live hg rfl with ⟨hlt, hpos, hlive⟩
  rcases (h.counted fs hlt).run (System.count_pos hg rfl rfl) with ⟨hthere, hagrees⟩
  rw [access_eq (c := { s.shared fs with ran := (s.shared fs).ran + 1 }) hlive
    (if_neg (by omega))]
  refine h.replace rfl rfl ?_ (fun _ _ _ => rfl) hlt ?_
  · intro fs' hne
    exact Function.update_of_ne hne _ _
  · rw [show (s.setShared fs { s.shared fs with ran := (s.shared fs).ran + 1 }).shared fs =
      { s.shared fs with ran := (s.shared fs).ran + 1 } from Function.update_self ..]
    exact hagrees

omit [Fintype η] [DecidableEq η] in
/-- An object that is about to schedule, before and after. -/
theorem scheduled_cases {object x : Object η} {fs : Nat} (h : object.scheduled = some (fs, x)) :
    object.pointee = some fs ∧ x.pointee = some fs ∧ object.plays .pending = true ∧
      x.plays .pending = false ∧ x.plays .promise = object.plays .promise ∧
      x.plays .guard = object.plays .guard := by
  cases object <;> simp only [Object.scheduled, Option.some.injEq, reduceCtorEq, Prod.mk.injEq] at h
  all_goals
    rcases h with ⟨rfl, rfl⟩
    exact ⟨rfl, rfl, rfl, rfl, rfl, rfl⟩

/-- {lit}`scheduleContinuation` constructs the first guards. -/
theorem schedule (h : Inv s) {o : η} {object x : Object η} {fs : Nat} {submits : Bool} {k : Nat}
    (hk : k = if submits then 2 else 1) (ho : s.object o = some object)
    (hscheduled : object.scheduled = some (fs, x)) (hroom : s.count .any fs + k ≤ 255)
    {s' : System η} (hcreated : s'.created = s.created) (hfault : s'.fault = s.fault)
    (hshared : s'.shared = Function.update s.shared fs ((s.shared fs).schedule submits))
    (hcount : ∀ role fs', s'.count role fs' = (s.setObject o (some x)).count role fs' +
      if holds role fs' (some (.guard (some fs)) : Option (Object η)) then k else 0) : Inv s' := by
  rcases scheduled_cases hscheduled with ⟨hpointee, hx, hbusy, hidle, hpromise, hguard⟩
  rcases h.live ho hpointee with ⟨hlt, hpos, -⟩
  have hagrees := h.counted fs hlt
  have hmove : ∀ role, (s.setObject o (some x)).count role fs +
      (if object.plays role then 1 else 0) = s.count role fs + if x.plays role then 1 else 0 := by
    intro role
    rw [count_of_pointee ho hpointee role]
    simp [holds, hx]
  have hguards : ∀ role, s'.count role fs = (s.setObject o (some x)).count role fs +
      if (Object.guard (some fs) : Object η).plays role then k else 0 := by
    intro role
    rw [hcount role fs]
    simp [holds, Object.pointee]
  have hpend : 0 < s.count .pending fs := System.count_pos ho hbusy hpointee
  refine h.replace hcreated hfault ?_ ?_ hlt ?_
  · intro fs' hne
    rw [hshared]
    exact Function.update_of_ne hne _ _
  · intro role fs' hne
    have hother : (s.setObject o (some x)).count role fs' = s.count role fs' := by
      refine s.count_setObject_of_eq o ?_
      rw [ho, holds_of_ne hpointee hne, holds_of_ne hx hne]
    rw [hcount role fs', holds_of_ne rfl hne, hother]
    rfl
  · rw [hshared, Function.update_self]
    have hnone : s.count .guard fs = 0 := by
      refine hagrees.unscheduled ?_
      by_contra hyes
      have hzero := hagrees.pending
      rw [if_neg fun hwaiting => hyes hwaiting.2] at hzero
      omega
    have hany := hmove .any
    have hmovePromise := hmove .promise
    have hmoveGuard := hmove .guard
    have hmovePending := hmove .pending
    rw [hpromise] at hmovePromise
    rw [hguard] at hmoveGuard
    rw [hbusy, hidle] at hmovePending
    refine hagrees.schedule hk hpend hroom hpos ?_ ?_ ?_ ?_
    · rw [hguards .any]
      simp only [Object.plays, if_true] at hany ⊢
      omega
    · rw [hguards .promise]
      simp only [Object.plays, Bool.false_eq_true, if_false] at hmovePromise ⊢
      omega
    · rw [hguards .guard]
      simp only [Object.plays, if_true] at hmoveGuard ⊢
      omega
    · rw [hguards .pending]
      simp only [Object.plays, Bool.false_eq_true, if_false, if_true] at hmovePending ⊢
      omega

/-- One guard, to run the continuation in place. -/
theorem runInplace (h : Inv s) {o g : η} {x : Object η} {fs : Nat}
    (ho : (s.object o).bind Object.scheduled = some (fs, x)) (hg : s.object g = none)
    (hroom : s.count .any fs + 1 ≤ 255) :
    Inv (s.access fs (fun c => .ok (c.schedule false)) fun _ s =>
      (s.setObject o (some x)).setObject g (some (.guard (some fs)))) := by
  rcases Option.bind_eq_some_iff.mp ho with ⟨object, hobject, hscheduled⟩
  rcases h.live hobject (scheduled_cases hscheduled).1 with ⟨-, -, hlive⟩
  rw [access_eq (f := fun c => .ok (c.schedule false)) hlive rfl]
  have hk : 1 = if (false : Bool) = true then 2 else 1 := rfl
  refine h.schedule hk hobject hscheduled hroom rfl rfl rfl ?_
  have hne : g ≠ o := by
    rintro rfl
    rw [hg] at hobject
    cases hobject
  intro role fs'
  have hupdate := (s.setObject o (some x)).count_setObject g (some (.guard (some fs))) role fs'
  rw [show (s.setObject o (some x)).object g = none from
    (Function.update_of_ne hne _ _).trans hg] at hupdate
  exact hupdate

/-- Two guards, to submit the continuation. -/
theorem submit (h : Inv s) {o g g' : η} {x : Object η} {fs : Nat} (hgg : ¬ g = g')
    (ho : (s.object o).bind Object.scheduled = some (fs, x)) (hg : s.object g = none)
    (hg' : s.object g' = none) (hroom : s.count .any fs + 2 ≤ 255) :
    Inv (s.access fs (fun c => .ok (c.schedule true)) fun _ s =>
      ((s.setObject o (some x)).setObject g (some (.guard (some fs)))).setObject g'
        (some (.guard (some fs)))) := by
  rcases Option.bind_eq_some_iff.mp ho with ⟨object, hobject, hscheduled⟩
  rcases h.live hobject (scheduled_cases hscheduled).1 with ⟨-, -, hlive⟩
  rw [access_eq (f := fun c => .ok (c.schedule true)) hlive rfl]
  have hk : 2 = if (true : Bool) = true then 2 else 1 := rfl
  refine h.schedule hk hobject hscheduled hroom rfl rfl rfl ?_
  have hnone : ∀ e, s.object e = none → (s.setObject o (some x)).object e = none := by
    intro e he
    refine (Function.update_of_ne ?_ _ _).trans he
    rintro rfl
    rw [he] at hobject
    cases hobject
  intro role fs'
  have hfirst := (s.setObject o (some x)).count_setObject g (some (.guard (some fs))) role fs'
  have hsecond := ((s.setObject o (some x)).setObject g (some (.guard (some fs)))).count_setObject
    g' (some (.guard (some fs))) role fs'
  rw [hnone g hg] at hfirst
  rw [show ((s.setObject o (some x)).setObject g (some (.guard (some fs)))).object g' = none from
    (Function.update_of_ne (Ne.symm hgg) _ _).trans (hnone g' hg')] at hsecond
  show (((s.setObject o (some x)).setObject g (some (.guard (some fs)))).setObject g'
    (some (.guard (some fs)))).count role fs' = _
  cases hb : holds role fs' (some (.guard (some fs)) : Option (Object η)) with
  | false =>
      rw [hb] at hfirst hsecond
      exact hsecond.trans hfirst
  | true =>
      rw [hb] at hfirst hsecond
      exact hsecond.trans (congrArg (· + 1) hfirst)

end Inv

/-! ## Every operation -/

/-- The references an operation adds: the pointer that is copied and the number
of references. -/
def acquires (s : System η) : Label η → Option (Option Nat × Nat)
  | .copyPromise _ q => ((s.object q).bind Object.source).map fun source => (source.1, 1)
  | .copyPointer p =>
      match s.object p with
      | some (.assigning q) => ((s.object q).bind Object.source).map fun source => (source.1, 1)
      | _ => none
  | .getFuture _ p =>
      match s.object p with
      | some (.promise (some fs) _) => some (some fs, 1)
      | _ => none
  | .copyGuard _ h =>
      match s.object h with
      | some (.guard (some fs)) => some (some fs, 1)
      | _ => none
  | .runInplace o _ => ((s.object o).bind Object.scheduled).map fun next => (some next.1, 1)
  | .submit o _ _ => ((s.object o).bind Object.scheduled).map fun next => (some next.1, 2)
  | _ => none

/-- No promise is copied from a moved-from one, and the references stay below
the limit of the counters. -/
def Fits (s : System η) (l : Label η) : Prop :=
  match acquires s l with
  | none => True
  | some (none, _) => False
  | some (some fs, k) => s.count .any fs + k ≤ 255

instance (s : System η) (l : Label η) : Decidable (Fits s l) :=
  match h : acquires s l with
  | none => isTrue (by simp [Fits, h])
  | some (none, _) => isFalse (by simp [Fits, h])
  | some (some fs, k) => decidable_of_iff (s.count .any fs + k ≤ 255) (by simp [Fits, h])

omit [Fintype η] [DecidableEq η] in
/-- The promise that a pointer is copied from refers to the same state. -/
theorem pointee_of_source {object : Object η} {fs : Nat} {hasFuture : Bool}
    (h : object.source = some (some fs, hasFuture)) : object.pointee = some fs := by
  cases object <;> simp only [Object.source, Option.some.injEq, reduceCtorEq, Prod.mk.injEq] at h
  all_goals
    rcases h with ⟨hfs, -⟩
    simp [Object.pointee, hfs]

/-- A copied promise. -/
theorem Inv.copy {s : System η} (h : Inv s) {p q : η} {source : Option Nat × Bool}
    (hp : ∀ role fs, holds role fs (s.object p) = false)
    (hq : (s.object q).bind Object.source = some source)
    (hfits : match source.1 with
      | none => False
      | some fs => s.count .any fs + 1 ≤ 255) : Inv (s.attachCopy p source.1 source.2) := by
  rcases Option.bind_eq_some_iff.mp hq with ⟨object, hobject, hsource⟩
  rcases source with ⟨- | fs, hasFuture⟩
  · exact hfits.elim
  · exact h.attachCopy hp hobject (pointee_of_source hsource) hfits

/-- Every operation keeps counters and references together. -/
theorem Inv.step {s s' : System η} {l : Label η} (h : Inv s) (hfits : Fits s l)
    (hstep : exec s l = some s') : Inv s' := by
  cases l with
  | newPromise p =>
      simp only [exec] at hstep
      split at hstep
      · next hp =>
          cases hstep
          exact h.newPromise hp
      · cases hstep
  | copyPromise p q =>
      simp only [exec] at hstep
      split at hstep
      · next fs hasFuture hp hq =>
          cases hstep
          refine h.copy (by simp [hp, holds]) hq ?_
          cases fs with
          | none => simp [Fits, acquires, hq] at hfits
          | some fs => simpa [Fits, acquires, hq] using hfits
      · cases hstep
  | assignPromise p q =>
      simp only [exec] at hstep
      split at hstep
      · next fs hasFuture source hp hq =>
          cases hstep
          split
          · exact h
          · exact h.destroyPromise hp
      · cases hstep
  | movePromise p q =>
      simp only [exec] at hstep
      split at hstep
      · next fs hasFuture hp hq =>
          cases hstep
          exact h.moveInto hp hq rfl
      · cases hstep
  | moveAssignPromise p q =>
      simp only [exec] at hstep
      split at hstep
      · next fs hasFuture fs' hasFuture' hp hq =>
          cases hstep
          exact h.swap hp hq
      · cases hstep
  | destroyPromise p =>
      simp only [exec] at hstep
      split at hstep
      · next fs hasFuture hp =>
          cases hstep
          exact h.destroyPromise hp
      · cases hstep
  | setResult p =>
      simp only [exec] at hstep
      split at hstep
      · next fs hasFuture hp =>
          cases hstep
          refine h.setState hp rfl rfl ?_ rfl rfl ?_ ?_
          · intro role hrole
            cases role <;> first | rfl | exact absurd rfl hrole
          · intro hdone
            simp [Counters.setResult, hdone]
          · unfold Counters.setResult
            split <;> rfl
      · cases hstep
        exact h
      · cases hstep
  | getFuture f p =>
      simp only [exec] at hstep
      split at hstep
      · next fs hf hp =>
          cases hstep
          refine h.getFuture hf hp ?_
          simpa [Fits, acquires, hp] using hfits
      · cases hstep
        exact h
      · cases hstep
  | moveFuture f g =>
      simp only [exec] at hstep
      split at hstep
      · next fs hf hg =>
          cases hstep
          exact h.moveInto hf hg rfl
      · cases hstep
  | moveAssignFuture f g =>
      simp only [exec] at hstep
      split at hstep
      · next fs fs' hf hg =>
          cases hstep
          exact h.swap hf hg
      · cases hstep
  | destroyFuture f =>
      simp only [exec] at hstep
      split at hstep
      · next hf =>
          cases hstep
          exact h.setIdle (by simp [hf, holds, Object.pointee]) (by simp [holds])
      · next fs hf =>
          cases hstep
          refine h.detach hf rfl ?_ fun _ _ => rfl
          intro role hrole
          cases role <;> first | rfl | exact absurd rfl hrole
      · cases hstep
  | setContinuation f =>
      simp only [exec] at hstep
      split at hstep
      · next fs hf =>
          cases hstep
          refine h.setState hf rfl rfl ?_ rfl rfl ?_ ?_
          · intro role hrole
            cases role <;> first | rfl | exact absurd rfl hrole
          · intro hdone
            simp [Counters.setContinuation, hdone]
          · unfold Counters.setContinuation
            split <;> rfl
      · cases hstep
        exact h
      · cases hstep
  | copyGuard g g' =>
      simp only [exec] at hstep
      split at hstep
      · next hg hg' =>
          cases hstep
          exact h.setIdle (by simp [hg, holds]) (by simp [holds, Object.pointee])
      · next fs hg hg' =>
          cases hstep
          refine h.copyGuard hg hg' ?_
          simpa [Fits, acquires, hg'] using hfits
      · cases hstep
  | moveGuard g g' =>
      simp only [exec] at hstep
      split at hstep
      · next fs hg hg' =>
          cases hstep
          exact h.moveInto hg hg' rfl
      · cases hstep
  | destroyGuard g =>
      simp only [exec] at hstep
      split at hstep
      · next hg =>
          cases hstep
          exact h.setIdle (by simp [hg, holds, Object.pointee]) (by simp [holds])
      · next fs hg =>
          cases hstep
          exact h.destroyGuard hg
      · cases hstep
  | runContinuation g =>
      simp only [exec] at hstep
      split at hstep
      · next fs hg =>
          cases hstep
          exact h.runContinuation hg
      · cases hstep
  | runInplace o g =>
      simp only [exec] at hstep
      split at hstep
      · next fs x ho hg =>
          cases hstep
          exact h.runInplace ho hg (by simpa [Fits, acquires, ho] using hfits)
      · cases hstep
  | submit o g g' =>
      simp only [exec] at hstep
      split at hstep
      · next fs x ho hg hg' =>
          split at hstep
          · cases hstep
          · next hne =>
              cases hstep
              exact h.submit hne ho hg hg' (by simpa [Fits, acquires, ho] using hfits)
      · cases hstep
  | detachOne p =>
      simp only [exec] at hstep
      split at hstep
      · next fs next hp =>
          cases hstep
          refine h.detach hp rfl ?_ ?_
          · intro role hrole
            cases role <;> first | rfl | exact absurd rfl hrole
          · intro role fs'
            cases next <;> simp [holds, Object.pointee]
      · cases hstep
  | copyPointer p =>
      simp only [exec] at hstep
      split at hstep
      · next q hp =>
          split at hstep
          · next fs hasFuture hq =>
              cases hstep
              refine h.copy (by simp [hp, holds, Object.pointee]) hq ?_
              cases fs with
              | none => simp [Fits, acquires, hp, hq] at hfits
              | some fs => simpa [Fits, acquires, hp, hq] using hfits
          · cases hstep
      · cases hstep

/-! ## Whole runs -/

omit [DecidableEq η] in
theorem Inv.initial : Inv (System.initial : System η) := by
  refine ⟨?_, ?_, rfl⟩
  · intro fs hfs
    exact absurd hfs (Nat.not_lt_zero fs)
  · intro fs _
    simp [System.count, System.initial, tally, holds]

/-- What is promised to the users of handles: nothing null or deleted is used
and no assertion fails, a shared state is deleted once and exactly when no
object refers to it any more, and a continuation that was run is destroyed once
and exactly when no guard is left. -/
structure Released (s : System η) : Prop where
  noFault : s.fault = none
  deleted : ∀ fs, fs < s.created → (s.shared fs).deleted ≤ 1 ∧
    ((s.shared fs).deleted = 1 ↔ ∀ o object, s.object o = some object → object.pointee ≠ some fs)
  destroyed : ∀ fs, fs < s.created → 0 < (s.shared fs).ran → (s.shared fs).destroyed ≤ 1 ∧
    ((s.shared fs).destroyed = 1 ↔ ∀ o, s.object o ≠ some (.guard (some fs)))

omit [DecidableEq η] in
/-- Nothing refers to the shared state. -/
theorem System.count_eq_zero_iff (s : System η) (role : Role) (fs : Nat) :
    s.count role fs = 0 ↔
      ∀ o object, s.object o = some object → object.plays role = true →
        object.pointee ≠ some fs := by
  constructor
  · intro hzero o object ho hplays hpointee
    have hpos := System.count_pos ho hplays hpointee
    omega
  · intro hnone
    by_contra hne
    rcases exists_of_tally_pos (Nat.pos_of_ne_zero hne) with ⟨o, ho⟩
    cases hobject : s.object o with
    | none =>
        rw [hobject] at ho
        cases ho
    | some object =>
        rw [hobject] at ho
        simp only [holds, Bool.and_eq_true, decide_eq_true_eq] at ho
        exact hnone o object hobject ho.1 ho.2

omit [DecidableEq η] in
theorem Inv.released {s : System η} (h : Inv s) : Released s := by
  refine ⟨h.noFault, ?_, ?_⟩
  · intro fs hfs
    rw [(h.counted fs hfs).deleted]
    have hzero := s.count_eq_zero_iff .any fs
    refine ⟨by split <;> omega, ?_⟩
    split
    · next hnone =>
        refine iff_of_true rfl ?_
        intro o object ho
        exact hzero.mp hnone o object ho rfl
    · next hsome =>
        refine iff_of_false (by omega) ?_
        intro hall
        exact hsome (hzero.mpr fun o object ho _ => hall o object ho)
  · intro fs hfs hran
    have hagrees := h.counted fs hfs
    have hscheduled := hagrees.ran hran
    rw [hagrees.destroyed]
    have hzero := s.count_eq_zero_iff .guard fs
    refine ⟨by split <;> omega, ?_⟩
    split
    · next hnone =>
        refine iff_of_true rfl ?_
        intro o ho
        exact hzero.mp hnone.2 o _ ho rfl rfl
    · next hsome =>
        refine iff_of_false (by omega) ?_
        intro hall
        refine hsome ⟨hscheduled, hzero.mpr ?_⟩
        intro o object ho hplays hpointee
        cases object with
        | guard fs' => exact hall o (by rw [ho, show fs' = some fs from hpointee])
        | _ => cases hplays

/-- In every run in which promises are copied from promises with a shared state
and no shared state has more than 255 references at once, the handles are
released as promised. -/
theorem handles_counted (ls : List (Label η)) (s : System η)
    (hfits : machine.RunsWithin Fits System.initial ls)
    (hrun : machine.run System.initial ls = some s) : Released s := by
  have hinv : Inv s := by
    refine machine.runsWithin_invariant ?_ Inv.initial hfits hrun
    intro s l s' h hl hstep
    simp only [machine, h.noFault, if_true] at hstep
    exact h.step hl hstep
  exact hinv.released

/-- A promise is shared with a future; its continuation is submitted when the
promise is overwritten by another one. -/
def overwrittenPromise : List (Label (Fin 6)) :=
  [.newPromise 0, .getFuture 1 0, .newPromise 2, .setContinuation 1, .assignPromise 0 2,
    .submit 0 3 4, .detachOne 0, .copyPointer 0, .copyGuard 5 3, .runContinuation 5,
    .destroyGuard 3, .destroyGuard 4, .destroyGuard 5, .destroyFuture 1]

theorem handles_counted_overwrittenPromise :
    ∃ s, machine.run System.initial overwrittenPromise = some s ∧
      (s.created = 2 ∧ (s.shared 0).deleted = 1 ∧ (s.shared 0).ran = 1 ∧
        (s.shared 1).attached = 2) ∧ Released s := by
  rcases machine.exists_run_of_any System.initial overwrittenPromise
    (fun s => s.created = 2 ∧ (s.shared 0).deleted = 1 ∧ (s.shared 0).ran = 1 ∧
      (s.shared 1).attached = 2) (by decide +kernel) with ⟨s, hrun, hs⟩
  exact ⟨s, hrun, hs, handles_counted overwrittenPromise s (by decide +kernel) hrun⟩

/-! ## Many copies -/

omit [Fintype η] in
/-- Copying a promise into objects that do not exist yet: all of them refer to
its shared state, which counts them. -/
theorem run_copies {s : System η} {p : η} {fs : Nat} {hasFuture : Bool} {copies : List η}
    (hfault : s.fault = none) (hp : s.object p = some (.promise (some fs) hasFuture))
    (hdeleted : (s.shared fs).deleted = 0) (hnodup : copies.Nodup)
    (hfresh : ∀ c ∈ copies, s.object c = none) :
    ∃ t, machine.run s (copies.map fun copy => .copyPromise copy p) = some t ∧ t.fault = none ∧
      (∀ o, t.object o =
        if o ∈ copies then some (.promise (some fs) hasFuture) else s.object o) ∧
      t.shared fs = Counters.attachPromise^[copies.length] (s.shared fs) := by
  induction copies generalizing s with
  | nil => exact ⟨s, rfl, hfault, fun o => by simp, rfl⟩
  | cons c copies ih =>
      rcases List.nodup_cons.mp hnodup with ⟨hc, hnodup⟩
      have hnone := hfresh c List.mem_cons_self
      have hpc : p ≠ c := by
        rintro rfl
        rw [hp] at hnone
        cases hnone
      let copied := (s.setShared fs (s.shared fs).attachPromise).setObject c
        (some (.promise (some fs) hasFuture))
      have hstep : machine.step s (.copyPromise c p) = some copied := by
        simp [machine, hfault, exec, hnone, hp, Object.source, System.attachCopy, System.access,
          hdeleted, copied]
      have hobject : ∀ o, copied.object o =
          if o = c then some (.promise (some fs) hasFuture) else s.object o := by
        intro o
        simp [copied, System.setObject, System.setShared, Function.update_apply]
      have hshared : copied.shared fs = (s.shared fs).attachPromise := by
        simp [copied, System.setObject, System.setShared]
      have hfresh' : ∀ d ∈ copies, copied.object d = none := by
        intro d hd
        rw [hobject, if_neg (ne_of_mem_of_not_mem hd hc)]
        exact hfresh d (List.mem_cons_of_mem c hd)
      rcases ih (s := copied) hfault (by rw [hobject, if_neg hpc]; exact hp)
        (by rw [hshared]; exact hdeleted) hnodup hfresh' with
        ⟨t, hrun, htfault, htobject, htshared⟩
      refine ⟨t, ?_, htfault, ?_, ?_⟩
      · rw [List.map_cons, Machine.run_cons_eq_some]
        exact ⟨copied, hstep, hrun⟩
      · intro o
        rw [htobject o, hobject o]
        by_cases ho : o = c
        · simp [ho]
        · simp [ho]
      · rw [htshared, hshared, List.length_cons, Function.iterate_succ_apply]

omit [Fintype η] in
/-- The destructor of a promise deletes the shared state when its counter has
one reference, whoever else still refers to it. -/
theorem run_lastReference {s : System η} {p q : η} {fs : Nat} {hasFuture hasFuture' : Bool}
    (hfault : s.fault = none) (hp : s.object p = some (.promise (some fs) hasFuture))
    (hq : s.object q = some (.promise (some fs) hasFuture')) (hne : q ≠ p)
    (hdeleted : (s.shared fs).deleted = 0) (hattached : (s.shared fs).attached = 1)
    (hmany : 1 < (s.shared fs).promiseRef) :
    ∃ t, machine.run s [.destroyPromise p, .detachOne p, .destroyPromise q] = some t ∧
      t.fault = some .deletedDereference := by
  have hpos : (s.shared fs).promiseRef ≠ 0 := by omega
  have hstays : (s.shared fs).promiseRef ≠ 1 := by omega
  -- the call that deletes the shared state, and then the use of its address
  simp [Machine.run, machine, exec, hp, hq, hne, hfault, System.destroyPromise, System.access,
    System.setObject, System.setShared, Counters.detachPromise, Counters.detachOne,
    Counters.becomesDone, hdeleted, hattached, hpos, hstays]

/-- One promise has 256 copies. -/
def manyCopies (p q : Fin 257) : List (Label (Fin 257)) :=
  .newPromise p :: (List.finRange 257).tail.map (fun copy => .copyPromise copy p) ++
    [.destroyPromise p, .detachOne p, .destroyPromise q]

/-- With 256 copies the counter of a promise has come back to one. -/
theorem run_manyCopies : ∃ s : System (Fin 257),
    machine.run System.initial (manyCopies 0 1) = some s ∧
      s.fault = some .deletedDereference := by
  let start : System (Fin 257) :=
    { (System.initial.setObject 0 (some (.promise (some 0) false))).setShared 0
        Counters.create.attachPromise with created := 1 }
  have hstart : machine.step System.initial (.newPromise 0) = some start := rfl
  have hsource : start.object 0 = some (.promise (some 0) false) := rfl
  have hzero : (0 : Fin 257) ∉ (List.finRange 257).tail := fun h => mem_tail_finRange.mp h rfl
  have hone : (1 : Fin 257) ∈ (List.finRange 257).tail := mem_tail_finRange.mpr (by decide)
  have hlength : (List.finRange 257).tail.length = 256 := by
    rw [List.length_tail, List.length_finRange]
  have hfresh : ∀ c ∈ (List.finRange 257).tail, start.object c = none := by
    intro c hc
    simp [start, System.initial, System.setObject, System.setShared, mem_tail_finRange.mp hc]
  rcases run_copies rfl hsource rfl (List.nodup_finRange 257).tail hfresh with
    ⟨t, hrun, hfault, hobject, hshared⟩
  have hfirst : t.object 0 = some (.promise (some 0) false) := by
    rw [hobject, if_neg hzero]
    rfl
  have hcopy : t.object 1 = some (.promise (some 0) false) := by rw [hobject, if_pos hone]
  have hcounters : t.shared 0 = ⟨1, 0, 257, .start, 0, false, 0, 0⟩ := by
    rw [hshared, hlength]
    decide +kernel
  rcases run_lastReference hfault hfirst hcopy (by decide) (by rw [hcounters])
    (by rw [hcounters]) (by rw [hcounters]; decide) with ⟨u, hlast, hfaults⟩
  refine ⟨u, ?_, hfaults⟩
  rw [manyCopies, List.cons_append, Machine.run_cons_eq_some]
  exact ⟨start, hstart, machine.run_append hrun hlast⟩

/-- The copy of a moved-from promise dereferences the null pointer; and with 257
promises the destructor of one deletes the shared state of the others. -/
theorem copy_of_moved_promise :
    (∃ s : System (Fin 3), machine.run System.initial
        [.newPromise 0, .movePromise 1 0, .copyPromise 2 0] = some s ∧
      s.fault = some .nullDereference ∧ ¬ Released s) ∧
    ∃ s : System (Fin 257), machine.run System.initial (manyCopies 0 1) = some s ∧
      s.fault = some .deletedDereference ∧ ¬ Released s := by
  refine ⟨?_, ?_⟩
  · rcases machine.exists_run_of_any (System.initial : System (Fin 3))
      [.newPromise 0, .movePromise 1 0, .copyPromise 2 0]
      (fun s => s.fault = some .nullDereference) (by decide) with ⟨s, hrun, hfault⟩
    exact ⟨s, hrun, hfault, fun h => by rw [h.noFault] at hfault; cases hfault⟩
  · rcases run_manyCopies with ⟨s, hrun, hfault⟩
    exact ⟨s, hrun, hfault, fun h => by rw [h.noFault] at hfault; cases hfault⟩

end Handles

end AsyncSimple
