import AsyncSimple.Future.Handles
import Mathlib.Data.Fintype.Basic

/-!
# One future for each shared state

{lit}`getFuture` refuses a second call by the flag {lit}`_hasFuture` of the
{lit}`Promise` object.  The flag is copied and moved with the pointer, but it is not
part of the shared state: a copy that was made before the call does not learn of it.

A history is a run of the operations on handles together with the shared states that
{lit}`getFuture` has handed out.

Main results:

- Theorem {lit}`keeps_of_exec`: apart from new promises and {lit}`getFuture`, every
  pointer with its flag comes from a promise that was there before.
- Theorem {lit}`one_future`: in every history in which {lit}`getFuture` is called when
  no other promise of the same state has its flag unset, each state is handed out at
  most once, and every further call throws.
-/

namespace AsyncSimple

open Transition

namespace Handles

variable {η : Type}

/-! ## Histories -/

/-- The pointer of a promise and its flag. -/
def System.source (s : System η) (q : η) : Option (Option Nat × Bool) :=
  (s.object q).bind Object.source

/-- The shared state that a move hands out: that of a call of {lit}`getFuture` which
does not throw and finds the state alive. -/
def obtains (s : System η) : Label η → Option Nat
  | .getFuture f p =>
      match s.object f, s.object p with
      | none, some (.promise (some fs) false) =>
          if 0 < (s.shared fs).deleted then none else some fs
      | _, _ => none
  | _ => none

/-- The handles, and the shared states that were handed out, in that order. -/
structure History (η : Type) where
  system : System η
  obtained : List Nat

def History.initial : History η where
  system := System.initial
  obtained := []

/-- The operations with their record. -/
def history [DecidableEq η] : Machine (History η) (Label η) where
  step h l := (machine.step h.system l).map fun s =>
    { system := s, obtained := h.obtained ++ (obtains h.system l).toList }

/-- The call ends with the exception and changes nothing. -/
def Throws [DecidableEq η] (s : System η) (f p : η) : Prop :=
  obtains s (.getFuture f p) = none ∧ exec s (.getFuture f p) = some s

/-- Each shared state was handed out at most once, and a further call throws on every
promise that shares it. -/
structure OneEach [DecidableEq η] (h : History η) : Prop where
  once : ∀ fs, h.obtained.count fs ≤ 1
  throws : ∀ fs ∈ h.obtained, ∀ f p hasFuture, h.system.object f = none →
    h.system.object p = some (.promise (some fs) hasFuture) → Throws h.system f p

/-- When {lit}`getFuture` is called, every other promise of the same state has its flag
set. -/
def Sole (h : History η) : Label η → Prop
  | .getFuture _ p =>
      match h.system.source p with
      | some (some fs, false) => ∀ q, q ≠ p → h.system.source q ≠ some (some fs, false)
      | _ => True
  | _ => True

instance [Fintype η] [DecidableEq η] (h : History η) (l : Label η) : Decidable (Sole h l) := by
  unfold Sole
  split
  · split <;> infer_instance
  · infer_instance

/-! ## Where pointers come from -/

@[simp]
theorem System.source_setObject_self [DecidableEq η] (s : System η) (o : η)
    (object : Option (Object η)) : (s.setObject o object).source o = object.bind Object.source := by
  simp [System.source, System.setObject]

theorem System.source_setObject_of_ne [DecidableEq η] (s : System η) {o q : η}
    (object : Option (Object η)) (hne : q ≠ o) : (s.setObject o object).source q = s.source q := by
  simp [System.source, System.setObject, hne]

/-- Every pointer with its flag was there before. -/
structure Keeps (s s' : System η) : Prop where
  created : s'.created = s.created
  source : ∀ q fs hasFuture, s'.source q = some (some fs, hasFuture) →
    ∃ q', s.source q' = some (some fs, hasFuture)

namespace Keeps

variable {s s' : System η}

/-- The objects are the same. -/
theorem of_object (hcreated : s'.created = s.created) (hobject : s'.object = s.object) :
    Keeps s s' := by
  refine ⟨hcreated, ?_⟩
  intro q fs hasFuture hq
  refine ⟨q, ?_⟩
  rw [System.source, ← hobject]
  exact hq

theorem refl (s : System η) : Keeps s s :=
  of_object rfl rfl

theorem trans {s'' : System η} (h : Keeps s s') (h' : Keeps s' s'') : Keeps s s'' := by
  refine ⟨h'.created.trans h.created, ?_⟩
  intro q fs hasFuture hq
  rcases h'.source q fs hasFuture hq with ⟨q', hq'⟩
  exact h.source q' fs hasFuture hq'

variable [DecidableEq η]

/-- One object is replaced by one whose pointer was there. -/
theorem setObject {o : η} {object : Option (Object η)}
    (hfrom : ∀ fs hasFuture, object.bind Object.source = some (some fs, hasFuture) →
      ∃ q, s.source q = some (some fs, hasFuture)) : Keeps s (s.setObject o object) := by
  refine ⟨rfl, ?_⟩
  intro q fs hasFuture hq
  by_cases ho : q = o
  · subst ho
    rw [System.source_setObject_self] at hq
    exact hfrom fs hasFuture hq
  · rw [System.source_setObject_of_ne _ _ ho] at hq
    exact ⟨q, hq⟩

/-- An object that is no promise any more. -/
theorem setOther {o : η} {object : Option (Object η)}
    (hnone : object.bind Object.source = none) : Keeps s (s.setObject o object) := by
  apply setObject
  intro fs hasFuture h
  rw [hnone] at h
  cases h

omit [DecidableEq η] in
/-- The use of a shared state changes no object by itself. -/
theorem access {fs : Nat} {f : Counters → Except Fault Counters}
    {next : Counters → System η → System η}
    (hnext : ∀ c, Keeps (s.setShared fs c) (next c (s.setShared fs c))) :
    Keeps s (s.access fs f next) := by
  unfold System.access
  split
  · exact of_object rfl rfl
  · split
    · exact of_object rfl rfl
    · exact (of_object rfl rfl : Keeps s (s.setShared fs _)).trans (hnext _)

/-- A copy has the pointer and the flag of its source. -/
theorem attachCopy {p q : η} {source : Option Nat × Bool} (hq : s.source q = some source) :
    Keeps s (s.attachCopy p source.1 source.2) := by
  rcases source with ⟨- | fs, flag⟩
  · exact of_object rfl rfl
  · simp only [System.attachCopy]
    apply access
    intro c
    apply setObject
    intro fs' hasFuture h
    refine ⟨q, ?_⟩
    have heq : (some fs, flag) = (some fs', hasFuture) := Option.some.inj h
    rw [← heq]
    exact hq

theorem destroyPromise (p : η) (fs : Option Nat) (next : Next η) :
    Keeps s (s.destroyPromise p fs next) := by
  cases fs with
  | none =>
      apply setOther
      cases next <;> rfl
  | some fs =>
      simp only [System.destroyPromise]
      apply access
      intro c
      apply setOther
      split <;> rfl

/-- Two objects exchange or hand over their pointers. -/
theorem setTwo {o o' : η} {object object' : Option (Object η)}
    (hfrom : ∀ fs hasFuture, object.bind Object.source = some (some fs, hasFuture) →
      ∃ q, s.source q = some (some fs, hasFuture))
    (hfrom' : ∀ fs hasFuture, object'.bind Object.source = some (some fs, hasFuture) →
      ∃ q, s.source q = some (some fs, hasFuture)) :
    Keeps s ((s.setObject o object).setObject o' object') := by
  refine ⟨rfl, ?_⟩
  intro q fs hasFuture hq
  by_cases ho : q = o'
  · subst ho
    rw [System.source_setObject_self] at hq
    exact hfrom' fs hasFuture hq
  · rw [System.source_setObject_of_ne _ _ ho] at hq
    exact (setObject hfrom).source q fs hasFuture hq

end Keeps

variable [DecidableEq η] {s s' : System η}

omit [DecidableEq η] in
/-- The pointer of a promise that is not in a call. -/
theorem System.source_of_promise {q : η} {fs : Option Nat} {hasFuture : Bool}
    (hq : s.object q = some (.promise fs hasFuture)) : s.source q = some (fs, hasFuture) := by
  rw [System.source, hq]
  rfl

omit [DecidableEq η] in
/-- A promise goes on with its pointer behind {lit}`scheduleContinuation`. -/
theorem source_of_scheduled {o : η} {fs fs' : Nat} {object : Object η} {hasFuture : Bool}
    (ho : (s.object o).bind Object.scheduled = some (fs, object))
    (h : object.source = some (some fs', hasFuture)) :
    s.source o = some (some fs', hasFuture) := by
  rw [System.source]
  rcases Option.bind_eq_some_iff.mp ho with ⟨x, hx, hscheduled⟩
  rw [hx, Option.bind_some]
  cases x with
  | setting fs₀ flag =>
      cases hscheduled
      exact h
  | attaching fs₀ | breaking fs₀ next =>
      cases hscheduled
      cases h
  | _ => cases hscheduled

/-- Apart from new promises and {lit}`getFuture`, an operation brings no pointer that
was not there with the same flag. -/
theorem keeps_of_exec {l : Label η} (hnew : ∀ p, l ≠ .newPromise p)
    (hget : ∀ f p, l ≠ .getFuture f p) (hexec : exec s l = some s') : Keeps s s' := by
  cases l with
  | newPromise p => exact absurd rfl (hnew p)
  | getFuture f p => exact absurd rfl (hget f p)
  | copyPromise p q =>
      simp only [exec] at hexec
      split at hexec
      · next fs hasFuture hp hq =>
          cases hexec
          exact Keeps.attachCopy hq
      · cases hexec
  | assignPromise p q =>
      simp only [exec] at hexec
      split at hexec
      · cases hexec
        split
        · exact Keeps.refl s
        · exact Keeps.destroyPromise _ _ _
      · cases hexec
  | movePromise p q =>
      simp only [exec] at hexec
      split at hexec
      · next fs hasFuture hp hq =>
          cases hexec
          refine Keeps.setTwo ?_ (by simp [Object.source])
          intro fs' hasFuture' h
          exact ⟨q, (System.source_of_promise hq).trans h⟩
      · cases hexec
  | moveAssignPromise p q =>
      simp only [exec] at hexec
      split at hexec
      · next fs hasFuture fs' hasFuture' hp hq =>
          cases hexec
          refine Keeps.setTwo ?_ ?_
          · intro fs'' hasFuture'' h
            exact ⟨q, (System.source_of_promise hq).trans h⟩
          · intro fs'' hasFuture'' h
            exact ⟨p, (System.source_of_promise hp).trans h⟩
      · cases hexec
  | destroyPromise p =>
      simp only [exec] at hexec
      split at hexec
      · cases hexec
        exact Keeps.destroyPromise _ _ _
      · cases hexec
  | setResult p =>
      simp only [exec] at hexec
      split at hexec
      · next fs hasFuture hp =>
          cases hexec
          apply Keeps.access
          intro c
          split
          · apply Keeps.setObject
            intro fs' hasFuture' h
            exact ⟨p, (System.source_of_promise (s := s.setShared fs c) hp).trans h⟩
          · exact Keeps.refl _
      · cases hexec
        exact Keeps.refl s
      · cases hexec
  | moveFuture f g | moveAssignFuture f g =>
      simp only [exec] at hexec
      split at hexec
      · cases hexec
        exact Keeps.setTwo (by simp [Object.source]) (by simp [Object.source])
      · cases hexec
  | destroyFuture f =>
      simp only [exec] at hexec
      split at hexec
      · cases hexec
        exact Keeps.setOther rfl
      · cases hexec
        exact Keeps.access fun c => Keeps.setOther rfl
      · cases hexec
  | setContinuation f =>
      simp only [exec] at hexec
      split at hexec
      · cases hexec
        apply Keeps.access
        intro c
        split
        · exact Keeps.setOther rfl
        · exact Keeps.refl _
      · cases hexec
        exact Keeps.refl s
      · cases hexec
  | copyGuard g h =>
      simp only [exec] at hexec
      split at hexec
      · cases hexec
        exact Keeps.setOther rfl
      · cases hexec
        exact Keeps.access fun c => Keeps.setOther rfl
      · cases hexec
  | moveGuard g h =>
      simp only [exec] at hexec
      split at hexec
      · cases hexec
        exact Keeps.setTwo (by simp [Object.source]) (by simp [Object.source])
      · cases hexec
  | destroyGuard g =>
      simp only [exec] at hexec
      split at hexec
      · cases hexec
        exact Keeps.setOther rfl
      · cases hexec
        exact Keeps.access fun c => Keeps.setOther rfl
      · cases hexec
  | runContinuation g =>
      simp only [exec] at hexec
      split at hexec
      · cases hexec
        exact Keeps.access fun c => Keeps.refl _
      · cases hexec
  | runInplace o g =>
      simp only [exec] at hexec
      split at hexec
      · next fs object ho hg =>
          cases hexec
          apply Keeps.access
          intro c
          refine Keeps.setTwo ?_ (by simp [Object.source])
          intro fs' hasFuture h
          exact ⟨o, source_of_scheduled (s := s.setShared fs c) ho h⟩
      · cases hexec
  | submit o g h =>
      simp only [exec] at hexec
      split at hexec
      · next fs object ho hg hh =>
          split at hexec
          · cases hexec
          · cases hexec
            apply Keeps.access
            intro c
            refine Keeps.trans (Keeps.setTwo ?_ (by simp [Object.source])) (Keeps.setOther rfl)
            intro fs' hasFuture h
            exact ⟨o, source_of_scheduled (s := s.setShared fs c) ho h⟩
      · cases hexec
  | detachOne p =>
      simp only [exec] at hexec
      split at hexec
      · next fs next hp =>
          cases hexec
          refine Keeps.access fun c => Keeps.setOther ?_
          cases next <;> rfl
      · cases hexec
  | copyPointer p =>
      simp only [exec] at hexec
      split at hexec
      · split at hexec
        · next q hp fs hasFuture hq =>
            cases hexec
            exact Keeps.attachCopy hq
        · cases hexec
      · cases hexec

/-! ## The invariant -/

/-- The promises of a state that was handed out have their flag set; pointers and
records are about states that exist. -/
structure Matched (h : History η) : Prop where
  nodup : h.obtained.Nodup
  flagged : ∀ q fs hasFuture, h.system.source q = some (some fs, hasFuture) →
    fs ∈ h.obtained → hasFuture = true
  existing : ∀ q fs hasFuture, h.system.source q = some (some fs, hasFuture) →
    fs < h.system.created
  recorded : ∀ fs ∈ h.obtained, fs < h.system.created

namespace Matched

variable {h h' : History η}

omit [DecidableEq η] in
theorem initial : Matched (History.initial : History η) :=
  ⟨List.nodup_nil, by simp [History.initial], by simp [History.initial, System.initial,
    System.source], by simp [History.initial]⟩

omit [DecidableEq η] in
/-- An operation that hands out nothing. -/
theorem keep (hmatched : Matched h) (hkeeps : Keeps h.system s') :
    Matched ⟨s', h.obtained⟩ := by
  refine ⟨hmatched.nodup, ?_, ?_, ?_⟩
  · intro q fs hasFuture hq hfs
    rcases hkeeps.source q fs hasFuture hq with ⟨q', hq'⟩
    exact hmatched.flagged q' fs hasFuture hq' hfs
  · intro q fs hasFuture hq
    rcases hkeeps.source q fs hasFuture hq with ⟨q', hq'⟩
    rw [hkeeps.created]
    exact hmatched.existing q' fs hasFuture hq'
  · intro fs hfs
    rw [hkeeps.created]
    exact hmatched.recorded fs hfs

/-- A new promise has a state that nobody knows. -/
theorem newPromise (hmatched : Matched h) (p : η) (c : Counters) :
    Matched ⟨{ (h.system.setObject p (some (.promise (some h.system.created) false))).setShared
      h.system.created c with created := h.system.created + 1 }, h.obtained⟩ := by
  have hsource : ∀ q fs hasFuture,
      (h.system.setObject p (some (.promise (some h.system.created) false))).source q =
        some (some fs, hasFuture) →
      fs = h.system.created ∨ h.system.source q = some (some fs, hasFuture) := by
    intro q fs hasFuture hq
    by_cases hp : q = p
    · subst hp
      rw [System.source_setObject_self] at hq
      cases hq
      exact Or.inl rfl
    · rw [System.source_setObject_of_ne _ _ hp] at hq
      exact Or.inr hq
  refine ⟨hmatched.nodup, ?_, ?_, ?_⟩
  · intro q fs hasFuture hq hfs
    rcases hsource q fs hasFuture hq with rfl | hold
    · exact absurd (hmatched.recorded _ hfs) (Nat.lt_irrefl _)
    · exact hmatched.flagged q fs hasFuture hold hfs
  · intro q fs hasFuture hq
    rcases hsource q fs hasFuture hq with rfl | hold
    · exact Nat.lt_succ_self _
    · exact Nat.lt_succ_of_lt (hmatched.existing q fs hasFuture hold)
  · intro fs hfs
    exact Nat.lt_succ_of_lt (hmatched.recorded fs hfs)

/-- The state is handed out, and the promise gets its flag; the other promises of
the state have theirs already. -/
theorem getFuture (hmatched : Matched h) {f p : η} {fs : Nat}
    (hf : h.system.object f = none) (hp : h.system.object p = some (.promise (some fs) false))
    (hsole : ∀ q, q ≠ p → h.system.source q ≠ some (some fs, false)) (hobject :
      s'.object = ((h.system.setObject p (some (.promise (some fs) true))).setObject f
        (some (.future (some fs)))).object) (hcreated : s'.created = h.system.created) :
    Matched ⟨s', h.obtained ++ [fs]⟩ := by
  have hpointer := System.source_of_promise hp
  have hsource : ∀ q fs' hasFuture, s'.source q = some (some fs', hasFuture) →
      (q = p ∧ fs' = fs ∧ hasFuture = true) ∨
        (q ≠ p ∧ h.system.source q = some (some fs', hasFuture)) := by
    intro q fs' hasFuture hq
    rw [System.source, hobject, ← System.source] at hq
    by_cases hqf : q = f
    · subst hqf
      rw [System.source_setObject_self] at hq
      cases hq
    · rw [System.source_setObject_of_ne _ _ hqf] at hq
      by_cases hqp : q = p
      · subst hqp
        rw [System.source_setObject_self] at hq
        cases hq
        exact Or.inl ⟨rfl, rfl, rfl⟩
      · rw [System.source_setObject_of_ne _ _ hqp] at hq
        exact Or.inr ⟨hqp, hq⟩
  have hfresh : fs ∉ h.obtained := by
    intro hfs
    cases hmatched.flagged p fs false hpointer hfs
  refine ⟨?_, ?_, ?_, ?_⟩
  · rw [List.nodup_append]
    refine ⟨hmatched.nodup, List.nodup_singleton fs, ?_⟩
    rintro a ha b hb rfl
    rw [List.mem_singleton] at hb
    subst hb
    exact hfresh ha
  · intro q fs' hasFuture hq hfs'
    rcases hsource q fs' hasFuture hq with ⟨-, -, hflag⟩ | ⟨hqp, hold⟩
    · exact hflag
    · rcases List.mem_append.mp hfs' with hmem | hmem
      · exact hmatched.flagged q fs' hasFuture hold hmem
      · rw [List.mem_singleton] at hmem
        subst hmem
        cases hasFuture with
        | true => rfl
        | false => exact absurd hold (hsole q hqp)
  · intro q fs' hasFuture hq
    rw [hcreated]
    rcases hsource q fs' hasFuture hq with ⟨-, rfl, -⟩ | ⟨-, hold⟩
    · exact hmatched.existing p fs' false hpointer
    · exact hmatched.existing q fs' hasFuture hold
  · intro fs' hfs'
    rw [hcreated]
    rcases List.mem_append.mp hfs' with hmem | hmem
    · exact hmatched.recorded fs' hmem
    · rw [List.mem_singleton] at hmem
      subst hmem
      exact hmatched.existing p fs' false hpointer

theorem step (hmatched : Matched h) {l : Label η} (hsole : Sole h l)
    (hstep : history.step h l = some h') : Matched h' := by
  simp only [history, machine, Option.map_eq_some_iff] at hstep
  rcases hstep with ⟨s', hexec, rfl⟩
  rw [Option.ite_none_right_eq_some] at hexec
  replace hexec := hexec.2
  cases l with
  | newPromise p =>
      simp only [exec] at hexec
      split at hexec
      · cases hexec
        simp only [obtains, Option.toList_none, List.append_nil]
        exact hmatched.newPromise p _
      · cases hexec
  | getFuture f p =>
      simp only [exec] at hexec
      split at hexec
      · next fs hf hp =>
          cases hexec
          simp only [Sole, System.source_of_promise hp] at hsole
          simp only [obtains, hf, hp, System.access]
          split
          · rw [Option.toList_none, List.append_nil]
            exact hmatched.keep (Keeps.of_object rfl rfl)
          · exact hmatched.getFuture hf hp hsole rfl rfl
      · next fs hasFuture hother hf hp =>
          cases hexec
          have hnothing : obtains h.system (.getFuture f p) = none := by
            simp only [obtains]
            split
            · next fs' _ hp' =>
                rw [hp] at hp'
                cases hp'
                exact (hother fs' rfl rfl).elim
            · rfl
          rw [hnothing, Option.toList_none, List.append_nil]
          exact hmatched.keep (Keeps.refl h.system)
      · cases hexec
  | _ =>
      have hkeeps := keeps_of_exec (by simp) (by simp) hexec
      simpa [obtains] using hmatched.keep hkeeps

end Matched

/-- The property follows from the flags. -/
theorem Matched.oneEach {h : History η} (hmatched : Matched h) : OneEach h := by
  refine ⟨List.nodup_iff_count_le_one.mp hmatched.nodup, ?_⟩
  intro fs hfs f p hasFuture hf hp
  have hflag := hmatched.flagged p fs hasFuture (System.source_of_promise hp) hfs
  subst hflag
  constructor
  · simp [obtains, hf, hp]
  · simp [exec, hf, hp]

/-- For every history of constructing, copying, moving, assigning and destroying
promises and calling {lit}`getFuture` on them, if every call finds the flag set in all
other promises of the state, each shared state is handed out at most once, and every
further call throws. -/
theorem one_future (ls : List (Label η)) (h : History η)
    (hsole : history.RunsWithin Sole History.initial ls)
    (hrun : history.run History.initial ls = some h) : OneEach h := by
  have hmatched : Matched h :=
    history.runsWithin_invariant (fun _ _ _ hm hok hstep => hm.step hok hstep) Matched.initial
      hsole hrun
  exact hmatched.oneEach

/-- A promise is copied after its future was obtained; the copy refuses. -/
def copiedAfter (p q f g : Fin 4) : List (Label (Fin 4)) :=
  [.newPromise p, .getFuture f p, .copyPromise q p, .getFuture g q]

theorem one_future_copiedAfter :
    ∃ h, history.run History.initial (copiedAfter 0 1 2 3) = some h ∧
      (h.obtained = [0] ∧ h.system.object 1 = some (.promise (some 0) true)) ∧ OneEach h := by
  rcases history.exists_run_of_any History.initial (copiedAfter 0 1 2 3)
    (fun h => h.obtained = [0] ∧ h.system.object 1 = some (.promise (some 0) true))
    (by decide +kernel) with ⟨h, hrun, hs⟩
  exact ⟨h, hrun, hs, one_future (copiedAfter 0 1 2 3) h (by decide +kernel) hrun⟩

/-- A promise is copied, and the future is obtained from both. -/
def copiedBefore (p q f g : Fin 4) : List (Label (Fin 4)) :=
  [.newPromise p, .copyPromise q p, .getFuture f p, .getFuture g q]

theorem two_futures :
    ∃ h, history.run History.initial (copiedBefore 0 1 2 3) = some h ∧
      h.obtained = [0, 0] ∧ h.system.object 2 = some (.future (some 0)) ∧
      h.system.object 3 = some (.future (some 0)) ∧ ¬ OneEach h := by
  rcases history.exists_run_of_any History.initial (copiedBefore 0 1 2 3)
    (fun h => h.obtained = [0, 0] ∧ h.system.object 2 = some (.future (some 0)) ∧
      h.system.object 3 = some (.future (some 0)))
    (by decide +kernel) with ⟨h, hrun, hobtained, hfirst, hsecond⟩
  refine ⟨h, hrun, hobtained, hfirst, hsecond, ?_⟩
  intro hone
  have hcount := hone.once 0
  rw [hobtained] at hcount
  exact absurd hcount (by decide)

end Handles

end AsyncSimple
