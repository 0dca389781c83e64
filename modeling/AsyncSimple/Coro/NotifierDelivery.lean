import AsyncSimple.Coro.Notifier

/-!
# Waits and notifications of a notifier

While the notifier is not signalled, its word is the list of the enqueued awaiters;
the exchange of {lit}`notify` takes the whole list, and nobody else touches it until
the awaiters are resumed.

Main results:

- Theorem {lit}`Inv.step`: the lists, the signal and the record, for every step.
- Theorem {lit}`notifier_delivers`: every wait passes or is resumed once, and a
  {lit}`notify` resumes all awaiters that its exchange has found.
-/

namespace AsyncSimple

open Transition PointerList

namespace Notifier

variable {ι κ : Type}

/-! ## Lists behind a word -/

/-- The pointer in a word. -/
def Word.pointer : Word ι → Option ι
  | .self => none
  | .awaiters head => head

/-- The awaiters met from a word on; the address of the notifier is not among the
links. -/
def Linked (next : ι → Word ι) (w : Word ι) (l : List ι) : Prop :=
  w ≠ .self ∧ Chain (fun i => (next i).pointer) w.pointer l ∧ ∀ a ∈ l, next a ≠ .self

namespace Linked

variable {next : ι → Word ι} {w : Word ι} {l : List ι} {a i : ι}

theorem eq_nil (h : Linked next (.awaiters none) l) : l = [] :=
  chain_none.mp h.2.1

theorem eq_cons (h : Linked next (.awaiters (some a)) l) :
    ∃ rest, l = a :: rest ∧ Linked next (next a) rest := by
  rcases chain_some h.2.1 with ⟨rest, rfl, hrest⟩
  exact ⟨rest, rfl, h.2.2 a List.mem_cons_self, hrest,
    fun b hb => h.2.2 b (List.mem_cons_of_mem _ hb)⟩

theorem cons (h : Linked next (next a) l) : Linked next (.awaiters (some a)) (a :: l) := by
  refine ⟨nofun, ⟨rfl, h.2.1⟩, ?_⟩
  intro b hb
  rcases List.mem_cons.mp hb with rfl | hb
  · exact h.1
  · exact h.2.2 b hb

theorem update [DecidableEq ι] (h : Linked next w l) (hi : i ∉ l) (w' : Word ι) :
    Linked (Function.update next i w') w l := by
  have hne : ∀ b ∈ l, b ≠ i := fun b hb hbi => hi (hbi ▸ hb)
  refine ⟨h.1, h.2.1.congr fun b hb => ?_, fun b hb => ?_⟩
  · rw [Function.update_of_ne (hne b hb)]
  · rw [Function.update_of_ne (hne b hb)]
    exact h.2.2 b hb

end Linked

/-- The awaiters a call still has to resume. -/
def Ahead (next : ι → Word ι) (l : List ι) : NotifierPc ι → Prop
  | .walk w => Linked next w l
  | .resume a w => ∃ rest, l = a :: rest ∧ Linked next w rest
  | .crashed => False
  | _ => l = []

theorem Ahead.update [DecidableEq ι] {next : ι → Word ι} {l : List ι} {pc : NotifierPc ι} {i : ι}
    (h : Ahead next l pc) (hi : i ∉ l) (w : Word ι) : Ahead (Function.update next i w) l pc := by
  cases pc with
  | walk v => exact Linked.update h hi w
  | resume a v =>
      rcases h with ⟨rest, rfl, hrest⟩
      exact ⟨rest, rfl, hrest.update (fun hmem => hi (List.mem_cons_of_mem _ hmem)) w⟩
  | _ => exact h

/-! ## The invariant -/

/-- What a coroutine has loaded is not the address of the notifier. -/
def WaiterPc.Knows (next : Word ι) : WaiterPc ι → Prop
  | .link awaitings => awaitings ≠ .self
  | .cas awaitings => awaitings ≠ .self ∧ next = awaitings
  | _ => True

variable [DecidableEq ι]

/-- The word, the lists of the notifiers and the record. -/
structure Inv (s : System ι κ) (taken : κ → List ι) : Prop where
  owned : Owned s.queue taken
  word : s.word = .self ∧ s.queue = [] ∨ Linked s.next s.word s.queue
  signalled : s.word = .self ↔ s.history.getLast? = some .notify
  ahead : ∀ k, Ahead s.next (taken k) (s.notifier k)
  suspended : ∀ i, s.waiter i = .suspended ↔ Listed s.queue taken i
  knows : ∀ i, (s.waiter i).Knows (s.next i)
  took : ∀ k, s.took k = s.woke k ++ taken k
  before : ∀ k, s.notifier k = .exchange → s.woke k = []
  counts : ∀ i, s.enqueued i = s.resumed i + if s.waiter i = .suspended then 1 else 0
  passes : ∀ p ∈ s.passes, p.2 = some .notify
  faults : s.faults = []

namespace Inv

variable {s s' : System ι κ} {taken : κ → List ι}

theorem initial (next : ι → Word ι) : Inv (System.initial next : System ι κ) fun _ => [] where
  owned := Owned.empty
  word := .inr ⟨nofun, rfl, nofun⟩
  signalled := by simp [System.initial]
  ahead := fun _ => rfl
  suspended := fun i => by simp [System.initial, Listed]
  knows := fun _ => trivial
  took := fun _ => rfl
  before := nofun
  counts := fun i => by simp [System.initial]
  passes := nofun
  faults := rfl

theorem not_listed (h : Inv s taken) {i : ι} (hi : s.waiter i ≠ .suspended) :
    i ∉ s.queue ∧ ∀ k, i ∉ taken k := by
  have hfree := fun hlisted => hi ((h.suspended i).mpr hlisted)
  exact ⟨fun hmem => hfree (.inl hmem), fun k hmem => hfree (.inr ⟨k, hmem⟩)⟩

/-! ### Steps of a coroutine -/

/-- A coroutine that is on no list moves to a program point where it is not
either. -/
theorem setWaiter (h : Inv s taken) {i : ι} {pc : WaiterPc ι} (hi : s.waiter i ≠ .suspended)
    (hpc : pc ≠ .suspended) (hknows : pc.Knows (s.next i)) : Inv (s.setWaiter i pc) taken := by
  refine ⟨h.owned, h.word, h.signalled, h.ahead, ?_, ?_, h.took, h.before, ?_, h.passes, h.faults⟩
  · intro j
    rw [System.setWaiter, ← h.suspended j]
    by_cases hj : j = i
    · subst hj
      simp [hi, hpc]
    · simp [hj]
  · intro j
    by_cases hj : j = i
    · subst hj
      simpa [System.setWaiter] using hknows
    · simpa [System.setWaiter, hj] using h.knows j
  · exact balance_move h.counts hi hpc

/-- A wait that finds the notifier signalled. -/
theorem pass (h : Inv s taken) {i : ι} (hi : s.waiter i ≠ .suspended) (hself : s.word = .self) :
    Inv (s.pass i) taken := by
  have hmoved : Inv (s.setWaiter i .running) taken := h.setWaiter hi nofun trivial
  refine ⟨hmoved.owned, hmoved.word, hmoved.signalled, hmoved.ahead, hmoved.suspended, hmoved.knows,
    hmoved.took, hmoved.before, hmoved.counts, ?_, hmoved.faults⟩
  intro p hp
  rcases List.mem_append.mp hp with hold | hnew
  · exact h.passes p hold
  · rw [List.mem_singleton] at hnew
    rw [hnew]
    exact h.signalled.mp hself

theorem suspendLoop (h : Inv s taken) {i : ι} (hi : s.waiter i ≠ .suspended) :
    Inv (s.suspendLoop i) taken := by
  unfold System.suspendLoop
  split
  case isTrue hself => exact h.pass hi hself
  case isFalse hword => exact h.setWaiter hi nofun hword

/-- {lit}`_next = awaitings`. -/
theorem link (h : Inv s taken) {i : ι} {awaitings : Word ι}
    (hi : s.waiter i = .link awaitings) :
    Inv { s.setWaiter i (.cas awaitings) with
      next := Function.update s.next i awaitings } taken := by
  rcases h.not_listed (i := i) (by simp [hi]) with ⟨hqueue, htaken⟩
  have hne : awaitings ≠ .self := by
    have hknows := h.knows i
    rw [hi] at hknows
    exact hknows
  refine ⟨h.owned, ?_, h.signalled, fun k => (h.ahead k).update (htaken k) _, ?_, ?_, h.took,
    h.before, ?_, h.passes, h.faults⟩
  · rcases h.word with hself | hlinked
    · exact .inl hself
    · exact .inr (hlinked.update hqueue _)
  · intro j
    rw [System.setWaiter, ← h.suspended j]
    by_cases hj : j = i
    · subst hj
      simp [hi]
    · simp [hj]
  · intro j
    by_cases hj : j = i
    · subst hj
      simpa [System.setWaiter, WaiterPc.Knows] using hne
    · simpa [System.setWaiter, hj] using h.knows j
  · exact balance_move h.counts (by simp [hi]) (by simp)

/-- The exchange of the word for the awaiter. -/
theorem enqueue (h : Inv s taken) {i : ι} (hi : s.waiter i = .cas s.word) :
    Inv (s.enqueue i) taken := by
  have hknows := h.knows i
  rw [hi] at hknows
  rcases hknows with ⟨hword, hnext⟩
  have hfree : ¬ Listed s.queue taken i := by
    rw [← h.suspended i, hi]
    nofun
  have hlinked : Linked s.next s.word s.queue := h.word.resolve_left fun hself => hword hself.1
  refine ⟨h.owned.push hfree, .inr ?_, ?_, h.ahead, ?_, ?_, h.took, h.before, ?_, h.passes,
    h.faults⟩
  · apply Linked.cons
    have hlinked' : Linked s.next (s.next i) s.queue := by
      rw [hnext]
      exact hlinked
    exact hlinked'
  · refine iff_of_false nofun ?_
    rw [System.enqueue, System.setWaiter, ← h.signalled]
    exact hword
  · intro j
    rw [System.enqueue, System.setWaiter, listed_push, ← h.suspended j]
    by_cases hj : j = i
    · subst hj
      simp
    · simp [hj]
  · intro j
    by_cases hj : j = i
    · subst hj
      simp [System.enqueue, System.setWaiter, WaiterPc.Knows]
    · simpa [System.enqueue, System.setWaiter, hj] using h.knows j
  · exact balance_enter h.counts (by simp [hi])

theorem waiterStep (h : Inv s taken) {i : ι} {spurious : Bool}
    (hstep : waiterStep s i spurious = some s') : Inv s' taken := by
  unfold Notifier.waiterStep at hstep
  cases hpc : s.waiter i with
  | running | suspended =>
      rw [hpc] at hstep
      cases hstep
  | ready =>
      rw [hpc] at hstep
      cases hstep
      split
      case isTrue hself => exact h.pass (by simp [hpc]) hself
      case isFalse => exact h.setWaiter (by simp [hpc]) nofun trivial
  | load =>
      rw [hpc] at hstep
      cases hstep
      exact h.suspendLoop (by simp [hpc])
  | link awaitings =>
      rw [hpc] at hstep
      cases hstep
      exact h.link hpc
  | cas awaitings =>
      rw [hpc] at hstep
      dsimp only at hstep
      split at hstep
      case isTrue hwon =>
        cases hstep
        rw [← hwon.1] at hpc
        exact h.enqueue hpc
      case isFalse =>
        cases hstep
        exact h.suspendLoop (by simp [hpc])

/-- {lit}`reset` finds no awaiter to discard. -/
theorem reset (h : Inv s taken) : Inv (reset s) taken := by
  refine ⟨h.owned, ?_, ?_, h.ahead, h.suspended, h.knows, h.took, h.before, h.counts, h.passes,
    h.faults⟩
  · simp only [Notifier.reset]
    split
    case isTrue hself =>
      have hqueue : s.queue = [] := by
        rcases h.word with ⟨-, hnil⟩ | hlinked
        · exact hnil
        · exact absurd hself hlinked.1
      rw [hqueue]
      exact .inr ⟨nofun, rfl, nofun⟩
    case isFalse hword => exact .inr (h.word.resolve_left fun hself => hword hself.1)
  · simp only [Notifier.reset, List.getLast?_append, List.getLast?_singleton]
    refine iff_of_false ?_ (by simp)
    split
    · nofun
    case isFalse hword => exact hword

/-! ### Steps of a call of {lit}`notify` -/

variable [DecidableEq κ]

/-- A notifier moves and has the same awaiters ahead. -/
theorem setNotifier (h : Inv s taken) {k : κ} {pc : NotifierPc ι}
    (hahead : Ahead s.next (taken k) pc) (hpc : pc ≠ .exchange) :
    Inv (s.setNotifier k pc) taken := by
  refine ⟨h.owned, h.word, h.signalled, ?_, h.suspended, h.knows, h.took, ?_, h.counts, h.passes,
    h.faults⟩
  · intro k'
    by_cases hk : k' = k
    · subst hk
      simpa [System.setNotifier] using hahead
    · simpa [System.setNotifier, hk] using h.ahead k'
  · intro k' hk'
    by_cases hk : k' = k
    · subst hk
      exact absurd (by simpa [System.setNotifier] using hk') hpc
    · exact h.before k' (by simpa [System.setNotifier, hk] using hk')

theorem call (h : Inv s taken) {k : κ} (hk : taken k = []) :
    Inv { s.setNotifier k .exchange with
      took := Function.update s.took k []
      woke := Function.update s.woke k [] } taken := by
  refine ⟨h.owned, h.word, h.signalled, ?_, h.suspended, h.knows, ?_, ?_, h.counts, h.passes,
    h.faults⟩
  · intro k'
    by_cases hkk : k' = k
    · subst hkk
      simpa [System.setNotifier, Ahead] using hk
    · simpa [System.setNotifier, hkk] using h.ahead k'
  · intro k'
    by_cases hkk : k' = k
    · subst hkk
      simp [hk]
    · simpa [System.setNotifier, hkk] using h.took k'
  · intro k' hk'
    by_cases hkk : k' = k
    · subst hkk
      simp
    · simpa [System.setNotifier, hkk] using
        h.before k' (by simpa [System.setNotifier, hkk] using hk')

/-- The exchange takes the whole list. -/
theorem exchange (h : Inv s taken) {k : κ} (hk : s.notifier k = .exchange)
    (hstep : notifierStep s k = some s') : Inv s' (Function.update taken k s.queue) := by
  have hempty : taken k = [] := by
    have hahead := h.ahead k
    rw [hk] at hahead
    exact hahead
  have hwoke := h.before k hk
  have howned : Owned (s.queue ++ []) taken := by
    rw [List.append_nil]
    exact h.owned
  simp only [notifierStep, hk] at hstep
  cases hstep
  refine ⟨howned.take hempty, .inl ⟨rfl, rfl⟩, ?_, ?_, ?_, h.knows, ?_, ?_, h.counts, h.passes,
    h.faults⟩
  · simp
  · intro k'
    by_cases hkk : k' = k
    · subst hkk
      simp only [System.setNotifier, Function.update_self]
      rcases h.word with ⟨hself, hnil⟩ | hlinked
      · rw [if_pos hself]
        exact hnil
      · rw [if_neg hlinked.1]
        exact hlinked
    · simpa [System.setNotifier, hkk] using h.ahead k'
  · intro i
    have hlisted : Listed [] (Function.update taken k s.queue) i ↔ Listed (s.queue ++ []) taken i :=
      listed_take hempty
    rw [List.append_nil] at hlisted
    exact (h.suspended i).trans hlisted.symm
  · intro k'
    by_cases hkk : k' = k
    · subst hkk
      simp [System.setNotifier, hwoke]
    · simpa [System.setNotifier, hkk] using h.took k'
  · intro k' hk'
    by_cases hkk : k' = k
    · subst hkk
      simp only [System.setNotifier, Function.update_self] at hk'
      split at hk' <;> cases hk'
    · exact h.before k' (by simpa [System.setNotifier, hkk] using hk')

/-- {lit}`resumeWaiters` resumes the awaiter it has stepped over. -/
theorem resume (h : Inv s taken) {k : κ} {a : ι} {w : Word ι} (hk : s.notifier k = .resume a w) :
    ∃ rest, taken k = a :: rest ∧ s.waiter a = .suspended ∧
      Inv ((s.resume k a).setNotifier k (.walk w)) (Function.update taken k rest) := by
  have hahead := h.ahead k
  rw [hk] at hahead
  rcases hahead with ⟨rest, htaken, hlinked⟩
  have hmem : a ∈ taken k := by
    rw [htaken]
    exact List.mem_cons_self
  have hsuspended := (h.suspended a).mpr (.inr ⟨k, hmem⟩)
  refine ⟨rest, htaken, hsuspended, ?_⟩
  rw [System.resume, if_pos hsuspended]
  refine ⟨h.owned.drop htaken, h.word, h.signalled, ?_, ?_, ?_, ?_, ?_, ?_, h.passes, h.faults⟩
  · intro k'
    by_cases hkk : k' = k
    · subst hkk
      simpa [System.setNotifier, System.setWaiter, Ahead] using hlinked
    · simpa [System.setNotifier, System.setWaiter, hkk] using h.ahead k'
  · intro i
    have hdrop := h.owned.listed_drop (b := i) htaken
    rw [← h.suspended i] at hdrop
    refine Iff.trans ?_ hdrop.symm
    by_cases hi : i = a
    · subst hi
      simp [System.setNotifier, System.setWaiter]
    · simp [System.setNotifier, System.setWaiter, hi]
  · intro i
    by_cases hi : i = a
    · subst hi
      simp [System.setNotifier, System.setWaiter, WaiterPc.Knows]
    · simpa [System.setNotifier, System.setWaiter, hi] using h.knows i
  · intro k'
    by_cases hkk : k' = k
    · subst hkk
      simp [System.setNotifier, System.setWaiter, h.took k', htaken]
    · simpa [System.setNotifier, System.setWaiter, hkk] using h.took k'
  · intro k' hk'
    by_cases hkk : k' = k
    · subst hkk
      simp [System.setNotifier] at hk'
    · simpa [System.setNotifier, System.setWaiter, hkk] using
        h.before k' (by simpa [System.setNotifier, System.setWaiter, hkk] using hk')
  · exact balance_leave h.counts hsuspended (by simp)

theorem notifierStep (h : Inv s taken) {k : κ} (hstep : notifierStep s k = some s') :
    ∃ taken', Inv s' taken' := by
  have hahead := h.ahead k
  cases hpc : s.notifier k with
  | idle | returned | crashed =>
      simp only [Notifier.notifierStep, hpc] at hstep
      cases hstep
  | exchange => exact ⟨_, h.exchange hpc hstep⟩
  | walk w =>
      rw [hpc] at hahead
      rcases w with _ | _ | a
      · exact absurd rfl hahead.1
      · simp only [Notifier.notifierStep, hpc] at hstep
        cases hstep
        exact ⟨taken, h.setNotifier (Linked.eq_nil hahead) nofun⟩
      · simp only [Notifier.notifierStep, hpc] at hstep
        cases hstep
        exact ⟨taken, h.setNotifier (Linked.eq_cons hahead) nofun⟩
  | resume a w =>
      simp only [Notifier.notifierStep, hpc] at hstep
      cases hstep
      rcases h.resume hpc with ⟨rest, -, -, hinv⟩
      exact ⟨_, hinv⟩

theorem step (h : Inv s taken) {l : Label ι κ} (hstep : step s l = some s') :
    ∃ taken', Inv s' taken' := by
  cases l with
  | wait i =>
      simp only [Notifier.step] at hstep
      split at hstep
      case h_1 hpc =>
        cases hstep
        exact ⟨taken, h.setWaiter (by simp [hpc]) nofun trivial⟩
      case h_2 => cases hstep
  | waiter i spurious => exact ⟨taken, h.waiterStep hstep⟩
  | notify k =>
      have hahead := h.ahead k
      simp only [Notifier.step] at hstep
      split at hstep
      case h_1 hpc | h_2 hpc =>
        cases hstep
        rw [hpc] at hahead
        exact ⟨taken, h.call hahead⟩
      case h_3 => cases hstep
  | notifier k => exact h.notifierStep hstep
  | reset =>
      cases hstep
      exact ⟨taken, h.reset⟩

/-! ### A call goes on to its end -/

theorem finish_walk (h : Inv s taken) {k : κ} {w : Word ι} (hk : s.notifier k = .walk w) :
    ∃ ks t, (∀ m ∈ ks, m = .notifier k) ∧ machine.run s ks = some t ∧
      t.notifier k = .returned ∧ t.took k = s.took k ∧ t.woke k = s.took k := by
  induction hl : taken k generalizing s taken w with
  | nil =>
      have hahead := h.ahead k
      have htook := h.took k
      rw [hl, List.append_nil] at htook
      rw [hk, hl] at hahead
      rcases w with _ | _ | a
      · exact absurd rfl hahead.1
      · refine ⟨[.notifier k], s.setNotifier k .returned, by simp, ?_, ?_, rfl, htook.symm⟩
        · simp [Machine.run, machine, Notifier.step, Notifier.notifierStep, hk]
        · simp [System.setNotifier]
      · rcases Linked.eq_cons hahead with ⟨rest, hrest, -⟩
        cases hrest
  | cons a rest ih =>
      have hahead := h.ahead k
      rw [hk, hl] at hahead
      have hw : w = .awaiters (some a) := by
        rcases w with _ | _ | b
        · exact absurd rfl hahead.1
        · cases Linked.eq_nil hahead
        · rcases Linked.eq_cons hahead with ⟨rest', heq, -⟩
          cases heq
          rfl
      subst hw
      -- one round of the loop
      have hstep₁ : machine.step s (.notifier k) =
          some (s.setNotifier k (.resume a (s.next a))) := by
        simp [machine, Notifier.step, Notifier.notifierStep, hk]
      have h₁ : Inv (s.setNotifier k (.resume a (s.next a))) taken := by
        refine h.setNotifier ?_ (by simp)
        rw [hl]
        exact Linked.eq_cons hahead
      have hk₁ : (s.setNotifier k (.resume a (s.next a))).notifier k = .resume a (s.next a) := by
        simp [System.setNotifier]
      rcases h₁.resume hk₁ with ⟨rest₁, htaken₁, hsuspended, h₂⟩
      rw [hl] at htaken₁
      cases htaken₁
      have hstep₂ : machine.step (s.setNotifier k (.resume a (s.next a))) (.notifier k) =
          some (((s.setNotifier k (.resume a (s.next a))).resume k a).setNotifier k
            (.walk (s.next a))) := by
        simp [machine, Notifier.step, Notifier.notifierStep, hk₁]
      rcases ih h₂ (w := s.next a) (by simp [System.setNotifier]) (by simp) with
        ⟨ks, t, hks, hrun, hreturned, htook, hwoke⟩
      have hsame : (((s.setNotifier k (.resume a (s.next a))).resume k a).setNotifier k
          (.walk (s.next a))).took k = s.took k := by
        have hsuspended' : s.waiter a = .suspended := hsuspended
        simp [System.setNotifier, System.resume, System.setWaiter, hsuspended']
      rw [hsame] at htook hwoke
      refine ⟨.notifier k :: .notifier k :: ks, t, ?_, ?_, hreturned, htook, hwoke⟩
      · intro m hm
        simp only [List.mem_cons] at hm
        rcases hm with rfl | rfl | hm
        · rfl
        · rfl
        · exact hks m hm
      · exact machine.run_cons_eq_some.mpr ⟨_, hstep₁, machine.run_cons_eq_some.mpr
          ⟨_, hstep₂, hrun⟩⟩

/-- A call that has made its exchange resumes everything it has found. -/
theorem finish (h : Inv s taken) {k : κ} {l : List ι} (hahead : Ahead s.next l (s.notifier k))
    (hne : l ≠ []) :
    ∃ ks t, (∀ m ∈ ks, m = .notifier k) ∧ machine.run s ks = some t ∧
      t.notifier k = .returned ∧ t.took k = s.took k ∧ t.woke k = s.took k := by
  cases hk : s.notifier k with
  | walk w => exact h.finish_walk hk
  | resume a w =>
      rcases h.resume hk with ⟨rest, -, hsuspended, hinv⟩
      have hstep : machine.step s (.notifier k) =
          some ((s.resume k a).setNotifier k (.walk w)) := by
        simp [machine, Notifier.step, Notifier.notifierStep, hk]
      rcases hinv.finish_walk (k := k) (w := w) (by simp [System.setNotifier]) with
        ⟨ks, t, hks, hrun, hreturned, htook, hwoke⟩
      have hsame : ((s.resume k a).setNotifier k (.walk w)).took k = s.took k := by
        simp [System.setNotifier, System.resume, System.setWaiter, hsuspended]
      rw [hsame] at htook hwoke
      refine ⟨.notifier k :: ks, t, ?_, machine.run_cons_eq_some.mpr ⟨_, hstep, hrun⟩, hreturned,
        htook, hwoke⟩
      intro m hm
      rcases List.mem_cons.mp hm with rfl | hm
      · rfl
      · exact hks m hm
  | crashed =>
      rw [hk] at hahead
      exact hahead.elim
  | _ =>
      rw [hk] at hahead
      exact absurd hahead hne

end Inv

/-! ## All runs -/

/-- What holds of a notifier.  No call follows the address of the notifier or resumes
a coroutine that is not suspended; a wait passes only if a {lit}`notify` is the latest
event; an awaiter is resumed at most once for each time it was enqueued; the list
behind the word is that of the awaiters that no {lit}`notify` has found yet, so that
{lit}`reset` finds none; an awaiter that was not resumed is on that list or was found
by a call that still has it ahead; and a call that has returned has resumed what it
has found. -/
structure Delivers (s : System ι κ) : Prop where
  faults : s.faults = []
  passes : ∀ p ∈ s.passes, p.2 = some .notify
  once : ∀ i, s.resumed i ≤ s.enqueued i ∧ s.enqueued i ≤ s.resumed i + 1
  list : s.word = .self ∧ s.queue = [] ∨ Linked s.next s.word s.queue
  kept : ∀ i, s.enqueued i = s.resumed i + 1 → i ∈ s.queue ∨
    ∃ k l, s.took k = s.woke k ++ l ∧ Ahead s.next l (s.notifier k) ∧ i ∈ l
  returned : ∀ k, s.notifier k = .returned → s.woke k = s.took k

theorem Inv.delivers {s : System ι κ} {taken : κ → List ι} (h : Inv s taken) : Delivers s where
  faults := h.faults
  passes := h.passes
  once := balance_bounds h.counts
  list := h.word
  kept := by
    intro i hi
    have hsuspended := inside_of_lt h.counts (by omega : s.resumed i < s.enqueued i)
    rcases (h.suspended i).mp hsuspended with hqueue | ⟨k, hk⟩
    · exact .inl hqueue
    · exact .inr ⟨k, taken k, h.took k, h.ahead k, hk⟩
  returned := by
    intro k hk
    have hahead := h.ahead k
    rw [hk] at hahead
    have hnil : taken k = [] := hahead
    have htook := h.took k
    rw [hnil, List.append_nil] at htook
    exact htook.symm

/-- In every run of waits, notifications and resets, in any order of the steps, the
notifier keeps its promise, and a {lit}`notify` that has found awaiters goes on to
resume all of them. -/
theorem notifier_delivers [DecidableEq κ] (next : ι → Word ι) (ls : List (Label ι κ))
    (s : System ι κ) (hrun : machine.run (System.initial next) ls = some s) :
    Delivers s ∧ ∀ k l, Ahead s.next l (s.notifier k) → l ≠ [] →
      ∃ ks t, (∀ m ∈ ks, m = .notifier k) ∧ machine.run s ks = some t ∧
        t.notifier k = .returned ∧ t.took k = s.took k ∧ t.woke k = s.took k := by
  have hinv : ∃ taken, Inv s taken := by
    refine Machine.run_invariant machine (P := fun s : System ι κ => ∃ taken, Inv s taken) ?_
      ⟨fun _ => [], Inv.initial next⟩ hrun
    intro s l s' h hstep
    rcases h with ⟨taken, hinv⟩
    exact hinv.step hstep
  rcases hinv with ⟨taken, hinv⟩
  exact ⟨hinv.delivers, fun k l => hinv.finish⟩

/-- Coroutine {lit}`i` is resumed by the first {lit}`notify` and waits again after a
{lit}`reset` while the walk goes on; coroutine {lit}`j` loses a race with that
{lit}`notify` and passes. -/
def waitAgain (i j : Fin 2) (k : Fin 1) : List (Label (Fin 2) (Fin 1)) :=
  [.wait i, .waiter i false, .waiter i false, .waiter i false, .waiter i false, .wait j,
    .waiter j false, .waiter j false, .waiter j false, .notify k, .notifier k, .waiter j false,
    .notifier k, .notifier k, .reset, .wait i, .waiter i false, .waiter i false, .waiter i false,
    .waiter i false]

theorem notifier_delivers_waitAgain :
    ∃ s : System (Fin 2) (Fin 1),
      machine.run (System.initial fun _ => .awaiters none) (waitAgain 0 1 0) = some s ∧
      (s.passes = [(1, some .notify)] ∧ s.queue = [0] ∧ s.enqueued 0 = 2 ∧ s.resumed 0 = 1 ∧
        s.notifier 0 = .walk (.awaiters none)) ∧
      Delivers s := by
  rcases machine.exists_run_of_any (System.initial fun _ => .awaiters none) (waitAgain 0 1 0)
    (fun s => s.passes = [(1, some .notify)] ∧ s.queue = [0] ∧ s.enqueued 0 = 2 ∧
      s.resumed 0 = 1 ∧ s.notifier 0 = .walk (.awaiters none))
    (by decide) with ⟨s, hrun, hs⟩
  exact ⟨s, hrun, hs, (notifier_delivers _ (waitAgain 0 1 0) s hrun).1⟩

end Notifier

end AsyncSimple
