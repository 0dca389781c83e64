import AsyncSimple.Coro.Generator
import Mathlib.Data.List.Basic

/-!
# The active coroutines of a generator

The active coroutines form a tower of levels.  A level is a generator that is iterated, the
root, with the generators nested in it; the innermost coroutine of a level is in a loop over
the root of the next level.  This module says how {lit}`info_`, the awaiters and
{lit}`top_` of the root represent a tower, and what entering and leaving a nested generator
does to them.

Main results:

- Theorem {lit}`Tower.update`: a step of the innermost body leaves the pointers alone.
- Theorem {lit}`Tower.enter`: {lit}`NestedAwaiter::await_suspend`.
- Theorem {lit}`Tower.leave`: {lit}`FinalAwaiter::await_suspend`.
- Theorems {lit}`Linked.parent_chain` and {lit}`Linked.awaited_chain`: the way from the
  innermost generator to the root, and back.
-/

namespace AsyncSimple

namespace Generator

variable {ε ν : Type}

/-! ## The tower of active coroutines -/

/-- An active coroutine and what is left of its body. -/
structure Act (ε ν : Type) where
  handle : Handle
  items : List (Item ε ν)

/-- A generator that is iterated: the innermost coroutine and its parents up to the root. -/
structure Level (ε ν : Type) where
  act : Act ε ν
  parents : List (Act ε ν)
  root : Handle

def Level.handles (level : Level ε ν) : List Handle :=
  level.act.handle :: level.parents.map Act.handle

def Level.items (level : Level ε ν) : List (Item ε ν) :=
  level.act.items ++ level.parents.flatMap Act.items

def handles (tower : List (Level ε ν)) : List Handle :=
  tower.flatMap Level.handles

def itemsOf (tower : List (Level ε ν)) : List (Item ε ν) :=
  tower.flatMap Level.items

/-- From a coroutine to the root, {lit}`info_` leads to the parents, and each of them waits
in the awaiter for the one before it. -/
def Linked (s : State ε ν) (root : Handle) : Handle → List (Act ε ν) → Prop
  | h, [] => h = root ∧ s.info h = none
  | h, p :: parents => s.info h = some p.handle ∧
      s.point p.handle = .nested h ⟨none, p.handle, root⟩ ∧ s.items p.handle = p.items ∧
      Linked s root p.handle parents

structure Holds (s : State ε ν) (level : Level ε ν) : Prop where
  linked : Linked s level.root level.act.handle level.parents
  items_eq : s.items level.act.handle = level.act.items
  top_eq : s.top level.root = level.act.handle

/-- Who iterates the generator: the consumer, or a loop in the innermost coroutine of the
next level. -/
def Attached (s : State ε ν) (root : Handle) : List (Level ε ν) → Prop
  | [] => root = s.it
  | outer :: _ => s.point outer.act.handle = .loop root

/-- Innermost level first. -/
def Tower (s : State ε ν) : List (Level ε ν) → Prop
  | [] => True
  | level :: outer => Holds s level ∧ Attached s level.root outer ∧ Tower s outer

/-- The coroutines of a tower are different ones, and none of them is still to be made. -/
structure Separate (s : State ε ν) (tower : List (Level ε ν)) : Prop where
  nodup : (handles tower).Nodup
  lt_next : ∀ h ∈ handles tower, h < s.next

/-- The two states have the same at a coroutine, as far as a tower is concerned. -/
structure Agree (s s' : State ε ν) (h : Handle) : Prop where
  info : s'.info h = s.info h
  point : s'.point h = s.point h
  items : s'.items h = s.items h
  top : s'.top h = s.top h

section Towers

variable {s s' : State ε ν}

theorem Linked.root_mem {root h : Handle} {parents : List (Act ε ν)}
    (hlinked : Linked s root h parents) : root ∈ h :: parents.map Act.handle := by
  induction parents generalizing h with
  | nil => simp [hlinked.1]
  | cons p parents ih => exact List.mem_cons_of_mem _ (ih hlinked.2.2.2)

/-- A root with a nested generator waits for it. -/
theorem Linked.root_nested {root h : Handle} {p : Act ε ν} {parents : List (Act ε ν)}
    (hlinked : Linked s root h (p :: parents)) :
    ∃ gen, s.point root = .nested gen ⟨none, root, root⟩ := by
  induction parents generalizing h p with
  | nil =>
      rcases hlinked with ⟨-, hpoint, -, hroot, -⟩
      rw [hroot] at hpoint
      exact ⟨h, hpoint⟩
  | cons q parents ih => exact ih hlinked.2.2.2

/-- The coroutines of a chain of parents keep what the chain says. -/
theorem Linked.congr {root h : Handle} {parents : List (Act ε ν)}
    (hlinked : Linked s root h parents) (hinfo : ∀ x ∈ h :: parents.map Act.handle,
      s'.info x = s.info x)
    (hparents : ∀ p ∈ parents, s'.point p.handle = s.point p.handle ∧
      s'.items p.handle = s.items p.handle) : Linked s' root h parents := by
  induction parents generalizing h with
  | nil => exact ⟨hlinked.1, (hinfo h (by simp)).trans hlinked.2⟩
  | cons p parents ih =>
      rcases hlinked with ⟨hparent, hpoint, hitems, hrest⟩
      have hp := hparents p (by simp)
      refine ⟨(hinfo h (by simp)).trans hparent, hp.1.trans hpoint, hp.2.trans hitems, ?_⟩
      exact ih hrest (fun x hx => hinfo x (List.mem_cons_of_mem _ hx))
        fun q hq => hparents q (List.mem_cons_of_mem _ hq)

theorem Holds.root_mem {level : Level ε ν} (h : Holds s level) : level.root ∈ level.handles :=
  h.linked.root_mem

theorem Holds.congr {level : Level ε ν} (h : Holds s level)
    (hagree : ∀ x ∈ level.handles, Agree s s' x) : Holds s' level where
  linked := h.linked.congr (fun x hx => (hagree x hx).info) fun p hp =>
    have hp := hagree p.handle (List.mem_cons_of_mem _ (List.mem_map_of_mem hp))
    ⟨hp.point, hp.items⟩
  items_eq := (hagree _ (by simp [Level.handles])).items.trans h.items_eq
  top_eq := (hagree _ h.root_mem).top.trans h.top_eq

theorem Attached.congr {root : Handle} {outer : List (Level ε ν)} (h : Attached s root outer)
    (hit : s'.it = s.it) (hagree : ∀ x ∈ handles outer, s'.point x = s.point x) :
    Attached s' root outer := by
  cases outer with
  | nil => exact h.trans hit.symm
  | cons o rest => exact (hagree o.act.handle (by simp [handles, Level.handles])).trans h

@[simp]
theorem handles_cons (level : Level ε ν) (outer : List (Level ε ν)) :
    handles (level :: outer) = level.handles ++ handles outer :=
  List.flatMap_cons

/-- A state that agrees on the coroutines of a tower has the same tower. -/
theorem Tower.congr {tower : List (Level ε ν)} (htower : Tower s tower) (hit : s'.it = s.it)
    (hagree : ∀ x ∈ handles tower, Agree s s' x) : Tower s' tower := by
  induction tower with
  | nil => trivial
  | cons level outer ih =>
      rcases htower with ⟨hholds, hattached, houter⟩
      have hin : ∀ x ∈ handles outer, Agree s s' x := fun x hx => hagree x (by simp [hx])
      exact ⟨hholds.congr fun x hx => hagree x (by simp [hx]),
        hattached.congr hit fun x hx => (hin x hx).point, ih houter hin⟩

/-- The innermost coroutine goes on with other items. -/
theorem Tower.update {level : Level ε ν} {outer : List (Level ε ν)}
    (htower : Tower s (level :: outer)) (hnodup : (handles (level :: outer)).Nodup)
    (hothers : ∀ x ∈ handles (level :: outer), x ≠ level.act.handle → Agree s s' x)
    (hit : s'.it = s.it)
    (hinfo : s'.info level.act.handle = s.info level.act.handle)
    (htop : s'.top level.act.handle = s.top level.act.handle) :
    Tower s' ({ level with act := ⟨level.act.handle, s'.items level.act.handle⟩ } :: outer) := by
  rcases htower with ⟨hholds, hattached, houter⟩
  have hparents : ∀ x ∈ level.parents.map Act.handle, Agree s s' x := by
    intro x hx
    refine hothers x (by simp [Level.handles, hx]) ?_
    rintro rfl
    simp only [handles_cons, Level.handles, List.cons_append, List.nodup_cons,
      List.mem_append] at hnodup
    exact hnodup.1 (.inl hx)
  have hin : ∀ x ∈ handles outer, Agree s s' x := by
    intro x hx
    refine hothers x (by simp [hx]) ?_
    rintro rfl
    simp only [handles_cons, Level.handles, List.cons_append, List.nodup_cons,
      List.mem_append] at hnodup
    exact hnodup.1 (.inr hx)
  refine ⟨⟨hholds.linked.congr ?_ ?_, rfl, ?_⟩,
    hattached.congr hit fun x hx => (hin x hx).point, houter.congr hit hin⟩
  · intro x hx
    rcases List.mem_cons.mp hx with rfl | hx
    · exact hinfo
    · exact (hparents x hx).info
  · intro p hp
    have hagree := hparents p.handle (List.mem_map_of_mem hp)
    exact ⟨hagree.point, hagree.items⟩
  · refine Eq.trans ?_ hholds.top_eq
    rcases List.mem_cons.mp hholds.root_mem with hroot | hroot
    · rw [hroot]
      exact htop
    · exact (hparents _ hroot).top

/-- The generator that is about to enter another one knows its root. -/
theorem Linked.rootOf_eq {root h : Handle} {parents : List (Act ε ν)}
    (hlinked : Linked s root h parents) : rootOf s h = some root := by
  cases parents with
  | nil => rw [rootOf, hlinked.2, hlinked.1]
  | cons p parents =>
      simp only [rootOf, hlinked.1, hlinked.2.1]
      rfl

/-! ## Entering and leaving a generator -/

/-- The level after its innermost coroutine has entered a nested generator. -/
def Level.enter (level : Level ε ν) (n : Handle) (body : Body ε ν) : Level ε ν where
  act := ⟨n, [.stmt body]⟩
  parents := level.act :: level.parents
  root := level.root

variable {level : Level ε ν} {outer : List (Level ε ν)}

theorem Separate.not_mem_parents (h : Separate s (level :: outer)) :
    level.act.handle ∉ level.parents.map Act.handle := by
  have hnodup := h.nodup
  simp only [handles_cons, Level.handles, List.cons_append, List.nodup_cons,
    List.mem_append, not_or] at hnodup
  exact hnodup.1.1

theorem Separate.disjoint (h : Separate s (level :: outer)) {x y : Handle}
    (hx : x ∈ level.handles) (hy : y ∈ handles outer) : y ≠ x := by
  have hnodup := h.nodup
  rw [handles_cons, List.nodup_append] at hnodup
  exact fun heq => hnodup.2.2 x hx y hy heq.symm

theorem Separate.ne_next (h : Separate s (level :: outer)) {x : Handle}
    (hx : x ∈ handles (level :: outer)) : x ≠ s.next :=
  Nat.ne_of_lt (h.lt_next x hx)

/-- {lit}`NestedAwaiter::await_suspend` with a new generator: the pointers are right. -/
theorem Tower.enter {body : Body ε ν} {n : Handle} (htower : Tower s (level :: outer))
    (hsep : Separate s (level :: outer)) (hfresh : n ∉ handles (level :: outer))
    (hitems : s.items n = [.stmt body])
    (hpoint : s'.point = Function.update s.point level.act.handle
      (.nested n ⟨none, level.act.handle, level.root⟩))
    (htop : s'.top = Function.update s.top level.root n)
    (hinfo : s'.info = Function.update s.info n (some level.act.handle))
    (hsame : s'.items = s.items) (hit : s'.it = s.it) :
    Tower s' (level.enter n body :: outer) := by
  rcases htower with ⟨hholds, hattached, houter⟩
  have hne : ∀ x ∈ handles (level :: outer), x ≠ n := fun x hx heq => hfresh (heq ▸ hx)
  have hin : ∀ x ∈ handles outer, Agree s s' x := by
    intro x hx
    have hact := hsep.disjoint (x := level.act.handle) (by simp [Level.handles]) hx
    have hroot := hsep.disjoint hholds.root_mem hx
    refine ⟨?_, ?_, by rw [hsame], ?_⟩
    · rw [hinfo, Function.update_of_ne (hne x (by simp [hx]))]
    · rw [hpoint, Function.update_of_ne hact]
    · rw [htop, Function.update_of_ne hroot]
  refine ⟨⟨⟨?_, ?_, ?_, ?_⟩, ?_, ?_⟩, hattached.congr hit fun x hx => (hin x hx).point,
    houter.congr hit hin⟩
  · rw [hinfo]
    exact Function.update_self ..
  · rw [hpoint]
    exact Function.update_self ..
  · rw [hsame]
    exact hholds.items_eq
  · refine hholds.linked.congr ?_ ?_
    · intro x hx
      rw [hinfo, Function.update_of_ne (hne x (List.mem_append_left _ hx))]
    · intro p hp
      have hact : p.handle ≠ level.act.handle := fun heq =>
        hsep.not_mem_parents (heq ▸ List.mem_map_of_mem hp)
      rw [hpoint, hsame, Function.update_of_ne hact]
      exact ⟨rfl, rfl⟩
  · rw [hsame]
    exact hitems
  · rw [htop]
    exact Function.update_self ..

/-- {lit}`FinalAwaiter::await_suspend` of a nested generator: the pointers are right. -/
theorem Tower.leave {p : Act ε ν} {parents : List (Act ε ν)} {root h : Handle}
    {items : List (Item ε ν)} {r : Option ε}
    (htower : Tower s (⟨⟨h, items⟩, p :: parents, root⟩ :: outer))
    (hsep : Separate s (⟨⟨h, items⟩, p :: parents, root⟩ :: outer))
    (hpoint : s'.point = Function.update
      (Function.update s.point p.handle (.nested h ⟨r, p.handle, root⟩)) h .done)
    (htop : s'.top = Function.update s.top root p.handle)
    (hinfo : s'.info = Function.update s.info h none)
    (hsame : s'.items = s.items) (hit : s'.it = s.it) :
    Tower s' (⟨p, parents, root⟩ :: outer) := by
  rcases htower with ⟨⟨⟨hparent, hawaits, hitems, hlinked⟩, hact, -⟩, hattached, houter⟩
  have hroot : root ∈ p.handle :: parents.map Act.handle := hlinked.root_mem
  have hin : ∀ x ∈ handles outer, Agree s s' x := by
    intro x hx
    have hh := hsep.disjoint (x := h) (by simp [Level.handles]) hx
    have hp := hsep.disjoint (x := p.handle) (by simp [Level.handles]) hx
    have hr := hsep.disjoint (x := root) (List.mem_cons_of_mem _ hroot) hx
    refine ⟨?_, ?_, by rw [hsame], ?_⟩
    · rw [hinfo, Function.update_of_ne hh]
    · rw [hpoint, Function.update_of_ne hh, Function.update_of_ne hp]
    · rw [htop, Function.update_of_ne hr]
  have hnot : ∀ x ∈ p.handle :: parents.map Act.handle, x ≠ h := fun x hx heq =>
    hsep.not_mem_parents (heq ▸ hx)
  refine ⟨⟨hlinked.congr ?_ ?_, ?_, ?_⟩, hattached.congr hit fun x hx => (hin x hx).point,
    houter.congr hit hin⟩
  · intro x hx
    rw [hinfo, Function.update_of_ne (hnot x hx)]
  · intro q hq
    have hmem : q.handle ∈ parents.map Act.handle := List.mem_map_of_mem hq
    have hqp : q.handle ≠ p.handle := by
      have hnodup := hsep.nodup
      simp only [handles_cons, Level.handles, List.map_cons, List.cons_append, List.nodup_cons,
        List.mem_append, not_or] at hnodup
      exact fun heq => hnodup.2.1.1 (heq ▸ hmem)
    rw [hpoint, hsame, Function.update_of_ne (hnot _ (List.mem_cons_of_mem _ hmem)),
      Function.update_of_ne hqp]
    exact ⟨rfl, rfl⟩
  · rw [hsame]
    exact hitems
  · rw [htop]
    exact Function.update_self ..

/-! ## The way through a level -/

theorem Linked.parent_chain {root h : Handle} {parents : List (Act ε ν)}
    (hlinked : Linked s root h parents) :
    PointerList.Chain s.parent (some h) (h :: parents.map Act.handle) := by
  induction parents generalizing h with
  | nil =>
      refine ⟨rfl, ?_⟩
      rw [State.parent, hlinked.2]
      rfl
  | cons p parents ih =>
      refine ⟨rfl, ?_⟩
      have hparent : s.parent h = some p.handle := by
        rw [State.parent, hlinked.1, Option.bind_some, hlinked.2.1]
        rfl
      rw [hparent]
      exact ih hlinked.2.2.2

theorem Linked.awaited_chain {root h : Handle} {parents : List (Act ε ν)}
    (hlinked : Linked s root h parents) (tail : List Handle)
    (htail : PointerList.Chain s.awaited (s.awaited h) tail) :
    PointerList.Chain s.awaited (some root) ((parents.map Act.handle).reverse ++ h :: tail) := by
  induction parents generalizing h tail with
  | nil =>
      rw [← hlinked.1]
      exact ⟨rfl, htail⟩
  | cons p parents ih =>
      have hawaited : s.awaited p.handle = some h := by rw [State.awaited, hlinked.2.1]
      have hchain := ih hlinked.2.2.2 (h :: tail) (by
        rw [hawaited]
        exact ⟨rfl, htail⟩)
      simpa using hchain

end Towers

end Generator

end AsyncSimple
