import AsyncSimple.Coro.GeneratorTower
import Mathlib.Data.Prod.Lex

/-!
# Iterating a generator gives its flattening

What is left of the bodies of all active coroutines, one after the other, is a list of
items, and the elements that are still to come are those of this list: it does not matter
where one coroutine ends and the next one begins.  A step moves between a coroutine and the
loops around it, or takes an item; so the number of steps is bounded by a rank with two
parts.

Main results:

- Theorem {lit}`Inv.step`: every step keeps the elements read and those to come together.
- Theorem {lit}`iterate_flatten`: a consumer reads the flattening of the body, and so it
  does with loops in the place of {lit}`co_yield elements_of`; whenever it is suspended,
  {lit}`top_` is the innermost generator.
-/

namespace AsyncSimple

open Transition

namespace Generator

variable {ε ν : Type}

/-! ## Elements to come -/

/-- The elements of the items, entered normally or with an exception. -/
def runItems : List (Item ε ν) → Option ε → Trace ε ν
  | [], r => ([], r)
  | .stmt body :: rest, none => Trace.andThen body.flatten (runItems rest)
  | .stmt _ :: rest, some e => runItems rest (some e)
  | .endTry _ :: rest, none => runItems rest none
  | .endTry handler :: rest, some e => Trace.andThen (handler e).flatten (runItems rest)

/-- A bound on the steps that a statement takes. -/
def Body.cost : Body ε ν → Nat
  | .skip => 1
  | .coYield _ => 1
  | .elementsOf gen => gen.cost + 2
  | .elementsOfRange range => 2 * range.length + 3
  | .forEach gen => gen.cost + 2
  | .throw _ => 1
  | .seq first second => first.cost + 1 + match first.flatten.2 with
      | none => second.cost
      | some _ => 1
  | .tryCatch body handler => body.cost + 2 + match body.flatten.2 with
      | none => 0
      | some e => (handler e).cost

/-- A bound on the steps that the items take. -/
def itemsCost : List (Item ε ν) → Option ε → Nat
  | [], _ => 0
  | .stmt body :: rest, none => body.cost + itemsCost rest body.flatten.2
  | .stmt _ :: rest, some e => itemsCost rest (some e) + 1
  | .endTry _ :: rest, none => itemsCost rest none + 1
  | .endTry handler :: rest, some e =>
      (handler e).cost + itemsCost rest (handler e).flatten.2 + 1

@[simp]
theorem flatten_yieldAll (range : List ν) :
    (yieldAll range : Body ε ν).flatten = (range, none) := by
  induction range with
  | nil => rfl
  | cons v range ih => simp [yieldAll, Body.flatten, Trace.andThen, ih]

theorem cost_yieldAll (range : List ν) :
    (yieldAll range : Body ε ν).cost = 2 * range.length + 1 := by
  induction range with
  | nil => rfl
  | cons v range ih =>
      change 1 + 1 + (yieldAll range : Body ε ν).cost = _
      rw [ih, List.length_cons]
      omega

theorem Trace.andThen_assoc (t : Trace ε ν) (f g : Option ε → Trace ε ν) :
    (t.andThen f).andThen g = t.andThen fun r => (f r).andThen g := by
  simp [Trace.andThen]

/-- Loops give the same elements. -/
theorem flatten_reYield (body : Body ε ν) : body.reYield.flatten = body.flatten := by
  induction body with
  | elementsOfRange range => exact flatten_yieldAll range
  | elementsOf gen ih | forEach gen ih => exact ih
  | seq first second ihfirst ihsecond =>
      simp only [Body.reYield, Body.flatten, ihfirst, ihsecond]
  | tryCatch body handler ih ihhandler =>
      simp only [Body.reYield, Body.flatten, ih, ihhandler]
  | skip | coYield | throw => rfl

/-! ## The invariant -/

/-- The body goes on, normally or with an exception. -/
def going (h : Handle) : Option ε → Control ε
  | none => .running h
  | some e => .raising h e

theorem going_ne_suspended (h : Handle) (r : Option ε) : going h r ≠ .suspended := by
  cases r <;> simp [going]

/-- The levels, and which of them are inside {lit}`resume()`: those outside of
{lit}`level`. -/
structure Standing (s : State ε ν) (inner : List (Level ε ν)) (level : Level ε ν)
    (outer : List (Level ε ν)) : Prop where
  tower : Tower s (inner ++ level :: outer)
  separate : Separate s (inner ++ level :: outer)
  stack_eq : s.stack = outer.map fun l => l.act.handle

/-- The innermost coroutine is at its start or at a {lit}`co_yield` of a value. -/
def Ready (s : State ε ν) : List (Level ε ν) → Prop
  | [] => False
  | level :: _ => s.point level.act.handle = .ready

/-- A bound on the steps of all the bodies. -/
def cost (tower : List (Level ε ν)) (r : Option ε) : Nat :=
  itemsCost (itemsOf tower) r + (handles tower).length

/-- What holds in every state, with the elements that are to come and the rank: the steps of
the bodies, and the calls and returns until the next one. -/
inductive Inv (s : State ε ν) : Trace ε ν → Nat × Nat → Prop where
  | going {r level outer} (hstanding : Standing s [] level outer)
      (hcontrol : s.control = going level.act.handle r) :
      Inv s (runItems (itemsOf (level :: outer)) r) (cost (level :: outer) r, 0)
  /-- a nested generator has come to its end -/
  | resumed {r level outer gen} (hstanding : Standing s [] level outer)
      (hcontrol : s.control = .resume level.act.handle)
      (hpoint : s.point level.act.handle = .nested gen ⟨r, level.act.handle, level.root⟩) :
      Inv s (runItems (itemsOf (level :: outer)) r) (cost (level :: outer) r, 1)
  /-- on the way to the innermost coroutine -/
  | resuming {inner level outer} (hstanding : Standing s inner level outer)
      (hcontrol : s.control = .resume level.act.handle)
      (hready : Ready s (inner ++ level :: outer)) :
      Inv s (runItems (itemsOf (inner ++ level :: outer)) none)
        (cost (inner ++ level :: outer) none, inner.length + 1)
  /-- on the way to the consumer, with an element -/
  | yielding {v inner level outer} (hstanding : Standing s inner level outer)
      (hcontrol : s.control = .returning none) (hready : Ready s (inner ++ level :: outer))
      (hvalue : s.value level.act.handle = some v) :
      Inv s (Trace.andThen ([v], none) (runItems (itemsOf (inner ++ level :: outer))))
        (cost (inner ++ level :: outer) none, inner.length + 2 * outer.length + 3)
  | suspended {v inner level} (hstanding : Standing s inner level [])
      (hcontrol : s.control = .suspended) (hready : Ready s (inner ++ [level]))
      (hvalue : s.value level.act.handle = some v) :
      Inv s (Trace.andThen ([v], none) (runItems (itemsOf (inner ++ [level]))))
        (cost (inner ++ [level]) none, inner.length + 2)
  /-- an iterated generator has come to its end -/
  | closing {r root outer} (hcontrol : s.control = .returning r)
      (hdone : s.point root = .done) (hattached : Attached s root outer)
      (htower : Tower s outer) (hseparate : Separate s outer)
      (hstack : s.stack = outer.map fun l => l.act.handle) :
      Inv s (runItems (itemsOf outer) r) (cost outer r, 1)
  | finished {r} (hcontrol : s.control = .finished r) : Inv s ([], r) (0, 0)

/-- A step keeps the invariant and lowers the rank, and the elements that have been read and
those to come are the same together. -/
def Progress (s : State ε ν) (rest : Trace ε ν) (rank : Nat × Nat) : Prop :=
  ∃ s' rest' rank', step s = some s' ∧ Inv s' rest' rank' ∧
    s'.out ++ rest'.1 = s.out ++ rest.1 ∧ rest'.2 = rest.2 ∧
    Prod.Lex (· < ·) (· < ·) rank' rank

section Progress

variable {s : State ε ν} {level : Level ε ν} {outer inner : List (Level ε ν)}

theorem itemsOf_cons (level : Level ε ν) (outer : List (Level ε ν)) :
    itemsOf (level :: outer) =
      level.act.items ++ (level.parents.flatMap Act.items ++ itemsOf outer) := by
  simp [itemsOf, Level.items]

/-- Nothing has changed but who is inside {lit}`resume()`. -/
theorem Standing.move (h : Standing s inner level outer) (s' : State ε ν)
    {inner' outer' : List (Level ε ν)} {level' : Level ε ν}
    (htower : inner' ++ level' :: outer' = inner ++ level :: outer)
    (hagree : ∀ x, Agree s s' x) (hnext : s'.next = s.next) (hit : s'.it = s.it)
    (hstack : s'.stack = outer'.map fun l => l.act.handle) : Standing s' inner' level' outer' where
  tower := by
    rw [htower]
    exact h.tower.congr hit fun x _ => hagree x
  separate := by
    rw [htower]
    exact ⟨h.separate.nodup, fun x hx => hnext ▸ h.separate.lt_next x hx⟩
  stack_eq := hstack

/-- The tower after the innermost coroutine has moved on. -/
theorem Standing.goOn (h : Standing s [] level outer) (items : List (Item ε ν))
    (control : Control ε) :
    Standing (goOn s level.act.handle items control) []
      { level with act := ⟨level.act.handle, items⟩ } outer := by
  have hothers : ∀ x ∈ handles (level :: outer), x ≠ level.act.handle →
      Agree s (Generator.goOn s level.act.handle items control) x := fun x _ hne =>
    ⟨rfl, Function.update_of_ne hne .., Function.update_of_ne hne .., rfl⟩
  have htower := h.tower.update h.separate.nodup hothers rfl rfl rfl
  refine ⟨?_, ⟨h.separate.nodup, h.separate.lt_next⟩, h.stack_eq⟩
  simpa [Generator.goOn] using htower

/-- A new coroutine is not in the tower. -/
theorem Standing.create (h : Standing s [] level outer) (body : Body ε ν) :
    Standing (create s body) [] level outer where
  tower := h.tower.congr rfl fun _ hx =>
    have hne := h.separate.ne_next hx
    ⟨Function.update_of_ne hne .., Function.update_of_ne hne .., Function.update_of_ne hne ..,
      Function.update_of_ne hne ..⟩
  separate := ⟨h.separate.nodup, fun x hx => Nat.lt_succ_of_lt (h.separate.lt_next x hx)⟩
  stack_eq := h.stack_eq

/-- A step inside the innermost body. -/
theorem progress_goOn (r' : Option ε) {r : Option ε} {items : List (Item ε ν)}
    (hstanding : Standing s [] level outer)
    (hstep : step s = some (goOn s level.act.handle items (going level.act.handle r')))
    (htrace : ∀ rest, runItems (items ++ rest) r' = runItems (level.act.items ++ rest) r)
    (hcost : ∀ rest, itemsCost (items ++ rest) r' < itemsCost (level.act.items ++ rest) r) :
    Progress s (runItems (itemsOf (level :: outer)) r) (cost (level :: outer) r, 0) := by
  refine ⟨_, _, _, hstep, .going (hstanding.goOn items _) rfl, ?_, ?_, ?_⟩
  · rw [itemsOf_cons, itemsOf_cons, htrace]
    rfl
  · rw [itemsOf_cons, itemsOf_cons, htrace]
  · refine Prod.Lex.left _ _ ?_
    have hlt := hcost (level.parents.flatMap Act.items ++ itemsOf outer)
    simp only [cost, itemsOf_cons]
    exact Nat.add_lt_add_right hlt _

/-- {lit}`co_yield` of a value. -/
theorem progress_coYield {v : ν} {rest : List (Item ε ν)}
    (hstanding : Standing s [] level outer) (hcontrol : s.control = .running level.act.handle)
    (hitems : level.act.items = .stmt (.coYield v) :: rest) :
    Progress s (runItems (itemsOf (level :: outer)) none) (cost (level :: outer) none, 0) := by
  have hmoved := (hstanding.goOn rest (.returning none)).move
    { goOn s level.act.handle rest (.returning none) with
      value := Function.update s.value level.act.handle (some v) }
    rfl (fun _ => ⟨rfl, rfl, rfl, rfl⟩) rfl rfl hstanding.stack_eq
  have hstep : step s = some { goOn s level.act.handle rest (.returning none) with
      value := Function.update s.value level.act.handle (some v) } := by
    have heq := hstanding.tower.1.items_eq
    simp only [step, hcontrol, heq, hitems, exec]
  refine ⟨_, _, _, hstep, .yielding hmoved rfl (Function.update_self ..)
    (Function.update_self ..), ?_, ?_, ?_⟩
  · simp only [List.nil_append, itemsOf_cons, hitems]
    rfl
  · simp only [List.nil_append, itemsOf_cons, hitems]
    rfl
  · refine Prod.Lex.left _ _ ?_
    simp only [List.nil_append, cost, itemsOf_cons, hitems]
    exact Nat.add_lt_add_right (Nat.lt_add_of_pos_left Nat.one_pos) _

/-- {lit}`NestedAwaiter::await_suspend`. -/
theorem Standing.enter {body : Body ε ν} {n : Handle} (h : Standing s [] level outer)
    (hfresh : n ∉ handles (level :: outer)) (hlt : n < s.next)
    (hitems : s.items n = [.stmt body]) (hready : s.point n = .ready) :
    ∃ s', nestedAwaitSuspend s level.act.handle n = some s' ∧
      Standing s' [] (level.enter n body) outer ∧ s'.control = .resume n ∧
      s'.point n = .ready ∧ s'.out = s.out := by
  have hne : n ≠ level.act.handle := by
    rintro rfl
    exact hfresh (by simp [Level.handles])
  rw [nestedAwaitSuspend, h.tower.1.linked.rootOf_eq]
  refine ⟨_, rfl, ⟨h.tower.enter h.separate hfresh hitems rfl rfl rfl rfl rfl, ⟨?_, ?_⟩,
    h.stack_eq⟩, rfl, ?_, rfl⟩
  · exact List.nodup_cons.mpr ⟨hfresh, h.separate.nodup⟩
  · intro x hx
    rcases List.mem_cons.mp hx with rfl | hx
    · exact hlt
    · exact h.separate.lt_next x hx
  · exact (Function.update_of_ne hne ..).trans hready

/-- {lit}`co_yield` of the elements of a new generator. -/
theorem progress_enter {body stmt : Body ε ν} {rest : List (Item ε ν)}
    (hstanding : Standing s [] level outer) (hitems : level.act.items = .stmt stmt :: rest)
    (hstep : step s = nestedAwaitSuspend
      (create (goOn s level.act.handle rest (.running level.act.handle)) body)
      level.act.handle s.next)
    (hflatten : body.flatten = stmt.flatten) (hcost : stmt.cost = body.cost + 2) :
    Progress s (runItems (itemsOf (level :: outer)) none) (cost (level :: outer) none, 0) := by
  have hfresh : s.next ∉ handles (level :: outer) := fun hmem =>
    Nat.lt_irrefl _ (hstanding.separate.lt_next _ hmem)
  rcases ((hstanding.goOn rest (.running level.act.handle)).create body).enter hfresh
    (Nat.lt_succ_self _) (Function.update_self ..) (Function.update_self ..) with
    ⟨s', hs', hentered, hcontrol, hready, hout⟩
  refine ⟨s', _, _, hstep.trans hs', .resuming hentered hcontrol hready, ?_, ?_, ?_⟩
  · rw [hout]
    simp only [List.nil_append, itemsOf_cons, hitems, Level.enter, List.flatMap_cons,
      List.cons_append, runItems, hflatten, List.append_assoc]
    rfl
  · simp only [List.nil_append, itemsOf_cons, hitems, Level.enter, List.flatMap_cons,
      List.cons_append, runItems, hflatten, List.append_assoc]
  · refine Prod.Lex.left _ _ ?_
    simp only [List.nil_append, cost, itemsOf_cons, hitems, Level.enter, List.flatMap_cons,
      List.cons_append, itemsCost, hflatten, hcost, handles_cons, Level.handles, List.map_cons,
      List.length_cons, List.append_assoc]
    omega

/-- The level of a loop's generator, at its start. -/
def Level.loop (n : Handle) (body : Body ε ν) : Level ε ν where
  act := ⟨n, [.stmt body]⟩
  parents := []
  root := n

/-- {lit}`begin()` of a loop over a new generator. -/
theorem Standing.loop {body : Body ε ν} {n : Handle} (h : Standing s [] level outer)
    (hfresh : n ∉ handles (level :: outer)) (hlt : n < s.next)
    (hitems : s.items n = [.stmt body]) (hinfo : s.info n = none) (htop : s.top n = n) :
    Standing (beginLoop s level.act.handle n) [] (.loop n body) (level :: outer) where
  tower := by
    refine ⟨⟨⟨rfl, hinfo⟩, hitems, htop⟩, Function.update_self .., ?_⟩
    have hothers : ∀ x ∈ handles (level :: outer), x ≠ level.act.handle →
        Agree s (beginLoop s level.act.handle n) x := fun x _ hne =>
      ⟨rfl, Function.update_of_ne hne .., rfl, rfl⟩
    have htower := h.tower.update h.separate.nodup hothers rfl rfl rfl
    simp only [beginLoop, h.tower.1.items_eq] at htower
    exact htower
  separate := by
    refine ⟨List.nodup_cons.mpr ⟨hfresh, h.separate.nodup⟩, ?_⟩
    intro x hx
    rcases List.mem_cons.mp hx with rfl | hx
    · exact hlt
    · exact h.separate.lt_next x hx
  stack_eq := by rw [List.map_cons, ← h.stack_eq]; rfl

theorem progress_forEach {body : Body ε ν} {rest : List (Item ε ν)}
    (hstanding : Standing s [] level outer) (hcontrol : s.control = .running level.act.handle)
    (hitems : level.act.items = .stmt (.forEach body) :: rest) :
    Progress s (runItems (itemsOf (level :: outer)) none) (cost (level :: outer) none, 0) := by
  have hfresh : s.next ∉ handles (level :: outer) := fun hmem =>
    Nat.lt_irrefl _ (hstanding.separate.lt_next _ hmem)
  have hne : s.next ≠ level.act.handle := fun heq =>
    hfresh (heq ▸ by simp [Level.handles])
  have hstep : step s = exec s level.act.handle rest (.forEach body) := by
    simp only [step, hcontrol, hstanding.tower.1.items_eq, hitems]
  have hloop := ((hstanding.goOn rest (.running level.act.handle)).create body).loop hfresh
    (Nat.lt_succ_self _) (Function.update_self ..) (Function.update_self ..)
    (Function.update_self ..)
  refine ⟨_, _, _, hstep, .resuming hloop rfl ?_, ?_, ?_, ?_⟩
  · exact (Function.update_of_ne hne ..).trans (Function.update_self ..)
  · simp only [List.nil_append, itemsOf_cons, hitems, Level.loop, List.flatMap_nil,
      List.cons_append, runItems, Body.flatten]
    rfl
  · simp only [List.nil_append, itemsOf_cons, hitems, Level.loop, List.flatMap_nil,
      List.cons_append, runItems, Body.flatten]
  · refine Prod.Lex.left _ _ ?_
    simp only [List.nil_append, cost, itemsOf_cons, hitems, Level.loop, List.flatMap_nil,
      List.cons_append, itemsCost, Body.flatten, Body.cost, handles_cons, Level.handles,
      List.map_nil, List.length_cons]
    omega

/-- An iterated generator comes to its end. -/
theorem progress_finishRoot {r : Option ε} (hstanding : Standing s [] level outer)
    (hcontrol : s.control = going level.act.handle r) (hitems : level.act.items = [])
    (hparents : level.parents = []) :
    Progress s (runItems (itemsOf (level :: outer)) r) (cost (level :: outer) r, 0) := by
  rcases hstanding.tower with ⟨hholds, hattached, houter⟩
  have hlinked := hholds.linked
  rw [hparents] at hlinked
  rcases hlinked with ⟨hroot, hinfo⟩
  have hstep : step s = some { s with
      point := Function.update s.point level.act.handle .done
      control := .returning r } := by
    cases r with
    | none => simp only [step, hcontrol, going, hholds.items_eq, hitems, finalSuspend, hinfo]
    | some e =>
        simp only [step, hcontrol, going, hholds.items_eq, hitems, unhandledException, hinfo]
  have hother : ∀ x ∈ handles outer, x ≠ level.act.handle := fun x hx =>
    hstanding.separate.disjoint (by simp [Level.handles]) hx
  have hnodup := hstanding.separate.nodup
  rw [List.nil_append, handles_cons, List.nodup_append] at hnodup
  rw [← hroot] at hattached
  refine ⟨_, _, _, hstep, .closing rfl (Function.update_self ..)
    (hattached.congr rfl fun x hx => Function.update_of_ne (hother x hx) ..)
    (houter.congr rfl fun x hx => ⟨rfl, Function.update_of_ne (hother x hx) .., rfl, rfl⟩)
    ⟨hnodup.2.1, fun x hx => hstanding.separate.lt_next x (by simp [hx])⟩
    hstanding.stack_eq, ?_, ?_, ?_⟩
  · simp only [itemsOf_cons, hitems, hparents, List.flatMap_nil, List.nil_append]
  · simp only [itemsOf_cons, hitems, hparents, List.flatMap_nil, List.nil_append]
  · refine Prod.Lex.left _ _ ?_
    simp only [cost, itemsOf_cons, hitems, hparents, List.flatMap_nil, List.nil_append,
      handles_cons, Level.handles, List.map_nil, List.length_append, List.length_cons]
    omega

/-- A nested generator comes to its end. -/
theorem progress_finishNested {r : Option ε} {p : Act ε ν} {parents : List (Act ε ν)}
    (hstanding : Standing s [] level outer)
    (hcontrol : s.control = going level.act.handle r) (hitems : level.act.items = [])
    (hparents : level.parents = p :: parents) :
    Progress s (runItems (itemsOf (level :: outer)) r) (cost (level :: outer) r, 0) := by
  rcases level with ⟨⟨h, items⟩, ps, root⟩
  obtain rfl : ps = p :: parents := hparents
  obtain rfl : items = [] := hitems
  rcases hstanding.tower.1 with ⟨⟨hinfo, hpoint, -, -⟩, hnil, -⟩
  have hstep : step s = some { s with
      point := Function.update
        (Function.update s.point p.handle (.nested h ⟨r, p.handle, root⟩)) h .done
      top := Function.update s.top root p.handle
      info := Function.update s.info h none
      control := .resume p.handle } := by
    cases r with
    | none =>
        have hself : Function.update s.point p.handle (.nested h ⟨none, p.handle, root⟩) =
            s.point := by rw [← hpoint, Function.update_eq_self]
        simp only [step, hcontrol, going, hnil, finalSuspend, hinfo, hpoint, Point.nestInfo,
          Option.map_some, hself]
    | some e =>
        simp only [step, hcontrol, going, hnil, unhandledException, finalSuspend, hinfo, hpoint,
          Function.update_self, Point.nestInfo, Option.map_some]
  have hne : p.handle ≠ h := fun heq => hstanding.separate.not_mem_parents (by simp [heq])
  have hnodup := hstanding.separate.nodup
  have hleft : Standing { s with
      point := Function.update
        (Function.update s.point p.handle (.nested h ⟨r, p.handle, root⟩)) h .done
      top := Function.update s.top root p.handle
      info := Function.update s.info h none
      control := .resume p.handle } [] ⟨p, parents, root⟩ outer :=
    ⟨hstanding.tower.leave hstanding.separate rfl rfl rfl rfl rfl,
      ⟨(List.nodup_cons.mp hnodup).2,
        fun x hx => hstanding.separate.lt_next x (List.mem_cons_of_mem _ hx)⟩,
      hstanding.stack_eq⟩
  refine ⟨_, _, _, hstep, .resumed hleft rfl
    ((Function.update_of_ne hne ..).trans (Function.update_self ..)), ?_, ?_, ?_⟩
  · simp only [itemsOf_cons, List.flatMap_cons, List.nil_append, List.append_assoc]
  · simp only [itemsOf_cons, List.flatMap_cons, List.nil_append, List.append_assoc]
  · refine Prod.Lex.left _ _ ?_
    simp only [cost, itemsOf_cons, List.flatMap_cons, List.nil_append, List.append_assoc,
      handles_cons, Level.handles, List.map_cons, List.length_append, List.length_cons]
    omega

theorem Tower.drop {tower : List (Level ε ν)} (h : Tower s (inner ++ tower)) :
    Tower s tower := by
  induction inner with
  | nil => exact h
  | cons level inner ih => exact ih h.2.2

/-- The innermost coroutine of a level is ready, or in the loop over the next level. -/
theorem Standing.act_point (h : Standing s inner level outer)
    (hready : Ready s (inner ++ level :: outer)) :
    inner = [] ∧ s.point level.act.handle = .ready ∨
      ∃ i j, inner = i ++ [j] ∧ s.point level.act.handle = .loop j.root ∧ Holds s j := by
  rcases List.eq_nil_or_concat inner with rfl | ⟨i, j, hinner⟩
  · exact .inl ⟨rfl, hready⟩
  · rw [List.concat_eq_append] at hinner
    subst hinner
    have htower := h.tower
    rw [List.append_assoc] at htower
    exact .inr ⟨i, j, rfl, htower.drop.2.1, htower.drop.1⟩

/-- The root of such a level has not come to its end. -/
theorem Standing.root_not_done (h : Standing s inner level outer)
    (hready : Ready s (inner ++ level :: outer)) : (s.point level.root).isDone = false := by
  have hlinked := h.tower.drop.1.linked
  cases hparents : level.parents with
  | nil =>
      rw [hparents] at hlinked
      rw [← hlinked.1]
      rcases h.act_point hready with ⟨-, hpoint⟩ | ⟨i, j, -, hpoint, -⟩ <;> rw [hpoint] <;> rfl
  | cons p parents =>
      rw [hparents] at hlinked
      rcases hlinked.root_nested with ⟨gen, hpoint⟩
      rw [hpoint]
      rfl

/-- The end of an iterated generator reaches the loop, or the consumer. -/
theorem progress_closing {r : Option ε} {root : Handle} (hcontrol : s.control = .returning r)
    (hdone : s.point root = .done) (hattached : Attached s root outer) (htower : Tower s outer)
    (hseparate : Separate s outer) (hstack : s.stack = outer.map fun l => l.act.handle) :
    Progress s (runItems (itemsOf outer) r) (cost outer r, 1) := by
  cases outer with
  | nil =>
      have hit : (s.point s.it).isDone = true := by
        rw [← hattached, hdone]
        rfl
      have hstep : step s = some { s with control := .finished r } := by
        cases r <;> simp [step, hcontrol, hstack, consume, hit]
      exact ⟨_, _, _, hstep, .finished rfl, rfl, rfl, Prod.Lex.right _ Nat.one_pos⟩
  | cons level outer =>
      have hpoint : s.point level.act.handle = .loop root := hattached
      have hstep : step s = some { goOn s level.act.handle level.act.items
          (going level.act.handle r) with stack := outer.map fun l => l.act.handle } := by
        cases r <;> simp [step, hcontrol, hstack, hpoint, loopStep, hdone, Point.isDone, going,
          htower.1.items_eq]
      have hstanding : Standing { s with stack := outer.map fun l => l.act.handle } []
          level outer :=
        ⟨htower.congr rfl fun _ _ => ⟨rfl, rfl, rfl, rfl⟩,
          ⟨hseparate.nodup, hseparate.lt_next⟩, rfl⟩
      exact ⟨_, _, _, hstep, .going (hstanding.goOn level.act.items (going level.act.handle r))
        rfl, rfl, rfl, Prod.Lex.right _ Nat.one_pos⟩

/-- An element goes from a level to the loop around it, or to the consumer. -/
theorem progress_yielding {v : ν} (hstanding : Standing s inner level outer)
    (hcontrol : s.control = .returning none) (hready : Ready s (inner ++ level :: outer))
    (hvalue : s.value level.act.handle = some v) :
    Progress s (Trace.andThen ([v], none) (runItems (itemsOf (inner ++ level :: outer))))
      (cost (inner ++ level :: outer) none, inner.length + 2 * outer.length + 3) := by
  rcases hstanding.tower.drop with ⟨hholds, hattached, -⟩
  have hnot := hstanding.root_not_done hready
  cases outer with
  | nil =>
      have hit : (s.point s.it).isDone = false := by rwa [← hattached]
      have hstep : step s = some { s with control := .suspended } := by
        simp [step, hcontrol, hstanding.stack_eq, consume, hit]
      have hmoved := hstanding.move { s with control := .suspended } rfl
        (fun _ => ⟨rfl, rfl, rfl, rfl⟩) rfl rfl hstanding.stack_eq
      exact ⟨_, _, _, hstep, .suspended hmoved rfl hready hvalue, rfl, rfl,
        Prod.Lex.right _ (by simp)⟩
  | cons o outer =>
      have hpoint : s.point o.act.handle = .loop level.root := hattached
      have hstep : step s = some { s with
          value := Function.update s.value o.act.handle (some v)
          stack := outer.map fun l => l.act.handle } := by
        simp [step, hcontrol, hstanding.stack_eq, hpoint, loopStep, hnot, hholds.top_eq, hvalue]
      have hsplit : (inner ++ [level]) ++ o :: outer = inner ++ level :: o :: outer := by simp
      have hmoved := hstanding.move { s with
          value := Function.update s.value o.act.handle (some v)
          stack := outer.map fun l => l.act.handle } hsplit
        (fun _ => ⟨rfl, rfl, rfl, rfl⟩) rfl rfl rfl
      rw [← hsplit] at hready ⊢
      refine ⟨_, _, _, hstep, .yielding hmoved hcontrol hready (Function.update_self ..),
        rfl, rfl, Prod.Lex.right _ ?_⟩
      simp only [List.length_append, List.length_cons, List.length_nil]
      omega

/-- The consumer reads an element and asks for the next one. -/
theorem progress_suspended {v : ν} (hstanding : Standing s inner level [])
    (hcontrol : s.control = .suspended) (hready : Ready s (inner ++ [level]))
    (hvalue : s.value level.act.handle = some v) :
    Progress s (Trace.andThen ([v], none) (runItems (itemsOf (inner ++ [level]))))
      (cost (inner ++ [level]) none, inner.length + 2) := by
  rcases hstanding.tower.drop with ⟨hholds, hattached, -⟩
  have htop : s.top s.it = level.act.handle := by
    rw [← hholds.top_eq]
    exact congrArg s.top hattached.symm
  have hstep : step s = some { s with
      out := s.out ++ [v]
      control := .resume level.act.handle } := by
    simp [step, hcontrol, htop, hvalue]
  have hmoved := hstanding.move { s with
      out := s.out ++ [v]
      control := .resume level.act.handle } rfl
    (fun _ => ⟨rfl, rfl, rfl, rfl⟩) rfl rfl hstanding.stack_eq
  refine ⟨_, _, _, hstep, .resuming hmoved rfl hready, ?_, rfl, Prod.Lex.right _ (by simp)⟩
  simp [Trace.andThen]

/-- A call of {lit}`resume()` goes through the loops to the innermost coroutine. -/
theorem progress_resuming (hstanding : Standing s inner level outer)
    (hcontrol : s.control = .resume level.act.handle)
    (hready : Ready s (inner ++ level :: outer)) :
    Progress s (runItems (itemsOf (inner ++ level :: outer)) none)
      (cost (inner ++ level :: outer) none, inner.length + 1) := by
  rcases hstanding.act_point hready with ⟨rfl, hpoint⟩ | ⟨i, j, rfl, hpoint, hj⟩
  · have hstep : step s = some { s with control := .running level.act.handle } := by
      simp [step, hcontrol, hpoint]
    have hmoved := hstanding.move { s with control := .running level.act.handle } rfl
      (fun _ => ⟨rfl, rfl, rfl, rfl⟩) rfl rfl hstanding.stack_eq
    exact ⟨_, _, _, hstep, .going (r := none) hmoved rfl, rfl, rfl, Prod.Lex.right _ (by simp)⟩
  · have hstep : step s = some { s with
        stack := level.act.handle :: s.stack
        control := .resume j.act.handle } := by
      simp [step, hcontrol, hpoint, hj.top_eq]
    have hsplit : i ++ j :: level :: outer = i ++ [j] ++ level :: outer := by simp
    have hmoved := hstanding.move { s with
        stack := level.act.handle :: s.stack
        control := .resume j.act.handle } hsplit
      (fun _ => ⟨rfl, rfl, rfl, rfl⟩) rfl rfl
      (by rw [List.map_cons, ← hstanding.stack_eq])
    rw [← hsplit] at hready ⊢
    refine ⟨_, _, _, hstep, .resuming hmoved rfl hready, rfl, rfl, Prod.Lex.right _ (by simp)⟩

/-- {lit}`NestedAwaiter::await_resume`. -/
theorem progress_resumed {r : Option ε} {gen : Handle} (hstanding : Standing s [] level outer)
    (hcontrol : s.control = .resume level.act.handle)
    (hpoint : s.point level.act.handle = .nested gen ⟨r, level.act.handle, level.root⟩) :
    Progress s (runItems (itemsOf (level :: outer)) r) (cost (level :: outer) r, 1) := by
  have hstep : step s = some (goOn s level.act.handle level.act.items
      (going level.act.handle r)) := by
    cases r <;> simp [step, hcontrol, hpoint, going, hstanding.tower.1.items_eq]
  exact ⟨_, _, _, hstep, .going (hstanding.goOn level.act.items (going level.act.handle r)) rfl,
    rfl, rfl, Prod.Lex.right _ Nat.one_pos⟩

theorem runItems_seq (first second : Body ε ν) (rest : List (Item ε ν)) :
    runItems (.stmt (.seq first second) :: rest) none =
      runItems (.stmt first :: .stmt second :: rest) none := by
  simp only [runItems, Body.flatten, Trace.andThen_assoc]
  congr 1
  funext r
  cases r <;> rfl

theorem itemsCost_seq (first second : Body ε ν) (rest : List (Item ε ν)) :
    itemsCost (.stmt first :: .stmt second :: rest) none <
      itemsCost (.stmt (.seq first second) :: rest) none := by
  cases hfirst : first.flatten.2 <;>
    simp [itemsCost, Body.cost, Body.flatten, Trace.andThen, hfirst] <;> omega

theorem runItems_tryCatch (body : Body ε ν) (handler : ε → Body ε ν)
    (rest : List (Item ε ν)) :
    runItems (.stmt (.tryCatch body handler) :: rest) none =
      runItems (.stmt body :: .endTry handler :: rest) none := by
  simp only [runItems, Body.flatten, Trace.andThen_assoc]
  congr 1
  funext r
  cases r <;> rfl

theorem itemsCost_tryCatch (body : Body ε ν) (handler : ε → Body ε ν)
    (rest : List (Item ε ν)) :
    itemsCost (.stmt body :: .endTry handler :: rest) none <
      itemsCost (.stmt (.tryCatch body handler) :: rest) none := by
  cases hbody : body.flatten.2 <;>
    simp [itemsCost, Body.cost, Body.flatten, Trace.andThen, hbody] <;> omega

/-- A statement of the innermost body. -/
theorem progress_exec {body : Body ε ν} {rest : List (Item ε ν)}
    (hstanding : Standing s [] level outer) (hcontrol : s.control = .running level.act.handle)
    (hitems : level.act.items = .stmt body :: rest) :
    Progress s (runItems (itemsOf (level :: outer)) none) (cost (level :: outer) none, 0) := by
  have hstep : step s = exec s level.act.handle rest body := by
    simp only [step, hcontrol, hstanding.tower.1.items_eq, hitems]
  cases body with
  | skip =>
      refine progress_goOn none hstanding hstep ?_ ?_ <;> intro more <;> rw [hitems]
      · rfl
      · exact Nat.lt_add_of_pos_left Nat.one_pos
  | coYield v => exact progress_coYield hstanding hcontrol hitems
  | elementsOf gen => exact progress_enter hstanding hitems hstep rfl rfl
  | elementsOfRange range =>
      exact progress_enter hstanding hitems hstep (flatten_yieldAll range)
        (by rw [cost_yieldAll]; rfl)
  | forEach gen => exact progress_forEach hstanding hcontrol hitems
  | throw e =>
      refine progress_goOn (some e) hstanding hstep ?_ ?_ <;> intro more <;> rw [hitems]
      · rfl
      · exact Nat.lt_add_of_pos_left Nat.one_pos
  | seq first second =>
      refine progress_goOn none hstanding hstep ?_ ?_ <;> intro more <;> rw [hitems]
      · exact (runItems_seq first second _).symm
      · exact itemsCost_seq first second _
  | tryCatch body handler =>
      refine progress_goOn none hstanding hstep ?_ ?_ <;> intro more <;> rw [hitems]
      · exact (runItems_tryCatch body handler _).symm
      · exact itemsCost_tryCatch body handler _

/-- The innermost body goes on. -/
theorem progress_going {r : Option ε} (hstanding : Standing s [] level outer)
    (hcontrol : s.control = going level.act.handle r) :
    Progress s (runItems (itemsOf (level :: outer)) r) (cost (level :: outer) r, 0) := by
  have hact := hstanding.tower.1.items_eq
  match hitems : level.act.items, r with
  | [], r =>
      cases hparents : level.parents with
      | nil => exact progress_finishRoot hstanding hcontrol hitems hparents
      | cons p parents => exact progress_finishNested hstanding hcontrol hitems hparents
  | .stmt body :: rest, none => exact progress_exec hstanding hcontrol hitems
  | .endTry handler :: rest, none =>
      have hstep : step s = some (goOn s level.act.handle rest (.running level.act.handle)) := by
        simp only [step, hcontrol, going, hact, hitems]
      refine progress_goOn none hstanding hstep ?_ ?_ <;> intro more <;> rw [hitems]
      · rfl
      · exact Nat.lt_succ_self _
  | .stmt body :: rest, some e =>
      have hstep : step s =
          some (goOn s level.act.handle rest (.raising level.act.handle e)) := by
        simp only [step, hcontrol, going, hact, hitems]
      refine progress_goOn (some e) hstanding hstep ?_ ?_ <;> intro more <;> rw [hitems]
      · rfl
      · exact Nat.lt_succ_self _
  | .endTry handler :: rest, some e =>
      have hstep : step s = some (goOn s level.act.handle (.stmt (handler e) :: rest)
          (.running level.act.handle)) := by
        simp only [step, hcontrol, going, hact, hitems]
      refine progress_goOn none hstanding hstep ?_ ?_ <;> intro more <;> rw [hitems]
      · rfl
      · exact Nat.lt_succ_self _

end Progress

/-- Every step keeps the elements read and those to come together, and lowers the rank. -/
theorem Inv.step {s : State ε ν} {rest : Trace ε ν} {rank : Nat × Nat} (h : Inv s rest rank) :
    (∃ r, s.control = .finished r ∧ rest = ([], r)) ∨ Progress s rest rank := by
  cases h with
  | going hstanding hcontrol => exact .inr (progress_going hstanding hcontrol)
  | resumed hstanding hcontrol hpoint => exact .inr (progress_resumed hstanding hcontrol hpoint)
  | resuming hstanding hcontrol hready => exact .inr (progress_resuming hstanding hcontrol hready)
  | yielding hstanding hcontrol hready hvalue =>
      exact .inr (progress_yielding hstanding hcontrol hready hvalue)
  | suspended hstanding hcontrol hready hvalue =>
      exact .inr (progress_suspended hstanding hcontrol hready hvalue)
  | closing hcontrol hdone hattached htower hseparate hstack =>
      exact .inr (progress_closing hcontrol hdone hattached htower hseparate hstack)
  | finished hcontrol => exact .inl ⟨_, hcontrol, rfl⟩

/-! ## The pointers of a suspended generator -/

/-- Whenever the consumer has an element, {lit}`top_` is the innermost generator. -/
theorem Inv.topIsInnermost {s : State ε ν} {rest : Trace ε ν} {rank : Nat × Nat}
    (h : Inv s rest rank) (hsuspended : s.control = .suspended) : s.TopIsInnermost := by
  cases h with
  | suspended hstanding hcontrol hready hvalue =>
      rename_i v inner level
      rcases hstanding.tower.drop with ⟨hholds, hattached, -⟩
      have hit : level.root = s.it := hattached
      have htop : s.top s.it = level.act.handle := hit ▸ hholds.top_eq
      have hnone : s.awaited level.act.handle = none := by
        rcases hstanding.act_point hready with ⟨-, hpoint⟩ | ⟨i, j, -, hpoint, -⟩ <;>
          rw [State.awaited, hpoint]
      have hdown := hholds.linked.awaited_chain [] (by rw [hnone]; rfl)
      refine ⟨level.handles.reverse, ?_, ?_, ?_⟩
      · rw [← hit]
        simpa [Level.handles] using hdown
      · simp [Level.handles, htop]
      · rw [htop, List.reverse_reverse]
        exact hholds.linked.parent_chain
  | going _ hcontrol => exact absurd (hcontrol.symm.trans hsuspended) (going_ne_suspended _ _)
  | resumed _ hcontrol | resuming _ hcontrol | yielding _ hcontrol | closing hcontrol
  | finished hcontrol =>
      rw [hcontrol] at hsuspended
      cases hsuspended

/-! ## Runs -/

/-- The state with the elements to come, for a body with this flattening. -/
def Follows (t : Trace ε ν) (rank : Nat × Nat) (s : State ε ν) : Prop :=
  ∃ rest, Inv s rest rank ∧ s.out ++ rest.1 = t.1 ∧ rest.2 = t.2

theorem follows_start (body : Body ε ν) : ∃ rank, Follows body.flatten rank (start body) := by
  have hstanding : Standing (start body) [] ⟨⟨0, [.stmt body]⟩, [], 0⟩ [] :=
    ⟨⟨⟨⟨rfl, rfl⟩, rfl, rfl⟩, rfl, trivial⟩, ⟨by simp [handles, Level.handles],
      by simp [handles, Level.handles, start]⟩, rfl⟩
  refine ⟨_, _, .resuming hstanding rfl rfl, ?_, ?_⟩ <;>
    simp [start, itemsOf, Level.items, runItems, Trace.andThen]

theorem Follows.step {t : Trace ε ν} {rank : Nat × Nat} {s : State ε ν} (h : Follows t rank s) :
    s.control = .finished t.2 ∧ s.out = t.1 ∨
      ∃ s' rank', Generator.step s = some s' ∧ Follows t rank' s' ∧
        Prod.Lex (· < ·) (· < ·) rank' rank := by
  rcases h with ⟨rest, hinv, hout, hend⟩
  rcases hinv.step with ⟨r, hcontrol, rfl⟩ | ⟨s', rest', rank', hstep, hinv', hout', hend', hlt⟩
  · exact .inl ⟨by rw [hcontrol, ← hend], by simpa using hout⟩
  · exact .inr ⟨s', rank', hstep, ⟨rest', hinv', hout'.trans hout, hend'.trans hend⟩, hlt⟩

theorem Follows.run {t : Trace ε ν} {s s' : State ε ν} {ls : List Unit}
    (h : ∃ rank, Follows t rank s) (hrun : machine.run s ls = some s') :
    ∃ rank, Follows t rank s' := by
  refine machine.run_invariant (P := fun s => ∃ rank, Follows t rank s) ?_ h hrun
  rintro s l s' ⟨rank, hs⟩ hstep
  rcases hs.step with ⟨hfinished, -⟩ | ⟨u, rank', hu, hfollows, -⟩
  · change Generator.step s = some s' at hstep
    simp [Generator.step, hfinished] at hstep
  · obtain rfl : u = s' := Option.some.inj (hu.symm.trans hstep)
    exact ⟨rank', hfollows⟩

/-- A consumer reads the flattening. -/
theorem iterates_flatten (body : Body ε ν) : Iterates body body.flatten.1 body.flatten.2 := by
  intro ls s hrun
  rcases Follows.run (follows_start body) hrun with ⟨rank, hs⟩
  refine ⟨?_, ?_, ?_⟩
  · rcases hs with ⟨rest, -, hout, -⟩
    rw [← hout]
    exact List.prefix_append _ _
  · intro result hresult
    rcases hs.step with ⟨hcontrol, hout⟩ | ⟨s', rank', hstep, -⟩
    · rw [hresult] at hcontrol
      cases hcontrol
      exact ⟨hout, rfl⟩
    · simp [Generator.step, hresult] at hstep
  · have hprogress : ∀ rank s, Follows body.flatten rank s →
        ¬ s.control = .finished body.flatten.2 →
        ∃ (l : Unit) (s' : State ε ν) (rank' : Nat × Nat), True ∧
          machine.step s l = some s' ∧ Follows body.flatten rank' s' ∧
          Prod.Lex (· < ·) (· < ·) rank' rank := by
      intro rank s hs hgoal
      rcases hs.step with ⟨hfinished, -⟩ | ⟨s', rank', hstep, hfollows, hlt⟩
      · exact absurd hfinished hgoal
      · exact ⟨(), s', rank', trivial, hstep, hfollows, hlt⟩
    have hwf : WellFounded (Prod.Lex (· < ·) (· < ·) : Nat × Nat → Nat × Nat → Prop) :=
      WellFounded.prod_lex Nat.lt_wfRel.wf Nat.lt_wfRel.wf
    rcases machine.exists_run_of_rank hwf (fun _ => True) hprogress hs with
      ⟨ks, t, -, -, hks, -, hgoal⟩
    exact ⟨ks, t, hks, hgoal⟩

/-- A consumer of any generator reads the elements of its body in order, and then comes to
the end or to the exception that leaves the body; with loops in the place of
{lit}`co_yield elements_of` it reads the same elements and comes to the same end.  Whenever
it is suspended, {lit}`top_` of the root is the innermost active generator, and
{lit}`parent_` leads from there to the root through the active generators. -/
theorem iterate_flatten (body : Body ε ν) :
    Iterates body body.flatten.1 body.flatten.2 ∧
    Iterates body.reYield body.flatten.1 body.flatten.2 ∧
    ∀ ls s, machine.run (start body) ls = some s → s.control = .suspended →
      s.TopIsInnermost := by
  refine ⟨iterates_flatten body, ?_, ?_⟩
  · have hloops := iterates_flatten body.reYield
    rwa [flatten_reYield] at hloops
  · intro ls s hrun hsuspended
    rcases Follows.run (follows_start body) hrun with ⟨rank, rest, hinv, -⟩
    exact hinv.topIsInnermost hsuspended

end Generator

end AsyncSimple
