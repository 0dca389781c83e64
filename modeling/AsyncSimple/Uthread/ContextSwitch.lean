import AsyncSimple.Library.Coroutines

/-!
# Switching between uthreads

A uthread has a stack of its own.  {lit}`jmp_buf_link::switch_in` leaves the stack that a thread
executes and goes on with that of a uthread, {lit}`switch_out` and {lit}`final_switch_out` go back.
Each stack has a record, the {lit}`jmp_buf_link`, that says where it was left and from where it was
entered; {lit}`g_current_context` of each thread points to the record of the stack that it
executes.

The threads move one memory access at a time, in any order.  User code on any stack constructs
uthreads, switches uthreads in that others have left, switches out of its own, and returns.  What
{lit}`_fl_jump_fcontext` does is taken as a jump between contexts that wait at addresses; a jump
through a null pointer or to an address at which nothing waits is a fault, and so is an assertion
that fails.

Main definitions:

- {lit}`step`: the functions of {lit}`jmp_buf_link` and {lit}`thread_context`.
- {lit}`Protocol`: who may switch in and out.
- {lit}`observe`: what is seen of a step by the callers of these functions.
-/

namespace AsyncSimple

open Transition

namespace ContextSwitch

variable {τ ι α : Type}

/-! ## State -/

/-- Whose stack it is.  The record of a thread's own stack is {lit}`g_unthreaded_context`, that of
a uthread's stack {lit}`thread_context::context_`. -/
inductive Owner (τ ι : Type) where
  | thread (t : τ)
  | uthread (u : ι)
deriving DecidableEq, Repr

/-- {lit}`jmp_buf_link`. -/
structure JmpBufLink (τ ι α : Type) where
  fcontext : Option α
  link : Option (Owner τ ι)
  thread : Option ι
deriving DecidableEq, Repr

/-- Where a stack goes on that was left by a jump. -/
inductive Frame (ι : Type) where
  /-- at the beginning of {lit}`s_main` -/
  | start
  | switchIn (u : ι)
  | switchOut (u : ι)
  | finalSwitchOut
deriving DecidableEq, Repr

/-- Program points of a thread.  The argument {lit}`u` is {lit}`this`. -/
inductive Pc (ι α : Type) where
  /-- outside of the functions below -/
  | user
  /-- {lit}`thread_context::setup` -/
  | setup (u : ι)
  /-- {lit}`switch_in`: {lit}`link = std::exchange(g_current_context, this)` -/
  | exchange (u : ι)
  /-- {lit}`if (!link) link = &g_unthreaded_context` -/
  | orUnthreaded (u : ι)
  | jumpIn (u : ι)
  /-- {lit}`fcontext = ….fctx` -/
  | storeIn (u : ι) (fctx : α)
  /-- {lit}`switch_out`: {lit}`g_current_context = link` -/
  | restoreCurrent (u : ι)
  | jumpOut (u : ι)
  /-- {lit}`link->fcontext = ….fctx` -/
  | storeOut (u : ι) (fctx : α)
  /-- {lit}`s_main`: {lit}`assert(g_current_context->thread == q)` -/
  | assertCurrent (fctx : α) (q : Option ι)
  /-- {lit}`q->context_.link->fcontext = t.fctx` -/
  | storeMain (fctx : α) (q : Option ι)
  /-- {lit}`final_switch_out` -/
  | restoreLast (u : ι)
  | jumpLast (u : ι)
  /-- {lit}`assert(false)` -/
  | unreachable
deriving DecidableEq, Repr

structure State (τ ι α : Type) where
  /-- {lit}`g_current_context` -/
  current : τ → Option (Owner τ ι)
  record : Owner τ ι → JmpBufLink τ ι α
  /-- what waits at the addresses -/
  parked : α → Option (Owner τ ι × Frame ι)
  /-- the stack that the thread executes -/
  running : τ → Owner τ ι
  pc : τ → Pc ι α
  /-- {lit}`this` of the {lit}`thread_context::main` at the bottom of the stack -/
  main : Owner τ ι → Option ι
  /-- {lit}`done_`: whether it holds a value or an exception -/
  done : ι → Option Bool
  made : ι → Bool
  /-- a call that has entered the uthread has not returned -/
  inside : ι → Bool
  fault : Bool

def State.initial : State τ ι α where
  current := fun _ => none
  record := fun _ => ⟨none, none, none⟩
  parked := fun _ => none
  running := .thread
  pc := fun _ => .user
  main := fun _ => none
  done := fun _ => none
  made := fun _ => false
  inside := fun _ => false
  fault := false

inductive Move (ι α : Type) where
  /-- the constructor of a {lit}`thread_context` -/
  | construct (u : ι)
  | switchIn (u : ι)
  /-- {lit}`switch_out(get())` -/
  | switchOut
  /-- {lit}`func_` returns, or throws -/
  | finish (ok : Bool)
  /-- the next access of the function that the thread is in; a stack that is left by it waits at
  the address -/
  | next (a : α)
deriving DecidableEq, Repr

/-- What a stack does that was jumped to. -/
def Frame.resume (fctx : α) (data : Option ι) : Frame ι → Pc ι α
  | .start => .assertCurrent fctx data
  | .switchIn u => .storeIn u fctx
  | .switchOut u => .storeOut u fctx
  | .finalSwitchOut => .unreachable

namespace State

variable [DecidableEq τ] [DecidableEq ι] [DecidableEq α]

def goto (s : State τ ι α) (t : τ) (pc : Pc ι α) : State τ ι α :=
  { s with pc := Function.update s.pc t pc }

def setCurrent (s : State τ ι α) (t : τ) (o : Option (Owner τ ι)) : State τ ι α :=
  { s with current := Function.update s.current t o }

def setRecord (s : State τ ι α) (o : Owner τ ι) (r : JmpBufLink τ ι α) : State τ ι α :=
  { s with record := Function.update s.record o r }

def setLink (s : State τ ι α) (u : ι) (link : Option (Owner τ ι)) : State τ ι α :=
  s.setRecord (.uthread u) { s.record (.uthread u) with link := link }

def setFcontext (s : State τ ι α) (o : Owner τ ι) (a : α) : State τ ι α :=
  s.setRecord o { s.record o with fcontext := some a }

def faulty (s : State τ ι α) : State τ ι α :=
  { s with fault := true }

/-- The thread has left its stack with {lit}`frame` at {lit}`a` and executes the stack that has
waited at {lit}`b`. -/
def jumped (s : State τ ι α) (t : τ) (a b : α) (data : Option ι) (frame : Frame ι)
    (o : Owner τ ι) (f : Frame ι) : State τ ι α :=
  { s with
    parked := Coroutines.exchange s.parked b a (s.running t, frame)
    running := Function.update s.running t o
    pc := Function.update s.pc t (f.resume a data) }

/-- {lit}`_fl_jump_fcontext(target, data)` by a thread whose stack is left with {lit}`frame` and
waits at {lit}`a`. -/
def jump (s : State τ ι α) (t : τ) (a : α) (target : Option α) (data : Option ι)
    (frame : Frame ι) : Option (State τ ι α) :=
  if s.parked a = none then
    match target with
    | none => some s.faulty
    | some b => match s.parked b with
        | none => some s.faulty
        | some (o, f) => some (s.jumped t a b data frame o f)
  else none

end State

/-! ## Steps -/

variable [DecidableEq τ] [DecidableEq ι] [DecidableEq α]

/-- The accesses of the functions in thread.cc, one at a time. -/
def nextStep (t : τ) (a : α) (s : State τ ι α) : Option (State τ ι α) :=
  match s.pc t with
  | .user => none
  | .setup u =>
      -- `_fl_make_fcontext` on the new stack, and `context_.thread = this`
      if s.parked a = none then
        some (({ s with parked := Function.update s.parked a (some (.uthread u, .start)) }
          |>.setRecord (.uthread u)
            { s.record (.uthread u) with fcontext := some a, thread := some u }).goto t
          (.exchange u))
      else none
  | .exchange u =>
      some (((s.setLink u (s.current t)).setCurrent t (some (.uthread u))).goto t
        (.orUnthreaded u))
  | .orUnthreaded u =>
      match (s.record (.uthread u)).link with
      | none => some ((s.setLink u (some (.thread t))).goto t (.jumpIn u))
      | some _ => some (s.goto t (.jumpIn u))
  | .jumpIn u =>
      s.jump t a (s.record (.uthread u)).fcontext (s.record (.uthread u)).thread (.switchIn u)
  | .storeIn u fctx =>
      some { (s.setFcontext (.uthread u) fctx).goto t .user with
        inside := Function.update s.inside u false }
  | .restoreCurrent u =>
      some ((s.setCurrent t (s.record (.uthread u)).link).goto t (.jumpOut u))
  | .jumpOut u =>
      match (s.record (.uthread u)).link with
      | none => some s.faulty
      | some o =>
          s.jump t a (s.record o).fcontext (s.record (.uthread u)).thread (.switchOut u)
  | .storeOut u fctx =>
      -- `link` is read after the jump, when the uthread has been entered again
      match (s.record (.uthread u)).link with
      | none => some s.faulty
      | some o => some ((s.setFcontext o fctx).goto t .user)
  | .assertCurrent fctx q =>
      match s.current t with
      | none => some s.faulty
      | some o =>
          if (s.record o).thread = q then some (s.goto t (.storeMain fctx q)) else some s.faulty
  | .storeMain fctx q =>
      match q with
      | none => some s.faulty
      | some u => match (s.record (.uthread u)).link with
          | none => some s.faulty
          | some o => some { (s.setFcontext o fctx).goto t .user with
              main := Function.update s.main (s.running t) (some u) }
  | .restoreLast u =>
      some ((s.setCurrent t (s.record (.uthread u)).link).goto t (.jumpLast u))
  | .jumpLast u =>
      match (s.record (.uthread u)).link with
      | none => some s.faulty
      | some o =>
          s.jump t a (s.record o).fcontext (s.record (.uthread u)).thread .finalSwitchOut
  | .unreachable => some s.faulty

/-- {lit}`thread_impl::get()`.  Without a current context it would read through a null pointer. -/
def get (s : State τ ι α) (t : τ) : Option ι :=
  (s.current t).bind fun o => (s.record o).thread

/-- {lit}`thread_impl::can_switch_out()`. -/
def canSwitchOut (s : State τ ι α) (t : τ) : Bool :=
  (get s t).isSome

/-- What the code does that a thread executes outside of thread.cc. -/
def userStep (t : τ) (s : State τ ι α) : Move ι α → Option (State τ ι α)
  | .construct u =>
      if s.made u then none
      else some { s.goto t (.setup u) with
        made := Function.update s.made u true
        inside := Function.update s.inside u true }
  | .switchIn u =>
      if s.made u then
        some { s.goto t (.exchange u) with inside := Function.update s.inside u true }
      else none
  | .switchOut => match get s t with
      | none => some s.faulty
      | some u => some (s.goto t (.restoreCurrent u))
  | .finish ok =>
      -- only the function of a uthread returns to `main`
      match s.main (s.running t) with
      | none => none
      | some u => some { s.goto t (.restoreLast u) with
          done := Function.update s.done u (some ok) }
  | .next _ => none

def step (s : State τ ι α) : τ × Move ι α → Option (State τ ι α)
  | (t, m) =>
      if s.fault then none
      else match m with
        | .next a => nextStep t a s
        | m => if s.pc t = .user then userStep t s m else none

def machine : Machine (State τ ι α) (τ × Move ι α) :=
  ⟨step⟩

/-- A uthread is switched in by somebody who knows that the call that entered it last has returned
and that its function has not, and switches out of itself. -/
def Protocol (s : State τ ι α) : τ × Move ι α → Prop
  | (_, .switchIn u) => s.inside u = false ∧ s.done u = none
  | (t, .switchOut) => s.running t ≠ .thread t
  | _ => True

instance (s : State τ ι α) (l : τ × Move ι α) : Decidable (Protocol s l) := by
  rcases l with ⟨t, m⟩
  cases m <;> (unfold Protocol; infer_instance)

/-- The calls that enter a uthread, and their returns. -/
def observe (s : State τ ι α) (l : τ × Move ι α) (_ : State τ ι α) :
    List (τ × Coroutines.Move ι) :=
  match l with
  | (t, .construct u) => [(t, .create u)]
  | (t, .switchIn u) => [(t, .enter u)]
  | (t, .next _) => match s.pc t with
      | .storeIn u _ => [(t, if s.done u = none then .leave else .finish)]
      | _ => []
  | _ => []

end ContextSwitch

end AsyncSimple
