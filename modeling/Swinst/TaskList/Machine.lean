import Swinst.TaskList.Task

/-! The thread that runs a task list, as a machine with an explicit stack. The functions associated
to the tasks are arbitrary: a function is a state machine over the shared `world` that acts on its
own task only, through the methods of `Task`. One step of the machine is one action of the running
function or one turn of the loop in `_run_subtasks`; the entry of `Task.__call__` is one step. The
user's `root.cancel()` may come between any two steps. -/

namespace Swinst.TaskList

/-- What the running function does next with its own task `self`. -/
inductive Act (F V E : Type) where
  /-- anything that does not touch the task tree -/
  | tau
  /-- `self.add_subtask(c)`: a new task, with what was put below it before -/
  | addSubtask (c : SpecTree F)
  /-- `self.subtasks[i](*args)` -/
  | call (i : Nat) (args : List V)
  /-- `self.size = n` -/
  | setSize (n : PyNum)
  /-- `self.set_progress(completed, size, message=message)` -/
  | setProgress (completed : PyNum) (size : Option PyNum) (message : Option String)
  /-- `self.finish()` -/
  | finish
  | ret (v : Option V)
  | raise (e : E)

/-- What an action gives back to the function. -/
inductive Answer (V : Type) where
  | unit
  /-- the position of a new subtask -/
  | index (i : Nat)
  /-- the result of a call, `none` for `None` -/
  | result (r : Option V)
  /-- the answer of `set_progress`: must the function stop? -/
  | stop (b : Bool)

/-- The behaviour of every function of the installer. -/
structure Behaviour (F V E σ : Type) where
  /-- control states of running functions -/
  Q : Type
  start : F → List V → Q
  next : Q → σ → σ × Act F V E × (Answer V → Q)
  /-- the text of an exception -/
  errText : E → String

/-- Where a function stands. -/
inductive Control (V Q : Type) where
  | tasklist
  | ready (q : Q)
  /-- inside a call or inside `set_progress` -/
  | waiting (k : Answer V → Q)

def Behaviour.enter (b : Behaviour F V E σ) (f : AssociatedFunction F) (args : List V) :
    Control V b.Q :=
  match f with
  | .tasklist => .tasklist
  | .code f => .ready (b.start f args)

/-- Who called `_run_subtasks`. -/
inductive Caller where
  | call
  | setProgress
  deriving DecidableEq

inductive Frame (V Q : Type) where
  /-- the caller of the root: `Thread.run` or the user's `tasklist()` -/
  | run
  /-- the function of the task at `p` -/
  | body (p : Path) (c : Control V Q)
  /-- the loop of `_run_subtasks` of the task at `p`, at `subtasks[i]` -/
  | subtasks (p : Path) (i : Nat) (caller : Caller)

inductive Event (V E : Type) where
  /-- the function of the task at `p` is started -/
  | started (p : Path) (args : List V)
  /-- that function returned `v`, or raised `e` -/
  | ended (p : Path) (outcome : Except E (Option V))
  /-- the call of the task at `p`, having started the function, came back to its caller -/
  | returned (p : Path)
  /-- a task was put below `p` -/
  | attached (p : Path)
  /-- the callback of the root was called with the task at `p` and a message -/
  | notified (p : Path) (message : String)

structure Machine (F V E Q σ : Type) where
  tree : TaskTree F V E
  /-- is the root a `ThreadedTaskList`? -/
  threaded : Bool
  /-- `_stopped_event` -/
  stopped : Bool
  stack : List (Frame V Q)
  world : σ
  /-- latest event first -/
  trace : List (Event V E)

namespace Machine

variable {F V E Q σ : Type}

/-- `root.is_cancelled()` at `[]`, `Task.is_cancelled` below. -/
def isCancelled (m : Machine F V E Q σ) : Path → Bool
  | [] => (m.threaded && m.stopped) || m.tree.status? [] = some .cancelled
  | i :: p => m.tree.status? (i :: p) = some .cancelled || m.isCancelled p

def taskName (m : Machine F V E Q σ) (p : Path) : String := ((m.tree.get? p).map (·.name)).getD ""

def emit (m : Machine F V E Q σ) (e : Event V E) : Machine F V E Q σ :=
  { m with trace := e :: m.trace }

/-- `_notify_listeners` -/
def notify (m : Machine F V E Q σ) (p : Path) (message : String) : Machine F V E Q σ :=
  m.emit (.notified p message)

def modify (m : Machine F V E Q σ) (p : Path) (f : Task F V E → Task F V E) :
    Machine F V E Q σ :=
  { m with tree := m.tree.modify p f }

def addSubtask (m : Machine F V E Q σ) (p : Path) (c : SpecTree F) : Machine F V E Q σ :=
  ({ m with tree := m.tree.addChild p c.init }.emit (.attached p)).notify p
    s!"New task {c.value.name}"

/-- `Task.finish` -/
def finish (m : Machine F V E Q σ) (p : Path) : Machine F V E Q σ :=
  if m.tree.status? p = some .completed then m
  else
    (m.modify p .complete).notify p s!"Finished {m.taskName p}"

/-- `root.cancel()`, of either class -/
def cancel (m : Machine F V E Q σ) : Machine F V E Q σ :=
  ({ m with stopped := m.threaded || m.stopped }.modify [] .setCancelled).notify []
    s!"Cancelling {m.taskName []}"

/-- Does `completed >= self.size` hold of the task at `p`? -/
def isFull (m : Machine F V E Q σ) (p : Path) : Bool :=
  match m.tree.get? p with
  | some t => decide (t.size.toRat ≤ t.completed.toRat)
  | none => false

/-- `if not message: message = "Progress"` -/
def progressMessage : Option String → String
  | some s => if s.isEmpty then "Progress" else s
  | none => "Progress"

/-- Give an answer to the frame below; a loop ignores it. -/
def deliver (ans : Answer V) : List (Frame V Q) → List (Frame V Q)
  | .body p (.waiting k) :: rest => .body p (.ready (k ans)) :: rest
  | stack => stack

/-- The entry of `Task.__call__`, up to the start of the associated function; `none` when the call
returns at once. -/
def enter (b : Behaviour F V E σ) (m : Machine F V E b.Q σ) (p : Path) (args : List V) :
    Option (Machine F V E b.Q σ) :=
  match m.tree.get? p with
  | none => none
  | some t =>
    if t.status ≠ .inactive ∨ !TaskTree.parentActive m.tree p then none
    else
      let m' := (m.modify p .activate).notify p s!"Running {t.name}..."
      some ({ m' with stack := .body p (b.enter t.associatedFunction args) :: m.stack }.emit
        (.started p args))

/-- A call whose guard failed leaves everything as it was. -/
def enterOr (b : Behaviour F V E σ) (m : Machine F V E b.Q σ) (p : Path) (args : List V)
    (refused : Machine F V E b.Q σ) : Machine F V E b.Q σ :=
  (m.enter b p args).getD refused

/-- The function of the task at `p` returned `v`. -/
def functionReturned (m : Machine F V E Q σ) (p : Path) (v : Option V)
    (rest : List (Frame V Q)) : Machine F V E Q σ :=
  { (m.modify p (.setResult v)).emit (.ended p (.ok v)) with
    stack := .subtasks p 0 .call :: rest }

/-- The function of the task at `p` raised `e`: the `except` clause of `Task.__call__`. -/
def functionRaised (b : Behaviour F V E σ) (m : Machine F V E b.Q σ) (p : Path) (e : E)
    (rest : List (Frame V b.Q)) : Machine F V E b.Q σ :=
  let required := ((m.tree.get? p).map (·.isRequired)).getD true
  let m := (m.modify p (.fail e)).emit (.ended p (.error e))
  if required then
    { (m.modify [] (.setError e)).cancel.emit (.returned p) with
      stack := deliver (.result none) rest }
  else
    { (m.modify p (.setResult none)).notify p
        s!"Non fatal error {b.errText e} in task {m.taskName p}" with
      stack := .subtasks p 0 .call :: rest }

/-- One action of the function of the task at `p`, which waits with `k` for the answer. -/
def act (b : Behaviour F V E σ) (m : Machine F V E b.Q σ) (p : Path) (k : Answer V → b.Q)
    (rest : List (Frame V b.Q)) : Act F V E → Machine F V E b.Q σ
  | .tau => { m with stack := .body p (.ready (k .unit)) :: rest }
  | .addSubtask c =>
    { m.addSubtask p c with stack := .body p (.ready (k (.index (m.tree.arity p)))) :: rest }
  | .call i args =>
    enterOr b { m with stack := .body p (.waiting k) :: rest } (i :: p) args
      { m with stack := .body p (.ready (k (.result none))) :: rest }
  | .setSize n =>
    { m.modify p (.setSize n) with
      stack := .body p (.ready (k .unit)) :: rest }
  | .setProgress completed size message =>
    if m.isCancelled p then { m with stack := .body p (.ready (k (.stop true))) :: rest }
    else
      let m := m.modify p (.setCompleted completed size)
      if m.isFull p then
        { m with stack := .subtasks p 0 .setProgress :: .body p (.waiting k) :: rest }
      else
        { m.notify p (progressMessage message) with
          stack := .body p (.ready (k (.stop false))) :: rest }
  | .finish => { m.finish p with stack := .body p (.ready (k .unit)) :: rest }
  | .ret v => m.functionReturned p v rest
  | .raise e => m.functionRaised b p e rest

/-- One turn of the loop of `_run_subtasks` of the task at `p`; after the last turn, `finish` and
the way back. -/
def loop (b : Behaviour F V E σ) (m : Machine F V E b.Q σ) (p : Path) (i : Nat) (caller : Caller)
    (rest : List (Frame V b.Q)) : Machine F V E b.Q σ :=
  if i < m.tree.arity p then
    let m := { m with stack := .subtasks p (i + 1) caller :: rest }
    enterOr b m (i :: p) [] m
  else
    let result := ((m.tree.get? p).map (·.associatedFunctionResult)).join
    match caller with
    | .call => { (m.finish p).emit (.returned p) with stack := deliver (.result result) rest }
    | .setProgress => { m.finish p with stack := deliver (.stop false) rest }

/-- One step of the thread, `none` when the root's call is over. -/
def step (b : Behaviour F V E σ) (m : Machine F V E b.Q σ) : Option (Machine F V E b.Q σ) :=
  match m.stack with
  | [] => none
  | .run :: rest => some (enterOr b { m with stack := rest } [] [] { m with stack := rest })
  | .body p .tasklist :: rest => some (m.functionReturned p none rest)
  | .body p (.ready q) :: rest =>
    let (w, a, k) := b.next q m.world
    some (act b { m with world := w } p k rest a)
  | .body _ (.waiting _) :: _ => none
  | .subtasks p i caller :: rest => some (m.loop b p i caller rest)

/-- A task list before its thread is started. -/
def init (name : String) (tasks : List (SpecTree F)) (threaded : Bool) (w : σ) :
    Machine F V E Q σ where
  tree := taskList name tasks
  threaded := threaded
  stopped := false
  stack := [.run]
  world := w
  trace := []

end Machine

/-- The thread steps, or the user cancels the root. -/
inductive Step (b : Behaviour F V E σ) : Machine F V E b.Q σ → Machine F V E b.Q σ → Prop where
  | run {m m'} : m.step b = some m' → Step b m m'
  | cancel {m} : Step b m m.cancel

end Swinst.TaskList
