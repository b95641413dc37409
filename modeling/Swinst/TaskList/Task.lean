import Swinst.Data.RoseTree
import Mathlib.Data.Rat.Defs

/-! Tasks and task trees of `backends/common/tasklist.py`. The task objects reachable from a root
are the nodes of a rose tree; `task.parent` is the tail of a task's path and `task.subtasks` are
the children. Clock readings (`start_time`, `end_time`, the progress timestamps, the speed) and the
texts shown by the progress page (`description`, `unit`) steer nothing and are left out. -/

namespace Swinst.TaskList

/-- A Python 2 number: the operators behave differently on integers and floats, and the values of
`size`, `weight` and `completed` may be either. Floats are exact rationals here. -/
inductive PyNum where
  | int (n : Int)
  | float (q : Rat)
  deriving DecidableEq

namespace PyNum

def toRat : PyNum → Rat
  | int n => n
  | float q => q

/-- Python truth of a number. -/
def truthy (x : PyNum) : Bool := x.toRat != 0

end PyNum

inductive Status where
  | inactive | active | completed | failed | cancelled
  deriving DecidableEq, Repr

/-- What a task refers to: the empty function that `TaskList.__init__` creates, or a function of
the installer. -/
inductive AssociatedFunction (F : Type) where
  | tasklist
  | code (f : F)
  deriving DecidableEq

/-- The arguments of `Task.__init__`, its defaults applied. -/
structure TaskSpec (F : Type) where
  associatedFunction : AssociatedFunction F
  name : String
  size : PyNum := .int 1
  weight : PyNum := .int 1
  isRequired : Bool := true

/-- A `Task` object. `V` are the values that functions take and return besides `None`, and `E` is
the exception information. -/
structure Task (F V E : Type) extends TaskSpec F where
  completed : PyNum := .int 0
  status : Status := .inactive
  associatedFunctionResult : Option V := none
  error : Option E := none

/-- `Task.__init__` -/
def Task.init (spec : TaskSpec F) : Task F V E := { toTaskSpec := spec }

namespace Task

/-- the entry of `__call__` -/
def activate (t : Task F V E) : Task F V E := { t with error := none, status := .active }

/-- `self.completed = self.size; self.status = Task.COMPLETED` -/
def complete (t : Task F V E) : Task F V E := { t with completed := t.size, status := .completed }

/-- `self.error = e; self.status = Task.FAILED` -/
def fail (e : E) (t : Task F V E) : Task F V E := { t with error := some e, status := .failed }

def setCancelled (t : Task F V E) : Task F V E := { t with status := .cancelled }

def setError (e : E) (t : Task F V E) : Task F V E := { t with error := some e }

def setResult (v : Option V) (t : Task F V E) : Task F V E :=
  { t with associatedFunctionResult := v }

def setSize (n : PyNum) (t : Task F V E) : Task F V E := { t with size := n }

/-- `completed` and `size` as `set_progress` stores them -/
def setCompleted (completed : PyNum) (size : Option PyNum) (t : Task F V E) : Task F V E :=
  { t with
    completed := completed
    size := match size with
      | some n => if n.truthy then n else t.size
      | none => t.size }

@[simp] theorem status_init (spec : TaskSpec F) :
    (Task.init spec : Task F V E).status = .inactive := rfl

@[simp] theorem status_activate (t : Task F V E) : t.activate.status = .active := rfl

@[simp] theorem status_complete (t : Task F V E) : t.complete.status = .completed := rfl

@[simp] theorem status_fail (e : E) (t : Task F V E) : (t.fail e).status = .failed := rfl

@[simp] theorem status_setCancelled (t : Task F V E) : t.setCancelled.status = .cancelled := rfl

@[simp] theorem status_setError (e : E) (t : Task F V E) : (t.setError e).status = t.status := rfl

@[simp] theorem status_setResult (v : Option V) (t : Task F V E) :
    (t.setResult v).status = t.status := rfl

@[simp] theorem status_setSize (n : PyNum) (t : Task F V E) : (t.setSize n).status = t.status := rfl

@[simp] theorem status_setCompleted (completed : PyNum) (size : Option PyNum) (t : Task F V E) :
    (t.setCompleted completed size).status = t.status := rfl

end Task

/-- `TaskList.__init__`, before the tasks are put below it. -/
def taskListSpec (name : String := "tasklist") : TaskSpec F where
  associatedFunction := .tasklist
  name := name
  weight := .float (1 / 100)

/-- A task with everything that is already below it when it is attached. -/
abbrev SpecTree (F : Type) := RoseTree (TaskSpec F)

abbrev TaskTree (F V E : Type) := RoseTree (Task F V E)

def SpecTree.init (t : SpecTree F) : TaskTree F V E := t.map Task.init

/-- `TaskList(name, tasks=tasks)` -/
def taskList (name : String) (tasks : List (SpecTree F)) : TaskTree F V E :=
  SpecTree.init (.node (taskListSpec name) tasks)

namespace TaskTree

def status? (t : TaskTree F V E) (p : Path) : Option Status := (t.get? p).map (·.status)

theorem status?_nil (t : TaskTree F V E) : t.status? [] = some t.value.status := rfl

/-- `Task.is_active` -/
def isActive (t : TaskTree F V E) : Path → Bool
  | [] => t.status? [] = some .active
  | i :: p => t.status? (i :: p) = some .active && isActive t p

/-- `self.parent is None or self.parent.is_active()` -/
def parentActive (t : TaskTree F V E) : Path → Bool
  | [] => true
  | _ :: p => isActive t p

theorem isActive_root {t : TaskTree F V E} {p : Path} (h : isActive t p) :
    t.status? [] = some .active := by
  induction p with
  | nil => simpa [isActive] using h
  | cons i p ih =>
    simp only [isActive, Bool.and_eq_true] at h
    exact ih h.2

theorem isActive_self {t : TaskTree F V E} {p : Path} (h : isActive t p) :
    t.status? p = some .active := by
  cases p with
  | nil => simpa [isActive] using h
  | cons i p => simp only [isActive, Bool.and_eq_true, decide_eq_true_eq] at h; exact h.1

theorem status?_taskList (name : String) (tasks : List (SpecTree F)) (p : Path) :
    status? (taskList name tasks : TaskTree F V E) p = none ∨
      status? (taskList name tasks : TaskTree F V E) p = some .inactive := by
  unfold status? taskList SpecTree.init
  rw [RoseTree.get?_map]
  cases (RoseTree.node (taskListSpec name) tasks).get? p with
  | none => exact .inl rfl
  | some s => exact .inr rfl

end TaskTree

end Swinst.TaskList
