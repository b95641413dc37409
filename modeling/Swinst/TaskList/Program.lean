import Swinst.TaskList.Runs

/-! Functions of the installer in direct style. Such a function works on the shared world, adds
subtasks to its own task and calls each of them at once, and may call `finish`. It is evaluated
here without a stack, for a run that the user does not cancel. -/

namespace Swinst.TaskList

inductive Prog (V E σ : Type) where
  | ret (v : Option V)
  | raise (e : E)
  /-- code between calls: `k` sees the world before, `f` changes it -/
  | step (f : σ → σ) (k : σ → Prog V E σ)
  /-- `associated_task.add_subtask(body, name, is_required=required)(…)` -/
  | subtask (name : String) (required : Bool) (body : Prog V E σ) (k : Option V → Prog V E σ)
  /-- `associated_task.finish()` -/
  | finish (k : Prog V E σ)

namespace Prog

variable {V E σ τ : Type}

/-- Read the world. -/
def read (k : σ → Prog V E σ) : Prog V E σ := step id k

/-- Change the world. -/
def update (f : σ → σ) (k : Prog V E σ) : Prog V E σ := step f fun _ => k

/-- Code that reads and changes the world and may raise. -/
def code {α : Type} (f : σ → Except E α × σ) (k : α → Prog V E σ) : Prog V E σ :=
  step (fun w => (f w).2) fun w =>
    match (f w).1 with
    | .ok a => k a
    | .error e => raise e

/-- A call of another function in the same task. -/
def bind : Prog V E σ → (Option V → Prog V E σ) → Prog V E σ
  | ret v, g => g v
  | raise e, _ => raise e
  | step f k, g => step f fun w => (k w).bind g
  | subtask name required body k, g => subtask name required body fun r => (k r).bind g
  | finish k, g => finish (k.bind g)

/-- `try: … except: …` around the whole of a function. -/
def tryExcept : Prog V E σ → (E → Prog V E σ) → Prog V E σ
  | ret v, _ => ret v
  | raise e, g => g e
  | step f k, g => step f fun w => (k w).tryExcept g
  | subtask name required body k, g => subtask name required body fun r => (k r).tryExcept g
  | finish k, g => finish (k.tryExcept g)

/-- A function that works on a part of the world. -/
def zoom (get : σ → τ) (set : τ → σ → σ) : Prog V E τ → Prog V E σ
  | ret v => ret v
  | raise e => raise e
  | step f k => step (fun w => set (f (get w)) w) fun w => (k (get w)).zoom get set
  | subtask name required body k =>
    subtask name required (body.zoom get set) fun r => (k r).zoom get set
  | finish k => finish (k.zoom get set)

/-- The function with another body for its subtasks of this name. -/
def withBody (name : String) (body : Prog V E σ) : Prog V E σ → Prog V E σ
  | ret v => ret v
  | raise e => raise e
  | step f k => step f fun w => withBody name body (k w)
  | subtask n required b k =>
    subtask n required (if n = name then body else b) fun r => withBody name body (k r)
  | finish k => finish (withBody name body k)

/-- How a function ends: what it returns or raises, whether its own task and the root are still
active, and the world. -/
structure Outcome (V E σ : Type) where
  result : Except E (Option V)
  own : Bool
  active : Bool
  world : σ

/-- What is left to do for a function that has come to its end. -/
def Outcome.prog (o : Outcome V E σ) : Prog V E σ :=
  match o.result with
  | .ok v => ret v
  | .error e => raise e

/-- What the caller of a subtask gets back: `Task.__call__` lets no exception out. -/
def Outcome.value (o : Outcome V E σ) : Option V :=
  match o.result with
  | .ok v => v
  | .error _ => none

/-- Is the root active after a task that was `required` ended like this? -/
def Outcome.keepsActive (required : Bool) (o : Outcome V E σ) : Bool :=
  match o.result with
  | .ok _ => o.active
  | .error _ => o.active && !required

/-- `own` and `active` tell whether the task of the function and the root are active: otherwise the
call of a subtask is refused. -/
def eval : Prog V E σ → (own active : Bool) → σ → Outcome V E σ
  | ret v, own, active, w => ⟨.ok v, own, active, w⟩
  | raise e, own, active, w => ⟨.error e, own, active, w⟩
  | step f k, own, active, w => (k w).eval own active (f w)
  | subtask _ required body k, own, active, w =>
    if own && active then
      let o := body.eval true true w
      (k o.value).eval own (o.keepsActive required) o.world
    else (k none).eval own active w
  | finish k, _, active, w => k.eval false active w

/-- Go on after a call that came back normally. -/
def Outcome.andThen (o : Outcome V E σ) (g : Option V → Prog V E σ) : Outcome V E σ :=
  match o.result with
  | .ok v => (g v).eval o.own o.active o.world
  | .error _ => o

@[simp] theorem eval_ret (v : Option V) (own active : Bool) (w : σ) :
    (ret v : Prog V E σ).eval own active w = ⟨.ok v, own, active, w⟩ := rfl

@[simp] theorem eval_raise (e : E) (own active : Bool) (w : σ) :
    (raise e : Prog V E σ).eval own active w = ⟨.error e, own, active, w⟩ := rfl

@[simp] theorem eval_read (k : σ → Prog V E σ) (own active : Bool) (w : σ) :
    (read k).eval own active w = (k w).eval own active w := rfl

@[simp] theorem eval_update (f : σ → σ) (k : Prog V E σ) (own active : Bool) (w : σ) :
    (update f k).eval own active w = k.eval own active (f w) := rfl

theorem eval_code {α : Type} (f : σ → Except E α × σ) (k : α → Prog V E σ) (own active : Bool)
    (w : σ) : (code f k).eval own active w =
      match (f w).1 with
      | .ok a => (k a).eval own active (f w).2
      | .error e => ⟨.error e, own, active, (f w).2⟩ := by
  simp only [code, eval]
  cases (f w).1 <;> rfl

theorem withBody_code {α : Type} (name : String) (body : Prog V E σ) (f : σ → Except E α × σ)
    (k : α → Prog V E σ) :
    withBody name body (code f k) = code f fun a => withBody name body (k a) := by
  simp only [code, withBody]
  congr 1
  funext w
  cases (f w).1 <;> rfl

theorem eval_code_ok {α : Type} {f : σ → Except E α × σ} {w w' : σ} {a : α}
    (h : f w = (.ok a, w')) (k : α → Prog V E σ) (own active : Bool) :
    (code f k).eval own active w = (k a).eval own active w' := by
  rw [eval_code, h]

theorem eval_code_world {α : Type} (f : σ → Except E α × σ) (v : Option V) (own active : Bool)
    (w : σ) : ((code f fun _ => ret v : Prog V E σ).eval own active w).world = (f w).2 := by
  rw [eval_code]
  cases (f w).1 <;> rfl

@[simp] theorem eval_finish (k : Prog V E σ) (own active : Bool) (w : σ) :
    (finish k).eval own active w = k.eval false active w := rfl

/-- A call of a subtask while everything above it is active. -/
theorem eval_subtask (name : String) (required : Bool) (body : Prog V E σ)
    (k : Option V → Prog V E σ) (w : σ) :
    (subtask name required body k).eval true true w =
      (k (body.eval true true w).value).eval true ((body.eval true true w).keepsActive required)
        (body.eval true true w).world := rfl

/-- A call that is refused. -/
theorem eval_subtask_refused (name : String) (required : Bool) (body : Prog V E σ)
    (k : Option V → Prog V E σ) (own : Bool) (w : σ) :
    (subtask name required body k).eval own false w = (k none).eval own false w := by
  simp [eval]

theorem eval_bind (p : Prog V E σ) (g : Option V → Prog V E σ) (own active : Bool) (w : σ) :
    (p.bind g).eval own active w = (p.eval own active w).andThen g := by
  induction p generalizing own active w with
  | ret v => rfl
  | raise e => rfl
  | step f k ih => exact ih w ..
  | subtask name required body k _ ih =>
    simp only [bind, eval]
    split
    · exact ih ..
    · exact ih ..
  | finish k ih => exact ih ..

/-- A root that has left `ACTIVE` stays so. -/
theorem eval_inactive (p : Prog V E σ) (own : Bool) (w : σ) :
    (p.eval own false w).active = false := by
  induction p generalizing own w with
  | ret v => rfl
  | raise e => rfl
  | step f k ih => exact ih w ..
  | subtask name required body k _ ih =>
    rw [eval_subtask_refused]
    exact ih ..
  | finish k ih => exact ih ..

/-- A function that works on a part of the world leaves what this part does not change. -/
theorem eval_zoom {get : σ → τ} {set : τ → σ → σ} {π : σ → α} (hset : ∀ t w, π (set t w) = π w)
    (p : Prog V E τ) (own active : Bool) (w : σ) :
    π ((p.zoom get set).eval own active w).world = π w := by
  induction p generalizing own active w with
  | ret v => rfl
  | raise e => rfl
  | step f k ih => exact (ih (get w) ..).trans (hset _ w)
  | subtask name required body k ihb ihk =>
    simp only [zoom, eval]
    split
    · exact (ihk ..).trans (ihb ..)
    · exact ihk ..
  | finish k ih => exact ih ..

end Prog

/-- A task of a list: its name, whether it is required, and its function. -/
structure ProgTask (V E σ : Type) where
  name : String
  required : Bool := true
  prog : Prog V E σ

/-- The `Task` object of such a task, with no subtasks yet. -/
def ProgTask.spec (t : ProgTask V E σ) : SpecTree (Prog V E σ) :=
  .node { associatedFunction := .code t.prog, name := t.name, isRequired := t.required } []

/-- Is the root active after a task of the list, and in which world? A call that the root no longer
allows is refused. -/
def ProgTask.after (t : ProgTask V E σ) (active : Bool) (w : σ) : Bool × σ :=
  if active then
    let o := t.prog.eval true true w
    (o.keepsActive t.required, o.world)
  else (false, w)

/-- The tasks of a list one after another. -/
def evalTasks : List (ProgTask V E σ) → (active : Bool) → σ → Bool × σ
  | [], active, w => (active, w)
  | t :: ts, active, w => evalTasks ts (t.after active w).1 (t.after active w).2

theorem evalTasks_cons (t : ProgTask V E σ) (ts : List (ProgTask V E σ)) (active : Bool) (w : σ) :
    evalTasks (t :: ts) active w = evalTasks ts (t.after active w).1 (t.after active w).2 := rfl

theorem evalTasks_inactive (ts : List (ProgTask V E σ)) (w : σ) :
    evalTasks ts false w = (false, w) := by
  induction ts generalizing w with
  | nil => rfl
  | cons t ts ih => exact ih w

/-- When a list leaves the root active, so does its first task. -/
theorem evalTasks_cons_ok {t : ProgTask V E σ} {ts : List (ProgTask V E σ)} {w w' : σ}
    (h : evalTasks (t :: ts) true w = (true, w')) :
    (t.prog.eval true true w).keepsActive t.required = true ∧
      evalTasks ts true (t.prog.eval true true w).world = (true, w') := by
  rw [evalTasks_cons] at h
  have hafter : t.after true w = ((t.prog.eval true true w).keepsActive t.required,
    (t.prog.eval true true w).world) := rfl
  cases hactive : (t.prog.eval true true w).keepsActive t.required with
  | true =>
    rw [hafter, hactive] at h
    exact ⟨rfl, h⟩
  | false =>
    rw [hafter, hactive, evalTasks_inactive] at h
    cases h

theorem evalTasks_append (ts ts' : List (ProgTask V E σ)) (active : Bool) (w : σ) :
    evalTasks (ts ++ ts') active w = evalTasks ts' (evalTasks ts active w).1
      (evalTasks ts active w).2 := by
  induction ts generalizing active w with
  | nil => rfl
  | cons t ts ih => exact ih ..

/-- When a list leaves the root active, so does each part of it. -/
theorem evalTasks_append_ok {ts ts' : List (ProgTask V E σ)} {w w' : σ}
    (h : evalTasks (ts ++ ts') true w = (true, w')) :
    (evalTasks ts true w).1 = true ∧ evalTasks ts' true (evalTasks ts true w).2 = (true, w') := by
  rw [evalTasks_append] at h
  cases hactive : (evalTasks ts true w).1 with
  | true =>
    rw [hactive] at h
    exact ⟨rfl, h⟩
  | false =>
    rw [hactive, evalTasks_inactive] at h
    cases h

/-- A required task without subtasks leaves the root active unless it raises. -/
theorem evalTasks_code_cons {α : Type} (name : String) (f : σ → Except E α × σ) (v : Option V)
    (ts : List (ProgTask V E σ)) (w : σ) :
    evalTasks ({ name, prog := .code f fun _ => .ret v } :: ts) true w =
      match (f w).1 with
      | .ok _ => evalTasks ts true (f w).2
      | .error _ => (false, (f w).2) := by
  have hafter : ProgTask.after { name, prog := .code f fun _ => .ret v } true w =
      (((Prog.code f fun _ => .ret v : Prog V E σ).eval true true w).keepsActive true,
        ((Prog.code f fun _ => .ret v : Prog V E σ).eval true true w).world) := rfl
  rw [evalTasks_cons, hafter, Prog.eval_code]
  cases (f w).1 with
  | ok a => rfl
  | error e => exact evalTasks_inactive ts _

theorem evalTasks_code_ok {α : Type} {name : String} {f : σ → Except E α × σ} {v : Option V}
    {ts : List (ProgTask V E σ)} {w w' : σ}
    (h : evalTasks ({ name, prog := .code f fun _ => .ret v } :: ts) true w = (true, w')) :
    (∃ a, (f w).1 = .ok a) ∧ evalTasks ts true (f w).2 = (true, w') := by
  rw [evalTasks_code_cons] at h
  cases hf : (f w).1 with
  | ok a =>
    rw [hf] at h
    exact ⟨⟨a, rfl⟩, h⟩
  | error e =>
    rw [hf] at h
    cases h

/-- What every task keeps, a list of them keeps. -/
theorem evalTasks_invariant {P : σ → Prop} {ts : List (ProgTask V E σ)}
    (hts : ∀ t ∈ ts, ∀ w, P w → P (t.prog.eval true true w).world) :
    ∀ {active w}, P w → P (evalTasks ts active w).2 := by
  induction ts with
  | nil => exact id
  | cons t ts ih =>
    intro active w hw
    obtain ⟨ht, hts⟩ := List.forall_mem_cons.mp hts
    cases active with
    | true => exact ih hts (ht w hw)
    | false => exact ih hts hw

end Swinst.TaskList
