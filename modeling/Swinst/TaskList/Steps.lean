import Swinst.TaskList.Machine
import Mathlib.Logic.Relation

/-! What one step can do. A step either starts one function (`Starts`) or starts none and leaves
every status that it does not end (`Quiet`); on the stack it stays inside the call it is in, or it
ends that call (`Activation`). The invariants of runs are derived from these two facts. -/

namespace Swinst.TaskList

variable {F V E Q σ : Type}

namespace TaskTree

theorem status?_modify (t : TaskTree F V E) (p q : Path) (f : Task F V E → Task F V E) :
    status? (t.modify p f) q =
      if q = p then (t.get? q).map fun a => (f a).status else t.status? q := by
  simp only [status?, RoseTree.get?_modify]
  split <;> simp [Option.map_map, Function.comp_def]

theorem status?_modify_of_status {t : TaskTree F V E} {f : Task F V E → Task F V E}
    (hf : ∀ a, (f a).status = a.status) (p q : Path) : status? (t.modify p f) q = status? t q := by
  rw [status?_modify]
  split <;> simp [status?, hf]

theorem status?_init (c : SpecTree F) (q : Path) (h : status? (c.init : TaskTree F V E) q = some s) :
    s = .inactive := by
  unfold status? SpecTree.init at h
  rw [RoseTree.get?_map] at h
  cases hc : c.get? q <;> simp_all

theorem isSome_get?_of_status? {t : TaskTree F V E} {p : Path} (h : status? t p = some s) :
    (t.get? p).isSome := by
  unfold status? at h
  cases hp : t.get? p <;> simp_all

end TaskTree

open TaskTree

def Frame.path : Frame V Q → Path
  | .run => []
  | .body p _ => p
  | .subtasks p _ _ => p

/-- The events that bound a call of a task. -/
inductive Mark where
  | started (p : Path)
  | ended (p : Path)
  | returned (p : Path)
  deriving DecidableEq

def Event.mark? : Event V E → Option Mark
  | .started p _ => some (.started p)
  | .ended p _ => some (.ended p)
  | .returned p => some (.returned p)
  | _ => none

namespace Machine

/-! ## Steps that start nothing -/

/-- From `m` to `m'` no function is started; the statuses of tasks other than the root and the one
at `p` are kept, and no task becomes active, or inactive again. -/
structure Quiet (p : Path) (m m' : Machine F V E Q σ) : Prop where
  status : ∀ {q s}, m.tree.status? q = some s → ∃ s', m'.tree.status? q = some s' ∧
    (q ≠ p → q ≠ [] → s' = s) ∧ (s' = .inactive → s = .inactive) ∧ (s' = .active → s = .active)
  fresh : ∀ {q s}, m'.tree.status? q = some s → m.tree.status? q = none →
    s ≠ .active ∧ (q ≠ p → q ≠ [] → s = .inactive)
  arity : ∀ {q s}, m.tree.status? q = some s → q ≠ p → m'.tree.arity q = m.tree.arity q

namespace Quiet

theorem of_eq {m m' : Machine F V E Q σ} (ht : m'.tree = m.tree) : Quiet p m m' where
  status h := ⟨_, ht ▸ h, fun _ _ => rfl, id, id⟩
  fresh h h' := by rw [ht, h'] at h; cases h
  arity _ _ := by rw [ht]

theorem trans {m₁ m₂ m₃ : Machine F V E Q σ} (h₁ : Quiet p m₁ m₂) (h₂ : Quiet p m₂ m₃) :
    Quiet p m₁ m₃ where
  status h := by
    obtain ⟨s', hs', hk, hi, ha⟩ := h₁.status h
    obtain ⟨s'', hs'', hk', hi', ha'⟩ := h₂.status hs'
    exact ⟨s'', hs'', fun hp hr => (hk' hp hr).trans (hk hp hr), hi ∘ hi', ha ∘ ha'⟩
  fresh {q s} h h' := by
    cases hm : m₂.tree.status? q with
    | none => exact h₂.fresh h hm
    | some s₂ =>
      obtain ⟨hna, hin⟩ := h₁.fresh hm h'
      obtain ⟨s', hs', hk, -, ha⟩ := h₂.status hm
      cases hs'.symm.trans h
      exact ⟨hna ∘ ha, fun hp hr => (hk hp hr).trans (hin hp hr)⟩
  arity h hp := by
    obtain ⟨s', hs', -⟩ := h₁.status h
    exact (h₂.arity hs' hp).trans (h₁.arity h hp)

/-- Changing the task at `q`, which is `p` or the root, by a function that ends it or keeps its
status. -/
theorem modify (m : Machine F V E Q σ) {f : Task F V E → Task F V E} (hq : q = p ∨ q = [])
    (hi : ∀ a, (f a).status = .inactive → a.status = .inactive)
    (ha : ∀ a, (f a).status = .active → a.status = .active) : Quiet p m (m.modify q f) where
  status {r s} h := by
    by_cases hr : r = q
    · obtain rfl := hr
      obtain ⟨a, hg, rfl⟩ := Option.map_eq_some_iff.mp h
      refine ⟨(f a).status, ?_, fun hp hn => ?_, hi a, ha a⟩
      · simp [Machine.modify, status?_modify, hg]
      · rcases hq with rfl | rfl <;> contradiction
    · exact ⟨s, by simpa [Machine.modify, status?_modify, hr] using h, fun _ _ => rfl, id, id⟩
  fresh {r s} h h' := by
    have hr : r = q → m.tree.get? r = none := fun _ => Option.map_eq_none_iff.mp h'
    simp only [Machine.modify, status?_modify] at h
    split at h
    · next hrq => simp [hr hrq] at h
    · rw [h'] at h; cases h
  arity _ _ := RoseTree.arity_modify ..

theorem modify_data (m : Machine F V E Q σ) {f : Task F V E → Task F V E} (hq : q = p ∨ q = [])
    (hf : ∀ a, (f a).status = a.status) : Quiet p m (m.modify q f) :=
  modify m hq (fun a => (hf a ▸ ·)) (fun a => (hf a ▸ ·))

theorem modify_ended (m : Machine F V E Q σ) {f : Task F V E → Task F V E} (hq : q = p ∨ q = [])
    (hf : ∀ a, (f a).status = s) (hi : s ≠ .inactive) (ha : s ≠ .active) :
    Quiet p m (m.modify q f) :=
  modify m hq (fun a h => (hi (hf a ▸ h)).elim) (fun a h => (ha (hf a ▸ h)).elim)

theorem emit (m : Machine F V E Q σ) (e : Event V E) : Quiet p m (m.emit e) := of_eq rfl

theorem finish (m : Machine F V E Q σ) (p : Path) : Quiet p m (m.finish p) := by
  unfold Machine.finish
  split
  · exact of_eq rfl
  · refine Quiet.trans ?_ (emit ..)
    exact modify_ended m (.inl rfl) Task.status_complete (by decide) (by decide)

theorem cancel (m : Machine F V E Q σ) : Quiet p m m.cancel := by
  have h : Quiet p m { m with stopped := m.threaded || m.stopped } := of_eq rfl
  refine h.trans (Quiet.trans ?_ (emit ..))
  exact modify_ended _ (.inr rfl) Task.status_setCancelled (by decide) (by decide)

theorem addSubtask (m : Machine F V E Q σ) {p : Path} (hp : (m.tree.get? p).isSome)
    (c : SpecTree F) : Quiet p m (m.addSubtask p c) := by
  suffices h : Quiet p m { m with tree := m.tree.addChild p c.init } from
    h.trans ((emit ..).trans (emit ..))
  refine ⟨fun {q s} h => ?_, fun {q s} h h' => ?_, fun {q s} h hq => ?_⟩
  · obtain ⟨a, hg, rfl⟩ := Option.map_eq_some_iff.mp h
    exact ⟨_, by simp [status?, RoseTree.get?_addChild_old hg], fun _ _ => rfl, id, id⟩
  · obtain ⟨a, hg, rfl⟩ := Option.map_eq_some_iff.mp h
    rcases RoseTree.get?_addChild_cases hp hg with hg | ⟨r, -, hr⟩
    · simp [status?, hg] at h'
    · have := status?_init (V := V) (E := E) c r (s := a.status) (by simp [status?, hr])
      simp [this]
  · exact RoseTree.arity_addChild_of_ne hq (isSome_get?_of_status? h)

end Quiet

/-! ## Marks in the trace -/

def marks (m : Machine F V E Q σ) : List Mark := m.trace.filterMap Event.mark?

@[simp] theorem marks_emit (m : Machine F V E Q σ) (e : Event V E) :
    (m.emit e).marks = e.mark?.toList ++ m.marks := by
  cases h : e.mark? <;> simp [marks, Machine.emit, h]

@[simp] theorem marks_notify (m : Machine F V E Q σ) (p : Path) (msg : String) :
    (m.notify p msg).marks = m.marks := by simp [notify, Event.mark?]

@[simp] theorem marks_modify (m : Machine F V E Q σ) (p : Path) (f : Task F V E → Task F V E) :
    (m.modify p f).marks = m.marks := rfl

@[simp] theorem marks_mk (m : Machine F V E Q σ) (t : TaskTree F V E) (b b' : Bool)
    (s : List (Frame V Q)) (w : σ) :
    marks { m with tree := t, threaded := b, stopped := b', stack := s, world := w } = m.marks := rfl

@[simp] theorem marks_finish (m : Machine F V E Q σ) (p : Path) : (m.finish p).marks = m.marks := by
  unfold finish; split <;> simp

@[simp] theorem marks_cancel (m : Machine F V E Q σ) : m.cancel.marks = m.marks := by
  simp [cancel]

@[simp] theorem marks_addSubtask (m : Machine F V E Q σ) (p : Path) (c : SpecTree F) :
    (m.addSubtask p c).marks = m.marks := by
  simp [addSubtask, Event.mark?]

/-- The paths of the tasks whose function has been started, latest first. -/
def starts (m : Machine F V E Q σ) : List Path :=
  m.marks.filterMap fun
    | .started p => some p
    | _ => none

/-! ## Entering a task -/

/-- From `m` to `m'` the function of the task at `p` is started. -/
structure Starts (p : Path) (m m' : Machine F V E Q σ) : Prop where
  inactive : m.tree.status? p = some .inactive
  parent : parentActive m.tree p
  status : ∀ q, m'.tree.status? q = if q = p then some .active else m.tree.status? q
  arity : ∀ q, m'.tree.arity q = m.tree.arity q
  marks : m'.marks = .started p :: m.marks

theorem Starts.of_eq {m₀ m m' : Machine F V E Q σ} (h : Starts p m m') (ht : m.tree = m₀.tree)
    (hm : m.marks = m₀.marks) : Starts p m₀ m' :=
  ⟨ht ▸ h.inactive, ht ▸ h.parent, ht ▸ h.status, ht ▸ h.arity, hm ▸ h.marks⟩

theorem enter_some {b : Behaviour F V E σ} {m m' : Machine F V E b.Q σ} {p : Path} {args : List V}
    (h : m.enter b p args = some m') :
    Starts p m m' ∧ ∃ t, m.tree.get? p = some t ∧
      m'.stack = .body p (b.enter t.associatedFunction args) :: m.stack := by
  unfold enter at h
  split at h
  · cases h
  next t ht =>
  split at h
  · cases h
  next hg =>
  simp only [ne_eq, Bool.not_eq_eq_eq_not, Bool.not_true, not_or, Decidable.not_not,
    Bool.not_eq_false] at hg
  cases h
  refine ⟨⟨by simp [status?, ht, hg.1], hg.2, fun q => ?_, fun q => ?_, ?_⟩, t, ht, rfl⟩
  · simp only [emit, notify, modify, status?_modify]
    split
    · next hq => simp [hq, ht]
    · rfl
  · simp [emit, notify, modify]
  · simp [Event.mark?]

/-- The call of a child that was refused: it has left `INACTIVE`, or its parent is not active. -/
theorem enter_none {b : Behaviour F V E σ} {m : Machine F V E b.Q σ} {p : Path} {i : Nat}
    {args : List V} (hi : i < m.tree.arity p) (h : m.enter b (i :: p) args = none) :
    m.tree.status? (i :: p) ≠ some .inactive ∨ isActive m.tree p = false := by
  unfold enter at h
  obtain ⟨t, ht⟩ := Option.isSome_iff_exists.mp (RoseTree.isSome_get?_cons.mpr hi)
  simp only [ht] at h
  split at h
  · next hg => simpa [status?, ht, parentActive] using hg
  · cases h

/-! ## Inversion of a step -/

/-- Everything a step of the thread can do. -/
inductive Shape (m m' : Machine F V E Q σ) : Prop where
  /-- the running function acts and goes on -/
  | acted {p c c' rest} : m.stack = .body p c :: rest → m'.stack = .body p c' :: rest →
    Quiet p m m' → m'.marks = m.marks → Shape m m'
  /-- it calls one of its subtasks -/
  | called {p c k i c' rest} : m.stack = .body p c :: rest →
    m'.stack = .body (i :: p) c' :: .body p (.waiting k) :: rest → Starts (i :: p) m m' → Shape m m'
  /-- it reports full progress -/
  | filled {p c k rest} : m.stack = .body p c :: rest →
    m'.stack = .subtasks p 0 .setProgress :: .body p (.waiting k) :: rest →
    Quiet p m m' → m'.marks = m.marks → Shape m m'
  /-- it returns, or raises in a task that is not required -/
  | ended {p c rest} : m.stack = .body p c :: rest → m'.stack = .subtasks p 0 .call :: rest →
    Quiet p m m' → m'.marks = .ended p :: m.marks → Shape m m'
  /-- it raises in a required task -/
  | failed {p c ans rest} : m.stack = .body p c :: rest → m'.stack = deliver ans rest →
    Quiet p m m' → m'.marks = .returned p :: .ended p :: m.marks →
    m'.tree.status? [] ≠ some .active →
    Shape m m'
  /-- the loop calls the next subtask -/
  | looped {p i caller c rest} : m.stack = .subtasks p i caller :: rest →
    m'.stack = .body (i :: p) c :: .subtasks p (i + 1) caller :: rest → Starts (i :: p) m m' →
    Shape m m'
  /-- the loop passes over the next subtask, whose call is refused -/
  | skipped {p i caller rest} : m.stack = .subtasks p i caller :: rest →
    m'.stack = .subtasks p (i + 1) caller :: rest → i < m.tree.arity p →
    m.tree.status? (i :: p) ≠ some .inactive ∨ isActive m.tree p = false →
    m'.tree = m.tree → m'.marks = m.marks → Shape m m'
  /-- the loop of a call is over, and so is the call -/
  | returned {p i ans rest} : m.stack = .subtasks p i .call :: rest → m'.stack = deliver ans rest →
    m.tree.arity p ≤ i → Quiet p m m' → (∀ q, m'.tree.arity q = m.tree.arity q) →
    m'.marks = .returned p :: m.marks → Shape m m'
  /-- the loop inside `set_progress` is over -/
  | progressed {p i ans rest} : m.stack = .subtasks p i .setProgress :: rest →
    m'.stack = deliver ans rest → Quiet p m m' → m'.marks = m.marks → Shape m m'
  /-- the root is called -/
  | ran {c rest} : m.stack = .run :: rest → m'.stack = .body [] c :: rest → Starts [] m m' →
    ((m.tree.get? []).map (·.associatedFunction) = some .tasklist → c = .tasklist) → Shape m m'
  /-- the call of the root is refused -/
  | refused {rest} : m.stack = .run :: rest → m'.stack = rest → m'.tree = m.tree →
    m'.marks = m.marks → Shape m m'

@[simp] theorem stack_cancel (m : Machine F V E Q σ) : m.cancel.stack = m.stack := rfl

@[simp] theorem arity_cancel (m : Machine F V E Q σ) (q : Path) :
    m.cancel.tree.arity q = m.tree.arity q := RoseTree.arity_modify ..

theorem arity_finish (m : Machine F V E Q σ) (p q : Path) :
    (m.finish p).tree.arity q = m.tree.arity q := by
  unfold finish
  split
  · rfl
  · exact RoseTree.arity_modify ..

theorem status?_cancel (m : Machine F V E Q σ) : m.cancel.tree.status? [] ≠ some .active := by
  simp only [cancel, notify, emit, modify, status?_modify, if_true]
  cases m.tree.get? [] <;> simp

private theorem functionReturned_shape {m m₀ : Machine F V E Q σ} {rest : List (Frame V Q)}
    (v : Option V)
    (hs : m₀.stack = .body p c :: rest) (ht : m.tree = m₀.tree) (hm : m.marks = m₀.marks) :
    Shape m₀ (m.functionReturned p v rest) := by
  refine .ended hs rfl ?_ ?_
  · have h := Quiet.modify_data m (p := p) (.inl rfl) (Task.status_setResult v)
    exact (Quiet.of_eq ht).trans (h.trans (Quiet.of_eq rfl))
  · simp [functionReturned, Event.mark?, hm]

private theorem functionRaised_shape {b : Behaviour F V E σ} {m m₀ : Machine F V E b.Q σ}
    {c : Control V b.Q} {rest : List (Frame V b.Q)} (e : E)
    (hs : m₀.stack = .body p c :: rest) (ht : m.tree = m₀.tree) (hm : m.marks = m₀.marks) :
    Shape m₀ (m.functionRaised b p e rest) := by
  unfold functionRaised
  dsimp only
  have hf := Quiet.modify_ended m (p := p) (.inl rfl) (Task.status_fail e) (by decide) (by decide)
  have hq := (Quiet.of_eq ht).trans (hf.trans (Quiet.emit _ (.ended p (.error e))))
  split
  · refine .failed hs rfl (hq.trans ?_) (by simp [Event.mark?, hm]) (status?_cancel _)
    exact (Quiet.modify_data _ (.inr rfl) (Task.status_setError e)).trans <|
      (Quiet.cancel _).trans (Quiet.of_eq rfl)
  · refine .ended hs rfl (hq.trans ?_) (by simp [Event.mark?, hm])
    exact (Quiet.modify_data _ (.inl rfl) (Task.status_setResult none)).trans (Quiet.of_eq rfl)

private theorem act_shape {b : Behaviour F V E σ} {m m₀ : Machine F V E b.Q σ} {p : Path}
    {c : Control V b.Q} {rest : List (Frame V b.Q)} (k : Answer V → b.Q) (a : Act F V E)
    (hs : m₀.stack = .body p c :: rest) (ht : m.tree = m₀.tree) (hm : m.marks = m₀.marks)
    (hp : (m₀.tree.get? p).isSome) : Shape m₀ (act b m p k rest a) := by
  cases a with
  | tau => exact .acted hs rfl (.of_eq ht) hm
  | addSubtask c =>
    refine .acted hs rfl ?_ (by simp [act, hm])
    exact (Quiet.of_eq ht).trans ((Quiet.addSubtask m (ht ▸ hp) c).trans (Quiet.of_eq rfl))
  | call i args =>
    dsimp only [act, enterOr]
    cases he : enter b { m with stack := .body p (.waiting k) :: rest } (i :: p) args with
    | none => exact .acted hs rfl (.of_eq ht) hm
    | some m' =>
      obtain ⟨hst, t, ht', hf⟩ := enter_some he
      rw [Option.getD_some]
      exact .called hs hf (hst.of_eq ht hm)
  | setSize n =>
    have hq := Quiet.modify_data m (p := p) (.inl rfl) (Task.status_setSize n)
    exact .acted hs rfl ((Quiet.of_eq ht).trans (hq.trans (Quiet.of_eq rfl))) hm
  | setProgress completed size message =>
    dsimp only [act]
    split
    · exact .acted hs rfl (.of_eq ht) hm
    have hq := (Quiet.of_eq ht).trans <|
      Quiet.modify_data m (p := p) (.inl rfl) (Task.status_setCompleted completed size)
    split
    · exact .filled hs rfl (hq.trans (Quiet.of_eq rfl)) hm
    · exact .acted hs rfl (hq.trans (Quiet.of_eq rfl)) (by simp [hm])
  | finish =>
    refine .acted hs rfl ?_ (by simp [act, hm])
    exact (Quiet.of_eq ht).trans ((Quiet.finish m p).trans (Quiet.of_eq rfl))
  | ret v => exact functionReturned_shape v hs ht hm
  | raise e => exact functionRaised_shape e hs ht hm

private theorem loop_shape {b : Behaviour F V E σ} {m : Machine F V E b.Q σ} {p : Path} {i : Nat}
    {caller : Caller} {rest : List (Frame V b.Q)} (hs : m.stack = .subtasks p i caller :: rest) :
    Shape m (m.loop b p i caller rest) := by
  unfold loop
  split
  · next hi =>
    dsimp only [enterOr]
    cases he : enter b { m with stack := .subtasks p (i + 1) caller :: rest } (i :: p) [] with
    | none =>
      have hg := enter_none (m := { m with stack := .subtasks p (i + 1) caller :: rest }) hi he
      exact .skipped hs rfl hi hg rfl rfl
    | some m' =>
      obtain ⟨hst, t, ht', hf⟩ := enter_some he
      rw [Option.getD_some]
      exact .looped hs hf (hst.of_eq rfl rfl)
  · next hi =>
    have hq : Quiet p m (m.finish p) := Quiet.finish m p
    cases caller with
    | call =>
      exact .returned hs rfl (Nat.le_of_not_lt hi) (hq.trans (Quiet.of_eq rfl))
        (arity_finish m p) (by simp [Event.mark?])
    | setProgress => exact .progressed hs rfl (hq.trans (Quiet.of_eq rfl)) (by simp)

theorem step_shape {b : Behaviour F V E σ} {m m' : Machine F V E b.Q σ}
    (h : m.step b = some m')
    (hv : ∀ {p c rest}, m.stack = .body p c :: rest → (m.tree.get? p).isSome) : Shape m m' := by
  unfold step at h
  split at h
  · cases h
  · next rest hs =>
    cases h
    unfold enterOr
    cases he : enter b { m with stack := rest } [] [] with
    | none => exact .refused hs rfl rfl rfl
    | some m' =>
      obtain ⟨hst, t, ht', hf⟩ := enter_some he
      rw [Option.getD_some]
      refine .ran hs hf (hst.of_eq rfl rfl) fun h => ?_
      have htl : t.associatedFunction = .tasklist := by simpa [ht'] using h
      rw [htl]; rfl
  · next hs => cases h; exact functionReturned_shape _ hs rfl rfl
  · next hs => cases h; exact act_shape _ _ hs rfl rfl (hv hs)
  · cases h
  · next hs => cases h; exact loop_shape hs

end Machine

end Swinst.TaskList
