import Swinst.TaskList.Runs

/-! The exact effect of one step on the tree, the stack and the record of the calls. `Shape` says
what a step does to the statuses; `Move` also says which action of the running function it is, and
what becomes of the other fields of the tasks. -/

namespace Swinst.TaskList

variable {F V E Q σ : Type}

/-- Does the event bound a call? -/
def Event.isCall : Event V E → Bool
  | .started .. | .ended .. | .returned _ => true
  | .attached _ | .notified .. => false

namespace TaskTree

theorem isActive_iff {t : TaskTree F V E} {p : Path} :
    isActive t p ↔ ∀ r, r <:+ p → t.status? r = some .active := by
  induction p with
  | nil => simp [isActive]
  | cons i p ih =>
    rw [isActive, Bool.and_eq_true, ih, decide_eq_true_eq]
    constructor
    · rintro ⟨hp, h⟩ r hr
      rcases List.suffix_cons_iff.mp hr with rfl | hr
      · exact hp
      · exact h r hr
    · exact fun h => ⟨h _ (List.suffix_refl _), fun r hr => h r (hr.trans (List.suffix_cons ..))⟩

theorem value_modify_nil (t : TaskTree F V E) (f : Task F V E → Task F V E) :
    (t.modify [] f).value = f t.value := by
  have h := RoseTree.get?_modify_self t [] f
  rwa [RoseTree.get?_nil, RoseTree.get?_nil, Option.map_some, Option.some.injEq] at h

theorem parentActive_iff {t : TaskTree F V E} {p : Path} :
    parentActive t p ↔ ∀ r, r <:+ p → r ≠ p → t.status? r = some .active := by
  cases p with
  | nil => simp [parentActive]
  | cons i p =>
    rw [parentActive, isActive_iff]
    constructor
    · exact fun h r hr hne => h r ((List.suffix_cons_iff.mp hr).resolve_left hne)
    · intro h r hr
      refine h r (hr.trans (List.suffix_cons ..)) ?_
      rintro rfl
      exact absurd hr.length_le (by simp)

theorem status?_addChild {t : TaskTree F V E} {p q : Path} (hp : (t.get? p).isSome) (c : SpecTree F)
    (h : status? (t.addChild p c.init) q = some s) : status? t q = some s ∨
      s = .inactive ∧ status? t q = none ∧ ∃ r, q = r ++ t.arity p :: p := by
  obtain ⟨a, hg, rfl⟩ := Option.map_eq_some_iff.mp h
  rcases RoseTree.get?_addChild_cases hp hg with hg | ⟨r, rfl, hr⟩
  · exact .inl (by simp [status?, hg])
  · refine .inr ⟨status?_init (V := V) (E := E) c r (by simp [status?, hr]), ?_, r, rfl⟩
    simp [status?, RoseTree.get?_fresh]

theorem status?_addChild_old {t : TaskTree F V E} {p q : Path} (c : SpecTree F)
    (h : status? t q = some s) : status? (t.addChild p c.init) q = some s := by
  obtain ⟨a, hg, rfl⟩ := Option.map_eq_some_iff.mp h
  simp [status?, RoseTree.get?_addChild_old hg]

end TaskTree

open TaskTree

namespace Machine

/-- The record of the calls, latest event first. -/
def log (m : Machine F V E Q σ) : List (Event V E) := m.trace.filter Event.isCall

theorem mem_log {m : Machine F V E Q σ} {e : Event V E} (he : e.isCall = true) :
    e ∈ m.log ↔ e ∈ m.trace := by simp [log, he]

@[simp] theorem log_emit (m : Machine F V E Q σ) (e : Event V E) :
    (m.emit e).log = if e.isCall then e :: m.log else m.log := List.filter_cons

@[simp] theorem log_notify (m : Machine F V E Q σ) (p : Path) (msg : String) :
    (m.notify p msg).log = m.log := by simp [notify, Event.isCall]

@[simp] theorem log_modify (m : Machine F V E Q σ) (p : Path) (f : Task F V E → Task F V E) :
    (m.modify p f).log = m.log := rfl

@[simp] theorem log_mk (m : Machine F V E Q σ) (t : TaskTree F V E) (b b' : Bool)
    (s : List (Frame V Q)) (w : σ) :
    log { m with tree := t, threaded := b, stopped := b', stack := s, world := w } = m.log := rfl

@[simp] theorem log_finish (m : Machine F V E Q σ) (p : Path) : (m.finish p).log = m.log := by
  unfold finish; split <;> simp

@[simp] theorem log_cancel (m : Machine F V E Q σ) : m.cancel.log = m.log := by simp [cancel]

@[simp] theorem log_addSubtask (m : Machine F V E Q σ) (p : Path) (c : SpecTree F) :
    (m.addSubtask p c).log = m.log := by simp [addSubtask, Event.isCall]

theorem tree_finish (m : Machine F V E Q σ) (p : Path) :
    (m.finish p).tree =
      if m.tree.status? p = some .completed then m.tree else m.tree.modify p .complete := by
  unfold finish
  split <;> rfl

theorem status?_finish {m : Machine F V E Q σ} {p : Path} (h : (m.tree.get? p).isSome) (q : Path) :
    (m.finish p).tree.status? q = if q = p then some .completed else m.tree.status? q := by
  rw [tree_finish]
  split
  · next hc => split <;> simp_all
  · obtain ⟨t, ht⟩ := Option.isSome_iff_exists.mp h
    rw [status?_modify]
    split
    · next hq => simp [hq, ht]
    · rfl

theorem status?_fail {t : TaskTree F V E} {p : Path} (hp : (t.get? p).isSome) (e : E) (q : Path) :
    status? (t.modify p (.fail e)) q = if q = p then some .failed else t.status? q := by
  obtain ⟨a, ha⟩ := Option.isSome_iff_exists.mp hp
  rw [status?_modify]
  split
  · next hq => rw [hq, ha]; rfl
  · rfl

theorem status?_abort {t : TaskTree F V E} {p : Path} (hp : (t.get? p).isSome) (e : E) (q : Path) :
    status? (((t.modify p (.fail e)).modify [] (.setError e)).modify [] .setCancelled) q =
      if q = [] then some .cancelled else if q = p then some .failed else t.status? q := by
  rw [status?_modify]
  split
  · next hq => rw [hq]; rfl
  · rw [status?_modify_of_status (Task.status_setError e), status?_fail hp]

/-! ## What a step does -/

/-- `is_required` of the task at `p` -/
def required (m : Machine F V E Q σ) (p : Path) : Bool :=
  ((m.tree.get? p).map (·.isRequired)).getD true

/-- The call of the subtask at `i :: p` comes back at once. -/
def Refuses (m : Machine F V E Q σ) (p : Path) (i : Nat) : Prop :=
  i < m.tree.arity p → m.tree.status? (i :: p) ≠ some .inactive ∨ isActive m.tree p = false

/-- The function of the task at `p` is started, on top of `st`. -/
structure Enters (b : Behaviour F V E σ) (m m' : Machine F V E b.Q σ) (p : Path) (args : List V)
    (st : List (Frame V b.Q)) : Prop where
  task : ∃ t, m.tree.get? p = some t ∧ t.status = .inactive ∧
    m'.stack = .body p (b.enter t.associatedFunction args) :: st
  parent : parentActive m.tree p
  tree : m'.tree = m.tree.modify p .activate
  log : m'.log = .started p args :: m.log

/-- What an action does to the tree when the function goes on at once, and its answer. -/
inductive Effect (m : Machine F V E Q σ) (p : Path) : Act F V E → TaskTree F V E → Answer V → Prop
  | tau : Effect m p .tau m.tree .unit
  | addSubtask (c) : Effect m p (.addSubtask c) (m.tree.addChild p c.init) (.index (m.tree.arity p))
  | refused {i args} : Refuses m p i → Effect m p (.call i args) m.tree (.result none)
  | setSize (n) : Effect m p (.setSize n) (m.tree.modify p (.setSize n)) .unit
  | cancelled {completed size message} : m.isCancelled p →
    Effect m p (.setProgress completed size message) m.tree (.stop true)
  | progress {completed size message} : (m.modify p (.setCompleted completed size)).isFull p = false →
    Effect m p (.setProgress completed size message)
      (m.tree.modify p (.setCompleted completed size)) (.stop false)
  | finish : Effect m p .finish (m.finish p).tree .unit

/-- What the action of a function that goes on does to the statuses. -/
theorem Effect.statuses {m : Machine F V E Q σ} {a : Act F V E} {t : TaskTree F V E} {ans : Answer V}
    (h : Effect m p a t ans) (hp : (m.tree.get? p).isSome) :
    (∀ q, t.status? q = m.tree.status? q) ∨
      (∃ c, a = .addSubtask c ∧ t = m.tree.addChild p c.init) ∨
      a = .finish ∧ ∀ q, t.status? q = if q = p then some .completed else m.tree.status? q := by
  cases h with
  | tau | refused | cancelled => exact .inl fun _ => rfl
  | setSize n => exact .inl (status?_modify_of_status (Task.status_setSize n) p)
  | progress => exact .inl (status?_modify_of_status (Task.status_setCompleted _ _) p)
  | addSubtask c => exact .inr (.inl ⟨c, rfl, rfl⟩)
  | finish => exact .inr (.inr ⟨rfl, status?_finish hp⟩)

/-- Everything a step of the thread can do. -/
inductive Move (b : Behaviour F V E σ) (m m' : Machine F V E b.Q σ) : Prop where
  | acted {p q w a k t ans rest} : m.stack = .body p (.ready q) :: rest →
    b.next q m.world = (w, a, k) → Effect m p a t ans → m'.tree = t →
    m'.stack = .body p (.ready (k ans)) :: rest → m'.log = m.log → Move b m m'
  /-- the function calls one of its subtasks -/
  | called {p q w i args k rest} : m.stack = .body p (.ready q) :: rest →
    b.next q m.world = (w, .call i args, k) → i < m.tree.arity p →
    Enters b m m' (i :: p) args (.body p (.waiting k) :: rest) → Move b m m'
  /-- it reports full progress -/
  | filled {p q w completed size message k rest} : m.stack = .body p (.ready q) :: rest →
    b.next q m.world = (w, .setProgress completed size message, k) →
    (m.modify p (.setCompleted completed size)).isFull p →
    m'.tree = m.tree.modify p (.setCompleted completed size) →
    m'.stack = .subtasks p 0 .setProgress :: .body p (.waiting k) :: rest → m'.log = m.log →
    Move b m m'
  /-- it returns -/
  | ended {p c v rest} : m.stack = .body p c :: rest →
    (c = .tasklist ∨ ∃ q w k, c = .ready q ∧ b.next q m.world = (w, .ret v, k)) →
    m'.tree = m.tree.modify p (.setResult v) → m'.stack = .subtasks p 0 .call :: rest →
    m'.log = .ended p (.ok v) :: m.log → Move b m m'
  /-- it raises, and the task is not required -/
  | failed {p q w e k rest} : m.stack = .body p (.ready q) :: rest →
    b.next q m.world = (w, .raise e, k) → m.required p = false →
    m'.tree = (m.tree.modify p (.fail e)).modify p (.setResult none) →
    m'.stack = .subtasks p 0 .call :: rest → m'.log = .ended p (.error e) :: m.log → Move b m m'
  /-- it raises, and the task is required -/
  | aborted {p q w e k rest} : m.stack = .body p (.ready q) :: rest →
    b.next q m.world = (w, .raise e, k) → m.required p →
    m'.tree = ((m.tree.modify p (.fail e)).modify [] (.setError e)).modify [] .setCancelled →
    m'.stack = deliver (.result none) rest →
    m'.log = .returned p :: .ended p (.error e) :: m.log → Move b m m'
  /-- the loop calls the next subtask -/
  | looped {p i caller rest} : m.stack = .subtasks p i caller :: rest → i < m.tree.arity p →
    Enters b m m' (i :: p) [] (.subtasks p (i + 1) caller :: rest) → Move b m m'
  /-- the loop passes over the next subtask -/
  | skipped {p i caller rest} : m.stack = .subtasks p i caller :: rest → i < m.tree.arity p →
    Refuses m p i → m'.tree = m.tree → m'.stack = .subtasks p (i + 1) caller :: rest →
    m'.log = m.log → Move b m m'
  /-- the loop of a call is over -/
  | returned {p i ans rest} : m.stack = .subtasks p i .call :: rest → m.tree.arity p ≤ i →
    m'.tree = (m.finish p).tree → m'.stack = deliver (.result ans) rest →
    m'.log = .returned p :: m.log → Move b m m'
  /-- the loop inside `set_progress` is over -/
  | progressed {p i rest} : m.stack = .subtasks p i .setProgress :: rest → m.tree.arity p ≤ i →
    m'.tree = (m.finish p).tree → m'.stack = deliver (.stop false) rest → m'.log = m.log →
    Move b m m'
  /-- the root is called -/
  | ran {rest} : m.stack = .run :: rest → Enters b m m' [] [] rest → Move b m m'
  /-- the call of the root is refused -/
  | refused {rest} : m.stack = .run :: rest → m.tree.status? [] ≠ some .inactive →
    m'.tree = m.tree → m'.stack = rest → m'.log = m.log → Move b m m'

theorem enters_of_enter {b : Behaviour F V E σ} {m m' : Machine F V E b.Q σ} {p : Path}
    {args : List V} (h : m.enter b p args = some m') : Enters b m m' p args m.stack := by
  obtain ⟨hst, t, ht, hs⟩ := enter_some h
  have hi : t.status = .inactive := by simpa [status?, ht] using hst.inactive
  refine ⟨⟨t, ht, hi, hs⟩, hst.parent, ?_, ?_⟩
  · simp only [enter, ht, hi] at h
    split at h
    · cases h
    · cases h; rfl
  · simp only [enter, ht, hi] at h
    split at h
    · cases h
    · cases h; simp [Event.isCall]

theorem Enters.of_eq {b : Behaviour F V E σ} {m₀ m m' : Machine F V E b.Q σ} {args : List V}
    {st : List (Frame V b.Q)} (h : Enters b m m' p args st) (ht : m.tree = m₀.tree)
    (hl : m.log = m₀.log) : Enters b m₀ m' p args st :=
  ⟨ht ▸ h.task, ht ▸ h.parent, ht ▸ h.tree, hl ▸ h.log⟩

theorem isCancelled_world (m : Machine F V E Q σ) (w : σ) (p : Path) :
    isCancelled { m with world := w } p = m.isCancelled p := by
  induction p with
  | nil => rfl
  | cons i p ih => rw [isCancelled, isCancelled, ih]

theorem Enters.inactive {b : Behaviour F V E σ} {m m' : Machine F V E b.Q σ} {args : List V}
    {st : List (Frame V b.Q)} (h : Enters b m m' p args st) : m.tree.status? p = some .inactive := by
  obtain ⟨t, ht, hi, -⟩ := h.task
  simp [status?, ht, hi]

theorem Enters.status? {b : Behaviour F V E σ} {m m' : Machine F V E b.Q σ} {args : List V}
    {st : List (Frame V b.Q)} (h : Enters b m m' p args st) (q : Path) :
    m'.tree.status? q = if q = p then some .active else m.tree.status? q := by
  obtain ⟨t, ht, -⟩ := h.task
  rw [h.tree, status?_modify]
  split
  · next hq => rw [hq, ht]; rfl
  · rfl

private theorem act_move {b : Behaviour F V E σ} {m : Machine F V E b.Q σ} {p : Path} {q : b.Q}
    {rest : List (Frame V b.Q)} {w : σ} {a : Act F V E} {k : Answer V → b.Q}
    (hs : m.stack = .body p (.ready q) :: rest) (hn : b.next q m.world = (w, a, k)) :
    Move b m (act b { m with world := w } p k rest a) := by
  cases a with
  | tau => exact .acted hs hn .tau rfl rfl rfl
  | addSubtask c => exact .acted hs hn (.addSubtask c) rfl rfl (log_addSubtask _ p c)
  | call i args =>
    dsimp only [act, enterOr]
    cases he : enter b { m with world := w, stack := .body p (.waiting k) :: rest } (i :: p) args with
    | none =>
      refine .acted hs hn (.refused fun hi => ?_) rfl rfl rfl
      exact enter_none (m := { m with world := w, stack := .body p (.waiting k) :: rest }) hi he
    | some m' =>
      have h := enters_of_enter he
      obtain ⟨t, ht, -⟩ := h.task
      exact .called hs hn (RoseTree.isSome_get?_cons.mp (Option.isSome_of_eq_some ht)) (h.of_eq rfl rfl)
  | setSize n => exact .acted hs hn (.setSize n) rfl rfl rfl
  | setProgress completed size message =>
    dsimp only [act]
    split
    · next hc => exact .acted hs hn (.cancelled (isCancelled_world m w p ▸ hc)) rfl rfl rfl
    split
    · next hf => exact .filled hs hn hf rfl rfl rfl
    · next hf =>
      exact .acted hs hn (.progress (Bool.eq_false_iff.mpr hf)) rfl rfl (log_notify ..)
  | finish =>
    refine .acted hs hn .finish ?_ rfl (log_finish ..)
    simp only [act, Machine.finish]
    split <;> rfl
  | ret v => exact .ended hs (.inr ⟨q, w, k, rfl, hn⟩) rfl rfl (log_emit ..)
  | raise e =>
    dsimp only [act, functionRaised]
    split
    · next hr => exact .aborted hs hn hr rfl rfl (by simp [Event.isCall])
    · next hr =>
      exact .failed hs hn (Bool.eq_false_iff.mpr hr) rfl rfl (by simp [Event.isCall])

private theorem loop_move {b : Behaviour F V E σ} {m : Machine F V E b.Q σ} {p : Path} {i : Nat}
    {caller : Caller} {rest : List (Frame V b.Q)} (hs : m.stack = .subtasks p i caller :: rest) :
    Move b m (m.loop b p i caller rest) := by
  unfold loop
  split
  · next hi =>
    dsimp only [enterOr]
    cases he : enter b { m with stack := .subtasks p (i + 1) caller :: rest } (i :: p) [] with
    | none =>
      refine .skipped hs hi (fun hi => ?_) rfl rfl rfl
      exact enter_none (m := { m with stack := .subtasks p (i + 1) caller :: rest }) hi he
    | some m' => exact .looped hs hi ((enters_of_enter he).of_eq rfl rfl)
  · next hi =>
    have hi : m.tree.arity p ≤ i := Nat.le_of_not_lt hi
    cases caller with
    | call => exact .returned hs hi rfl rfl (by simp [Event.isCall])
    | setProgress => exact .progressed hs hi rfl rfl (by simp)

theorem step_move {b : Behaviour F V E σ} {m m' : Machine F V E b.Q σ} (h : m.step b = some m') :
    Move b m m' := by
  unfold step at h
  split at h
  · cases h
  · next rest hs =>
    cases h
    unfold enterOr
    cases he : enter b { m with stack := rest } [] [] with
    | none =>
      refine .refused hs (fun hi => ?_) rfl rfl rfl
      obtain ⟨t, ht, hi⟩ := Option.map_eq_some_iff.mp hi
      simp [enter, show m.tree.get? [] = some t from ht, hi, parentActive] at he
    | some m' => exact .ran hs ((enters_of_enter he).of_eq rfl rfl)
  · next hs => cases h; exact .ended hs (.inl rfl) rfl rfl (log_emit ..)
  · next hs => cases h; exact act_move hs rfl
  · cases h
  · next hs => cases h; exact loop_move hs

/-! ## Nested calls -/

theorem Activation.suffix_of_mem {base : List (Frame V Q)} (h : Activation base r p st) :
    ∀ f ∈ st, f ∈ base ∨ f.path <:+ p := by
  induction h with
  | body | loop =>
    intro f hf
    rcases List.mem_cons.mp hf with rfl | hf
    · exact .inr List.suffix_rfl
    · exact .inl hf
  | progress _ ih =>
    intro f hf
    rcases List.mem_cons.mp hf with rfl | hf
    · exact .inr List.suffix_rfl
    · exact ih f hf
  | childBody _ ih | childLoop _ ih =>
    intro f hf
    rcases List.mem_cons.mp hf with rfl | hf
    · exact .inr List.suffix_rfl
    · exact (ih f hf).imp id fun h => h.trans (List.suffix_cons ..)

/-- The stack of a task list: its caller, or nested calls below the call of the root, or nothing. -/
inductive Nest : List (Frame V Q) → Prop
  | fresh : Nest [.run]
  | call {p st} : Activation [] [] p st → Nest st
  | done : Nest []

theorem Nest.init (name : String) (tasks : List (SpecTree F)) (threaded : Bool) (w : σ) :
    Nest (init name tasks threaded w : Machine F V E Q σ).stack := .fresh

theorem Nest.of_shape {m m' : Machine F V E Q σ} {st : List (Frame V Q)} (h : Nest st)
    (hst : m.stack = st) (hs : Shape m m') : Nest m'.stack := by
  cases h with
  | call h =>
    rcases (hst ▸ h : Activation [] [] _ m.stack).step hs with ⟨p', ks, h', -⟩ | ⟨ans, ks, h', -⟩
    · exact .call h'
    · rw [h']
      exact .done
  | fresh =>
    cases hs with
    | ran hs hs' =>
      obtain rfl : [] = _ := (List.cons.inj (hst.symm.trans hs)).2
      rw [hs']
      exact .call .body
    | refused hs hs' =>
      obtain rfl : [] = _ := (List.cons.inj (hst.symm.trans hs)).2
      rw [hs']
      exact .done
    | acted hs | called hs | filled hs | ended hs | failed hs | looped hs | skipped hs | returned hs
      | progressed hs => exact absurd (hst.symm.trans hs) (by simp)
  | done =>
    obtain ⟨_, _, hs, -⟩ := hs.starts_or_quiet
    exact absurd (hst.symm.trans hs) (by simp)

theorem Nest.step {b : Behaviour F V E σ} {m m' : Machine F V E b.Q σ} (h : Nest m.stack)
    (hv : Sound m) (hs : Step b m m') : Nest m'.stack := by
  cases hs with
  | run hs => exact h.of_shape rfl (hv.shape hs)
  | cancel => exact h

theorem Nest.run {b : Behaviour F V E σ} {name : String} {tasks : List (SpecTree F)}
    {threaded : Bool} {w : σ} {m : Machine F V E b.Q σ}
    (hr : Run b (Machine.init name tasks threaded w) m) : Nest m.stack := by
  induction hr with
  | refl => exact .init name tasks threaded w
  | tail hr hs ih => exact ih.step ((Sound.init ..).run hr) hs

/-- The frames below a function are those of the tasks above its task. -/
theorem Nest.below_body (h : Nest (.body p c :: rest : List (Frame V Q))) :
    ∀ f ∈ rest, ∃ i r, p = i :: r ∧ f.path <:+ r := by
  intro f hf
  cases h with
  | call h =>
    cases h with
    | body => cases hf
    | childBody h => exact ⟨_, _, rfl, (h.suffix_of_mem f hf).resolve_left (by simp)⟩

theorem Nest.below_loop (h : Nest (.subtasks p i .call :: rest : List (Frame V Q))) :
    ∀ f ∈ rest, ∃ i r, p = i :: r ∧ f.path <:+ r := by
  intro f hf
  cases h with
  | call h =>
    cases h with
    | loop => cases hf
    | childLoop h => exact ⟨_, _, rfl, (h.suffix_of_mem f hf).resolve_left (by simp)⟩

/-- The loop inside `set_progress` runs on top of the function that reported. -/
theorem Nest.below_progress (h : Nest (.subtasks p i .setProgress :: rest : List (Frame V Q))) :
    ∃ c rest', rest = .body p c :: rest' ∧ Nest rest := by
  cases h with
  | call h =>
    cases h with
    | progress h => exact ⟨_, _, rfl, .call h⟩

/-- The caller of the root runs alone. -/
theorem Nest.below_run (h : Nest (.run :: rest : List (Frame V Q))) : rest = [] := by
  cases h with
  | fresh => rfl
  | call h => cases h

/-- The frames below are those of the same task and of the tasks above it. -/
theorem Nest.suffix_of_mem {f g : Frame V Q} (h : Nest (g :: rest)) (hf : f ∈ rest) : f.path <:+ g.path := by
  cases h with
  | fresh => cases hf
  | call h =>
    rw [h.path_top rfl]
    exact (h.suffix_of_mem f (List.mem_cons_of_mem _ hf)).resolve_left (by simp)

theorem not_suffix_of_below {p q : Path} (h : ∃ i r, p = i :: r ∧ q <:+ r) : ¬ p <:+ q := by
  obtain ⟨i, r, rfl, hr⟩ := h
  intro hs
  exact absurd (hs.trans hr).length_le (Nat.not_succ_le_self _)

/-- The tasks whose function is running. -/
def bodies (st : List (Frame V Q)) : List Path :=
  st.filterMap fun
    | .body p _ => some p
    | _ => none

section

variable (p : Path) (i : Nat) (c : Control V Q) (caller : Caller) (ans : Answer V)
  (st : List (Frame V Q))

@[simp] theorem bodies_body : bodies (.body p c :: st) = p :: bodies st := rfl

@[simp] theorem bodies_subtasks : bodies (.subtasks p i caller :: st) = bodies st := rfl

@[simp] theorem bodies_deliver : bodies (deliver ans st) = bodies st := by
  unfold deliver
  split <;> rfl

theorem of_mem_bodies {p : Path} {st : List (Frame V Q)} (h : p ∈ bodies st) :
    ∃ c, .body p c ∈ st := by
  obtain ⟨f, hf, he⟩ := List.mem_filterMap.mp h
  cases f with
  | body q c => cases he; exact ⟨c, hf⟩
  | run | subtasks => cases he

end

theorem Activation.run_not_mem {p : Path} {st : List (Frame V Q)} (h : Activation [] r p st) :
    .run ∉ st := by
  induction h with
  | body | loop => simp
  | progress _ ih | childBody _ ih | childLoop _ ih => simpa using ih

theorem deliver_ne_run (h : Nest (f :: rest : List (Frame V Q))) (ans : Answer V) :
    deliver ans rest ≠ [.run] := by
  intro hd
  have hrest : .run ∈ rest := by
    unfold deliver at hd
    split at hd
    · cases hd
    · rw [hd]
      exact List.mem_singleton_self _
  cases h with
  | fresh => cases hrest
  | call h => exact h.run_not_mem (List.mem_cons_of_mem _ hrest)

/-- The function of a task runs once. -/
theorem Nest.not_mem_bodies (h : Nest (.body p c :: rest : List (Frame V Q))) : p ∉ bodies rest := by
  intro hp
  obtain ⟨c', hc⟩ := of_mem_bodies hp
  exact not_suffix_of_below (h.below_body _ hc) List.suffix_rfl

/-- A loop runs in a task of the tree. -/
theorem Sound.isSome_loop {m : Machine F V E Q σ} (h : Sound m)
    (hs : m.stack = .subtasks p i caller :: rest) : (m.tree.get? p).isSome := by
  have hp : p ∈ m.starts := by
    simpa [Frame.path] using h.frames (.subtasks p i caller) (hs ▸ List.mem_cons_self)
  obtain ⟨s, hst, -⟩ := h.started p hp
  exact isSome_get?_of_status? hst

end Machine

end Swinst.TaskList
