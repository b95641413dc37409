import Swinst.TaskList.Runs

/-! When the functions of a task list are started: each at most once, none after the root has left
`ACTIVE`, and those of the initial tasks in list order, each after the one before it has come
back. -/

namespace Swinst.TaskList

open TaskTree

variable {F V E Q σ : Type}

namespace Machine

/-! ## Nothing starts after the root has left `ACTIVE` -/

/-- The root has left the status `ACTIVE`, or can no longer reach it. -/
def RootLeft (m : Machine F V E Q σ) : Prop :=
  ∃ s, m.tree.status? [] = some s ∧ s ≠ .inactive ∧ s ≠ .active

/-- The function that runs is that of a required task, and raises next. -/
def RaisesRequired (b : Behaviour F V E σ) (m : Machine F V E b.Q σ) : Prop :=
  ∃ p q rest e, m.stack = .body p (.ready q) :: rest ∧ (b.next q m.world).2.1 = .raise e ∧
    (m.tree.get? p).map (·.isRequired) = some true

theorem RootLeft.of_cancel (m : Machine F V E Q σ) : RootLeft m.cancel := by
  refine ⟨.cancelled, ?_, by decide, by decide⟩
  simp [Machine.cancel, notify, emit, modify, status?_modify]

theorem RaisesRequired.rootLeft {b : Behaviour F V E σ} {m m' : Machine F V E b.Q σ}
    (h : RaisesRequired b m) (hs : m.step b = some m') : RootLeft m' := by
  obtain ⟨p, q, rest, e, hst, hact, hreq⟩ := h
  simp only [Machine.step, hst, hact, act, functionRaised, hreq, Option.getD_some, if_true,
    Option.some.injEq] at hs
  subst hs
  exact .of_cancel _

theorem RootLeft.of_quiet {m m' : Machine F V E Q σ} (h : RootLeft m) (hq : Quiet p m m') :
    RootLeft m' := by
  obtain ⟨s, hs, hi, ha⟩ := h
  obtain ⟨s', hs', -, hi', ha'⟩ := hq.status hs
  exact ⟨s', hs', hi ∘ hi', ha ∘ ha'⟩

theorem RootLeft.not_starts {m m' : Machine F V E Q σ} (h : RootLeft m) : ¬ Starts p m m' := by
  intro hst
  obtain ⟨s, hs, hi, ha⟩ := h
  cases p with
  | nil => exact hi (by simpa [hs] using hst.inactive)
  | cons i p => exact ha (by simpa [hs] using isActive_root hst.parent)

theorem RootLeft.step {b : Behaviour F V E σ} {m m' : Machine F V E b.Q σ} (h : RootLeft m)
    (hv : Sound m) (hs : Step b m m') : RootLeft m' ∧ m'.starts = m.starts := by
  cases hs with
  | run hs =>
    obtain ⟨_, _, -, ⟨hq, hm, -⟩ | ⟨p, c, st, hst, -⟩⟩ := (hv.shape hs).starts_or_quiet
    · exact ⟨h.of_quiet hq, hm⟩
    · exact (h.not_starts hst).elim
  | cancel => exact ⟨h.of_quiet (Quiet.cancel (p := []) m), by simp [starts]⟩

theorem RootLeft.run {b : Behaviour F V E σ} {m m' : Machine F V E b.Q σ} (h : RootLeft m)
    (hv : Sound m) (hr : Run b m m') : RootLeft m' ∧ m'.starts = m.starts := by
  induction hr with
  | refl => exact ⟨h, rfl⟩
  | tail hr hs ih =>
    obtain ⟨hl, heq⟩ := ih.1.step (hv.run hr) hs
    exact ⟨hl, heq.trans ih.2⟩

end Machine

/-! ## The initial tasks -/

/-- The start or the return of a task directly below the root. -/
def Mark.isInitial : Mark → Bool
  | .started [_] | .returned [_] => true
  | _ => false

@[simp] theorem Mark.isInitial_started (i : Nat) : (Mark.started [i]).isInitial = true := rfl

@[simp] theorem Mark.isInitial_returned (i : Nat) : (Mark.returned [i]).isInitial = true := rfl

theorem Mark.not_isInitial_of_inner {k : Mark} (h : k.Inner [j]) : k.isInitial = false := by
  cases k with
  | ended => rfl
  | started | returned =>
    obtain ⟨i, q, rfl, hq⟩ := h
    cases q with
    | nil => simp at hq
    | cons => rfl

/-- The marks of the first `k` initial tasks, called in list order, latest first. -/
def callsDone : Nat → List Mark
  | 0 => []
  | k + 1 => .returned [k] :: .started [k] :: callsDone k

theorem mem_callsDone {k j : Nat} : .started [j] ∈ callsDone k ↔ j < k := by
  induction k with
  | zero => simp [callsDone]
  | succ k ih =>
    simp only [callsDone, List.mem_cons, reduceCtorEq, Mark.started.injEq, List.cons.injEq,
      and_true, false_or, ih]
    omega

namespace Machine

def initialMarks (m : Machine F V E Q σ) : List Mark := m.marks.filter Mark.isInitial

theorem initialMarks_append {m m' : Machine F V E Q σ} (ks : List Mark)
    (h : m'.marks = ks ++ m.marks) (hk : ∀ k ∈ ks, k.isInitial = false) :
    m'.initialMarks = m.initialMarks := by
  have : ks.filter Mark.isInitial = [] := by simpa [List.filter_eq_nil_iff] using hk
  simp [initialMarks, h, this]

theorem mem_starts {m : Machine F V E Q σ} {p : Path} : p ∈ m.starts ↔ .started p ∈ m.marks := by
  simp only [starts, List.mem_filterMap]
  constructor
  · rintro ⟨k, hk, he⟩
    cases k <;> simp_all
  · exact fun h => ⟨_, h, rfl⟩

theorem mem_starts_initial {m : Machine F V E Q σ} {i : Nat} :
    [i] ∈ m.starts ↔ .started [i] ∈ m.initialMarks := by
  rw [mem_starts, initialMarks, List.mem_filter]
  simp [Mark.isInitial]

/-- How far the loop over the `n` initial tasks has come. -/
inductive Phase (n : Nat) (m : Machine F V E Q σ) : Prop where
  | fresh : m.stack = [.run] → m.initialMarks = [] →
    (m.tree.get? []).map (·.associatedFunction) = some .tasklist → Phase n m
  | entered : m.stack = [.body [] .tasklist] → m.initialMarks = [] → Phase n m
  /-- between two initial tasks; tasks are passed over only when the root is not active -/
  | loop {k i} : m.stack = [.subtasks [] i .call] → m.initialMarks = callsDone k → k ≤ n →
    k ≤ i → (k < i → m.tree.status? [] ≠ some .active) → Phase n m
  /-- inside the call of an initial task -/
  | child {j p} : Activation [.subtasks [] (j + 1) .call] [j] p m.stack →
    m.initialMarks = .started [j] :: callsDone j → j < n → Phase n m
  | ended {k} : m.stack = [] → m.initialMarks = callsDone k → k ≤ n → Phase n m

theorem Phase.init (name : String) (tasks : List (SpecTree F)) (threaded : Bool) (w : σ) :
    Phase tasks.length (init name tasks threaded w : Machine F V E Q σ) :=
  .fresh rfl rfl (by simp [Machine.init, taskList, SpecTree.init, RoseTree.get?, RoseTree.subtree?,
    RoseTree.map, taskListSpec, Task.init])

theorem Phase.cancel {m : Machine F V E Q σ} (h : Phase n m) : Phase n m.cancel := by
  have hm : m.cancel.initialMarks = m.initialMarks := by simp [initialMarks]
  have hs : m.cancel.stack = m.stack := rfl
  cases h with
  | fresh h₁ h₂ h₃ =>
    refine .fresh h₁ (hm.trans h₂) ?_
    change ((m.tree.modify [] Task.setCancelled).get? []).map _ = _
    rw [RoseTree.get?_modify_self, Option.map_map]
    exact h₃
  | entered h₁ h₂ => exact .entered h₁ (hm.trans h₂)
  | loop h₁ h₂ h₃ h₄ _ => exact .loop h₁ (hm.trans h₂) h₃ h₄ fun _ => status?_cancel m
  | child h₁ h₂ h₃ => exact .child h₁ (hm.trans h₂) h₃
  | ended h₁ h₂ h₃ => exact .ended h₁ (hm.trans h₂) h₃

/-- A loop at the root that has just passed a task over has an inactive root: while the root is
active, the next task is not started yet, so its call is not refused. -/
theorem not_active_of_skipped {m : Machine F V E Q σ} (hv : Sound m)
    (hm : m.initialMarks = callsDone k) (hki : k ≤ i) (hact : k < i → m.tree.status? [] ≠ some .active)
    (hi : i < m.tree.arity [])
    (hg : m.tree.status? [i] ≠ some .inactive ∨ isActive m.tree [] = false) :
    m.tree.status? [] ≠ some .active := by
  intro ha
  have hk : k = i := Nat.le_antisymm hki (Nat.le_of_not_lt fun h => hact h ha)
  rcases hg with hg | hg
  · have hns : [i] ∉ m.starts := by simp [mem_starts_initial, hm, mem_callsDone, hk]
    obtain ⟨t, ht⟩ := Option.isSome_iff_exists.mp (RoseTree.isSome_get?_cons.mpr hi)
    have hst : m.tree.status? [i] = some t.status := by simp [status?, ht]
    exact hg (hst.trans (congrArg some (hv.unstarted hst hns (by simp))))
  · simp [isActive, ha] at hg

private theorem Phase.of_loop {m m' : Machine F V E Q σ} (hv : Sound m) (hn : m.tree.arity [] = n)
    (h₁ : m.stack = [.subtasks [] i .call]) (h₂ : m.initialMarks = callsDone k) (h₃ : k ≤ n)
    (h₄ : k ≤ i) (h₅ : k < i → m.tree.status? [] ≠ some .active) (hs : Shape m m') :
    Phase n m' ∧ m'.tree.arity [] = n := by
  cases hs with
  | acted hs | called hs | filled hs | ended hs | failed hs | progressed hs | ran hs | refused hs =>
    rw [h₁] at hs; cases hs
  | looped hs hs' hst =>
    cases h₁.symm.trans hs
    have hki : k = i :=
      Nat.le_antisymm h₄ (Nat.le_of_not_lt fun h => h₅ h (isActive_root hst.parent))
    subst hki
    have hi : k < m.tree.arity [] :=
      RoseTree.isSome_get?_cons.mp (isSome_get?_of_status? hst.inactive)
    refine ⟨.child (p := [k]) (by rw [hs']; exact .body) ?_ (hn ▸ hi), (hst.arity _).trans hn⟩
    simp only [initialMarks] at h₂
    simp [initialMarks, List.filter_cons, hst.marks, h₂]
  | skipped hs hs' hi hg ht hm =>
    cases h₁.symm.trans hs
    have hr := not_active_of_skipped hv h₂ h₄ h₅ hi hg
    have hm' : m'.initialMarks = m.initialMarks := initialMarks_append [] hm (by simp)
    exact ⟨.loop hs' (hm'.trans h₂) h₃ (Nat.le_succ_of_le h₄) fun _ => ht ▸ hr, ht ▸ hn⟩
  | returned hs hs' hi hq ha hm =>
    cases h₁.symm.trans hs
    have hm' : m'.initialMarks = m.initialMarks :=
      initialMarks_append [_] hm (by simp [Mark.isInitial])
    exact ⟨.ended hs' (hm'.trans h₂) h₃, (ha _).trans hn⟩

private theorem Phase.of_child {m m' : Machine F V E Q σ}
    (hn : m.tree.arity [] = n) (h₁ : Activation [.subtasks [] (j + 1) .call] [j] p m.stack)
    (h₂ : m.initialMarks = .started [j] :: callsDone j) (h₃ : j < n) (hs : Shape m m') :
    Phase n m' ∧ m'.tree.arity [] = n := by
  have ha : m'.tree.arity [] = n := by
    obtain ⟨f, rest, hst, ⟨hq, -⟩ | ⟨p', -, -, hst', -⟩⟩ := hs.starts_or_quiet
    · have hp : [] ≠ f.path := by
        intro hf
        have hsuf := h₁.suffix
        rw [← h₁.path_top hst, ← hf] at hsuf
        simp at hsuf
      exact (hq.arity (status?_nil _) hp).trans hn
    · exact (hst'.arity _).trans hn
  refine ⟨?_, ha⟩
  rcases h₁.step hs with ⟨p', ks, hact, hm, hk⟩ | ⟨ans, ks, hst, hm, hk⟩
  · have hm' := initialMarks_append ks hm fun k h => Mark.not_isInitial_of_inner (hk k h)
    exact .child hact (hm'.trans h₂) h₃
  · have hks : ks.filter Mark.isInitial = [] := by
      simpa [List.filter_eq_nil_iff] using fun k h => Mark.not_isInitial_of_inner (hk k h)
    simp only [initialMarks] at h₂
    refine .loop (k := j + 1) hst ?_ h₃ (Nat.le_refl _) fun h => (Nat.lt_irrefl _ h).elim
    simp [initialMarks, List.filter_cons, hm, hks, h₂, callsDone]

theorem Phase.step {b : Behaviour F V E σ} {m m' : Machine F V E b.Q σ} (h : Phase n m)
    (hv : Sound m) (hn : m.tree.arity [] = n) (hs : Step b m m') :
    Phase n m' ∧ m'.tree.arity [] = n := by
  cases hs with
  | cancel => exact ⟨h.cancel, (arity_cancel m _).trans hn⟩
  | run hs =>
    cases h with
    | fresh h₁ h₂ h₃ =>
      cases hv.shape hs with
      | ran hs hs' hst hc =>
        cases h₁.symm.trans hs
        refine ⟨.entered (hc h₃ ▸ hs') ?_, (hst.arity _).trans hn⟩
        exact (initialMarks_append [_] hst.marks (by simp [Mark.isInitial])).trans h₂
      | refused hs hs' ht hm =>
        cases h₁.symm.trans hs
        have hm' := initialMarks_append [] hm (by simp)
        exact ⟨.ended (k := 0) hs' (hm'.trans h₂) (Nat.zero_le _), ht ▸ hn⟩
      | acted hs | called hs | filled hs | ended hs | failed hs | looped hs | skipped hs
      | returned hs | progressed hs => rw [h₁] at hs; cases hs
    | entered h₁ h₂ =>
      simp only [Machine.step, h₁, Option.some.injEq] at hs
      subst hs
      refine ⟨.loop (k := 0) rfl ?_ (by omega) (by omega) (by simp), ?_⟩
      · exact (initialMarks_append [.ended []] rfl (by simp [Mark.isInitial])).trans h₂
      · exact (RoseTree.arity_modify ..).trans hn
    | loop h₁ h₂ h₃ h₄ h₅ => exact Phase.of_loop hv hn h₁ h₂ h₃ h₄ h₅ (hv.shape hs)
    | child h₁ h₂ h₃ => exact Phase.of_child hn h₁ h₂ h₃ (hv.shape hs)
    | ended h₁ _ _ => simp [Machine.step, h₁] at hs

/-- The invariants of a run of a task list, together. -/
theorem run_invariants {b : Behaviour F V E σ} {name : String} {tasks : List (SpecTree F)}
    {threaded : Bool} {w : σ} {m : Machine F V E b.Q σ}
    (hr : Run b (init name tasks threaded w) m) :
    Sound m ∧ EndsFirst m ∧ Phase tasks.length m ∧ m.tree.arity [] = tasks.length := by
  induction hr with
  | refl =>
    refine ⟨Sound.init .., ⟨by simp [init], trivial⟩, Phase.init .., ?_⟩
    simp [init, taskList, SpecTree.init, RoseTree.arity, RoseTree.subtree?]
  | tail _ hs ih =>
    obtain ⟨hv, he, hp, hn⟩ := ih
    exact ⟨hv.step hs, he.step hv hs, hp.step hv hn hs⟩

/-! ## Reading the order off the marks -/

private def startIndex? : Mark → Option Nat
  | .started [i] => some i
  | _ => none

/-- The positions of the tasks directly below the root whose function has been started, first
start first. -/
def initialStarts (m : Machine F V E Q σ) : List Nat :=
  m.starts.reverse.filterMap fun
    | [i] => some i
    | _ => none

private theorem initialStarts_eq (m : Machine F V E Q σ) :
    m.initialStarts = (m.initialMarks.filterMap startIndex?).reverse := by
  rw [initialStarts, List.filterMap_reverse, starts, initialMarks]
  congr 1
  induction m.marks with
  | nil => rfl
  | cons k ks ih =>
    rcases k with (_ | ⟨i, _ | ⟨_, _⟩⟩) | _ | (_ | ⟨i, _ | ⟨_, _⟩⟩) <;>
      simpa [Mark.isInitial, startIndex?, List.filter_cons, List.filterMap_cons] using ih

private theorem startIndex_callsDone (k : Nat) :
    (callsDone k).filterMap startIndex? = (List.range k).reverse := by
  induction k with
  | zero => rfl
  | succ k ih => simp [callsDone, startIndex?, List.filterMap_cons, ih, List.range_succ]

private theorem returned_of_callsDone {i k : Nat} {later earlier : List Mark}
    (h : callsDone k = later ++ .started [i + 1] :: earlier) : .returned [i] ∈ earlier := by
  induction k generalizing later with
  | zero => simp [callsDone] at h
  | succ k ih =>
    match later with
    | [] => simp [callsDone] at h
    | [_] =>
      simp only [callsDone, List.cons_append, List.nil_append, List.cons.injEq, Mark.started.injEq,
        and_true] at h
      obtain ⟨-, rfl, rfl⟩ := h
      exact List.mem_cons_self
    | _ :: _ :: later =>
      simp only [callsDone, List.cons_append, List.cons.injEq] at h
      exact ih h.2.2

/-- The marks of the initial tasks are those of complete calls in list order, and perhaps the start
of the next one. -/
theorem Phase.initialMarks {m : Machine F V E Q σ} (h : Phase n m) :
    (∃ k ≤ n, m.initialMarks = callsDone k) ∨
      ∃ k < n, m.initialMarks = .started [k] :: callsDone k := by
  cases h with
  | fresh _ h | entered _ h => exact .inl ⟨0, Nat.zero_le _, h⟩
  | loop _ h hk => exact .inl ⟨_, hk, h⟩
  | child _ h hj => exact .inr ⟨_, hj, h⟩
  | ended _ h hk => exact .inl ⟨_, hk, h⟩

theorem Phase.initialStarts {m : Machine F V E Q σ} (h : Phase n m) :
    ∃ k ≤ n, m.initialStarts = List.range k := by
  rcases h.initialMarks with ⟨k, hk, hm⟩ | ⟨k, hk, hm⟩
  · exact ⟨k, hk, by simp [initialStarts_eq, hm, startIndex_callsDone]⟩
  · refine ⟨k + 1, hk, ?_⟩
    simp [initialStarts_eq, hm, startIndex_callsDone, startIndex?, List.range_succ]

theorem Phase.returned_mem {m : Machine F V E Q σ} (h : Phase n m) {later earlier : List Mark}
    (hm : m.marks = later ++ .started [i + 1] :: earlier) : .returned [i] ∈ earlier := by
  have hf : m.initialMarks =
      later.filter Mark.isInitial ++ .started [i + 1] :: earlier.filter Mark.isInitial := by
    simp [Machine.initialMarks, hm, List.filter_cons]
  suffices .returned [i] ∈ earlier.filter Mark.isInitial from (List.mem_filter.mp this).1
  rcases h.initialMarks with ⟨k, -, hk⟩ | ⟨k, -, hk⟩
  · exact returned_of_callsDone (hk.symm.trans hf)
  · rw [hk] at hf
    cases hl : later.filter Mark.isInitial with
    | nil =>
      simp only [hl, List.nil_append, List.cons.injEq, Mark.started.injEq, and_true] at hf
      obtain ⟨rfl, hf⟩ := hf
      exact hf ▸ List.mem_cons_self
    | cons k' l =>
      simp only [hl, List.cons_append, List.cons.injEq] at hf
      exact returned_of_callsDone hf.2

/-- In every run of a task list: a function is started at most once; the user's cancel and the
function of a required task that raises put the root out of `ACTIVE`, and once it has left `ACTIVE`
no function is started any more; the functions of the initial tasks are started in list order, each
after the function and the call before it have come to their end. -/
theorem start_discipline {b : Behaviour F V E σ} {name : String} {tasks : List (SpecTree F)}
    {threaded : Bool} {w : σ} {m : Machine F V E b.Q σ}
    (hr : Run b (init name tasks threaded w) m) :
    m.starts.Nodup ∧
    (m.cancel.RootLeft ∧ (RaisesRequired b m → ∀ m', m.step b = some m' → m'.RootLeft)) ∧
    (m.RootLeft → ∀ m', Run b m m' → m'.RootLeft ∧ m'.starts = m.starts) ∧
    (∃ k ≤ tasks.length, m.initialStarts = List.range k) ∧
    ∀ i args later earlier, m.trace = later ++ .started [i + 1] args :: earlier →
      (∃ outcome, .ended [i] outcome ∈ earlier) ∧ .returned [i] ∈ earlier := by
  obtain ⟨hv, he, hp, -⟩ := run_invariants hr
  refine ⟨hv.nodup, ⟨.of_cancel m, fun h _ hs => h.rootLeft hs⟩, fun hl m' hr' => hl.run hv hr',
    hp.initialStarts, ?_⟩
  intro i args later earlier ht
  have hm : m.marks = later.filterMap Event.mark? ++
      .started [i + 1] :: earlier.filterMap Event.mark? := by
    simp [marks, ht, Event.mark?]
  have hret := hp.returned_mem hm
  have hend : .ended [i] ∈ earlier.filterMap Event.mark? := by
    obtain ⟨l, e, hle⟩ := List.append_of_mem hret
    have ho := he.ordered
    rw [hm, hle, ← List.cons_append, ← List.append_assoc] at ho
    rw [hle]
    exact List.mem_append_right _ (List.mem_cons_of_mem _ ho.ended_mem)
  constructor
  · obtain ⟨e, hmem, heq⟩ := List.mem_filterMap.mp hend
    cases e <;> simp only [Event.mark?, Option.some.injEq, reduceCtorEq, Mark.ended.injEq] at heq
    exact ⟨_, heq ▸ hmem⟩
  · obtain ⟨e, hmem, heq⟩ := List.mem_filterMap.mp hret
    cases e <;> simp only [Event.mark?, Option.some.injEq, reduceCtorEq, Mark.returned.injEq] at heq
    exact heq ▸ hmem

/-- Two tasks, the first with a subtask that it calls itself. -/
private def twoTasks : List (SpecTree Nat) :=
  [.node { associatedFunction := .code 0, name := "first" }
    [.node { associatedFunction := .code 2, name := "sub" } []],
   .node { associatedFunction := .code 1, name := "second" } []]

/-- The first task ends by raising, after it has reported full progress. -/
private def twoTasksScript : Nat → List (Act Nat Unit Unit)
  | 0 => [.call 0 [], .setProgress (.int 1) none none, .raise ()]
  | _ => []

private abbrev twoBehaviour : Behaviour Nat Unit Unit Unit := .ofScript twoTasksScript

private def twoRun (k : Nat) : Machine Nat Unit Unit twoBehaviour.Q Unit :=
  (init "list" twoTasks true ()).steps twoBehaviour k

/-- The user cancels while the first task reports its progress, or lets its function go on until it
raises: the second is not started. -/
theorem start_discipline_two :
    ((twoRun 7).starts = [[0, 0], [0], []] ∧ (twoRun 7).initialStarts = [0] ∧
      (twoRun 7).starts.Nodup ∧
      ∀ m', Run twoBehaviour (twoRun 7).cancel m' → m'.starts = (twoRun 7).cancel.starts) ∧
    ∀ m', (twoRun 9).step twoBehaviour = some m' → m'.RootLeft := by
  have hr (k : Nat) : Run twoBehaviour (init "list" twoTasks true ()) (twoRun k) := run_steps _ k _
  have hl : (twoRun 7).cancel.RootLeft := (start_discipline (hr 7)).2.1.1
  have hraises : RaisesRequired twoBehaviour (twoRun 9) :=
    ⟨[0], [.raise ()], [.subtasks [] 1 .call], (), rfl, rfl, rfl⟩
  refine ⟨⟨by decide, by decide, (start_discipline (hr 7)).1, fun m' hr' => ?_⟩, ?_⟩
  · exact ((start_discipline ((hr 7).tail .cancel)).2.2.1 hl m' hr').2
  · exact (start_discipline (hr 9)).2.1.2 hraises

end Machine

end Swinst.TaskList
