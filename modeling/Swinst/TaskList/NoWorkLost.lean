import Swinst.TaskList.Moves
import Mathlib.Data.List.Nodup

/-! Is every task that is put into the tree executed? A subtask that comes too late, after its
parent is completed, is refused by its own guard without a word. -/

namespace Swinst.TaskList

open TaskTree

variable {F V E Q σ : Type}

namespace Machine

/-! ## What the stack still has to do -/

/-- The tasks whose call is not over. -/
def owed (st : List (Frame V Q)) : List Path :=
  st.filterMap fun
    | .body p _ | .subtasks p _ .call => some p
    | _ => none

/-- The loops and how far they have come. -/
def loops (st : List (Frame V Q)) : List (Path × Nat) :=
  st.filterMap fun
    | .subtasks p i _ => some (p, i)
    | _ => none

section

variable (p : Path) (i : Nat) (c : Control V Q) (caller : Caller) (ans : Answer V)
  (st : List (Frame V Q))

@[simp] theorem owed_body : owed (.body p c :: st) = p :: owed st := rfl

@[simp] theorem owed_call : owed (.subtasks p i .call :: st) = p :: owed st := rfl

@[simp] theorem owed_setProgress : owed (.subtasks p i .setProgress :: st) = owed st := rfl

theorem owed_next (j : Nat) : owed (.subtasks p i caller :: st) = owed (.subtasks p j caller :: st) := by
  cases caller <;> rfl

@[simp] theorem owed_deliver : owed (deliver ans st) = owed st := by
  unfold deliver
  split <;> rfl

@[simp] theorem loops_body : loops (.body p c :: st) = loops st := rfl

@[simp] theorem loops_subtasks : loops (.subtasks p i caller :: st) = (p, i) :: loops st := rfl

@[simp] theorem loops_deliver : loops (deliver ans st) = loops st := by
  unfold deliver
  split <;> rfl

theorem of_mem_loops {st : List (Frame V Q)} (h : (p, i) ∈ loops st) :
    ∃ caller, .subtasks p i caller ∈ st := by
  obtain ⟨f, hf, he⟩ := List.mem_filterMap.mp h
  cases f with
  | subtasks q j caller => cases he; exact ⟨caller, hf⟩
  | run | body => cases he

end

/-! ## Runs without failure and cancellation -/

/-- What the running function is about to do. -/
def nextAct (b : Behaviour F V E σ) (m : Machine F V E b.Q σ) : Option (Path × Act F V E) :=
  match m.stack with
  | .body p (.ready q) :: _ => some (p, (b.next q m.world).2.1)
  | _ => none

theorem nextAct_eq {b : Behaviour F V E σ} {m : Machine F V E b.Q σ} {p : Path} {q : b.Q}
    {rest : List (Frame V b.Q)} {w : σ} {a : Act F V E} {k : Answer V → b.Q}
    (hs : m.stack = .body p (.ready q) :: rest) (hn : b.next q m.world = (w, a, k)) :
    nextAct b m = some (p, a) := by simp only [nextAct, hs, hn]

theorem of_nextAct {b : Behaviour F V E σ} {m : Machine F V E b.Q σ} {p : Path} {a : Act F V E}
    (h : nextAct b m = some (p, a)) :
    ∃ q w k rest, m.stack = .body p (.ready q) :: rest ∧ b.next q m.world = (w, a, k) := by
  unfold nextAct at h
  split at h
  · next hst =>
    cases h
    exact ⟨_, _, _, _, hst, rfl⟩
  · cases h

/-- Is the function about to raise? -/
def raises (b : Behaviour F V E σ) (m : Machine F V E b.Q σ) : Bool :=
  match nextAct b m with
  | some (_, .raise _) => true
  | _ => false

/-- The call of a subtask by the function above it, with its arguments. -/
def explicitCalls (b : Behaviour F V E σ) (m : Machine F V E b.Q σ) : List (Path × List V) :=
  match nextAct b m with
  | some (p, .call i args) => if i < m.tree.arity p then [(i :: p, args)] else []
  | _ => []

/-- Beyond its arity a task has no subtasks. -/
theorem not_inactive_of_lt {m : Machine F V E Q σ}
    (h : ∀ j < m.tree.arity p, m.tree.status? (j :: p) ≠ some .inactive) (j : Nat) :
    m.tree.status? (j :: p) ≠ some .inactive := by
  by_cases hj : j < m.tree.arity p
  · exact h j hj
  · intro hi
    exact hj (RoseTree.isSome_get?_cons.mp (isSome_get?_of_status? hi))

/-- No subtask is added to a task that is completed already, and no function calls `finish` while a
subtask of its task has not been started. -/
def inTime (b : Behaviour F V E σ) (m : Machine F V E b.Q σ) : Bool :=
  match nextAct b m with
  | some (p, .addSubtask _) => m.tree.status? p = some .active
  | some (p, .finish) => (List.range (m.tree.arity p)).all fun j => m.starts.contains (j :: p)
  | _ => true

/-- Every task on the way has somebody who will complete it, and no completed task has a subtask that
was not started. -/
structure OnTrack (m : Machine F V E Q σ) : Prop where
  statuses : ∀ {p s}, m.tree.status? p = some s → s = .inactive ∨ s = .active ∨ s = .completed
  active : ∀ {p}, m.tree.status? p = some .active → p ∈ owed m.stack
  completed : ∀ {p}, m.tree.status? p = some .completed →
    ∀ j, m.tree.status? (j :: p) ≠ some .inactive
  loops : ∀ {p i}, (p, i) ∈ loops m.stack → ∀ j < i, m.tree.status? (j :: p) ≠ some .inactive
  above : ∀ f ∈ m.stack, parentActive m.tree f.path

namespace OnTrack

variable {m m' : Machine F V E Q σ}

theorem init (name : String) (tasks : List (SpecTree F)) (threaded : Bool) (w : σ) :
    OnTrack (init name tasks threaded w : Machine F V E Q σ) := by
  have hi {p : Path} {s : Status} : (Machine.init name tasks threaded w :
      Machine F V E Q σ).tree.status? p = some s → s = .inactive := by
    intro h
    rcases status?_taskList (V := V) (E := E) name tasks p with h' | h'
    · cases h'.symm.trans h
    · cases h'.symm.trans h
      rfl
  refine ⟨fun h => .inl (hi h), fun h => ?_, fun h => ?_, fun h => ?_, fun f hf => ?_⟩
  · cases hi h
  · cases hi h
  · cases h
  · obtain rfl := List.mem_singleton.mp hf
    rfl

/-- A step that keeps the statuses. -/
theorem of_same (h : OnTrack m) (hst : ∀ q, m'.tree.status? q = m.tree.status? q)
    (ho : owed m'.stack = owed m.stack)
    (hl : ∀ {p i}, (p, i) ∈ Machine.loops m'.stack → ∀ j < i,
      (p, i) ∈ Machine.loops m.stack ∨ m.tree.status? (j :: p) ≠ some .inactive)
    (hp : Covers m.stack m'.stack) : OnTrack m' where
  statuses hs := h.statuses (hst _ ▸ hs)
  active hs := ho ▸ h.active (hst _ ▸ hs)
  completed hs j := hst _ ▸ h.completed (hst _ ▸ hs) j
  loops hi j hj := by
    rw [hst]
    rcases hl hi j hj with hi | hi
    · exact h.loops hi j hj
    · exact hi
  above f hf := by
    obtain ⟨g, hg, hgf, -⟩ := hp f hf
    rw [parentActive_iff]
    intro r hr hne
    rw [hst]
    exact parentActive_iff.mp (h.above g hg) r (hgf ▸ hr) (hgf ▸ hne)

/-- The task at `p` is started. -/
theorem of_enters {b : Behaviour F V E σ} {m m' : Machine F V E b.Q σ} {p : Path} {args : List V}
    {st : List (Frame V b.Q)} (h : OnTrack m) (he : Enters b m m' p args st) (ho : owed st = owed m.stack)
    (hl : ∀ {q i}, (q, i) ∈ Machine.loops st → ∀ j < i,
      (q, i) ∈ Machine.loops m.stack ∨ j :: q = p ∨ m.tree.status? (j :: q) ≠ some .inactive)
    (hp : Covers m.stack st) : OnTrack m' := by
  obtain ⟨t, -, -, hs⟩ := he.task
  have hst := he.status?
  have hact {q : Path} (hq : m.tree.status? q = some .active) : m'.tree.status? q = some .active := by
    rw [hst]
    split
    · rfl
    · exact hq
  have hne {q : Path} (hq : m.tree.status? q ≠ some .inactive) :
      m'.tree.status? q ≠ some .inactive := by
    rw [hst]
    split
    · decide
    · exact hq
  have habove {q : Path} (hq : parentActive m.tree q) : parentActive m'.tree q :=
    parentActive_iff.mpr fun r hr hrq => hact (parentActive_iff.mp hq r hr hrq)
  refine ⟨fun {q s} hq => ?_, fun {q} hq => ?_, fun {q} hq j => ?_, fun {q i} hq j hj => ?_,
    fun f hf => ?_⟩
  · rw [hst] at hq
    split at hq
    · exact .inr (.inl (Option.some.inj hq).symm)
    · exact h.statuses hq
  · rw [hs, owed_body, ho]
    rw [hst] at hq
    split at hq
    · next hqp => rw [hqp]; exact List.mem_cons_self
    · exact List.mem_cons_of_mem _ (h.active hq)
  · rw [hst] at hq
    split at hq
    · cases hq
    · exact hne (h.completed hq j)
  · rw [hs, loops_body] at hq
    rcases hl hq j hj with hq | hq | hq
    · exact hne (h.loops hq j hj)
    · rw [hq, hst, if_pos rfl]
      decide
    · exact hne hq
  · rw [hs] at hf
    rcases List.mem_cons.mp hf with rfl | hf
    · exact habove he.parent
    · obtain ⟨g, hg, hgf, -⟩ := hp f hf
      exact habove (hgf ▸ h.above g hg)

/-- A subtask is put below the task at `p`, which is active. -/
theorem of_addChild (h : OnTrack m) (hp : m.tree.status? p = some .active) (c : SpecTree F)
    (ht : m'.tree = m.tree.addChild p c.init) (ho : owed m'.stack = owed m.stack)
    (hl : Machine.loops m'.stack = Machine.loops m.stack)
    (hl' : ∀ {q i}, (q, i) ∈ Machine.loops m.stack → q ≠ p ∧ ∃ s, m.tree.status? q = some s)
    (hf : Covers m.stack m'.stack) : OnTrack m' := by
  have hget : (m.tree.get? p).isSome := isSome_get?_of_status? hp
  have hold {q : Path} {s : Status} (hq : m.tree.status? q = some s) : m'.tree.status? q = some s :=
    ht ▸ status?_addChild_old c hq
  have hnew {q : Path} {s : Status} (hq : m'.tree.status? q = some s) : m.tree.status? q = some s ∨
      s = .inactive ∧ m.tree.status? q = none ∧ ∃ r, q = r ++ m.tree.arity p :: p :=
    status?_addChild hget c (ht ▸ hq)
  -- a new task below an old one is below `p` itself
  have hchild {q : Path} {s : Status} (hq : m.tree.status? q = some s) (hqp : q ≠ p) {j : Nat}
      (hj : m.tree.status? (j :: q) ≠ some .inactive) : m'.tree.status? (j :: q) ≠ some .inactive := by
    intro hi
    rcases hnew hi with hi | ⟨-, -, r, hr⟩
    · exact hj hi
    · cases r with
      | nil => exact hqp (List.cons.inj hr).2
      | cons k r =>
        obtain rfl := (List.cons.inj hr).2
        simp [status?, RoseTree.get?_fresh] at hq
  refine ⟨fun {q s} hq => ?_, fun {q} hq => ?_, fun {q} hq j => ?_, fun {q i} hq j hj => ?_,
    fun f hf' => ?_⟩
  · rcases hnew hq with hq | ⟨rfl, -⟩
    · exact h.statuses hq
    · exact .inl rfl
  · rcases hnew hq with hq | ⟨hq, -⟩
    · exact ho ▸ h.active hq
    · cases hq
  · rcases hnew hq with hq | ⟨hq, -⟩
    · refine hchild hq ?_ (h.completed hq j)
      rintro rfl
      cases hp.symm.trans hq
    · cases hq
  · rw [hl] at hq
    obtain ⟨hqp, s, hs⟩ := hl' hq
    exact hchild hs hqp (h.loops hq j hj)
  · obtain ⟨g, hg, hgf, -⟩ := hf f hf'
    rw [parentActive_iff]
    exact fun r hr hne => hold (parentActive_iff.mp (h.above g hg) r (hgf ▸ hr) (hgf ▸ hne))

/-- The task at `p` is completed, all its subtasks having been started. -/
theorem of_finish (h : OnTrack m) (hp : (m.tree.get? p).isSome) (ht : m'.tree = (m.finish p).tree)
    (hsub : ∀ j, m.tree.status? (j :: p) ≠ some .inactive)
    (ho : ∀ q, q ≠ p → q ∈ owed m.stack → q ∈ owed m'.stack)
    (hl : ∀ {q i}, (q, i) ∈ Machine.loops m'.stack → (q, i) ∈ Machine.loops m.stack)
    (hf : Covers m.stack m'.stack) (hpf : ∀ f ∈ m'.stack, p <:+ f.path → p = f.path) :
    OnTrack m' := by
  have hst (q : Path) : m'.tree.status? q = if q = p then some .completed else m.tree.status? q := by
    rw [ht, status?_finish hp]
  have hne {q : Path} (hq : m.tree.status? q ≠ some .inactive) :
      m'.tree.status? q ≠ some .inactive := by
    rw [hst]
    split
    · decide
    · exact hq
  refine ⟨fun {q s} hq => ?_, fun {q} hq => ?_, fun {q} hq j => ?_, fun {q i} hq j hj => ?_,
    fun f hf' => ?_⟩
  · rw [hst] at hq
    split at hq
    · exact .inr (.inr (Option.some.inj hq).symm)
    · exact h.statuses hq
  · rw [hst] at hq
    split at hq
    · cases hq
    · next hqp => exact ho q hqp (h.active hq)
  · rw [hst] at hq
    split at hq
    · next hqp => exact hne (hqp ▸ hsub j)
    · exact hne (h.completed hq j)
  · exact hne (h.loops (hl hq) j hj)
  · obtain ⟨g, hg, hgf, -⟩ := hf f hf'
    rw [parentActive_iff]
    intro r hr hrf
    rw [hst, if_neg]
    · exact parentActive_iff.mp (h.above g hg) r (hgf ▸ hr) (hgf ▸ hrf)
    · rintro rfl
      exact hrf (hpf f hf' hr)

/-- A running task refuses the call of a subtask only when the subtask has been started. -/
theorem not_inactive (h : OnTrack m) (hv : Sound m) {f : Frame V Q} (hf : f ∈ m.stack) (hne : f ≠ .run)
    (hi : i < m.tree.arity f.path) (href : Refuses m f.path i) :
    m.tree.status? (i :: f.path) ≠ some .inactive := by
  rcases href hi with href | href
  · exact href
  -- the task is not active, so it is completed
  obtain ⟨s, hs, hsne⟩ := hv.started _ ((hv.frames f hf).resolve_left hne)
  rcases h.statuses hs with rfl | rfl | rfl
  · exact (hsne rfl).elim
  · refine absurd (isActive_iff.mpr fun r hr => ?_) (Bool.eq_false_iff.mp href)
    by_cases hrf : r = f.path
    · exact hrf ▸ hs
    · exact parentActive_iff.mp (h.above f hf) r hr hrf
  · exact h.completed hs i

/-- The function of the task at `p` goes on. -/
theorem of_acted {b : Behaviour F V E σ} {m m' : Machine F V E b.Q σ} {p : Path} {q q' : b.Q}
    {rest : List (Frame V b.Q)} {a : Act F V E} {ans : Answer V} (h : OnTrack m) (hv : Sound m)
    (hn : Nest m.stack) (hst : m.stack = .body p (.ready q) :: rest)
    (hact : nextAct b m = some (p, a)) (heff : Effect m p a t ans) (ht : m'.tree = t)
    (hst' : m'.stack = .body p (.ready q') :: rest) (hg : inTime b m) : OnTrack m' := by
  have ho : owed m'.stack = owed m.stack := by rw [hst, hst']; rfl
  have hl : Machine.loops m'.stack = Machine.loops m.stack := by rw [hst, hst']; rfl
  have hf : Covers m.stack m'.stack := by
    rw [hst, hst']
    exact Covers.tail.cons rfl (by simp)
  have hbelow := (hst ▸ hn : Nest _).below_body
  rcases heff.statuses (hv.isSome_get? hst) with hs | ⟨c, rfl, rfl⟩ | ⟨rfl, -⟩
  · exact h.of_same (ht ▸ hs) ho (fun hi _ _ => .inl (hl ▸ hi)) hf
  · have hp : m.tree.status? p = some .active := by simpa [inTime, hact] using hg
    refine h.of_addChild hp c ht ho hl (fun {q i} hi => ⟨?_, ?_⟩) hf
    · rw [hst, loops_body] at hi
      obtain ⟨caller, hi⟩ := of_mem_loops _ _ hi
      rintro rfl
      exact not_suffix_of_below (hbelow _ hi) List.suffix_rfl
    · obtain ⟨caller, hi⟩ := of_mem_loops _ _ hi
      obtain ⟨s, hs, -⟩ := hv.started _ ((hv.frames _ hi).resolve_left (by simp))
      exact ⟨s, hs⟩
  · cases heff
    refine h.of_finish (hv.isSome_get? hst) ht (not_inactive_of_lt fun j hj => ?_)
      (fun _ _ hq => ho ▸ hq) (fun hi => hl ▸ hi) hf fun f hf' hpf => ?_
    · rw [inTime, hact] at hg
      have hj : j :: p ∈ m.starts := by simpa using List.all_eq_true.mp hg j (List.mem_range.mpr hj)
      obtain ⟨s, hs, hne⟩ := hv.started _ hj
      rw [hs]
      exact fun he => hne (Option.some.inj he)
    · rw [hst'] at hf'
      rcases List.mem_cons.mp hf' with rfl | hf'
      · rfl
      · exact (not_suffix_of_below (hbelow f hf') hpf).elim

/-- The loop of the task at `p` begins. -/
theorem of_looping (h : OnTrack m) (hst : ∀ q, m'.tree.status? q = m.tree.status? q)
    (ho : owed m'.stack = owed m.stack) (hst' : m'.stack = .subtasks p 0 caller :: st)
    (hl : Machine.loops st = Machine.loops m.stack) (hp : Covers m.stack m'.stack) : OnTrack m' := by
  refine h.of_same hst ho (fun {q i} hi j hj => ?_) hp
  rw [hst', loops_subtasks, hl] at hi
  rcases List.mem_cons.mp hi with hi | hi
  · cases hi
    exact absurd hj (Nat.not_lt_zero j)
  · exact .inl hi

/-- The loop at the top comes one subtask further. -/
theorem loops_next (h : OnTrack m) (hst : m.stack = .subtasks p i caller :: rest)
    (hi : (q, i') ∈ Machine.loops (.subtasks p (i + 1) caller :: rest)) (hj : j < i') :
    (q, i') ∈ Machine.loops m.stack ∨ j :: q = i :: p ∨ m.tree.status? (j :: q) ≠ some .inactive := by
  rw [loops_subtasks] at hi
  rw [hst]
  rcases List.mem_cons.mp hi with hi | hi
  · cases hi
    rcases Nat.lt_succ_iff_lt_or_eq.mp hj with hj | rfl
    · exact .inr (.inr (h.loops (by rw [hst]; exact List.mem_cons_self) j hj))
    · exact .inr (.inl rfl)
  · exact .inl (List.mem_cons_of_mem _ hi)

/-- The loop of the task at `p` is over, for a call or for `set_progress`. -/
theorem of_looped (h : OnTrack m) (hv : Sound m)
    (hst : m.stack = .subtasks p i caller :: rest) (hi : m.tree.arity p ≤ i)
    (ht : m'.tree = (m.finish p).tree) (hst' : m'.stack = deliver ans rest)
    (hrest : ∀ f ∈ rest, p <:+ f.path → p = f.path) : OnTrack m' := by
  refine h.of_finish (hv.isSome_loop hst) ht (not_inactive_of_lt fun j hj => ?_)
    (fun q hq hqo => ?_) (fun hq => ?_) ?_ fun f hf hpf => ?_
  · exact h.loops (by rw [hst]; exact List.mem_cons_self) j (Nat.lt_of_lt_of_le hj hi)
  · rw [hst', owed_deliver]
    rw [hst] at hqo
    cases caller with
    | call =>
      rw [owed_call] at hqo
      exact (List.mem_cons.mp hqo).resolve_left hq
    | setProgress => rwa [owed_setProgress] at hqo
  · rw [hst', loops_deliver] at hq
    rw [hst]
    exact List.mem_cons_of_mem _ hq
  · rw [hst, hst']
    exact Covers.tail.trans (covers_deliver _ _)
  · obtain ⟨g, hg, hgf, -⟩ := covers_deliver _ _ f (hst' ▸ hf)
    exact (hrest g hg (hgf ▸ hpf)).trans hgf

theorem step {b : Behaviour F V E σ} {m m' : Machine F V E b.Q σ} (h : OnTrack m) (hv : Sound m)
    (hn : Nest m.stack) (hs : m.step b = some m') (hr : raises b m = false) (hg : inTime b m) :
    OnTrack m' := by
  cases step_move hs with
  | acted hst hnext heff ht hst' =>
    exact h.of_acted hv hn hst (nextAct_eq hst hnext) heff ht hst' hg
  | called hst _ _ he =>
    refine h.of_enters he (by rw [hst]; rfl) (fun hq _ _ => .inl (by rwa [hst])) ?_
    rw [hst]
    exact Covers.tail.cons rfl (by simp)
  | filled hst _ _ ht hst' =>
    refine h.of_looping (fun q => ?_) (by rw [hst, hst']; rfl) hst' (by rw [hst]; rfl) ?_
    · rw [ht, status?_modify_of_status (Task.status_setCompleted _ _)]
    · rw [hst, hst']
      refine Covers.cons ?_ rfl (by simp)
      exact Covers.tail.cons rfl (by simp)
  | ended hst _ ht hst' =>
    refine h.of_looping (fun q => ?_) (by rw [hst, hst']; rfl) hst' (by rw [hst]; rfl) ?_
    · rw [ht, status?_modify_of_status (Task.status_setResult _)]
    · rw [hst, hst']
      exact Covers.tail.cons rfl (by simp)
  | failed hst hnext | aborted hst hnext => simp [raises, nextAct_eq hst hnext] at hr
  | looped hst _ he =>
    refine h.of_enters he (by rw [hst, owed_next]) (fun hq _ hj => h.loops_next hst hq hj) ?_
    rw [hst]
    exact Covers.tail.cons rfl (by simp)
  | @skipped p i caller rest hst hi href ht hst' =>
    refine h.of_same (fun q => by rw [ht]) (by rw [hst, hst', owed_next]) (fun hq j hj => ?_) ?_
    · rcases h.loops_next hst (hst' ▸ hq) hj with hq | hq | hq
      · exact .inl hq
      · rw [hq]
        exact .inr (h.not_inactive hv (f := .subtasks p i caller) (hst ▸ List.mem_cons_self) (by simp)
          hi href)
      · exact .inr hq
    · rw [hst, hst']
      exact Covers.tail.cons rfl (by simp)
  | returned hst hi ht hst' =>
    have hbelow := (hst ▸ hn : Nest _).below_loop
    exact h.of_looped hv hst hi ht hst' fun f hf hpf => (not_suffix_of_below (hbelow f hf) hpf).elim
  | progressed hst hi ht hst' =>
    -- the function that reported is the one frame below with the same task
    obtain ⟨c, rest', rfl, hn'⟩ := (hst ▸ hn : Nest _).below_progress
    refine h.of_looped hv hst hi ht hst' fun f hf hpf => ?_
    rcases List.mem_cons.mp hf with rfl | hf
    · rfl
    · exact (not_suffix_of_below (hn'.below_body f hf) hpf).elim
  | ran hst he =>
    refine h.of_enters he (by rw [hst]; rfl) (fun hq _ _ => .inl (by rwa [hst])) ?_
    rw [hst]
    exact Covers.tail
  | refused hst _ ht hst' =>
    refine h.of_same (fun q => by rw [ht]) (by rw [hst, hst']; rfl)
      (fun hi _ _ => .inl (by rwa [hst, ← hst'])) ?_
    rw [hst, hst']
    exact Covers.tail

end OnTrack

/-! ## What has been executed -/

def Event.started? : Event V E → Option Path
  | .started p _ => some p
  | _ => none

theorem starts_eq (m : Machine F V E Q σ) : m.starts = m.log.filterMap Event.started? := by
  rw [starts, marks, log, List.filterMap_filterMap, List.filterMap_filter]
  congr 1
  funext e
  cases e <;> rfl

theorem Enters.starts {b : Behaviour F V E σ} {m m' : Machine F V E b.Q σ} {args : List V}
    {st : List (Frame V b.Q)} (h : Enters b m m' p args st) : m'.starts = p :: m.starts := by
  rw [starts_eq, h.log, starts_eq]
  rfl

theorem mem_starts_of_log {m : Machine F V E Q σ} (h : .started p args ∈ m.log) : p ∈ m.starts := by
  rw [starts_eq]
  exact List.mem_filterMap.mpr ⟨_, h, rfl⟩

/-- Every function that was started runs or has returned, and the root's is started first. -/
structure Executed (m : Machine F V E Q σ) : Prop where
  ended : ∀ p ∈ m.starts, p ∈ bodies m.stack ∨ ∃ v, .ended p (.ok v) ∈ m.log
  root : m.stack = [.run] ∧ m.tree.status? [] = some .inactive ∨ [] ∈ m.starts

namespace Executed

variable {b : Behaviour F V E σ} {m m' : Machine F V E b.Q σ}

theorem of_starts (h : Executed m) (hrun : m.stack = [.run] → m.tree.status? [] ≠ some .inactive)
    (hs : m'.starts = m.starts) (hl : m.log ⊆ m'.log) (hb : bodies m.stack ⊆ bodies m'.stack) :
    Executed m' := by
  refine ⟨fun p hp => ?_, .inr (hs ▸ h.root.resolve_left fun hr => hrun hr.1 hr.2)⟩
  rcases h.ended p (hs ▸ hp) with hp | ⟨v, hv⟩
  · exact .inl (hb hp)
  · exact .inr ⟨v, hl hv⟩

theorem of_enters {st : List (Frame V b.Q)} (h : Executed m) (he : Enters b m m' p args st)
    (hroot : m.stack = [.run] → p = []) (hb : bodies m.stack ⊆ bodies st) : Executed m' := by
  obtain ⟨t, -, -, hst⟩ := he.task
  refine ⟨fun q hq => ?_, .inr ?_⟩
  · rw [he.starts] at hq
    rw [hst, he.log, bodies_body]
    rcases List.mem_cons.mp hq with rfl | hq
    · exact .inl List.mem_cons_self
    · rcases h.ended q hq with hq | ⟨v, hv⟩
      · exact .inl (List.mem_cons_of_mem _ (hb hq))
      · exact .inr ⟨v, List.mem_cons_of_mem _ hv⟩
  · rw [he.starts]
    rcases h.root with ⟨hr, -⟩ | hr
    · rw [hroot hr]
      exact List.mem_cons_self
    · exact List.mem_cons_of_mem _ hr

theorem step (h : Executed m) (hs : m.step b = some m') (hr : raises b m = false) : Executed m' := by
  cases step_move hs with
  | acted hst _ _ _ hst' hl | filled hst _ _ _ hst' hl | skipped hst _ _ _ hst' hl =>
    refine h.of_starts (by simp [hst]) (by rw [starts_eq, hl, starts_eq]) (by rw [hl]; exact .refl _) ?_
    rw [hst, hst']
    exact List.Subset.refl _
  | called hst _ _ he | looped hst _ he =>
    refine h.of_enters he (by simp [hst]) ?_
    rw [hst]
    exact List.Subset.refl _
  | @ended p c v rest hst _ _ hst' hl =>
    have hs : m'.starts = m.starts := by rw [starts_eq, hl, starts_eq]; rfl
    refine ⟨fun q hq => ?_, .inr (hs ▸ h.root.resolve_left (by simp [hst]))⟩
    rw [hst', hl, bodies_subtasks]
    rcases h.ended q (hs ▸ hq) with hq | ⟨v', hv⟩
    · rw [hst, bodies_body] at hq
      rcases List.mem_cons.mp hq with rfl | hq
      · exact .inr ⟨v, List.mem_cons_self⟩
      · exact .inl hq
    · exact .inr ⟨v', List.mem_cons_of_mem _ hv⟩
  | failed hst hnext => simp [raises, nextAct_eq hst hnext] at hr
  | aborted hst hnext => simp [raises, nextAct_eq hst hnext] at hr
  | returned hst _ _ hst' hl =>
    have hs : m'.starts = m.starts := by rw [starts_eq, hl, starts_eq]; rfl
    refine h.of_starts (by simp [hst]) hs (by rw [hl]; exact List.subset_cons_self ..) ?_
    rw [hst, hst', bodies_deliver]
    exact List.Subset.refl _
  | progressed hst _ _ hst' hl =>
    refine h.of_starts (by simp [hst]) (by rw [starts_eq, hl, starts_eq]) (by rw [hl]; exact .refl _) ?_
    rw [hst, hst', bodies_deliver]
    exact List.Subset.refl _
  | ran hst he =>
    refine h.of_enters he (fun _ => rfl) ?_
    rw [hst]
    exact List.Subset.refl _
  | refused hst hne _ hst' hl =>
    refine h.of_starts (fun _ => hne) (by rw [starts_eq, hl, starts_eq]) (by rw [hl]; exact .refl _) ?_
    rw [hst, hst']
    exact List.Subset.refl _

theorem init (name : String) (tasks : List (SpecTree F)) (threaded : Bool) (w : σ) :
    Executed (Machine.init name tasks threaded w : Machine F V E b.Q σ) where
  ended := by simp [Machine.init, starts, marks]
  root := by
    refine .inl ⟨rfl, ?_⟩
    rcases status?_taskList (V := V) (E := E) name tasks [] with h | h
    · cases h
    · exact h

end Executed

/-! ## The arguments -/

/-- The arguments that the task at `p` is meant to get: those of its first explicit call, none when
only the loop of `_run_subtasks` calls it. -/
def intended (calls : List (Path × List V)) (p : Path) : List V :=
  ((calls.reverse.find? (·.1 = p)).map (·.2)).getD []

theorem intended_append (new calls : List (Path × List V)) (p : Path) :
    intended (new ++ calls) p =
      if ∃ x ∈ calls, x.1 = p then intended calls p else intended new p := by
  rw [intended, List.reverse_append, List.find?_append]
  split
  · next h =>
    obtain ⟨x, hx, hxp⟩ := h
    have hs : (calls.reverse.find? (·.1 = p)).isSome := by
      rw [List.find?_isSome]
      exact ⟨x, List.mem_reverse.mpr hx, by simpa using hxp⟩
    rw [Option.or_of_isSome hs]
    rfl
  · next h =>
    have hn : calls.reverse.find? (·.1 = p) = none := by
      rw [List.find?_eq_none]
      exact fun x hx hxp => h ⟨x, List.mem_reverse.mp hx, by simpa using hxp⟩
    rw [hn, Option.none_or]
    rfl

/-- A call with arguments comes before the subtask is started, or is not the first explicit one. -/
def inTimeArgs (b : Behaviour F V E σ) (calls : List (Path × List V)) (m : Machine F V E b.Q σ) : Bool :=
  match nextAct b m with
  | some (p, .call i args) =>
    args.isEmpty || !m.starts.contains (i :: p) || calls.any fun x => x.1 = i :: p
  | _ => true

/-- Every function was started with the arguments intended for it. -/
structure Intended (calls : List (Path × List V)) (m : Machine F V E Q σ) : Prop where
  called : ∀ x ∈ calls, x.1 ∈ m.starts
  started : ∀ {p args}, .started p args ∈ m.log → intended calls p = args

theorem intended_eq_nil {calls : List (Path × List V)} (h : ∀ x ∈ calls, x.1 ≠ p) :
    intended calls p = [] := by
  have hn : calls.reverse.find? (·.1 = p) = none := by
    rw [List.find?_eq_none]
    exact fun x hx hxp => h x (List.mem_reverse.mp hx) (by simpa using hxp)
  rw [intended, hn]
  rfl

namespace Intended

variable {b : Behaviour F V E σ} {m m' : Machine F V E b.Q σ} {calls : List (Path × List V)}

/-- A step without an explicit call that starts nothing. -/
theorem of_quiet (h : Intended calls m) (hc : explicitCalls b m = []) (hs : m'.starts = m.starts)
    (hl : ∀ {p args}, .started p args ∈ m'.log → .started p args ∈ m.log) :
    Intended (explicitCalls b m ++ calls) m' := by
  rw [hc, List.nil_append]
  exact ⟨fun x hx => hs ▸ h.called x hx, fun hp => h.started (hl hp)⟩

/-- The task at `p` is started. -/
theorem of_enters {st : List (Frame V b.Q)} (h : Intended calls m) (hv : Sound m)
    (he : Enters b m m' p args st)
    (hc : explicitCalls b m = [(p, args)] ∨ explicitCalls b m = [] ∧ args = []) :
    Intended (explicitCalls b m ++ calls) m' := by
  have hnew : p ∉ m.starts := by
    intro hp
    obtain ⟨s, hs, hne⟩ := hv.started p hp
    exact hne (Option.some.inj (hs.symm.trans he.inactive))
  have hnone : ∀ x ∈ calls, x.1 ≠ p := fun x hx hxp => hnew (hxp ▸ h.called x hx)
  have hstarts : m'.starts = p :: m.starts := he.starts
  have hother {q : Path} (hq : q ≠ p) : intended (explicitCalls b m ++ calls) q = intended calls q := by
    rw [intended_append]
    split
    · rfl
    · next hx =>
      have hnil : intended calls q = [] := intended_eq_nil fun x hx' hxq => hx ⟨x, hx', hxq⟩
      rw [hnil]
      refine intended_eq_nil fun x hx' => ?_
      rcases hc with hc | ⟨hc, -⟩
      · rw [hc, List.mem_singleton] at hx'
        subst hx'
        exact hq.symm
      · rw [hc] at hx'
        cases hx'
  have hself : intended (explicitCalls b m ++ calls) p = args := by
    rw [intended_append, if_neg fun ⟨x, hx, hxp⟩ => hnone x hx hxp]
    rcases hc with hc | ⟨hc, rfl⟩
    · simp [hc, intended]
    · simp [hc, intended]
  refine ⟨fun x hx => ?_, fun {q args'} hq => ?_⟩
  · rw [hstarts]
    rcases List.mem_append.mp hx with hx | hx
    · rcases hc with hc | ⟨hc, -⟩
      · rw [hc, List.mem_singleton] at hx
        subst hx
        exact List.mem_cons_self
      · rw [hc] at hx
        cases hx
    · exact List.mem_cons_of_mem _ (h.called x hx)
  · rw [he.log] at hq
    rcases List.mem_cons.mp hq with hq | hold
    · cases hq
      exact hself
    · rw [hother]
      · exact h.started hold
      · rintro rfl
        exact hnew (mem_starts_of_log hold)

/-- A call that comes back at once: the subtask has been started, and with these arguments unless it
has been called before. -/
theorem of_refused (h : Intended calls m) (hstarted : i :: p ∈ m.starts)
    (hn : nextAct b m = some (p, .call i args)) (hg : inTimeArgs b calls m)
    (hl : m'.log = m.log) : Intended (explicitCalls b m ++ calls) m' := by
  have hs : m'.starts = m.starts := by rw [starts_eq, hl, starts_eq]
  have hc : ∀ x ∈ explicitCalls b m, x = (i :: p, args) := by
    intro x hx
    rw [explicitCalls, hn] at hx
    dsimp only at hx
    split at hx
    · exact List.mem_singleton.mp hx
    · cases hx
  refine ⟨fun x hx => ?_, fun {q args'} hq => ?_⟩
  · rw [hs]
    rcases List.mem_append.mp hx with hx | hx
    · rw [hc x hx]
      exact hstarted
    · exact h.called x hx
  · rw [hl] at hq
    rw [intended_append]
    split
    · exact h.started hq
    · next hx =>
      have hnil : intended calls q = [] := intended_eq_nil fun x hx' hxq => hx ⟨x, hx', hxq⟩
      rw [← h.started hq, hnil]
      rw [intended]
      cases hf : (explicitCalls b m).reverse.find? (·.1 = q) with
      | none => rfl
      | some x =>
        have hxc := hc x (List.mem_reverse.mp (List.mem_of_find?_eq_some hf))
        obtain rfl : i :: p = q := by simpa [hxc] using List.find?_some hf
        rw [inTimeArgs, hn] at hg
        have hx : calls.any (fun x => x.1 = i :: p) = false := by
          rw [List.any_eq_false]
          exact fun x hx' hxq => hx ⟨x, hx', by simpa using hxq⟩
        simpa [hxc, hstarted, hx] using hg

theorem step (h : Intended calls m) (hv : Sound m) (ht : OnTrack m) (hs : m.step b = some m')
    (hg : inTimeArgs b calls m) : Intended (explicitCalls b m ++ calls) m' := by
  -- a step in a loop, or at the root, is no explicit call
  have hloop {f : Frame V b.Q} {rest : List (Frame V b.Q)} (hst : m.stack = f :: rest)
      (hf : ∀ p q, f ≠ .body p (.ready q)) : explicitCalls b m = [] := by
    rw [explicitCalls, nextAct, hst]
    cases f with
    | body p c =>
      cases c with
      | ready q => exact (hf p q rfl).elim
      | tasklist | waiting k => rfl
    | run | subtasks => rfl
  have hbody {p : Path} {a : Act F V E} (hn : nextAct b m = some (p, a))
      (ha : ∀ i args, a ≠ .call i args) : explicitCalls b m = [] := by
    rw [explicitCalls, hn]
    cases a with
    | call i args => exact (ha i args rfl).elim
    | _ => rfl
  cases step_move hs with
  | @acted p q w a k t ans rest hst hnext heff _ _ hl =>
    have hn := nextAct_eq hst hnext
    have hs : m'.starts = m.starts := by rw [starts_eq, hl, starts_eq]
    cases heff with
    | @refused i args href =>
      by_cases hi : i < m.tree.arity p
      · refine h.of_refused ?_ hn hg hl
        have hne : m.tree.status? (i :: p) ≠ some .inactive :=
          ht.not_inactive hv (f := .body p (.ready q)) (hst ▸ List.mem_cons_self) (by simp) hi href
        obtain ⟨t, hg⟩ := Option.isSome_iff_exists.mp (RoseTree.isSome_get?_cons.mpr hi)
        by_contra hns
        exact hne (by simpa [status?, hg] using hv.unstarted (s := t.status) (by simp [status?, hg]) hns (by simp))
      · refine h.of_quiet ?_ hs (hl ▸ id)
        rw [explicitCalls, hn]
        exact if_neg hi
    | tau | addSubtask | setSize | cancelled | progress | finish =>
      exact h.of_quiet (hbody hn (by simp)) hs (hl ▸ id)
  | called hst hnext hi he =>
    refine h.of_enters hv he (.inl ?_)
    rw [explicitCalls, nextAct_eq hst hnext]
    exact if_pos hi
  | filled hst hnext _ _ _ hl =>
    exact h.of_quiet (hbody (nextAct_eq hst hnext) (by simp)) (by rw [starts_eq, hl, starts_eq]) (hl ▸ id)
  | ended hst hc _ _ hl =>
    refine h.of_quiet ?_ (by rw [starts_eq, hl, starts_eq]; rfl) (by simp [hl])
    rcases hc with rfl | ⟨q, w, k, rfl, hnext⟩
    · exact hloop hst (by simp)
    · exact hbody (nextAct_eq hst hnext) (by simp)
  | failed hst hnext _ _ _ hl =>
    exact h.of_quiet (hbody (nextAct_eq hst hnext) (by simp)) (by rw [starts_eq, hl, starts_eq]; rfl)
      (by simp [hl])
  | aborted hst hnext _ _ _ hl =>
    exact h.of_quiet (hbody (nextAct_eq hst hnext) (by simp)) (by rw [starts_eq, hl, starts_eq]; rfl)
      (by simp [hl])
  | looped hst _ he => exact h.of_enters hv he (.inr ⟨hloop hst (by simp), rfl⟩)
  | skipped hst _ _ _ _ hl | progressed hst _ _ _ hl | refused hst _ _ _ hl =>
    exact h.of_quiet (hloop hst (by simp)) (by rw [starts_eq, hl, starts_eq]) (hl ▸ id)
  | returned hst _ _ _ hl =>
    exact h.of_quiet (hloop hst (by simp)) (by rw [starts_eq, hl, starts_eq]; rfl) (by simp [hl])
  | ran hst he => exact h.of_enters hv he (.inr ⟨hloop hst (by simp), rfl⟩)

end Intended

/-! ## Runs -/

/-- A run from `m₀` to `m` in which no function raises, nobody cancels and every step meets `good`,
with the explicit calls of subtasks, latest first. -/
inductive Smooth (b : Behaviour F V E σ) (good : List (Path × List V) → Machine F V E b.Q σ → Bool)
    (m₀ : Machine F V E b.Q σ) : List (Path × List V) → Machine F V E b.Q σ → Prop
  | refl : Smooth b good m₀ [] m₀
  | step {calls m m'} : Smooth b good m₀ calls m → good calls m → raises b m = false →
    m.step b = some m' → Smooth b good m₀ (explicitCalls b m ++ calls) m'

/-- `n` steps of a smooth run; `none` when a step is not good, or a function raises. -/
def smoothSteps (b : Behaviour F V E σ) (good : List (Path × List V) → Machine F V E b.Q σ → Bool) :
    Nat → List (Path × List V) → Machine F V E b.Q σ →
      Option (List (Path × List V) × Machine F V E b.Q σ)
  | 0, calls, m => some (calls, m)
  | n + 1, calls, m =>
    if good calls m && !raises b m then
      (m.step b).bind fun m' => smoothSteps b good n (explicitCalls b m ++ calls) m'
    else none

theorem smooth_of_smoothSteps {b : Behaviour F V E σ}
    {good : List (Path × List V) → Machine F V E b.Q σ → Bool} {m₀ m' : Machine F V E b.Q σ} (n : Nat) :
    ∀ {calls m}, Smooth b good m₀ calls m → smoothSteps b good n calls m = some (calls', m') →
      Smooth b good m₀ calls' m' := by
  induction n with
  | zero =>
    intro calls m h hs
    cases hs
    exact h
  | succ n ih =>
    intro calls m h hs
    unfold smoothSteps at hs
    split at hs
    · next hg =>
      rw [Bool.and_eq_true, Bool.not_eq_true'] at hg
      obtain ⟨m'', hstep, hs⟩ := Option.bind_eq_some_iff.mp hs
      exact ih (h.step hg.1 hg.2 hstep) hs
    · cases hs

section Smooth

variable {b : Behaviour F V E σ} {name : String} {tasks : List (SpecTree F)} {threaded : Bool} {w : σ}
  {good : List (Path × List V) → Machine F V E b.Q σ → Bool} {calls : List (Path × List V)}
  {m : Machine F V E b.Q σ}

theorem Smooth.run (h : Smooth b good m₀ calls m) : Run b m₀ m := by
  induction h with
  | refl => exact .refl
  | step _ _ _ hs ih => exact ih.tail (.run hs)

theorem Smooth.sound (h : Smooth b good (init name tasks threaded w) calls m) : Sound m :=
  (Sound.init ..).run h.run

theorem Smooth.nest (h : Smooth b good (init name tasks threaded w) calls m) : Nest m.stack :=
  .run h.run

theorem Smooth.executed (h : Smooth b good (init name tasks threaded w) calls m) : Executed m := by
  induction h with
  | refl => exact .init ..
  | step _ _ hr hs ih => exact ih.step hs hr

theorem Smooth.onTrack (hgood : ∀ {calls m}, good calls m → inTime b m)
    (h : Smooth b good (init name tasks threaded w) calls m) : OnTrack m := by
  induction h with
  | refl => exact .init ..
  | step h hg hr hs ih => exact ih.step h.sound h.nest hs hr (hgood hg)

theorem Smooth.intended (hgood : ∀ {calls m}, good calls m → inTime b m ∧ inTimeArgs b calls m)
    (h : Smooth b good (init name tasks threaded w) calls m) : Intended calls m := by
  induction h with
  | refl => exact ⟨by simp, by simp [Machine.init, log]⟩
  | step h hg hr hs ih =>
    exact ih.step h.sound (h.onTrack fun hg => (hgood hg).1) hs (hgood hg).2

/-- At the end of the root's call every task of the tree is completed. -/
theorem OnTrack.all_completed (h : OnTrack m) (hroot : m.tree.status? [] ≠ some .inactive)
    (hst : m.stack = []) : ∀ {p s}, m.tree.status? p = some s → s = .completed := by
  have hkey {p : Path} {s : Status} (hs : m.tree.status? p = some s) (hne : s ≠ .inactive) :
      s = .completed := by
    rcases h.statuses hs with rfl | rfl | rfl
    · exact (hne rfl).elim
    · have := h.active hs
      rw [hst] at this
      cases this
    · rfl
  intro p
  induction p with
  | nil => exact fun hs => hkey hs fun hi => hroot (hi ▸ hs)
  | cons i p ih =>
    intro s hs
    refine hkey hs fun hi => ?_
    have hi' : i < m.tree.arity p := RoseTree.isSome_get?_cons.mp (isSome_get?_of_status? hs)
    obtain ⟨t, ht⟩ := Option.isSome_iff_exists.mp
      (RoseTree.isSome_get?_of_arity_pos (Nat.zero_lt_of_lt hi'))
    have hp : m.tree.status? p = some .completed := by
      have hs' : m.tree.status? p = some t.status := by simp [status?, ht]
      rw [hs', ih hs']
    exact h.completed hp i (hi ▸ hs)

/-- A step that loses no work. -/
def losesNothing (b : Behaviour F V E σ) (calls : List (Path × List V)) (m : Machine F V E b.Q σ) :
    Bool := inTime b m && inTimeArgs b calls m

theorem no_work_lost (h : Smooth b (losesNothing b) (init name tasks threaded w) calls m)
    (hst : m.stack = []) {p : Path} {t : Task F V E} (ht : m.tree.get? p = some t) :
    t.status = .completed ∧ m.starts.count p = 1 ∧ .started p (intended calls p) ∈ m.trace ∧
      ∃ v, .ended p (.ok v) ∈ m.trace := by
  have hgood {calls : List (Path × List V)} {m : Machine F V E b.Q σ} (hg : losesNothing b calls m) :
      inTime b m ∧ inTimeArgs b calls m := Bool.and_eq_true_iff.mp hg
  have htrack : OnTrack m := h.onTrack fun hg => (hgood hg).1
  have hex : Executed m := h.executed
  have hroot : [] ∈ m.starts := hex.root.resolve_left (by simp [hst])
  have hdone : t.status = .completed := by
    refine htrack.all_completed (fun hi => ?_) hst (show m.tree.status? p = some t.status by simp [status?, ht])
    obtain ⟨s, hs, hne⟩ := h.sound.started [] hroot
    exact hne (Option.some.inj (hs.symm.trans hi))
  have hstarted : p ∈ m.starts := by
    by_contra hns
    have hp : p ≠ [] := by
      rintro rfl
      exact hns hroot
    have := h.sound.unstarted (s := t.status) (by simp [status?, ht]) hns hp
    rw [hdone] at this
    cases this
  refine ⟨hdone, List.count_eq_one_of_mem h.sound.nodup hstarted, ?_, ?_⟩
  · rw [starts_eq] at hstarted
    obtain ⟨e, he, hep⟩ := List.mem_filterMap.mp hstarted
    cases e with
    | started q args =>
      obtain rfl : q = p := Option.some.inj hep
      rw [(h.intended hgood).started he]
      exact (mem_log rfl).mp he
    | _ => cases hep
  · rcases hex.ended p hstarted with hb | ⟨v, hv⟩
    · rw [hst] at hb
      cases hb
    · exact ⟨v, (mem_log rfl).mp hv⟩

end Smooth

/-- The function `false` is this script, the function `true` does nothing. -/
private def scripted (script : List (Act Bool Nat Unit)) : Behaviour Bool Nat Unit Unit :=
  .ofScript fun f => if f then [] else script

private def oneTask : List (SpecTree Bool) :=
  [.node { associatedFunction := .code false, name := "a" } []]

private def subtask : SpecTree Bool := .node { associatedFunction := .code true, name := "b" } []

private def addsFirst : List (Act Bool Nat Unit) :=
  [.addSubtask subtask, .call 0 [7], .setProgress (.int 1) none none, .ret none]

private def addsLate : List (Act Bool Nat Unit) :=
  [.setProgress (.int 1) none none, .addSubtask subtask, .call 0 [7], .ret none]

/-- A subtask that is added and called before its parent reports full progress. -/
theorem no_work_lost_addsFirst :
    ∃ calls m t, Smooth (scripted addsFirst) (losesNothing _) (init "list" oneTask false ()) calls m ∧
      m.stack = [] ∧ m.tree.get? [0, 0] = some t ∧ t.status = .completed ∧
      m.starts.count [0, 0] = 1 ∧ .started [0, 0] [7] ∈ m.trace ∧
      ∃ v, .ended [0, 0] (.ok v) ∈ m.trace := by
  have hr : (smoothSteps (scripted addsFirst) (losesNothing _) 14 []
      (init "list" oneTask false ())).isSome := by decide
  have hrun := smooth_of_smoothSteps 14 .refl (Option.some_get hr).symm
  obtain ⟨hdone, hcount, hstarted, hended⟩ := no_work_lost (p := [0, 0]) hrun rfl rfl
  exact ⟨_, _, _, hrun, rfl, rfl, hdone, hcount, hstarted, hended⟩

/-- The same subtask, added after the report: its call comes back at once, and the list ends without
it. -/
theorem late_subtask_lost :
    ∃ calls m, Smooth (scripted addsLate) (fun _ _ => true) (init "list" oneTask false ()) calls m ∧
      m.stack = [] ∧ m.tree.status? [] = some .completed ∧ m.tree.status? [0, 0] = some .inactive ∧
      m.starts.count [0, 0] = 0 := by
  have hr : (smoothSteps (scripted addsLate) (fun _ _ => true) 11 []
      (init "list" oneTask false ())).isSome := by decide
  have hrun := smooth_of_smoothSteps 11 .refl (Option.some_get hr).symm
  exact ⟨_, _, hrun, rfl, by decide, by decide, by decide⟩

end Machine

end Swinst.TaskList
