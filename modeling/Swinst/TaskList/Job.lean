import Swinst.TaskList.Moves

/-! Functions that report their progress on the way, and call no subtask. What the task answers to a
report is decided by `set_progress`, which may also run the subtasks of the task and finish it. -/

namespace Swinst.TaskList

open Machine

variable {F V E σ : Type}

/-- A function with its own task at hand. -/
inductive Job (V E σ : Type) where
  | ret (v : Option V)
  | raise (e : E)
  /-- code between reports: `k` sees the world before, `f` changes it -/
  | step (f : σ → σ) (k : σ → Job V E σ)
  /-- `associated_task.size = n` -/
  | setSize (n : PyNum) (k : Job V E σ)
  /-- `associated_task.set_progress(completed)`: is the function to stop? -/
  | setProgress (completed : PyNum) (k : Bool → Job V E σ)
  /-- `associated_task.finish()` -/
  | finish (k : Job V E σ)

namespace Job

/-- `if associated_task: if associated_task.set_progress(completed): … return` -/
def report (task : Bool) (completed : PyNum) (next : Job V E σ) : Job V E σ :=
  if task then .setProgress completed fun stop => if stop then .ret none else next else next

/-- How the function ends when its `n`-th and later reports are answered by `answers`. -/
def run (answers : Nat → Bool) : Job V E σ → (n : Nat) → σ → Except E (Option V) × σ
  | ret v, _, w => (.ok v, w)
  | raise e, _, w => (.error e, w)
  | step f k, n, w => (k w).run answers n (f w)
  | setSize _ k, n, w => k.run answers n w
  | setProgress _ k, n, w => (k (answers n)).run answers (n + 1) w
  | finish k, n, w => k.run answers n w

/-- A report that is not answered with the order to stop. -/
theorem run_report {answers : Nat → Bool} {n : Nat} (h : answers n = false) (task : Bool)
    (completed : PyNum) (next : Job V E σ) (w : σ) : (report task completed next).run answers n w =
      next.run answers (if task then n + 1 else n) w := by
  cases task with
  | false => rfl
  | true => simp [report, run, h]

/-- Is one of the reports `n`, …, `n + k - 1` answered with the order to stop? -/
def stopped (answers : Nat → Bool) (n k : Nat) : Bool := (List.range k).any fun i => answers (n + i)

theorem stopped_zero (answers : Nat → Bool) (n : Nat) : stopped answers n 0 = false := rfl

theorem stopped_succ (answers : Nat → Bool) (n k : Nat) :
    stopped answers n (k + 1) = (answers n || stopped answers (n + 1) k) := by
  simp only [stopped, List.range_succ_eq_map, List.any_cons, List.any_map, Nat.add_zero]
  congr 2
  funext i
  exact congrArg answers (by simp only [Nat.succ_eq_add_one]; omega)

/-- The function comes from the first point to the second, while its reports get these answers; the
worlds that it sees are as `W` says. -/
inductive Reaches (W : σ → Prop) : Job V E σ → List Bool → Job V E σ → Prop
  | refl : Reaches W s [] s
  | step : W w → Reaches W (k w) as s → Reaches W (.step f k) as s
  | setSize : Reaches W k as s → Reaches W (.setSize n k) as s
  | setProgress (a : Bool) : Reaches W (k a) as s → Reaches W (.setProgress n k) (a :: as) s
  | finish : Reaches W k as s → Reaches W (.finish k) as s

namespace Reaches

variable {W : σ → Prop} {s s' s'' : Job V E σ} {as as' : List Bool}

theorem trans (h : Reaches W s as s') (h' : Reaches W s' as' s'') : Reaches W s (as ++ as') s'' := by
  induction h with
  | refl => exact h'
  | step hw _ ih => exact .step hw (ih h')
  | setSize _ ih => exact .setSize (ih h')
  | setProgress a _ ih => exact .setProgress a (ih h')
  | finish _ ih => exact .finish (ih h')

theorem trans_nil (h : Reaches W s as s') (h' : Reaches W s' [] s'') : Reaches W s as s'' := by
  have htrans := h.trans h'
  rwa [List.append_nil] at htrans

theorem answered {k : Bool → Job V E σ} (a : Bool) (h : Reaches W s as (.setProgress n k)) :
    Reaches W s (as ++ [a]) (k a) := h.trans (.setProgress a .refl)

end Reaches

/-! ## In a task list -/

/-- What the function does next. -/
def act : Job V E σ → Act F V E
  | ret v => .ret v
  | raise e => .raise e
  | step _ _ => .tau
  | setSize n _ => .setSize n
  | setProgress completed _ => .setProgress completed none none
  | finish _ => .finish

def effect : Job V E σ → σ → σ
  | step f _, w => f w
  | ret _, w | raise _, w | setSize _ _, w | setProgress _ _, w | finish _, w => w

/-- What is left to do after an answer. -/
def resume : Job V E σ → σ → Answer V → Job V E σ
  | step _ k, w, _ => k w
  | setSize _ k, _, _ | finish k, _, _ => k
  | setProgress _ k, _, .stop b => k b
  | s, _, _ => s

end Job

/-- The functions of the behaviour `b` include jobs. -/
structure Embeds (b : Behaviour F V E σ) where
  control : Job V E σ → b.Q
  next : ∀ s w, b.next (control s) w = (s.effect w, s.act, fun ans => control (s.resume w ans))

theorem Embeds.act_congr {b : Behaviour F V E σ} (emb : Embeds b) {s s' : Job V E σ}
    (h : emb.control s = emb.control s') (w : σ) : (s.act : Act F V E) = s'.act := by
  have hnext := emb.next s w
  rw [h, emb.next] at hnext
  exact (Prod.mk.inj (Prod.mk.inj hnext).2).1.symm

/-- All functions are jobs. -/
def jobBehaviour (errText : E → String) : Behaviour (Job V E σ) V E σ where
  Q := Job V E σ
  start f _ := f
  next s w := (s.effect w, s.act, s.resume w)
  errText := errText

def Embeds.jobs (errText : E → String) : Embeds (jobBehaviour errText : Behaviour (Job V E σ) V E σ) where
  control := id
  next _ _ := rfl

namespace Machine

variable {b : Behaviour F V E σ}

theorem deliver_append (ans : Answer V) (above below : List (Frame V Q)) (p : Path) (i : Nat)
    (caller : Caller) : deliver ans (above ++ .subtasks p i caller :: below) =
      deliver ans above ++ .subtasks p i caller :: below := by
  match above with
  | [] => rfl
  | .run :: _ | .subtasks _ _ _ :: _ | .body _ .tasklist :: _ | .body _ (.ready _) :: _
  | .body _ (.waiting _) :: _ => rfl

/-- A step replaces the frame on top, or takes it away and gives an answer to the one below. -/
theorem Move.stack {m m' : Machine F V E b.Q σ} (h : Move b m m') {f : Frame V b.Q}
    {st : List (Frame V b.Q)} (hst : m.stack = f :: st) :
    (∃ top, m'.stack = top ++ st) ∨ ∃ ans, m'.stack = deliver ans st := by
  cases h with
  | acted hs _ _ _ hs' | ended hs _ _ hs' _ | failed hs _ _ _ hs' _ | skipped hs _ _ _ hs' _ =>
    obtain ⟨-, rfl⟩ := List.cons.inj (hst.symm.trans hs)
    exact .inl ⟨[_], hs'⟩
  | filled hs _ _ _ hs' _ =>
    obtain ⟨-, rfl⟩ := List.cons.inj (hst.symm.trans hs)
    exact .inl ⟨[_, _], hs'⟩
  | called hs _ _ he | looped hs _ he =>
    obtain ⟨-, rfl⟩ := List.cons.inj (hst.symm.trans hs)
    obtain ⟨_, -, -, hs'⟩ := he.task
    exact .inl ⟨[_, _], hs'⟩
  | aborted hs _ _ _ hs' _ | returned hs _ _ hs' _ | progressed hs _ _ hs' _ =>
    obtain ⟨-, rfl⟩ := List.cons.inj (hst.symm.trans hs)
    exact .inr ⟨_, hs'⟩
  | ran hs he =>
    obtain ⟨-, rfl⟩ := List.cons.inj (hst.symm.trans hs)
    obtain ⟨_, -, -, hs'⟩ := he.task
    exact .inl ⟨[_], hs'⟩
  | refused hs _ _ hs' _ =>
    obtain ⟨-, rfl⟩ := List.cons.inj (hst.symm.trans hs)
    exact .inl ⟨[], hs'⟩

variable (emb : Embeds b) (p : Path) (rest : List (Frame V b.Q))

/-- The function of the task at `p`, called on top of `rest`, is a job that has come to `s`: it goes
on, or it waits while its report runs the subtasks. -/
inductive At (s : Job V E σ) (m : Machine F V E b.Q σ) : Prop
  | ready : m.stack = .body p (.ready (emb.control s)) :: rest → At s m
  | waiting (above : List (Frame V b.Q)) {i completed k w} : s = .setProgress completed k →
    m.stack = above ++ .subtasks p i .setProgress ::
      .body p (.waiting fun ans => emb.control (s.resume w ans)) :: rest → At s m

/-- A report of that function is answered with the order to stop. -/
structure Stops (m m' : Machine F V E b.Q σ) : Prop where
  step : m.step b = some m'
  report : ∃ completed k, m.stack = .body p (.ready (emb.control (.setProgress completed k))) :: rest
  cancelled : m.isCancelled p

variable {emb p rest}

theorem step_ready {m : Machine F V E b.Q σ} {s : Job V E σ}
    (hs : m.stack = .body p (.ready (emb.control s)) :: rest) : m.step b =
      some (Machine.act b { m with world := s.effect m.world } p
        (fun ans => emb.control (s.resume m.world ans)) rest s.act) := by
  simp only [Machine.step, hs, emb.next]

/-- A function that is no longer on the stack. -/
theorem not_popped {m : Machine F V E b.Q σ} (hlen : m.stack.length ≤ rest.length + 1)
    (htop : ∀ c, m.stack ≠ .body p c :: rest) : ¬ ∃ c, .body p c :: rest <:+ m.stack := by
  rintro ⟨c, hc⟩
  exact htop c (hc.eq_of_length_le hlen).symm

theorem length_deliver (ans : Answer V) (st : List (Frame V Q)) :
    (deliver ans st).length = st.length := by
  unfold deliver
  split <;> rfl

/-- Only a report is answered with the order to stop. -/
theorem Stops.act_eq {m m' : Machine F V E b.Q σ} {s : Job V E σ} (h : Stops emb p rest m m')
    (hs : m.stack = .body p (.ready (emb.control s)) :: rest) :
    ∃ completed, (s.act : Act F V E) = .setProgress completed none none := by
  obtain ⟨completed, k, hs'⟩ := h.report
  have hcontrol : emb.control s = emb.control (.setProgress completed k) := by
    simpa using hs.symm.trans hs'
  exact ⟨completed, emb.act_congr hcontrol m.world⟩

/-- A report is answered at once, or runs the subtasks first. -/
theorem step_report {m m' : Machine F V E b.Q σ} {completed : PyNum} {k : Bool → Job V E σ}
    (hs : m.stack = .body p (.ready (emb.control (.setProgress completed k))) :: rest)
    (hstep : m.step b = some m') :
    m.isCancelled p = true ∧ m'.stack = .body p (.ready (emb.control (k true))) :: rest ∨
      m.isCancelled p = false ∧ (m'.stack = .body p (.ready (emb.control (k false))) :: rest ∨
        m'.stack = .subtasks p 0 .setProgress :: .body p (.waiting fun ans =>
          emb.control ((Job.setProgress completed k).resume m.world ans)) :: rest) := by
  have hact := Option.some.inj (hstep.symm.trans (step_ready hs))
  generalize (Job.setProgress completed k).effect m.world = w at hact
  rw [hact, ← isCancelled_world m w]
  simp only [Job.act, Machine.act]
  split
  · next hc => exact .inl ⟨hc, rfl⟩
  next hc =>
  refine .inr ⟨Bool.eq_false_iff.mpr hc, ?_⟩
  split
  · exact .inr rfl
  · exact .inl rfl

/-- A job that goes on. -/
theorem step_at_ready {W : σ → Prop} {m m' : Machine F V E b.Q σ} {s₀ s : Job V E σ}
    {as : List Bool} (hs : m.stack = .body p (.ready (emb.control s)) :: rest)
    (hreach : s₀.Reaches W as s) (hw : W m.world) (hstep : m.step b = some m')
    (hframe : ∃ c, .body p c :: rest <:+ m'.stack) :
    ∃ as' s', s₀.Reaches W as' s' ∧ At emb p rest s' m' ∧
      (true ∈ as' ↔ true ∈ as ∨ Stops emb p rest m m') := by
  have hact := hstep.symm.trans (step_ready hs)
  rw [Option.some.injEq] at hact
  have hsame (h : ∀ completed, (s.act : Act F V E) ≠ .setProgress completed none none) :
      (true ∈ as ↔ true ∈ as ∨ Stops emb p rest m m') :=
    (or_iff_left fun hstops => (hstops.act_eq hs).elim h).symm
  cases s with
  | ret v =>
    refine (not_popped ?_ (fun c => ?_) hframe).elim <;>
      simp [hact, Job.act, Machine.act, functionReturned]
  | raise e =>
    have hstack : m'.stack = .subtasks p 0 .call :: rest ∨
        m'.stack = deliver (.result none) rest := by
      rw [hact]
      simp only [Job.act, Machine.act, functionRaised]
      split
      · exact .inr rfl
      · exact .inl rfl
    rcases hstack with h | h
    · refine (not_popped ?_ (fun c => ?_) hframe).elim <;> simp [h]
    · refine (not_popped ?_ (fun c hc => ?_) hframe).elim
      · simp [h, length_deliver]
      · simpa [h, length_deliver] using congrArg List.length hc
  | step f k =>
    exact ⟨as, k m.world, hreach.trans_nil (.step hw .refl), .ready (by rw [hact]; rfl), hsame fun _ h => by cases h⟩
  | setSize n k => exact ⟨as, k, hreach.trans_nil (.setSize .refl), .ready (by rw [hact]; rfl), hsame fun _ h => by cases h⟩
  | finish k => exact ⟨as, k, hreach.trans_nil (.finish .refl), .ready (by rw [hact]; rfl), hsame fun _ h => by cases h⟩
  | setProgress completed k =>
    have hstops : Stops emb p rest m m' ↔ m.isCancelled p :=
      ⟨fun h => h.cancelled, fun h => ⟨hstep, ⟨completed, k, hs⟩, h⟩⟩
    rw [hstops]
    rcases step_report hs hstep with ⟨hc, h⟩ | ⟨hc, h | h⟩
    · exact ⟨as ++ [true], k true, hreach.answered true, .ready h, by simp [hc]⟩
    · exact ⟨as ++ [false], k false, hreach.answered false, .ready h, by simp [hc]⟩
    · exact ⟨as, _, hreach, .waiting [] rfl h, by simp [hc]⟩

/-- The subtasks that a report runs. -/
theorem step_at_waiting {m m' : Machine F V E b.Q σ} {above : List (Frame V b.Q)} {i : Nat}
    {k : Answer V → b.Q}
    (hs : m.stack = above ++ .subtasks p i .setProgress :: .body p (.waiting k) :: rest)
    (hstep : m.step b = some m') :
    (∃ above' i', m'.stack = above' ++ .subtasks p i' .setProgress ::
        .body p (.waiting k) :: rest) ∨
      m'.stack = .body p (.ready (k (.stop false))) :: rest := by
  have hmove := step_move hstep
  cases above with
  | cons f above =>
    left
    rcases hmove.stack hs with ⟨top, h⟩ | ⟨ans, h⟩
    · exact ⟨top ++ above, i, by rw [h, List.append_assoc]; rfl⟩
    · exact ⟨deliver ans above, i, h.trans (deliver_append ..)⟩
  | nil =>
    cases hmove with
    | acted hs' | called hs' | filled hs' | ended hs' | failed hs' | aborted hs' | returned hs'
    | ran hs' | refused hs' => cases hs.symm.trans hs'
    | looped hs' _ he =>
      cases hs.symm.trans hs'
      obtain ⟨_, -, -, h⟩ := he.task
      exact .inl ⟨[_], _, h⟩
    | skipped hs' _ _ _ h _ =>
      cases hs.symm.trans hs'
      exact .inl ⟨[], _, h⟩
    | progressed hs' _ _ h _ =>
      cases hs.symm.trans hs'
      exact .inr h

/-- One step of the thread in the life of a job: it goes on, and a report may get its answer. -/
theorem At.step {W : σ → Prop} {m m' : Machine F V E b.Q σ} {s₀ s : Job V E σ} {as : List Bool}
    (h : At emb p rest s m) (hreach : s₀.Reaches W as s) (hw : W m.world)
    (hstep : m.step b = some m') (hframe : ∃ c, .body p c :: rest <:+ m'.stack) :
    ∃ as' s', s₀.Reaches W as' s' ∧ At emb p rest s' m' ∧
      (true ∈ as' ↔ true ∈ as ∨ Stops emb p rest m m') := by
  cases h with
  | ready hs => exact step_at_ready hs hreach hw hstep hframe
  | waiting above hk hs =>
    subst hk
    have hstops : ¬ Stops emb p rest m m' := by
      rintro ⟨-, ⟨completed', k', hs'⟩, -⟩
      have hlen := congrArg List.length (hs.symm.trans hs')
      simp only [List.length_append, List.length_cons] at hlen
      omega
    rcases step_at_waiting hs hstep with ⟨above', i', h⟩ | h
    · exact ⟨as, _, hreach, .waiting above' rfl h, (or_iff_left hstops).symm⟩
    · exact ⟨as ++ [false], _, hreach.answered false, .ready h, by simp [hstops]⟩

theorem At.cancel {m : Machine F V E b.Q σ} {s : Job V E σ} (h : At emb p rest s m) :
    At emb p rest s m.cancel := by
  cases h with
  | ready hs => exact .ready hs
  | waiting above hk hs => exact .waiting above hk hs

/-- A job that is about to return. -/
theorem At.eq_ret {m : Machine F V E b.Q σ} {s : Job V E σ} {r : Option V} (h : At emb p rest s m)
    (hm : m.stack = .body p (.ready (emb.control (.ret r))) :: rest) : s = .ret r := by
  cases h with
  | ready hs =>
    have hcontrol : emb.control s = emb.control (.ret r) := by simpa using hs.symm.trans hm
    have hact : (s.act : Act F V E) = .ret r := emb.act_congr hcontrol m.world
    cases s <;> cases hact
    rfl
  | waiting above _ hs =>
    have hlen := congrArg List.length (hs.symm.trans hm)
    simp only [List.length_append, List.length_cons] at hlen
    omega

/-- The life of a job in a run of a task list, with cancellations by the user between the steps. -/
theorem At.run {W : σ → Prop} {t : Nat → Machine F V E b.Q σ} {n : Nat} {s : Job V E σ}
    (hsteps : ∀ j < n, Step b (t j) (t (j + 1)))
    (hstart : (t 0).stack = .body p (.ready (emb.control s)) :: rest)
    (hframe : ∀ j ≤ n, ∃ c, .body p c :: rest <:+ (t j).stack) (hw : ∀ j < n, W (t j).world) :
    ∃ as s', s.Reaches W as s' ∧ At emb p rest s' (t n) ∧
      (true ∈ as ↔ ∃ j < n, Stops emb p rest (t j) (t (j + 1))) := by
  induction n with
  | zero => exact ⟨[], s, .refl, .ready hstart, by simp⟩
  | succ n ih =>
    obtain ⟨as, s', hreach, hat, has⟩ := ih (fun j hj => hsteps j (Nat.lt_succ_of_lt hj))
      (fun j hj => hframe j (Nat.le_succ_of_le hj)) (fun j hj => hw j (Nat.lt_succ_of_lt hj))
    have hnow : ∃ as' s'', s.Reaches W as' s'' ∧ At emb p rest s'' (t (n + 1)) ∧
        (true ∈ as' ↔ true ∈ as ∨ Stops emb p rest (t n) (t (n + 1))) := by
      by_cases hthread : (t n).step b = some (t (n + 1))
      · exact hat.step hreach (hw n n.lt_succ_self) hthread (hframe _ (Nat.le_refl _))
      · have hcancel : t (n + 1) = (t n).cancel := by
          have hstep := hsteps n n.lt_succ_self
          generalize t (n + 1) = m' at hstep hthread
          cases hstep with
          | run h => exact (hthread h).elim
          | cancel => rfl
        exact ⟨as, s', hreach, hcancel ▸ hat.cancel,
          (or_iff_left fun h => hthread h.step).symm⟩
    obtain ⟨as', s'', hreach', hat', has'⟩ := hnow
    refine ⟨as', s'', hreach', hat', has'.trans ?_⟩
    simp only [has, Nat.lt_succ_iff_lt_or_eq, or_and_right, exists_or, exists_eq_left]

end Machine

end Swinst.TaskList
