import Swinst.TaskList.Moves
import Swinst.TaskList.StartOrder

/-! Are the statuses `FAILED` and `CANCELLED` final? The guard of `finish` knows only `COMPLETED`. -/

namespace Swinst.TaskList

open TaskTree

variable {F V E Q σ : Type}

def Status.isFinal : Status → Bool
  | .failed | .cancelled => true
  | .inactive | .active | .completed => false

namespace Machine

/-- The next step of the thread ends the loop of a call whose task has failed or been cancelled. -/
def overwrites (m : Machine F V E Q σ) : Bool :=
  match m.stack with
  | .subtasks p i .call :: _ => decide (m.tree.arity p ≤ i) && (m.tree.status? p).any Status.isFinal
  | _ => false

/-- What a task list has when it is made, and every step of the thread and the user keep, it has in
every state. -/
theorem Run.invariant {b : Behaviour F V E σ} {name : String} {tasks : List (SpecTree F)}
    {threaded : Bool} {w : σ} {P : Machine F V E b.Q σ → Prop} (hinit : P (init name tasks threaded w))
    (hstep : ∀ {m m'}, P m → Sound m → Nest m.stack → Phase tasks.length m → m.step b = some m' → P m')
    (hcancel : ∀ {m}, P m → P m.cancel) {m : Machine F V E b.Q σ}
    (hr : Run b (init name tasks threaded w) m) : P m := by
  induction hr with
  | refl => exact hinit
  | tail hr hs ih =>
    obtain ⟨hv, -, hp, -⟩ := run_invariants hr
    cases hs with
    | run hs => exact hstep ih hv (.run hr) hp hs
    | cancel => exact hcancel ih

/-! ## Functions run in undecided tasks -/

/-- What the innermost frame is when it belongs to the root. -/
theorem Phase.top {m : Machine F V E Q σ} (h : Phase n m) (hs : m.stack = f :: rest)
    (hf : f.path = []) : f = .run ∨ f = .body [] .tasklist ∨ ∃ i, f = .subtasks [] i .call := by
  cases h with
  | fresh hst => exact .inl (List.cons.inj (hs.symm.trans hst)).1
  | entered hst => exact .inr (.inl (List.cons.inj (hs.symm.trans hst)).1)
  | loop hst => exact .inr (.inr ⟨_, (List.cons.inj (hs.symm.trans hst)).1⟩)
  | child ha =>
    have hp := ha.suffix
    rw [← ha.path_top hs, hf] at hp
    exact absurd hp.length_le (by simp)
  | ended hst => cases hst.symm.trans hs

/-- Below the root a function runs only while its task has neither failed nor been cancelled; the
root itself does not fail. -/
structure Undecided (m : Machine F V E Q σ) : Prop where
  bodies : ∀ p ∈ bodies m.stack, p ≠ [] → ∃ s, m.tree.status? p = some s ∧ s.isFinal = false
  root : m.tree.status? [] ≠ some .failed

namespace Undecided

variable {m m' : Machine F V E Q σ}

theorem init (name : String) (tasks : List (SpecTree F)) (threaded : Bool) (w : σ) :
    Undecided (Machine.init name tasks threaded w : Machine F V E Q σ) where
  bodies := by simp [Machine.init, Machine.bodies]
  root h := by
    rcases status?_taskList (V := V) (E := E) name tasks [] with h' | h' <;> cases h'.symm.trans h

/-- A step that keeps the statuses of old tasks. -/
theorem of_kept (h : Undecided m) (hst : ∀ {q s}, m.tree.status? q = some s → m'.tree.status? q = some s)
    (hroot : m'.tree.status? [] = m.tree.status? []) (hb : Machine.bodies m'.stack ⊆ Machine.bodies m.stack) :
    Undecided m' := by
  refine ⟨fun p hp hne => ?_, hroot ▸ h.root⟩
  obtain ⟨s, hs, hf⟩ := h.bodies p (hb hp) hne
  exact ⟨s, hst hs, hf⟩

/-- A step that gives the task at `p` the status `s'`, a final one only when its function is over. -/
theorem of_set (h : Undecided m) (hst : ∀ q, m'.tree.status? q = if q = p then some s' else m.tree.status? q)
    (hb : ∀ q ∈ Machine.bodies m'.stack, q ≠ p → q ∈ Machine.bodies m.stack)
    (hf : s'.isFinal → p ≠ [] ∧ p ∉ Machine.bodies m'.stack) : Undecided m' := by
  refine ⟨fun q hq hne => ?_, ?_⟩
  · by_cases hqp : q = p
    · subst hqp
      refine ⟨s', by rw [hst, if_pos rfl], ?_⟩
      exact Bool.eq_false_iff.mpr fun hs' => (hf hs').2 hq
    · rw [hst, if_neg hqp]
      exact h.bodies q (hb q hq hqp) hne
  · rw [hst]
    split
    · next hp =>
      intro hs'
      obtain rfl := Option.some.inj hs'
      exact (hf rfl).1 hp.symm
    · exact h.root

theorem cancel (h : Undecided m) : Undecided m.cancel := by
  have hst (q : Path) : m.cancel.tree.status? q =
      if q = [] then (m.tree.get? q).map fun _ => Status.cancelled else m.tree.status? q :=
    status?_modify m.tree [] q Task.setCancelled
  refine ⟨fun p hp hne => ?_, ?_⟩
  · rw [hst, if_neg hne]
    exact h.bodies p hp hne
  · rw [hst, if_pos rfl]
    cases m.tree.get? [] <;> simp

/-- The function of a task below the root acts, not the root's. -/
theorem ne_nil_of_ready (hp : Phase n m) (hst : m.stack = .body p (.ready q) :: rest) : p ≠ [] := by
  rintro rfl
  rcases hp.top hst rfl with h | h | ⟨i, h⟩ <;> cases h

theorem step {b : Behaviour F V E σ} {m m' : Machine F V E b.Q σ} (h : Undecided m) (hv : Sound m)
    (hn : Nest m.stack) (hp : Phase n m) (hs : m.step b = some m') : Undecided m' := by
  cases step_move hs with
  | @acted p q w a k t ans rest hst hnext heff ht hst' _ =>
    have hb : Machine.bodies m'.stack = Machine.bodies m.stack := by rw [hst, hst']; rfl
    rcases heff.statuses (hv.isSome_get? hst) with hsame | ⟨c, -, rfl⟩ | ⟨-, hset⟩
    · exact h.of_kept (fun h => by rwa [ht, hsame]) (by rw [ht, hsame]) (fun _ hq => hb ▸ hq)
    · refine h.of_kept (fun h => ht ▸ status?_addChild_old c h) ?_ (fun _ hq => hb ▸ hq)
      rw [ht]
      exact (status?_addChild_old c (status?_nil m.tree)).trans (status?_nil m.tree).symm
    · exact h.of_set (ht ▸ hset) (fun _ hq _ => hb ▸ hq) (fun hf => by cases hf)
  | called hst _ _ he | looped hst _ he | ran hst he =>
    refine h.of_set he.status? (fun q hq hqp => ?_) (fun hf => by cases hf)
    obtain ⟨t, -, -, hst'⟩ := he.task
    rw [hst', bodies_body] at hq
    rw [hst]
    exact (List.mem_cons.mp hq).resolve_left hqp
  | filled hst _ _ ht hst' =>
    have hsame (q : Path) : m'.tree.status? q = m.tree.status? q := by
      rw [ht, status?_modify_of_status (Task.status_setCompleted _ _)]
    refine h.of_kept (fun h => by rwa [hsame]) (hsame []) ?_
    rw [hst, hst']
    exact fun _ hq => hq
  | ended hst _ ht hst' =>
    have hsame (q : Path) : m'.tree.status? q = m.tree.status? q := by
      rw [ht, status?_modify_of_status (Task.status_setResult _)]
    refine h.of_kept (fun h => by rwa [hsame]) (hsame []) ?_
    rw [hst, hst']
    exact fun _ hq => List.mem_cons_of_mem _ hq
  | @failed p q w e k rest hst _ _ ht hst' =>
    have hset (q : Path) : m'.tree.status? q = if q = p then some .failed else m.tree.status? q := by
      rw [ht, status?_modify_of_status (Task.status_setResult _), status?_fail (hv.isSome_get? hst)]
    refine h.of_set hset (fun q hq _ => ?_) fun _ => ⟨ne_nil_of_ready hp hst, ?_⟩
    · rw [hst', bodies_subtasks] at hq
      rw [hst]
      exact List.mem_cons_of_mem _ hq
    · rw [hst', bodies_subtasks]
      exact (hst ▸ hn : Nest _).not_mem_bodies
  | @aborted p q w e k rest hst _ _ ht hst' =>
    have hset := ht ▸ status?_abort (hv.isSome_get? hst) e
    refine ⟨fun r hr hne => ?_, ?_⟩
    · rw [hst', bodies_deliver] at hr
      have hrp : r ≠ p := by
        rintro rfl
        exact (hst ▸ hn : Nest _).not_mem_bodies hr
      rw [hset, if_neg hne, if_neg hrp]
      exact h.bodies r (hst ▸ List.mem_cons_of_mem _ hr) hne
    · rw [hset, if_pos rfl]
      decide
  | skipped hst _ _ ht hst' =>
    refine h.of_kept (fun h => ht ▸ h) (by rw [ht]) ?_
    rw [hst, hst']
    exact fun _ hq => hq
  | returned hst _ ht hst' | progressed hst _ ht hst' =>
    have hset := ht ▸ status?_finish (hv.isSome_loop hst)
    refine h.of_set hset (fun q hq _ => ?_) (fun hf => by cases hf)
    rw [hst', bodies_deliver] at hq
    rwa [hst]
  | refused hst _ ht hst' =>
    refine h.of_kept (fun h => ht ▸ h) (by rw [ht]) ?_
    rw [hst, hst']
    exact fun _ hq => hq

theorem run {b : Behaviour F V E σ} {name : String} {tasks : List (SpecTree F)} {threaded : Bool}
    {w : σ} {m : Machine F V E b.Q σ} (hr : Run b (Machine.init name tasks threaded w) m) :
    Undecided m :=
  Run.invariant (.init ..) step cancel hr

/-- Only the end of the loop of a call changes a final status. -/
theorem kept {b : Behaviour F V E σ} {m m' : Machine F V E b.Q σ} (h : Undecided m) (hv : Sound m)
    (hn : Nest m.stack) (hp : Phase n m) (hs : m.step b = some m') (ho : m.overwrites = false)
    {r : Path} {s : Status} (hf : s.isFinal) (hr : m.tree.status? r = some s) :
    m'.tree.status? r = some s := by
  -- the task whose function runs has another status
  have hbody {p : Path} (hb : p ∈ Machine.bodies m.stack) (hp : p ≠ []) : r ≠ p := by
    rintro rfl
    obtain ⟨s', hs', hf'⟩ := h.bodies r hb hp
    obtain rfl := Option.some.inj (hr.symm.trans hs')
    rw [hf'] at hf
    cases hf
  cases step_move hs with
  | @acted p q w a k t ans rest hst _ heff ht _ _ =>
    rcases heff.statuses (hv.isSome_get? hst) with hsame | ⟨c, -, rfl⟩ | ⟨-, hset⟩
    · rwa [ht, hsame]
    · exact ht ▸ status?_addChild_old c hr
    · rwa [ht, hset, if_neg (hbody (hst ▸ List.mem_cons_self) (ne_nil_of_ready hp hst))]
  | called _ _ _ he | looped _ _ he | ran _ he =>
    rw [he.status?, if_neg]
    · exact hr
    · rintro rfl
      obtain rfl := Option.some.inj (hr.symm.trans he.inactive)
      cases hf
  | filled _ _ _ ht => rwa [ht, status?_modify_of_status (Task.status_setCompleted _ _)]
  | ended _ _ ht => rwa [ht, status?_modify_of_status (Task.status_setResult _)]
  | failed hst _ _ ht =>
    rwa [ht, status?_modify_of_status (Task.status_setResult _), status?_fail (hv.isSome_get? hst),
      if_neg (hbody (hst ▸ List.mem_cons_self) (ne_nil_of_ready hp hst))]
  | aborted hst _ _ ht =>
    rw [ht, status?_abort (hv.isSome_get? hst)]
    split
    · next hroot =>
      subst hroot
      cases s with
      | cancelled => rfl
      | failed => exact (h.root hr).elim
      | inactive | active | completed => cases hf
    · rwa [if_neg (hbody (hst ▸ List.mem_cons_self) (ne_nil_of_ready hp hst))]
  | skipped _ _ _ ht | refused _ _ ht => rwa [ht]
  | @returned p i _ _ hst hi ht =>
    rw [ht, status?_finish (hv.isSome_loop hst), if_neg]
    · exact hr
    · rintro rfl
      simp [overwrites, hst, hi, hr, hf] at ho
  | @progressed p i rest hst _ ht =>
    obtain ⟨c, rest', rfl, -⟩ := (hst ▸ hn : Nest _).below_progress
    have hpne : p ≠ [] := by
      rintro rfl
      rcases hp.top hst rfl with h | h | ⟨i, h⟩ <;> cases h
    rwa [ht, status?_finish (hv.isSome_loop hst),
      if_neg (hbody (hst ▸ List.mem_cons_self) hpne)]

end Undecided

/-- The end of the loop of a call gives the status `COMPLETED`. -/
theorem completed_of_overwrites {b : Behaviour F V E σ} {m m' : Machine F V E b.Q σ} (hv : Sound m)
    (ho : m.overwrites) (hs : m.step b = some m') : ∃ p s, s.isFinal ∧ m.tree.status? p = some s ∧
      m'.tree.status? p = some .completed := by
  unfold overwrites at ho
  split at ho
  · next p i rest hst =>
    rw [Bool.and_eq_true, decide_eq_true_eq, Option.any_eq_true] at ho
    obtain ⟨hi, s, hp, hf⟩ := ho
    have hm' : m' = m.loop b p i .call rest := by
      rw [step, hst] at hs
      exact (Option.some.inj hs).symm
    refine ⟨p, s, hf, hp, ?_⟩
    rw [hm', loop, if_neg (Nat.not_lt.mpr hi)]
    exact (status?_finish (hv.isSome_loop hst) p).trans (if_pos rfl)
  · cases ho

/-! ## Executions -/

/-- The states `t 0, …, t n` of a run of a task list. -/
structure Execution (b : Behaviour F V E σ) (n : Nat) (t : Nat → Machine F V E b.Q σ) : Prop where
  init : ∃ name tasks threaded w, t 0 = init name tasks threaded w
  step : ∀ i < n, Step b (t i) (t (i + 1))

/-- The final statuses are final in these states; in the last one a root that was cancelled is
cancelled, and a task whose function raised has failed. -/
structure FinalStatuses (n : Nat) (t : Nat → Machine F V E Q σ) : Prop where
  kept : ∀ i j, i ≤ j → j ≤ n → ∀ p s, s.isFinal → (t i).tree.status? p = some s →
    (t j).tree.status? p = some s
  cancelled : ∀ i ≤ n, (t i).tree.status? [] = some .cancelled →
    (t n).tree.status? [] = some .cancelled ∧ (t n).isCancelled []
  failed : ∀ p e, .ended p (.error e) ∈ (t n).trace → (t n).tree.status? p = some .failed

section Execution

variable {b : Behaviour F V E σ} {n : Nat} {t : Nat → Machine F V E b.Q σ}

theorem Execution.run (h : Execution b n t) (hi : i ≤ n) :
    ∃ name tasks threaded w, Run b (Machine.init name tasks threaded w) (t i) := by
  obtain ⟨name, tasks, threaded, w, h₀⟩ := h.init
  refine ⟨name, tasks, threaded, w, ?_⟩
  induction i with
  | zero => exact h₀ ▸ .refl
  | succ i ih => exact (ih (Nat.le_of_succ_le hi)).tail (h.step i hi)

theorem Execution.kept_step (h : Execution b n t) (hi : i < n)
    (ho : (t i).overwrites → (t i).step b ≠ some (t (i + 1))) (hf : s.isFinal)
    (hp : (t i).tree.status? p = some s) : (t (i + 1)).tree.status? p = some s := by
  obtain ⟨name, tasks, threaded, w, hr⟩ := h.run (Nat.le_of_lt hi)
  obtain ⟨hv, -, hph, -⟩ := run_invariants hr
  have hu := Undecided.run hr
  have hs := h.step i hi
  generalize t (i + 1) = m' at ho hs ⊢
  cases hs with
  | run hs =>
    refine hu.kept hv (Nest.run hr) hph hs ?_ hf hp
    exact Bool.eq_false_iff.mpr fun h => ho h hs
  | cancel =>
    have hst : (t i).cancel.tree.status? p =
        if p = [] then ((t i).tree.get? p).map fun _ => Status.cancelled
        else (t i).tree.status? p := status?_modify _ [] p Task.setCancelled
    rw [hst]
    split
    · next hroot =>
      subst hroot
      cases s with
      | cancelled => rfl
      | failed => exact (hu.root hp).elim
      | inactive | active | completed => cases hf
    · exact hp

/-- A function that has raised left its task failed. -/
theorem Execution.failed_of_ended (h : Execution b n t) (he : .ended p (.error e) ∈ (t n).log) :
    ∃ i ≤ n, (t i).tree.status? p = some .failed := by
  suffices ∀ k ≤ n, .ended p (.error e) ∈ (t k).log → ∃ i ≤ k, (t i).tree.status? p = some .failed from
    this n (Nat.le_refl n) he
  intro k
  induction k with
  | zero =>
    intro _ he
    obtain ⟨name, tasks, threaded, w, h₀⟩ := h.init
    simp [h₀, Machine.init, log] at he
  | succ k ih =>
    intro hk he
    by_cases hold : .ended p (.error e) ∈ (t k).log
    · obtain ⟨i, hi, hp⟩ := ih (Nat.le_of_succ_le hk) hold
      exact ⟨i, Nat.le_succ_of_le hi, hp⟩
    refine ⟨k + 1, Nat.le_refl _, ?_⟩
    obtain ⟨name, tasks, threaded, w, hr⟩ := h.run (Nat.le_of_succ_le hk)
    obtain ⟨hv, -, hph, -⟩ := run_invariants hr
    have hs := h.step k hk
    generalize t (k + 1) = m' at he hs ⊢
    cases hs with
    | cancel => exact (hold (by simpa using he)).elim
    | run hs =>
      cases step_move hs with
      | @failed p' q w e' k rest hst _ _ ht _ hl =>
        rw [hl] at he
        obtain ⟨rfl, -⟩ : p = p' ∧ e = e' := by simpa [hold] using he
        rw [ht, status?_modify_of_status (Task.status_setResult _), status?_fail (hv.isSome_get? hst),
          if_pos rfl]
      | @aborted p' q w e' k rest hst _ _ ht _ hl =>
        rw [hl] at he
        obtain ⟨rfl, -⟩ : p = p' ∧ e = e' := by simpa [hold] using he
        rw [ht, status?_abort (hv.isSome_get? hst), if_neg (Undecided.ne_nil_of_ready hph hst), if_pos rfl]
      | acted _ _ _ _ _ hl | filled _ _ _ _ _ hl | skipped _ _ _ _ _ hl | progressed _ _ _ _ hl
        | refused _ _ _ _ hl => exact (hold (hl ▸ he)).elim
      | called _ _ _ hen | looped _ _ hen | ran _ hen =>
        rw [hen.log] at he
        exact (hold (by simpa using he)).elim
      | ended _ _ _ _ hl | returned _ _ _ _ hl =>
        rw [hl] at he
        exact (hold (by simpa using he)).elim

/-- The statuses `FAILED` and `CANCELLED` are final in an execution exactly when no call's loop ends
in a task that has failed or been cancelled. -/
theorem finalStatuses_iff (h : Execution b n t) : FinalStatuses n t ↔
    ∀ i < n, (t i).overwrites → (t i).step b ≠ some (t (i + 1)) := by
  constructor
  · intro hfinal i hi ho hs
    obtain ⟨name, tasks, threaded, w, hr⟩ := h.run (Nat.le_of_lt hi)
    obtain ⟨p, s, hf, hp, hp'⟩ := completed_of_overwrites ((Sound.init ..).run hr) ho hs
    have hp := hfinal.kept i (i + 1) (Nat.le_succ i) hi p s hf hp
    obtain rfl := Option.some.inj (hp.symm.trans hp')
    cases hf
  · intro ho
    have hkept (i j : Nat) (hij : i ≤ j) (hj : j ≤ n) (p : Path) (s : Status) (hf : s.isFinal)
        (hp : (t i).tree.status? p = some s) : (t j).tree.status? p = some s := by
      induction j, hij using Nat.le_induction with
      | base => exact hp
      | succ j hij ih => exact h.kept_step hj (ho j hj) hf (ih (Nat.le_of_succ_le hj))
    refine ⟨hkept, fun i hi hc => ?_, fun p e he => ?_⟩
    · have hn := hkept i n hi (Nat.le_refl n) [] .cancelled rfl hc
      exact ⟨hn, by simp [isCancelled, hn]⟩
    · obtain ⟨i, hi, hp⟩ := h.failed_of_ended ((mem_log rfl).mpr he)
      exact hkept i n hi (Nat.le_refl n) p .failed rfl hp

theorem steps_succ (b : Behaviour F V E σ) (n : Nat) (m : Machine F V E b.Q σ) :
    m.steps b (n + 1) = ((m.steps b n).step b).getD (m.steps b n) := by
  induction n generalizing m with
  | zero => cases h : m.step b <;> simp [steps, h]
  | succ n ih =>
    cases h : m.step b with
    | none => simp [steps, h]
    | some m' =>
      have hs (k : Nat) : m.steps b (k + 1) = m'.steps b k := by rw [steps, h]
      rw [hs, hs, ih]

theorem execution_steps (b : Behaviour F V E σ) (name : String) (tasks : List (SpecTree F))
    (threaded : Bool) (w : σ)
    (hn : ∀ i < n, (((Machine.init name tasks threaded w).steps b i).step b).isSome) :
    Execution b n fun i => (Machine.init name tasks threaded w).steps b i := by
  refine ⟨⟨name, tasks, threaded, w, rfl⟩, fun i hi => .run ?_⟩
  obtain ⟨m', hm'⟩ := Option.isSome_iff_exists.mp (hn i hi)
  rw [steps_succ, hm']
  rfl

end Execution

/-- The first of two tasks raises. -/
private def raising : Behaviour Bool Nat Unit Unit :=
  .ofScript fun f => if f then [.raise ()] else []

private def raisingTasks : List (SpecTree Bool) :=
  [.node { associatedFunction := .code true, name := "a" } [],
   .node { associatedFunction := .code false, name := "b" } []]

private def raisingRun (i : Nat) : Machine Bool Nat Unit raising.Q Unit :=
  (Machine.init "list" raisingTasks true () : Machine Bool Nat Unit raising.Q Unit).steps raising i

/-- Until the loop of the root ends the root stays cancelled. -/
theorem finalStatuses_raising : FinalStatuses 5 raisingRun := by
  have h : Execution raising 5 raisingRun :=
    execution_steps raising "list" raisingTasks true () (by decide)
  refine (finalStatuses_iff h).mpr fun i hi ho => ?_
  have hno : ∀ i < 5, (raisingRun i).overwrites = false := by decide
  rw [hno i hi] at ho
  cases ho

/-- The next step completes it: the run is over, and the root, cancelled because a required task
raised, is `COMPLETED`. -/
theorem cancelled_root_completed :
    Execution raising 6 raisingRun ∧ (raisingRun 6).stack = [] ∧
      (raisingRun 4).tree.status? [] = some .cancelled ∧
      (raisingRun 6).tree.status? [] = some .completed ∧ ¬ FinalStatuses 6 raisingRun := by
  have h : Execution raising 6 raisingRun :=
    execution_steps raising "list" raisingTasks true () (by decide)
  have hc : (raisingRun 4).tree.status? [] = some .cancelled := by decide
  have hd : (raisingRun 6).tree.status? [] = some .completed := by decide
  refine ⟨h, rfl, hc, hd, fun hf => ?_⟩
  have hc' := hf.kept 4 6 (by decide) (by decide) [] .cancelled rfl hc
  exact absurd (hc'.symm.trans hd) (by decide)

end Machine

end Swinst.TaskList
