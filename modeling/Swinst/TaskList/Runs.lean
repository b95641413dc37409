import Swinst.TaskList.Steps

/-! Runs of the machine: what holds in every reachable state, and the nesting of calls on the
stack. -/

namespace Swinst.TaskList

variable {F V E Q σ : Type}

/-- A mark set inside a call of the task at `r` that does not bound this call. -/
def Mark.Inner (r : Path) : Mark → Prop
  | .ended _ => True
  | .started p | .returned p => ∃ i q, p = i :: q ∧ r <:+ q

/-- Any number of steps of the thread, with cancellations by the user between them. -/
abbrev Run (b : Behaviour F V E σ) : Machine F V E b.Q σ → Machine F V E b.Q σ → Prop :=
  Relation.ReflTransGen (Step b)

open TaskTree

/-- Functions that follow a script of actions, whatever the answers. -/
def Behaviour.ofScript (script : F → List (Act F V E)) : Behaviour F V E σ where
  Q := List (Act F V E)
  start f _ := script f
  next q w := match q with
    | [] => (w, .ret none, fun _ => [])
    | a :: q => (w, a, fun _ => q)
  errText _ := ""

namespace Machine

/-- `n` steps of the thread, fewer when the run is over before. -/
def steps (b : Behaviour F V E σ) (m : Machine F V E b.Q σ) : Nat → Machine F V E b.Q σ
  | 0 => m
  | n + 1 => match m.step b with
    | some m' => steps b m' n
    | none => m

theorem run_steps (b : Behaviour F V E σ) (n : Nat) (m : Machine F V E b.Q σ) :
    Run b m (m.steps b n) := by
  induction n generalizing m with
  | zero => exact .refl
  | succ n ih =>
    unfold steps
    split
    · next hs => exact .head (.run hs) (ih _)
    · exact .refl

/-! ## Starts and statuses -/

/-- `st'` runs in tasks in which `st` runs. -/
def Covers (st st' : List (Frame V Q)) : Prop :=
  ∀ g ∈ st', ∃ f ∈ st, f.path = g.path ∧ (f = .run → g = .run)

theorem Covers.rfl {st : List (Frame V Q)} : Covers st st :=
  fun g hg => ⟨g, hg, Eq.refl _, id⟩

theorem Covers.tail {f : Frame V Q} {st : List (Frame V Q)} : Covers (f :: st) st :=
  fun g hg => ⟨g, List.mem_cons_of_mem _ hg, Eq.refl _, id⟩

theorem Covers.trans {st st' st'' : List (Frame V Q)} (h : Covers st st') (h' : Covers st' st'') :
    Covers st st'' := by
  intro g hg
  obtain ⟨f, hf, hp, hr⟩ := h' g hg
  obtain ⟨e, he, hp', hr'⟩ := h f hf
  exact ⟨e, he, hp'.trans hp, hr ∘ hr'⟩

theorem Covers.cons {f g : Frame V Q} {st st' : List (Frame V Q)} (h : Covers (f :: st) st')
    (hp : f.path = g.path) (hr : f ≠ .run) : Covers (f :: st) (g :: st') := by
  intro e he
  rcases List.mem_cons.mp he with rfl | he
  · exact ⟨f, List.mem_cons_self, hp, fun h => (hr h).elim⟩
  · exact h e he

theorem covers_deliver (ans : Answer V) (st : List (Frame V Q)) : Covers st (deliver ans st) := by
  unfold deliver
  split
  · exact Covers.tail.cons (Eq.refl _) (by simp)
  · exact .rfl

theorem starts_of_marks {m m' : Machine F V E Q σ} (h : m'.marks = m.marks) :
    m'.starts = m.starts := by simp [starts, h]

theorem starts_ended {m m' : Machine F V E Q σ} (h : m'.marks = .ended p :: m.marks) :
    m'.starts = m.starts := by simp [starts, h]

theorem starts_returned {m m' : Machine F V E Q σ} (h : m'.marks = .returned p :: m.marks) :
    m'.starts = m.starts := by simp [starts, h]

theorem starts_failed {m m' : Machine F V E Q σ}
    (h : m'.marks = .returned p :: .ended p :: m.marks) : m'.starts = m.starts := by
  simp [starts, h]

theorem Starts.starts {m m' : Machine F V E Q σ} (h : Starts p m m') :
    m'.starts = p :: m.starts := by simp [Machine.starts, h.marks]

/-- A step starts one function, which then runs on top of the stack, or none. -/
theorem Shape.starts_or_quiet {m m' : Machine F V E Q σ} (h : Shape m m') :
    ∃ f rest, m.stack = f :: rest ∧
      ((Quiet f.path m m' ∧ m'.starts = m.starts ∧ Covers m.stack m'.stack) ∨
        ∃ p c st, Starts p m m' ∧ m'.stack = .body p c :: st ∧ Covers m.stack st) := by
  cases h with
  | acted hs hs' hq hm =>
    refine ⟨_, _, hs, .inl ⟨hq, starts_of_marks hm, ?_⟩⟩
    rw [hs, hs']
    exact Covers.tail.cons rfl (by simp)
  | skipped hs hs' _ _ ht hm =>
    refine ⟨_, _, hs, .inl ⟨.of_eq ht, starts_of_marks hm, ?_⟩⟩
    rw [hs, hs']
    exact Covers.tail.cons rfl (by simp)
  | ended hs hs' hq hm =>
    refine ⟨_, _, hs, .inl ⟨hq, starts_ended hm, ?_⟩⟩
    rw [hs, hs']
    exact Covers.tail.cons rfl (by simp)
  | filled hs hs' hq hm =>
    refine ⟨_, _, hs, .inl ⟨hq, starts_of_marks hm, ?_⟩⟩
    rw [hs, hs']
    refine Covers.cons ?_ rfl (by simp)
    exact Covers.tail.cons rfl (by simp)
  | called hs hs' hst | looped hs hs' hst =>
    refine ⟨_, _, hs, .inr ⟨_, _, _, hst, hs', ?_⟩⟩
    rw [hs]
    exact Covers.tail.cons rfl (by simp)
  | failed hs hs' hq hm _ =>
    refine ⟨_, _, hs, .inl ⟨hq, starts_failed hm, ?_⟩⟩
    rw [hs, hs']
    exact Covers.tail.trans (covers_deliver _ _)
  | returned hs hs' _ hq _ hm =>
    refine ⟨_, _, hs, .inl ⟨hq, starts_returned hm, ?_⟩⟩
    rw [hs, hs']
    exact Covers.tail.trans (covers_deliver _ _)
  | progressed hs hs' hq hm =>
    refine ⟨_, _, hs, .inl ⟨hq, starts_of_marks hm, ?_⟩⟩
    rw [hs, hs']
    exact Covers.tail.trans (covers_deliver _ _)
  | ran hs hs' hst _ =>
    refine ⟨_, _, hs, .inr ⟨_, _, _, hst, hs', ?_⟩⟩
    rw [hs]
    exact Covers.tail
  | refused hs hs' ht hm =>
    refine ⟨_, _, hs, .inl ⟨.of_eq ht, starts_of_marks hm, ?_⟩⟩
    rw [hs, hs']
    exact Covers.tail

/-- What holds between the statuses, the stack and the started functions in every reachable
state. -/
structure Sound (m : Machine F V E Q σ) : Prop where
  /-- only started functions run -/
  frames : ∀ f ∈ m.stack, f = .run ∨ f.path ∈ m.starts
  started : ∀ p ∈ m.starts, ∃ s, m.tree.status? p = some s ∧ s ≠ .inactive
  /-- only the root can be ended before it is started -/
  unstarted : ∀ {p s}, m.tree.status? p = some s → p ∉ m.starts → p ≠ [] → s = .inactive
  nodup : m.starts.Nodup

theorem Sound.init (name : String) (tasks : List (SpecTree F)) (threaded : Bool) (w : σ) :
    Sound (init name tasks threaded w : Machine F V E Q σ) where
  frames := by simp [Machine.init]
  started := by simp [Machine.init, starts, marks]
  unstarted {p s} h _ _ := by
    rcases status?_taskList (V := V) (E := E) name tasks p with h' | h'
    · cases h'.symm.trans h
    · cases h'.symm.trans h; rfl
  nodup := by simp [Machine.init, starts, marks]

theorem Sound.of_quiet {m m' : Machine F V E Q σ} (h : Sound m) (hq : Quiet p m m')
    (hp : p ∈ m.starts ∨ p = []) (hs : m'.starts = m.starts) (hc : Covers m.stack m'.stack) :
    Sound m' where
  frames g hg := by
    obtain ⟨f, hf, hpath, hrun⟩ := hc g hg
    rw [hs]
    rcases h.frames f hf with hr | hr
    · exact .inl (hrun hr)
    · exact .inr (hpath ▸ hr)
  started q hq' := by
    obtain ⟨s, hst, hne⟩ := h.started q (hs ▸ hq')
    obtain ⟨s', hst', -, hi, -⟩ := hq.status hst
    exact ⟨s', hst', hne ∘ hi⟩
  unstarted {q s} hst hns hnr := by
    have hqp : q ≠ p := by
      rintro rfl
      exact hp.elim (fun hp => hns (hs ▸ hp)) hnr
    cases hm : m.tree.status? q with
    | none => exact (hq.fresh hst hm).2 hqp hnr
    | some s₀ =>
      obtain ⟨s', hst', hk, -⟩ := hq.status hm
      cases hst'.symm.trans hst
      rw [hk hqp hnr]
      exact h.unstarted hm (hs ▸ hns) hnr
  nodup := hs ▸ h.nodup

theorem Sound.of_starts {m m' : Machine F V E Q σ} (h : Sound m) (hst : Starts p m m')
    (hs : m'.stack = .body p c :: st) (hc : Covers m.stack st) : Sound m' where
  frames g hg := by
    rw [hst.starts]
    rw [hs] at hg
    rcases List.mem_cons.mp hg with rfl | hg
    · exact .inr List.mem_cons_self
    obtain ⟨f, hf, hpath, hrun⟩ := hc g hg
    rcases h.frames f hf with hr | hr
    · exact .inl (hrun hr)
    · exact .inr (List.mem_cons_of_mem _ (hpath ▸ hr))
  started q hq := by
    rw [hst.status]
    split
    · exact ⟨_, rfl, by decide⟩
    · next hne =>
      rw [hst.starts] at hq
      exact h.started q ((List.mem_cons.mp hq).resolve_left hne)
  unstarted {q s} hq hns hnr := by
    rw [hst.starts, List.mem_cons, not_or] at hns
    rw [hst.status, if_neg hns.1] at hq
    exact h.unstarted hq hns.2 hnr
  nodup := by
    rw [hst.starts, List.nodup_cons]
    refine ⟨fun hp => ?_, h.nodup⟩
    obtain ⟨s, hs', hne⟩ := h.started p hp
    cases hs'.symm.trans hst.inactive
    exact hne rfl

/-- The running function belongs to a task of the tree. -/
theorem Sound.isSome_get? {m : Machine F V E Q σ} (h : Sound m) (hs : m.stack = .body p c :: rest) :
    (m.tree.get? p).isSome := by
  have hp : p ∈ m.starts := by
    simpa [Frame.path] using h.frames (.body p c) (hs ▸ List.mem_cons_self)
  obtain ⟨s, hst, -⟩ := h.started p hp
  exact isSome_get?_of_status? hst

theorem Sound.shape {b : Behaviour F V E σ} {m m' : Machine F V E b.Q σ} (h : Sound m)
    (hs : m.step b = some m') : Shape m m' :=
  step_shape hs h.isSome_get?

theorem Sound.of_shape {m m' : Machine F V E Q σ} (h : Sound m) (hs : Shape m m') : Sound m' := by
  obtain ⟨f, rest, hst, ⟨hq, hm, hc⟩ | ⟨p, c, st, hp, hs', hc⟩⟩ := hs.starts_or_quiet
  · refine h.of_quiet hq ?_ hm hc
    rcases h.frames f (hst ▸ List.mem_cons_self) with rfl | hf
    · exact .inr rfl
    · exact .inl hf
  · exact h.of_starts hp hs' hc

theorem Sound.cancel {m : Machine F V E Q σ} (h : Sound m) : Sound m.cancel :=
  h.of_quiet (Quiet.cancel (p := []) m) (.inr rfl) (by simp [starts]) .rfl

theorem Sound.step {b : Behaviour F V E σ} {m m' : Machine F V E b.Q σ} (h : Sound m)
    (hs : Step b m m') : Sound m' := by
  cases hs with
  | run hs => exact h.of_shape (h.shape hs)
  | cancel => exact h.cancel

theorem Sound.run {b : Behaviour F V E σ} {m m' : Machine F V E b.Q σ} (h : Sound m)
    (hr : Run b m m') : Sound m' := by
  induction hr with
  | refl => exact h
  | tail _ hs ih => exact ih.step hs

/-! ## The nesting of calls -/

/-- A call of the task at `r` is in progress on top of `base`; the innermost frame belongs to the
task at `p`. -/
inductive Activation (base : List (Frame V Q)) (r : Path) : Path → List (Frame V Q) → Prop where
  | body : Activation base r r (.body r c :: base)
  | loop : Activation base r r (.subtasks r i .call :: base)
  | progress : Activation base r p (.body p c :: rest) →
    Activation base r p (.subtasks p i .setProgress :: .body p c :: rest)
  | childBody : Activation base r p (f :: rest) →
    Activation base r (i :: p) (.body (i :: p) c :: f :: rest)
  | childLoop : Activation base r p (f :: rest) →
    Activation base r (i :: p) (.subtasks (i :: p) j .call :: f :: rest)

namespace Activation

variable {base rest : List (Frame V Q)} {r p q : Path}

theorem suffix {st : List (Frame V Q)} (h : Activation base r p st) : r <:+ p := by
  induction h with
  | body | loop => exact List.suffix_rfl
  | progress _ ih => exact ih
  | childBody _ ih | childLoop _ ih => exact ih.trans (List.suffix_cons ..)

theorem path_top (h : Activation base r p st) (hs : st = f :: rest) : f.path = p := by
  cases h <;> cases hs <;> rfl

theorem path_body (h : Activation base r p (.body q c :: rest)) : q = p := by
  cases h <;> rfl

theorem path_subtasks (h : Activation base r p (.subtasks q i caller :: rest)) : q = p := by
  cases h <;> rfl

theorem body_congr (h : Activation base r p (.body q c :: rest)) :
    Activation base r p (.body q c' :: rest) := by
  cases h with
  | body => exact .body
  | childBody h => exact .childBody h

theorem body_loop (h : Activation base r p (.body q c :: rest)) :
    Activation base r p (.subtasks q 0 .call :: rest) := by
  cases h with
  | body => exact .loop
  | childBody h => exact .childLoop h

theorem subtasks_congr (h : Activation base r p (.subtasks q i caller :: rest)) :
    Activation base r p (.subtasks q j caller :: rest) := by
  cases h with
  | loop => exact .loop
  | progress h => exact .progress h
  | childLoop h => exact .childLoop h

theorem delivered {st : List (Frame V Q)} (h : Activation base r p st) (ans : Answer V) :
    Activation base r p (deliver ans st) := by
  unfold deliver
  split
  · exact h.body_congr
  · exact h

end Activation

/-- A step inside a call of the task at `r` stays inside, or it is the return from that call. -/
theorem Activation.step {base : List (Frame V Q)} {r p : Path}
    {m m' : Machine F V E Q σ} (h : Activation base r p m.stack) (hs : Shape m m') :
    (∃ p' ks, Activation base r p' m'.stack ∧ m'.marks = ks ++ m.marks ∧ ∀ k ∈ ks, k.Inner r) ∨
    (∃ ans ks, m'.stack = deliver ans base ∧ m'.marks = .returned r :: (ks ++ m.marks) ∧
      ∀ k ∈ ks, k.Inner r) := by
  cases hs with
  | acted hs hs' _ hm =>
    rw [hs] at h
    exact .inl ⟨p, [], hs' ▸ h.body_congr, hm, by simp⟩
  | @called q c k i c' rest hs hs' hst =>
    rw [hs] at h
    obtain rfl := h.path_body
    refine .inl ⟨i :: q, [_], ?_, hst.marks, by simpa [Mark.Inner] using h.suffix⟩
    exact hs' ▸ Activation.childBody h.body_congr
  | filled hs hs' _ hm =>
    rw [hs] at h
    obtain rfl := h.path_body
    exact .inl ⟨_, [], hs' ▸ Activation.progress h.body_congr, hm, by simp⟩
  | ended hs hs' _ hm =>
    rw [hs] at h
    exact .inl ⟨p, [_], hs' ▸ h.body_loop, hm, by simp [Mark.Inner]⟩
  | failed hs hs' _ hm _ =>
    rw [hs] at h
    cases h with
    | body => exact .inr ⟨_, [_], hs', hm, by simp [Mark.Inner]⟩
    | childBody h =>
      exact .inl ⟨_, [_, _], hs' ▸ h.delivered _, hm, by simpa [Mark.Inner] using h.suffix⟩
  | @looped q i caller c rest hs hs' hst =>
    rw [hs] at h
    obtain rfl := h.path_subtasks
    refine .inl ⟨i :: q, [_], ?_, hst.marks, by simpa [Mark.Inner] using h.suffix⟩
    exact hs' ▸ Activation.childBody h.subtasks_congr
  | skipped hs hs' _ _ _ hm =>
    rw [hs] at h
    exact .inl ⟨p, [], hs' ▸ h.subtasks_congr, hm, by simp⟩
  | returned hs hs' _ _ _ hm =>
    rw [hs] at h
    cases h with
    | loop => exact .inr ⟨_, [], hs', hm, by simp⟩
    | childLoop h =>
      exact .inl ⟨_, [_], hs' ▸ h.delivered _, hm, by simpa [Mark.Inner] using h.suffix⟩
  | progressed hs hs' _ hm =>
    rw [hs] at h
    cases h with
    | progress h => exact .inl ⟨_, [], hs' ▸ h.delivered _, hm, by simp⟩
  | ran hs _ _ _ => rw [hs] at h; cases h
  | refused hs _ _ _ => rw [hs] at h; cases h

/-! ## A call returns after its function has ended -/

/-- Each return has the end of the function before it. -/
def Ordered : List Mark → Prop
  | [] => True
  | .returned p :: ks => .ended p ∈ ks ∧ Ordered ks
  | _ :: ks => Ordered ks

theorem Ordered.ended_mem {p : Path} {later earlier : List Mark}
    (h : Ordered (later ++ .returned p :: earlier)) : .ended p ∈ earlier := by
  induction later with
  | nil => exact h.1
  | cons k later ih =>
    cases k with
    | returned q => exact ih h.2
    | started q | ended q => exact ih h

/-- The calls whose function has ended and whose loop runs. -/
def callLoops (st : List (Frame V Q)) : List Path :=
  st.filterMap fun
    | .subtasks p _ .call => some p
    | _ => none

section

variable (p : Path) (i : Nat) (c : Control V Q) (st : List (Frame V Q))

@[simp] theorem callLoops_nil : callLoops ([] : List (Frame V Q)) = [] := rfl

@[simp] theorem callLoops_run : callLoops (.run :: st) = callLoops st := rfl

@[simp] theorem callLoops_body : callLoops (.body p c :: st) = callLoops st := rfl

@[simp] theorem callLoops_call : callLoops (.subtasks p i .call :: st) = p :: callLoops st := rfl

@[simp] theorem callLoops_setProgress :
    callLoops (.subtasks p i .setProgress :: st) = callLoops st := rfl

theorem callLoops_next (j : Nat) (caller : Caller) :
    callLoops (.subtasks p i caller :: st) = callLoops (.subtasks p j caller :: st) := by
  cases caller <;> rfl

@[simp] theorem callLoops_deliver (ans : Answer V) : callLoops (deliver ans st) = callLoops st := by
  unfold deliver
  split <;> rfl

end

/-- A call returns only after its function has ended. -/
structure EndsFirst (m : Machine F V E Q σ) : Prop where
  loops : ∀ p ∈ callLoops m.stack, .ended p ∈ m.marks
  ordered : Ordered m.marks

theorem EndsFirst.of_shape {m m' : Machine F V E Q σ} (h : EndsFirst m) (hs : Shape m m') :
    EndsFirst m' := by
  obtain ⟨hl, ho⟩ := h
  cases hs with
  | acted hs hs' _ hm | filled hs hs' _ hm | progressed hs hs' _ hm | refused hs hs' _ hm =>
    rw [hs] at hl
    exact ⟨by simpa [hs', hm] using hl, hm ▸ ho⟩
  | called hs hs' hst | ran hs hs' hst _ =>
    rw [hs] at hl
    exact ⟨by simpa [hs', hst.marks] using hl, hst.marks ▸ ho⟩
  | ended hs hs' _ hm =>
    rw [hs] at hl
    refine ⟨?_, hm ▸ ho⟩
    simp only [hs', hm, callLoops_call, List.mem_cons, forall_eq_or_imp, true_or, true_and]
    exact fun p hp => .inr (hl p hp)
  | failed hs hs' _ hm _ =>
    rw [hs] at hl
    refine ⟨?_, by rw [hm]; exact ⟨List.mem_cons_self, ho⟩⟩
    simp only [hs', hm, callLoops_deliver]
    exact fun p hp => List.mem_cons_of_mem _ (List.mem_cons_of_mem _ (hl p hp))
  | looped hs hs' hst =>
    rw [hs, callLoops_next] at hl
    refine ⟨?_, hst.marks ▸ ho⟩
    simp only [hs', hst.marks, callLoops_body]
    exact fun p hp => List.mem_cons_of_mem _ (hl p hp)
  | skipped hs hs' _ _ _ hm =>
    rw [hs, callLoops_next] at hl
    exact ⟨by rw [hs', hm]; exact hl, hm ▸ ho⟩
  | @returned p i ans rest hs hs' _ _ _ hm =>
    simp only [hs, callLoops_call, List.mem_cons, forall_eq_or_imp] at hl
    refine ⟨?_, by rw [hm]; exact ⟨hl.1, ho⟩⟩
    simp only [hs', hm, callLoops_deliver]
    exact fun p hp => List.mem_cons_of_mem _ (hl.2 p hp)

theorem EndsFirst.step {b : Behaviour F V E σ} {m m' : Machine F V E b.Q σ} (h : EndsFirst m)
    (hv : Sound m) (hs : Step b m m') : EndsFirst m' := by
  cases hs with
  | run hs => exact h.of_shape (hv.shape hs)
  | cancel => exact ⟨by simpa using h.loops, by simpa using h.ordered⟩

end Machine

end Swinst.TaskList
