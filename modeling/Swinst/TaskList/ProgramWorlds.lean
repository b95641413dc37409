import Swinst.TaskList.ProgramRuns
import Swinst.TaskList.StartOrder

/-! What the functions of a task list do to the world in every run of the machine, cancelled or not.
The world changes only as the steps of the functions do; and a task of the list starts only in the
world that the tasks before it leave when nobody interferes. -/

namespace Swinst.TaskList

variable {V E σ : Type}

namespace Prog

/-- Every piece of code in the function takes the world along `R`. -/
def Steps (R : σ → σ → Prop) : Prog V E σ → Prop
  | ret _ => True
  | raise _ => True
  | step f k => ∀ w, R w (f w) ∧ (k w).Steps R
  | subtask _ _ body k => body.Steps R ∧ ∀ r, (k r).Steps R
  | finish k => k.Steps R

variable {R : σ → σ → Prop}

theorem Steps.bind {p : Prog V E σ} {g : Option V → Prog V E σ} (h : p.Steps R)
    (hg : ∀ v, (g v).Steps R) : (p.bind g).Steps R := by
  induction p with
  | ret v => exact hg v
  | raise => trivial
  | step f k ih => exact fun w => ⟨(h w).1, ih w (h w).2⟩
  | subtask name required body k _ ih => exact ⟨h.1, fun r => ih r (h.2 r)⟩
  | finish k ih => exact ih h

theorem Steps.code {α : Type} {f : σ → Except E α × σ} {k : α → Prog V E σ}
    (hf : ∀ w, R w (f w).2) (hk : ∀ a, (k a).Steps R) : (code f k).Steps R := by
  intro w
  refine ⟨hf w, ?_⟩
  dsimp only
  cases (f w).1 with
  | ok a => exact hk a
  | error e => trivial

theorem Steps.read {k : σ → Prog V E σ} (hR : ∀ w, R w w) (hk : ∀ w, (k w).Steps R) :
    (Prog.read k).Steps R := fun w => ⟨hR w, hk w⟩

theorem Steps.update {f : σ → σ} {k : Prog V E σ} (hf : ∀ w, R w (f w)) (hk : k.Steps R) :
    (Prog.update f k).Steps R := fun w => ⟨hf w, hk⟩

/-- So does its evaluation. -/
theorem Steps.eval {p : Prog V E σ} (h : p.Steps R) (hrefl : ∀ w, R w w)
    (htrans : ∀ {w w' w''}, R w w' → R w' w'' → R w w'') (own active : Bool) (w : σ) :
    R w (p.eval own active w).world := by
  induction p generalizing own active w with
  | ret => exact hrefl w
  | raise => exact hrefl w
  | step f k ih => exact htrans (h w).1 (ih w (h w).2 ..)
  | subtask name required body k ihb ihk =>
    simp only [Prog.eval]
    split
    · exact htrans (ihb h.1 ..) (ihk _ (h.2 _) ..)
    · exact ihk _ (h.2 _) ..
  | finish k ih => exact ih h ..

/-- The function ends in `P`, whatever its subtasks return, and whatever they do to the world along
`R`. -/
def EndsIn (R : σ → σ → Prop) (P : Except E (Option V) → Prop) : Prog V E σ → σ → Prop
  | ret v, _ => P (.ok v)
  | raise e, _ => P (.error e)
  | step f k, w => (k w).EndsIn R P (f w)
  | subtask _ _ _ k, w => ∀ v w', R w w' → (k v).EndsIn R P w'
  | finish k, w => k.EndsIn R P w

theorem EndsIn.code {α : Type} {P : Except E (Option V) → Prop} {f : σ → Except E α × σ}
    {k : α → Prog V E σ} {w w' : σ} {a : α} (hf : f w = (.ok a, w')) (h : (k a).EndsIn R P w') :
    (code f k).EndsIn R P w := by
  simpa only [Prog.code, EndsIn, hf] using h

/-- Every subtask of the function takes the world along `R`. -/
def Calls (R : σ → σ → Prop) : Prog V E σ → Prop
  | ret _ => True
  | raise _ => True
  | step _ k => ∀ w, (k w).Calls R
  | subtask _ _ body k => body.Steps R ∧ ∀ r, (k r).Calls R
  | finish k => k.Calls R

theorem Calls.code {α : Type} (f : σ → Except E α × σ) {k : α → Prog V E σ}
    (hk : ∀ a, (k a).Calls R) : (code f k).Calls R := by
  intro w
  dsimp only
  cases (f w).1 with
  | ok a => exact hk a
  | error e => trivial

/-- The evaluation is one of the ways in which the function can end. -/
theorem EndsIn.eval {P : Except E (Option V) → Prop} {p : Prog V E σ} {w : σ}
    (h : p.EndsIn R P w) (hp : p.Calls R) (hrefl : ∀ w, R w w)
    (htrans : ∀ {w w' w''}, R w w' → R w' w'' → R w w'') (own active : Bool) :
    P (p.eval own active w).result := by
  induction p generalizing own active w with
  | ret => exact h
  | raise => exact h
  | step f k ih => exact ih w h (hp w) ..
  | subtask name required body k _ ih =>
    simp only [Prog.eval]
    split
    · exact ih _ (h _ _ (hp.1.eval hrefl htrans true true w)) (hp.2 _) ..
    · exact ih _ (h _ _ (hrefl w)) (hp.2 _) ..
  | finish k ih => exact ih h hp ..

end Prog

/-- A function whose code stays within `R`, wherever it stands. -/
def ProgControl.Steps (R : σ → σ → Prop) : ProgControl V E σ → Prop
  | .run p => p.Steps R
  | .calling _ k => ∀ r, (k r).Steps R

def Frame.Steps (R : σ → σ → Prop) : Frame V (ProgControl V E σ) → Prop
  | .run => True
  | .body _ .tasklist => True
  | .body _ (.ready c) => c.Steps R
  | .body _ (.waiting k) => ∀ ans, (k ans).Steps R
  | .subtasks .. => True

/-- Every function in the tree stays within `R`. -/
def TaskTree.Steps (R : σ → σ → Prop) (t : TaskTree (Prog V E σ) V E) : Prop :=
  ∀ p a f, t.get? p = some a → a.associatedFunction = .code f → f.Steps R

variable {R : σ → σ → Prop}

theorem TaskTree.Steps.modify {t : TaskTree (Prog V E σ) V E} (h : TaskTree.Steps R t) (p : Path)
    {f : Task (Prog V E σ) V E → Task (Prog V E σ) V E}
    (hf : ∀ a, (f a).associatedFunction = a.associatedFunction) :
    TaskTree.Steps R (t.modify p f) := by
  intro q a g hq hg
  rw [RoseTree.get?_modify] at hq
  split at hq
  · obtain ⟨a', ha', rfl⟩ := Option.map_eq_some_iff.mp hq
    exact h q a' g ha' ((hf a').symm.trans hg)
  · exact h q a g hq hg

theorem TaskTree.Steps.addChild {t : TaskTree (Prog V E σ) V E} (h : TaskTree.Steps R t) {p : Path}
    (hp : (t.get? p).isSome) {c : TaskTree (Prog V E σ) V E} (hc : TaskTree.Steps R c) :
    TaskTree.Steps R (t.addChild p c) := by
  intro q a g hq hg
  rcases RoseTree.get?_addChild_cases hp hq with hq | ⟨r, -, hr⟩
  · exact h q a g hq hg
  · exact hc r a g hr hg

theorem TaskTree.steps_node {body : Prog V E σ} (hb : body.Steps R) (name : String)
    (required : Bool) : TaskTree.Steps R (SpecTree.init
      (.node { associatedFunction := .code body, name, isRequired := required } []) :
        TaskTree (Prog V E σ) V E) := by
  intro q a g hq hg
  cases q using List.reverseRecOn with
  | nil =>
    obtain rfl := Option.some.inj hq
    cases hg
    exact hb
  | append_singleton r i =>
    rw [RoseTree.get?, RoseTree.subtree?_concat] at hq
    simp [SpecTree.init] at hq

namespace Machine

/-- All functions of the tasks in the tree, and all running ones, stay within `R`. -/
structure Steps (R : σ → σ → Prop) (m : Machine (Prog V E σ) V E (ProgControl V E σ) σ) : Prop where
  tree : TaskTree.Steps R m.tree
  stack : ∀ f ∈ m.stack, f.Steps R

theorem Steps.cancel {m : Machine (Prog V E σ) V E (ProgControl V E σ) σ} (h : Steps R m) :
    Steps R m.cancel := ⟨h.tree.modify [] fun _ => rfl, h.stack⟩

theorem Steps.deliver {st : List (Frame V (ProgControl V E σ))} (h : ∀ f ∈ st, f.Steps R)
    (ans : Answer V) : ∀ f ∈ Machine.deliver ans st, f.Steps R := by
  unfold Machine.deliver
  split
  · rw [List.forall_mem_cons] at h ⊢
    exact ⟨h.1 ans, h.2⟩
  · exact h

variable (errText : E → String)

/-- The call of a task, accepted or refused. -/
theorem Steps.enterOr {m r : Machine (Prog V E σ) V E (ProgControl V E σ) σ} (h : Steps R m)
    (hr : Steps R r) (hw : r.world = m.world) (p : Path) (args : List V) :
    Steps R (enterOr (progBehaviour errText) m p args r) ∧
      (enterOr (progBehaviour errText) m p args r).world = m.world := by
  unfold Machine.enterOr Machine.enter
  split
  · exact ⟨hr, hw⟩
  · next t ht =>
    split
    · exact ⟨hr, hw⟩
    · refine ⟨⟨h.tree.modify p fun _ => rfl, ?_⟩, rfl⟩
      refine List.forall_mem_cons.mpr ⟨?_, h.stack⟩
      cases hf : t.associatedFunction with
      | tasklist => trivial
      | code f => exact h.tree p t f ht hf

/-- A function that raises. -/
theorem Steps.functionRaised {m : Machine (Prog V E σ) V E (ProgControl V E σ) σ} {p : Path}
    {rest : List (Frame V (ProgControl V E σ))} (h : TaskTree.Steps R m.tree)
    (hrest : ∀ f ∈ rest, f.Steps R) (e : E) :
    Steps R (functionRaised (progBehaviour errText) m p e rest) ∧
      (functionRaised (progBehaviour errText) m p e rest).world = m.world := by
  have htree : TaskTree.Steps R (m.tree.modify p (.fail e)) := h.modify p fun _ => rfl
  unfold Machine.functionRaised
  dsimp only
  split
  · refine ⟨⟨?_, Steps.deliver hrest _⟩, rfl⟩
    have hroot := htree.modify [] (f := .setError e) fun _ => rfl
    exact hroot.modify [] (f := .setCancelled) fun _ => rfl
  · exact ⟨⟨htree.modify p fun _ => rfl, List.forall_mem_cons.mpr ⟨trivial, hrest⟩⟩, rfl⟩

theorem Steps.tree_finish {m : Machine (Prog V E σ) V E (ProgControl V E σ) σ}
    (h : TaskTree.Steps R m.tree) (p : Path) : TaskTree.Steps R (m.finish p).tree := by
  unfold Machine.finish
  split
  · exact h
  · exact h.modify p fun _ => rfl

/-- One action of a running function. -/
theorem Steps.act {m : Machine (Prog V E σ) V E (ProgControl V E σ) σ} {p : Path}
    {rest : List (Frame V (ProgControl V E σ))} {c : ProgControl V E σ} (h : TaskTree.Steps R m.tree)
    (hp : (m.tree.get? p).isSome) (hc : c.Steps R) (hrest : ∀ f ∈ rest, f.Steps R) :
    let m' := act (progBehaviour errText) { m with world := (c.next m.world).1 } p
      (c.next m.world).2.2 rest (c.next m.world).2.1
    Steps R m' ∧ (m'.world = m.world ∨ R m.world m'.world) := by
  match c, hc with
  | .run (.ret v), _ =>
    exact ⟨⟨h.modify p fun _ => rfl, List.forall_mem_cons.mpr ⟨trivial, hrest⟩⟩, .inl rfl⟩
  | .run (.raise e), _ =>
    obtain ⟨h', hw⟩ := Steps.functionRaised errText h hrest e
    exact ⟨h', .inl hw⟩
  | .run (.step f k), hc =>
    exact ⟨⟨h, List.forall_mem_cons.mpr ⟨(hc m.world).2, hrest⟩⟩, .inr (hc m.world).1⟩
  | .run (.subtask name required body k), hc =>
    refine ⟨⟨h.addChild hp (TaskTree.steps_node hc.1 name required), ?_⟩, .inl rfl⟩
    exact List.forall_mem_cons.mpr ⟨hc.2, hrest⟩
  | .run (.finish k), hc =>
    refine ⟨⟨Steps.tree_finish h p, List.forall_mem_cons.mpr ⟨hc, hrest⟩⟩, .inl ?_⟩
    exact world_finish m p
  | .calling i k, hc =>
    have hwait : ∀ f ∈ Frame.body p (.waiting (ProgControl.resume k)) :: rest, f.Steps R := by
      refine List.forall_mem_cons.mpr ⟨fun ans => ?_, hrest⟩
      cases ans <;> exact hc _
    have hrefused : ∀ f ∈ Frame.body p (.ready (.run (k none))) :: rest, f.Steps R :=
      List.forall_mem_cons.mpr ⟨hc none, hrest⟩
    obtain ⟨h', hw⟩ := Steps.enterOr errText
      (m := { m with stack := .body p (.waiting (.resume k)) :: rest })
      (r := { m with stack := .body p (.ready (.run (k none))) :: rest })
      ⟨h, hwait⟩ ⟨h, hrefused⟩ rfl (i :: p) []
    exact ⟨h', .inl hw⟩

/-- One turn of `_run_subtasks`. -/
theorem Steps.loop {m : Machine (Prog V E σ) V E (ProgControl V E σ) σ} {p : Path} {i : Nat}
    {caller : Caller} {rest : List (Frame V (ProgControl V E σ))} (h : TaskTree.Steps R m.tree)
    (hrest : ∀ f ∈ rest, f.Steps R) :
    Steps R (loop (progBehaviour errText) m p i caller rest) ∧
      (loop (progBehaviour errText) m p i caller rest).world = m.world := by
  have hloop : Steps R { m with stack := .subtasks p (i + 1) caller :: rest } :=
    ⟨h, List.forall_mem_cons.mpr ⟨trivial, hrest⟩⟩
  unfold Machine.loop
  split
  · exact Steps.enterOr errText hloop hloop rfl (i :: p) []
  · cases caller with
    | call => exact ⟨⟨Steps.tree_finish h p, Steps.deliver hrest _⟩, world_finish m p⟩
    | setProgress => exact ⟨⟨Steps.tree_finish h p, Steps.deliver hrest _⟩, world_finish m p⟩

variable {errText}

/-- One step of the thread changes the world along `R`, or not at all. -/
theorem Steps.thread {m m' : Machine (Prog V E σ) V E (ProgControl V E σ) σ} (h : Steps R m)
    (hsound : Sound m) (hs : m.step (progBehaviour errText) = some m') :
    Steps R m' ∧ (m'.world = m.world ∨ R m.world m'.world) := by
  match hst : m.stack with
  | [] => simp [Machine.step, hst] at hs
  | .run :: rest =>
    have hrest : ∀ f ∈ rest, f.Steps R := (List.forall_mem_cons.mp (hst ▸ h.stack)).2
    obtain ⟨h', hw⟩ := Steps.enterOr errText (m := { m with stack := rest })
      (r := { m with stack := rest }) ⟨h.tree, hrest⟩ ⟨h.tree, hrest⟩ rfl [] []
    simp only [Machine.step, hst] at hs
    obtain rfl := Option.some.inj hs
    exact ⟨h', .inl hw⟩
  | .body p .tasklist :: rest =>
    have hrest : ∀ f ∈ rest, f.Steps R := (List.forall_mem_cons.mp (hst ▸ h.stack)).2
    simp only [Machine.step, hst] at hs
    obtain rfl := Option.some.inj hs
    exact ⟨⟨h.tree.modify p fun _ => rfl, List.forall_mem_cons.mpr ⟨trivial, hrest⟩⟩, .inl rfl⟩
  | .body p (.ready q) :: rest =>
    obtain ⟨hq, hrest⟩ := List.forall_mem_cons.mp (hst ▸ h.stack)
    have hact := Steps.act errText
      (m := { m with stack := .body p (.ready q) :: rest }) h.tree (hsound.isSome_get? hst) hq hrest
    simp only [Machine.step, hst] at hs
    obtain rfl := Option.some.inj hs
    exact hact
  | .body p (.waiting k) :: rest => simp [Machine.step, hst] at hs
  | .subtasks p i caller :: rest =>
    have hrest : ∀ f ∈ rest, f.Steps R := (List.forall_mem_cons.mp (hst ▸ h.stack)).2
    have hloop : Steps R (Machine.loop (progBehaviour errText) m p i caller rest) ∧
        (Machine.loop (progBehaviour errText) m p i caller rest).world = m.world :=
      Steps.loop errText h.tree hrest
    obtain ⟨h', hw⟩ := hloop
    simp only [Machine.step, hst] at hs
    obtain rfl := Option.some.inj hs
    exact ⟨h', .inl hw⟩

/-- One step of a run, of the thread or the user. -/
theorem Steps.step {m m' : Machine (Prog V E σ) V E (ProgControl V E σ) σ} (h : Steps R m)
    (hsound : Sound m) (hs : Step (progBehaviour errText) m m') :
    Steps R m' ∧ (m'.world = m.world ∨ R m.world m'.world) := by
  match hs with
  | .run hs => exact h.thread hsound hs
  | .cancel => exact ⟨h.cancel, .inl rfl⟩

theorem Steps.init {name : String} {ts : List (ProgTask V E σ)} (h : ∀ t ∈ ts, t.prog.Steps R)
    (threaded : Bool) (w : σ) :
    Steps R (init name (ts.map ProgTask.spec) threaded w :
      Machine (Prog V E σ) V E (ProgControl V E σ) σ) := by
  refine ⟨fun q a f hq hf => ?_, by simp [Machine.init, Frame.Steps]⟩
  cases q using List.reverseRecOn with
  | nil =>
    obtain rfl := Option.some.inj hq
    cases hf
  | append_singleton r i =>
    rw [RoseTree.get?, RoseTree.subtree?_concat] at hq
    cases ht : ts[i]? with
    | none => simp [Machine.init, taskList, SpecTree.init, ht] at hq
    | some t =>
      have hq' : RoseTree.get? (SpecTree.init t.spec : TaskTree (Prog V E σ) V E) r = some a := by
        simpa [Machine.init, taskList, SpecTree.init, ht, RoseTree.get?] using hq
      exact TaskTree.steps_node (h t (List.mem_of_getElem? ht)) t.name t.required r a f hq' hf

/-- A run in which every step meets `ok`, a relation between the worlds before and after. -/
abbrev RunWhere (b : Behaviour F V E σ) (ok : σ → σ → Prop) :
    Machine F V E b.Q σ → Machine F V E b.Q σ → Prop :=
  Relation.ReflTransGen fun m m' => Step b m m' ∧ ok m.world m'.world

/-- What each step of the functions of a task list keeps, as far as `ok` lets it, holds in all its runs. -/
theorem run_invariant {name : String} {ts : List (ProgTask V E σ)} {threaded : Bool} {w : σ}
    {m : Machine (Prog V E σ) V E (ProgControl V E σ) σ} {ok : σ → σ → Prop}
    {I : Machine (Prog V E σ) V E (ProgControl V E σ) σ → Prop} (hts : ∀ t ∈ ts, t.prog.Steps R)
    (hI : ∀ n n', RunWhere (progBehaviour errText) ok (init name (ts.map ProgTask.spec) threaded w) n →
      Step (progBehaviour errText) n n' → ok n.world n'.world → n'.world = n.world ∨ R n.world n'.world →
      I n → I n')
    (h₀ : I (init name (ts.map ProgTask.spec) threaded w))
    (hrun : RunWhere (progBehaviour errText) ok (init name (ts.map ProgTask.spec) threaded w) m) : I m := by
  suffices h : Steps R m ∧ Sound m ∧ I m from h.2.2
  induction hrun with
  | refl => exact ⟨.init hts threaded w, .init name _ threaded w, h₀⟩
  | @tail m m' hrun hs ih =>
    obtain ⟨hsteps, hsound, hi⟩ := ih
    obtain ⟨hsteps', hw'⟩ := hsteps.step hsound hs.1
    exact ⟨hsteps', hsound.step hs.1, hI m m' hrun hs.1 hs.2 hw' hi⟩

/-! ## The world in which a task starts -/

/-- Until the root has left `ACTIVE`, only the thread has acted. -/
theorem thread_or_left {b : Behaviour F V E σ} {m₀ m : Machine F V E b.Q σ} (hv : Sound m₀)
    (hr : Run b m₀ m) : Thread b m₀ m ∨ RootLeft m := by
  induction hr with
  | refl => exact .inl .refl
  | tail hr hs ih =>
    rcases ih with ht | hl
    · cases hs with
      | run hs => exact .inl (ht.tail hs)
      | cancel => exact .inr (.of_cancel _)
    · exact .inr (hl.step (hv.run hr) hs).1

theorem starts_subset {b : Behaviour F V E σ} {m m' : Machine F V E b.Q σ} (hv : Sound m)
    (hr : Run b m m') : m.starts ⊆ m'.starts := by
  induction hr with
  | refl => exact List.Subset.refl _
  | tail hr hs ih =>
    refine List.Subset.trans ih ?_
    cases hs with
    | run hs =>
      obtain ⟨_, _, -, ⟨-, hm, -⟩ | ⟨p, c, st, hst, -⟩⟩ := ((hv.run hr).shape hs).starts_or_quiet
      · exact hm ▸ List.Subset.refl _
      · exact hst.starts ▸ List.subset_cons_self ..
    | cancel => simp [starts]

theorem Starts.of_starts {b : Behaviour F V E σ} {m m' : Machine F V E b.Q σ} {p : Path}
    (hv : Sound m) (hs : Step b m m') (h : m'.starts = p :: m.starts) : Starts p m m' := by
  cases hs with
  | cancel => simp [Machine.starts] at h
  | run hs =>
    obtain ⟨_, _, -, ⟨-, hm, -⟩ | ⟨q, c, st, hst, -⟩⟩ := (hv.shape hs).starts_or_quiet
    · rw [hm] at h
      exact (List.cons_ne_self _ _ h.symm).elim
    · have hq := h.symm.trans hst.starts
      obtain rfl : p = q := (List.cons.inj hq).1
      exact hst

/-- Two points of the thread, one of which starts a task that is still inactive at the other. -/
theorem Thread.eq_of_starts {b : Behaviour F V E σ} {m₀ m m' n : Machine F V E b.Q σ} {p : Path}
    (hv : Sound m₀) (hm : Thread b m₀ m) (hn : Thread b m₀ n) (hs : m.step b = some m')
    (hst : Starts p m m') (hp : n.tree.status? p = some .inactive) : Thread b n m := by
  have hdet : Relator.RightUnique fun m m' : Machine F V E b.Q σ => m.step b = some m' :=
    fun _ _ _ h h' => Option.some.inj (h.symm.trans h')
  rcases Relation.ReflTransGen.total_of_right_unique hdet hm hn with hmn | hnm
  · rcases hmn.cases_head with rfl | ⟨m'', hs', hmn⟩
    · exact .refl
    · -- the task would be started before `n`
      obtain rfl := Option.some.inj (hs.symm.trans hs')
      have hmem : p ∈ n.starts := starts_subset ((hv.run (Thread.run hm)).step (.run hs)) (Thread.run hmn)
        (hst.starts ▸ List.mem_cons_self)
      obtain ⟨s, hs₁, hs₂⟩ := (hv.run (Thread.run hn)).started p hmem
      exact (hs₂ (Option.some.inj (hs₁.symm.trans hp))).elim
  · exact hnm

theorem AtTask.inactive {m : Machine (Prog V E σ) V E (ProgControl V E σ) σ} {t : ProgTask V E σ}
    (h : AtTask (t :: ts) i active m) : m.tree.status? [i] = some .inactive :=
  congrArg (Option.map Task.status) (h.task (j := 0) rfl).1

/-- At a task of the list, the thread starts it unless the root has left `ACTIVE`. -/
theorem AtTask.starts {m m' : Machine (Prog V E σ) V E (ProgControl V E σ) σ} {t : ProgTask V E σ}
    (hv : Sound m) (h : AtTask (t :: ts) i true m) (hs : m.step (progBehaviour errText) = some m') :
    Starts [i] m m' := by
  have hact : TaskTree.isActive m.tree [] = true := TaskTree.isActive_nil_of_root h.root
  have hi : m.tree.status? [i] = some .inactive := h.inactive
  have hlt : i < m.tree.arity [] := by
    rw [h.arity, List.length_cons]
    omega
  cases hv.shape hs with
  | looped hst _ hstart =>
    cases hst.symm.trans h.stack
    exact hstart
  | skipped hst _ _ hor =>
    cases hst.symm.trans h.stack
    rcases hor with hne | hne
    · exact (hne hi).elim
    · exact (Bool.false_ne_true (hne.symm.trans hact)).elim
  | returned hst _ hle =>
    cases hst.symm.trans h.stack
    omega
  | acted hst => cases hst.symm.trans h.stack
  | called hst => cases hst.symm.trans h.stack
  | filled hst => cases hst.symm.trans h.stack
  | ended hst => cases hst.symm.trans h.stack
  | failed hst => cases hst.symm.trans h.stack
  | progressed hst => cases hst.symm.trans h.stack
  | ran hst => cases hst.symm.trans h.stack
  | refused hst => cases hst.symm.trans h.stack

/-- In every run, the thread is at the task of a list that starts, after the tasks before it. -/
theorem at_start {name : String} {ts ts' : List (ProgTask V E σ)} {t : ProgTask V E σ}
    {threaded : Bool} {w : σ} {m m' : Machine (Prog V E σ) V E (ProgControl V E σ) σ}
    (hrun : Run (progBehaviour errText)
      (init name ((ts ++ t :: ts').map ProgTask.spec) threaded w) m)
    (hstep : Step (progBehaviour errText) m m') (hstart : m'.starts = [ts.length] :: m.starts) :
    AtTask (t :: ts') ts.length true m ∧ evalTasks ts true w = (true, m.world) := by
  have hv := Sound.init (V := V) (E := E) (Q := ProgControl V E σ) name
    ((ts ++ t :: ts').map ProgTask.spec) threaded w
  have hst : Starts [ts.length] m m' := .of_starts (hv.run hrun) hstep hstart
  obtain hthread | hleft := thread_or_left (b := progBehaviour errText) hv hrun
  swap
  · exact (hleft.not_starts hst).elim
  obtain ⟨m₀, hm₀, h₀, hw₀⟩ := init_thread errText name (ts ++ t :: ts') threaded w
  obtain ⟨n, hn, hat, hwn⟩ := h₀.threads
  rw [hw₀] at hat hwn
  have hvn : Sound n := hv.run (Thread.run (hm₀.trans hn))
  rw [Nat.zero_add] at hat
  match hstep with
  | .cancel =>
    have hmarks : m.marks = .started [ts.length] :: m.marks := (marks_cancel m).symm.trans hst.marks
    simp at hmarks
  | .run hs =>
    have hnm := Thread.eq_of_starts hv hthread (hm₀.trans hn) hs hst hat.inactive
    cases hactive : (evalTasks ts true w).1 with
    | false =>
      have hleft : RootLeft n := ⟨.cancelled, by
        rw [TaskTree.status?_nil]
        exact congrArg (fun r => some r.1) (hactive ▸ hat.root), by decide, by decide⟩
      exact ((hleft.run hvn (Thread.run hnm)).1.not_starts hst).elim
    | true =>
      rw [hactive] at hat
      rcases hnm.cases_head with rfl | ⟨n', hs', hnm⟩
      · exact ⟨hat, Prod.ext hactive hwn.symm⟩
      · -- the task would be started a second time
        have hst' := hat.starts hvn hs'
        have hmem : [ts.length] ∈ m.starts := starts_subset (hvn.step (.run hs')) (Thread.run hnm)
          (hst'.starts ▸ List.mem_cons_self)
        obtain ⟨s, hs₁, hs₂⟩ := (hv.run hrun).started _ hmem
        exact (hs₂ (Option.some.inj (hs₁.symm.trans hst.inactive))).elim

/-- In every run, a task of a list starts in the world that the tasks before it leave, and only if
they leave the root active. -/
theorem start_world {name : String} {ts ts' : List (ProgTask V E σ)} {t : ProgTask V E σ}
    {threaded : Bool} {w : σ} {m m' : Machine (Prog V E σ) V E (ProgControl V E σ) σ}
    (hrun : Run (progBehaviour errText)
      (init name ((ts ++ t :: ts').map ProgTask.spec) threaded w) m)
    (hstep : Step (progBehaviour errText) m m') (hstart : m'.starts = [ts.length] :: m.starts) :
    evalTasks ts true w = (true, m.world) := (at_start hrun hstep hstart).2

/-- And if they leave it active, the task does start. -/
theorem exists_start (errText : E → String) (name : String) (t : ProgTask V E σ)
    (ts' : List (ProgTask V E σ)) (threaded : Bool) {ts : List (ProgTask V E σ)} {w w' : σ}
    (h : evalTasks ts true w = (true, w')) :
    ∃ m m' : Machine (Prog V E σ) V E (ProgControl V E σ) σ,
      Run (progBehaviour errText)
        (init name ((ts ++ t :: ts').map ProgTask.spec) threaded w) m ∧
      Step (progBehaviour errText) m m' ∧ m'.starts = [ts.length] :: m.starts ∧ m.world = w' := by
  obtain ⟨m₀, hm₀, h₀, hw₀⟩ := init_thread errText name (ts ++ t :: ts') threaded w
  obtain ⟨m, hm, hat, hw⟩ := h₀.threads
  rw [hw₀, h] at hat hw
  rw [Nat.zero_add] at hat
  have hrun := Thread.run (hm₀.trans hm)
  have hstep := step_subtasks (b := progBehaviour errText) hat.stack
  have hv : Sound m := (Sound.init name _ threaded w).run hrun
  exact ⟨m, _, hrun, .run hstep, (hat.starts hv hstep).starts, hw⟩

end Machine

end Swinst.TaskList
