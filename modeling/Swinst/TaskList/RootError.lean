import Swinst.TaskList.Finals

/-! Which exception the root reports. Every required task that raises writes `error` of the root,
whatever is there already. -/

namespace Swinst.TaskList

open TaskTree

variable {F V E Q σ : Type}

namespace Machine

/-- The exception of a required task, if the event is that its function raised. -/
def requiredError (m : Machine F V E Q σ) : Event V E → Option E
  | .ended p (.error e) => if m.required p then some e else none
  | _ => none

/-- The exception information of the required task that raised last. -/
def lastError (m : Machine F V E Q σ) : Option E := m.trace.findSome? m.requiredError

/-- The exception information of the required task that raised first. -/
def firstError (m : Machine F V E Q σ) : Option E := m.trace.reverse.findSome? m.requiredError

theorem findSome?_congr {f g : α → Option β} {l : List α} (h : ∀ a ∈ l, f a = g a) :
    l.findSome? f = l.findSome? g := by
  induction l with
  | nil => rfl
  | cons a l ih =>
    rw [List.findSome?_cons, List.findSome?_cons, h a List.mem_cons_self,
      ih fun a ha => h a (List.mem_cons_of_mem _ ha)]

theorem lastError_eq (m : Machine F V E Q σ) : m.lastError = m.log.findSome? m.requiredError := by
  rw [lastError, log]
  induction m.trace with
  | nil => rfl
  | cons e es ih =>
    rw [List.findSome?_cons, ih, List.filter_cons]
    cases e <;> rfl

/-! ## A step does not change which tasks are required -/

section

variable {t : TaskTree F V E} {p q : Path}

theorem map_isRequired_modify {f : Task F V E → Task F V E} (hf : ∀ a, (f a).isRequired = a.isRequired) :
    ((t.modify p f).get? q).map (·.isRequired) = (t.get? q).map (·.isRequired) := by
  rw [RoseTree.get?_modify]
  split
  · rw [Option.map_map]
    exact congrArg (Option.map · _) (funext hf)
  · rfl

end

theorem map_isRequired_finish (m : Machine F V E Q σ) (p q : Path) :
    ((m.finish p).tree.get? q).map (·.isRequired) = (m.tree.get? q).map (·.isRequired) := by
  rw [tree_finish]
  split
  · rfl
  · exact map_isRequired_modify fun _ => rfl

theorem Move.map_isRequired {b : Behaviour F V E σ} {m m' : Machine F V E b.Q σ} (h : Move b m m')
    (hq : (m.tree.get? q).isSome) :
    (m'.tree.get? q).map (·.isRequired) = (m.tree.get? q).map (·.isRequired) := by
  cases h with
  | acted _ _ heff ht =>
    rw [ht]
    cases heff with
    | tau | refused | cancelled => rfl
    | addSubtask c =>
      obtain ⟨a, ha⟩ := Option.isSome_iff_exists.mp hq
      rw [ha, RoseTree.get?_addChild_old ha]
    | setSize | progress => exact map_isRequired_modify fun _ => rfl
    | finish => exact map_isRequired_finish ..
  | called _ _ _ he | looped _ _ he | ran _ he =>
    rw [he.tree]
    exact map_isRequired_modify fun _ => rfl
  | filled _ _ _ ht | ended _ _ ht =>
    rw [ht]
    exact map_isRequired_modify fun _ => rfl
  | failed _ _ _ ht =>
    rw [ht, map_isRequired_modify (f := .setResult none) fun _ => rfl]
    exact map_isRequired_modify fun _ => rfl
  | @aborted _ _ _ e _ _ _ _ _ ht =>
    rw [ht, map_isRequired_modify (f := .setCancelled) fun _ => rfl,
      map_isRequired_modify (f := .setError e) fun _ => rfl]
    exact map_isRequired_modify fun _ => rfl
  | skipped _ _ _ ht | refused _ _ ht => rw [ht]
  | returned _ _ ht | progressed _ _ ht =>
    rw [ht]
    exact map_isRequired_finish ..

theorem Move.required {b : Behaviour F V E σ} {m m' : Machine F V E b.Q σ} (h : Move b m m')
    (hq : (m.tree.get? q).isSome) : m'.required q = m.required q :=
  congrArg (·.getD true) (h.map_isRequired hq)

theorem Move.isSome_get? {b : Behaviour F V E σ} {m m' : Machine F V E b.Q σ} (h : Move b m m')
    (hq : (m.tree.get? q).isSome) : (m'.tree.get? q).isSome := by
  rw [← Option.isSome_map (f := (·.isRequired)), h.map_isRequired hq, Option.isSome_map]
  exact hq

/-! ## The error of the root -/

/-- Only a required task that raises changes the error of the root, and its start. -/
theorem error_modify {t : TaskTree F V E} {p : Path} {f : Task F V E → Task F V E}
    (hf : ∀ a, (f a).error = a.error ∨ p ≠ []) : (t.modify p f).value.error = t.value.error := by
  have h := RoseTree.get?_modify t p [] f
  rw [RoseTree.get?_nil, RoseTree.get?_nil] at h
  split at h
  · next hp =>
    rw [Option.some.inj h]
    exact (hf _).resolve_right fun hne => hne hp.symm
  · rw [Option.some.inj h]

theorem error_finish (m : Machine F V E Q σ) (p : Path) :
    (m.finish p).tree.value.error = m.tree.value.error := by
  rw [tree_finish]
  split
  · rfl
  · exact error_modify fun _ => .inl rfl

theorem error_addChild {t c : TaskTree F V E} {p : Path} :
    (t.addChild p c).value.error = t.value.error := by
  have h : (t.addChild p c).get? [] = some t.value := RoseTree.get?_addChild_old t.get?_nil
  rw [Option.some.inj ((RoseTree.get?_nil _).symm.trans h)]

/-- The error of the root is that of the required task that raised last. -/
structure RootError (m : Machine F V E Q σ) : Prop where
  known : ∀ {p o}, .ended p o ∈ m.log → (m.tree.get? p).isSome
  fresh : m.stack = [.run] → m.log = []
  error : m.tree.value.error = m.log.findSome? m.requiredError

namespace RootError

variable {b : Behaviour F V E σ} {m m' : Machine F V E b.Q σ}

theorem init (name : String) (tasks : List (SpecTree F)) (threaded : Bool) (w : σ) :
    RootError (Machine.init name tasks threaded w : Machine F V E b.Q σ) where
  known h := by simp [Machine.init, log] at h
  fresh _ := rfl
  error := rfl

theorem findSome?_requiredError (h : RootError m) (hm : Move b m m') :
    m.log.findSome? m'.requiredError = m.log.findSome? m.requiredError := by
  refine Machine.findSome?_congr fun e he => ?_
  cases e with
  | ended p o =>
    cases o with
    | error e => rw [requiredError, requiredError, hm.required (h.known he)]
    | ok => rfl
  | started | returned | attached | notified => rfl

/-- Events that are not the failure of a required task, and a root that keeps its error. -/
theorem of_move (h : RootError m) (hm : Move b m m') (hn : m'.stack ≠ [.run])
    (es : List (Event V E)) (hl : m'.log = es ++ m.log) (hes : ∀ e ∈ es, m'.requiredError e = none)
    (hknown : ∀ p o, .ended p o ∈ es → (m.tree.get? p).isSome)
    (herror : m'.tree.value.error = m.tree.value.error) : RootError m' where
  known {p o} he := by
    refine hm.isSome_get? ?_
    rw [hl] at he
    rcases List.mem_append.mp he with he | he
    · exact hknown p o he
    · exact h.known he
  fresh hr := (hn hr).elim
  error := by
    rw [herror, h.error, hl, List.findSome?_append, h.findSome?_requiredError hm,
      List.findSome?_eq_none_iff.mpr hes, Option.none_or]

theorem step (h : RootError m) (hv : Sound m) (hn : Nest m.stack) (hp : Phase n m)
    (hs : m.step b = some m') : RootError m' := by
  have hm := step_move hs
  have hm' := hm
  cases hm with
  | @acted p q w a k t ans rest hst hnext heff ht hst' hl =>
    refine h.of_move hm' (by simp [hst']) [] hl (by simp) (by simp) ?_
    rw [ht]
    cases heff with
    | tau | refused | cancelled => rfl
    | addSubtask => exact error_addChild
    | setSize | progress => exact error_modify fun _ => .inl rfl
    | finish => exact error_finish ..
  | called hst _ _ he | looped hst _ he =>
    obtain ⟨t, -, -, hst'⟩ := he.task
    refine h.of_move hm' (by simp [hst']) [_] he.log (by simp [requiredError]) (by simp) ?_
    rw [he.tree]
    exact error_modify fun _ => .inr (by simp)
  | filled hst _ _ ht hst' hl =>
    refine h.of_move hm' (by simp [hst']) [] hl (by simp) (by simp) ?_
    rw [ht]
    exact error_modify fun _ => .inl rfl
  | @ended p c v rest hst _ ht hst' hl =>
    refine h.of_move hm' (by simp [hst']) [_] hl (by simp [requiredError]) (fun q o he => ?_) ?_
    · obtain ⟨rfl, -⟩ : q = p ∧ o = .ok v := by simpa using he
      exact hv.isSome_get? hst
    · rw [ht]
      exact error_modify fun _ => .inl rfl
  | @failed p q w e k rest hst _ hr ht hst' hl =>
    have hget := hv.isSome_get? hst
    refine h.of_move hm' (by simp [hst']) [_] hl ?_ (fun q o he => ?_) ?_
    · simp [requiredError, hm'.required hget, hr]
    · obtain ⟨rfl, -⟩ : q = p ∧ o = .error e := by simpa using he
      exact hget
    · rw [ht, error_modify (f := .setResult none) fun _ => .inl rfl]
      exact error_modify fun _ => .inr (Undecided.ne_nil_of_ready hp hst)
  | @aborted p q w e k rest hst _ hr ht hst' hl =>
    have hget := hv.isSome_get? hst
    refine ⟨fun {q o} he => ?_, fun hrun => ?_, ?_⟩
    · refine hm'.isSome_get? ?_
      rw [hl] at he
      rcases List.mem_cons.mp (List.mem_of_ne_of_mem (by simp) he) with he | he
      · obtain ⟨rfl, -⟩ : q = p ∧ o = .error e := by simpa using he
        exact hget
      · exact h.known he
    · exact (deliver_ne_run (hst ▸ hn) _ (hst' ▸ hrun)).elim
    · rw [hl, List.findSome?_cons, List.findSome?_cons]
      simp only [requiredError, hm'.required hget, hr, if_true]
      rw [ht, error_modify (f := .setCancelled) fun _ => .inl rfl, value_modify_nil]
      rfl
  | skipped hst _ _ ht hst' hl =>
    exact h.of_move hm' (by simp [hst']) [] hl (by simp) (by simp) (by rw [ht])
  | returned hst _ ht hst' hl =>
    refine h.of_move hm' (hst' ▸ deliver_ne_run (hst ▸ hn) _) [_] hl (by simp [requiredError])
      (by simp) ?_
    rw [ht, error_finish]
  | progressed hst _ ht hst' hl =>
    refine h.of_move hm' (hst' ▸ deliver_ne_run (hst ▸ hn) _) [] hl (by simp) (by simp) ?_
    rw [ht, error_finish]
  | @ran rest hst he =>
    obtain ⟨t, -, -, hst'⟩ := he.task
    obtain rfl : rest = [] := (hst ▸ hn : Nest _).below_run
    have hlog : m.log = [] := h.fresh hst
    refine ⟨fun {q o} hq => ?_, fun hr => ?_, ?_⟩
    · rw [he.log, hlog] at hq
      simp at hq
    · simp [hst'] at hr
    · rw [he.log, hlog, he.tree, value_modify_nil]
      rfl
  | @refused rest hst _ ht hst' hl =>
    obtain rfl : rest = [] := (hst ▸ hn : Nest _).below_run
    exact h.of_move hm' (by simp [hst']) [] hl (by simp) (by simp) (by rw [ht])

theorem cancel (h : RootError m) : RootError m.cancel := by
  have hmap (q : Path) : (m.cancel.tree.get? q).map (·.isRequired) =
      (m.tree.get? q).map (·.isRequired) := map_isRequired_modify fun _ => rfl
  have hreq (q : Path) : m.cancel.required q = m.required q := congrArg (·.getD true) (hmap q)
  refine ⟨fun {p o} he => ?_, fun hr => ?_, ?_⟩
  · rw [← Option.isSome_map (f := (·.isRequired)), hmap, Option.isSome_map]
    exact h.known (by simpa using he)
  · simpa using h.fresh hr
  · rw [log_cancel, show m.cancel.tree.value.error = m.tree.value.error from
      error_modify fun _ => .inl rfl, h.error]
    refine Machine.findSome?_congr fun e _ => ?_
    unfold requiredError
    simp only [hreq]

theorem run {name : String} {tasks : List (SpecTree F)} {threaded : Bool} {w : σ}
    (hr : Run b (Machine.init name tasks threaded w) m) : RootError m :=
  Run.invariant (.init ..) step cancel hr

end RootError

/-- In every run the error of the root is that of the required task that raised last. -/
theorem root_error_last {b : Behaviour F V E σ} {name : String} {tasks : List (SpecTree F)}
    {threaded : Bool} {w : σ} {m : Machine F V E b.Q σ}
    (hr : Run b (Machine.init name tasks threaded w) m) : m.tree.value.error = m.lastError := by
  rw [lastError_eq]
  exact (RootError.run hr).error

/-- The function `false` calls a subtask, goes on with its result `None` and raises `2`; the subtask
has raised `1`. -/
private def nestedFailure : Behaviour Bool Nat Nat Unit :=
  .ofScript fun f =>
    if f then [.raise 1]
    else [.addSubtask (.node { associatedFunction := .code true, name := "sub" } []), .call 0 [],
      .raise 2]

private def nestedRun : Machine Bool Nat Nat nestedFailure.Q Unit :=
  (Machine.init "list" [.node { associatedFunction := .code false, name := "task" } []] false () :
    Machine Bool Nat Nat nestedFailure.Q Unit).steps nestedFailure 8

theorem root_error_last_nested : nestedRun.tree.value.error = nestedRun.lastError :=
  root_error_last (run_steps nestedFailure 8 _)

/-- The exception of the enclosing function replaces the one of its subtask. -/
theorem root_error_not_first :
    nestedRun.stack = [] ∧ nestedRun.firstError = some 1 ∧ nestedRun.tree.value.error = some 2 :=
  ⟨rfl, by decide, by decide⟩

end Machine

end Swinst.TaskList
