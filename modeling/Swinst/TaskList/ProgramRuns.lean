import Swinst.TaskList.Moves
import Swinst.TaskList.Program

/-! The evaluation of functions in direct style is what the machine does: run as tasks of a task
list, they take it through the same worlds. -/

namespace Swinst.TaskList

open TaskTree

variable {V E σ : Type}

/-- Where a function in direct style stands. -/
inductive ProgControl (V E σ : Type) where
  | run (p : Prog V E σ)
  /-- about to call the subtask that it has just added -/
  | calling (i : Nat) (k : Option V → Prog V E σ)

/-- How it goes on after the call. -/
def ProgControl.resume (k : Option V → Prog V E σ) : Answer V → ProgControl V E σ
  | .result r => .run (k r)
  | _ => .run (k none)

/-- One action of such a function. -/
def ProgControl.next : ProgControl V E σ → σ →
    σ × Act (Prog V E σ) V E × (Answer V → ProgControl V E σ)
  | .run (.ret v), w => (w, .ret v, fun _ => .run (.ret v))
  | .run (.raise e), w => (w, .raise e, fun _ => .run (.raise e))
  | .run (.step f k), w => (f w, .tau, fun _ => .run (k w))
  | .run (.subtask name required body k), w =>
    (w, .addSubtask (.node { associatedFunction := .code body, name, isRequired := required } []),
      fun
      | .index i => .calling i k
      | _ => .run (k none))
  | .run (.finish k), w => (w, .finish, fun _ => .run k)
  | .calling i k, w => (w, .call i [], .resume k)

/-- The behaviour of functions that are given in direct style. -/
def progBehaviour (errText : E → String) : Behaviour (Prog V E σ) V E σ where
  Q := ProgControl V E σ
  start p _ := .run p
  next := ProgControl.next
  errText := errText

/-- The thread alone, without the user. -/
abbrev Thread (b : Behaviour F V E σ) : Machine F V E b.Q σ → Machine F V E b.Q σ → Prop :=
  Relation.ReflTransGen fun m m' => m.step b = some m'

theorem Thread.run {b : Behaviour F V E σ} {m m' : Machine F V E b.Q σ} (h : Thread b m m') :
    Run b m m' :=
  Relation.ReflTransGen.mono (fun _ _ => .run) _ _ h

/-! ## Trees on the way -/

namespace TaskTree

theorem isActive_congr {t t' : TaskTree F V E} (h : ∀ q, t.status? q = t'.status? q) (p : Path) :
    isActive t p = isActive t' p := by
  refine Bool.eq_iff_iff.mpr ?_
  simp only [isActive_iff, h]

theorem isActive_of_status_ne {t : TaskTree F V E} {p : Path}
    (h : t.status? p ≠ some .active) : isActive t p = false := by
  cases ha : isActive t p with
  | false => rfl
  | true => exact (h (isActive_self ha)).elim

/-- The status of the root, and whether it has an error, as long as the user does not cancel. -/
def rootState (active : Bool) : Status × Bool :=
  if active then (.active, false) else (.cancelled, true)

def root (t : TaskTree F V E) : Status × Bool := (t.value.status, t.value.error.isSome)

theorem root_congr {t t' : TaskTree F V E} (h : t'.get? [] = t.get? []) : t'.root = t.root := by
  rw [RoseTree.get?_nil, RoseTree.get?_nil, Option.some.injEq] at h
  rw [root, root, h]

theorem root_modify {t : TaskTree F V E} {p : Path} (hp : p ≠ []) (f : Task F V E → Task F V E) :
    root (t.modify p f) = t.root := root_congr (RoseTree.get?_modify_of_ne hp.symm f)

theorem root_addChild (t c : TaskTree F V E) (p : Path) : root (t.addChild p c) = t.root :=
  root_congr (RoseTree.get?_addChild_of_not_fresh fun hs => by simpa using List.suffix_nil.mp hs)

/-- The function of the task at `p` is running: `own` and `active` tell whether this task and the
root are active. Its subtasks have been called, or are refused. -/
structure Live (t : TaskTree F V E) (p : Path) (own active : Bool) : Prop where
  self : t.status? p = some (if own then .active else .completed)
  root : t.root = rootState active
  above : ∀ r, r <:+ p → r ≠ p → r ≠ [] → t.status? r = some .active
  settled : ∀ i, i < t.arity p → t.status? (i :: p) ≠ some .inactive ∨ (own && active) = false

theorem Live.status_root {t : TaskTree F V E} (h : Live t p own active) :
    t.status? [] = some (if active then .active else .cancelled) := by
  rw [status?_nil, show t.value.status = _ from congrArg Prod.fst h.root]
  cases active <;> rfl

theorem isActive_nil_of_root {t : TaskTree F V E} (h : t.root = rootState active) :
    TaskTree.isActive t [] = active := by
  rw [TaskTree.isActive, status?_nil, show t.value.status = _ from congrArg Prod.fst h]
  cases active <;> rfl

theorem Live.isActive {t : TaskTree F V E} (h : Live t p own active) :
    isActive t p = (own && active) := by
  have hiff : TaskTree.isActive t p ↔ (own && active) = true := by
    rw [isActive_iff, Bool.and_eq_true]
    constructor
    · intro ha
      have hs := h.self.symm.trans (ha p (List.suffix_refl _))
      have hr := h.status_root.symm.trans (ha [] List.nil_suffix)
      constructor
      · cases own <;> simp_all
      · cases active <;> simp_all
    · rintro ⟨rfl, rfl⟩ r hr
      by_cases hrp : r = p
      · exact hrp ▸ h.self
      by_cases hr0 : r = []
      · exact hr0 ▸ h.status_root
      · exact h.above r hr hrp hr0
  exact Bool.eq_iff_iff.mpr hiff

/-- From `t` to `t'` nothing happened outside the task at `p`, except to the status and the error
of the root. -/
structure Framed (p : Path) (t t' : TaskTree F V E) : Prop where
  get : ∀ q, ¬ p <:+ q → q ≠ [] → t'.get? q = t.get? q
  arity : ∀ q, ¬ p <:+ q → t'.arity q = t.arity q
  spec : ∀ {q a}, t.get? q = some a → ∃ a', t'.get? q = some a' ∧ a'.toTaskSpec = a.toTaskSpec

namespace Framed

theorem refl {t : TaskTree F V E} : Framed p t t :=
  ⟨fun _ _ _ => rfl, fun _ _ => rfl, fun h => ⟨_, h, rfl⟩⟩

theorem trans {t t' t'' : TaskTree F V E} (h : Framed p t t') (h' : Framed p t' t'') :
    Framed p t t'' where
  get _ hq hr := (h'.get _ hq hr).trans (h.get _ hq hr)
  arity _ hq := (h'.arity _ hq).trans (h.arity _ hq)
  spec hq := by
    obtain ⟨a', hq', ha'⟩ := h.spec hq
    obtain ⟨a'', hq'', ha''⟩ := h'.spec hq'
    exact ⟨a'', hq'', ha''.trans ha'⟩

theorem of_child {t t' : TaskTree F V E} (h : Framed (i :: p) t t') : Framed p t t' where
  get _ hq := h.get _ fun hs => hq ((List.suffix_cons ..).trans hs)
  arity _ hq := h.arity _ fun hs => hq ((List.suffix_cons ..).trans hs)
  spec := h.spec

theorem modify (t : TaskTree F V E) (f : Task F V E → Task F V E)
    (hf : ∀ a, (f a).toTaskSpec = a.toTaskSpec) (hq : q = p ∨ q = []) :
    Framed p t (t.modify q f) where
  get r hr hn := by
    refine RoseTree.get?_modify_of_ne ?_ f
    rintro rfl
    rcases hq with rfl | rfl
    · exact hr (List.suffix_refl _)
    · exact hn rfl
  arity _ _ := RoseTree.arity_modify ..
  spec {r a} hr := by
    rw [RoseTree.get?_modify]
    split
    · exact ⟨f a, by simp_all, hf a⟩
    · exact ⟨a, hr, rfl⟩

theorem addChild (t c : TaskTree F V E) : Framed p t (t.addChild p c) where
  get _ hq _ := RoseTree.get?_addChild_of_not_fresh fun hs => hq ((List.suffix_cons ..).trans hs)
  arity _ hq := RoseTree.arity_addChild_of_not_suffix hq
  spec hq := ⟨_, RoseTree.get?_addChild_old hq, rfl⟩

end Framed

end TaskTree

namespace TaskTree

theorem not_cons_suffix {r p : Path} {i : Nat} (h : r <:+ p) : ¬ (i :: p) <:+ r := fun hs => by
  have hlen := (hs.trans h).length_le
  rw [List.length_cons] at hlen
  omega

theorem Framed.status {t t' : TaskTree F V E} (h : Framed (i :: p) t t') (hr : r <:+ p)
    (hn : r ≠ []) : t'.status? r = t.status? r := by
  rw [status?, h.get r (not_cons_suffix hr) hn, status?]

/-- After `add_subtask` the function is where it was. -/
theorem status?_addChild_of_suffix (t c : TaskTree F V E) (hr : r <:+ p) :
    status? (t.addChild p c) r = t.status? r := by
  rw [status?, RoseTree.get?_addChild_of_not_fresh (not_cons_suffix hr), status?]

theorem isActive_addChild (t c : TaskTree F V E) (p : Path) : isActive (t.addChild p c) p = isActive t p := by
  refine Bool.eq_iff_iff.mpr ?_
  rw [isActive_iff, isActive_iff]
  exact forall₂_congr fun r hr => by rw [status?_addChild_of_suffix _ _ hr]

namespace Live

variable {t t' c : TaskTree F V E} {a : Task F V E}

/-- The task at `p` is called; its parent is active. -/
theorem start (ht : t.get? p = some a) (hp : p ≠ []) (hroot : t.root = rootState true)
    (habove : ∀ r, r <:+ p → r ≠ p → r ≠ [] → t.status? r = some .active) (harity : t.arity p = 0) :
    Live (t.modify p .activate) p true true where
  self := by
    rw [status?_modify, if_pos rfl, ht]
    rfl
  root := (root_modify hp _).trans hroot
  above r hr hrp hn := by
    rw [status?_modify, if_neg hrp]
    exact habove r hr hrp hn
  settled i hi := by
    rw [RoseTree.arity_modify, harity] at hi
    exact absurd hi (Nat.not_lt_zero i)

/-- Its new subtask will be refused. -/
theorem addChild (h : Live t p own active) (hoa : (own && active) = false) (c : TaskTree F V E) :
    Live (t.addChild p c) p own active where
  self := (status?_addChild_of_suffix _ _ (List.suffix_refl _)).trans h.self
  root := (root_addChild ..).trans h.root
  above r hr hrp hn := (status?_addChild_of_suffix _ _ hr).trans (h.above r hr hrp hn)
  settled _ _ := .inr hoa

/-- Its new subtask is called. -/
theorem startChild (h : Live t p true true) (hself : (t.get? p).isSome) (hc : ∀ i, c.get? [i] = none) :
    Live ((t.addChild p c).modify (t.arity p :: p) .activate) (t.arity p :: p) true true := by
  have hnew (r : Path) : (t.addChild p c).get? (r ++ t.arity p :: p) = c.get? r :=
    RoseTree.get?_addChild_new hself r
  refine start (a := c.value) (hnew []) (List.cons_ne_nil _ _) ?_ (fun r hr hrc hn => ?_) ?_
  · exact (root_addChild ..).trans h.root
  · have hrp := (List.suffix_cons_iff.mp hr).resolve_left hrc
    rw [status?_addChild_of_suffix _ _ hrp]
    by_cases hself : r = p
    · exact hself ▸ h.self
    · exact h.above r hrp hself hn
  · refine Nat.eq_zero_of_not_pos fun hpos => ?_
    have hsome : (c.get? [0]).isSome := hnew [0] ▸ RoseTree.isSome_get?_cons.mpr hpos
    rw [hc 0] at hsome
    cases hsome

/-- The call of its new subtask is over. -/
theorem endChild (h : Live t p true true) (hp : p ≠ []) (hself : (t.get? p).isSome)
    (hf : Framed (t.arity p :: p) (t.addChild p c) t')
    (hchild : t'.status? (t.arity p :: p) ≠ some .inactive) (hroot : t'.root = rootState active) :
    Live t' p true active := by
  have hst (r : Path) (hr : r <:+ p) (hn : r ≠ []) : t'.status? r = t.status? r :=
    (hf.status hr hn).trans (status?_addChild_of_suffix _ _ hr)
  refine ⟨(hst p (List.suffix_refl _) hp).trans h.self, hroot,
    fun r hr hrp hn => (hst r hr hn).trans (h.above r hr hrp hn), fun j hj => .inl ?_⟩
  by_cases hji : j = t.arity p
  · exact hji ▸ hchild
  -- an old subtask
  have hns : ¬ (t.arity p :: p) <:+ (j :: p) := fun hs =>
    hji (List.cons.inj (hs.eq_of_length rfl)).1.symm
  have hj' : j < t.arity p := by
    rw [hf.arity p (not_cons_suffix (List.suffix_refl _)), RoseTree.arity_addChild_self hself] at hj
    exact Nat.lt_of_le_of_ne (Nat.le_of_lt_succ hj) hji
  have hold : t'.status? (j :: p) = t.status? (j :: p) := by
    rw [status?, hf.get _ hns (List.cons_ne_nil _ _), RoseTree.get?_addChild_of_not_fresh hns, status?]
  rw [hold]
  exact (h.settled j hj').resolve_right (by simp)

end Live

end TaskTree

/-! ## Calls -/

namespace Machine

variable {F Q : Type}

theorem enter_refused {b : Behaviour F V E σ} {m : Machine F V E b.Q σ} {p : Path} {i : Nat}
    (h : m.tree.status? (i :: p) ≠ some .inactive ∨ isActive m.tree p = false) (args : List V) :
    m.enter b (i :: p) args = none := by
  unfold enter
  cases ht : m.tree.get? (i :: p) with
  | none => rfl
  | some t =>
    refine if_pos ?_
    simpa [status?, ht, parentActive] using h

theorem enter_accepted {b : Behaviour F V E σ} {m : Machine F V E b.Q σ} {p : Path} {i : Nat}
    {t : Task F V E} (ht : m.tree.get? (i :: p) = some t) (hi : t.status = .inactive)
    (ha : isActive m.tree p) (args : List V) :
    ∃ m', m.enter b (i :: p) args = some m' ∧ m'.tree = m.tree.modify (i :: p) .activate ∧
      m'.stack = .body (i :: p) (b.enter t.associatedFunction args) :: m.stack ∧
      m'.world = m.world := by
  simp only [enter, ht]
  rw [if_neg (by simp [hi, parentActive, ha])]
  exact ⟨_, rfl, rfl, rfl, rfl⟩

theorem root_finish {m : Machine F V E Q σ} {p : Path} (hp : p ≠ []) :
    (m.finish p).tree.root = m.tree.root := by
  rw [tree_finish]
  split
  · rfl
  · exact root_modify hp _

theorem framed_finish (m : Machine F V E Q σ) (p : Path) : Framed p m.tree (m.finish p).tree := by
  rw [tree_finish]
  split
  · exact .refl
  · exact .modify _ _ (fun _ => rfl) (.inl rfl)

theorem world_finish (m : Machine F V E Q σ) (p : Path) : (m.finish p).world = m.world := by
  unfold finish
  split <;> rfl

theorem step_subtasks {b : Behaviour F V E σ} {m : Machine F V E b.Q σ} {p : Path} {i : Nat}
    {caller : Caller} {rest : List (Frame V b.Q)} (hs : m.stack = .subtasks p i caller :: rest) :
    m.step b = some (m.loop b p i caller rest) := by
  simp only [step, hs]

theorem step_loop {b : Behaviour F V E σ} {m : Machine F V E b.Q σ} {p : Path} {i : Nat}
    {caller : Caller} {rest : List (Frame V b.Q)} (hs : m.stack = .subtasks p i caller :: rest)
    (hi : i < m.tree.arity p) :
    m.step b = some (enterOr b { m with stack := .subtasks p (i + 1) caller :: rest } (i :: p) []
      { m with stack := .subtasks p (i + 1) caller :: rest }) := by
  rw [step_subtasks hs, loop, if_pos hi]

/-- The loop of a call passes over subtasks that are all refused, and the call comes back. -/
theorem loop_refused {b : Behaviour F V E σ} {m : Machine F V E b.Q σ} {p : Path} {i : Nat}
    {rest : List (Frame V b.Q)} (hs : m.stack = .subtasks p i .call :: rest)
    (hr : ∀ j, j < m.tree.arity p →
      m.tree.status? (j :: p) ≠ some .inactive ∨ isActive m.tree p = false) :
    ∃ m', Thread b m m' ∧ m'.world = m.world ∧ m'.tree = (m.finish p).tree ∧ m'.stack =
      deliver (.result ((m.tree.get? p).map (·.associatedFunctionResult)).join) rest := by
  induction hn : m.tree.arity p - i generalizing m i with
  | zero =>
    have hi : ¬ i < m.tree.arity p := by omega
    refine ⟨_, .single (step_subtasks hs), ?_⟩
    simp only [loop, hi, if_false]
    exact ⟨world_finish m p, rfl, trivial⟩
  | succ n ih =>
    have hi : i < m.tree.arity p := by omega
    let m₁ : Machine F V E b.Q σ := { m with stack := .subtasks p (i + 1) .call :: rest }
    have hstep : m.step b = some m₁ := by
      have he : enter b m₁ (i :: p) [] = none := enter_refused (m := m₁) (hr i hi) []
      rw [step_loop hs hi]
      exact congrArg some (congrArg (Option.getD · m₁) he)
    obtain ⟨m', hm', hw, ht, hst⟩ := ih (m := m₁) rfl hr (by simp only [m₁]; omega)
    refine ⟨m', .head hstep hm', hw, ht.trans ?_, hst⟩
    simp [tree_finish, m₁]

variable {errText : E → String}

/-- The loop and the `finish` of a call whose function has ended. -/
private theorem close_thread {b : Behaviour F V E σ} {m : Machine F V E b.Q σ} {p : Path}
    {rest : List (Frame V b.Q)} (hp : p ≠ []) (hs : m.stack = .subtasks p 0 .call :: rest)
    (hr : ∀ j, j < m.tree.arity p →
      m.tree.status? (j :: p) ≠ some .inactive ∨ isActive m.tree p = false)
    (ht : (m.tree.get? p).isSome) :
    ∃ m', Thread b m m' ∧ m'.world = m.world ∧ m'.tree.status? p = some .completed ∧
      m'.tree.root = m.tree.root ∧ Framed p m.tree m'.tree ∧ m'.stack =
      deliver (.result ((m.tree.get? p).map (·.associatedFunctionResult)).join) rest := by
  obtain ⟨m', hm', hw, htree, hst⟩ := loop_refused hs hr
  refine ⟨m', hm', hw, ?_, ?_, htree ▸ framed_finish m p, hst⟩
  · rw [htree, status?_finish ht, if_pos rfl]
  · rw [htree, root_finish hp]

theorem functionRaised_required {b : Behaviour F V E σ} {m : Machine F V E b.Q σ}
    (h : (m.tree.get? p).map (·.isRequired) = some true) (e : E) (rest : List (Frame V b.Q)) :
    (m.functionRaised b p e rest).tree =
        ((m.tree.modify p (.fail e)).modify [] (.setError e)).modify [] .setCancelled ∧
      (m.functionRaised b p e rest).stack = deliver (.result none) rest ∧
      (m.functionRaised b p e rest).world = m.world := by
  unfold functionRaised
  rw [h]
  exact ⟨rfl, rfl, rfl⟩

theorem functionRaised_optional {b : Behaviour F V E σ} {m : Machine F V E b.Q σ}
    (h : (m.tree.get? p).map (·.isRequired) = some false) (e : E) (rest : List (Frame V b.Q)) :
    (m.functionRaised b p e rest).tree = (m.tree.modify p (.fail e)).modify p (.setResult none) ∧
      (m.functionRaised b p e rest).stack = .subtasks p 0 .call :: rest ∧
      (m.functionRaised b p e rest).world = m.world := by
  unfold functionRaised
  rw [h]
  exact ⟨rfl, rfl, rfl⟩

/-- After the return the subtasks are passed over, and the call comes back with the result. -/
theorem functionReturned_thread {b : Behaviour F V E σ} {m : Machine F V E b.Q σ} {p : Path}
    (hp : p ≠ []) (hl : Live m.tree p own active) (ht : m.tree.get? p = some t) (v : Option V)
    (rest : List (Frame V b.Q)) :
    ∃ m', Thread b (m.functionReturned p v rest) m' ∧ m'.stack = deliver (.result v) rest ∧
      m'.world = m.world ∧ m'.tree.status? p = some .completed ∧ m'.tree.root = rootState active ∧
      Framed p m.tree m'.tree := by
  have hf : Framed p m.tree (m.functionReturned p v rest).tree :=
    .modify _ (.setResult v) (fun _ => rfl) (.inl rfl)
  have hstatus (q : Path) : (m.functionReturned p v rest).tree.status? q = m.tree.status? q :=
    status?_modify_of_status (Task.status_setResult v) p q
  have hsettled (j : Nat) (hj : j < (m.functionReturned p v rest).tree.arity p) :
      (m.functionReturned p v rest).tree.status? (j :: p) ≠ some .inactive ∨
        isActive (m.functionReturned p v rest).tree p = false := by
    have hj' : j < m.tree.arity p := by simpa [functionReturned, emit, modify] using hj
    rw [hstatus, isActive_congr hstatus, hl.isActive]
    exact hl.settled j hj'
  have ht' : (m.functionReturned p v rest).tree.get? p = some (t.setResult v) := by
    simp [functionReturned, emit, modify, ht]
  obtain ⟨m', hm', hw, hc, hroot, hf', hst⟩ := close_thread hp rfl hsettled (by simp [ht'])
  refine ⟨m', hm', ?_, hw, hc, ?_, hf.trans hf'⟩
  · simpa [ht', Task.setResult] using hst
  · exact hroot.trans ((root_modify hp _).trans hl.root)

/-- A required task that raises cancels the root, and its call comes back at once. -/
theorem functionRaised_cancels {b : Behaviour F V E σ} {m : Machine F V E b.Q σ} {p : Path}
    (hp : p ≠ []) (ht : m.tree.get? p = some t) (hr : t.isRequired = true) (e : E)
    (rest : List (Frame V b.Q)) :
    (m.functionRaised b p e rest).tree.status? p ≠ some .inactive ∧
      (m.functionRaised b p e rest).tree.root = rootState false ∧
      Framed p m.tree (m.functionRaised b p e rest).tree := by
  obtain ⟨htree, -, -⟩ := functionRaised_required (m := m) (p := p) (by rw [ht, Option.map_some, hr]) e rest
  refine ⟨?_, ?_, ?_⟩
  · simp [htree, status?_modify, hp, ht]
  · rw [htree, root, value_modify_nil, value_modify_nil]
    simp [rootState, Task.setCancelled, Task.setError]
  · rw [htree]
    refine (Framed.modify _ (.fail e) (fun _ => rfl) (.inl rfl)).trans ?_
    refine (Framed.modify _ (.setError e) (fun _ => rfl) (.inr rfl)).trans ?_
    exact .modify _ _ (fun _ => rfl) (.inr rfl)

/-- A task that is not required goes on to its subtasks, which are refused. -/
theorem functionRaised_thread {b : Behaviour F V E σ} {m : Machine F V E b.Q σ} {p : Path}
    (hp : p ≠ []) (hl : Live m.tree p own active) (ht : m.tree.get? p = some t)
    (hr : t.isRequired = false) (e : E) (rest : List (Frame V b.Q)) :
    ∃ m', Thread b (m.functionRaised b p e rest) m' ∧ m'.stack = deliver (.result none) rest ∧
      m'.world = m.world ∧ m'.tree.status? p = some .completed ∧ m'.tree.root = rootState active ∧
      Framed p m.tree m'.tree := by
  obtain ⟨htree, hst, hw⟩ :=
    functionRaised_optional (m := m) (p := p) (by rw [ht, Option.map_some, hr]) e rest
  have hf : Framed p m.tree (m.functionRaised b p e rest).tree := by
    rw [htree]
    exact (Framed.modify _ (.fail e) (fun _ => rfl) (.inl rfl)).trans
      (.modify _ _ (fun _ => rfl) (.inl rfl))
  have ht' : (m.functionRaised b p e rest).tree.get? p = some ((t.fail e).setResult none) := by
    simp [htree, ht]
  have hroot : (m.functionRaised b p e rest).tree.root = m.tree.root := by
    rw [htree, root_modify hp, root_modify hp]
  have hna : isActive (m.functionRaised b p e rest).tree p = false :=
    isActive_of_status_ne (by simp [status?, ht'])
  obtain ⟨m', hm', hw', hc, hroot', hf', hst'⟩ :=
    close_thread hp hst (fun _ _ => .inr hna) (by simp [ht'])
  refine ⟨m', hm', ?_, hw'.trans hw, hc, hroot'.trans (hroot.trans hl.root), hf.trans hf'⟩
  simpa [ht', Task.setResult] using hst'

/-- A function in direct style ends, and its call comes back. -/
theorem return_thread {m : Machine (Prog V E σ) V E (progBehaviour errText).Q σ} {p : Path}
    {rest : List (Frame V (progBehaviour errText).Q)} {o : Prog.Outcome V E σ} {required : Bool}
    (hp : p ≠ []) (hs : m.stack = .body p (.ready (.run o.prog)) :: rest)
    (hl : Live m.tree p o.own o.active)
    (hreq : (m.tree.get? p).map (·.isRequired) = some required) :
    ∃ m', Thread (progBehaviour errText) m m' ∧ m'.stack = deliver (.result o.value) rest ∧
      m'.world = m.world ∧ m'.tree.status? p ≠ some .inactive ∧
      m'.tree.root = rootState (o.keepsActive required) ∧
      Framed p m.tree m'.tree := by
  obtain ⟨t, ht, rfl⟩ := Option.map_eq_some_iff.mp hreq
  unfold Prog.Outcome.prog at hs
  rw [Prog.Outcome.value, Prog.Outcome.keepsActive]
  cases ho : o.result with
  | ok v =>
    have hstep : m.step (progBehaviour errText) = some (m.functionReturned p v rest) := by
      simp only [ho] at hs
      simp only [step, hs]
      rfl
    obtain ⟨m', hm', hst, hw, hc, hroot, hf⟩ := functionReturned_thread hp hl ht v rest
    exact ⟨m', .head hstep hm', hst, hw, by simp [hc], hroot, hf⟩
  | error e =>
    have hstep : m.step (progBehaviour errText) =
        some (m.functionRaised (progBehaviour errText) p e rest) := by
      simp only [ho] at hs
      simp only [step, hs]
      rfl
    cases hr : t.isRequired with
    | true =>
      obtain ⟨-, hst, hw⟩ := functionRaised_required (m := m) (hreq.trans (by rw [hr])) e rest
      obtain ⟨hi, hroot, hf⟩ := functionRaised_cancels hp ht hr e rest
      exact ⟨_, .single hstep, hst, hw, hi, by simpa using hroot, hf⟩
    | false =>
      obtain ⟨m', hm', hst, hw, hc, hroot, hf⟩ := functionRaised_thread hp hl ht hr e rest
      exact ⟨m', .head hstep hm', hst, hw, by simp [hc], by simpa using hroot, hf⟩

theorem step_body {m : Machine (Prog V E σ) V E (progBehaviour errText).Q σ} {q : Path}
    {c : ProgControl V E σ} {rest : List (Frame V (progBehaviour errText).Q)}
    (hs : m.stack = .body q (.ready c) :: rest) :
    m.step (progBehaviour errText) = some (act (progBehaviour errText)
      { m with world := (c.next m.world).1 } q (c.next m.world).2.2 rest (c.next m.world).2.1) := by
  simp only [step, hs]
  cases c with
  | run p => cases p <;> simp [progBehaviour, ProgControl.next, act, functionReturned]
  | calling i k => rfl

theorem step_call_refused {m : Machine (Prog V E σ) V E (progBehaviour errText).Q σ} {q : Path}
    {k : Option V → Prog V E σ} {rest : List (Frame V (progBehaviour errText).Q)}
    (hs : m.stack = .body q (.ready (.calling i k)) :: rest) (h : isActive m.tree q = false) :
    m.step (progBehaviour errText) =
      some { m with stack := .body q (.ready (.run (k none))) :: rest } := by
  have he := enter_refused (b := progBehaviour errText) (i := i)
    (m := { m with stack := .body q (.waiting (.resume k)) :: rest }) (.inr h) []
  exact (step_body hs).trans (congrArg some (congrArg (Option.getD · _) he))

theorem step_call_accepted {m : Machine (Prog V E σ) V E (progBehaviour errText).Q σ} {q : Path}
    {k : Option V → Prog V E σ} {rest : List (Frame V (progBehaviour errText).Q)}
    (hs : m.stack = .body q (.ready (.calling i k)) :: rest) (h : isActive m.tree q)
    {t : Task (Prog V E σ) V E} (ht : m.tree.get? (i :: q) = some t) (hi : t.status = .inactive)
    (hb : t.associatedFunction = .code body) :
    ∃ m', m.step (progBehaviour errText) = some m' ∧ m'.world = m.world ∧
      m'.tree = m.tree.modify (i :: q) .activate ∧
      m'.stack = .body (i :: q) (.ready (.run body)) :: .body q (.waiting (.resume k)) :: rest := by
  obtain ⟨m', he, htree, hst, hw⟩ := enter_accepted (b := progBehaviour errText)
    (m := { m with stack := .body q (.waiting (.resume k)) :: rest }) ht hi h []
  refine ⟨m', (step_body hs).trans (congrArg some (congrArg (Option.getD · _) he)), hw, htree, ?_⟩
  rw [hst, hb]
  rfl

/-- From where `p` begins to its end, the machine goes as its evaluation says. -/
def Evaluates (errText : E → String) (p : Prog V E σ) : Prop :=
  ∀ {m : Machine (Prog V E σ) V E (progBehaviour errText).Q σ} {q : Path} {own active : Bool}
    {rest : List (Frame V (progBehaviour errText).Q)}, q ≠ [] →
    m.stack = .body q (.ready (.run p)) :: rest → Live m.tree q own active →
    ∃ m', Thread (progBehaviour errText) m m' ∧
      m'.stack = .body q (.ready (.run (p.eval own active m.world).prog)) :: rest ∧
      m'.world = (p.eval own active m.world).world ∧
      Live m'.tree q (p.eval own active m.world).own (p.eval own active m.world).active ∧
      Framed q m.tree m'.tree

/-- The call of a task whose function is `body`, from its start to its end. -/
theorem Evaluates.call {body : Prog V E σ} (h : Evaluates errText body)
    {m : Machine (Prog V E σ) V E (progBehaviour errText).Q σ} {p : Path}
    {rest : List (Frame V (progBehaviour errText).Q)} {tree : TaskTree (Prog V E σ) V E}
    {t : Task (Prog V E σ) V E} (hp : p ≠ []) (hs : m.stack = .body p (.ready (.run body)) :: rest)
    (ht : tree.get? p = some t) (htree : m.tree = tree.modify p .activate) (hl : Live m.tree p true true) :
    ∃ m', Thread (progBehaviour errText) m m' ∧
      m'.stack = deliver (.result (body.eval true true m.world).value) rest ∧
      m'.world = (body.eval true true m.world).world ∧ m'.tree.status? p ≠ some .inactive ∧
      m'.tree.root = rootState ((body.eval true true m.world).keepsActive t.isRequired) ∧
      Framed p tree m'.tree := by
  obtain ⟨m₁, hm₁, hst₁, hw₁, hl₁, hf₁⟩ := h hp hs hl
  have hf₀ : Framed p tree m.tree := htree ▸ .modify _ .activate (fun _ => rfl) (.inl rfl)
  have hreq : (m₁.tree.get? p).map (·.isRequired) = some t.isRequired := by
    obtain ⟨a, ha, hsa⟩ := (hf₀.trans hf₁).spec ht
    rw [ha, Option.map_some, hsa]
  obtain ⟨m₂, hm₂, hst₂, hw₂, hi₂, hr₂, hf₂⟩ := return_thread hp hst₁ hl₁ hreq
  exact ⟨m₂, hm₁.trans hm₂, hst₂, hw₂.trans hw₁, hi₂, hr₂, hf₀.trans (hf₁.trans hf₂)⟩

theorem eval_thread (p : Prog V E σ) : Evaluates errText p := by
  induction p with
  | ret v => exact fun _ hs hl => ⟨_, .refl, hs, rfl, hl, .refl⟩
  | raise e => exact fun _ hs hl => ⟨_, .refl, hs, rfl, hl, .refl⟩
  | step f k ih =>
    intro m q own active rest hq hs hl
    let m₁ : Machine (Prog V E σ) V E (progBehaviour errText).Q σ :=
      { m with world := f m.world, stack := .body q (.ready (.run (k m.world))) :: rest }
    have hstep : m.step (progBehaviour errText) = some m₁ := step_body hs
    obtain ⟨m', hm', h⟩ := ih m.world (m := m₁) hq rfl hl
    exact ⟨m', .head hstep hm', h⟩
  | finish k ih =>
    intro m q own active rest hq hs hl
    let m₁ : Machine (Prog V E σ) V E (progBehaviour errText).Q σ :=
      { m.finish q with stack := .body q (.ready (.run k)) :: rest }
    have hstep : m.step (progBehaviour errText) = some m₁ := step_body hs
    have hself : (m.tree.get? q).isSome := isSome_get?_of_status? hl.self
    have hl₁ : Live m₁.tree q false active := by
      refine ⟨?_, ?_, fun r hr hrq hn => ?_, fun _ _ => .inr rfl⟩
      · exact (status?_finish hself q).trans (if_pos rfl)
      · exact (root_finish hq).trans hl.root
      · exact (status?_finish hself r).trans ((if_neg hrq).trans (hl.above r hr hrq hn))
    obtain ⟨m', hm', hst, hw, hl', hf⟩ := ih hq rfl hl₁
    have hw₁ : m₁.world = m.world := world_finish m q
    rw [hw₁] at hst hw hl'
    exact ⟨m', .head hstep hm', hst, hw, hl', (framed_finish m q).trans hf⟩
  | subtask name required body k ihb ihk =>
    intro m q own active rest hq hs hl
    let c : TaskTree (Prog V E σ) V E :=
      SpecTree.init (.node { associatedFunction := .code body, name, isRequired := required } [])
    let m₁ : Machine (Prog V E σ) V E (progBehaviour errText).Q σ :=
      { m.addSubtask q (.node { associatedFunction := .code body, name, isRequired := required } [])
        with stack := .body q (.ready (.calling (m.tree.arity q) k)) :: rest }
    have hstep : m.step (progBehaviour errText) = some m₁ := step_body hs
    have hself : (m.tree.get? q).isSome := isSome_get?_of_status? hl.self
    have hact : isActive m₁.tree q = (own && active) := (isActive_addChild ..).trans hl.isActive
    have hf₁ : Framed q m.tree m₁.tree := .addChild ..
    rw [Prog.eval]
    cases hoa : own && active with
    | false =>
      let m₂ : Machine (Prog V E σ) V E (progBehaviour errText).Q σ :=
        { m₁ with stack := .body q (.ready (.run (k none))) :: rest }
      have hstep₂ : m₁.step (progBehaviour errText) = some m₂ :=
        step_call_refused rfl (hact.trans hoa)
      obtain ⟨m', hm', hst, hw, hl', hf⟩ := ihk none (m := m₂) hq rfl (hl.addChild hoa c)
      exact ⟨m', .head hstep (.head hstep₂ hm'), hst, hw, hl', hf₁.trans hf⟩
    | true =>
      obtain ⟨rfl, rfl⟩ : own = true ∧ active = true := by simpa using hoa
      have hnew : m₁.tree.get? (m.tree.arity q :: q) = some c.value := RoseTree.get?_addChild_new hself []
      obtain ⟨m₂, hstep₂, hw₂, ht₂, hst₂⟩ := step_call_accepted (m := m₁) rfl hact hnew rfl rfl
      have hl₂ : Live m₂.tree (m.tree.arity q :: q) true true :=
        ht₂ ▸ hl.startChild hself fun _ => rfl
      obtain ⟨m₃, hm₃, hst₃, hw₃, hi₃, hr₃, hf₃⟩ :=
        Evaluates.call ihb (List.cons_ne_nil _ _) hst₂ hnew ht₂ hl₂
      have hw : m₂.world = m.world := hw₂
      rw [hw] at hst₃ hw₃ hr₃
      obtain ⟨m', hm', hst, hw', hl', hf'⟩ :=
        ihk (body.eval true true m.world).value hq hst₃ (hl.endChild hq hself hf₃ hi₃ hr₃)
      rw [hw₃] at hst hw' hl'
      exact ⟨m', .head hstep (.head hstep₂ (hm₃.trans hm')), hst, hw', hl',
        hf₁.trans (hf₃.of_child.trans hf')⟩

/-! ## Task lists -/

/-- The loop over the tasks of a list has come to its `i`-th; `ts` are left. -/
structure AtTask (ts : List (ProgTask V E σ)) (i : Nat) (active : Bool)
    (m : Machine (Prog V E σ) V E (ProgControl V E σ) σ) : Prop where
  stack : m.stack = [.subtasks [] i .call]
  root : m.tree.root = rootState active
  arity : m.tree.arity [] = i + ts.length
  task : ∀ {j t}, ts[j]? = some t →
    m.tree.get? [i + j] = some (Task.init t.spec.value) ∧ m.tree.arity [i + j] = 0

theorem AtTask.next {m m' : Machine (Prog V E σ) V E (ProgControl V E σ) σ}
    {t : ProgTask V E σ} (h : AtTask (t :: ts) i active m)
    (hst : m'.stack = [.subtasks [] (i + 1) .call]) (hroot : m'.tree.root = rootState active')
    (hf : Framed [i] m.tree m'.tree) : AtTask ts (i + 1) active' m' where
  stack := hst
  root := hroot
  arity := by
    rw [hf.arity [] (by simp), h.arity, List.length_cons]
    omega
  task {j t'} hj := by
    have hns : ¬ [i] <:+ [i + 1 + j] := fun hs => by
      have := List.cons.inj (hs.eq_of_length rfl)
      omega
    rw [hf.get _ hns (by simp), hf.arity _ hns, Nat.add_assoc, Nat.add_comm 1 j]
    exact h.task (j := j + 1) hj

/-- The loop passes over one task: it runs, or its call is refused. -/
theorem AtTask.thread {m : Machine (Prog V E σ) V E (progBehaviour errText).Q σ}
    {t : ProgTask V E σ} (h : AtTask (t :: ts) i active m) :
    ∃ m', Thread (progBehaviour errText) m m' ∧ AtTask ts (i + 1) (t.after active m.world).1 m' ∧
      m'.world = (t.after active m.world).2 := by
  have hi : i < m.tree.arity [] := by
    rw [h.arity, List.length_cons]
    omega
  let mw : Machine (Prog V E σ) V E (ProgControl V E σ) σ :=
    { m with stack := [.subtasks [] (i + 1) .call] }
  have hstep := step_loop (b := progBehaviour errText) h.stack hi
  have ht : RoseTree.get? m.tree [i] = some (Task.init t.spec.value) := (h.task (j := 0) rfl).1
  have ha : RoseTree.arity m.tree [i] = 0 := (h.task (j := 0) rfl).2
  have hact : isActive m.tree [] = active := isActive_nil_of_root h.root
  cases active with
  | false =>
    have he : enter (progBehaviour errText) mw [i] [] = none :=
      enter_refused (b := progBehaviour errText) (i := i) (m := mw) (.inr hact) []
    have hstep' : m.step (progBehaviour errText) = some mw :=
      hstep.trans (congrArg some (congrArg (Option.getD · mw) he))
    exact ⟨mw, .single hstep', h.next rfl h.root .refl, rfl⟩
  | true =>
    obtain ⟨m₁, he, htree, hst, hw⟩ := enter_accepted (b := progBehaviour errText) (m := mw) ht rfl
      hact []
    have hstep' : m.step (progBehaviour errText) = some m₁ :=
      hstep.trans (congrArg some (congrArg (Option.getD · mw) he))
    have hl₁ : Live m₁.tree [i] true true := by
      rw [htree]
      refine .start ht (List.cons_ne_nil _ _) h.root (fun r hr hri hn => ?_) ha
      exact (hn (by simpa using (List.suffix_cons_iff.mp hr).resolve_left hri)).elim
    obtain ⟨m₂, hm₂, hst₂, hw₂, -, hr₂, hf₂⟩ :=
      Evaluates.call (eval_thread t.prog) (List.cons_ne_nil _ _) hst ht htree hl₁
    have hw' : m₁.world = m.world := hw
    rw [hw'] at hr₂ hw₂
    exact ⟨m₂, .head hstep' hm₂, h.next hst₂ hr₂ hf₂, hw₂⟩

/-- The loop passes over the tasks `ts`, with `ts'` to come. -/
theorem AtTask.threads (ts : List (ProgTask V E σ)) :
    ∀ {i active} {m : Machine (Prog V E σ) V E (progBehaviour errText).Q σ},
      AtTask (ts ++ ts') i active m → ∃ m', Thread (progBehaviour errText) m m' ∧
        AtTask ts' (i + ts.length) (evalTasks ts active m.world).1 m' ∧
        m'.world = (evalTasks ts active m.world).2 := by
  induction ts with
  | nil => exact fun {i active m} h => ⟨m, .refl, h, rfl⟩
  | cons t ts ih =>
    intro i active m h
    obtain ⟨m₁, hm₁, h₁, hw₁⟩ := h.thread
    obtain ⟨m₂, hm₂, h₂, hw₂⟩ := ih h₁
    rw [hw₁, ← evalTasks_cons] at h₂ hw₂
    refine ⟨m₂, hm₁.trans hm₂, ?_, hw₂⟩
    rw [List.length_cons, ← Nat.add_assoc, Nat.add_right_comm]
    exact h₂

/-- The loop is over. -/
theorem AtTask.finish {m : Machine (Prog V E σ) V E (progBehaviour errText).Q σ}
    (h : AtTask ([] : List (ProgTask V E σ)) i active m) :
    ∃ m', Thread (progBehaviour errText) m m' ∧ m'.stack = [] ∧ m'.world = m.world ∧
      m'.tree.value.error.isSome = !active := by
  have hi : ¬ i < m.tree.arity [] := by simp [h.arity]
  refine ⟨_, .single (step_subtasks h.stack), ?_⟩
  simp only [loop, hi, if_false]
  refine ⟨rfl, world_finish .., ?_⟩
  have he : m.tree.value.error.isSome = !active :=
    (congrArg Prod.snd h.root).trans (by cases active <;> rfl)
  simp only [emit, tree_finish]
  split
  · exact he
  · rw [value_modify_nil]
    exact he

theorem init_thread (errText : E → String) (name : String) (ts : List (ProgTask V E σ)) (threaded : Bool) (w : σ) :
    ∃ m, Thread (progBehaviour errText) (init name (ts.map ProgTask.spec) threaded w) m ∧
      AtTask ts 0 true m ∧ m.world = w := by
  let m₀ : Machine (Prog V E σ) V E (ProgControl V E σ) σ :=
    init name (ts.map ProgTask.spec) threaded w
  let m₁ : Machine (Prog V E σ) V E (ProgControl V E σ) σ :=
    { m₀ with
      tree := m₀.tree.modify [] .activate
      stack := [.body [] .tasklist]
      trace := [.started [] [], .notified [] s!"Running {name}..."] }
  let m₂ := m₁.functionReturned [] none []
  have hstep₁ : m₀.step (progBehaviour errText) = some m₁ := rfl
  have hstep₂ : m₁.step (progBehaviour errText) = some m₂ := rfl
  have htree : m₂.tree = ((taskList name (ts.map ProgTask.spec)).modify [] .activate).modify []
      (.setResult none) := rfl
  have hchild (j : Nat) : RoseTree.subtree? m₂.tree [j] =
      (ts[j]?).map fun t => SpecTree.init t.spec := by
    rw [htree]
    simp [RoseTree.modify, RoseTree.updateAt, RoseTree.subtree?, taskList, SpecTree.init,
      Function.comp_def]
  refine ⟨m₂, .head hstep₁ (.single hstep₂), ⟨rfl, rfl, ?_, fun {j t} hj => ?_⟩, rfl⟩
  · rw [htree, RoseTree.arity_modify, RoseTree.arity_modify]
    simp [RoseTree.arity, RoseTree.subtree?, taskList, SpecTree.init]
  · rw [Nat.zero_add, RoseTree.get?, RoseTree.arity, hchild, hj]
    exact ⟨rfl, rfl⟩

/-- The machine runs a list of functions in direct style to its end, as `evalTasks` says: through
the same worlds, and with an error at the root exactly when a required task failed. -/
theorem exists_end (errText : E → String) (name : String) (ts : List (ProgTask V E σ))
    (threaded : Bool) (w : σ) :
    ∃ m, Thread (progBehaviour errText) (init name (ts.map ProgTask.spec) threaded w) m ∧
      m.stack = [] ∧ m.world = (evalTasks ts true w).2 ∧
      m.tree.value.error.isSome = !(evalTasks ts true w).1 := by
  obtain ⟨m, hm, h, hw⟩ := init_thread errText name ts threaded w
  have hts : AtTask (ts ++ []) 0 true m := by rwa [List.append_nil]
  obtain ⟨m₁, hm₁, h₁, hw₁⟩ := hts.threads
  obtain ⟨m₂, hm₂, hst₂, hw₂, he₂⟩ := h₁.finish
  rw [hw] at hw₁ he₂
  exact ⟨m₂, hm.trans (hm₁.trans hm₂), hst₂, hw₂.trans hw₁, he₂⟩

theorem tasks_thread (errText : E → String) (name : String) (ts : List (ProgTask V E σ))
    (threaded : Bool) (w : σ) :
    ∃ m, Run (progBehaviour errText) (init name (ts.map ProgTask.spec) threaded w) m ∧
      m.stack = [] ∧ m.world = (evalTasks ts true w).2 ∧
      m.tree.value.error.isSome = !(evalTasks ts true w).1 := by
  obtain ⟨m, h, hm⟩ := exists_end errText name ts threaded w
  exact ⟨m, Thread.run h, hm⟩

theorem Thread.eq_of_end {b : Behaviour F V E σ} {m₀ m m' : Machine F V E b.Q σ}
    (h : Thread b m₀ m) (h' : Thread b m₀ m') (hst : m.stack = []) (hst' : m'.stack = []) :
    m = m' := by
  have hdet : Relator.RightUnique fun m m' : Machine F V E b.Q σ => m.step b = some m' :=
    fun _ _ _ h h' => Option.some.inj (h.symm.trans h')
  have hend {m m' : Machine F V E b.Q σ} (hst : m.stack = []) (h : Thread b m m') : m = m' := by
    rcases h.cases_head with rfl | ⟨n, hs, -⟩
    · rfl
    · simp [Machine.step, hst] at hs
  rcases Relation.ReflTransGen.total_of_right_unique hdet h h' with h | h
  · exact hend hst h
  · exact (hend hst' h).symm

/-- Every end of the thread is this one. -/
theorem thread_end {name : String} {ts : List (ProgTask V E σ)} {threaded : Bool} {w : σ}
    {m : Machine (Prog V E σ) V E (ProgControl V E σ) σ}
    (h : Thread (progBehaviour errText) (init name (ts.map ProgTask.spec) threaded w) m)
    (hst : m.stack = []) :
    m.world = (evalTasks ts true w).2 ∧
      m.tree.value.error.isSome = !(evalTasks ts true w).1 := by
  obtain ⟨m', h', hst', hm'⟩ := exists_end errText name ts threaded w
  obtain rfl := Thread.eq_of_end h h' hst hst'
  exact hm'

theorem thread_end_ok {name : String} {ts : List (ProgTask V E σ)} {threaded : Bool} {w : σ}
    {m : Machine (Prog V E σ) V E (ProgControl V E σ) σ}
    (h : Thread (progBehaviour errText) (init name (ts.map ProgTask.spec) threaded w) m)
    (hst : m.stack = []) (hok : m.tree.value.error = none) :
    evalTasks ts true w = (true, m.world) := by
  obtain ⟨hw, he⟩ := thread_end h hst
  rw [hok] at he
  exact Prod.ext (by simpa using he) hw.symm

end Machine

end Swinst.TaskList
