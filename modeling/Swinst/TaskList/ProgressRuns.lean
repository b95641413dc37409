import Swinst.TaskList.NoWorkLost
import Swinst.TaskList.Finals
import Swinst.TaskList.Progress
import Mathlib.Data.List.Chain

/-! Runs of task lists whose functions report their progress as `copy_file` and `get_file_md5` do.
The size of the task is the size of the file in MB, rounded down; the blocks that are reported are
counted, and the last one may be short. -/

namespace Swinst.TaskList

open TaskTree

variable {F V E Q σ : Type}

/-- `1024**2`, the size of a block -/
def mib : Nat := 1024 ^ 2

/-- The number of reads of a file that return data. -/
def blocks (bytes : Nat) : Nat := (bytes + (mib - 1)) / mib

/-- A file that is not empty and has no short block. -/
def isWhole (bytes : Nat) : Bool := 0 < bytes && bytes % mib = 0

theorem lt_blocks {n bytes : Nat} : n < blocks bytes ↔ n * mib < bytes := by
  rw [blocks, ← Nat.succ_le_iff, Nat.le_div_iff_mul_le (by decide), mib]
  omega

theorem blocks_of_isWhole {bytes : Nat} (h : isWhole bytes) : blocks bytes = bytes / mib := by
  simp only [isWhole, Bool.and_eq_true, decide_eq_true_eq] at h
  rw [blocks, mib] at *
  omega

theorem blocks_pos {bytes : Nat} (h : isWhole bytes) : 0 < blocks bytes := by
  simp only [isWhole, Bool.and_eq_true, decide_eq_true_eq] at h
  rw [lt_blocks]
  omega

/-! ## Functions that report on a file -/

/-- Where a function stands in its report. -/
inductive Stage where
  /-- it has not reported -/
  | silent
  /-- it has reported `n` blocks of a file of `bytes` bytes -/
  | copying (bytes n : Nat)
  /-- it has closed the file -/
  | closed

structure TaskSpec.Positive (spec : TaskSpec F) : Prop where
  size : 0 < spec.size.toRat
  weight : 0 < spec.weight.toRat

/-- What a function may do at a stage, when it reports as `copy_file` and `get_file_md5` do. -/
inductive Allowed (stage : Q → Stage) : Stage → Act F V E → (Answer V → Q) → Prop
  | tau {s k} : stage (k .unit) = s → Allowed stage s .tau k
  | ret {s v k} : Allowed stage s (.ret v) k
  | raise {s e k} : Allowed stage s (.raise e) k
  | addSubtask {c k} : c.All TaskSpec.Positive → (∀ i, stage (k (.index i)) = .silent) →
    Allowed stage .silent (.addSubtask c) k
  | call {i args k} : (∀ r, stage (k (.result r)) = .silent) → Allowed stage .silent (.call i args) k
  /-- `associated_task.size = file_size/1024**2` -/
  | setSize {bytes k} : stage (k .unit) = .copying bytes 0 →
    Allowed stage .silent (.setSize (.int (bytes / mib : Nat))) k
  /-- `if associated_task.set_progress(data_read): ... return` -/
  | setProgress {bytes n k} : n < blocks bytes → stage (k (.stop false)) = .copying bytes (n + 1) →
    stage (k (.stop true)) = .closed →
    Allowed stage (.copying bytes n) (.setProgress (.int (n + 1 : Nat)) none none) k
  /-- `associated_task.finish()` -/
  | finish {bytes n k} : blocks bytes ≤ n → stage (k .unit) = .closed →
    Allowed stage (.copying bytes n) .finish k

/-- Every function does at every stage only what is allowed there. -/
structure Reports (b : Behaviour F V E σ) where
  stage : b.Q → Stage
  start : ∀ f args, stage (b.start f args) = .silent
  next : ∀ {q w w' a k}, b.next q w = (w', a, k) → Allowed stage (stage q) a k

namespace Machine

variable {b : Behaviour F V E σ}

/-- The size of the file that the running function is about to report on. -/
def opens (rep : Reports b) (m : Machine F V E b.Q σ) : Option Nat :=
  match m.stack with
  | .body _ (.ready q) :: _ =>
    match b.next q m.world with
    | (_, .setSize _, k) =>
      match rep.stage (k .unit) with
      | .copying bytes _ => some bytes
      | .silent | .closed => none
    | _ => none
  | _ => none

/-- A file that the running function is about to report on is a whole number of MB. -/
def opensWhole (rep : Reports b) (m : Machine F V E b.Q σ) : Bool := (opens rep m).all isWhole

theorem isWhole_of_opens {rep : Reports b} {m : Machine F V E b.Q σ} {q : b.Q} {n : PyNum}
    {k : Answer V → b.Q} (h : opensWhole rep m) (hst : m.stack = .body p (.ready q) :: rest)
    (hn : b.next q m.world = (w, .setSize n, k)) (hk : rep.stage (k .unit) = .copying bytes i) :
    isWhole bytes := by
  simpa only [opensWhole, opens, hst, hn, hk, Option.all_some] using h

end Machine

/-! ## The tasks in such a run -/

/-- The progress of a task is a part of its size, and there is none before the task is called. -/
structure Task.Regular (t : Task F V E) : Prop extends t.Sized where
  fresh : t.status = .inactive → t.completed = .int 0

/-- A task whose function stands at `s`. -/
def Task.At (t : Task F V E) : Stage → Prop
  | .silent => t.status = .active ∧ t.completed = .int 0
  | .copying bytes n => isWhole bytes ∧ t.size = .int (bytes / mib : Nat) ∧ t.completed = .int n ∧
    n ≤ blocks bytes ∧ t.status = if n < blocks bytes then .active else .completed
  | .closed => True

namespace Task.Regular

variable {t : Task F V E}

theorem init {spec : TaskSpec F} (h : spec.Positive) : (Task.init spec : Task F V E).Regular where
  size_pos := h.size
  weight_pos := h.weight
  nonneg := le_rfl
  le := by simpa [Task.init, PyNum.toRat] using h.size.le
  done h := by cases h
  fresh _ := rfl

theorem complete (h : t.Regular) : t.complete.Regular where
  size_pos := h.size_pos
  weight_pos := h.weight_pos
  nonneg := h.size_pos.le
  le := le_rfl
  done _ := rfl
  fresh h := by cases h

/-- Only the status changes, to one that promises nothing. -/
theorem of_status {t' : Task F V E} (h : t.Regular) (hs : t'.size = t.size) (hw : t'.weight = t.weight)
    (hc : t'.completed = t.completed) (hd : t'.status ≠ .completed) (hi : t'.status ≠ .inactive) :
    t'.Regular where
  size_pos := hs ▸ h.size_pos
  weight_pos := hw ▸ h.weight_pos
  nonneg := hc ▸ h.nonneg
  le := hs ▸ hc ▸ h.le
  done h := (hd h).elim
  fresh h := (hi h).elim

theorem activate (h : t.Regular) : t.activate.Regular := h.of_status rfl rfl rfl (by simp) (by simp)

theorem fail (h : t.Regular) (e : E) : (t.fail e).Regular := h.of_status rfl rfl rfl (by simp) (by simp)

theorem setCancelled (h : t.Regular) : t.setCancelled.Regular :=
  h.of_status rfl rfl rfl (by simp) (by simp)

theorem setResult (h : t.Regular) (v : Option V) : (t.setResult v).Regular :=
  ⟨⟨h.size_pos, h.weight_pos, h.nonneg, h.le, h.done⟩, h.fresh⟩

theorem setError (h : t.Regular) (e : E) : (t.setError e).Regular :=
  ⟨⟨h.size_pos, h.weight_pos, h.nonneg, h.le, h.done⟩, h.fresh⟩

/-- The function opens its file. -/
theorem setSize (h : t.Regular) (hw : isWhole bytes) (ht : t.At .silent) :
    (t.setSize (.int (bytes / mib : Nat))).Regular ∧
      (t.setSize (.int (bytes / mib : Nat))).At (.copying bytes 0) := by
  obtain ⟨hs, hc⟩ := ht
  have hpos : 0 < bytes / mib := blocks_of_isWhole hw ▸ blocks_pos hw
  refine ⟨⟨⟨?_, h.weight_pos, h.nonneg, ?_, ?_⟩, ?_⟩, hw, rfl, hc, Nat.zero_le _, ?_⟩
  · simp only [Task.setSize, PyNum.toRat]
    exact_mod_cast hpos
  · simp only [Task.setSize, hc, PyNum.toRat]
    exact_mod_cast hpos.le
  · intro hd
    cases hs.symm.trans hd
  · intro hi
    cases hs.symm.trans hi
  · rw [if_pos (blocks_pos hw)]
    exact hs

/-- The function reports the next block; the task is still active. -/
theorem setCompleted (h : t.Regular) (hn : n < blocks bytes) (ht : t.At (.copying bytes n)) :
    (t.setCompleted (.int (n + 1 : Nat)) none).Regular := by
  obtain ⟨hw, hs, -, -, hst⟩ := ht
  rw [if_pos hn] at hst
  refine ⟨⟨h.size_pos, h.weight_pos, ?_, ?_, ?_⟩, ?_⟩
  · exact Int.cast_nonneg_iff.mpr (Int.natCast_nonneg _)
  · simp only [Task.setCompleted, hs, PyNum.toRat]
    rw [blocks_of_isWhole hw] at hn
    exact_mod_cast hn
  · intro hd
    cases hst.symm.trans hd
  · intro hi
    cases hst.symm.trans hi

end Task.Regular

namespace Task.At

variable {t : Task F V E}

theorem not_completed (h : t.At (.copying bytes n)) (hn : n < blocks bytes) : t.status ≠ .completed := by
  rw [h.2.2.2.2, if_pos hn]
  decide

theorem full_iff (h : t.At (.copying bytes n)) :
    (t.setCompleted (.int (n + 1 : Nat)) none).size.toRat ≤
      (t.setCompleted (.int (n + 1 : Nat)) none).completed.toRat ↔ blocks bytes ≤ n + 1 := by
  simp only [Task.setCompleted, h.2.1, PyNum.toRat, blocks_of_isWhole h.1]
  norm_cast

/-- There are blocks left after the report of this one. -/
theorem setCompleted (h : t.At (.copying bytes n)) (hn : n + 1 < blocks bytes) :
    (t.setCompleted (.int (n + 1 : Nat)) none).At (.copying bytes (n + 1)) := by
  obtain ⟨hw, hs, -, -, hst⟩ := h
  rw [if_pos (Nat.lt_of_succ_lt hn)] at hst
  exact ⟨hw, hs, rfl, hn.le, by rw [if_pos hn]; exact hst⟩

/-- The report of the last block completes the task. -/
theorem complete (h : t.At (.copying bytes n)) (hn : n + 1 = blocks bytes) :
    (t.setCompleted (.int (n + 1 : Nat)) none).complete.At (.copying bytes (n + 1)) := by
  obtain ⟨hw, hs, -, -, -⟩ := h
  refine ⟨hw, hs, ?_, hn.le, ?_⟩
  · rw [hn, blocks_of_isWhole hw]
    exact hs
  · rw [if_neg (by omega)]
    rfl

end Task.At

/-- Is this the loop inside `set_progress`? -/
def Frame.reports : Frame V Q → Bool
  | .subtasks _ _ .setProgress => true
  | .subtasks _ _ .call | .body .. | .run => false

namespace Machine

variable {b : Behaviour F V E σ} {rep : Reports b} {t t' : TaskTree F V E} {f f' g : Frame V b.Q}
  {rest : List (Frame V b.Q)}

/-- What a function waits for: a call, after which its task is as before, or the loop inside
`set_progress` after its last block, which completes the task. -/
def Linked (rep : Reports b) (t : TaskTree F V E) (f : Frame V b.Q) : Frame V b.Q → Prop
  | .body p (.waiting k) => p ≠ [] ∧ ∃ a, t.get? p = some a ∧
    if f.reports then a.status ≠ .completed ∧ a.complete.At (rep.stage (k (.stop false)))
    else ∀ r, a.At (rep.stage (k (.result r)))
  | .body _ (.ready _) | .body _ .tasklist => False
  | .subtasks .. | .run => True

/-- The tree changes, but not at the task of `g`. -/
theorem Linked.congr (h : Linked rep t f g) (hf : f'.reports = f.reports)
    (ht : g.path ≠ [] → ∀ a, t.get? g.path = some a → t'.get? g.path = some a) :
    Linked rep t' f' g := by
  cases g with
  | body p c =>
    cases c with
    | waiting k =>
      obtain ⟨hp, a, ha, hk⟩ := h
      exact ⟨hp, a, ht hp a ha, hf ▸ hk⟩
    | ready | tasklist => exact h
  | run | subtasks => exact h

theorem chain_congr (h : (f :: rest).IsChain (Linked rep t)) (hf : f'.reports = f.reports)
    (ht : ∀ g ∈ rest, g.path ≠ [] → ∀ a, t.get? g.path = some a → t'.get? g.path = some a) :
    (f' :: rest).IsChain (Linked rep t') := by
  cases h with
  | singleton => exact .singleton _
  | cons_cons hfg h =>
    refine .cons_cons (hfg.congr hf (ht _ List.mem_cons_self)) ?_
    exact h.imp_of_mem_tail_imp fun _ g _ hg hl => hl.congr rfl (ht g (List.mem_cons_of_mem _ hg))

/-- Only the task at `p` changes, and the functions below are those of tasks above it. -/
theorem chain_modify (h : (f :: rest).IsChain (Linked rep t)) (hf : f'.reports = f.reports)
    (hb : ∀ g ∈ rest, ∃ i r, p = i :: r ∧ g.path <:+ r) (u : Task F V E → Task F V E) :
    (f' :: rest).IsChain (Linked rep (t.modify p u)) := by
  refine chain_congr h hf fun g hg _ a ha => ?_
  rw [RoseTree.get?_modify_of_ne]
  · exact ha
  · rintro rfl
    exact not_suffix_of_below (hb g hg) List.suffix_rfl

/-- Every task reports a part of its size, and every function stands where its task says. -/
structure Reporting (rep : Reports b) (m : Machine F V E b.Q σ) : Prop where
  regular : m.tree.All Task.Regular
  top : ∀ {p q rest}, m.stack = .body p (.ready q) :: rest →
    ∃ a, m.tree.get? p = some a ∧ a.At (rep.stage q)
  below : m.stack.IsChain (Linked rep m.tree)

namespace Reporting

variable {m m' : Machine F V E b.Q σ}

theorem init {name : String} {tasks : List (SpecTree F)} {threaded : Bool} {w : σ}
    (ht : ∀ c ∈ tasks, c.All TaskSpec.Positive) :
    Reporting rep (Machine.init name tasks threaded w) where
  regular := by
    have hroot : (taskListSpec name : TaskSpec F).Positive := by
      constructor <;> norm_num [taskListSpec, PyNum.toRat]
    exact (RoseTree.All.node hroot ht).map fun _ h => .init h
  top h := by cases h
  below := .singleton _

/-- The function at the top goes on. -/
theorem of_acted (h : Reporting rep m) (hn : Nest m.stack) (hst : m.stack = .body p (.ready q) :: rest)
    (hst' : m'.stack = .body p (.ready q') :: rest) (hreg : m'.tree.All Task.Regular)
    (htop : ∃ a, m'.tree.get? p = some a ∧ a.At (rep.stage q'))
    (ht : ∀ r, r ≠ p → ∀ a, m.tree.get? r = some a → m'.tree.get? r = some a) : Reporting rep m' where
  regular := hreg
  top hs := by
    cases hst'.symm.trans hs
    exact htop
  below := by
    rw [hst']
    refine chain_congr (f := .body p (.ready q)) (hst ▸ h.below) rfl fun g hg _ => ht _ ?_
    rintro rfl
    exact not_suffix_of_below ((hst ▸ hn : Nest _).below_body g hg) List.suffix_rfl

/-- The function of the task at `p` is started. -/
theorem of_enters (h : Reporting rep m) (he : Enters b m m' p args st)
    (hst : (.body p .tasklist :: st).IsChain (Linked rep m'.tree)) : Reporting rep m' := by
  obtain ⟨a, ha, hi, hs⟩ := he.task
  refine ⟨?_, fun {p' q rest} hs' => ?_, ?_⟩
  · rw [he.tree]
    exact h.regular.modify fun _ => .activate
  · rw [hs] at hs'
    obtain ⟨⟨rfl, hc⟩, -⟩ := by simpa using hs'
    refine ⟨a.activate, by rw [he.tree, RoseTree.get?_modify_self, ha]; rfl, ?_⟩
    -- a function starts silent, and its task has not reported
    cases hf : a.associatedFunction with
    | tasklist => simp [hf, Behaviour.enter] at hc
    | code f =>
      simp only [hf, Behaviour.enter, Control.ready.injEq] at hc
      rw [← hc, rep.start]
      exact ⟨rfl, (h.regular p a ha).fresh hi⟩
  · rw [hs]
    exact chain_congr hst rfl fun _ _ _ _ ha => ha

/-- No function is at the top. -/
theorem of_quiet (hreg : m'.tree.All Task.Regular) (hst : m'.stack = st)
    (hch : st.IsChain (Linked rep m'.tree)) (hne : ∀ p q rest, st ≠ .body p (.ready q) :: rest) :
    Reporting rep m' where
  regular := hreg
  top hs := (hne _ _ _ (hst.symm.trans hs)).elim
  below := hst ▸ hch

/-- The call of the task of the frame above is over. -/
theorem of_returned {g : Frame V b.Q} (hreg : m'.tree.All Task.Regular)
    (hch : (g :: rest).IsChain (Linked rep m'.tree)) (hg : g.reports = false)
    (hst : m'.stack = deliver (.result r) rest) : Reporting rep m' := by
  cases hch with
  | singleton => exact of_quiet hreg hst .nil (by simp [deliver])
  | @cons_cons _ f _ hgf hch =>
    cases f with
    | body p c =>
      cases c with
      | waiting k =>
        obtain ⟨-, a, ha, hk⟩ := hgf
        rw [if_neg (by simp [hg])] at hk
        refine ⟨hreg, fun hs => ?_, ?_⟩
        · cases hst.symm.trans hs
          exact ⟨a, ha, hk r⟩
        · rw [hst]
          exact chain_congr hch rfl fun _ _ _ _ ha => ha
      | ready | tasklist => exact hgf.elim
    | run | subtasks => exact of_quiet hreg hst hch (by simp [deliver])

/-- The function reports its last block. -/
theorem of_filled {u : Task F V E → Task F V E} (h : Reporting rep m) (hn : Nest m.stack) (hp : p ≠ [])
    (hst : m.stack = .body p (.ready q) :: rest) (ha : m.tree.get? p = some a)
    (hreg : (u a).Regular) (hc : (u a).status ≠ .completed)
    (hk : (u a).complete.At (rep.stage (k (.stop false)))) (ht : m'.tree = m.tree.modify p u)
    (hst' : m'.stack = .subtasks p 0 .setProgress :: .body p (.waiting k) :: rest) :
    Reporting rep m' := by
  refine of_quiet ?_ hst' (.cons_cons ⟨hp, u a, ?_, ?_⟩ ?_) (by simp)
  · rw [ht]
    refine h.regular.modify_at fun a' ha' => ?_
    cases ha.symm.trans ha'
    exact hreg
  · rw [ht, RoseTree.get?_modify_self, ha]
    rfl
  · exact (if_pos rfl).mpr ⟨hc, hk⟩
  · rw [ht]
    exact chain_modify (f := .body p (.ready q)) (hst ▸ h.below) (by rfl) (hst ▸ hn : Nest _).below_body u

/-- The loop inside `set_progress` is over. -/
theorem of_progressed (h : Reporting rep m) (hn : Nest m.stack)
    (hst : m.stack = .subtasks p i .setProgress :: rest) (ht : m'.tree = (m.finish p).tree)
    (hst' : m'.stack = deliver (.stop false) rest) : Reporting rep m' := by
  obtain ⟨c, rest', rfl, hn'⟩ := (hst ▸ hn : Nest _).below_progress
  cases (hst ▸ h.below : List.IsChain _ _) with
  | cons_cons hl hch =>
    cases c with
    | waiting k =>
      obtain ⟨-, a, ha, hc, hk⟩ := hl
      rw [tree_finish, if_neg (by simpa [status?, ha] using hc)] at ht
      refine ⟨?_, fun hs => ?_, ?_⟩
      · rw [ht]
        exact h.regular.modify fun _ => .complete
      · cases hst'.symm.trans hs
        refine ⟨_, ?_, hk⟩
        rw [ht, RoseTree.get?_modify_self, ha]
        rfl
      · rw [hst', ht]
        exact chain_modify hch (by rfl) hn'.below_body _
    | ready | tasklist => exact hl.elim

theorem isFull_modify {u : Task F V E → Task F V E} (ha : m.tree.get? p = some a) :
    (m.modify p u).isFull p = decide ((u a).size.toRat ≤ (u a).completed.toRat) := by
  rw [isFull, modify, RoseTree.get?_modify_self, ha]
  rfl

/-- The function at the top changes its own task. -/
theorem of_modified {u : Task F V E → Task F V E} (h : Reporting rep m) (hn : Nest m.stack)
    (hst : m.stack = .body p (.ready q) :: rest) (hst' : m'.stack = .body p (.ready q') :: rest)
    (hx : m.tree.get? p = some x) (ht : m'.tree = m.tree.modify p u) (hreg : (u x).Regular)
    (hat : (u x).At (rep.stage q')) : Reporting rep m' := by
  refine h.of_acted hn hst hst' ?_ ⟨u x, ?_, hat⟩ fun r hr a ha => ?_
  · rw [ht]
    refine h.regular.modify_at fun a ha => ?_
    cases hx.symm.trans ha
    exact hreg
  · rw [ht, RoseTree.get?_modify_self, hx]
    rfl
  · rwa [ht, RoseTree.get?_modify_of_ne hr]

/-- What the function at the top does is allowed where it stands. -/
theorem of_effect {p : Path} {q : b.Q} {k : Answer V → b.Q} {rest : List (Frame V b.Q)}
    (h : Reporting rep m) (hn : Nest m.stack) (hg : opensWhole rep m)
    (hst : m.stack = .body p (.ready q) :: rest) (hnext : b.next q m.world = (w, a, k))
    (heff : Effect m p a t ans) (ht : m'.tree = t)
    (hst' : m'.stack = .body p (.ready (k ans)) :: rest) : Reporting rep m' := by
  obtain ⟨x, hx, hat⟩ := h.top hst
  have hallow := rep.next hnext
  have hsame (ht : m'.tree = m.tree) (hat : x.At (rep.stage (k ans))) : Reporting rep m' :=
    h.of_acted hn hst hst' (ht ▸ h.regular) ⟨x, ht ▸ hx, hat⟩ fun _ _ _ ha => ht ▸ ha
  generalize hstage : rep.stage q = s at hallow hat
  cases heff with
  | tau =>
    cases hallow with
    | tau hk => exact hsame ht (hk ▸ hat)
  | refused =>
    cases hallow with
    | call hk => exact hsame ht (hk none ▸ hat)
  | cancelled =>
    cases hallow with
    | setProgress _ _ hk => exact hsame ht (by rw [hk]; trivial)
  | addSubtask c =>
    cases hallow with
    | addSubtask hc hk =>
      have hsome := Option.isSome_of_eq_some hx
      refine h.of_acted hn hst hst' ?_ ⟨x, ?_, hk _ ▸ hat⟩ fun r _ a ha => ?_
      · rw [ht]
        exact h.regular.addChild (hc.map fun _ h => .init h) hsome
      · rw [ht, RoseTree.get?_addChild_old hx]
      · rw [ht, RoseTree.get?_addChild_old ha]
  | setSize n =>
    cases hallow with
    | setSize hk =>
      obtain ⟨hreg, hat⟩ := (h.regular p x hx).setSize (isWhole_of_opens hg hst hnext hk) hat
      exact h.of_modified hn hst hst' hx ht hreg (hk ▸ hat)
  | progress hf =>
    cases hallow with
    | setProgress hlt hk =>
      rw [isFull_modify hx, decide_eq_false_iff_not, hat.full_iff, Nat.not_le] at hf
      exact h.of_modified hn hst hst' hx ht ((h.regular p x hx).setCompleted hlt hat)
        (hk ▸ hat.setCompleted hf)
  | finish =>
    cases hallow with
    | finish hle hk =>
      have hdone : m.tree.status? p = some .completed := by
        rw [status?, hx, Option.map_some, hat.2.2.2.2, if_neg (Nat.not_lt.mpr hle)]
      rw [tree_finish, if_pos hdone] at ht
      exact hsame ht (by rw [hk]; trivial)

/-- The function at the top calls a subtask, and will stand where it stands now. -/
theorem of_called {p : Path} {q : b.Q} {k : Answer V → b.Q} {rest : List (Frame V b.Q)}
    (h : Reporting rep m) (hn : Nest m.stack) (hp : p ≠ [])
    (hst : m.stack = .body p (.ready q) :: rest) (hnext : b.next q m.world = (w, .call i args, k))
    (he : Enters b m m' (i :: p) args (.body p (.waiting k) :: rest)) : Reporting rep m' := by
  obtain ⟨x, hx, hat⟩ := h.top hst
  have hallow := rep.next hnext
  generalize hstage : rep.stage q = s at hallow hat
  cases hallow with
  | call hk =>
    have hne : p ≠ i :: p := by simp
    refine h.of_enters he (.cons_cons ⟨hp, x, ?_, ?_⟩ ?_)
    · rwa [he.tree, RoseTree.get?_modify_of_ne hne]
    · exact (if_neg (by simp [Frame.reports])).mpr fun r => hk r ▸ hat
    · rw [he.tree]
      refine chain_modify (f := .body p (.ready q)) (hst ▸ h.below) (by rfl) (fun g hg => ?_) _
      obtain ⟨j, r, rfl, hr⟩ := (hst ▸ hn : Nest _).below_body g hg
      exact ⟨i, _, rfl, hr.trans (List.suffix_cons ..)⟩

theorem step (h : Reporting rep m) (hn : Nest m.stack)
    (hp : ∀ {p q rest}, m.stack = .body p (.ready q) :: rest → p ≠ []) (hs : m.step b = some m')
    (hg : opensWhole rep m) : Reporting rep m' := by
  cases step_move hs with
  | acted hst hnext heff ht hst' => exact h.of_effect hn hg hst hnext heff ht hst'
  | called hst hnext _ he => exact h.of_called hn (hp hst) hst hnext he
  | @filled p q w completed size message k rest hst hnext hfull ht hst' =>
    obtain ⟨x, hx, hat⟩ := h.top hst
    have hallow := rep.next hnext
    generalize hstage : rep.stage q = s at hallow hat
    cases hallow with
    | setProgress hlt hk =>
      rw [isFull_modify hx, decide_eq_true_eq, hat.full_iff] at hfull
      refine h.of_filled hn (hp hst) hst hx ((h.regular p x hx).setCompleted hlt hat)
        (hat.not_completed hlt) ?_ ht hst'
      exact hk ▸ hat.complete (Nat.le_antisymm hlt hfull)
  | ended hst _ ht hst' =>
    refine of_quiet ?_ hst' ?_ (by simp)
    · rw [ht]
      exact h.regular.modify fun _ h => h.setResult _
    · rw [ht]
      exact chain_modify (hst ▸ h.below) (by rfl) (hst ▸ hn : Nest _).below_body _
  | failed hst _ _ ht hst' =>
    refine of_quiet ?_ hst' ?_ (by simp)
    · rw [ht]
      exact (h.regular.modify fun _ h => h.fail _).modify fun _ h => h.setResult _
    · rw [ht]
      refine chain_modify ?_ (by rfl) (hst ▸ hn : Nest _).below_body _
      exact chain_modify (hst ▸ h.below) (by rfl) (hst ▸ hn : Nest _).below_body _
  | @aborted p q w e k rest hst _ _ ht hst' =>
    refine of_returned (g := .body p (.ready q)) ?_ ?_ rfl hst'
    · rw [ht]
      refine RoseTree.All.modify ?_ fun _ => .setCancelled
      exact (h.regular.modify fun _ h => h.fail _).modify fun _ h => h.setError _
    · refine chain_congr (hst ▸ h.below) (by rfl) fun g hg hne a ha => ?_
      rw [ht, RoseTree.get?_modify_of_ne hne, RoseTree.get?_modify_of_ne hne, RoseTree.get?_modify_of_ne]
      · exact ha
      · rintro rfl
        exact not_suffix_of_below ((hst ▸ hn : Nest _).below_body g hg) List.suffix_rfl
  | @looped p i caller rest hst hi he =>
    refine h.of_enters he (.cons_cons trivial ?_)
    rw [he.tree]
    refine chain_modify (hst ▸ h.below) (by cases caller <;> rfl) (fun g hg => ?_) _
    exact ⟨i, p, rfl, (hst ▸ hn : Nest _).suffix_of_mem (g := .subtasks p i caller) hg⟩
  | @skipped p i caller rest hst hi href ht hst' =>
    refine of_quiet (ht ▸ h.regular) hst' ?_ (by simp)
    rw [ht]
    exact chain_congr (hst ▸ h.below) (by cases caller <;> rfl) fun _ _ _ _ ha => ha
  | @returned p i ans rest hst hi ht hst' =>
    refine of_returned (g := .subtasks p i .call) ?_ ?_ rfl hst'
    · rw [ht, tree_finish]
      split
      · exact h.regular
      · exact h.regular.modify fun _ => .complete
    · rw [ht, tree_finish]
      split
      · exact hst ▸ h.below
      · exact chain_modify (hst ▸ h.below) (by rfl) (hst ▸ hn : Nest _).below_loop _
  | progressed hst _ ht hst' => exact h.of_progressed hn hst ht hst'
  | @ran rest hst he =>
    obtain rfl : rest = [] := (hst ▸ hn : Nest _).below_run
    exact h.of_enters he (.singleton _)
  | @refused rest hst _ ht hst' =>
    obtain rfl : rest = [] := (hst ▸ hn : Nest _).below_run
    exact of_quiet (ht ▸ h.regular) hst' .nil (by simp)

theorem cancel (h : Reporting rep m)
    (hp : ∀ {p q rest}, m.stack = .body p (.ready q) :: rest → p ≠ []) : Reporting rep m.cancel := by
  have hkept {p : Path} {a : Task F V E} (hne : p ≠ []) (ha : m.tree.get? p = some a) :
      m.cancel.tree.get? p = some a := (RoseTree.get?_modify_of_ne hne _).trans ha
  refine ⟨h.regular.modify fun _ => .setCancelled, fun {p q rest} hs => ?_, ?_⟩
  · obtain ⟨a, ha, hat⟩ := h.top hs
    exact ⟨a, hkept (hp hs) ha, hat⟩
  · exact h.below.imp fun _ _ hl => hl.congr rfl fun hne _ ha => hkept hne ha

/-- A function adds subtasks before it reports, and it calls `finish` only after the last block, when
its task is completed. -/
theorem inTime (h : Reporting rep m) (hv : Sound m) (ht : OnTrack m) : inTime b m := by
  unfold Machine.inTime
  split
  · next hn =>
    obtain ⟨q, w, k, rest, hst, hnext⟩ := of_nextAct hn
    obtain ⟨a, ha, hat⟩ := h.top hst
    have hallow := rep.next hnext
    generalize rep.stage q = s at hallow hat
    cases hallow with
    | addSubtask => simp [status?, ha, hat.1]
  · next p hn =>
    obtain ⟨q, w, k, rest, hst, hnext⟩ := of_nextAct hn
    obtain ⟨a, ha, hat⟩ := h.top hst
    have hallow := rep.next hnext
    generalize rep.stage q = s at hallow hat
    cases hallow with
    | finish hle =>
      have hdone : m.tree.status? p = some .completed := by
        rw [status?, ha, Option.map_some, hat.2.2.2.2, if_neg (Nat.not_lt.mpr hle)]
      rw [List.all_eq_true]
      intro j hj
      obtain ⟨x, hx⟩ := Option.isSome_iff_exists.mp
        (RoseTree.isSome_get?_cons.mpr (List.mem_range.mp hj))
      have hs : m.tree.status? (j :: p) = some x.status := by simp [status?, hx]
      rw [List.contains_iff_mem]
      by_contra hns
      exact ht.completed hdone j (hs.trans (congrArg some (hv.unstarted hs hns (by simp))))
  · rfl

end Reporting

/-! ## Runs -/

/-- A step of the thread that opens only files of a whole number of MB, or the user cancels. -/
inductive WholeStep (rep : Reports b) : Machine F V E b.Q σ → Machine F V E b.Q σ → Prop
  | run {m m'} : opensWhole rep m → m.step b = some m' → WholeStep rep m m'
  | cancel {m} : WholeStep rep m m.cancel

abbrev WholeRun (rep : Reports b) : Machine F V E b.Q σ → Machine F V E b.Q σ → Prop :=
  Relation.ReflTransGen (WholeStep rep)

section

variable {m m₀ : Machine F V E b.Q σ} {name : String} {tasks : List (SpecTree F)} {threaded : Bool} {w : σ}
  {calls : List (Path × List V)}

theorem WholeRun.run (h : WholeRun rep m₀ m) : Run b m₀ m := by
  induction h with
  | refl => exact .refl
  | tail _ hs ih =>
    cases hs with
    | run _ hs => exact ih.tail (.run hs)
    | cancel => exact ih.tail .cancel

/-- The root's own function never reports. -/
theorem ne_nil_of_run (hr : Run b (init name tasks threaded w) m) {p : Path} {q : b.Q}
    {rest : List (Frame V b.Q)} (hst : m.stack = .body p (.ready q) :: rest) : p ≠ [] := by
  obtain ⟨-, -, hp, -⟩ := run_invariants hr
  exact Undecided.ne_nil_of_ready hp hst

theorem WholeRun.reporting (ht : ∀ c ∈ tasks, c.All TaskSpec.Positive)
    (h : WholeRun rep (init name tasks threaded w) m) : Reporting rep m := by
  induction h with
  | refl => exact .init ht
  | @tail m m' h hs ih =>
    have hr := WholeRun.run h
    cases hs with
    | run hg hs => exact ih.step (.run hr) (ne_nil_of_run hr) hs hg
    | cancel => exact ih.cancel (ne_nil_of_run hr)

theorem Smooth.reporting (ht : ∀ c ∈ tasks, c.All TaskSpec.Positive)
    (h : Smooth b (fun _ m => opensWhole rep m) (init name tasks threaded w) calls m) :
    Reporting rep m ∧ OnTrack m := by
  induction h with
  | refl => exact ⟨.init ht, .init ..⟩
  | step h hg hr hs ih =>
    obtain ⟨hrep, htrack⟩ := ih
    exact ⟨hrep.step h.nest (ne_nil_of_run h.run) hs hg,
      htrack.step h.sound h.nest hs hr (hrep.inTime h.sound htrack)⟩

/-- A step changes neither the sizes nor the progress after it has called the listeners, so that they
see the numbers of a reachable state. -/
theorem progress_fraction (rep : Reports b) (ht : ∀ c ∈ tasks, c.All TaskSpec.Positive) :
    (∀ m, WholeRun rep (init name tasks threaded w) m →
      (0 ≤ m.tree.getPercentOfTasksCompleted ∧ m.tree.getPercentOfTasksCompleted ≤ 1) ∧
        ∀ p (s : TaskTree F V E), m.tree.subtree? p = some s →
          0 ≤ s.getPercentCompleted ∧ s.getPercentCompleted ≤ 1) ∧
    ∀ calls m, Smooth b (fun _ m => opensWhole rep m) (init name tasks threaded w) calls m →
      m.stack = [] → m.tree.getPercentOfTasksCompleted = 1 ∧ m.tree.getPercentCompleted = 1 := by
  refine ⟨fun m h => ?_, fun calls m h hst => ?_⟩
  · have hsized : m.tree.All Task.Sized := fun p a ha => ((h.reporting ht).regular p a ha).toSized
    exact ⟨percentOfTasks_mem hsized, fun p s hs => percentCompleted_mem (hsized.subtree hs)⟩
  · obtain ⟨hrep, htrack⟩ := h.reporting ht
    have hsized : m.tree.All Task.Sized := fun p a ha => (hrep.regular p a ha).toSized
    have hroot : m.tree.status? [] ≠ some .inactive := by
      intro hi
      obtain ⟨s, hs, hne⟩ := h.sound.started [] (h.executed.root.resolve_left (by simp [hst]))
      exact hne (Option.some.inj (hs.symm.trans hi))
    have hdone : m.tree.All fun a => a.status = .completed := fun p a ha =>
      htrack.all_completed (p := p) hroot hst (by rw [status?, ha]; rfl)
    exact ⟨percentOfTasks_done hsized hdone, percentCompleted_done hsized hdone⟩

end

end Machine

/-! ## The two functions -/

inductive Reader where
  | copyFile | getFileMd5

/-- Does the loop read a further block, after `n` of them? `copy_file` also stops when the number of
blocks reaches the size in bytes, and `get_file_md5` makes at most `file_size + 1` turns. -/
def Reader.reads : Reader → (bytes n : Nat) → Bool
  | .copyFile, bytes, n => (n = 0 || n < bytes) && n * mib < bytes
  | .getFileMd5, bytes, n => n < bytes / mib + 1 && n * mib < bytes

/-- Neither of these bounds is ever reached before the end of the file. -/
theorem Reader.reads_iff (r : Reader) : r.reads bytes n ↔ n < blocks bytes := by
  rw [lt_blocks]
  constructor
  · intro h
    cases r with
    | copyFile | getFileMd5 => exact of_decide_eq_true (Bool.and_eq_true_iff.mp h).2
  · intro h
    have hbound : (n = 0 ∨ n < bytes) ∧ n < bytes / mib + 1 := by
      unfold mib at *
      omega
    cases r with
    | copyFile => simpa [Reader.reads, h] using hbound.1
    | getFileMd5 => simpa [Reader.reads, h] using hbound.2

inductive ReaderState where
  | start (r : Reader) (bytes : Nat)
  | loop (r : Reader) (bytes n : Nat)
  | closed

/-- `copy_file` and `get_file_md5` of a file of so many bytes, without the data. -/
def readers : Behaviour (Reader × Nat) V E σ where
  Q := ReaderState
  start f _ := .start f.1 f.2
  next q w := match q with
    | .start r bytes => (w, .setSize (.int (bytes / mib : Nat)), fun _ => .loop r bytes 0)
    | .loop r bytes n =>
      if r.reads bytes n then
        (w, .setProgress (.int (n + 1 : Nat)) none none, fun
          | .stop true => .closed
          | _ => .loop r bytes (n + 1))
      else (w, .finish, fun _ => .closed)
    | .closed => (w, .ret none, fun _ => .closed)
  errText _ := ""

def readersReports : Reports (readers : Behaviour (Reader × Nat) V E σ) where
  stage
    | .start .. => .silent
    | .loop _ bytes n => .copying bytes n
    | .closed => .closed
  start _ _ := rfl
  next {q w w' a k} h := by
    cases q with
    | start => cases h; exact .setSize rfl
    | closed => cases h; exact .ret
    | loop r bytes n =>
      simp only [readers] at h
      split at h
      · next hr => cases h; exact .setProgress (r.reads_iff.mp hr) rfl rfl
      · next hr => cases h; exact .finish (Nat.le_of_not_lt (mt r.reads_iff.mpr hr)) rfl

private def fileTask (r : Reader) (bytes : Nat) : SpecTree (Reader × Nat) :=
  .node { associatedFunction := .code (r, bytes), name := "file", weight := .int 2 } []

private abbrev readersInit (tasks : List (SpecTree (Reader × Nat))) :
    Machine (Reader × Nat) Unit Unit ReaderState Unit := .init "list" tasks true ()

namespace Machine

/-- A copy of two blocks and the checksum of one. -/
theorem progress_fraction_whole :
    let tasks := [fileTask .copyFile 2097152, fileTask .getFileMd5 1048576]
    ∃ calls m, Smooth readers (fun _ m => opensWhole readersReports m) (readersInit tasks) calls m ∧
      m.stack = [] ∧ m.tree.getPercentOfTasksCompleted = 1 ∧ m.tree.getPercentCompleted = 1 := by
  intro tasks
  have ht : ∀ c ∈ tasks, c.All TaskSpec.Positive := by
    have hpos (r : Reader) (bytes : Nat) : (fileTask r bytes).All TaskSpec.Positive := by
      refine .node ?_ (by simp)
      constructor <;> norm_num [PyNum.toRat]
    simp [tasks, hpos]
  have hr : (smoothSteps readers (fun _ m => opensWhole readersReports m) 18 []
      (readersInit tasks)).map (·.2.stack.isEmpty) = some true := by decide
  obtain ⟨⟨calls, m⟩, hx, hst⟩ := Option.map_eq_some_iff.mp hr
  have hrun := smooth_of_smoothSteps 18 .refl hx
  have hst := List.isEmpty_iff.mp hst
  exact ⟨calls, m, hrun, hst, (progress_fraction readersReports ht).2 calls m hrun hst⟩

/-- A copy of a block and a half: the second report comes when the task of size 1 is completed. -/
theorem progress_beyond_one :
    ∃ calls m, Smooth readers (fun _ _ => true) (readersInit [fileTask .copyFile 1572864]) calls m ∧
      m.stack = [] ∧ m.tree.getPercentOfTasksCompleted = 3 / 2 ∧ 1 < m.tree.getPercentCompleted := by
  have hr : (smoothSteps readers (fun _ _ => true) 12 []
      (readersInit [fileTask .copyFile 1572864])).map (fun x => (x.2.stack.isEmpty,
        x.2.tree.getPercentOfTasksCompleted, decide (1 < x.2.tree.getPercentCompleted))) =
      some (true, 3 / 2, true) := by decide +kernel
  obtain ⟨⟨calls, m⟩, hx, hm⟩ := Option.map_eq_some_iff.mp hr
  simp only [Prod.mk.injEq, List.isEmpty_iff, decide_eq_true_eq] at hm
  exact ⟨calls, m, smooth_of_smoothSteps 12 .refl hx, hm⟩

end Machine

end Swinst.TaskList
