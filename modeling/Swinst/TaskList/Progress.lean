import Swinst.TaskList.Task
import Swinst.Data.TreeSum
import Mathlib.Algebra.Order.Field.Basic
import Mathlib.Algebra.Order.Field.Rat
import Mathlib.Algebra.Order.Ring.Cast

/-! The progress that a task tree reports: the share of its tasks that is completed, and the
weighted share of the work. -/

namespace Swinst.TaskList

variable {F V E : Type}

namespace PyNum

def mul : PyNum → PyNum → PyNum
  | int a, int b => int (a * b)
  | x, y => float (x.toRat * y.toRat)

/-- Division of Python 2, which rounds down between integers. -/
def div : PyNum → PyNum → PyNum
  | int a, int b => int (a.fdiv b)
  | x, y => float (x.toRat / y.toRat)

theorem toRat_mul (x y : PyNum) : (x.mul y).toRat = x.toRat * y.toRat := by
  cases x with
  | int a =>
    cases y with
    | int b => exact Int.cast_mul a b
    | float => rfl
  | float => rfl

theorem truthy_of_pos {x : PyNum} (h : 0 < x.toRat) : x.truthy = true := by
  simpa [truthy] using h.ne'

/-- A part of a positive number is at most 1, also when the division rounds. -/
theorem div_mem_unit {x y : PyNum} (hx : 0 ≤ x.toRat) (hxy : x.toRat ≤ y.toRat) (hy : 0 < y.toRat) :
    0 ≤ (x.div y).toRat ∧ (x.div y).toRat ≤ 1 := by
  have hq : 0 ≤ x.toRat / y.toRat ∧ x.toRat / y.toRat ≤ 1 :=
    ⟨div_nonneg hx hy.le, (div_le_one hy).mpr hxy⟩
  cases x with
  | float => exact hq
  | int a =>
    cases y with
    | float => exact hq
    | int b =>
      simp only [toRat, Int.cast_nonneg_iff, Int.cast_le, Int.cast_pos] at hx hxy hy
      have hdiv : a.fdiv b = a / b := Int.fdiv_eq_ediv_of_nonneg a hy.le
      simp only [div, toRat, hdiv, Int.cast_nonneg_iff]
      refine ⟨Int.ediv_nonneg hx hy.le, ?_⟩
      have h1 : a / b ≤ 1 := by
        have := Int.ediv_le_ediv hy hxy
        rwa [Int.ediv_self hy.ne'] at this
      exact_mod_cast h1

theorem div_same {x : PyNum} (hx : 0 < x.toRat) : (x.div x).toRat = 1 := by
  cases x with
  | float => exact div_self hx.ne'
  | int a =>
    have ha : a ≠ 0 := by
      rintro rfl
      simp [toRat] at hx
    simp [div, toRat, Int.fdiv_self ha]

end PyNum

/-! ## What one task contributes -/

namespace Task

/-- `float(self.completed/self.size)`, or `float(self.completed)` of a task of size 0 -/
def completedShare (t : Task F V E) : Rat :=
  if t.size.truthy then (t.completed.div t.size).toRat else t.completed.toRat

/-- `float(self.completed*self.weight)` -/
def completedWork (t : Task F V E) : Rat := (t.completed.mul t.weight).toRat

/-- `float(self.size*self.weight)` -/
def work (t : Task F V E) : Rat := (t.size.mul t.weight).toRat

/-- The progress of a task is a part of its size. -/
structure Sized (t : Task F V E) : Prop where
  size_pos : 0 < t.size.toRat
  weight_pos : 0 < t.weight.toRat
  nonneg : 0 ≤ t.completed.toRat
  le : t.completed.toRat ≤ t.size.toRat
  done : t.status = .completed → t.completed = t.size

namespace Sized

variable {t : Task F V E}

theorem share_mem (h : t.Sized) : 0 ≤ t.completedShare ∧ t.completedShare ≤ 1 := by
  rw [completedShare, if_pos (PyNum.truthy_of_pos h.size_pos)]
  exact PyNum.div_mem_unit h.nonneg h.le h.size_pos

theorem work_pos (h : t.Sized) : 0 < t.work := by
  rw [work, PyNum.toRat_mul]
  exact mul_pos h.size_pos h.weight_pos

theorem work_mem (h : t.Sized) : 0 ≤ t.completedWork ∧ t.completedWork ≤ t.work := by
  rw [work, completedWork, PyNum.toRat_mul, PyNum.toRat_mul]
  exact ⟨mul_nonneg h.nonneg h.weight_pos.le, mul_le_mul_of_nonneg_right h.le h.weight_pos.le⟩

theorem share_done (h : t.Sized) (hc : t.status = .completed) : t.completedShare = 1 := by
  rw [completedShare, if_pos (PyNum.truthy_of_pos h.size_pos), h.done hc]
  exact PyNum.div_same h.size_pos

theorem work_done (h : t.Sized) (hc : t.status = .completed) : t.completedWork = t.work := by
  rw [completedWork, work, h.done hc]

end Sized

end Task

/-! ## What a tree reports -/

namespace TaskTree

/-- `count_subtasks` -/
def countSubtasks (t : TaskTree F V E) : Rat := t.sum fun _ => 1

/-- `count_completed_subtasks` -/
def countCompletedSubtasks (t : TaskTree F V E) : Rat := t.sum Task.completedShare

/-- `get_percent_of_tasks_completed` -/
def getPercentOfTasksCompleted (t : TaskTree F V E) : Rat :=
  if t.countSubtasks ≠ 0 then t.countCompletedSubtasks / t.countSubtasks else 0

/-- `_get_completed` -/
def getCompleted (t : TaskTree F V E) : Rat := t.sum Task.completedWork

/-- `_get_weight` -/
def getWeight (t : TaskTree F V E) : Rat := t.sum Task.work

/-- `get_percent_completed` -/
def getPercentCompleted (t : TaskTree F V E) : Rat :=
  if t.getWeight ≠ 0 then t.getCompleted / t.getWeight else 0

section

variable {t : TaskTree F V E}

theorem countSubtasks_pos (t : TaskTree F V E) : 0 < t.countSubtasks :=
  RoseTree.sum_pos fun _ _ _ => one_pos

theorem getWeight_pos (h : t.All Task.Sized) : 0 < t.getWeight :=
  RoseTree.sum_pos fun p a ha => (h p a ha).work_pos

theorem percentOfTasks_mem (h : t.All Task.Sized) :
    0 ≤ t.getPercentOfTasksCompleted ∧ t.getPercentOfTasksCompleted ≤ 1 := by
  have hpos := countSubtasks_pos t
  have hle : t.countCompletedSubtasks ≤ t.countSubtasks :=
    RoseTree.sum_le_sum fun p a ha => (h p a ha).share_mem.2
  have hnonneg : 0 ≤ t.countCompletedSubtasks :=
    RoseTree.sum_nonneg fun p a ha => (h p a ha).share_mem.1
  rw [getPercentOfTasksCompleted, if_pos hpos.ne']
  exact ⟨div_nonneg hnonneg hpos.le, (div_le_one hpos).mpr hle⟩

theorem percentCompleted_mem (h : t.All Task.Sized) :
    0 ≤ t.getPercentCompleted ∧ t.getPercentCompleted ≤ 1 := by
  have hpos := getWeight_pos h
  have hle : t.getCompleted ≤ t.getWeight :=
    RoseTree.sum_le_sum fun p a ha => (h p a ha).work_mem.2
  have hnonneg : 0 ≤ t.getCompleted := RoseTree.sum_nonneg fun p a ha => (h p a ha).work_mem.1
  rw [getPercentCompleted, if_pos hpos.ne']
  exact ⟨div_nonneg hnonneg hpos.le, (div_le_one hpos).mpr hle⟩

theorem percentOfTasks_done (h : t.All Task.Sized) (hd : t.All fun a => a.status = .completed) :
    t.getPercentOfTasksCompleted = 1 := by
  have hpos := countSubtasks_pos t
  have heq : t.countCompletedSubtasks = t.countSubtasks :=
    RoseTree.sum_congr fun p a ha => (h p a ha).share_done (hd p a ha)
  rw [getPercentOfTasksCompleted, if_pos hpos.ne', heq, div_self hpos.ne']

theorem percentCompleted_done (h : t.All Task.Sized) (hd : t.All fun a => a.status = .completed) :
    t.getPercentCompleted = 1 := by
  have hpos := getWeight_pos h
  have heq : t.getCompleted = t.getWeight :=
    RoseTree.sum_congr fun p a ha => (h p a ha).work_done (hd p a ha)
  rw [getPercentCompleted, if_pos hpos.ne', heq, div_self hpos.ne']

end

end TaskTree

end Swinst.TaskList
