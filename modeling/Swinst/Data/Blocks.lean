import Mathlib.Data.List.Basic

/-! A list that is read `n` items at a time, until a read gives nothing. -/

namespace Swinst.Blocks

variable {α : Type} {n : Nat}

/-- What the first `fuel` reads give. -/
def reads (n : Nat) : (fuel : Nat) → List α → List (List α)
  | 0, _ => []
  | fuel + 1, s => if s = [] then [] else s.take n :: reads n fuel (s.drop n)

/-- What all reads give; each takes an item at least. -/
def blocks (n : Nat) (s : List α) : List (List α) := reads n s.length s

@[simp] theorem reads_nil (n fuel : Nat) : reads n fuel ([] : List α) = [] := by
  cases fuel <;> rfl

theorem reads_of_ne_nil {s : List α} (hs : s ≠ []) (n fuel : Nat) :
    reads n (fuel + 1) s = s.take n :: reads n fuel (s.drop n) := if_neg hs

theorem flatten_reads (n fuel : Nat) (s : List α) :
    (reads n fuel s).flatten = s.take (fuel * n) := by
  induction fuel generalizing s with
  | zero => simp [reads]
  | succ fuel ih =>
    by_cases hs : s = []
    · simp [hs]
    · rw [reads_of_ne_nil hs, List.flatten_cons, ih, ← List.take_add, Nat.succ_mul, Nat.add_comm]

theorem length_reads_le (n fuel : Nat) (s : List α) : (reads n fuel s).length ≤ fuel := by
  induction fuel generalizing s with
  | zero => exact Nat.le_refl 0
  | succ fuel ih =>
    by_cases hs : s = []
    · simp [hs]
    · rw [reads_of_ne_nil hs, List.length_cons]
      exact Nat.succ_le_succ (ih _)

/-- Reads behind the end give nothing. -/
theorem reads_eq {fuel fuel' : Nat} {s : List α} (h : s.length ≤ fuel * n)
    (h' : s.length ≤ fuel' * n) : reads n fuel s = reads n fuel' s := by
  induction fuel generalizing s fuel' with
  | zero =>
    obtain rfl : s = [] := List.eq_nil_of_length_eq_zero (by omega)
    simp
  | succ fuel ih =>
    by_cases hs : s = []
    · simp [hs]
    cases fuel' with
    | zero => exact (hs (List.eq_nil_of_length_eq_zero (by omega))).elim
    | succ fuel' =>
      rw [Nat.succ_mul] at h h'
      rw [reads_of_ne_nil hs, reads_of_ne_nil hs]
      congr 1
      apply ih
      · rw [List.length_drop]
        omega
      · rw [List.length_drop]
        omega

theorem reads_eq_blocks (hn : 0 < n) {fuel : Nat} {s : List α} (h : s.length ≤ fuel * n) :
    reads n fuel s = blocks n s := reads_eq h (Nat.le_mul_of_pos_right _ hn)

theorem take_reads (n fuel k : Nat) (s : List α) :
    (reads n fuel s).take k = reads n (min k fuel) s := by
  induction fuel generalizing k s with
  | zero => simp [reads]
  | succ fuel ih =>
    by_cases hs : s = []
    · simp [hs]
    cases k with
    | zero => simp [reads]
    | succ k => rw [reads_of_ne_nil hs, Nat.succ_min_succ, reads_of_ne_nil hs, List.take_succ_cons, ih]

theorem flatten_blocks (hn : 0 < n) (s : List α) : (blocks n s).flatten = s := by
  rw [blocks, flatten_reads]
  exact List.take_of_length_le (Nat.le_mul_of_pos_right _ hn)

theorem flatten_take_blocks (hn : 0 < n) (k : Nat) (s : List α) :
    ((blocks n s).take k).flatten = s.take (k * n) := by
  rw [blocks, take_reads, flatten_reads]
  rcases Nat.le_total k s.length with hk | hk
  · rw [Nat.min_eq_left hk]
  · have hlen : s.length ≤ s.length * n := Nat.le_mul_of_pos_right _ hn
    rw [Nat.min_eq_right hk, List.take_of_length_le hlen,
      List.take_of_length_le (Nat.le_trans hlen (Nat.mul_le_mul_right n hk))]

/-- There are at most as many blocks as whole blocks fit in, and one more. -/
theorem length_blocks_le (hn : 0 < n) (s : List α) : (blocks n s).length ≤ s.length / n + 1 := by
  have hfuel : s.length ≤ (s.length / n + 1) * n :=
    Nat.le_of_lt (Nat.lt_mul_of_div_lt (Nat.lt_succ_self _) hn)
  rw [← reads_eq_blocks hn hfuel]
  exact length_reads_le ..

theorem ne_nil_of_mem_reads (hn : 0 < n) {fuel : Nat} {s block : List α}
    (h : block ∈ reads n fuel s) : block ≠ [] := by
  induction fuel generalizing s with
  | zero => cases h
  | succ fuel ih =>
    by_cases hs : s = []
    · simp [hs] at h
    rw [reads_of_ne_nil hs] at h
    rcases List.mem_cons.mp h with rfl | h
    · rw [Ne, List.take_eq_nil_iff]
      rintro (rfl | hnil)
      · cases hn
      · exact hs hnil
    · exact ih h

end Swinst.Blocks
