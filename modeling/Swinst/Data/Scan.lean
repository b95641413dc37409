import Mathlib.Data.List.Infix

/-! Search for a pattern by reads at every offset of a file into one buffer. A read near the end of the
file is short and leaves the items of the reads before it in the rest of the buffer. -/

namespace Swinst.Scan

variable {α : Type u} {file pattern header rest b : List α} {m i j : Nat}

/-- `m` items are read at offset `i` into the buffer `b`. -/
def read (file : List α) (m i : Nat) (b : List α) : List α :=
  (file.drop i).take m ++ b.drop ((file.drop i).take m).length

/-- The buffer after the reads at the offsets up to `i`. -/
def buffer (file : List α) (m : Nat) (b : List α) : Nat → List α
  | 0 => read file m 0 b
  | i + 1 => read file m (i + 1) (buffer file m b i)

/-- The pattern stands in the file at offset `i`. -/
def OccursAt (pattern file : List α) (i : Nat) : Prop := pattern <+: file.drop i

instance [DecidableEq α] : Decidable (OccursAt pattern file i) :=
  inferInstanceAs (Decidable (pattern <+: file.drop i))

theorem OccursAt.add_le (h : OccursAt pattern file i) (hp : 0 < pattern.length) :
    i + pattern.length ≤ file.length := by
  have hle := h.length_le
  rw [List.length_drop] at hle
  omega

theorem OccursAt.getElem? (h : OccursAt pattern file i) (hj : j < pattern.length) :
    file[i + j]? = pattern[j]? := by
  rw [← List.getElem?_drop]
  obtain ⟨t, ht⟩ := h
  rw [← ht, List.getElem?_append_left hj]

theorem occursAt_iff_take : OccursAt pattern file i ↔ (file.drop i).take pattern.length = pattern := by
  rw [OccursAt, List.prefix_iff_eq_take, eq_comm]

theorem getElem?_read (file : List α) (m i : Nat) (b : List α) (j : Nat) :
    (read file m i b)[j]? = if j < m ∧ i + j < file.length then file[i + j]? else b[j]? := by
  have hlen : ((file.drop i).take m).length = min m (file.length - i) := by simp
  rw [read, List.getElem?_append, hlen]
  split
  · next hj =>
    rw [if_pos (by omega), List.getElem?_take_of_lt (by omega), List.getElem?_drop]
  · next hj =>
    rw [if_neg (by omega), List.getElem?_drop]
    congr 1
    omega

/-- A read that is not short fills the buffer. -/
theorem take_read (h : i + m ≤ file.length) : (read file m i b).take m = (file.drop i).take m := by
  have hlen : ((file.drop i).take m).length = m := by
    rw [List.length_take, List.length_drop]
    omega
  rw [read, List.take_append_of_le_length hlen.ge, List.take_take, Nat.min_self]

theorem buffer_eq_read (file : List α) (m : Nat) (b : List α) (i : Nat) :
    ∃ b', buffer file m b i = read file m i b' := by
  cases i with
  | zero => exact ⟨b, rfl⟩
  | succ i => exact ⟨_, rfl⟩

/-- What short reads leave behind: once the end of the file has been read, the last place of the buffer
keeps the last item of the file, and from the first short read on so does the place before it. -/
theorem stale_buffer (hm : 2 ≤ m) (hfile : m ≤ file.length) (hi : i < file.length) :
    (file.length ≤ i + m → (buffer file m b i)[m - 1]? = file[file.length - 1]?) ∧
      (file.length < i + m → (buffer file m b i)[m - 2]? = file[file.length - 1]?) := by
  induction i with
  | zero =>
    refine ⟨fun h => ?_, fun h => by omega⟩
    rw [buffer, getElem?_read, if_pos (by omega)]
    congr 1
    omega
  | succ i ih =>
    obtain ⟨hlast, hbefore⟩ := ih (Nat.lt_of_succ_lt hi)
    simp only [buffer, getElem?_read]
    constructor
    · intro h
      split
      · congr 1
        omega
      · exact hlast (by omega)
    · intro h
      split
      · congr 1
        omega
      · exact hbefore (by omega)

/-- A short read makes no match, when the pattern ends in two different items. -/
theorem buffer_ne_of_short (hm : 2 ≤ pattern.length) (hfile : pattern.length ≤ file.length)
    (hends : pattern[pattern.length - 2]? ≠ pattern[pattern.length - 1]?) (hi : i < file.length)
    (hshort : file.length < i + pattern.length) :
    (buffer file pattern.length b i).take pattern.length ≠ pattern := by
  intro h
  have hplace (j : Nat) (hj : j < pattern.length) :
      pattern[j]? = (buffer file pattern.length b i)[j]? :=
    (congrArg (·[j]?) h.symm).trans (List.getElem?_take_of_lt hj)
  obtain ⟨hlast, hbefore⟩ := stale_buffer (b := b) hm hfile hi
  apply hends
  rw [hplace _ (by omega), hplace _ (by omega), hlast (by omega), hbefore hshort]

/-- The comparison with the buffer finds exactly the occurrences. -/
theorem buffer_eq_iff (hm : 2 ≤ pattern.length) (hfile : pattern.length ≤ file.length)
    (hends : pattern[pattern.length - 2]? ≠ pattern[pattern.length - 1]?) (hi : i < file.length) :
    (buffer file pattern.length b i).take pattern.length = pattern ↔ OccursAt pattern file i := by
  by_cases hshort : file.length < i + pattern.length
  · refine iff_of_false (buffer_ne_of_short hm hfile hends hi hshort) fun h => ?_
    exact absurd (h.add_le (by omega)) (by omega)
  · obtain ⟨b', hb'⟩ := buffer_eq_read file pattern.length b i
    rw [hb', take_read (by omega), occursAt_iff_take]

/-- A pattern whose last item occurs in it only once does not begin in what stands before it. -/
theorem OccursAt.in_header (h : OccursAt pattern (header ++ (pattern ++ rest)) i) (hi : i < header.length)
    (hlast : ∀ j, j + 1 < pattern.length → pattern[j]? ≠ pattern[pattern.length - 1]?) :
    OccursAt pattern header i := by
  by_cases hfit : i + pattern.length ≤ header.length
  · rw [occursAt_iff_take] at h ⊢
    rw [List.drop_append_of_le_length hi.le, List.take_append_of_le_length] at h
    · exact h
    · rw [List.length_drop]
      omega
  -- the last item of the occurrence is an earlier one of the pattern itself
  · have hend := h.getElem? (j := pattern.length - 1) (by omega)
    rw [List.getElem?_append_right (by omega), List.getElem?_append_left (by omega)] at hend
    exact absurd hend (hlast _ (by omega))

theorem occursAt_append (header pattern rest : List α) :
    OccursAt pattern (header ++ (pattern ++ rest)) header.length := by
  rw [OccursAt, List.drop_left]
  exact List.prefix_append ..

end Swinst.Scan
