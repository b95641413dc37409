import Mathlib.Data.Fintype.EquivFin
import Mathlib.Logic.Function.Basic

/-! Things that have places of their own, and may for a time be in the places of others. A thing that is not in its
own place leaves that free. -/

namespace Swinst

open Function (update update_self update_of_ne)

variable {ι : Type*}

/-- Nothing is in the place. -/
def Free (places : ι → Option ι) (q : ι) : Prop := ∀ j, places j ≠ some q

structure Placement (places : ι → Option ι) : Prop where
  inj : ∀ {i j p}, places i = some p → places j = some p → i = j
  displaced : ∀ {i p}, places i = some p → i ≠ p → Free places i

variable {places : ι → Option ι} {i j p q : ι}

theorem not_free (h : places i = some p) : ¬ Free places p := fun hp => hp i h

theorem exists_of_not_free (h : ¬ Free places p) : ∃ i, places i = some p := by
  rw [Free, not_forall] at h
  obtain ⟨i, hi⟩ := h
  exact ⟨i, not_not.mp hi⟩

namespace Placement

/-- Whose own place is taken by another is in no place. -/
theorem unplaced (h : Placement places) (hi : places i = some p) (hp : i ≠ p) : places p = none := by
  cases hpp : places p with
  | none => rfl
  | some q =>
    by_cases hpq : p = q
    · subst hpq
      exact (hp (h.inj hi hpp)).elim
    · exact (not_free hi (h.displaced hpp hpq)).elim

/-- Without free places all are in their own places. -/
theorem at_home (h : Placement places) (hfree : ∀ q, ¬ Free places q) (hi : places i = some p) : p = i := by
  by_contra hne
  exact hfree i (h.displaced hi (Ne.symm hne))

/-- If all have places, no place is free. -/
theorem not_free_of_total [Finite ι] (h : Placement places) (htotal : ∀ i, (places i).isSome) (q : ι) :
    ¬ Free places q := by
  have hinj : Function.Injective fun i => (places i).get (htotal i) := by
    intro i j hij
    exact h.inj (Option.some_get (htotal i)).symm ((Option.some_get (htotal j)).symm.trans (congrArg some hij.symm))
  obtain ⟨i, hi⟩ := Finite.surjective_of_injective hinj q
  refine not_free (i := i) ?_
  rw [← hi]
  exact (Option.some_get (htotal i)).symm

/-- If something has no place, a place is free. -/
theorem exists_free [Finite ι] (hi : places i = none) : ∃ q, Free places q := by
  by_contra hnot
  have htaken : ∀ q, ∃ j, places j = some q := fun q => exists_of_not_free fun hq => hnot ⟨q, hq⟩
  choose owner howner using htaken
  have hinj : Function.Injective owner := by
    intro q q' hqq
    exact Option.some.inj ((howner q).symm.trans (hqq ▸ howner q'))
  obtain ⟨q, rfl⟩ := Finite.surjective_of_injective hinj i
  rw [howner q] at hi
  cases hi

variable [DecidableEq ι]

theorem free_remove (h : Placement places) (hi : places i = some p) :
    Free (update places i none) q ↔ q = p ∨ Free places q := by
  constructor
  · intro hq
    by_cases hqp : q = p
    · exact .inl hqp
    · refine .inr fun j hj => ?_
      by_cases hji : j = i
      · subst hji
        exact hqp (Option.some.inj (hj.symm.trans hi))
      · exact hq j (by rw [update_of_ne hji, hj])
  · intro hq j hj
    by_cases hji : j = i
    · subst hji
      rw [update_self] at hj
      cases hj
    · rw [update_of_ne hji] at hj
      rcases hq with rfl | hq
      · exact hji (h.inj hj hi)
      · exact hq j hj

theorem remove (h : Placement places) (i : ι) : Placement (update places i none) := by
  have hold : ∀ {j p}, update places i none j = some p → places j = some p := by
    intro j p hj
    by_cases hji : j = i
    · subst hji
      rw [update_self] at hj
      cases hj
    · rwa [update_of_ne hji] at hj
  exact ⟨fun hj hk => h.inj (hold hj) (hold hk), fun hj hne k hk => h.displaced (hold hj) hne k (hold hk)⟩

theorem free_put (hi : places i = none) : Free (update places i (some p)) q ↔ q ≠ p ∧ Free places q := by
  constructor
  · intro hq
    refine ⟨fun hqp => hq i (by rw [update_self, hqp]), fun j hj => ?_⟩
    have hji : j ≠ i := by
      rintro rfl
      rw [hi] at hj
      cases hj
    exact hq j (by rw [update_of_ne hji, hj])
  · rintro ⟨hqp, hq⟩ j hj
    by_cases hji : j = i
    · subst hji
      rw [update_self] at hj
      exact hqp (Option.some.inj hj).symm
    · rw [update_of_ne hji] at hj
      exact hq j hj

/-- Something is put into a free place whose owner is in no place. -/
theorem put (h : Placement places) (hi : places i = none) (hfree : Free places p) (hp : places p = none)
    (hown : i = p ∨ Free places i) : Placement (update places i (some p)) := by
  have hcases : ∀ {j q}, update places i (some p) j = some q → j = i ∧ q = p ∨ j ≠ i ∧ places j = some q := by
    intro j q hj
    by_cases hji : j = i
    · subst hji
      rw [update_self] at hj
      exact .inl ⟨rfl, (Option.some.inj hj).symm⟩
    · rw [update_of_ne hji] at hj
      exact .inr ⟨hji, hj⟩
  constructor
  · intro j k q hj hk
    rcases hcases hj with ⟨rfl, rfl⟩ | ⟨-, hj'⟩
    · rcases hcases hk with ⟨rfl, -⟩ | ⟨-, hk'⟩
      · rfl
      · exact (not_free hk' hfree).elim
    · rcases hcases hk with ⟨rfl, rfl⟩ | ⟨-, hk'⟩
      · exact (not_free hj' hfree).elim
      · exact h.inj hj' hk'
  · intro j q hj hne
    rw [free_put hi]
    rcases hcases hj with ⟨rfl, rfl⟩ | ⟨hji, hj'⟩
    · exact ⟨hne, hown.resolve_left hne⟩
    · refine ⟨?_, h.displaced hj' hne⟩
      rintro rfl
      rw [hp] at hj'
      cases hj'

end Placement

end Swinst
