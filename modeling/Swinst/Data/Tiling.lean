import Mathlib.Data.List.Pairwise
import Mathlib.Algebra.BigOperators.Fin

/-! A range that is cut into blocks, each given by its beginning and its length. -/

namespace Swinst

inductive Tiling : (lo hi : Nat) → List (Nat × Nat) → Prop
  | last {lo hi : Nat} : lo < hi → Tiling lo hi [(lo, hi - lo)]
  | cons {lo hi r : Nat} {bs : List (Nat × Nat)} : 0 < r → Tiling (lo + r) hi bs → Tiling lo hi ((lo, r) :: bs)

namespace Tiling

variable {lo hi : Nat} {bs : List (Nat × Nat)}

theorem lt (h : Tiling lo hi bs) : lo < hi := by
  induction h with
  | last hlt => exact hlt
  | cons _ _ ih => omega

theorem sum (h : Tiling lo hi bs) : (bs.map Prod.snd).sum = hi - lo := by
  induction h with
  | last => simp
  | cons hr h ih =>
    have := h.lt
    rw [List.map_cons, List.sum_cons, ih]
    omega

theorem bounds (h : Tiling lo hi bs) {x : Nat × Nat} (hx : x ∈ bs) : lo ≤ x.1 ∧ 0 < x.2 ∧ x.1 + x.2 ≤ hi := by
  induction h with
  | last hlt =>
    obtain rfl := List.mem_singleton.mp hx
    exact ⟨Nat.le_refl _, Nat.sub_pos_of_lt hlt, by dsimp only; omega⟩
  | cons hr h ih =>
    rcases List.mem_cons.mp hx with rfl | hx
    · exact ⟨Nat.le_refl _, hr, Nat.le_of_lt h.lt⟩
    · obtain ⟨hlo, hpos, hhi⟩ := ih hx
      exact ⟨by omega, hpos, hhi⟩

theorem ordered (h : Tiling lo hi bs) : bs.Pairwise fun x y => x.1 + x.2 ≤ y.1 := by
  induction h with
  | last => exact List.pairwise_singleton ..
  | cons _ h ih => exact List.pairwise_cons.mpr ⟨fun y hy => (h.bounds hy).1, ih⟩

theorem nodup (h : Tiling lo hi bs) : bs.Nodup := by
  refine h.ordered.imp_of_mem fun {x y} hx _ hxy => ?_
  rintro rfl
  have := (h.bounds hx).2.1
  omega

/-- Two blocks have nothing in common. -/
theorem disjoint (h : Tiling lo hi bs) {x y : Nat × Nat} (hx : x ∈ bs) (hy : y ∈ bs) (hne : x ≠ y) :
    x.1 + x.2 ≤ y.1 ∨ y.1 + y.2 ≤ x.1 := by
  have hsymm : bs.Pairwise fun x y => x.1 + x.2 ≤ y.1 ∨ y.1 + y.2 ≤ x.1 := h.ordered.imp .inl
  have : Std.Symm fun x y : Nat × Nat => x.1 + x.2 ≤ y.1 ∨ y.1 + y.2 ≤ x.1 := ⟨fun _ _ => Or.symm⟩
  exact hsymm.forall hx hy hne

theorem cover (h : Tiling lo hi bs) {k : Nat} (hlo : lo ≤ k) (hhi : k < hi) :
    ∃ x ∈ bs, x.1 ≤ k ∧ k < x.1 + x.2 := by
  induction h with
  | last => exact ⟨_, List.mem_cons_self, hlo, by omega⟩
  | @cons lo hi r bs hr h ih =>
    rcases Nat.lt_or_ge k (lo + r) with hk | hk
    · exact ⟨_, List.mem_cons_self, hlo, hk⟩
    · obtain ⟨x, hx, hxk⟩ := ih hk hhi
      exact ⟨x, List.mem_cons_of_mem _ hx, hxk⟩

end Tiling

end Swinst
