import Swinst.Data.RoseTree
import Mathlib.Algebra.Order.BigOperators.Group.List

/-! Sums over the nodes of a rose tree. -/

namespace Swinst.RoseTree

mutual
/-- The sum of `f` over all nodes. -/
def sum [Add M] [Zero M] (f : α → M) : RoseTree α → M
  | node a ts => f a + sumList f ts

def sumList [Add M] [Zero M] (f : α → M) : List (RoseTree α) → M
  | [] => 0
  | t :: ts => t.sum f + sumList f ts
end

/-- Every node of the tree meets `P`. -/
def All (P : α → Prop) (t : RoseTree α) : Prop := ∀ p a, t.get? p = some a → P a

theorem All.value {P : α → Prop} {t : RoseTree α} (h : t.All P) : P t.value := h [] _ t.get?_nil

theorem All.child {P : α → Prop} {a : α} {ts : List (RoseTree α)} (h : (node a ts).All P)
    (ht : t ∈ ts) : t.All P := by
  obtain ⟨k, hk, rfl⟩ := List.mem_iff_getElem.mp ht
  intro p b hb
  refine h (p ++ [k]) b ?_
  rw [get?, subtree?_concat, children_node, List.getElem?_eq_getElem hk]
  exact hb

theorem All.subtree {P : α → Prop} {t s : RoseTree α} (h : t.All P) (hs : t.subtree? p = some s) :
    s.All P := by
  intro q a ha
  refine h (q ++ p) a ?_
  rw [get?, subtree?_append, hs]
  exact ha

theorem All.modify_at {P : α → Prop} {t : RoseTree α} {f : α → α} (h : t.All P)
    (hf : ∀ a, t.get? p = some a → P (f a)) : (t.modify p f).All P := by
  intro q b hb
  rw [get?_modify] at hb
  split at hb
  · next hq =>
    obtain ⟨a, ha, rfl⟩ := Option.map_eq_some_iff.mp hb
    exact hf a (hq ▸ ha)
  · exact h q b hb

theorem All.modify {P : α → Prop} {t : RoseTree α} {f : α → α} (h : t.All P) (hf : ∀ a, P a → P (f a)) :
    (t.modify p f).All P := h.modify_at fun a ha => hf a (h p a ha)

theorem All.addChild {P : α → Prop} {t c : RoseTree α} (h : t.All P) (hc : c.All P)
    (hp : (t.get? p).isSome) : (t.addChild p c).All P := by
  intro q a ha
  rcases get?_addChild_cases hp ha with ha | ⟨r, -, ha⟩
  · exact h q a ha
  · exact hc r a ha

theorem All.map {P : α → Prop} {Q : β → Prop} {f : α → β} {t : RoseTree α} (h : t.All P)
    (hf : ∀ a, P a → Q (f a)) : (t.map f).All Q := by
  intro p b hb
  rw [get?_map] at hb
  obtain ⟨a, ha, rfl⟩ := Option.map_eq_some_iff.mp hb
  exact hf a (h p a ha)

theorem All.node {P : α → Prop} {a : α} {ts : List (RoseTree α)} (ha : P a)
    (hts : ∀ t ∈ ts, t.All P) : (node a ts).All P := by
  intro p b hb
  obtain rfl | ⟨r, k, rfl⟩ := List.eq_nil_or_concat p
  · cases hb
    exact ha
  · rw [List.concat_eq_append, get?, subtree?_concat, children_node] at hb
    obtain ⟨s, hs, rfl⟩ := Option.map_eq_some_iff.mp hb
    obtain ⟨t, ht, hs⟩ := Option.bind_eq_some_iff.mp hs
    exact hts t (List.mem_of_getElem? ht) r s.value (by rw [get?, hs]; rfl)

section Order

variable [AddCommMonoid M] [PartialOrder M] [IsOrderedAddMonoid M] {f g : α → M}

mutual
theorem sum_le_sum : ∀ {t : RoseTree α}, t.All (fun a => f a ≤ g a) → t.sum f ≤ t.sum g
  | node _ _, h => add_le_add h.value (sumList_le_sumList fun _ ht => h.child ht)

theorem sumList_le_sumList : ∀ {ts : List (RoseTree α)}, (∀ t ∈ ts, t.All (fun a => f a ≤ g a)) →
    sumList f ts ≤ sumList g ts
  | [], _ => le_rfl
  | _ :: _, h => add_le_add (sum_le_sum (h _ List.mem_cons_self))
      (sumList_le_sumList fun _ ht => h _ (List.mem_cons_of_mem _ ht))
end

mutual
theorem sum_nonneg : ∀ {t : RoseTree α}, t.All (fun a => 0 ≤ f a) → 0 ≤ t.sum f
  | node _ _, h => add_nonneg h.value (sumList_nonneg fun _ ht => h.child ht)

theorem sumList_nonneg : ∀ {ts : List (RoseTree α)}, (∀ t ∈ ts, t.All (fun a => 0 ≤ f a)) →
    0 ≤ sumList f ts
  | [], _ => le_rfl
  | _ :: _, h => add_nonneg (sum_nonneg (h _ List.mem_cons_self))
      (sumList_nonneg fun _ ht => h _ (List.mem_cons_of_mem _ ht))
end

theorem sum_pos {t : RoseTree α} (h : t.All (fun a => 0 < f a)) : 0 < t.sum f := by
  cases t with
  | node a ts =>
    refine add_pos_of_pos_of_nonneg h.value (sumList_nonneg fun t ht => ?_)
    exact fun p b hb => (h.child ht p b hb).le

theorem sum_congr {t : RoseTree α} (h : t.All (fun a => f a = g a)) : t.sum f = t.sum g :=
  le_antisymm (sum_le_sum fun p a ha => (h p a ha).le) (sum_le_sum fun p a ha => (h p a ha).ge)

end Order

end Swinst.RoseTree
