import Mathlib.Data.List.Induction

/-! Rose trees addressed by paths. A path is written innermost index first, so that the parent of
`i :: p` is `p` and a property of all ancestors is a recursion over the path. The lemmas below
say what an update at one address does to every other address; they are the only facts about the
tree that its users need. -/

namespace Swinst

inductive RoseTree (α : Type u) where
  | node (value : α) (children : List (RoseTree α))

/-- `i :: p` addresses the `i`-th child of the node at `p`. -/
abbrev Path := List Nat

namespace RoseTree

def value : RoseTree α → α
  | node a _ => a

def children : RoseTree α → List (RoseTree α)
  | node _ ts => ts

@[simp] theorem value_node (a : α) (ts : List (RoseTree α)) : (node a ts).value = a := rfl

@[simp] theorem children_node (a : α) (ts : List (RoseTree α)) : (node a ts).children = ts := rfl

def subtree? (t : RoseTree α) : Path → Option (RoseTree α)
  | [] => some t
  | i :: p => (t.subtree? p).bind fun n => n.children[i]?

def get? (t : RoseTree α) (p : Path) : Option α := (t.subtree? p).map value

@[simp] theorem get?_nil (t : RoseTree α) : t.get? [] = some t.value := rfl

/-- The number of children of the node at `p`, zero outside the tree. -/
def arity (t : RoseTree α) (p : Path) : Nat := ((t.subtree? p).map (·.children.length)).getD 0

def updateAt (t : RoseTree α) : Path → (RoseTree α → RoseTree α) → RoseTree α
  | [], f => f t
  | i :: p, f => t.updateAt p fun n => node n.value (n.children.modify i f)

/-- Change the value at `p`. -/
def modify (t : RoseTree α) (p : Path) (f : α → α) : RoseTree α :=
  t.updateAt p fun n => node (f n.value) n.children

/-- Append `c` to the children of the node at `p`. -/
def addChild (t : RoseTree α) (p : Path) (c : RoseTree α) : RoseTree α :=
  t.updateAt p fun n => node n.value (n.children ++ [c])

mutual
/-- Apply `f` to every value. -/
def map (f : α → β) : RoseTree α → RoseTree β
  | node a ts => node (f a) (mapList f ts)

def mapList (f : α → β) : List (RoseTree α) → List (RoseTree β)
  | [] => []
  | t :: ts => t.map f :: mapList f ts
end

/-! ## Addresses read from the root -/

theorem subtree?_append (t : RoseTree α) (r p : Path) :
    t.subtree? (r ++ p) = (t.subtree? p).bind (·.subtree? r) := by
  induction r with
  | nil => simp [subtree?]
  | cons i r ih => simp [subtree?, ih, Option.bind_assoc]

theorem subtree?_concat (t : RoseTree α) (r : Path) (k : Nat) :
    t.subtree? (r ++ [k]) = t.children[k]?.bind (·.subtree? r) := by
  rw [subtree?_append]; simp [subtree?]

theorem updateAt_append (t : RoseTree α) (r p : Path) (f : RoseTree α → RoseTree α) :
    t.updateAt (r ++ p) f = t.updateAt p fun n => n.updateAt r f := by
  induction r generalizing f with
  | nil => rfl
  | cons i r ih => simp only [List.cons_append, updateAt, ih]

theorem updateAt_concat (t : RoseTree α) (r : Path) (k : Nat) (f : RoseTree α → RoseTree α) :
    t.updateAt (r ++ [k]) f = node t.value (t.children.modify k fun n => n.updateAt r f) := by
  rw [updateAt_append]; rfl

theorem mapList_eq_map (f : α → β) (ts : List (RoseTree α)) : mapList f ts = ts.map (map f) := by
  induction ts with
  | nil => rfl
  | cons t ts ih => simp [mapList, ih]

@[simp] theorem value_map (f : α → β) (t : RoseTree α) : (t.map f).value = f t.value := by
  cases t; rfl

@[simp] theorem children_map (f : α → β) (t : RoseTree α) :
    (t.map f).children = t.children.map (map f) := by
  cases t; simp [map, mapList_eq_map]

theorem subtree?_map (f : α → β) (t : RoseTree α) (p : Path) :
    (t.map f).subtree? p = (t.subtree? p).map (map f) := by
  induction p with
  | nil => rfl
  | cons i p ih =>
    simp only [subtree?, ih, Option.bind_map, Option.map_bind]
    congr 1; funext n; simp

@[simp] theorem get?_map (f : α → β) (t : RoseTree α) (p : Path) :
    (t.map f).get? p = (t.get? p).map f := by
  simp only [get?, subtree?_map, Option.map_map]
  congr 1; funext n; simp

/-! ## Reading after an update -/

/-- An update whose effect at the updated node is known for the function `g`, a reading of
subtrees that does not look below a node, is known everywhere. -/
private theorem read_updateAt {g : RoseTree α → β} {f : RoseTree α → RoseTree α}
    (hg : ∀ a ts k h, g (node a (ts.modify k h)) = g (node a ts))
    (hf : ∀ n (q : Path), q ≠ [] → ((f n).subtree? q).map g = (n.subtree? q).map g)
    (t : RoseTree α) (p q : Path) :
    ((t.updateAt p f).subtree? q).map g =
      if q = p then (t.subtree? q).map fun n => g (f n) else (t.subtree? q).map g := by
  induction p using List.reverseRecOn generalizing t q with
  | nil =>
    by_cases hq : q = []
    · subst hq; simp [updateAt, subtree?]
    · simp [updateAt, hq, hf t q hq]
  | append_singleton r k ih =>
    cases q using List.reverseRecOn with
    | nil =>
      have hne : ([] : Path) ≠ r ++ [k] := by simp
      obtain ⟨a, ts⟩ := t
      rw [if_neg hne, updateAt_concat]
      simp [subtree?, hg]
    | append_singleton s l =>
      rw [updateAt_concat, subtree?_concat, subtree?_concat, children_node, List.getElem?_modify]
      by_cases hkl : k = l
      · subst hkl
        cases t.children[k]? with
        | none => simp
        | some c => simpa using ih c s
      · have hne : s ++ [l] ≠ r ++ [k] := by simp; intro _ h; exact hkl h.symm
        simp [hkl, hne]

theorem get?_modify (t : RoseTree α) (p q : Path) (f : α → α) :
    (t.modify p f).get? q = if q = p then (t.get? q).map f else t.get? q := by
  have h := read_updateAt (g := value) (f := fun n => node (f n.value) n.children)
    (fun _ _ _ _ => rfl) (fun n q hq => ?_) t p q
  · simp only [get?, modify, h, Option.map_map]
    split <;> rfl
  · obtain ⟨q, k, rfl⟩ := (List.eq_nil_or_concat q).resolve_left hq
    rw [List.concat_eq_append, subtree?_concat, subtree?_concat, children_node]

@[simp] theorem get?_modify_self (t : RoseTree α) (p : Path) (f : α → α) :
    (t.modify p f).get? p = (t.get? p).map f := by simp [get?_modify]

theorem get?_modify_of_ne {t : RoseTree α} {p q : Path} (h : q ≠ p) (f : α → α) :
    (t.modify p f).get? q = t.get? q := by simp [get?_modify, h]

@[simp] theorem arity_modify (t : RoseTree α) (p q : Path) (f : α → α) :
    (t.modify p f).arity q = t.arity q := by
  have h := read_updateAt (g := (·.children.length)) (f := fun n => node (f n.value) n.children)
    (fun _ _ _ _ => by simp) (fun n q hq => ?_) t p q
  · simp only [arity, modify, h]
    split <;> rfl
  · obtain ⟨q, k, rfl⟩ := (List.eq_nil_or_concat q).resolve_left hq
    rw [List.concat_eq_append, subtree?_concat, subtree?_concat, children_node]

/-- A child exists exactly below the arity of its parent. -/
theorem isSome_get?_cons {t : RoseTree α} {p : Path} {i : Nat} :
    (t.get? (i :: p)).isSome ↔ i < t.arity p := by
  simp only [get?, arity, subtree?]
  cases t.subtree? p with
  | none => simp
  | some n => simp

theorem isSome_get?_of_arity_pos {t : RoseTree α} {p : Path} (h : 0 < t.arity p) :
    (t.get? p).isSome := by
  unfold get?
  unfold arity at h
  cases hs : t.subtree? p with
  | none => simp [hs] at h
  | some n => rfl

/-! ## A new child -/

private theorem subtree?_addChild (t c : RoseTree α) (p q : Path) (n : RoseTree α)
    (hp : t.subtree? p = some n) :
    (t.addChild p c).subtree? (q ++ p) =
      (node n.value (n.children ++ [c])).subtree? q := by
  induction p using List.reverseRecOn generalizing t with
  | nil =>
    cases hp
    simp [addChild, updateAt]
  | append_singleton r k ih =>
    rw [subtree?_concat] at hp
    obtain ⟨m, hm, hn⟩ := Option.bind_eq_some_iff.mp hp
    rw [addChild, updateAt_concat, ← List.append_assoc, subtree?_concat, children_node,
      List.getElem?_modify, hm]
    simpa [addChild] using ih m hn

/-- Below a fresh address nothing was in the tree. -/
theorem get?_fresh (t : RoseTree α) (p r : Path) : t.get? (r ++ t.arity p :: p) = none := by
  have h : t.get? (t.arity p :: p) = none := by
    have := (isSome_get?_cons (t := t) (p := p) (i := t.arity p)).not.mpr (Nat.lt_irrefl _)
    simpa using this
  unfold get? at h ⊢
  rw [Option.map_eq_none_iff] at h
  rw [subtree?_append, h]
  rfl

/-- The new child and everything below it stand at the fresh address. -/
theorem get?_addChild_new {t c : RoseTree α} {p : Path} (hp : (t.get? p).isSome) (r : Path) :
    (t.addChild p c).get? (r ++ t.arity p :: p) = c.get? r := by
  unfold get? at hp ⊢
  obtain ⟨n, hn⟩ := Option.isSome_iff_exists.mp (by simpa using hp)
  have hlen : t.arity p = n.children.length := by simp [arity, hn]
  have h := subtree?_addChild t c p (r ++ [t.arity p]) n hn
  rw [List.append_assoc] at h
  rw [show r ++ t.arity p :: p = r ++ ([t.arity p] ++ p) by rfl, h, subtree?_concat, hlen]
  simp

/-- Away from the fresh address nothing changes. -/
theorem get?_addChild_of_not_fresh {t c : RoseTree α} {p q : Path}
    (hq : ¬ (t.arity p :: p) <:+ q) : (t.addChild p c).get? q = t.get? q := by
  induction p using List.reverseRecOn generalizing t q with
  | nil =>
    cases q using List.reverseRecOn with
    | nil => simp [addChild, updateAt, get?, subtree?]
    | append_singleton s l =>
      have hl : l ≠ t.children.length := by
        rintro rfl
        exact hq ⟨s, by simp [arity, subtree?]⟩
      simp only [get?, addChild, updateAt, subtree?_concat, children_node]
      rw [List.getElem?_append]
      split
      · rfl
      · next hlt =>
        have hout : ([c] : List (RoseTree α))[l - t.children.length]? = none := by
          rw [List.getElem?_eq_none_iff]
          simp
          omega
        rw [hout, List.getElem?_eq_none (Nat.le_of_not_lt hlt)]
  | append_singleton r k ih =>
    cases q using List.reverseRecOn with
    | nil => simp [addChild, updateAt_concat, get?, subtree?]
    | append_singleton s l =>
      simp only [get?, addChild, updateAt_concat, subtree?_concat, children_node]
      rw [List.getElem?_modify]
      by_cases hkl : k = l
      · subst hkl
        cases hc : t.children[k]? with
        | none => simp
        | some m =>
          have har : t.arity (r ++ [k]) = m.arity r := by simp [arity, subtree?_concat, hc]
          have hm : ¬ (m.arity r :: r) <:+ s := by
            rintro ⟨u, rfl⟩
            exact hq ⟨u, by simp [har]⟩
          simpa [get?, addChild] using ih hm
      · simp [hkl]

/-- No other node of the old tree gains a child. -/
theorem arity_addChild_of_ne {t c : RoseTree α} {p q : Path} (hq : q ≠ p)
    (h : (t.get? q).isSome) : (t.addChild p c).arity q = t.arity q := by
  induction p using List.reverseRecOn generalizing t q with
  | nil =>
    obtain ⟨s, l, rfl⟩ := (List.eq_nil_or_concat q).resolve_left hq
    rw [List.concat_eq_append] at h ⊢
    have hl : l < t.children.length := by
      by_contra hl
      simp [get?, subtree?_concat, List.getElem?_eq_none (Nat.le_of_not_lt hl)] at h
    simp [arity, addChild, updateAt, subtree?_concat, List.getElem?_append_left hl]
  | append_singleton r k ih =>
    cases q using List.reverseRecOn with
    | nil => simp [arity, addChild, updateAt_concat, subtree?]
    | append_singleton s l =>
      simp only [arity, addChild, updateAt_concat, subtree?_concat, children_node]
      rw [List.getElem?_modify]
      by_cases hkl : k = l
      · subst hkl
        cases hc : t.children[k]? with
        | none => simp
        | some m =>
          have hs : (m.get? s).isSome := by simpa [get?, subtree?_concat, hc] using h
          simpa [arity, addChild] using ih (by rintro rfl; exact hq rfl) hs
      · simp [hkl]

/-- Outside the subtree at `p` nothing gains a child. -/
theorem arity_addChild_of_not_suffix {t c : RoseTree α} {p q : Path} (hq : ¬ p <:+ q) :
    (t.addChild p c).arity q = t.arity q := by
  cases h : t.get? q with
  | some a => exact arity_addChild_of_ne (fun h => hq (h ▸ List.suffix_refl _)) (by simp [h])
  | none =>
    have hzero {t : RoseTree α} (h : t.get? q = none) : t.arity q = 0 :=
      Nat.eq_zero_of_not_pos fun hpos => by simpa [h] using isSome_get?_of_arity_pos hpos
    have hfresh : ¬ (t.arity p :: p) <:+ q := fun hs => hq ((List.suffix_cons ..).trans hs)
    rw [hzero h, hzero (get?_addChild_of_not_fresh hfresh ▸ h)]

/-- The parent of the new child gains exactly this one. -/
theorem arity_addChild_self {t c : RoseTree α} {p : Path} (hp : (t.get? p).isSome) :
    (t.addChild p c).arity p = t.arity p + 1 := by
  unfold get? at hp
  obtain ⟨n, hn⟩ := Option.isSome_iff_exists.mp (by simpa using hp)
  have h := subtree?_addChild t c p [] n hn
  simp only [List.nil_append, subtree?] at h
  simp [arity, h, hn]

theorem get?_addChild_old {t c : RoseTree α} {p q : Path} (h : t.get? q = some a) :
    (t.addChild p c).get? q = some a := by
  by_cases hq : (t.arity p :: p) <:+ q
  · obtain ⟨r, rfl⟩ := hq
    simp [get?_fresh] at h
  · rw [get?_addChild_of_not_fresh hq, h]

/-- A node of the extended tree is an old one or one of the new child's. -/
theorem get?_addChild_cases {t c : RoseTree α} {p q : Path} (hp : (t.get? p).isSome)
    (h : (t.addChild p c).get? q = some a) :
    t.get? q = some a ∨ ∃ r, q = r ++ t.arity p :: p ∧ c.get? r = some a := by
  by_cases hq : (t.arity p :: p) <:+ q
  · obtain ⟨r, rfl⟩ := hq
    exact .inr ⟨r, rfl, by rwa [get?_addChild_new hp] at h⟩
  · exact .inl (by rwa [get?_addChild_of_not_fresh hq] at h)

end RoseTree

end Swinst
