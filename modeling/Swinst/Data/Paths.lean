import Mathlib.Data.List.TakeWhile
import Swinst.Data.PyText

/-! Paths of Windows, as texts: a path below a directory is the directory, a backslash and the rest. -/

namespace Swinst.Paths

/-- The path of a name in a directory -/
def child (dir name : Text) : Text := dir ++ '\\' :: name

/-- The path lies below the directory. -/
def Below (p dir : Text) : Prop := dir ++ ['\\'] <+: p

def Within (p dir : Text) : Prop := p = dir ∨ Below p dir

instance (p dir : Text) : Decidable (Below p dir) := inferInstanceAs (Decidable (_ <+: _))

instance (p dir : Text) : Decidable (Within p dir) := inferInstanceAs (Decidable (_ ∨ _))

/-- The name of an entry of the directory, if the path is one -/
def nameIn (dir p : Text) : Option Text :=
  if Below p dir ∧ '\\' ∉ p.drop (dir.length + 1) then some (p.drop (dir.length + 1)) else none

variable {p q dir root name name' rest : Text}

attribute [local simp] child

theorem below_iff : Below p dir ↔ ∃ rest, p = child dir rest := by
  simp only [Below, List.prefix_iff_eq_append, child]
  constructor
  · intro h
    exact ⟨_, by rw [← h, List.append_assoc]; rfl⟩
  · rintro ⟨rest, rfl⟩
    simp

theorem below_child (dir name : Text) : Below (child dir name) dir := below_iff.mpr ⟨name, rfl⟩

theorem length_child (dir name : Text) : (child dir name).length = dir.length + 1 + name.length := by
  simp
  omega

theorem Below.length_lt (h : Below p dir) : dir.length < p.length := by
  obtain ⟨rest, rfl⟩ := below_iff.mp h
  rw [length_child]
  omega

theorem not_below_self : ¬ Below p p := fun h => h.length_lt.false

theorem Below.trans (h : Below p q) (hq : Below q dir) : Below p dir := by
  obtain ⟨rest, rfl⟩ := below_iff.mp h
  obtain ⟨rest', rfl⟩ := below_iff.mp hq
  exact below_iff.mpr ⟨rest' ++ '\\' :: rest, by simp⟩

theorem Within.trans_below (h : Within p q) (hq : Below q dir) : Below p dir := by
  rcases h with rfl | h
  · exact hq
  · exact h.trans hq

theorem Below.trans_within (h : Below p q) (hq : Within q dir) : Below p dir := by
  rcases hq with rfl | hq
  · exact h
  · exact h.trans hq

theorem Below.within (h : Below p dir) : Within p dir := .inr h

theorem drop_child (dir name : Text) : (child dir name).drop (dir.length + 1) = name := by
  rw [child, List.drop_append]
  simp

theorem nameIn_eq_some_iff : nameIn dir p = some name ↔ p = child dir name ∧ '\\' ∉ name := by
  rw [nameIn]
  constructor
  · intro h
    obtain ⟨⟨hbelow, hname⟩, h⟩ := Option.ite_none_right_eq_some.mp h
    obtain ⟨rest, rfl⟩ := below_iff.mp hbelow
    rw [drop_child] at hname h
    obtain rfl := Option.some.inj h
    exact ⟨rfl, hname⟩
  · rintro ⟨rfl, hname⟩
    rw [drop_child, if_pos ⟨below_child dir name, hname⟩]

/-- The last name of a path is split off, or lies in the rest. -/
theorem child_eq_child_iff (hname : '\\' ∉ name) : child dir name = child root rest ↔
    dir = root ∧ name = rest ∨ ∃ t, dir = child root t ∧ rest = child t name := by
  constructor
  · intro h
    rw [child, child, List.append_eq_append_iff] at h
    rcases h with ⟨t, hroot, hrest⟩ | ⟨t, hdir, hrest⟩
    · cases t with
      | nil => exact .inl (by simpa using And.intro hroot.symm hrest)
      | cons c t =>
        rw [List.cons_append, List.cons.injEq] at hrest
        exact (hname (by rw [hrest.2]; simp)).elim
    · cases t with
      | nil => exact .inl (by simpa using And.intro hdir hrest.symm)
      | cons c t =>
        rw [List.cons_append, List.cons.injEq] at hrest
        obtain ⟨rfl, hrest⟩ := hrest
        exact .inr ⟨t, hdir, hrest⟩
  · rintro (⟨rfl, rfl⟩ | ⟨t, rfl, rfl⟩)
    · rfl
    · simp

theorem child_inj (hname : '\\' ∉ name) (hname' : '\\' ∉ name') (h : child dir name = child root name') :
    dir = root ∧ name = name' := by
  rcases (child_eq_child_iff hname).mp h with h | ⟨t, -, rfl⟩
  · exact h
  · exact (hname' (by simp)).elim

/-- A path below a directory has its own directory within that. -/
theorem within_of_below_child (hname : '\\' ∉ name) (h : Below (child dir name) root) : Within dir root := by
  obtain ⟨rest, h⟩ := below_iff.mp h
  rcases (child_eq_child_iff hname).mp h with ⟨h, -⟩ | ⟨t, h, -⟩
  · exact .inl h
  · exact .inr (below_iff.mpr ⟨t, h⟩)

/-- Within an entry of a directory its name follows the directory. -/
theorem takeWhile_of_within_child (hname : '\\' ∉ name) (h : Within p (child dir name)) :
    (p.drop (dir.length + 1)).takeWhile (· ≠ '\\') = name := by
  have hall : ∀ c ∈ name, decide (c ≠ '\\') = true := fun c hc => decide_eq_true fun h => hname (h ▸ hc)
  have htake (s : Text) : (name ++ '\\' :: s).takeWhile (· ≠ '\\') = name := by
    rw [List.takeWhile_append_of_pos hall]
    simp
  rcases h with rfl | h
  · rw [drop_child]
    exact List.takeWhile_eq_self_iff.mpr hall
  · obtain ⟨rest, rfl⟩ := below_iff.mp h
    have : child (child dir name) rest = child dir (name ++ '\\' :: rest) := by simp
    rw [this, drop_child, htake]

/-- Nothing lies within two entries of a directory. -/
theorem eq_of_within_child (hname : '\\' ∉ name) (hname' : '\\' ∉ name') (h : Within p (child dir name))
    (h' : Within p (child dir name')) : name = name' :=
  (takeWhile_of_within_child hname h).symm.trans (takeWhile_of_within_child hname' h')

end Swinst.Paths
