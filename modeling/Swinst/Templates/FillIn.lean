import Swinst.Templates.Preseed
import Mathlib.Data.List.Nodup

/-! The loop over `dic.items()` on strings of either type, and what it makes of the texts of these
strings. `create_preseed` and `modify_grub_configuration` fill in their templates with it. -/

namespace Swinst.Templates

open Substitution

def texts (items : List (Text × PyStr)) : List (Text × Text) :=
  items.map fun item => (item.1, item.2.text)

/-- The text of the value of a key. -/
def valueOf (dic : List (Text × PyStr)) (k : Text) : Text := (dic.lookup k).elim [] PyStr.text

theorem fillIn_text {items : List (Text × PyStr)} {template content : PyStr}
    (h : fillIn items template = .ok content) :
    content.text = replaceLoop (texts items) template.text := by
  induction items generalizing template with
  | nil => exact Except.ok.inj h ▸ rfl
  | cons item items ih =>
    rw [fillIn, List.foldlM_cons] at h
    cases hnext : template.replace (.bytes (placeholder item.1)) item.2 with
    | error e =>
      rw [hnext] at h
      cases h
    | ok next =>
      rw [hnext] at h
      rw [ih h, PyStr.replace_text hnext]
      rfl

theorem valueOf_of_mem {dic : List (Text × PyStr)} (hnodup : (dic.map Prod.fst).Nodup)
    {item : Text × PyStr} (h : item ∈ dic) : valueOf dic item.1 = item.2.text := by
  induction dic with
  | nil => cases h
  | cons first dic ih =>
    rw [List.map_cons, List.nodup_cons] at hnodup
    rcases List.mem_cons.mp h with rfl | h
    · rw [valueOf, List.lookup_cons_self]
      rfl
    · have hne : item.1 ≠ first.1 := fun he => hnodup.1 (he ▸ List.mem_map_of_mem h)
      rw [valueOf, List.lookup_cons, beq_false_of_ne hne]
      exact ih hnodup.2 h

/-- The items of a dictionary, in any order, as a list of keys with their values. -/
theorem texts_eq_items {dic order : List (Text × PyStr)} (hnodup : (dic.map Prod.fst).Nodup)
    (hperm : order.Perm dic) : texts order = items (order.map Prod.fst) (valueOf dic) := by
  rw [texts, items, List.map_map]
  apply List.map_congr_left
  intro item hitem
  exact congrArg (Prod.mk item.1) (valueOf_of_mem hnodup (hperm.subset hitem)).symm

section fillIn

variable {K : Keys} {dic order : List (Text × PyStr)} {template content : PyStr}

/-- The loop replaces the placeholders of the dictionary one after another. -/
theorem fillIn_foldl (hkeys : dic.map Prod.fst = K.names) (hperm : order.Perm dic)
    (h : fillIn order template = .ok content) : content.text =
      (order.map Prod.fst).foldl (fun t k => replace (placeholder k) (valueOf dic k) t)
        template.text := by
  rw [fillIn_text h, texts_eq_items (hkeys ▸ K.nodup) hperm, replaceLoop_items]

/-- A text that the loop made of a template is the simultaneous substitution, if no value can become
part of the placeholder of another key, or no placeholder is begun in the values, and in the
template before one of its own. -/
theorem fillIn_substitute (hkeys : dic.map Prod.fst = K.names) (hperm : order.Perm dic)
    (hclean : K.Untouched (valueOf dic) ∨ K.NoneBegun (valueOf dic) ∧ K.Isolated template.text)
    (h : fillIn order template = .ok content) :
    content.text = K.substitute (valueOf dic) template.text := by
  rw [fillIn_foldl hkeys hperm h]
  refine foldl_replace K.separate (fun k hk => ?_) (hkeys ▸ hperm.map Prod.fst) K.nodup
  rcases hclean with huntouched | ⟨hnone, hiso⟩
  · exact huntouched.safe template.text hk
  · exact .inr (hnone.safe hiso hk)

end fillIn

/-! ## The items of `dic` -/

theorem key_mem {info : Info} {password partitioning : PyStr} {item : Text × PyStr}
    (h : item ∈ dic info password partitioning) : item.1 ∈ preseedKeys.names :=
  List.mem_map_of_mem (f := Prod.fst) h

/-- The items of `dic`, one of them between the others. -/
theorem items_split (env : Env) {info : Info} {password partitioning : PyStr} {item : Text × PyStr}
    (h : item ∈ dic info password partitioning) :
    ∃ before after, env.items (dic info password partitioning) = before ++ item :: after ∧
      (∀ other ∈ before ++ after, other ∈ dic info password partitioning) ∧
      ∀ other ∈ before ++ after, other.1 ≠ item.1 := by
  have hperm := env.items_perm (dic info password partitioning)
  obtain ⟨before, after, he⟩ := List.append_of_mem (hperm.mem_iff.mpr h)
  refine ⟨before, after, he, fun other hother => ?_, fun other hother hkey => ?_⟩
  · refine hperm.subset (he ▸ ?_)
    simp only [List.mem_append, List.mem_cons] at hother ⊢
    exact hother.imp_right .inr
  · have hkeys : (env.items (dic info password partitioning)).map Prod.fst |>.Nodup :=
      (hperm.map Prod.fst).nodup_iff.mpr preseedKeys.nodup
    rw [he, List.map_append, List.map_cons, List.nodup_middle, List.nodup_cons,
      ← List.map_append] at hkeys
    have hin : other.1 ∈ (before ++ after).map Prod.fst := List.mem_map_of_mem hother
    exact hkeys.1 (hkey ▸ hin)

end Swinst.Templates
