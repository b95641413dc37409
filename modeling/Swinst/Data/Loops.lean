import Mathlib.Data.List.Basic

/-! Loops over lists, with an invariant that knows the items that are done. A loop that can fail is shown not to. -/

namespace Swinst.Loops

variable {S A E : Type} {l : List A} {s : S}

theorem foldl_done {f : S → A → S} (P : List A → S → Prop)
    (hstep : ∀ done a rest s, l = done ++ a :: rest → P done s → P (done ++ [a]) (f s a)) (hs : P [] s) :
    P l (l.foldl f s) := by
  have hrun : ∀ (rest done : List A) (s : S), l = done ++ rest → P done s → P l (rest.foldl f s) := by
    intro rest
    induction rest with
    | nil =>
      rintro done s rfl hs
      rwa [List.append_nil]
    | cons a rest ih =>
      intro done s hl hs
      exact ih (done ++ [a]) _ (by rw [hl, List.append_assoc, List.singleton_append]) (hstep done a rest s hl hs)
  exact hrun l [] s rfl hs

theorem foldl_of_mem {f : S → A → S} {P : S → Prop} (hstep : ∀ a ∈ l, ∀ s, P s → P (f s a)) (hs : P s) :
    P (l.foldl f s) :=
  foldl_done (fun _ => P) (fun done a rest s hl => hstep a (by simp [hl]) s) hs

theorem foldlM_done {f : S → A → Except E S} (P : List A → S → Prop)
    (hstep : ∀ done a rest s, l = done ++ a :: rest → P done s → ∃ s', f s a = .ok s' ∧ P (done ++ [a]) s')
    (hs : P [] s) : ∃ s', l.foldlM f s = .ok s' ∧ P l s' := by
  have hrun : ∀ (rest done : List A) (s : S), l = done ++ rest → P done s →
      ∃ s', rest.foldlM f s = .ok s' ∧ P l s' := by
    intro rest
    induction rest with
    | nil =>
      rintro done s rfl hs
      exact ⟨s, rfl, by rwa [List.append_nil]⟩
    | cons a rest ih =>
      intro done s hl hs
      obtain ⟨s₁, hok, hs₁⟩ := hstep done a rest s hl hs
      obtain ⟨s', hok', hs'⟩ := ih (done ++ [a]) s₁ (by rw [hl, List.append_assoc, List.singleton_append]) hs₁
      exact ⟨s', by rw [List.foldlM_cons, hok]; exact hok', hs'⟩
  exact hrun l [] s rfl hs

theorem foldlM_of_mem {f : S → A → Except E S} {P : S → Prop}
    (hstep : ∀ a ∈ l, ∀ s, P s → ∃ s', f s a = .ok s' ∧ P s') (hs : P s) : ∃ s', l.foldlM f s = .ok s' ∧ P s' :=
  foldlM_done (fun _ => P) (fun done a rest s hl => hstep a (by simp [hl]) s) hs

end Swinst.Loops
