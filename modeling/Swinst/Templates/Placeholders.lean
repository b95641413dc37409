import Swinst.Data.PyText
import Swinst.Data.Substitution

/-! The loop over `dic.items()` that fills in the templates of `create_preseed` and of
`modify_grub_configuration`, against the simultaneous substitution of all placeholders. -/

namespace Swinst.Templates

open Substitution

/-- `"$(%s)" % k` -/
def placeholder (k : Text) : Text := '$' :: '(' :: (k ++ [')'])

/-- The keys of a dictionary of values. -/
structure Keys where
  names : List Text
  nodup : names.Nodup
  plain : ∀ k ∈ names, '$' ∉ k ∧ ')' ∉ k

/-- The keys of `dic` in `create_preseed`. -/
def preseedKeys : Keys where
  names := ["timezone".toList, "password".toList, "user_full_name".toList,
    "distro_packages".toList, "host_username".toList, "username".toList, "partitioning".toList,
    "user_directory".toList, "safe_host_username".toList, "host_os_name".toList,
    "instmod".toList, "loginauto".toList]
  nodup := by decide +kernel
  plain := by decide +kernel

/-- The keys of `dic` in `modify_grub_configuration`. -/
def grubKeys : Keys where
  names := ["title1".toList, "title2".toList, "normal_mode_title".toList, "kernel".toList,
    "iso_path".toList, "install_mode".toList, "locale".toList, "keyboard_layout".toList,
    "keyboard_variant".toList, "rootflags".toList, "initrd".toList]
  nodup := by decide +kernel
  plain := by decide +kernel

/-- `dic.items()`, in the order that the hashes of the keys give -/
def items (order : List Text) (v : Text → Text) : List (Text × Text) :=
  order.map fun k => (k, v k)

/-- `for k,v in dic.items(): content = content.replace("$(%s)" % k, v)` -/
def replaceLoop (items : List (Text × Text)) (template : Text) : Text :=
  items.foldl (fun content item => replace (placeholder item.1) item.2 content) template

/-- All placeholders of the template at once. -/
def Keys.substitute (K : Keys) (v : Text → Text) (template : Text) : Text :=
  subst placeholder v K.names template

/-- No value can become part of the placeholder of another key, whatever is around it; this does not
matter for a placeholder that is replaced by itself. -/
def Keys.Untouched (K : Keys) (v : Text → Text) : Prop :=
  ∀ k ∈ K.names, v k ≠ placeholder k → ∀ a ∈ K.names, a ≠ k → ¬ Touches (v a) (placeholder k)

/-- Before the placeholders of the template, no other placeholder has been begun. -/
def Keys.Isolated (K : Keys) (template : Text) : Prop :=
  ∀ x q y, template = x ++ (placeholder q ++ y) → q ∈ K.names → ∀ k ∈ K.names, ∀ u, u ≠ [] →
    u <+: placeholder k → u ≠ placeholder k → ¬ u <:+ x

/-- No value contains the placeholder of another key, or ends with a beginning of it. -/
def Keys.NoneBegun (K : Keys) (v : Text → Text) : Prop :=
  ∀ k ∈ K.names, ∀ a ∈ K.names, a ≠ k →
    ¬ placeholder k <:+: v a ∧ ∀ u, u ≠ [] → u <:+ v a → ¬ u <+: placeholder k

/-! ## The shape of placeholders -/

theorem placeholder_ne_nil (k : Text) : placeholder k ≠ [] := nofun

theorem dollar_mem_placeholder (k : Text) : '$' ∈ placeholder k := List.mem_cons_self

theorem not_mem_tail {k : Text} (hk : '$' ∉ k) : '$' ∉ '(' :: (k ++ [')']) := by
  simp [hk]

theorem dollar_mem_of_begins {u k : Text} (hu : u ≠ []) (h : u <+: placeholder k) : '$' ∈ u := by
  cases u with
  | nil => exact (hu rfl).elim
  | cons c u =>
    obtain ⟨rfl, -⟩ := List.cons_prefix_cons.mp h
    exact List.mem_cons_self

/-- The only end of a placeholder with a `$` is the whole. -/
theorem eq_of_suffix {u k : Text} (hk : '$' ∉ k) (h : u <:+ placeholder k) (hu : '$' ∈ u) :
    u = placeholder k := by
  rcases List.suffix_cons_iff.mp h with h | h
  · exact h
  · exact (not_mem_tail hk (h.subset hu)).elim

theorem begins_of_contained {u k : Text} (hk : '$' ∉ k) (h : u <:+: placeholder k) (hu : '$' ∈ u) :
    u <+: placeholder k := by
  rcases List.infix_cons_iff.mp h with h | h
  · exact h
  · exact (not_mem_tail hk (h.subset hu)).elim

theorem eq_of_begins {j k : Text} (hk : ')' ∉ k) (h : placeholder j <+: placeholder k) : j = k := by
  obtain ⟨-, h⟩ := List.cons_prefix_cons.mp h
  obtain ⟨-, h⟩ := List.cons_prefix_cons.mp h
  rcases List.prefix_concat_iff.mp h with h | h
  · exact List.append_cancel_right h
  · exact (hk (h.subset (by simp))).elim

/-- The placeholders of different keys never overlap. -/
theorem Keys.separate (K : Keys) : Separate placeholder K.names where
  ne_nil k _ := placeholder_ne_nil k
  unbordered k hk u hu hpre hsuf := eq_of_suffix (K.plain k hk).1 hsuf (dollar_mem_of_begins hu hpre)
  apart := by
    intro k hk j hj hne htouch
    obtain ⟨hk₁, hk₂⟩ := K.plain k hk
    obtain ⟨hj₁, hj₂⟩ := K.plain j hj
    rcases htouch with h | h | ⟨u, v, hu, huv, h⟩ | ⟨u, v, hv, huv, h⟩
    · exact hne (eq_of_begins hj₂ (begins_of_contained hj₁ h (dollar_mem_placeholder k))).symm
    · exact hne (eq_of_begins hk₂ (begins_of_contained hk₁ h (dollar_mem_placeholder j)))
    · have hpre : u <+: placeholder k := ⟨v, huv.symm⟩
      rw [eq_of_suffix hj₁ h (dollar_mem_of_begins hu hpre)] at hpre
      exact hne (eq_of_begins hk₂ hpre)
    · have hsuf : v <:+ placeholder k := ⟨u, huv.symm⟩
      rw [eq_of_suffix hk₁ hsuf (dollar_mem_of_begins hv h)] at h
      exact hne (eq_of_begins hj₂ h).symm

/-- A text around `b` that completes a placeholder has no other placeholder in it. -/
theorem exists_context {b k : Text} (hk : '$' ∉ k ∧ ')' ∉ k) (h : Touches b (placeholder k)) :
    ∃ x y : Text, ')' ∉ x ∧ '$' ∉ y ∧ placeholder k <:+: x ++ (b ++ y) := by
  have hend {u v : Text} (huv : placeholder k = u ++ v) (hv : v ≠ []) : ')' ∉ u := by
    have hpre : u <+: ('$' :: '(' :: k) ++ [')'] := ⟨v, huv.symm⟩
    rcases List.prefix_concat_iff.mp hpre with he | hpre
    · refine (hv ?_).elim
      rw [he] at huv
      exact (List.append_right_eq_self.mp huv.symm)
    · exact fun hmem => by simpa [hk.2] using hpre.subset hmem
  have hstart {u v : Text} (huv : placeholder k = u ++ v) (hu : u ≠ []) : '$' ∉ v := by
    intro hv
    have he := eq_of_suffix hk.1 ⟨u, huv.symm⟩ hv
    rw [he] at huv
    exact hu (List.append_left_eq_self.mp huv.symm)
  rcases h with h | ⟨x, y, h⟩ | ⟨u, v, hu, huv, x, hx⟩ | ⟨u, v, hv, huv, y, hy⟩
  · exact ⟨[], [], by simp, by simp, by simpa using h⟩
  · by_cases hb : b = []
    · refine ⟨['$'], '(' :: (k ++ [')']), by decide, not_mem_tail hk.1, ?_⟩
      subst hb
      exact List.infix_rfl
    · refine ⟨x, y, hend (v := b ++ y) ?_ (by simp [hb]), hstart (u := x ++ b) h.symm (by simp [hb]), ?_⟩
      · rw [← h, List.append_assoc]
      · rw [← List.append_assoc, h]
  · refine ⟨[], v, by simp, hstart huv hu, ⟨x, [], ?_⟩⟩
    rw [← hx, huv]
    simp
  · refine ⟨u, [], hend huv hv, by simp, ⟨[], y, ?_⟩⟩
    rw [← hy, huv]
    simp

/-! ## The loop and the substitution -/

theorem replaceLoop_append (items items' : List (Text × Text)) (template : Text) :
    replaceLoop (items ++ items') template = replaceLoop items' (replaceLoop items template) :=
  List.foldl_append

theorem replaceLoop_cons (k v : Text) (items : List (Text × Text)) (template : Text) :
    replaceLoop ((k, v) :: items) template =
      replaceLoop items (replace (placeholder k) v template) := rfl

/-- A word that no placeholder touches stays in the text. -/
theorem replaceLoop_keeps_word {K : Keys} {items : List (Text × Text)} {w : Text}
    (h : ∀ item ∈ items, item.1 ∈ K.names ∧ ¬ Touches (placeholder item.1) w) {template : Text}
    (ht : w <:+: template) : w <:+: replaceLoop items template := by
  induction items generalizing template with
  | nil => exact ht
  | cons item items ih =>
    obtain ⟨⟨hin, hw⟩, hitems⟩ := List.forall_mem_cons.mp h
    exact ih hitems (replace_keeps_word K.separate hin hw ht)

/-- A placeholder stays there until its turn. -/
theorem replaceLoop_keeps {K : Keys} {items : List (Text × Text)} {k : Text} (hk : k ∈ K.names)
    (h : ∀ item ∈ items, item.1 ∈ K.names ∧ item.1 ≠ k) {template : Text}
    (ht : placeholder k <:+: template) : placeholder k <:+: replaceLoop items template := by
  refine replaceLoop_keeps_word (K := K) (fun item hitem => ?_) ht
  obtain ⟨hin, hne⟩ := h item hitem
  exact ⟨hin, K.separate.apart k hk item.1 hin hne⟩

theorem replaceLoop_items (order : List Text) (v : Text → Text) (template : Text) :
    replaceLoop (items order v) template =
      order.foldl (fun t k => replace (placeholder k) (v k) t) template := List.foldl_map

theorem Keys.Untouched.safe {K : Keys} {v : Text → Text} (h : K.Untouched v) (template : Text)
    {k : Text} (hk : k ∈ K.names) :
    v k = placeholder k ∨ Safe placeholder v K.names template k := by
  by_cases hv : v k = placeholder k
  · exact .inl hv
  · refine .inr fun x q y z t _ hq hne _ hfree => ?_
    exact .of_not_touches (hfree k hk) (h k hk hv q hq hne) t

theorem Keys.NoneBegun.safe {K : Keys} {v : Text → Text} (h : K.NoneBegun v) {template : Text}
    (hiso : K.Isolated template) {k : Text} (hk : k ∈ K.names) :
    Safe placeholder v K.names template k := by
  intro x q y z t hs hq hne hz hfree
  obtain ⟨hin, hend⟩ := h k hk q hq hne
  refine .append (fun s => .of_ends (hfree k hk) (fun u hu hsuf hpre => ?_) s) (.of_ends hin hend t)
  by_cases he : u = placeholder k
  · exact hfree k hk (he ▸ hsuf.isInfix)
  · exact hiso x q y hs hq k hk u hu hpre he (hsuf.trans hz)

/-- A template with a single placeholder. -/
theorem Keys.substitute_context (K : Keys) (v : Text → Text) {x y a : Text} (hx : ')' ∉ x)
    (hy : '$' ∉ y) (ha : a ∈ K.names) :
    K.substitute v (x ++ (placeholder a ++ y)) = x ++ (v a ++ y) := by
  have hfree : ∀ k ∈ K.names, ¬ placeholder k <:+: x := fun k _ hi =>
    hx (hi.subset (by simp [placeholder]))
  have hlast : ∀ k ∈ K.names, ¬ placeholder k <:+: y := fun k _ hi =>
    hy (hi.subset (dollar_mem_placeholder k))
  unfold Keys.substitute
  rw [subst_cons K.separate (List.Subset.refl _) hfree ha, value, if_pos ha, subst_last hlast]

/-- In it, the placeholders of the other keys are looked for in vain. -/
theorem foldl_context (K : Keys) (v : Text → Text) {x y a : Text} (hx : ')' ∉ x) (hy : '$' ∉ y)
    (ha : a ∈ K.names) {order : List Text} (hsub : order ⊆ K.names) (hnotin : a ∉ order) :
    order.foldl (fun t k => replace (placeholder k) (v k) t) (x ++ (placeholder a ++ y)) =
      x ++ (placeholder a ++ y) := by
  induction order with
  | nil => rfl
  | cons k order ih =>
    have hk : k ∈ K.names := hsub List.mem_cons_self
    have hxk : ¬ placeholder k <:+: x := fun hi => hx (hi.subset (by simp [placeholder]))
    have hyk : ¬ placeholder k <:+: y := fun hi => hy (hi.subset (dollar_mem_placeholder k))
    have hne : a ≠ k := fun he => hnotin (he ▸ List.mem_cons_self)
    have hno := NoStart.of_not_touches hxk (K.separate.apart k hk a ha hne) y
    rw [List.foldl_cons, ← List.append_assoc, replace_append hno, replace_last hyk,
      List.append_assoc]
    exact ih (fun j hj => hsub (List.mem_cons_of_mem _ hj)) fun hin =>
      hnotin (List.mem_cons_of_mem _ hin)

/-- In every order and for every template, the loop makes the simultaneous substitution, if and only
if no value can become part of the placeholder of another key. For one template, it is enough that no
placeholder is begun in the values or before a placeholder of the template. -/
theorem replaceLoop_eq_substitute (K : Keys) (v : Text → Text) :
    ((∀ order, order.Perm K.names → ∀ template,
        replaceLoop (items order v) template = K.substitute v template) ↔ K.Untouched v) ∧
      (K.NoneBegun v → ∀ template, K.Isolated template → ∀ order, order.Perm K.names →
        replaceLoop (items order v) template = K.substitute v template) := by
  refine ⟨⟨fun h k hk hv a ha hne htouch => ?_, fun h order hperm template => ?_⟩,
    fun h template hiso order hperm => ?_⟩
  · obtain ⟨x, y, hx, hy, hin⟩ := exists_context (K.plain k hk) htouch
    -- all other keys first, then the value comes in, and `k` is last
    let others := (K.names.erase a).erase k
    have hka : k ∈ K.names.erase a := (List.mem_erase_of_ne hne.symm).mpr hk
    have hperm : (others ++ [a, k]).Perm K.names :=
      calc (others ++ [a, k]).Perm ([a, k] ++ others) := List.perm_append_comm
        _ |>.Perm (a :: K.names.erase a) := .cons a (List.perm_cons_erase hka).symm
        _ |>.Perm K.names := (List.perm_cons_erase ha).symm
    have hothers : others ⊆ K.names := fun j hj => List.mem_of_mem_erase (List.mem_of_mem_erase hj)
    have hnotin : a ∉ others := fun hj => by
      have := List.mem_of_mem_erase hj
      rw [K.nodup.mem_erase_iff] at this
      exact this.1 rfl
    have hloop := h (others ++ [a, k]) hperm (x ++ (placeholder a ++ y))
    rw [replaceLoop_items, List.foldl_append, foldl_context K v hx hy ha hothers hnotin,
      K.substitute_context v hx hy ha] at hloop
    have hxa : ¬ placeholder a <:+: x := fun hi => hx (hi.subset (by simp [placeholder]))
    have hya : ¬ placeholder a <:+: y := fun hi => hy (hi.subset (dollar_mem_placeholder a))
    simp only [List.foldl_cons, List.foldl_nil, replace_cons K.separate ha hxa, replace_last hya]
      at hloop
    exact replace_ne K.separate hk hin hv hloop
  · rw [replaceLoop_items]
    exact foldl_replace K.separate (fun k hk => h.safe template hk) hperm K.nodup
  · rw [replaceLoop_items]
    exact foldl_replace K.separate (fun k hk => .inr (h.safe hiso hk)) hperm K.nodup

/-- A user whose name is the placeholder of the password. -/
private def passwordUser (k : Text) : Text :=
  if k = "username".toList then "$(password)".toList
  else if k = "password".toList then "$1$salt$hash".toList
  else "host".toList

/-- The user name is scanned for placeholders, if its turn is before the password. -/
theorem username_scanned : ∃ order, order.Perm preseedKeys.names ∧
    replaceLoop (items order passwordUser) "string $(username)".toList =
      "string $1$salt$hash".toList ∧
    preseedKeys.substitute passwordUser "string $(username)".toList =
      "string $(password)".toList ∧
    replaceLoop (items preseedKeys.names passwordUser) "string $(username)".toList =
      "string $(password)".toList := by
  refine ⟨"username".toList :: preseedKeys.names.erase "username".toList,
    (List.perm_cons_erase (by decide +kernel)).symm, ?_, ?_, ?_⟩ <;> decide +kernel

end Swinst.Templates
