import Mathlib.Data.List.Infix
import Mathlib.Data.List.Perm.Basic

/-! Substitution in words over an arbitrary alphabet. Each `k : ι` has a pattern `pat k` and a value
`val k`. The simultaneous substitution of some patterns is compared with the replacement of one
pattern after another. -/

namespace Swinst.Substitution

variable {α ι : Type} {pat val : ι → List α} {ks : List ι}

/-- The leftmost occurrences of `old` become `new`; of the text, `skip` letters still belong to an
occurrence. -/
def replaceFrom [DecidableEq α] (old new : List α) : (skip : Nat) → List α → List α
  | _, [] => []
  | skip + 1, _ :: s => replaceFrom old new skip s
  | 0, c :: s =>
    if old <+: c :: s then new ++ replaceFrom old new (old.length - 1) s
    else c :: replaceFrom old new 0 s

/-- `s.replace(old, new)`, for an `old` that is not empty -/
def replace [DecidableEq α] (old new s : List α) : List α := replaceFrom old new 0 s

/-- The same with several patterns at once. -/
def substFrom [DecidableEq α] (pat val : ι → List α) (ks : List ι) :
    (skip : Nat) → List α → List α
  | _, [] => []
  | skip + 1, _ :: s => substFrom pat val ks skip s
  | 0, c :: s =>
    match ks.find? fun k => pat k <+: c :: s with
    | some k => val k ++ substFrom pat val ks ((pat k).length - 1) s
    | none => c :: substFrom pat val ks 0 s

def subst [DecidableEq α] (pat val : ι → List α) (ks : List ι) (s : List α) : List α :=
  substFrom pat val ks 0 s

/-! ## Occurrences -/

/-- With letters around it, `b` can become part of an occurrence of `p`. -/
def Touches (b p : List α) : Prop :=
  p <:+: b ∨ b <:+: p ∨ (∃ u v, u ≠ [] ∧ p = u ++ v ∧ u <:+ b) ∨
    ∃ u v, v ≠ [] ∧ p = u ++ v ∧ v <+: b

/-- No occurrence of `p` in `z ++ s` begins in `z`. -/
def NoStart (p z s : List α) : Prop := ∀ t, t ≠ [] → t <:+ z → ¬ p <+: t ++ s

theorem prefix_append_cases {p s t : List α} (h : p <+: s ++ t) :
    p <+: s ∨ ∃ v, p = s ++ v ∧ v <+: t := by
  obtain ⟨r, hr⟩ := h
  rcases List.append_eq_append_iff.mp hr with ⟨v, hs, -⟩ | ⟨v, hp, ht⟩
  · exact .inl ⟨v, hs.symm⟩
  · exact .inr ⟨v, hp, r, ht.symm⟩

theorem suffix_append_cases {p s t : List α} (h : p <:+ s ++ t) :
    p <:+ t ∨ ∃ u, p = u ++ t ∧ u <:+ s := by
  obtain ⟨r, hr⟩ := h
  rcases List.append_eq_append_iff.mp hr with ⟨v, hs, hp⟩ | ⟨v, -, ht⟩
  · exact .inr ⟨v, hp, r, hs.symm⟩
  · exact .inl ⟨v, ht.symm⟩

theorem NoStart.left {p x b s : List α} (h : NoStart p (x ++ b) s) : NoStart p x (b ++ s) := by
  intro t ht hs hp
  refine h (t ++ b) (by simp [ht]) ?_ (by rwa [List.append_assoc])
  obtain ⟨r, rfl⟩ := hs
  exact ⟨r, by rw [List.append_assoc]⟩

theorem NoStart.append {p x b s : List α} (hx : ∀ s, NoStart p x s) (hb : NoStart p b s) :
    NoStart p (x ++ b) s := by
  intro t ht hs hp
  rcases suffix_append_cases hs with hs | ⟨u, rfl, hu⟩
  · exact hb t ht hs hp
  · rw [List.append_assoc] at hp
    by_cases hne : u = []
    · subst hne
      exact hb b (by simpa using ht) List.suffix_rfl hp
    · exact hx _ u hne hu hp

theorem NoStart.later {p z s : List α} (h : NoStart p z s) (hp : p <:+: z ++ s) : p <:+: s := by
  obtain ⟨l, r, hr⟩ := hp
  rw [List.append_assoc] at hr
  rcases List.append_eq_append_iff.mp hr with ⟨m, hz, hs⟩ | ⟨m, -, hs⟩
  · by_cases hm : m = []
    · rw [hm, List.nil_append] at hs
      exact ⟨[], r, by simpa using hs⟩
    · exact (h m hm ⟨l, hz.symm⟩ ⟨r, hs⟩).elim
  · exact ⟨m, r, by rw [hs, List.append_assoc]⟩

/-- Neither in `z` nor at its end. -/
theorem NoStart.of_ends {p z : List α} (hz : ¬ p <:+: z)
    (hends : ∀ u, u ≠ [] → u <:+ z → ¬ u <+: p) (s : List α) : NoStart p z s := by
  intro t ht hs hp
  rcases prefix_append_cases hp with hp | ⟨v, rfl, -⟩
  · exact hz (hp.isInfix.trans hs.isInfix)
  · exact hends t ht hs (List.prefix_append ..)

theorem NoStart.of_not_touches {p x b : List α} (hx : ¬ p <:+: x) (hb : ¬ Touches b p)
    (s : List α) : NoStart p (x ++ b) s := by
  intro t ht hs hp
  rcases suffix_append_cases hs with hs | ⟨u, rfl, hu⟩
  · rcases prefix_append_cases hp with hp | ⟨v, rfl, -⟩
    · exact hb (.inl (hp.isInfix.trans hs.isInfix))
    · exact hb (.inr (.inr (.inl ⟨t, v, ht, rfl, hs⟩)))
  · rw [List.append_assoc] at hp
    rcases prefix_append_cases hp with hp | ⟨v, rfl, hv⟩
    · exact hx (hp.isInfix.trans hu.isInfix)
    · by_cases hne : v = []
      · subst hne
        exact hx (by simpa using hu.isInfix)
      rcases prefix_append_cases hv with hv | ⟨w, rfl, -⟩
      · exact hb (.inr (.inr (.inr ⟨u, v, hne, rfl, hv⟩)))
      · exact hb (.inr (.inl ⟨u, w, by rw [List.append_assoc]⟩))

/-- Patterns of which no two overlap in a text. -/
structure Separate (pat : ι → List α) (ks : List ι) : Prop where
  ne_nil : ∀ k ∈ ks, pat k ≠ []
  unbordered : ∀ k ∈ ks, ∀ u, u ≠ [] → u <+: pat k → u <:+ pat k → u = pat k
  apart : ∀ k ∈ ks, ∀ j ∈ ks, j ≠ k → ¬ Touches (pat j) (pat k)

/-- A single one of them. -/
theorem Separate.single (h : Separate pat ks) {k : ι} (hk : k ∈ ks) :
    Separate (fun _ : Unit => pat k) [()] where
  ne_nil _ _ := h.ne_nil k hk
  unbordered _ _ := h.unbordered k hk
  apart _ _ _ _ hne := (hne rfl).elim

/-- Before a pattern, letters in which there is none. -/
theorem Separate.noStart (h : Separate pat ks) {j k : ι}
    (hj : j ∈ ks) (hk : k ∈ ks) {x : List α} (hx : ¬ pat j <:+: x) (s : List α) :
    NoStart (pat j) x (pat k ++ s) := by
  by_cases hjk : k = j
  · subst hjk
    intro t ht hs hp
    rcases prefix_append_cases hp with hp | ⟨v, hv, hv'⟩
    · exact hx (hp.isInfix.trans hs.isInfix)
    · have hlen : v.length < (pat k).length := by
        rw [hv, List.length_append]
        have := List.length_pos_iff.mpr ht
        omega
      have hpre : v <+: pat k :=
        List.prefix_of_prefix_length_le hv' (List.prefix_append ..) hlen.le
      by_cases hne : v = []
      · rw [hne, List.append_nil] at hv
        exact hx (hv ▸ hs.isInfix)
      · rw [h.unbordered k hj v hne hpre ⟨t, hv.symm⟩] at hlen
        exact hlen.false
  · exact (NoStart.of_not_touches hx (h.apart j hj k hk hjk) s).left

/-! ## Texts as segments -/

/-- A text between and around the patterns in it. -/
inductive Segments (pat : ι → List α) (ks : List ι) : List α → Prop where
  | last {x} : (∀ k ∈ ks, ¬ pat k <:+: x) → Segments pat ks x
  | cons {x k s} : (∀ j ∈ ks, ¬ pat j <:+: x) → k ∈ ks → Segments pat ks s →
    Segments pat ks (x ++ (pat k ++ s))

theorem segments (h : ∀ k ∈ ks, pat k ≠ []) (s : List α) :
    Segments pat ks s := by
  induction hn : s.length using Nat.strong_induction_on generalizing s with
  | _ n ih =>
    by_cases hpre : ∃ k ∈ ks, pat k <+: s
    · obtain ⟨k, hk, s', rfl⟩ := hpre
      refine .cons (x := []) (fun j hj hi => h j hj (List.infix_nil.mp hi)) hk
        (ih s'.length ?_ s' rfl)
      have := List.length_pos_iff.mpr (h k hk)
      rw [← hn, List.length_append]
      omega
    · cases s with
      | nil => exact .last fun k hk hi => h k hk (List.infix_nil.mp hi)
      | cons c s =>
        have hfree {x s' : List α} (hs : s = x ++ s') (hx : ∀ k ∈ ks, ¬ pat k <:+: x) :
            ∀ k ∈ ks, ¬ pat k <:+: c :: x := by
          intro k hk hi
          rcases List.infix_cons_iff.mp hi with hp | hi
          · exact hpre ⟨k, hk, hp.trans ⟨s', by rw [hs]; rfl⟩⟩
          · exact hx k hk hi
        cases ih s.length (by rw [← hn]; exact Nat.lt_succ_self _) s rfl with
        | last hx => exact .last (hfree (List.append_nil _).symm hx)
        | @cons x k s' hx hk hs => exact .cons (x := c :: x) (hfree rfl hx) hk hs

/-- In the text `s`, no value of another key makes an occurrence of `pat k`. -/
def Safe (pat val : ι → List α) (ks : List ι) (s : List α) (k : ι) : Prop :=
  ∀ x q y z t, s = x ++ (pat q ++ y) → q ∈ ks → q ≠ k → z <:+ x → (∀ j ∈ ks, ¬ pat j <:+: z) →
    NoStart (pat k) (z ++ val q) t

theorem Safe.tail {k q : ι} {x s : List α} (h : Safe pat val ks (x ++ (pat q ++ s)) k) :
    Safe pat val ks s k := by
  rintro x' q' y z t rfl hq hne hz hfree
  refine h (x ++ (pat q ++ x')) q' y z t ?_ hq hne ?_ hfree
  · simp only [List.append_assoc]
  · obtain ⟨r, rfl⟩ := hz
    exact ⟨x ++ (pat q ++ r), by simp only [List.append_assoc]⟩

variable [DecidableEq α]

theorem substFrom_append (u s : List α) :
    substFrom pat val ks u.length (u ++ s) = subst pat val ks s := by
  induction u with
  | nil => rfl
  | cons c u ih => exact ih

@[simp] theorem subst_nil : subst pat val ks [] = [] := rfl

/-- Letters in which no pattern begins. -/
theorem subst_append {z s : List α} (h : ∀ k ∈ ks, NoStart (pat k) z s) :
    subst pat val ks (z ++ s) = z ++ subst pat val ks s := by
  induction z with
  | nil => rfl
  | cons c z ih =>
    have hnone : ks.find? (fun k => pat k <+: c :: (z ++ s)) = none := by
      rw [List.find?_eq_none]
      intro k hk hp
      exact h k hk (c :: z) (List.cons_ne_nil c z) List.suffix_rfl (of_decide_eq_true hp)
    have htail : ∀ k ∈ ks, NoStart (pat k) z s := fun k hk t ht hs =>
      h k hk t ht (hs.trans (List.suffix_cons ..))
    rw [List.cons_append, subst, substFrom, hnone]
    exact congrArg (List.cons c) (ih htail)

/-- A pattern at the front. -/
theorem subst_pattern {k : ι} (hk : k ∈ ks) (hne : pat k ≠ []) {s : List α}
    (huniq : ∀ j ∈ ks, pat j <+: pat k ++ s → j = k) :
    subst pat val ks (pat k ++ s) = val k ++ subst pat val ks s := by
  have hfind : ks.find? (fun j => pat j <+: pat k ++ s) = some k := by
    cases hf : ks.find? (fun j => pat j <+: pat k ++ s) with
    | none => exact (List.find?_eq_none.mp hf k hk (decide_eq_true (List.prefix_append ..))).elim
    | some j =>
      have hj := List.find?_some hf
      rw [huniq j (List.mem_of_find?_eq_some hf) (of_decide_eq_true hj)]
  cases hp : pat k with
  | nil => exact (hne hp).elim
  | cons c u =>
    rw [hp, List.cons_append] at hfind
    rw [List.cons_append, subst, substFrom, hfind]
    simp only [hp, List.length_cons, Nat.add_sub_cancel, substFrom_append]

/-! ## Substitution along segments -/

theorem subst_last {x : List α} (hx : ∀ k ∈ ks, ¬ pat k <:+: x) : subst pat val ks x = x := by
  have h : ∀ k ∈ ks, NoStart (pat k) x [] := fun k hk t _ hs hp => by
    rw [List.append_nil] at hp
    exact hx k hk (hp.isInfix.trans hs.isInfix)
  have happ : subst pat val ks (x ++ []) = x ++ subst pat val ks [] := subst_append h
  rwa [List.append_nil, subst_nil, List.append_nil] at happ

/-- What the substitution of the patterns in `ks` makes of one pattern. -/
def value [DecidableEq ι] (pat val : ι → List α) (ks : List ι) (k : ι) : List α :=
  if k ∈ ks then val k else pat k

theorem subst_cons [DecidableEq ι] {all : List ι} (h : Separate pat all) (hks : ks ⊆ all)
    {x s : List α} {k : ι} (hx : ∀ j ∈ all, ¬ pat j <:+: x) (hk : k ∈ all) :
    subst pat val ks (x ++ (pat k ++ s)) = x ++ (value pat val ks k ++ subst pat val ks s) := by
  unfold value
  split
  · next hin =>
    rw [subst_append fun j hj => h.noStart (hks hj) hk (hx j (hks hj)) s]
    rw [subst_pattern hin (h.ne_nil k hk)]
    intro j hj hp
    by_contra hne
    have hno := NoStart.of_not_touches (x := []) (fun hi => h.ne_nil j (hks hj)
      (List.infix_nil.mp hi)) (h.apart j (hks hj) k hk fun he => hne he.symm) s
    exact hno (pat k) (h.ne_nil k hk) List.suffix_rfl hp
  · next hout =>
    have hno : ∀ j ∈ ks, NoStart (pat j) (x ++ pat k) s := fun j hj =>
      .of_not_touches (hx j (hks hj))
        (h.apart j (hks hj) k hk fun he => hout (he ▸ hj)) s
    rw [← List.append_assoc, subst_append hno, List.append_assoc]

/-- Only the set of the patterns matters. -/
theorem subst_congr [DecidableEq ι] {all ks ks' : List ι} (h : Separate pat all) (hks : ks ⊆ all)
    (hks' : ks' ⊆ all) (hv : ∀ k ∈ all, value pat val ks k = value pat val ks' k) (s : List α) :
    subst pat val ks s = subst pat val ks' s := by
  induction segments h.ne_nil s with
  | last hx =>
    rw [subst_last fun k hk => hx k (hks hk), subst_last fun k hk => hx k (hks' hk)]
  | cons hx hk _ ih => rw [subst_cons h hks hx hk, subst_cons h hks' hx hk, hv _ hk, ih]

theorem replaceFrom_eq (old new : List α) (skip : Nat) (s : List α) :
    replaceFrom old new skip s = substFrom (fun _ : Unit => old) (fun _ => new) [()] skip s := by
  induction s generalizing skip with
  | nil => rw [replaceFrom, substFrom]
  | cons c s ih =>
    cases skip with
    | succ skip => exact ih skip
    | zero =>
      rw [replaceFrom, substFrom, List.find?_cons]
      by_cases hp : old <+: c :: s
      · simp only [hp, if_true, decide_true, ih]
      · simp only [hp, if_false, decide_false, List.find?_nil, ih]

/-- A replacement is the substitution of a single pattern. -/
theorem replace_eq (old new s : List α) :
    replace old new s = subst (fun _ : Unit => old) (fun _ => new) [()] s := replaceFrom_eq ..

theorem replace_append {p v z s : List α} (h : NoStart p z s) :
    replace p v (z ++ s) = z ++ replace p v s := by
  rw [replace_eq, replace_eq]
  exact subst_append fun _ _ => h

theorem replace_cons (h : Separate pat ks) {k : ι} (hk : k ∈ ks) {x s v : List α}
    (hx : ¬ pat k <:+: x) :
    replace (pat k) v (x ++ (pat k ++ s)) = x ++ (v ++ replace (pat k) v s) := by
  rw [replace_eq, replace_eq]
  exact subst_cons (h.single hk) (List.Subset.refl _) (fun _ _ => hx) List.mem_cons_self

theorem replace_last {p v x : List α} (hx : ¬ p <:+: x) : replace p v x = x := by
  rw [replace_eq]
  exact subst_last fun _ _ => hx

/-- A pattern that becomes itself. -/
theorem replace_self (h : Separate pat ks) {k : ι} (hk : k ∈ ks) (s : List α) :
    replace (pat k) (pat k) s = s := by
  induction segments (h.single hk).ne_nil s with
  | last hx => exact replace_last (hx () List.mem_cons_self)
  | cons hx _ _ ih => rw [replace_cons h hk (hx () List.mem_cons_self), ih]

/-- Letters that the pattern does not touch stay where they are. -/
theorem replace_keeps_word (h : Separate pat ks) {k : ι} (hk : k ∈ ks) {w s v : List α}
    (hw : ¬ Touches (pat k) w) (hs : w <:+: s) : w <:+: replace (pat k) v s := by
  induction segments (h.single hk).ne_nil s with
  | last hx => rwa [replace_last (hx () List.mem_cons_self)]
  | @cons x _ s hx _ _ ih =>
    rw [replace_cons h hk (hx () List.mem_cons_self)]
    by_cases hin : w <:+: x
    · exact hin.trans (List.prefix_append ..).isInfix
    · have hno := NoStart.of_not_touches hin hw s
      rw [← List.append_assoc] at hs
      exact (ih (hno.later hs)).trans ⟨x ++ v, [], by simp⟩

/-- The value stands where the pattern was. -/
theorem infix_replace (h : Separate pat ks) {k : ι} (hk : k ∈ ks) {s v : List α}
    (hs : pat k <:+: s) : v <:+: replace (pat k) v s := by
  cases segments (h.single hk).ne_nil s with
  | last hx => exact (hx () List.mem_cons_self hs).elim
  | cons hx _ _ =>
    rw [replace_cons h hk (hx () List.mem_cons_self)]
    exact List.infix_append' ..

/-- Letters outside the pattern stay. -/
theorem mem_replace_of_mem (h : Separate pat ks) {k : ι} (hk : k ∈ ks) {s v : List α} {c : α}
    (hc : c ∉ pat k) (hs : c ∈ s) : c ∈ replace (pat k) v s := by
  induction segments (h.single hk).ne_nil s with
  | last hx => rwa [replace_last (hx () List.mem_cons_self)]
  | cons hx _ _ ih =>
    rw [replace_cons h hk (hx () List.mem_cons_self)]
    simp only [List.mem_append] at hs ⊢
    rcases hs with hs | hs | hs
    · exact .inl hs
    · exact (hc hs).elim
    · exact .inr (.inr (ih hs))

theorem subset_replace (h : Separate pat ks) {k : ι} (hk : k ∈ ks) {s v : List α}
    (hs : pat k <:+: s) : v ⊆ replace (pat k) v s := (infix_replace h hk hs).subset

/-- Some number of words are replaced, each by another one. -/
theorem length_replace (h : Separate pat ks) {k : ι} (hk : k ∈ ks) (v s : List α) :
    ∃ n, (replace (pat k) v s).length + n * (pat k).length = s.length + n * v.length := by
  induction segments (h.single hk).ne_nil s with
  | last hx => exact ⟨0, by rw [replace_last (hx () List.mem_cons_self), Nat.zero_mul, Nat.zero_mul]⟩
  | cons hx _ _ ih =>
    obtain ⟨n, ih⟩ := ih
    refine ⟨n + 1, ?_⟩
    rw [replace_cons h hk (hx () List.mem_cons_self), Nat.succ_mul, Nat.succ_mul]
    simp only [List.length_append]
    omega

/-- A replacement by a word that is not longer -/
theorem length_replace_le (h : Separate pat ks) {k : ι} (hk : k ∈ ks) {v : List α}
    (hv : v.length ≤ (pat k).length) (s : List α) : (replace (pat k) v s).length ≤ s.length := by
  obtain ⟨n, hn⟩ := length_replace h hk v s
  have hle := Nat.mul_le_mul_left n hv
  omega

theorem le_length_replace (h : Separate pat ks) {k : ι} (hk : k ∈ ks) {v : List α}
    (hv : (pat k).length ≤ v.length) (s : List α) : s.length ≤ (replace (pat k) v s).length := by
  obtain ⟨n, hn⟩ := length_replace h hk v s
  have hle := Nat.mul_le_mul_left n hv
  omega

/-- A shorter word makes the text shorter. -/
theorem length_replace_lt (h : Separate pat ks) {k : ι} (hk : k ∈ ks) {s v : List α}
    (hs : pat k <:+: s) (hv : v.length < (pat k).length) : (replace (pat k) v s).length < s.length := by
  cases segments (h.single hk).ne_nil s with
  | last hx => exact (hx () List.mem_cons_self hs).elim
  | @cons x _ y hx _ _ =>
    have hle : (replace (pat k) v y).length ≤ y.length := length_replace_le h hk hv.le y
    rw [replace_cons h hk (hx () List.mem_cons_self)]
    simp only [List.length_append]
    omega

/-- A replacement that changes the text. -/
theorem replace_ne (h : Separate pat ks) {k : ι} (hk : k ∈ ks) {s v : List α}
    (hs : pat k <:+: s) (hv : v ≠ pat k) : replace (pat k) v s ≠ s := by
  cases segments (h.single hk).ne_nil s with
  | last hx => exact (hx () List.mem_cons_self hs).elim
  | @cons x _ y hx _ _ =>
    rw [replace_cons h hk (hx () List.mem_cons_self)]
    intro he
    have he' := List.append_cancel_left he
    have hlen := congrArg List.length he'
    simp only [List.length_append] at hlen
    have heq : v.length = (pat k).length := by
      rcases Nat.le_total v.length (pat k).length with hv' | hv'
      · have := length_replace_le h hk hv' y
        omega
      · have := le_length_replace h hk hv' y
        omega
    exact hv (List.append_inj_left he' heq)

omit [DecidableEq α] in
/-- A word whose first letter stands only there -/
theorem Separate.of_head {c : α} {p : List α} (hc : c ∉ p) :
    Separate (fun _ : Unit => c :: p) [()] where
  ne_nil _ _ := List.cons_ne_nil c p
  apart _ _ _ _ hne := (hne rfl).elim
  unbordered _ _ u hu hpre hsuf := by
    obtain ⟨c', u, rfl⟩ := List.exists_cons_of_ne_nil hu
    obtain rfl : c' = c := (List.cons_prefix_cons.mp hpre).1
    rcases List.suffix_cons_iff.mp hsuf with heq | hsuf
    · exact heq
    · exact (hc (hsuf.subset List.mem_cons_self)).elim

/-! ## One replacement after another -/

/-- One replacement adds its pattern to those that are substituted. -/
theorem replace_subst [DecidableEq ι] (h : Separate pat ks) {done : List ι} (hdone : done ⊆ ks)
    {k : ι} (hk : k ∈ ks) (hnew : k ∉ done) {s : List α} (hsafe : val k = pat k ∨ Safe pat val ks s k) :
    replace (pat k) (val k) (subst pat val done s) = subst pat val (k :: done) s := by
  have hcons : k :: done ⊆ ks := List.cons_subset.mpr ⟨hk, hdone⟩
  rcases hsafe with hself | hsafe
  · rw [hself, replace_self h hk]
    refine subst_congr h hdone hcons (fun j _ => ?_) s
    by_cases hj : j = k
    · subst hj
      rw [value, value, if_neg hnew, if_pos List.mem_cons_self, hself]
    · simp only [value, List.mem_cons, hj, false_or]
  · induction segments h.ne_nil s with
    | last hx =>
      rw [subst_last fun j hj => hx j (hdone hj), subst_last fun j hj => hx j (hcons hj),
        replace_last (hx k hk)]
    | @cons x q s hx hq _ ih =>
      rw [subst_cons h hdone hx hq, subst_cons h hcons hx hq]
      by_cases hqk : q = k
      · subst hqk
        rw [value, value, if_neg hnew, if_pos List.mem_cons_self, replace_cons h hk (hx q hk),
          ih hsafe.tail]
      · have hvalue : value pat val (k :: done) q = value pat val done q := by
          simp only [value, List.mem_cons, hqk, false_or]
        have hno : NoStart (pat k) (x ++ value pat val done q) (subst pat val done s) := by
          unfold value
          split
          · exact hsafe x q s x _ rfl hq hqk List.suffix_rfl hx
          · exact .of_not_touches (hx k hk) (h.apart k hk q hq hqk) _
        rw [hvalue, ← List.append_assoc, replace_append hno, List.append_assoc, ih hsafe.tail]

/-- The patterns in `done` have had their turn, those in `rest` have not. -/
theorem foldl_replace_from [DecidableEq ι] (h : Separate pat ks) {s : List α}
    (hsafe : ∀ k ∈ ks, val k = pat k ∨ Safe pat val ks s k) {done rest : List ι}
    (hrest : rest.Nodup) (hnew : ∀ k ∈ rest, k ∉ done) (hks : ∀ k, k ∈ ks ↔ k ∈ done ∨ k ∈ rest) :
    rest.foldl (fun t k => replace (pat k) (val k) t) (subst pat val done s) =
      subst pat val ks s := by
  have hdone : done ⊆ ks := fun k hk => (hks k).mpr (.inl hk)
  induction rest generalizing done with
  | nil =>
    refine subst_congr h hdone (List.Subset.refl _) (fun k hk => ?_) s
    rw [value, value, if_pos hk, if_pos (by simpa using (hks k).mp hk)]
  | cons k rest ih =>
    obtain ⟨hnotin, hrest⟩ := List.nodup_cons.mp hrest
    have hk : k ∈ ks := (hks k).mpr (.inr List.mem_cons_self)
    rw [List.foldl_cons, replace_subst h hdone hk (hnew k List.mem_cons_self) (hsafe k hk)]
    refine ih hrest (fun j hj hin => ?_) (fun j => ?_) (List.cons_subset.mpr ⟨hk, hdone⟩)
    · rcases List.mem_cons.mp hin with rfl | hin
      · exact hnotin hj
      · exact hnew j (List.mem_cons_of_mem _ hj) hin
    · rw [hks, List.mem_cons, List.mem_cons, or_left_comm, or_assoc]

/-- The replacement of one pattern after another, in any order, is the simultaneous substitution,
where no replacement makes an occurrence of another pattern. -/
theorem foldl_replace [DecidableEq ι] (h : Separate pat ks) {s : List α}
    (hsafe : ∀ k ∈ ks, val k = pat k ∨ Safe pat val ks s k) {order : List ι}
    (hperm : order.Perm ks) (hnodup : ks.Nodup) :
    order.foldl (fun t k => replace (pat k) (val k) t) s = subst pat val ks s := by
  have hnil : subst pat val [] s = s := subst_last fun k hk => absurd hk List.not_mem_nil
  have hfold : order.foldl _ (subst pat val [] s) = subst pat val ks s :=
    foldl_replace_from h hsafe (hperm.nodup_iff.mpr hnodup) (fun _ _ => List.not_mem_nil)
      fun k => by rw [← hperm.mem_iff, List.mem_nil_iff, false_or]
  rwa [hnil] at hfold

end Swinst.Substitution
