import Mathlib.Data.List.Basic

/-! A store of items at the positions below its size, which is read and written in ranges. At first there need not
be an item at a position; what is known of a range is a list of items that are there (`FlatStore.At`). -/

namespace Swinst

structure FlatStore (σ α ε : Type) where
  total : σ → Nat
  item : σ → Nat → Option α
  read : σ → (pos amount : Nat) → Except ε (List α)
  write : σ → (pos : Nat) → List α → Except ε σ
  read_eq : ∀ {s pos xs r}, read s pos xs.length = .ok r → pos + xs.length ≤ total s →
    (∀ k x, xs[k]? = some x → item s (pos + k) = some x) → r = xs
  total_write : ∀ {s pos xs s'}, write s pos xs = .ok s' → total s' = total s
  item_written : ∀ {s pos xs s'}, write s pos xs = .ok s' → pos + xs.length ≤ total s →
    ∀ k x, xs[k]? = some x → item s' (pos + k) = some x
  item_kept : ∀ {s pos xs s'}, write s pos xs = .ok s' → ∀ q x, item s q = some x →
    q < pos ∨ pos + xs.length ≤ q → item s' q = some x

namespace FlatStore

variable {σ α ε : Type} (S : FlatStore σ α ε)

/-- These items are in the store, from this position on. -/
def At (s : σ) (pos : Nat) (xs : List α) : Prop := ∀ k x, xs[k]? = some x → S.item s (pos + k) = some x

variable {S} {s s' : σ} {pos pos' start : Nat} {xs ys r : List α}

theorem exists_at (n : Nat) (h : ∀ q, pos ≤ q → q < pos + n → (S.item s q).isSome) :
    ∃ xs, xs.length = n ∧ S.At s pos xs := by
  have hitem : ∀ i : Fin n, ∃ x, S.item s (pos + i) = some x := fun i =>
    Option.isSome_iff_exists.mp (h _ (Nat.le_add_right ..) (Nat.add_lt_add_left i.isLt _))
  refine ⟨List.ofFn fun i => (hitem i).choose, List.length_ofFn, fun k x hx => ?_⟩
  obtain ⟨hk, hx⟩ := List.getElem?_eq_some_iff.mp hx
  rw [List.length_ofFn] at hk
  rw [List.getElem_ofFn] at hx
  rw [← hx]
  exact (hitem ⟨k, hk⟩).choose_spec

theorem at_append : S.At s pos (xs ++ ys) ↔ S.At s pos xs ∧ S.At s (pos + xs.length) ys := by
  constructor
  · intro h
    refine ⟨fun k x hx => ?_, fun k x hx => ?_⟩
    · have hk : k < xs.length := (List.getElem?_eq_some_iff.mp hx).1
      exact h k x (by rw [List.getElem?_append_left hk, hx])
    · rw [Nat.add_assoc]
      exact h _ x (by rw [List.getElem?_append_right (Nat.le_add_right ..), Nat.add_sub_cancel_left, hx])
  · rintro ⟨hxs, hys⟩ k x hx
    rcases Nat.lt_or_ge k xs.length with hk | hk
    · rw [List.getElem?_append_left hk] at hx
      exact hxs k x hx
    · rw [List.getElem?_append_right hk] at hx
      have := hys _ x hx
      rwa [Nat.add_assoc, Nat.add_sub_cancel' hk] at this

theorem At.take (h : S.At s pos xs) (n : Nat) : S.At s pos (xs.take n) := by
  rw [← List.take_append_drop n xs] at h
  exact (at_append.mp h).1

theorem At.drop (h : S.At s pos xs) {n : Nat} (hn : n ≤ xs.length) : S.At s (pos + n) (xs.drop n) := by
  rw [← List.take_append_drop n xs] at h
  have := (at_append.mp h).2
  rwa [List.length_take_of_le hn] at this

theorem At.unique (hxs : S.At s pos xs) (hys : S.At s pos ys) (hlen : xs.length = ys.length) : xs = ys := by
  apply List.ext_getElem hlen
  intro k hk hk'
  have hx := hxs k _ (List.getElem?_eq_getElem hk)
  rw [hys k _ (List.getElem?_eq_getElem hk')] at hx
  exact (Option.some.inj hx).symm

theorem At.read (h : S.At s pos xs) (hread : S.read s pos xs.length = .ok r) (hle : pos + xs.length ≤ S.total s) :
    r = xs := S.read_eq hread hle h

/-- A read of the beginning of what is known -/
theorem At.read_take (h : S.At s pos xs) {n : Nat} (hread : S.read s pos n = .ok r) (hn : n ≤ xs.length)
    (hle : pos + n ≤ S.total s) : r = xs.take n := by
  have hlen : (xs.take n).length = n := List.length_take_of_le hn
  rw [← hlen] at hread hle
  exact (h.take n).read hread hle

theorem at_write (h : S.write s pos xs = .ok s') (hle : pos + xs.length ≤ S.total s) : S.At s' pos xs :=
  S.item_written h hle

theorem At.write_disjoint (h : S.At s pos xs) (hwrite : S.write s pos' ys = .ok s')
    (hdisjoint : pos + xs.length ≤ pos' ∨ pos' + ys.length ≤ pos) : S.At s' pos xs := by
  intro k x hx
  have hk : k < xs.length := (List.getElem?_eq_some_iff.mp hx).1
  refine S.item_kept hwrite _ x (h k x hx) ?_
  omega

/-- A write within what is known -/
theorem At.write_within (h : S.At s pos xs) (hwrite : S.write s (pos + start) ys = .ok s')
    (hlen : start + ys.length ≤ xs.length) (hle : pos + xs.length ≤ S.total s) :
    S.At s' pos (xs.take start ++ ys ++ xs.drop (start + ys.length)) := by
  have hstart : (xs.take start).length = start := List.length_take_of_le (by omega)
  rw [at_append, at_append, List.length_append, hstart]
  refine ⟨⟨(h.take start).write_disjoint hwrite ?_, at_write hwrite (by omega)⟩, ?_⟩
  · rw [hstart]
    exact .inl (Nat.le_refl _)
  · exact (h.drop hlen).write_disjoint hwrite (.inr (by omega))

/-- A list as a store. Beyond its end nothing is written. -/
def ofList (e : ε) : FlatStore (List α) α ε where
  total := List.length
  item l q := l[q]?
  read l pos amount := .ok ((l.drop pos).take amount)
  write l pos xs :=
    if pos + xs.length ≤ l.length then .ok (l.take pos ++ xs ++ l.drop (pos + xs.length)) else .error e
  read_eq {l pos xs r} hok hle hitem := by
    obtain rfl := Except.ok.inj hok
    apply List.ext_getElem (by simp; omega)
    intro k _ hk
    rw [List.getElem_take, List.getElem_drop]
    exact (List.getElem?_eq_some_iff.mp (hitem k _ (List.getElem?_eq_getElem hk))).2
  total_write hok := by
    split at hok
    · obtain rfl := Except.ok.inj hok
      simp
      omega
    · cases hok
  item_written {l pos xs l'} hok hle k x hx := by
    rw [if_pos hle] at hok
    obtain rfl := Except.ok.inj hok
    have hk := (List.getElem?_eq_some_iff.mp hx).1
    have hpos : (l.take pos).length = pos := List.length_take_of_le (by omega)
    rw [List.append_assoc, List.getElem?_append_right (by omega), hpos, Nat.add_sub_cancel_left,
      List.getElem?_append_left hk, hx]
  item_kept {l pos xs l'} hok q x hx hq := by
    split at hok
    · next hle =>
      obtain rfl := Except.ok.inj hok
      have hpos : (l.take pos).length = pos := List.length_take_of_le (by omega)
      rcases hq with hq | hq
      · rw [List.append_assoc, List.getElem?_append_left (by omega), List.getElem?_take, if_pos hq, hx]
      · rw [List.getElem?_append_right (by simp; omega), List.length_append, hpos, List.getElem?_drop,
          Nat.add_sub_cancel' hq, hx]
    · cases hok

end FlatStore

end Swinst
