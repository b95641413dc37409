import Swinst.BitTorrent.StorageWrapper
import Swinst.BitTorrent.Arrangement
import Swinst.Data.Tiling

/-! The blocks of a piece: each is not yet requested, or on its way, or it has come in. -/

namespace Swinst.BitTorrent

open Function (update update_self update_of_ne)

variable {σ : Type} {n : Nat} {t : Torrent n}

/-- A block of a piece, with its beginning and its length -/
abbrev Request (n : Nat) := Fin n × Nat × Nat

namespace StorageWrapper

theorem blocksFrom_tiling {r length fuel x : Nat} (hr : 0 < r) (hx : x < length) (hfuel : length ≤ x + fuel) :
    Tiling x length (blocksFrom r length fuel x) := by
  induction fuel generalizing x with
  | zero => omega
  | succ fuel ih =>
    rw [blocksFrom]
    split
    · next hlt => exact .cons hr (ih hlt (by omega))
    · exact .last hx

theorem blocks_tiling (ht : t.Sized) (i : Fin n) : Tiling 0 (t.piecelen i) (blocks t i) := by
  have hlength : min t.pieceSize (t.totalLength - t.pieceSize * i) = t.piecelen i := by
    have hle := ht.piecelen_le i
    have hadd := ht.add_piecelen_le i
    by_cases hi : i.val + 1 < n
    · rw [Torrent.Sized.piecelen_of_lt hi] at hadd ⊢
      omega
    · rw [Torrent.Sized.piecelen_last hi] at hle ⊢
      omega
  rw [blocks, hlength]
  exact blocksFrom_tiling ht.requestSize (ht.piecelen_pos i) (Nat.le_add_left ..)

theorem minimum_mem (r : Nat × Nat) (rs : List (Nat × Nat)) : minimum r rs ∈ r :: rs := by
  induction rs generalizing r with
  | nil => exact List.mem_singleton_self r
  | cons r' rs ih =>
    have hstep : minimum r (r' :: rs) = minimum (if less r' r then r' else r) rs := rfl
    rw [hstep]
    have hmem := ih (if less r' r then r' else r)
    rcases List.mem_cons.mp hmem with heq | hmem
    · rw [heq]
      split <;> simp
    · exact List.mem_cons_of_mem _ (List.mem_cons_of_mem _ hmem)

end StorageWrapper

/-- What is on its way of a piece -/
def inflight (fl : List (Request n)) (i : Fin n) : List (Nat × Nat) :=
  fl.filterMap fun r => if r.1 = i then some r.2 else none

@[simp] theorem inflight_cons_self (fl : List (Request n)) (i : Fin n) (r : Nat × Nat) :
    inflight ((i, r) :: fl) i = r :: inflight fl i := by simp [inflight]

theorem inflight_cons_of_ne {i j : Fin n} (h : j ≠ i) (fl : List (Request n)) (r : Nat × Nat) :
    inflight ((j, r) :: fl) i = inflight fl i := by simp [inflight, h]

theorem inflight_perm {fl fl' : List (Request n)} (h : fl.Perm fl') (i : Fin n) :
    (inflight fl i).Perm (inflight fl' i) := h.filterMap _

theorem mem_inflight {fl : List (Request n)} {i : Fin n} {r : Nat × Nat} : r ∈ inflight fl i ↔ (i, r) ∈ fl := by
  rw [inflight, List.mem_filterMap]
  constructor
  · rintro ⟨⟨j, r'⟩, hmem, h⟩
    obtain ⟨hji, hr⟩ := Option.ite_none_right_eq_some.mp h
    rwa [← hji, ← Option.some.inj hr]
  · intro h
    exact ⟨(i, r), h, if_pos rfl⟩

/-- The blocks of a piece that are to be requested, and those on their way, are different blocks. -/
inductive Accounted (bs : List (Nat × Nat)) : Requests → Int → List (Nat × Nat) → Prop
  | unmade : Accounted bs .unmade 0 []
  | none : Accounted bs .none 0 []
  | list {rs fl : List (Nat × Nat)} : rs ++ fl ≠ [] → (rs ++ fl).Subperm bs → Accounted bs (.list rs) fl.length fl

/-- The bytes of a piece that have not been requested -/
def inactiveAmount (t : Torrent n) (i : Fin n) : Requests → Int
  | .unmade => t.piecelen i
  | .none => 0
  | .list rs => ((rs.map Prod.snd).sum : Nat)

namespace Accounted

variable {bs rs fl fl' : List (Nat × Nat)} {requests : Requests} {numactive : Int} {r : Nat × Nat}

theorem perm (h : Accounted bs requests numactive fl) (hperm : fl.Perm fl') : Accounted bs requests numactive fl' := by
  cases h with
  | unmade =>
    obtain rfl := hperm.nil_eq
    exact .unmade
  | none =>
    obtain rfl := hperm.nil_eq
    exact .none
  | list hne hsub =>
    rw [hperm.length_eq]
    refine .list (fun hnil => hne ?_) ((hperm.append_left _).symm.subperm.trans hsub)
    obtain ⟨rfl, rfl⟩ := List.append_eq_nil_iff.mp hnil
    rw [hperm.eq_nil]
    rfl

/-- What is on its way belongs to a list. -/
theorem exists_list (h : Accounted bs requests numactive (r :: fl)) : ∃ rs, requests = .list rs ∧
    numactive = (r :: fl).length ∧ (rs ++ r :: fl).Subperm bs := by
  cases h with
  | list hne hsub => exact ⟨_, rfl, rfl, hsub⟩

theorem mem_blocks (h : Accounted bs (.list rs) numactive fl) (hr : r ∈ rs ++ fl) : r ∈ bs := by
  cases h with
  | list _ hsub => exact hsub.subset hr

theorem eq_nil_of_unmade (h : Accounted bs .unmade numactive fl) : fl = [] := by
  cases h with
  | unmade => rfl

theorem ne_nil (h : Accounted bs (.list rs) numactive fl) : rs ++ fl ≠ [] := by
  cases h with
  | list hne => exact hne

theorem nodup (h : Accounted bs (.list rs) numactive fl) (hbs : bs.Nodup) : (rs ++ fl).Nodup := by
  cases h with
  | list _ hsub =>
    obtain ⟨l, hperm, hsub⟩ := hsub
    exact hperm.nodup_iff.mp (hbs.sublist hsub)

theorem nodup_inflight (h : Accounted bs requests numactive fl) (hbs : bs.Nodup) : fl.Nodup := by
  cases requests with
  | unmade => exact h.eq_nil_of_unmade ▸ .nil
  | none =>
    cases h with
    | none => exact .nil
  | list rs => exact (List.nodup_append.mp (h.nodup hbs)).2.1

theorem numactive_eq (h : Accounted bs requests numactive fl) : numactive = fl.length := by
  cases h with
  | unmade => rfl
  | none => rfl
  | list => rfl

theorem request (h : Accounted bs (.list rs) numactive fl) (hr : r ∈ rs) :
    Accounted bs (.list (rs.erase r)) (numactive + 1) (r :: fl) := by
  cases h with
  | list hne hsub =>
    have hperm : (rs.erase r ++ r :: fl).Perm (rs ++ fl) :=
      List.perm_middle.trans ((List.perm_cons_erase hr).symm.append_right fl)
    exact .list (by simp) (hperm.subperm.trans hsub)

theorem lose (h : Accounted bs (.list rs) numactive (r :: fl)) : Accounted bs (.list (rs ++ [r])) (numactive - 1) fl := by
  obtain ⟨rs', hrs, hnum, hsub⟩ := h.exists_list
  obtain rfl := Requests.list.inj hrs
  have hnum' : numactive - 1 = fl.length := by
    rw [hnum, List.length_cons]
    omega
  rw [hnum']
  refine .list (by simp) ?_
  rwa [List.append_assoc, List.singleton_append]

/-- A block comes in, and others are missing. -/
theorem arrive (h : Accounted bs (.list rs) numactive (r :: fl)) (hne : rs ≠ [] ∨ fl ≠ []) :
    Accounted bs (.list rs) (numactive - 1) fl := by
  obtain ⟨rs', hrs, hnum, hsub⟩ := h.exists_list
  obtain rfl := Requests.list.inj hrs
  have hnum' : numactive - 1 = fl.length := by
    rw [hnum, List.length_cons]
    omega
  rw [hnum']
  refine .list (fun hnil => ?_) (List.Subperm.trans ?_ hsub)
  · obtain ⟨hrs, hfl⟩ := List.append_eq_nil_iff.mp hnil
    rcases hne with hne | hne
    · exact hne hrs
    · exact hne hfl
  · exact ((List.Sublist.refl _).append (List.sublist_cons_self r fl)).subperm

end Accounted

end Swinst.BitTorrent
