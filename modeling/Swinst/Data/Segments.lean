import Mathlib.Data.List.Basic
import Mathlib.Data.List.Nodup
import Mathlib.Data.List.TakeWhile
import Mathlib.Logic.Function.Basic

/-! Positions that are cut into ranges, one behind the other, each of which belongs to a list with a name. What
overlaps a stretch of positions is read and written range by range. -/

namespace Swinst

open Function (update update_self update_of_ne)

/-- A range, with its beginning, its end and its name -/
abbrev Segment (α : Type) := Nat × Nat × α

inductive Consecutive {α : Type} : (lo : Nat) → List (Segment α) → (hi : Nat) → Prop
  | nil {lo : Nat} : Consecutive lo [] lo
  | cons {lo mid hi : Nat} {a : α} {rs : List (Segment α)} :
    lo < mid → Consecutive mid rs hi → Consecutive lo ((lo, mid, a) :: rs) hi

variable {α β : Type} {lo mid hi pos stop q : Nat} {a : α} {rs pre : List (Segment α)} {r : Segment α}

namespace Consecutive

theorem le (h : Consecutive lo rs hi) : lo ≤ hi := by
  induction h with
  | nil => exact Nat.le_refl _
  | cons hlt _ ih => omega

theorem mem (h : Consecutive lo rs hi) (hr : r ∈ rs) : lo ≤ r.1 ∧ r.1 < r.2.1 ∧ r.2.1 ≤ hi := by
  induction h with
  | nil => cases hr
  | cons hlt h ih =>
    rcases List.mem_cons.mp hr with rfl | hr
    · exact ⟨Nat.le_refl _, hlt, h.le⟩
    · obtain ⟨hlo, hr, hhi⟩ := ih hr
      exact ⟨by omega, hr, hhi⟩

theorem append {rs' : List (Segment α)} (h : Consecutive lo rs mid) (h' : Consecutive mid rs' hi) :
    Consecutive lo (rs ++ rs') hi := by
  induction h with
  | nil => exact h'
  | cons hlt _ ih => exact .cons hlt (ih h')

/-- The range of a position, behind all others that begin before it -/
theorem split (h : Consecutive lo rs hi) (hlo : lo ≤ pos) (hhi : pos < hi) :
    ∃ pre b e a post, rs = pre ++ (b, e, a) :: post ∧ (rs.countP fun r => r.1 ≤ pos) = pre.length + 1 ∧ b ≤ pos ∧
      pos < e ∧ Consecutive lo pre b ∧ Consecutive b ((b, e, a) :: post) hi := by
  induction h with
  | nil => omega
  | @cons lo mid hi a rs hlt h ih =>
    rcases Nat.lt_or_ge pos mid with hpos | hpos
    · have hcount : (rs.countP fun r => r.1 ≤ pos) = 0 := by
        rw [List.countP_eq_zero]
        intro r hr
        have := (h.mem hr).1
        rw [decide_eq_true_eq]
        omega
      refine ⟨[], lo, mid, a, rs, rfl, ?_, hlo, hpos, .nil, .cons hlt h⟩
      rw [List.countP_cons_of_pos (by simpa using hlo), hcount]
      rfl
    · obtain ⟨pre, b, e, a', post, rfl, hcount, hb, he, hpre, hpost⟩ := ih hpos hhi
      refine ⟨(lo, mid, a) :: pre, b, e, a', post, rfl, ?_, hb, he, .cons hlt hpre, hpost⟩
      rw [List.countP_cons_of_pos (by simpa using hlo), hcount, List.length_cons]

end Consecutive

/-- The item at a position -/
def flat (rs : List (Segment α)) (c : α → List β) (q : Nat) : Option β :=
  (rs.find? fun r => r.1 ≤ q && q < r.2.1).bind fun r => (c r.2.2)[q - r.1]?

variable {c : α → List β}

theorem flat_cons_of_lt (hlo : lo ≤ q) (hq : q < mid) : flat ((lo, mid, a) :: rs) c q = (c a)[q - lo]? := by
  rw [flat, List.find?_cons_of_pos (by simp [hlo, hq])]
  rfl

theorem flat_cons_of_ge (hq : mid ≤ q) : flat ((lo, mid, a) :: rs) c q = flat rs c q := by
  rw [flat, List.find?_cons_of_neg (by simp [Nat.not_lt.mpr hq])]
  rfl

theorem flat_append_of_ge (h : Consecutive lo pre mid) (hq : mid ≤ q) : flat (pre ++ rs) c q = flat rs c q := by
  induction h with
  | nil => rfl
  | cons _ h ih => rw [List.cons_append, flat_cons_of_ge (Nat.le_trans h.le hq), ih hq]

theorem flat_of_lt (h : Consecutive lo rs hi) (hq : q < lo) : flat rs c q = none := by
  rw [flat, List.find?_eq_none.mpr]
  · rfl
  · intro r hr
    have := (h.mem hr).1
    simp
    omega

theorem flat_of_mem (h : Consecutive lo rs hi) (hr : r ∈ rs) (hlo : r.1 ≤ q) (hhi : q < r.2.1) :
    flat rs c q = (c r.2.2)[q - r.1]? := by
  induction h with
  | nil => cases hr
  | cons hlt h ih =>
    rcases List.mem_cons.mp hr with rfl | hr
    · exact flat_cons_of_lt hlo hhi
    · rw [flat_cons_of_ge (Nat.le_trans (h.mem hr).1 hlo), ih hr]

theorem flat_append_of_lt (h : Consecutive mid rs hi) (hq : q < mid) : flat (pre ++ rs) c q = flat pre c q := by
  have hnone : (rs.find? fun r => r.1 ≤ q && q < r.2.1) = none := by
    rw [List.find?_eq_none]
    intro r hr
    have := (h.mem hr).1
    simp
    omega
  rw [flat, flat, List.find?_append, hnone, Option.or_none]

theorem flat_congr {c' : α → List β} (h : ∀ r ∈ rs, c r.2.2 = c' r.2.2) : flat rs c q = flat rs c' q := by
  rw [flat, flat]
  cases hfind : rs.find? fun r => r.1 ≤ q && q < r.2.1 with
  | none => rfl
  | some r =>
    rw [Option.bind_some, Option.bind_some, h r (List.mem_of_find?_eq_some hfind)]

/-- What a stretch of positions has in common with the ranges: names, beginnings and ends within them -/
def overlaps (rs : List (Segment α)) (pos stop : Nat) : List (α × Nat × Nat) :=
  (rs.takeWhile fun r => r.1 < stop).map fun r => (r.2.2, max pos r.1 - r.1, min r.2.1 stop - r.1)

theorem overlaps_cons_of_lt (h : lo < stop) : overlaps ((lo, mid, a) :: rs) pos stop =
    (a, max pos lo - lo, min mid stop - lo) :: overlaps rs pos stop := by
  rw [overlaps, List.takeWhile_cons_of_pos (by simpa using h)]
  rfl

theorem overlaps_of_le (h : Consecutive lo rs hi) (hle : stop ≤ lo) : overlaps rs pos stop = [] := by
  cases h with
  | nil => rfl
  | cons => rw [overlaps, List.takeWhile_cons_of_neg (by simpa using hle)]; rfl

theorem mem_overlaps {x : α × Nat × Nat} (hx : x ∈ overlaps rs pos stop) :
    ∃ r ∈ rs, r.1 < stop ∧ x = (r.2.2, max pos r.1 - r.1, min r.2.1 stop - r.1) := by
  obtain ⟨r, hr, rfl⟩ := List.mem_map.mp hx
  exact ⟨r, (List.takeWhile_prefix _).subset hr, by simpa using List.mem_takeWhile_imp hr, rfl⟩

theorem Consecutive.mem_overlaps (h : Consecutive lo rs hi) (hr : r ∈ rs) (hlt : r.1 < stop) :
    (r.2.2, max pos r.1 - r.1, min r.2.1 stop - r.1) ∈ overlaps rs pos stop := by
  induction h with
  | nil => cases hr
  | @cons lo mid hi a rs hlm h ih =>
    have hlo : lo < stop := Nat.lt_of_le_of_lt ((Consecutive.cons hlm h).mem hr).1 hlt
    rw [overlaps_cons_of_lt hlo]
    rcases List.mem_cons.mp hr with rfl | hr
    · exact List.mem_cons_self
    · exact List.mem_cons_of_mem _ (ih hr)

theorem not_mem_overlaps (ha : a ∉ rs.map fun r => r.2.2) : a ∉ (overlaps rs pos stop).map Prod.fst := by
  intro hmem
  obtain ⟨x, hx, rfl⟩ := List.mem_map.mp hmem
  obtain ⟨r, hr, -, rfl⟩ := mem_overlaps hx
  exact ha (List.mem_map.mpr ⟨r, hr, rfl⟩)

/-! ## Reading -/

def readOverlaps (c : α → List β) (iv : List (α × Nat × Nat)) : List β :=
  iv.flatMap fun x => ((c x.1).drop x.2.1).take (x.2.2 - x.2.1)

/-- What is read, when it is known what there is -/
theorem readOverlaps_eq (h : Consecutive lo rs hi) (hfirst : ∀ r ∈ rs.head?, pos < r.2.1) (hstop : stop ≤ hi)
    {xs : List β} (hlen : xs.length = stop - max pos lo)
    (hxs : ∀ k x, xs[k]? = some x → flat rs c (max pos lo + k) = some x) :
    readOverlaps c (overlaps rs pos stop) = xs := by
  induction h generalizing xs with
  | nil =>
    have hnil : xs.length = 0 := by omega
    rw [List.length_eq_zero_iff.mp hnil]
    rfl
  | @cons lo mid hi a rs hlt h ih =>
    have hpos : pos < mid := hfirst _ rfl
    rcases Nat.lt_or_ge lo stop with hlo | hlo
    · rw [overlaps_cons_of_lt hlo, readOverlaps, List.flatMap_cons]
      dsimp only
      -- the data of this range, and the rest
      have hk : min mid stop - lo - (max pos lo - lo) = min mid stop - max pos lo := by omega
      rw [hk, ← List.take_append_drop (min mid stop - max pos lo) xs]
      congr 1
      · apply List.ext_getElem?
        intro k
        rw [List.getElem?_take, List.getElem?_take, List.getElem?_drop]
        split
        · next hlt' =>
          have hk' : k < xs.length := by omega
          have hx := hxs k _ (List.getElem?_eq_getElem hk')
          rw [flat_cons_of_lt (by omega) (by omega)] at hx
          rw [List.getElem?_eq_getElem hk', ← hx]
          congr 1
          omega
        · rfl
      · have hmax : max pos mid = mid := by omega
        refine ih ?_ hstop ?_ fun k x hx => ?_
        · intro r hr
          have := h.mem (List.mem_of_mem_head? hr)
          omega
        · rw [List.length_drop]
          omega
        · rw [List.getElem?_drop] at hx
          have hk' := (List.getElem?_eq_some_iff.mp hx).1
          have hx' := hxs _ x hx
          rw [flat_cons_of_ge (by omega)] at hx'
          rw [← hx', hmax]
          congr 1
          omega
    · have hnil : xs.length = 0 := by omega
      rw [overlaps_of_le (.cons hlt h) hlo, List.length_eq_zero_iff.mp hnil]
      rfl

/-- All lists, one behind the other -/
theorem flatMap_eq (h : Consecutive lo rs hi) (hc : ∀ r ∈ rs, (c r.2.2).length = r.2.1 - r.1) {xs : List β}
    (hlen : xs.length = hi - lo) (hxs : ∀ k x, xs[k]? = some x → flat rs c (lo + k) = some x) :
    (rs.flatMap fun r => c r.2.2) = xs := by
  have hfirst : ∀ r ∈ rs.head?, lo < r.2.1 := fun r hr => by
    have := h.mem (List.mem_of_mem_head? hr)
    omega
  have hall : (rs.takeWhile fun r => r.1 < hi) = rs := by
    rw [List.takeWhile_eq_self_iff]
    intro r hr
    have := h.mem hr
    simp
    omega
  have hread : readOverlaps c (overlaps rs lo hi) = xs :=
    readOverlaps_eq h hfirst (Nat.le_refl hi) (by rw [hlen, Nat.max_self]) (by rwa [Nat.max_self])
  rw [← hread, readOverlaps, overlaps, hall, List.flatMap_map]
  refine List.flatMap_congr fun r hr => ?_
  have hr' := h.mem hr
  have hlo : max lo r.1 - r.1 = 0 := by omega
  have hmin : min r.2.1 hi - r.1 = r.2.1 - r.1 := by omega
  dsimp only
  rw [hlo, hmin, List.drop_zero, Nat.sub_zero, ← hc r hr, List.take_length]

/-! ## Writing -/

/-- A write into a list, which is filled up to its position -/
def patch (fill : β) (xs : List β) (pos : Nat) (data : List β) : List β :=
  if data.isEmpty then xs
  else xs.take pos ++ List.replicate (pos - xs.length) fill ++ data ++ xs.drop (pos + data.length)

variable {fill : β} {xs data : List β}

theorem getElem?_patch_of_mem {k : Nat} (hlo : pos ≤ k) (hhi : k < pos + data.length) :
    (patch fill xs pos data)[k]? = data[k - pos]? := by
  have hne : ¬ data.isEmpty = true := by
    rw [List.isEmpty_iff_length_eq_zero]
    omega
  have hlen : (xs.take pos ++ List.replicate (pos - xs.length) fill).length = pos := by
    rw [List.length_append, List.length_take, List.length_replicate]
    omega
  rw [patch, if_neg hne, List.getElem?_append_left (by rw [List.length_append, hlen]; exact hhi),
    List.getElem?_append_right (by omega), hlen]

theorem getElem?_patch_of_not_mem {k : Nat} {x : β} (hx : xs[k]? = some x) (hk : k < pos ∨ pos + data.length ≤ k) :
    (patch fill xs pos data)[k]? = some x := by
  have hlt := (List.getElem?_eq_some_iff.mp hx).1
  rw [patch]
  split
  · exact hx
  · rcases hk with hk | hk
    · rw [List.append_assoc, List.append_assoc, List.getElem?_append_left (by rw [List.length_take]; omega),
        List.getElem?_take_of_lt hk, hx]
    · have hlen : (xs.take pos ++ List.replicate (pos - xs.length) fill ++ data).length = pos + data.length := by
        rw [List.length_append, List.length_append, List.length_take, List.length_replicate]
        omega
      rw [List.getElem?_append_right (by omega), hlen, List.getElem?_drop, Nat.add_sub_cancel' hk, hx]

theorem length_patch (fill : β) (xs : List β) (pos : Nat) (data : List β) :
    xs.length ≤ (patch fill xs pos data).length ∧
      (patch fill xs pos data).length ≤ max xs.length (pos + data.length) := by
  rw [patch]
  split
  · omega
  · simp only [List.length_append, List.length_take, List.length_replicate, List.length_drop]
    omega

variable [DecidableEq α]

/-- Everything that overlaps is written, beginning with the item `done` of the data. -/
def writeOverlaps (fill : β) (data : List β) : List (α × Nat × Nat) → (done : Nat) → (α → List β) → α → List β
  | [], _, c => c
  | (a, b, e) :: iv, done, c =>
    writeOverlaps fill data iv (done + (e - b)) (update c a (patch fill (c a) b ((data.drop done).take (e - b))))

theorem writeOverlaps_frame {iv : List (α × Nat × Nat)} {done : Nat} (ha : a ∉ iv.map Prod.fst) :
    writeOverlaps fill data iv done c a = c a := by
  induction iv generalizing done c with
  | nil => rfl
  | cons x iv ih =>
    obtain ⟨a', b, e⟩ := x
    rw [List.map_cons, List.mem_cons, not_or] at ha
    rw [writeOverlaps, ih ha.2, update_of_ne ha.1]

/-- The data are there after they were written, and the other items as before. -/
theorem flat_writeOverlaps (fill : β) (h : Consecutive lo rs hi) (hnodup : (rs.map fun r => r.2.2).Nodup)
    (hfirst : ∀ r ∈ rs.head?, pos < r.2.1) (hstop : stop = pos + data.length) (hhi : stop ≤ hi) (done : Nat)
    (hdone : lo < stop → done = max pos lo - pos) :
    (∀ q, max pos lo ≤ q → q < stop →
      flat rs (writeOverlaps fill data (overlaps rs pos stop) done c) q = data[q - pos]?) ∧
      ∀ q x, flat rs c q = some x → q < max pos lo ∨ stop ≤ q →
        flat rs (writeOverlaps fill data (overlaps rs pos stop) done c) q = some x := by
  induction h generalizing c done with
  | nil => exact ⟨fun q hlo hq => by omega, fun q x hx => by cases hx⟩
  | @cons lo mid hi a rs hlt h ih =>
    have hpos : pos < mid := hfirst _ rfl
    rw [List.map_cons, List.nodup_cons] at hnodup
    rcases Nat.lt_or_ge lo stop with hlo | hlo
    · have hdone' := hdone hlo
      rw [overlaps_cons_of_lt hlo, writeOverlaps]
      have hk : min mid stop - lo - (max pos lo - lo) = min mid stop - max pos lo := by omega
      rw [hk]
      generalize hchunk : (data.drop done).take (min mid stop - max pos lo) = chunk
      have hlen : chunk.length = min mid stop - max pos lo := by
        rw [← hchunk, List.length_take, List.length_drop]
        omega
      obtain ⟨hwritten, hkept⟩ := ih (c := update c a (patch fill (c a) (max pos lo - lo) chunk)) hnodup.2
        (fun r hr => by have := h.mem (List.mem_of_mem_head? hr); omega) hhi (done + (min mid stop - max pos lo)) (by omega)
      -- the file of this range is not written again
      have hself : ∀ q, lo ≤ q → q < mid → flat ((lo, mid, a) :: rs) (writeOverlaps fill data (overlaps rs pos stop)
          (done + (min mid stop - max pos lo)) (update c a (patch fill (c a) (max pos lo - lo) chunk))) q =
          (patch fill (c a) (max pos lo - lo) chunk)[q - lo]? := by
        intro q hq hqm
        rw [flat_cons_of_lt hq hqm, writeOverlaps_frame (not_mem_overlaps hnodup.1), update_self]
      constructor
      · intro q hq hqs
        rcases Nat.lt_or_ge q mid with hqm | hqm
        · rw [hself q (by omega) hqm, getElem?_patch_of_mem (by omega) (by omega), ← hchunk,
            List.getElem?_take_of_lt (by omega), List.getElem?_drop]
          congr 1
          omega
        · rw [flat_cons_of_ge hqm]
          exact hwritten q (by omega) hqs
      · intro q x hx hq
        rcases Nat.lt_or_ge q mid with hqm | hqm
        · rcases Nat.lt_or_ge q lo with hql | hql
          · rw [flat_of_lt (.cons hlt h) hql] at hx
            cases hx
          · rw [flat_cons_of_lt hql hqm] at hx
            rw [hself q hql hqm]
            exact getElem?_patch_of_not_mem hx (by omega)
        · rw [flat_cons_of_ge hqm] at hx ⊢
          refine hkept q x ?_ (by omega)
          rw [← hx]
          refine flat_congr fun r hr => update_of_ne ?_ ..
          rintro rfl
          exact hnodup.1 (List.mem_map.mpr ⟨r, hr, rfl⟩)
    · rw [overlaps_of_le (.cons hlt h) hlo]
      exact ⟨fun q _ _ => by omega, fun q x hx _ => hx⟩

/-- A list does not get shorter, nor longer than its range. -/
theorem length_writeOverlaps (h : Consecutive lo rs hi) (hnodup : (rs.map fun r => r.2.2).Nodup)
    (hfirst : ∀ r ∈ rs.head?, pos < r.2.1) (done : Nat) {r : Segment α} (hr : r ∈ rs)
    (hc : (c r.2.2).length ≤ r.2.1 - r.1) :
    (c r.2.2).length ≤ (writeOverlaps fill data (overlaps rs pos stop) done c r.2.2).length ∧
      (writeOverlaps fill data (overlaps rs pos stop) done c r.2.2).length ≤ r.2.1 - r.1 := by
  induction h generalizing c done with
  | nil => cases hr
  | @cons lo mid hi a rs hlt h ih =>
    have hpos : pos < mid := hfirst _ rfl
    rw [List.map_cons, List.nodup_cons] at hnodup
    rcases Nat.lt_or_ge lo stop with hlo | hlo
    · rw [overlaps_cons_of_lt hlo, writeOverlaps]
      rcases List.mem_cons.mp hr with rfl | hr'
      · rw [writeOverlaps_frame (not_mem_overlaps hnodup.1), update_self]
        have hpatch := length_patch fill (c a) (max pos lo - lo)
          ((data.drop done).take (min mid stop - lo - (max pos lo - lo)))
        rw [List.length_take] at hpatch
        dsimp only at hc ⊢
        omega
      · have hne : r.2.2 ≠ a := by
          rintro rfl
          exact hnodup.1 (List.mem_map.mpr ⟨_, hr', rfl⟩)
        rw [← update_of_ne hne (patch fill (c a) (max pos lo - lo)
          ((data.drop done).take (min mid stop - lo - (max pos lo - lo)))) c] at hc
        have hih := ih hnodup.2 (fun r hr => by have := h.mem (List.mem_of_mem_head? hr); omega)
          (done + (min mid stop - lo - (max pos lo - lo))) hr' hc
        rwa [update_of_ne hne] at hih
    · rw [overlaps_of_le (.cons hlt h) hlo]
      exact ⟨Nat.le_refl _, hc⟩

end Swinst
