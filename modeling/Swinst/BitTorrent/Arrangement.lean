import Mathlib.Algebra.BigOperators.Fin
import Mathlib.Algebra.Order.BigOperators.Group.Finset
import Swinst.BitTorrent.StorageWrapper
import Swinst.Data.Placement

/-! The pieces in the storage while it is filled from the front, and what `allocate` does to them. -/

namespace Swinst.BitTorrent

open Function (update update_self update_of_ne)

variable {σ : Type} {n : Nat} {b : Backing σ} {t : Torrent n}

/-- What `StorageWrapper.__init__` asks of a torrent, and slices that are not empty -/
structure Torrent.Sized (t : Torrent n) : Prop where
  requestSize : 0 < t.requestSize
  notSmall : 0 < n → t.pieceSize * (n - 1) < t.totalLength
  notBig : t.totalLength ≤ t.pieceSize * n

namespace Torrent.Sized

variable (h : t.Sized) {i j : Fin n}

include h

theorem mul_lt (i : Fin n) : t.pieceSize * i < t.totalLength :=
  (Nat.mul_le_mul_left _ (Nat.le_sub_one_of_lt i.isLt)).trans_lt (h.notSmall i.pos)

omit h in
theorem piecelen_last (hi : ¬ i.val + 1 < n) : t.piecelen i = t.totalLength - t.pieceSize * i := by
  rw [piecelen, if_neg hi, Nat.mul_comm]

omit h in
theorem piecelen_of_lt (hi : i.val + 1 < n) : t.piecelen i = t.pieceSize := by
  rw [piecelen, if_pos hi]

theorem piecelen_pos (i : Fin n) : 0 < t.piecelen i := by
  have hlt := h.mul_lt i
  have hbig := h.notBig
  by_cases hi : i.val + 1 < n
  · rw [piecelen_of_lt hi]
    rcases Nat.eq_zero_or_pos t.pieceSize with hzero | hpos
    · rw [hzero, Nat.zero_mul] at hlt hbig
      omega
    · exact hpos
  · rw [piecelen_last hi]
    omega

theorem piecelen_le (i : Fin n) : t.piecelen i ≤ t.pieceSize := by
  by_cases hi : i.val + 1 < n
  · rw [piecelen_of_lt hi]
  · have hmul : t.pieceSize * n = t.pieceSize * i + t.pieceSize := by
      rw [← Nat.mul_succ]
      congr 1
      omega
    have hbig := h.notBig
    rw [piecelen_last hi]
    omega

theorem add_piecelen_le (i : Fin n) : t.pieceSize * i + t.piecelen i ≤ t.totalLength := by
  by_cases hi : i.val + 1 < n
  · have hlt := h.mul_lt ⟨i + 1, hi⟩
    rw [Nat.mul_succ] at hlt
    rw [piecelen_of_lt hi]
    exact hlt.le
  · rw [piecelen_last hi, Nat.add_sub_cancel' (h.mul_lt i).le]

theorem disjoint_of_lt (hij : i < j) : t.pieceSize * i + t.piecelen i ≤ t.pieceSize * j := by
  have hmul : t.pieceSize * (i + 1) ≤ t.pieceSize * j := Nat.mul_le_mul_left _ hij
  rw [Nat.mul_succ] at hmul
  have := h.piecelen_le i
  omega

theorem disjoint (hij : i ≠ j) :
    t.pieceSize * i + t.piecelen i ≤ t.pieceSize * j ∨ t.pieceSize * j + t.piecelen j ≤ t.pieceSize * i := by
  rcases lt_or_gt_of_ne hij with hlt | hlt
  · exact .inl (h.disjoint_of_lt hlt)
  · exact .inr (h.disjoint_of_lt hlt)

/-- Every byte belongs to a piece. -/
theorem exists_piece {q : Nat} (hq : q < t.totalLength) :
    ∃ i : Fin n, t.pieceSize * i ≤ q ∧ q < t.pieceSize * i + t.piecelen i := by
  have hlt : q < t.pieceSize * n := hq.trans_le h.notBig
  have hpos : 0 < t.pieceSize := Nat.pos_of_mul_pos_right (Nat.zero_lt_of_lt hlt)
  refine ⟨⟨q / t.pieceSize, Nat.div_lt_of_lt_mul hlt⟩, Nat.mul_div_le .., ?_⟩
  by_cases hi : q / t.pieceSize + 1 < n
  · rw [piecelen_of_lt hi]
    exact Nat.lt_mul_div_succ q hpos
  · rw [piecelen_last hi]
    have := Nat.mul_div_le q t.pieceSize
    omega

end Torrent.Sized

/-! ## The arrangement -/

/-- The whole place holds data. -/
def Full (b : Backing σ) (t : Torrent n) (s : σ) (p : Fin n) : Prop :=
  ∃ cs : Bytes, cs.length = t.piecelen p ∧ b.At s (t.pieceSize * p) cs

/-- The piece has a place, with these data. -/
def Holds (b : Backing σ) (t : Torrent n) (s : σ) (places : Fin n → Option (Fin n)) (i : Fin n) (bs : Bytes) : Prop :=
  ∃ p, places i = some p ∧ bs.length = t.piecelen i ∧ b.At s (t.pieceSize * p) bs

/-- No two pieces are in one place, and a piece fits into its place, which is filled to the end. -/
structure Arranged (b : Backing σ) (t : Torrent n) (s : σ) (places : Fin n → Option (Fin n)) : Prop where
  total : b.total s = t.totalLength
  placement : Placement places
  fits : ∀ {i p}, places i = some p → t.piecelen i ≤ t.piecelen p
  full : ∀ {i p}, places i = some p → Full b t s p

/-- The holes are the free places, in their order. -/
structure Holes (places : Fin n → Option (Fin n)) (holes : List (Fin n)) : Prop where
  mem_iff : ∀ {q}, q ∈ holes ↔ Free places q
  sorted : holes.Pairwise (· < ·)

variable {s s' : σ} {places places' : Fin n → Option (Fin n)} {holes : List (Fin n)} {i j p q index hole : Fin n}
  {bs bs' : Bytes}

theorem pieceAt_ok (h : StorageWrapper.pieceAt places q = .ok p) : places p = some q := by
  rw [StorageWrapper.pieceAt] at h
  split at h
  · next hfind =>
    obtain rfl := Except.ok.inj h
    simpa using List.find?_some hfind
  · cases h

theorem pieceAt_of_not_free (h : ¬ Free places q) : ∃ p, StorageWrapper.pieceAt places q = .ok p := by
  rw [StorageWrapper.pieceAt]
  split
  · exact ⟨_, rfl⟩
  · next hfind =>
    obtain ⟨i, hi⟩ := exists_of_not_free h
    have := List.find?_eq_none.mp hfind i (List.mem_finRange i)
    simp [hi] at this

theorem catchIOError_ok {α : Type} {x : Except PyError α} {a : α} (h : catchIOError x = .ok a) : x = .ok a := by
  cases x with
  | ok a' => exact congrArg Except.ok (Except.ok.inj h)
  | error e => cases e <;> cases h

theorem Holds.unique (h : Holds b t s places i bs) (h' : Holds b t s places i bs') : bs = bs' := by
  obtain ⟨p, hp, hlen, hat⟩ := h
  obtain ⟨p', hp', hlen', hat'⟩ := h'
  obtain rfl : p = p' := Option.some.inj (hp.symm.trans hp')
  exact hat.unique hat' (hlen.trans hlen'.symm)

/-- A write into the place of another does not reach this one. -/
theorem at_put (ht : t.Sized) {k : Nat} (hat : b.At s (t.pieceSize * p) bs) (hbs : bs.length ≤ t.piecelen p)
    (hput : b.put s (t.pieceSize * q + k) bs' = .ok s') (hbs' : k + bs'.length ≤ t.piecelen q) (hpq : p ≠ q) :
    b.At s' (t.pieceSize * p) bs := by
  refine hat.write_disjoint (catchIOError_ok hput) ?_
  rcases ht.disjoint hpq with h | h
  · exact .inl (by omega)
  · exact .inr (by omega)

theorem Full.put (ht : t.Sized) {k : Nat} (h : Full b t s p) (hput : b.put s (t.pieceSize * q + k) bs = .ok s')
    (hbs : k + bs.length ≤ t.piecelen q) (hpq : p ≠ q) : Full b t s' p := by
  obtain ⟨cs, hlen, hat⟩ := h
  exact ⟨cs, hlen, at_put ht hat hlen.le hput hbs hpq⟩

theorem Holds.put (ht : t.Sized) {k : Nat} (hfits : ∀ {i p}, places i = some p → t.piecelen i ≤ t.piecelen p)
    (h : Holds b t s places j bs) (hput : b.put s (t.pieceSize * q + k) bs' = .ok s')
    (hbs' : k + bs'.length ≤ t.piecelen q) (hq : places j ≠ some q) : Holds b t s' places j bs := by
  obtain ⟨p, hp, hlen, hat⟩ := h
  have hpq : p ≠ q := fun hpq => hq (hpq ▸ hp)
  exact ⟨p, hp, hlen, at_put ht hat (hlen.trans_le (hfits hp)) hput hbs' hpq⟩

namespace Arranged

variable (h : Arranged b t s places)

include h

theorem exists_holds (hi : places i = some p) : ∃ bs, Holds b t s places i bs := by
  obtain ⟨cs, hlen, hat⟩ := h.full hi
  have hfits := h.fits hi
  exact ⟨cs.take (t.piecelen i), p, hi, List.length_take_of_le (hlen ▸ hfits), hat.take _⟩

/-- The last place holds no other piece, unless all have the same length. -/
theorem piecelen_of_displaced (ht : t.Sized) (hi : places i = some p) (hp : i ≠ p) : t.piecelen p = t.pieceSize := by
  by_cases hlt : p.val + 1 < n
  · exact Torrent.Sized.piecelen_of_lt hlt
  · have hilt : i.val + 1 < n := by
      have : i.val ≠ p.val := fun heq => hp (Fin.ext heq)
      omega
    refine Nat.le_antisymm (ht.piecelen_le p) ?_
    rw [← Torrent.Sized.piecelen_of_lt hilt]
    exact h.fits hi

/-- A place that is free is filled. -/
theorem put (ht : t.Sized) (hfree : Free places q) (hput : b.put s (t.pieceSize * q) bs = .ok s')
    (hbs : bs.length = t.piecelen q) : Arranged b t s' places ∧ Full b t s' q ∧
      ∀ {j bs}, Holds b t s places j bs → Holds b t s' places j bs := by
  have hwrite := catchIOError_ok hput
  have hle : t.pieceSize * q + bs.length ≤ b.total s := by
    rw [h.total, hbs]
    exact ht.add_piecelen_le q
  have hput' : b.put s (t.pieceSize * q + 0) bs = .ok s' := hput
  have hbs' : 0 + bs.length ≤ t.piecelen q := by omega
  refine ⟨⟨(b.total_write hwrite).trans h.total, h.placement, h.fits, fun {i p} hi => ?_⟩,
    ⟨bs, hbs, FlatStore.at_write hwrite hle⟩, fun hj => hj.put ht h.fits hput' hbs' (hfree _)⟩
  refine (h.full hi).put ht hput' hbs' ?_
  rintro rfl
  exact hfree i hi

theorem remove (i : Fin n) : Arranged b t s (update places i none) := by
  have hold : ∀ {j p}, update places i none j = some p → places j = some p := by
    intro j p hj
    by_cases hji : j = i
    · subst hji
      rw [update_self] at hj
      cases hj
    · rwa [update_of_ne hji] at hj
  exact ⟨h.total, h.placement.remove i, fun hj => h.fits (hold hj), fun hj => h.full (hold hj)⟩

/-- A piece without a place gets a free one. -/
theorem place (hi : places i = none) (hfree : Free places q) (hq : places q = none) (hown : i = q ∨ Free places i)
    (hfits : t.piecelen i ≤ t.piecelen q) (hfull : Full b t s q) : Arranged b t s (update places i (some q)) := by
  have hcases : ∀ {j p}, update places i (some q) j = some p → j = i ∧ p = q ∨ places j = some p := by
    intro j p hj
    by_cases hji : j = i
    · subst hji
      rw [update_self] at hj
      exact .inl ⟨rfl, (Option.some.inj hj).symm⟩
    · rw [update_of_ne hji] at hj
      exact .inr hj
  refine ⟨h.total, h.placement.put hi hfree hq hown, fun hj => ?_, fun hj => ?_⟩
  · rcases hcases hj with ⟨rfl, rfl⟩ | hj
    · exact hfits
    · exact h.fits hj
  · rcases hcases hj with ⟨rfl, rfl⟩ | hj
    · exact hfull
    · exact h.full hj

/-- A piece is copied from its place to a free one. -/
theorem move (ht : t.Sized) (hi : places i = some p) (hfree : Free places q) (hq : i = q ∨ places q = none)
    (hown : i = q ∨ i = p ∨ Free places i) {m : Nat} (hm : m = t.piecelen q) (him : t.piecelen i ≤ m)
    (hmp : m ≤ t.piecelen p) (hget : b.get s (t.pieceSize * p) m = .ok bs)
    (hput : b.put s (t.pieceSize * q) bs = .ok s') :
    Arranged b t s' (update places i (some q)) ∧ Full b t s' p ∧
      (∀ x, Free (update places i (some q)) x ↔ x = p ∨ x ≠ q ∧ Free places x) ∧
      ∀ {j bs}, Holds b t s places j bs → Holds b t s' (update places i (some q)) j bs := by
  have hpq : p ≠ q := fun hpq => hfree i (hpq ▸ hi)
  obtain ⟨cs, hlen, hat⟩ := h.full hi
  have hbs : bs = cs.take m := by
    refine hat.read_take (catchIOError_ok hget) (hlen ▸ hmp) ?_
    rw [h.total]
    exact (Nat.add_le_add_left hmp _).trans (ht.add_piecelen_le p)
  have hbslen : bs.length = m := by rw [hbs, List.length_take_of_le (hlen ▸ hmp)]
  obtain ⟨h', hfull, hholds⟩ := h.put ht hfree hput (hbslen.trans hm)
  have hfree' : ∀ x, Free (update places i none) x ↔ x = p ∨ Free places x :=
    fun x => h.placement.free_remove hi
  have hnone : update places i none q = none := by
    rcases hq with rfl | hq
    · exact update_self ..
    · by_cases hqi : q = i
      · subst hqi
        exact update_self ..
      · rw [update_of_ne hqi, hq]
  have hplace := (h'.remove i).place (update_self ..) ((hfree' q).mpr (.inr hfree)) hnone
    (hown.imp_right (hfree' i).mpr) (hm ▸ him) hfull
  rw [Function.update_idem] at hplace
  refine ⟨hplace, h'.full hi, fun x => ?_, fun {j cs'} hj => ?_⟩
  · have hput' : Free (update (update places i none) i (some q)) x ↔ x ≠ q ∧ Free (update places i none) x :=
      Placement.free_put (update_self ..)
    rw [Function.update_idem] at hput'
    rw [hput', hfree']
    constructor
    · rintro ⟨hxq, rfl | hx⟩
      · exact .inl rfl
      · exact .inr ⟨hxq, hx⟩
    · rintro (rfl | ⟨hxq, hx⟩)
      · exact ⟨hpq, .inl rfl⟩
      · exact ⟨hxq, .inr hx⟩
  · by_cases hji : j = i
    · subst hji
      obtain ⟨cs₀, hlen₀, hat₀⟩ := hfull
      have hcopy : b.At s' (t.pieceSize * q) bs := by
        refine FlatStore.at_write (catchIOError_ok hput) ?_
        rw [h.total, hbslen, hm]
        exact ht.add_piecelen_le q
      have hfits : t.piecelen j ≤ cs.length := hlen ▸ h.fits hi
      have hcs : cs' = cs.take (t.piecelen j) :=
        hj.unique ⟨p, hi, List.length_take_of_le hfits, hat.take _⟩
      have htake : cs' = bs.take (t.piecelen j) := by
        rw [hcs, hbs, List.take_take, Nat.min_eq_left him]
      refine ⟨q, update_self .., by rw [hcs, List.length_take_of_le hfits], ?_⟩
      rw [htake]
      exact hcopy.take _
    · obtain ⟨r, hr, hcs⟩ := hholds hj
      exact ⟨r, by rw [update_of_ne hji, hr], hcs⟩

end Arranged

/-! ## `allocate` -/

namespace Holes

theorem not_mem_tail (h : Holes places (hole :: holes)) : hole ∉ holes :=
  fun hmem => lt_irrefl _ ((List.pairwise_cons.mp h.sorted).1 hole hmem)

theorem free_head (h : Holes places (hole :: holes)) : Free places hole := h.mem_iff.mp List.mem_cons_self

/-- In front of another hole there is no last place. -/
theorem piecelen_head (h : Holes places (hole :: holes)) (hq : q ∈ holes) : t.piecelen hole = t.pieceSize := by
  refine Torrent.Sized.piecelen_of_lt ?_
  have hlt : hole.val < q.val := (List.pairwise_cons.mp h.sorted).1 q hq
  omega

theorem tail (h : Holes places (hole :: holes)) (hfree : ∀ x, Free places' x ↔ x ≠ hole ∧ Free places x) :
    Holes places' holes := by
  refine ⟨fun {q} => ?_, h.sorted.tail⟩
  rw [hfree, ← h.mem_iff, List.mem_cons]
  constructor
  · intro hq
    refine ⟨?_, .inr hq⟩
    rintro rfl
    exact h.not_mem_tail hq
  · rintro ⟨hne, hq⟩
    exact hq.resolve_left hne

end Holes

/-- What `allocate` comes to: the first hole is taken, the piece has a place, and no data are lost. -/
structure Allocated (b : Backing σ) (t : Torrent n) (s : σ) (places : Fin n → Option (Fin n)) (index hole : Fin n)
    (s' : σ) (places' : Fin n → Option (Fin n)) : Prop where
  arranged : Arranged b t s' places'
  free : ∀ x, Free places' x ↔ x ≠ hole ∧ Free places x
  placed : (places' index).isSome
  holds : ∀ {j bs}, Holds b t s places j bs → Holds b t s' places' j bs

theorem Holds.place (h : Holds b t s places j bs) (hi : places i = none) :
    Holds b t s (update places i (some q)) j bs := by
  obtain ⟨p, hp, hat⟩ := h
  have hji : j ≠ i := by
    rintro rfl
    rw [hi] at hp
    cases hp
  exact ⟨p, by rw [update_of_ne hji, hp], hat⟩

section Allocate

variable (ht : t.Sized) (h : Arranged b t s places) (hholes : Holes places (hole :: holes))
  (hnone : places index = none)

include ht h hholes hnone

/-- The piece of the hole goes home. The new piece gets its place, which is its own one or replaces a hole. -/
theorem allocated_behind {oldpos : Fin n} (hhole : places hole = some oldpos) (hindex : index = oldpos ∨ index ∈ holes)
    (hget : b.get s (t.pieceSize * oldpos) (t.piecelen hole) = .ok bs)
    (hput : b.put s (t.pieceSize * hole) bs = .ok s') :
    Allocated b t s places index hole s' (update (update places hole (some hole)) index (some oldpos)) := by
  have hne : hole ≠ oldpos := fun heq => hholes.free_head hole (heq ▸ hhole)
  have hih : index ≠ hole := by
    rintro rfl
    rw [hnone] at hhole
    cases hhole
  obtain ⟨harranged, hfull, hfree, hholds⟩ :=
    h.move ht hhole hholes.free_head (.inl rfl) (.inl rfl) rfl le_rfl (h.fits hhole) hget hput
  have hindex₁ : update places hole (some hole) index = none := by rw [update_of_ne hih, hnone]
  have hold₁ : update places hole (some hole) oldpos = none := by
    rw [update_of_ne (Ne.symm hne)]
    exact h.placement.unplaced hhole hne
  have hown : index = oldpos ∨ Free (update places hole (some hole)) index := by
    refine hindex.imp_right fun hmem => (hfree index).mpr (.inr ⟨hih, hholes.mem_iff.mp ?_⟩)
    exact List.mem_cons_of_mem _ hmem
  have hfits : t.piecelen index ≤ t.piecelen oldpos := by
    rw [h.piecelen_of_displaced ht hhole hne]
    exact ht.piecelen_le index
  refine ⟨harranged.place hindex₁ ((hfree oldpos).mpr (.inl rfl)) hold₁ hown hfits hfull, fun x => ?_,
    by rw [update_self]; rfl, fun hj => (hholds hj).place hindex₁⟩
  rw [Placement.free_put hindex₁, hfree]
  constructor
  · rintro ⟨hx, hx'⟩
    exact hx'.resolve_left hx
  · rintro ⟨hx, hx'⟩
    refine ⟨?_, .inr ⟨hx, hx'⟩⟩
    rintro rfl
    exact hx' hole hhole

/-- The piece of the hole goes home, the one in the place of the new piece takes its place, and the new piece gets
its own. -/
theorem allocated_swapped {oldpos : Fin n} {s₁ : σ} (hhole : places hole = some oldpos)
    (hindex : ¬ (index = oldpos ∨ index ∈ holes))
    (hget : b.get s (t.pieceSize * oldpos) (t.piecelen hole) = .ok bs)
    (hput : b.put s (t.pieceSize * hole) bs = .ok s₁)
    (hp : update places hole (some hole) p = some index)
    (hget' : b.get s₁ (t.pieceSize * index) t.pieceSize = .ok bs')
    (hput' : b.put s₁ (t.pieceSize * oldpos) bs' = .ok s') :
    Allocated b t s places index hole s'
      (update (update (update places hole (some hole)) index (some index)) p (some oldpos)) := by
  have hne : hole ≠ oldpos := fun heq => hholes.free_head hole (heq ▸ hhole)
  have hih : index ≠ hole := by
    rintro rfl
    rw [hnone] at hhole
    cases hhole
  obtain ⟨harranged, hfull, hfree, hholds⟩ :=
    h.move ht hhole hholes.free_head (.inl rfl) (.inl rfl) rfl le_rfl (h.fits hhole) hget hput
  have hindex₁ : update places hole (some hole) index = none := by rw [update_of_ne hih, hnone]
  have hpi : p ≠ index := by
    rintro rfl
    rw [hindex₁] at hp
    cases hp
  have hold₁ : update places hole (some hole) oldpos = none := by
    rw [update_of_ne (Ne.symm hne)]
    exact h.placement.unplaced hhole hne
  obtain ⟨harranged₂, hfull₂, hfree₂, hholds₂⟩ := harranged.move ht hp ((hfree oldpos).mpr (.inl rfl)) (.inr hold₁)
    (.inr (.inr (harranged.placement.displaced hp hpi))) (h.piecelen_of_displaced ht hhole hne).symm
    (ht.piecelen_le p) (harranged.piecelen_of_displaced ht hp hpi).ge hget' hput'
  have hindex₂ : update (update places hole (some hole)) p (some oldpos) index = none := by
    rw [update_of_ne (Ne.symm hpi), hindex₁]
  have hplace := harranged₂.place hindex₂ ((hfree₂ index).mpr (.inl rfl)) hindex₂ (.inl rfl) le_rfl hfull₂
  rw [Function.update_comm (Ne.symm hpi)]
  refine ⟨hplace, fun x => ?_, by rw [update_self]; rfl, fun hj => (hholds₂ (hholds hj)).place hindex₂⟩
  rw [Placement.free_put hindex₂, hfree₂, hfree]
  constructor
  · rintro ⟨hx, hx'⟩
    obtain ⟨hxo, hx'⟩ := hx'.resolve_left hx
    exact hx'.resolve_left hxo
  · rintro ⟨hx, hx'⟩
    refine ⟨?_, .inr ⟨?_, .inr ⟨hx, hx'⟩⟩⟩
    · rintro rfl
      exact hindex (.inr (List.mem_of_ne_of_mem hih (hholes.mem_iff.mpr hx')))
    · rintro rfl
      exact hx' hole hhole

omit h in
/-- The new piece gets the hole, which has been filled. -/
theorem allocated_filled (hhole : places hole = none) (hindex : index ∈ holes ∨ index = hole)
    (harranged : Arranged b t s' places) (hfull : Full b t s' hole)
    (hholds : ∀ {j bs}, Holds b t s places j bs → Holds b t s' places j bs) :
    Allocated b t s places index hole s' (update places index (some hole)) := by
  have hown : index = hole ∨ Free places index :=
    hindex.symm.imp_right fun hmem => hholes.mem_iff.mp (List.mem_cons_of_mem _ hmem)
  have hfits : t.piecelen index ≤ t.piecelen hole := by
    rcases hindex with hmem | rfl
    · rw [hholes.piecelen_head hmem]
      exact ht.piecelen_le index
    · exact le_rfl
  exact ⟨harranged.place hnone hholes.free_head hhole hown hfits hfull, fun x => Placement.free_put hnone,
    by rw [update_self]; rfl, fun hj => (hholds hj).place hnone⟩

/-- The piece in the place of the new one takes the hole, and the new piece gets its own place. -/
theorem allocated_moved (hhole : places hole = none) (hindex : ¬ (index ∈ holes ∨ index = hole))
    (hp : places p = some index) (hget : b.get s (t.pieceSize * index) (t.piecelen hole) = .ok bs)
    (hput : b.put s (t.pieceSize * hole) bs = .ok s') :
    Allocated b t s places index hole s' (update (update places index (some index)) p (some hole)) := by
  have hpi : p ≠ index := by
    rintro rfl
    rw [hnone] at hp
    cases hp
  have hfreep := h.placement.displaced hp hpi
  have hfits : t.piecelen p ≤ t.piecelen hole := by
    rcases List.mem_cons.mp (hholes.mem_iff.mpr hfreep) with rfl | hmem
    · exact le_rfl
    · rw [hholes.piecelen_head hmem]
      exact ht.piecelen_le p
  have hm : t.piecelen hole ≤ t.piecelen index := by
    rw [h.piecelen_of_displaced ht hp hpi]
    exact ht.piecelen_le hole
  obtain ⟨harranged, hfull, hfree, hholds⟩ :=
    h.move ht hp hholes.free_head (.inr hhole) (.inr (.inr hfreep)) rfl hfits hm hget hput
  have hindex₁ : update places p (some hole) index = none := by rw [update_of_ne (Ne.symm hpi), hnone]
  have hplace := harranged.place hindex₁ ((hfree index).mpr (.inl rfl)) hindex₁ (.inl rfl) le_rfl hfull
  rw [Function.update_comm (Ne.symm hpi)]
  refine ⟨hplace, fun x => ?_, by rw [update_self]; rfl, fun hj => (hholds hj).place hindex₁⟩
  rw [Placement.free_put hindex₁, hfree]
  constructor
  · rintro ⟨hx, hx'⟩
    exact hx'.resolve_left hx
  · rintro ⟨hx, hx'⟩
    refine ⟨?_, .inr ⟨hx, hx'⟩⟩
    rintro rfl
    exact hx' p hp

end Allocate

theorem full_of_waspre (ht : t.Sized) (htotal : b.total s = t.totalLength) (h : waspre b t s q = true) :
    Full b t s q := by
  rw [waspre, Nat.mul_comm] at h
  obtain ⟨cs, hlen, hat⟩ := FlatStore.exists_at _ fun k hlo hhi => b.preallocated h k hlo hhi (by
    rw [htotal]
    exact hhi.trans_le (ht.add_piecelen_le q))
  exact ⟨cs, hlen, hat⟩

theorem allocate_ok {sw sw' : StorageWrapper σ n} (ht : t.Sized) (h : Arranged b t sw.storage sw.places)
    (hholes : Holes sw.places sw.holes) (hnone : sw.places index = none) (hok : sw.allocate b t index = .ok sw') :
    ∃ hole holes s' places', sw.holes = hole :: holes ∧ sw' = { sw with storage := s', places := places', holes } ∧
      Allocated b t sw.storage sw.places index hole s' places' := by
  rw [StorageWrapper.allocate] at hok
  cases hsw : sw.holes with
  | nil => simp [hsw] at hok
  | cons hole holes =>
    rw [hsw] at hholes
    simp only [hsw] at hok
    cases hhole : sw.places hole with
    | some oldpos =>
      simp only [hhole] at hok
      obtain ⟨old, hget, hok⟩ := bind_eq_ok hok
      split at hok
      · cases hok
      obtain ⟨s₁, hput, hok⟩ := bind_eq_ok hok
      split at hok
      · next hindex =>
        exact ⟨hole, holes, s₁, _, rfl, (Except.ok.inj hok).symm,
          allocated_behind ht h hholes hnone hhole hindex hget hput⟩
      · next hindex =>
        obtain ⟨p, hp, hok⟩ := bind_eq_ok hok
        obtain ⟨old', hget', hok⟩ := bind_eq_ok hok
        obtain ⟨s', hput', hok⟩ := bind_eq_ok hok
        exact ⟨hole, holes, s', _, rfl, (Except.ok.inj hok).symm,
          allocated_swapped ht h hholes hnone hhole hindex hget hput (pieceAt_ok hp) hget' hput'⟩
    | none =>
      simp only [hhole] at hok
      split at hok
      · next hindex =>
        obtain ⟨s', hfill, hok⟩ := bind_eq_ok hok
        have hfilled : Arranged b t s' sw.places ∧ Full b t s' hole ∧
            ∀ {j bs}, Holds b t sw.storage sw.places j bs → Holds b t s' sw.places j bs := by
          rw [StorageWrapper.fill] at hfill
          split at hfill
          · next hpre =>
            obtain rfl := Except.ok.inj hfill
            exact ⟨h, full_of_waspre ht h.total hpre, id⟩
          · exact h.put ht hholes.free_head hfill (List.length_replicate ..)
        obtain ⟨harranged, hfull, hholds⟩ := hfilled
        exact ⟨hole, holes, s', _, rfl, (Except.ok.inj hok).symm,
          allocated_filled ht hholes hnone hhole hindex harranged hfull hholds⟩
      · next hindex =>
        obtain ⟨p, hp, hok⟩ := bind_eq_ok hok
        obtain ⟨old, hget, hok⟩ := bind_eq_ok hok
        obtain ⟨s', hput, hok⟩ := bind_eq_ok hok
        exact ⟨hole, holes, s', _, rfl, (Except.ok.inj hok).symm,
          allocated_moved ht h hholes hnone hhole hindex (pieceAt_ok hp) hget hput⟩

end Swinst.BitTorrent
