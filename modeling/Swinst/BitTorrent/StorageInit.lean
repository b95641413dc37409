import Swinst.BitTorrent.StorageRuns

/-! `StorageWrapper.__init__` looks at what a former run has left in the storage. -/

namespace Swinst.BitTorrent

open Function (update update_self update_of_ne)
open StorageWrapper

variable {σ : Type} {n : Nat} {b : Backing σ} {t : Torrent n}

theorem Torrent.Sized.sum_piecelen (ht : t.Sized) : ∑ i, (t.piecelen i : Int) = t.totalLength := by
  cases n with
  | zero =>
    have hzero := ht.notBig
    rw [Nat.mul_zero, Nat.le_zero] at hzero
    rw [hzero]
    rfl
  | succ m =>
    have hlast : ¬ (Fin.last m).val + 1 < m + 1 := by simp
    have hpos := ht.mul_lt (Fin.last m)
    have hinit : ∀ i : Fin m, (t.piecelen i.castSucc : Int) = t.pieceSize := fun i => by
      rw [Torrent.Sized.piecelen_of_lt (by simp)]
    rw [Fin.sum_univ_castSucc, Torrent.Sized.piecelen_last hlast, Finset.sum_congr rfl fun i _ => hinit i,
      Finset.sum_const, Finset.card_univ, Fintype.card_fin, Fin.val_last]
    rw [Fin.val_last] at hpos
    push_cast [Nat.cast_sub hpos.le]
    rw [nsmul_eq_mul, mul_comm]
    omega

/-- The places after the pieces `done` have been looked at. What was preallocated is used. -/
structure Placed (b : Backing σ) (t : Torrent n) (s : σ) (done : List (Fin n)) (places : Fin n → Option (Fin n)) :
    Prop where
  arranged : Arranged b t s places
  free_iff : ∀ {p}, Free places p ↔ p ∉ done ∨ waspre b t s p = false
  home : ∀ {j p}, places j = some p → waspre b t s j = true → p = j

/-- What is known of the pieces that have been found -/
structure Marked (b : Backing σ) (t : Torrent n) (checkHashes : Bool) (sw : StorageWrapper σ n) : Prop where
  requests : ∀ j, sw.inactiveRequests j = bif sw.have_ j then .none else .unmade
  numactive : ∀ j, sw.numactive j = 0
  waschecked : ∀ j, sw.waschecked j = checkHashes
  verified : ∀ j, sw.have_ j = true →
    ∃ bs, Holds b t sw.storage sw.places j bs ∧ (checkHashes = true → t.sha bs = t.hashes j)
  got : ∀ {j}, waspre b t sw.storage j = false → sw.places j ≠ none → sw.have_ j = true
  amountLeft : sw.amountLeft = missing t sw.have_
  amountInactive : sw.amountInactive = inactive t sw.inactiveRequests
  endgame : sw.endgame = false

/-- The pieces in `targets` have not been found. The last one may have been, but then no other place has its length. -/
structure Waiting (b : Backing σ) (t : Torrent n) (s : σ) (last : Fin n) (ts : Targets n)
    (places : Fin n → Option (Fin n)) : Prop where
  mem : ∀ {h j}, j ∈ ts h → waspre b t s j = false ∧ t.hashes j = h ∧
    (places j = none ∨ j = last ∧ t.piecelen last < t.pieceSize)
  nodup : ∀ h, (ts h).Nodup
  last : t.piecelen last = t.pieceSize → waspre b t s last = false → places last = none →
    (ts (t.hashes last)).getLast? = some last

variable {s : σ} {done : List (Fin n)} {places : Fin n → Option (Fin n)} {i j p last : Fin n} {ts ts' : Targets n}
  {sw sw' : StorageWrapper σ n} {checkHashes : Bool} {bs : Bytes}

namespace Placed

variable (h : Placed b t s done places)

include h

theorem none_of_pre (hi : i ∉ done) (hpre : waspre b t s i = true) : places i = none := by
  cases hp : places i with
  | none => rfl
  | some p =>
    obtain rfl := h.home hp hpre
    exact (not_free hp (h.free_iff.mpr (.inl hi))).elim

theorem skip (hpre : waspre b t s i = false) : Placed b t s (done ++ [i]) places := by
  refine ⟨h.arranged, fun {p} => ?_, h.home⟩
  rw [h.free_iff, List.mem_append, List.mem_singleton, not_or]
  constructor
  · rintro (hp | hp)
    · by_cases hpi : p = i
      · exact .inr (hpi ▸ hpre)
      · exact .inl ⟨hp, hpi⟩
    · exact .inr hp
  · exact Or.imp_left And.left

theorem put (ht : t.Sized) (hi : i ∉ done) (hpre : waspre b t s i = true) (hj : j = i ∨ waspre b t s j = false ∧ places j = none)
    (hfits : t.piecelen j ≤ t.piecelen i) : places j = none ∧ Placed b t s (done ++ [i]) (update places j (some i)) := by
  have hinone := h.none_of_pre hi hpre
  have hjnone : places j = none := by
    rcases hj with rfl | hj
    · exact hinone
    · exact hj.2
  refine ⟨hjnone, ?_, fun {p} => ?_, fun {k p} hk hkpre => ?_⟩
  · refine h.arranged.place hjnone (h.free_iff.mpr (.inl hi)) hinone ?_ hfits (full_of_waspre ht h.arranged.total hpre)
    exact hj.imp_right fun hj => h.free_iff.mpr (.inr hj.1)
  · rw [Placement.free_put hjnone, h.free_iff, List.mem_append, List.mem_singleton, not_or]
    constructor
    · rintro ⟨hpi, hp | hp⟩
      · exact .inl ⟨hp, hpi⟩
      · exact .inr hp
    · rintro (⟨hp, hpi⟩ | hp)
      · exact ⟨hpi, .inl hp⟩
      · refine ⟨?_, .inr hp⟩
        rintro rfl
        rw [hpre] at hp
        cases hp
  · by_cases hkj : k = j
    · subst hkj
      rw [update_self] at hk
      obtain rfl := Option.some.inj hk
      rcases hj with rfl | hj
      · rfl
      · rw [hj.1] at hkpre
        cases hkpre
    · rw [update_of_ne hkj] at hk
      exact h.home hk hkpre

end Placed

theorem Marked.markgot (h : Marked b t checkHashes sw) (hj : sw.have_ j = false) (hnone : sw.places j = none)
    (hholds : Holds b t sw.storage (update sw.places j (some i)) j bs)
    (hsha : checkHashes = true → t.sha bs = t.hashes j) : Marked b t checkHashes (markgot t checkHashes j i sw) where
  requests k := by
    simp only [StorageWrapper.markgot]
    by_cases hkj : k = j
    · subst hkj
      rw [update_self, update_self, cond_true]
    · rw [update_of_ne hkj, update_of_ne hkj, h.requests]
  numactive := h.numactive
  waschecked k := by
    simp only [StorageWrapper.markgot]
    by_cases hkj : k = j
    · subst hkj
      exact update_self ..
    · rw [update_of_ne hkj, h.waschecked]
  verified k hk := by
    by_cases hkj : k = j
    · subst hkj
      exact ⟨bs, hholds, hsha⟩
    · have hk' : update sw.have_ j true k = true := hk
      rw [update_of_ne hkj] at hk'
      obtain ⟨cs, hcs, hsha'⟩ := h.verified k hk'
      exact ⟨cs, hcs.place hnone, hsha'⟩
  got {k} hpre hk := by
    simp only [StorageWrapper.markgot] at hk ⊢
    by_cases hkj : k = j
    · subst hkj
      exact update_self ..
    · rw [update_of_ne hkj] at hk ⊢
      exact h.got hpre hk
  amountLeft := by
    simp only [StorageWrapper.markgot]
    rw [missing_update hj, h.amountLeft]
  amountInactive := by
    simp only [StorageWrapper.markgot]
    rw [inactive_update, h.requests, hj, cond_false, h.amountInactive, inactiveAmount, inactiveAmount, add_zero]
  endgame := h.endgame

/-- Data that are not a piece stay where they are. -/
theorem Marked.keep (h : Marked b t checkHashes sw) (hpre : waspre b t sw.storage i = true) (hnone : sw.places i = none) :
    Marked b t checkHashes { sw with places := update sw.places i (some i) } :=
  { h with
    verified := fun k hk => by
      obtain ⟨cs, hcs, hsha⟩ := h.verified k hk
      exact ⟨cs, hcs.place hnone, hsha⟩
    got := fun {k} hkpre hk => by
      have hki : k ≠ i := by
        rintro rfl
        rw [hpre] at hkpre
        cases hkpre
      have hk' : update sw.places i (some i) k ≠ none := hk
      rw [update_of_ne hki] at hk'
      exact h.got hkpre hk' }

namespace Waiting

variable (h : Waiting b t s last ts places)

include h

/-- A place gets a piece that was not waited for. -/
theorem put (hpre : waspre b t s j = true) : Waiting b t s last ts (update places j p) := by
  have hne : ∀ {k}, waspre b t s k = false → k ≠ j := by
    rintro k hk rfl
    rw [hpre] at hk
    cases hk
  refine ⟨fun {h' k} hk => ?_, h.nodup, fun hlen hlast hnone => ?_⟩
  · obtain ⟨hkpre, hhash, hk⟩ := h.mem hk
    rw [update_of_ne (hne hkpre)]
    exact ⟨hkpre, hhash, hk⟩
  · rw [update_of_ne (hne hlast)] at hnone
    exact h.last hlen hlast hnone

/-- The last piece was found without `targets`. -/
theorem put_last (hlen : t.piecelen last < t.pieceSize) : Waiting b t s last ts (update places last p) := by
  refine ⟨fun {h' k} hk => ?_, h.nodup, fun hlen' => absurd hlen' hlen.ne⟩
  obtain ⟨hkpre, hhash, hk⟩ := h.mem hk
  refine ⟨hkpre, hhash, ?_⟩
  by_cases hkl : k = last
  · exact .inr ⟨hkl, hlen⟩
  · rw [update_of_ne hkl]
    exact hk

/-- The piece at the end of a list of `targets` was found. -/
theorem pop {digest : Bytes} (hj : (ts digest).getLast? = some j) :
    Waiting b t s last (update ts digest (ts digest).dropLast) (update places j (some i)) := by
  obtain ⟨js, hjs⟩ := List.getLast?_eq_some_iff.mp hj
  have hnodup := hjs ▸ h.nodup digest
  have hnotin : j ∉ js := fun hmem => List.disjoint_of_nodup_append hnodup hmem List.mem_cons_self
  have hhash : t.hashes j = digest := (h.mem (List.mem_of_getLast? hj)).2.1
  have hpopped : (ts digest).dropLast = js := by rw [hjs, List.dropLast_concat]
  rw [hpopped]
  refine ⟨fun {h' k} hk => ?_, fun h' => ?_, fun hlen hlast hnone => ?_⟩
  · have hk' : k ≠ j ∧ k ∈ ts h' := by
      by_cases hh : h' = digest
      · subst hh
        rw [update_self] at hk
        refine ⟨?_, hjs ▸ List.mem_append_left _ hk⟩
        rintro rfl
        exact hnotin hk
      · rw [update_of_ne hh] at hk
        refine ⟨?_, hk⟩
        rintro rfl
        exact hh ((h.mem hk).2.1.symm.trans hhash)
    rw [update_of_ne hk'.1]
    exact h.mem hk'.2
  · by_cases hh : h' = digest
    · subst hh
      rw [update_self]
      exact (List.nodup_append.mp hnodup).1
    · rw [update_of_ne hh]
      exact h.nodup h'
  · have hlj : last ≠ j := by
      rintro rfl
      rw [update_self] at hnone
      cases hnone
    rw [update_of_ne hlj] at hnone
    have hwaits := h.last hlen hlast hnone
    rw [update_of_ne]
    · exact hwaits
    · rintro rfl
      exact hlj (Option.some.inj (hwaits.symm.trans hj))

end Waiting

/-! ## The loop -/

structure Checked (b : Backing σ) (t : Torrent n) (checkHashes : Bool) (s : σ) (last : Fin n) (done : List (Fin n))
    (ts : Targets n) (sw : StorageWrapper σ n) : Prop where
  storage : sw.storage = s
  placed : Placed b t sw.storage done sw.places
  marked : Marked b t checkHashes sw
  waiting : Waiting b t sw.storage last ts sw.places
  holes : sw.holes = done.filter fun i => !waspre b t sw.storage i

theorem Torrent.Sized.piecelen_of_ne_last (hlast : last.val + 1 = n) (hne : i ≠ last) :
    t.piecelen i = t.pieceSize := by
  refine piecelen_of_lt ?_
  have hil : i.val ≠ last.val := fun heq => hne (Fin.ext heq)
  omega

theorem filter_concat {f : Fin n → Bool} (hi : f i = false) : (done ++ [i]).filter f = done.filter f := by
  rw [List.filter_append, List.filter_cons_of_neg (by simp [hi]), List.filter_nil, List.append_nil]

section Turn

variable (h : Checked b t checkHashes s last done ts sw) (hi : i ∉ done) (hpre : waspre b t sw.storage i = true)

include h hi hpre

/-- A piece is found in the place. -/
theorem Checked.found (ht : t.Sized) (hj : j = i ∨ waspre b t sw.storage j = false ∧ sw.places j = none)
    (hhave : sw.have_ j = false) (hfits : t.piecelen j ≤ t.piecelen i) (hbs : bs.length = t.piecelen j)
    (hat : b.At sw.storage (t.pieceSize * i) bs) (hsha : checkHashes = true → t.sha bs = t.hashes j)
    (hwaiting : Waiting b t sw.storage last ts' (update sw.places j (some i))) :
    Checked b t checkHashes s last (done ++ [i]) ts' (markgot t checkHashes j i sw) := by
  obtain ⟨hnone, hplaced⟩ := h.placed.put ht hi hpre hj hfits
  refine ⟨h.storage, hplaced, h.marked.markgot hhave hnone ⟨i, update_self .., hbs, hat⟩ hsha, hwaiting, ?_⟩
  exact h.holes.trans (filter_concat (by rw [hpre]; rfl)).symm

theorem Checked.kept (ht : t.Sized) : Checked b t checkHashes s last (done ++ [i]) ts { sw with places := update sw.places i (some i) } := by
  obtain ⟨hnone, hplaced⟩ := h.placed.put ht hi hpre (.inl rfl) le_rfl
  refine ⟨h.storage, hplaced, h.marked.keep hpre hnone, h.waiting.put hpre, ?_⟩
  exact h.holes.trans (filter_concat (by rw [hpre]; rfl)).symm

/-- A piece whose place has not been looked at has not been found. -/
theorem Checked.not_have : sw.have_ i = false := by
  rw [← Bool.not_eq_true]
  intro hhave
  obtain ⟨_, ⟨p, hp, -⟩, -⟩ := h.marked.verified i hhave
  rw [h.placed.none_of_pre hi hpre] at hp
  cases hp

end Turn

theorem recognize_ok (ht : t.Sized) (hlast : last.val + 1 = n) (h : Checked b t true s last done ts sw) (hi : i ∉ done)
    (hpre : waspre b t sw.storage i = true) (hbs : bs.length = t.piecelen i) (hat : b.At sw.storage (t.pieceSize * i) bs)
    (hrec : recognize b t last i (t.sha (bs.take (t.piecelen last))) (t.sha bs) ts sw = (ts', sw')) :
    Checked b t true s last (done ++ [i]) ts' sw' := by
  have hlen : t.piecelen last ≤ t.piecelen i := by
    by_cases hne : i = last
    · rw [hne]
    · rw [Torrent.Sized.piecelen_of_ne_last hlast hne]
      exact ht.piecelen_le last
  -- the last piece is looked for only where `targets` has no piece
  have horLast : (∀ piece, (ts (t.sha bs)).getLast? = some piece → t.piecelen i ≠ t.piecelen piece) →
      (if !sw.have_ last && t.sha (bs.take (t.piecelen last)) = t.hashes last &&
          (i = last || !waspre b t sw.storage last) then
        (ts, markgot t true last i sw)
      else (ts, { sw with places := update sw.places i (some i) })) = (ts', sw') →
      Checked b t true s last (done ++ [i]) ts' sw' := by
    intro hnot hrec
    split at hrec
    · next hcond =>
      cases hrec
      simp only [Bool.and_eq_true, Bool.not_eq_true', decide_eq_true_eq, Bool.or_eq_true] at hcond
      obtain ⟨⟨hhave, hsha⟩, hcond⟩ := hcond
      have hnone : last ≠ i → waspre b t sw.storage last = false ∧ sw.places last = none := by
        intro hne
        have hlpre := hcond.resolve_left (Ne.symm hne)
        refine ⟨hlpre, ?_⟩
        by_contra hsome
        rw [h.marked.got hlpre hsome] at hhave
        cases hhave
      have htake : (bs.take (t.piecelen last)).length = t.piecelen last := List.length_take_of_le (hbs ▸ hlen)
      refine h.found hi hpre ht (or_iff_not_imp_left.mpr hnone) hhave hlen htake (hat.take _) (fun _ => hsha) ?_
      by_cases hil : last = i
      · subst hil
        exact h.waiting.put hpre
      · refine h.waiting.put_last (lt_of_le_of_ne (ht.piecelen_le last) fun hfull => ?_)
        -- else the whole piece has been read, and the last piece is at the end of its list
        have hil' : t.piecelen i = t.piecelen last := by
          refine le_antisymm ?_ hlen
          rw [hfull]
          exact ht.piecelen_le i
        rw [← hil', ← hbs, List.take_length] at hsha
        have hwaits := h.waiting.last hfull (hnone hil).1 (hnone hil).2
        rw [← hsha] at hwaits
        exact hnot last hwaits hil'
    · cases hrec
      exact h.kept hi hpre ht
  rw [recognize] at hrec
  split at hrec
  · next hsha =>
    cases hrec
    exact h.found hi hpre ht (.inl rfl) (h.not_have hi hpre) le_rfl hbs hat (fun _ => hsha) (h.waiting.put hpre)
  · split at hrec
    · next piece hpiece =>
      split at hrec
      · next hlenp =>
        cases hrec
        obtain ⟨hppre, hhash, hpnone⟩ := h.waiting.mem (List.mem_of_getLast? hpiece)
        have hpnone' : sw.places piece = none := by
          refine hpnone.resolve_right ?_
          rintro ⟨rfl, hlt⟩
          have hne : i ≠ piece := by
            rintro rfl
            rw [hpre] at hppre
            cases hppre
          rw [← hlenp, Torrent.Sized.piecelen_of_ne_last hlast hne] at hlt
          exact lt_irrefl _ hlt
        have hhave : sw.have_ piece = false := by
          rw [← Bool.not_eq_true]
          intro hhave
          obtain ⟨_, ⟨p, hp, -⟩, -⟩ := h.marked.verified piece hhave
          rw [hpnone'] at hp
          cases hp
        exact h.found hi hpre ht (.inr ⟨hppre, hpnone'⟩) hhave hlenp.ge (hbs.trans hlenp) hat (fun _ => hhash.symm)
          (h.waiting.pop hpiece)
      · next hlenp =>
        refine horLast (fun piece' hpiece' => ?_) hrec
        obtain rfl := Option.some.inj (hpiece.symm.trans hpiece')
        exact hlenp
    · next hnone =>
      refine horLast (fun piece hpiece => ?_) hrec
      rw [hnone] at hpiece
      cases hpiece

theorem check_ok (ht : t.Sized) (hlast : last.val + 1 = n) (h : Checked b t checkHashes s last done ts sw)
    (hi : i ∉ done) (hok : check b t checkHashes last i ts sw = .ok (ts', sw')) :
    Checked b t checkHashes s last (done ++ [i]) ts' sw' := by
  rw [check] at hok
  split at hok
  · next hpre =>
    cases hok
    rw [Bool.not_eq_true'] at hpre
    refine ⟨h.storage, h.placed.skip hpre, { h.marked with }, h.waiting, ?_⟩
    rw [List.filter_append, ← h.holes, List.filter_cons_of_pos (by simp [hpre]), List.filter_nil]
  · next hpre =>
    rw [Bool.not_eq_true', Bool.not_eq_false] at hpre
    obtain ⟨bs, hbs, hat⟩ := full_of_waspre ht h.placed.arranged.total hpre
    split at hok
    · next hcheck =>
      cases hok
      refine h.found hi hpre ht (.inl rfl) (h.not_have hi hpre) le_rfl hbs hat (fun hchecked => ?_) (h.waiting.put hpre)
      rw [hchecked] at hcheck
      cases hcheck
    · next hcheck =>
      obtain rfl : checkHashes = true := by simpa using hcheck
      obtain ⟨first, hfirst, hok⟩ := bind_eq_ok hok
      obtain ⟨rest, hrest, hok⟩ := bind_eq_ok hok
      have hlen : t.piecelen last ≤ bs.length := by
        rw [hbs]
        by_cases hne : i = last
        · rw [hne]
        · rw [Torrent.Sized.piecelen_of_ne_last hlast hne]
          exact ht.piecelen_le last
      have hle : t.pieceSize * i + bs.length ≤ b.total sw.storage := by
        rw [h.placed.arranged.total, hbs]
        exact ht.add_piecelen_le i
      have hfirst' : first = bs.take (t.piecelen last) := hat.read_take hfirst hlen (by omega)
      have hrest' : rest = bs.drop (t.piecelen last) := by
        refine (hat.drop hlen).read ?_ ?_
        · rwa [List.length_drop, hbs]
        · rw [List.length_drop]
          omega
      have hbs' : first ++ rest = bs := by rw [hfirst', hrest', List.take_append_drop]
      rw [hbs', hfirst'] at hok
      exact recognize_ok ht hlast h hi hpre hbs hat (Except.ok.inj hok)

theorem checkAll_ok (ht : t.Sized) (hlast : last.val + 1 = n) {flag : Fin n → Bool} {is : List (Fin n)}
    (h : Checked b t checkHashes s last done ts sw) (hnodup : (done ++ is).Nodup)
    (hok : checkAll b t checkHashes flag last is ts sw = .ok (some sw')) :
    ∃ ts', Checked b t checkHashes s last (done ++ is) ts' sw' := by
  induction is generalizing done ts sw with
  | nil =>
    cases hok
    exact ⟨ts, by rwa [List.append_nil]⟩
  | cons i is ih =>
    rw [checkAll] at hok
    obtain ⟨⟨ts₁, sw₁⟩, hcheck, hok⟩ := bind_eq_ok hok
    have hi : i ∉ done := fun hmem => List.disjoint_of_nodup_append hnodup hmem List.mem_cons_self
    dsimp only at hok
    split at hok
    · cases hok
    · rw [List.append_cons] at hnodup ⊢
      exact ih (check_ok ht hlast h hi hcheck) hnodup hok

theorem checked_start (ht : t.Sized) (hlast : last.val + 1 = n) (hs : b.total s = t.totalLength) :
    Checked b t checkHashes s last [] (targets b t s) (start t checkHashes s) := by
  refine ⟨rfl, ⟨⟨hs, ⟨fun hi => ?_, fun hi => ?_⟩, fun hi => ?_, fun hi => ?_⟩, fun {p} => ?_, fun hj => ?_⟩,
    ⟨fun _ => rfl, fun _ => rfl, fun _ => rfl, fun _ hj => ?_, fun _ hj => (hj rfl).elim, ?_, ?_, rfl⟩,
    ⟨fun {h j} hj => ?_, fun h => ?_, fun _ hpre _ => ?_⟩, rfl⟩
  any_goals cases hi
  · exact iff_of_true (fun _ hj => by cases hj) (.inl List.not_mem_nil)
  · cases hj
  · cases hj
  · exact ht.sum_piecelen.symm
  · exact ht.sum_piecelen.symm
  · rw [targets, List.mem_filter, Bool.and_eq_true, Bool.not_eq_true', decide_eq_true_eq] at hj
    exact ⟨hj.2.1, hj.2.2, .inl rfl⟩
  · exact (List.nodup_finRange n).filter _
  · obtain ⟨m, rfl⟩ : ∃ m, n = m + 1 := ⟨last.val, hlast.symm⟩
    obtain rfl : last = Fin.last m := Fin.ext (by simpa using hlast)
    have hpre' : waspre b t s (Fin.last m) = false := hpre
    rw [targets, List.finRange_succ_last, List.filter_append, List.filter_cons_of_pos (by simp [hpre']),
      List.getLast?_append_of_ne_nil _ (List.cons_ne_nil _ _)]
    rfl

/-- What `__init__` makes of a storage -/
theorem init_ok {flag : Fin n → Bool} {calls : List Callback} (hrequest : 0 < t.requestSize)
    (hs : b.total s = t.totalLength) (hok : init b t checkHashes flag s = .ok (some (calls, sw))) :
    sw.storage = s ∧ Sound b t sw [] ∧ (calls = if sw.amountLeft = 0 then [.finished] else []) ∧ t.Sized ∧
      (∀ i, sw.waschecked i = checkHashes) ∧ (∀ i, sw.inactiveRequests i = bif sw.have_ i then .none else .unmade) ∧
      sw.endgame = false := by
  rw [init] at hok
  split at hok
  · cases hok
  next hsmall =>
  split at hok
  · cases hok
  next hbig =>
  split at hok
  · next hn =>
    subst hn
    cases hok
    have hzero : (t.totalLength : Int) = 0 :=
      Int.natCast_eq_zero.mpr (Nat.le_zero.mp ((not_lt.mp hbig).trans_eq (Nat.mul_zero _)))
    refine ⟨rfl, ⟨⟨hs, ⟨fun {i} => i.elim0, fun {i} => i.elim0⟩, fun {i} => i.elim0, fun {i} => i.elim0⟩,
      ⟨fun {q} => q.elim0, List.Pairwise.nil⟩, fun i => i.elim0, fun i => i.elim0, fun i => i.elim0, hzero, hzero⟩,
      (if_pos hzero).symm, ⟨hrequest, fun hn => absurd hn (lt_irrefl 0), not_lt.mp hbig⟩, fun i => i.elim0, fun i => i.elim0, rfl⟩
  next hn =>
  have ht : t.Sized := by
    refine ⟨hrequest, fun _ => ?_, not_lt.mp hbig⟩
    have hn' : ((n - 1 : Nat) : Int) = (n : Int) - 1 := by omega
    rw [← hn'] at hsmall
    exact_mod_cast not_le.mp hsmall
  obtain ⟨r, hcheck, hok⟩ := bind_eq_ok hok
  cases r with
  | none => cases hok
  | some sw' =>
    cases hok
    have hlast : (⟨n - 1, Nat.sub_one_lt hn⟩ : Fin n).val + 1 = n := Nat.sub_one_add_one hn
    have hnodup : ([] ++ List.finRange n).Nodup := List.nodup_finRange n
    obtain ⟨ts', h⟩ := checkAll_ok ht hlast (checked_start ht hlast hs) hnodup hcheck
    rw [List.nil_append] at h
    refine ⟨h.storage, ⟨h.placed.arranged, ⟨fun {q} => ?_, ?_⟩, fun i => ?_, fun i => ?_, fun i hi => ?_, h.marked.amountLeft,
      h.marked.amountInactive⟩, rfl, ht, h.marked.waschecked, h.marked.requests,
      h.marked.endgame⟩
    · simp [h.holes, h.placed.free_iff]
    · rw [h.holes]
      exact (List.pairwise_lt_finRange n).filter _
    · rw [h.marked.requests, h.marked.numactive]
      cases sw.have_ i with
      | true => exact .none
      | false => exact .unmade
    · rw [h.marked.requests]
      cases sw.have_ i <;> simp
    · obtain ⟨bs, hbs, hsha⟩ := h.marked.verified i hi
      exact ⟨bs, hbs, fun hchecked => hsha ((h.marked.waschecked i).symm.trans hchecked)⟩

end Swinst.BitTorrent
