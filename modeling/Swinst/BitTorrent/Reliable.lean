import Swinst.BitTorrent.TrueBlocks

/-! Over a storage that can be read and written, nothing but corrupted data stops a download. -/

namespace Swinst.BitTorrent

open Function (update update_self update_of_ne)
open StorageWrapper

variable {σ : Type} {n : Nat} {b : Backing σ} {t : Torrent n}

/-- What is in the storage can be read and written. -/
structure Backing.Reliable (b : Backing σ) : Prop where
  read : ∀ {s pos amount}, 0 < b.total s → pos + amount ≤ b.total s → ∃ xs, b.read s pos amount = .ok xs
  write : ∀ {s pos xs}, 0 < b.total s → pos + xs.length ≤ b.total s → ∃ s', b.write s pos xs = .ok s'

variable {s : σ} {sw : StorageWrapper σ n} {fl fl' : List (Request n)} {places : Fin n → Option (Fin n)}
  {i p index : Fin n} {st : StorageWrapper σ n × List (Request n)} {es : List (Event n)}

theorem Torrent.Sized.totalLength_pos (ht : t.Sized) (i : Fin n) : 0 < t.totalLength :=
  (ht.piecelen_pos i).trans_le ((Nat.le_add_left ..).trans (ht.add_piecelen_le i))

theorem Backing.Reliable.put (hb : b.Reliable) {pos : Nat} {data : Bytes} (hpos : 0 < b.total s)
    (h : pos + data.length ≤ b.total s) : ∃ s', b.put s pos data = .ok s' := by
  obtain ⟨s', hs'⟩ := hb.write hpos h
  exact ⟨s', by rw [Backing.put, hs', catchIOError]⟩

/-- What is known to be there is read. -/
theorem Backing.Reliable.get (hb : b.Reliable) {pos m : Nat} {cs : Bytes} (hat : b.At s pos cs) (hm : m ≤ cs.length)
    (hpos : 0 < b.total s) (hle : pos + m ≤ b.total s) : b.get s pos m = .ok (cs.take m) := by
  obtain ⟨xs, hxs⟩ := hb.read hpos hle
  rw [Backing.get, hxs, hat.read_take hxs hm hle, catchIOError]

theorem Backing.Reliable.fill (hb : b.Reliable) (ht : t.Sized) (htotal : b.total s = t.totalLength) (hole : Fin n) :
    ∃ s', StorageWrapper.fill b t hole s = .ok s' := by
  rw [StorageWrapper.fill]
  split
  · exact ⟨s, rfl⟩
  · refine hb.put (htotal ▸ ht.totalLength_pos hole) ?_
    rw [htotal, List.length_replicate]
    exact ht.add_piecelen_le hole

/-- A piece in a place that is not its own is read to any length. -/
theorem Arranged.get_displaced (hb : b.Reliable) (ht : t.Sized) (h : Arranged b t s places) (hi : places i = some p)
    (hip : i ≠ p) {m : Nat} (hm : m ≤ t.pieceSize) :
    ∃ cs, b.get s (t.pieceSize * p) m = .ok cs ∧ cs.length = m := by
  obtain ⟨cs, hlen, hat⟩ := h.full hi
  rw [← h.piecelen_of_displaced ht hi hip] at hm
  refine ⟨cs.take m, hb.get hat (hlen ▸ hm) (h.total ▸ ht.totalLength_pos p) ?_, List.length_take_of_le (hlen ▸ hm)⟩
  rw [h.total]
  exact (Nat.add_le_add_left hm _).trans (ht.add_piecelen_le p)

theorem Arranged.put_fits (hb : b.Reliable) (ht : t.Sized) (h : Arranged b t s places) {data : Bytes}
    (hdata : data.length ≤ t.piecelen p) : ∃ s', b.put s (t.pieceSize * p) data = .ok s' := by
  refine hb.put (h.total ▸ ht.totalLength_pos p) ?_
  rw [h.total]
  exact (Nat.add_le_add_left hdata _).trans (ht.add_piecelen_le p)

theorem allocate_reliable (hb : b.Reliable) (ht : t.Sized) (h : Arranged b t sw.storage sw.places)
    (hholes : Holes sw.places sw.holes) (hnone : sw.places index = none)
    (hverified : ∀ i, sw.have_ i = true → ∃ bs, Holds b t sw.storage sw.places i bs ∧ t.sha bs = t.hashes i) :
    ∃ sw', sw.allocate b t index = .ok sw' := by
  obtain ⟨q, hq⟩ := Placement.exists_free hnone
  rw [StorageWrapper.allocate]
  cases hsw : sw.holes with
  | nil =>
    rw [← hholes.mem_iff, hsw] at hq
    cases hq
  | cons hole holes =>
    rw [hsw] at hholes
    dsimp only
    cases hhole : sw.places hole with
    | some oldpos =>
      have hne : hole ≠ oldpos := fun heq => hholes.free_head hole (heq ▸ hhole)
      have hih : index ≠ hole := by
        rintro rfl
        rw [hnone] at hhole
        cases hhole
      obtain ⟨old, hget, hold⟩ := h.get_displaced hb ht hhole hne (ht.piecelen_le hole)
      obtain ⟨s₁, hput⟩ := h.put_fits hb ht hold.le
      have hsha : ¬ (sw.have_ hole && decide (t.sha old ≠ t.hashes hole)) = true := by
        rw [Bool.and_eq_true, decide_eq_true_eq]
        rintro ⟨hhave, hsha⟩
        obtain ⟨bs, ⟨p, hp, hlen, hat⟩, hbs⟩ := hverified hole hhave
        obtain rfl : oldpos = p := Option.some.inj (hhole.symm.trans hp)
        rw [← hlen] at hget
        rw [hat.read (catchIOError_ok hget), hbs] at hsha
        · exact hsha rfl
        · rw [h.total, hlen]
          exact (Nat.add_le_add_left (h.fits hhole) _).trans (ht.add_piecelen_le oldpos)
      simp only [hget, bind_ok, if_neg hsha, hput]
      split
      · exact ⟨_, rfl⟩
      · next hindex =>
        rw [not_or] at hindex
        obtain ⟨harranged, -, hfree, -⟩ :=
          h.move ht hhole hholes.free_head (.inl rfl) (.inl rfl) rfl le_rfl (h.fits hhole) hget hput
        have hoccupied : ¬ Free (update sw.places hole (some hole)) index := by
          rw [hfree, not_or]
          refine ⟨hindex.1, fun hx => ?_⟩
          exact (List.mem_cons.mp (hholes.mem_iff.mpr hx.2)).elim hx.1 hindex.2
        obtain ⟨p, hp⟩ := pieceAt_of_not_free hoccupied
        have hpi : p ≠ index := by
          rintro rfl
          have hpp := pieceAt_ok hp
          rw [update_of_ne hih, hnone] at hpp
          cases hpp
        obtain ⟨old', hget', hold'⟩ := harranged.get_displaced hb ht (pieceAt_ok hp) hpi le_rfl
        have hlen : old'.length ≤ t.piecelen oldpos := by rw [hold', h.piecelen_of_displaced ht hhole hne]
        obtain ⟨s', hput'⟩ := harranged.put_fits hb ht hlen
        simp only [hp, bind_ok, hget', hput']
        exact ⟨_, rfl⟩
    | none =>
      dsimp only
      split
      · obtain ⟨s', hs'⟩ := hb.fill ht h.total hole
        rw [hs']
        exact ⟨_, rfl⟩
      · next hindex =>
        have hoccupied : ¬ Free sw.places index := fun hfree =>
          hindex ((List.mem_cons.mp (hholes.mem_iff.mpr hfree)).symm)
        obtain ⟨p, hp⟩ := pieceAt_of_not_free hoccupied
        have hpi : p ≠ index := by
          rintro rfl
          have hpp := pieceAt_ok hp
          rw [hnone] at hpp
          cases hpp
        obtain ⟨old, hget, hold⟩ := h.get_displaced hb ht (pieceAt_ok hp) hpi (ht.piecelen_le hole)
        obtain ⟨s', hput⟩ := h.put_fits hb ht hold.le
        simp only [hp, bind_ok, hget, hput]
        exact ⟨_, rfl⟩

theorem ensurePlace_reliable (hb : b.Reliable) (ht : t.Sized) (h : Sound b t sw fl)
    (hchecked : ∀ i, sw.waschecked i = true) (index : Fin n) : ∃ sw', ensurePlace b t index sw = .ok sw' := by
  rw [ensurePlace]
  split
  · next hnone =>
    refine allocate_reliable hb ht h.arranged h.holes (Option.isNone_iff_eq_none.mp hnone) fun i hi => ?_
    obtain ⟨bs, hbs, hsha⟩ := h.verified i hi
    exact ⟨bs, hbs, hsha (hchecked i)⟩
  · exact ⟨sw, rfl⟩

theorem pieceCameIn_reliable (hb : b.Reliable) (ht : t.Sized) {x : Nat} {block : Bytes}
    (h : Sound b t sw ((i, x, block.length) :: fl)) (hchecked : ∀ i, sw.waschecked i = true) :
    ∃ v calls sw', pieceCameIn b t i x block sw = .ok (v, calls, sw') := by
  obtain ⟨sw₁, hensure⟩ := ensurePlace_reliable hb ht h hchecked i
  obtain ⟨s₁, places, holes, rfl, harranged, -, ⟨p, hp⟩, -⟩ := ensurePlace_ok ht h hensure
  have haccounted := h.accounted i
  rw [inflight_cons_self] at haccounted
  obtain ⟨rs, -, -, hsub⟩ := haccounted.exists_list
  have hbound : x + block.length ≤ t.piecelen i :=
    ((blocks_tiling ht i).bounds (hsub.subset (List.mem_append_right _ List.mem_cons_self))).2.2
  have hfits := harranged.fits hp
  have hle : t.pieceSize * p + x + block.length ≤ b.total s₁ := by
    have hadd := ht.add_piecelen_le p
    rw [harranged.total]
    omega
  obtain ⟨s', hput⟩ := hb.put (harranged.total ▸ ht.totalLength_pos i) hle
  obtain ⟨cs, hlen, hat⟩ := (put_block ht harranged hp hput hbound).1.full hp
  have htotal : b.total s' = t.totalLength := (b.total_write (catchIOError_ok hput)).trans harranged.total
  have hget := hb.get hat (hlen ▸ hfits) (htotal ▸ ht.totalLength_pos i) (by
    rw [htotal]
    exact (Nat.add_le_add_left hfits _).trans (ht.add_piecelen_le p))
  rw [Nat.mul_comm] at hput
  simp only [pieceCameIn, hensure, bind_ok, arrive, hp, hput, hget]
  split
  · split
    · exact ⟨_, _, _, rfl⟩
    · exact ⟨_, _, _, rfl⟩
  · exact ⟨_, _, _, rfl⟩

theorem getPiece_reliable (hb : b.Reliable) (ht : t.Sized) (h : Sound b t sw fl)
    (hchecked : ∀ i, sw.waschecked i = true) (i : Fin n) (x l : Nat) :
    ∃ data sw', getPiece b t i x l sw = .ok (data, sw') := by
  rw [getPiece]
  split
  · exact ⟨_, _, rfl⟩
  · next hhave =>
    rw [Bool.not_eq_true', Bool.not_eq_false] at hhave
    obtain ⟨bs, ⟨p, hp, hlen, hat⟩, -⟩ := h.verified i hhave
    simp only [hp, ensureChecked, if_pos (hchecked i), bind_ok]
    split
    · exact ⟨_, _, rfl⟩
    · next hxl =>
      have hle : t.pieceSize * p + x + l ≤ b.total sw.storage := by
        have hadd := ht.add_piecelen_le p
        have hfits := h.arranged.fits hp
        rw [h.arranged.total]
        omega
      obtain ⟨data, hdata⟩ := hb.read (h.arranged.total ▸ ht.totalLength_pos i) hle
      rw [Backing.get, hdata, catchIOError, bind_ok]
      exact ⟨_, _, rfl⟩

/-- Whatever has happened, every request, block and loss that is due is handled, and every question for data is
answered. -/
theorem never_stops (hb : b.Reliable) {flag : Fin n → Bool} {calls : List Callback} (hrequest : 0 < t.requestSize)
    (hs : b.total s = t.totalLength) (hinit : init b t true flag s = .ok (some (calls, sw)))
    (hrun : Runs (Step b t) (sw, []) es st) :
    (∀ i, st.1.doIHaveRequests i = true → ∃ r sw', newRequest t i st.1 = .ok (r, sw')) ∧
      (∀ i x block, (i, x, block.length) ∈ st.2 →
        ∃ v calls sw', pieceCameIn b t i x block st.1 = .ok (v, calls, sw')) ∧
      (∀ i x l, (i, x, l) ∈ st.2 → ∃ sw', requestLost i x l st.1 = .ok sw') ∧
      ∀ i x l, ∃ data sw', getPiece b t i x l st.1 = .ok (data, sw') := by
  obtain ⟨-, hstart, -, ht, hchecked, -⟩ := init_ok hrequest hs hinit
  obtain ⟨h, hchecked⟩ := hstart.run_checked ht hchecked hrun
  refine ⟨fun i hi => ?_, fun i x block hmem => ?_, fun i x l hmem => ?_, getPiece_reliable hb ht h hchecked⟩
  · obtain ⟨r, sw', hok, -⟩ := newRequest_ok ht h hi
    exact ⟨r, sw', hok⟩
  · exact pieceCameIn_reliable hb ht (h.perm (List.perm_cons_erase hmem)) hchecked
  · obtain ⟨sw', hok, -⟩ := requestLost_ok (h.perm (List.perm_cons_erase hmem))
    exact ⟨sw', hok⟩

/-! ## Every download can be completed -/

section

variable {content : Fin n → Bytes}

/-- A block that is on its way can come in. -/
theorem TrueRun.deliver (hb : b.Reliable) (ht : t.Sized) (hcontent : TrueContent t content) {r : Nat × Nat}
    (h : TrueRun b t content (sw, (i, r) :: fl)) (hchecked : ∀ i, sw.waschecked i = true) :
    ∃ calls sw', Step b t (sw, (i, r) :: fl) (.cameIn i r.1 (slice (content i) r) calls) (sw', fl) ∧
      (Event.cameIn i r.1 (slice (content i) r) calls).IsTrue content := by
  have haccounted := h.sound.accounted i
  rw [inflight_cons_self] at haccounted
  obtain ⟨rs, -, -, hsub⟩ := haccounted.exists_list
  have hbound := ((blocks_tiling ht i).bounds (hsub.subset (List.mem_append_right _ List.mem_cons_self))).2.2
  have hlength : (slice (content i) r).length = r.2 := by
    rw [slice, List.length_take, List.length_drop, hcontent.length]
    omega
  have hr : r = (r.1, (slice (content i) r).length) := by rw [hlength]
  have hsound := h.sound
  rw [hr] at hsound
  obtain ⟨v, calls, sw', hok⟩ := pieceCameIn_reliable hb ht hsound hchecked
  refine ⟨calls, sw', .cameIn (.of_eq (by rw [← hr])) hok, ?_⟩
  rw [Event.IsTrue, ← hr]

/-- When nothing is on its way, a block of a missing piece can be requested. -/
theorem Sound.ask (ht : t.Sized) (h : Sound b t sw []) (hleft : sw.amountLeft ≠ 0) :
    ∃ i r sw', Step b t (sw, []) (.requested i r) (sw', [(i, r)]) := by
  obtain ⟨i, hi⟩ : ∃ i, sw.doIHaveRequests i = true := by
    by_contra hnone
    rw [not_exists] at hnone
    refine hleft ?_
    rw [h.amountLeft, missing]
    refine Finset.sum_eq_zero fun i _ => if_pos ((h.have_iff i).mpr ?_)
    have haccounted := h.accounted i
    cases hrequests : sw.inactiveRequests i with
    | none => rfl
    | unmade => exact (hnone i (by rw [doIHaveRequests, hrequests]; rfl)).elim
    | list rs =>
      rw [hrequests] at haccounted
      cases rs with
      | nil => exact (haccounted.ne_nil rfl).elim
      | cons r rs => exact (hnone i (by rw [doIHaveRequests, hrequests]; rfl)).elim
  obtain ⟨r, sw', hok, -⟩ := newRequest_ok ht h hi
  exact ⟨i, r, sw', .requested hi hok⟩

/-- A download of which all blocks were true can be completed, whatever is on its way. -/
theorem TrueRun.can_complete (hb : b.Reliable) (ht : t.Sized) (hcontent : TrueContent t content)
    (h : TrueRun b t content st) (hchecked : ∀ i, st.1.waschecked i = true) :
    ∃ es st', Runs (Step b t) st es st' ∧ (∀ e ∈ es, e.IsTrue content) ∧ st'.1.amountLeft = 0 := by
  obtain ⟨k, hk⟩ : ∃ k, remaining t st.1.inactiveRequests st.2 = k := ⟨_, rfl⟩
  induction k generalizing st with
  | zero => exact ⟨[], st, .nil, List.forall_mem_nil _, (h.sound.remaining_eq_zero ht).mp hk⟩
  | succ k ih =>
    obtain ⟨sw, fl⟩ := st
    -- a block that is on its way comes in, or one is requested first
    obtain ⟨es₁, st₁, hrun₁, htrue₁, harrivals⟩ : ∃ es st', Runs (Step b t) (sw, fl) es st' ∧
        (∀ e ∈ es, e.IsTrue content) ∧ (es.map Event.arrivals).sum = 1 := by
      cases fl with
      | cons r fl =>
        obtain ⟨calls, sw', hstep, he⟩ := h.deliver hb ht hcontent hchecked
        exact ⟨_, _, .cons hstep .nil, List.forall_mem_singleton.mpr he, rfl⟩
      | nil =>
        have hleft : sw.amountLeft ≠ 0 := fun hzero => by
          rw [(h.sound.remaining_eq_zero ht).mpr hzero] at hk
          cases hk
        obtain ⟨i, r, sw₁, hask⟩ := h.sound.ask ht hleft
        have hasked : (Event.requested i r).IsTrue content := trivial
        have h₁ := (hask.true_ ht hcontent hasked h).1
        obtain ⟨calls, sw', hstep, he⟩ := h₁.deliver hb ht hcontent fun j => hask.waschecked ht h.sound j (hchecked j)
        exact ⟨_, _, .cons hask (.cons hstep .nil),
          List.forall_mem_cons.mpr ⟨hasked, List.forall_mem_singleton.mpr he⟩, rfl⟩
    obtain ⟨h₁, hmeasure⟩ := h.run ht hcontent hrun₁ htrue₁
    obtain ⟨es₂, st₂, hrun₂, htrue₂, hleft⟩ :=
      ih h₁ (h.sound.run_checked ht hchecked hrun₁).2 (by omega)
    exact ⟨es₁ ++ es₂, st₂, hrun₁.append hrun₂, List.forall_mem_append.mpr ⟨htrue₁, htrue₂⟩, hleft⟩

end

theorem memory_reliable : memory.Reliable where
  read _ _ := ⟨_, rfl⟩
  write _ hle := ⟨_, if_pos hle⟩

/-- The last piece is in the place of another, for which requests are due. -/
theorem never_stops_threePieces : ∃ st : StorageWrapper Bytes 3, st.places 2 = some 1 ∧
    (∃ r sw', newRequest threePieces 1 st = .ok (r, sw')) ∧
    ∃ data sw', getPiece memory threePieces 2 0 1 st = .ok (data, sw') := by
  obtain ⟨sw, st, _, _, _, hinit, hrun, hplace, hrun', -⟩ := threePieces_run
  obtain ⟨hrequest, -, -, hget⟩ := never_stops memory_reliable (by decide) rfl hinit hrun
  have hdue : st.1.doIHaveRequests 1 = true := by
    cases hrun' with
    | cons hstep _ =>
      cases hstep with
      | requested hi _ => exact hi
  exact ⟨st.1, hplace, hrequest 1 hdue, hget 2 0 1⟩

end Swinst.BitTorrent
