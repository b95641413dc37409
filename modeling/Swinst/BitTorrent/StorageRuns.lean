import Swinst.BitTorrent.Requests

/-! What holds of a `StorageWrapper` and the requests that are on their way, over any run. -/

namespace Swinst.BitTorrent

open Function (update update_self update_of_ne)
open StorageWrapper

variable {σ : Type} {n : Nat} {b : Backing σ} {t : Torrent n}

/-- The bytes of the pieces that are missing -/
def missing (t : Torrent n) (have_ : Fin n → Bool) : Int := ∑ i, if have_ i then 0 else (t.piecelen i : Int)

/-- The bytes that have not been requested -/
def inactive (t : Torrent n) (requests : Fin n → Requests) : Int := ∑ i, inactiveAmount t i (requests i)

/-- The pieces are in the storage as `places` says, those that are there are right, and no block is lost or counted
twice. `fl` are the requests on their way. -/
structure Sound (b : Backing σ) (t : Torrent n) (sw : StorageWrapper σ n) (fl : List (Request n)) : Prop where
  arranged : Arranged b t sw.storage sw.places
  holes : Holes sw.places sw.holes
  accounted : ∀ i, Accounted (blocks t i) (sw.inactiveRequests i) (sw.numactive i) (inflight fl i)
  have_iff : ∀ i, sw.have_ i = true ↔ sw.inactiveRequests i = .none
  verified : ∀ i, sw.have_ i = true →
    ∃ bs, Holds b t sw.storage sw.places i bs ∧ (sw.waschecked i = true → t.sha bs = t.hashes i)
  amountLeft : sw.amountLeft = missing t sw.have_
  amountInactive : sw.amountInactive = inactive t sw.inactiveRequests

theorem sum_update {α : Type} (f : Fin n → α → Int) (g : Fin n → α) (k : Fin n) (v : α) :
    ∑ i, f i (update g k v i) = ∑ i, f i (g i) - f k (g k) + f k v := by
  have hupdate : (fun i => f i (update g k v i)) = update (fun i => f i (g i)) k (f k v) := by
    funext i
    by_cases hi : i = k
    · subst hi
      rw [update_self, update_self]
    · rw [update_of_ne hi, update_of_ne hi]
  rw [hupdate, Finset.sum_update_of_mem (Finset.mem_univ k),
    Finset.sum_eq_add_sum_sdiff_singleton_of_mem (Finset.mem_univ k) fun i => f i (g i)]
  omega

theorem inactive_update (requests : Fin n → Requests) (k : Fin n) (q : Requests) :
    inactive t (update requests k q) = inactive t requests - inactiveAmount t k (requests k) + inactiveAmount t k q :=
  sum_update (inactiveAmount t) requests k q

variable {sw sw' : StorageWrapper σ n} {fl fl' : List (Request n)} {i j p : Fin n} {s s' : σ}
  {places : Fin n → Option (Fin n)}

theorem Sound.perm (h : Sound b t sw fl) (hperm : fl.Perm fl') : Sound b t sw fl' :=
  { h with accounted := fun i => (h.accounted i).perm (inflight_perm hperm i) }

/-! ## Requests -/

/-- Nothing but the requests has changed. -/
structure SameData (sw sw' : StorageWrapper σ n) : Prop where
  storage : sw'.storage = sw.storage
  places : sw'.places = sw.places
  holes : sw'.holes = sw.holes
  have_ : sw'.have_ = sw.have_
  waschecked : sw'.waschecked = sw.waschecked
  amountLeft : sw'.amountLeft = sw.amountLeft

/-- The requests of one piece change, and with them what is on its way of it. -/
theorem Sound.requests_changed (h : Sound b t sw fl) (hdata : SameData sw sw') {q : Requests} {numactive : Int}
    (hrequests : sw'.inactiveRequests = update sw.inactiveRequests i q)
    (hnumactive : sw'.numactive = update sw.numactive i numactive)
    (haccounted : Accounted (blocks t i) q numactive (inflight fl' i))
    (hother : ∀ j, j ≠ i → inflight fl' j = inflight fl j)
    (hhave : sw.have_ i = true ↔ q = .none)
    (hamount : sw'.amountInactive = sw.amountInactive - inactiveAmount t i (sw.inactiveRequests i) +
      inactiveAmount t i q) : Sound b t sw' fl' where
  arranged := by
    rw [hdata.storage, hdata.places]
    exact h.arranged
  holes := by
    rw [hdata.places, hdata.holes]
    exact h.holes
  accounted j := by
    rw [hrequests, hnumactive]
    by_cases hji : j = i
    · subst hji
      rw [update_self, update_self]
      exact haccounted
    · rw [update_of_ne hji, update_of_ne hji, hother j hji]
      exact h.accounted j
  have_iff j := by
    rw [hrequests, hdata.have_]
    by_cases hji : j = i
    · subst hji
      rw [update_self]
      exact hhave
    · rw [update_of_ne hji]
      exact h.have_iff j
  verified j hj := by
    rw [hdata.storage, hdata.places, hdata.waschecked]
    exact h.verified j (hdata.have_ ▸ hj)
  amountLeft := by
    rw [hdata.amountLeft, hdata.have_]
    exact h.amountLeft
  amountInactive := by rw [hamount, h.amountInactive, hrequests, inactive_update]

theorem exists_requests (ht : t.Sized) {q : Requests} {numactive : Int} {rs : List (Nat × Nat)}
    (h : Accounted (blocks t i) q numactive rs) (htruthy : q.truthy = true) :
    ∃ r rs', (if q = .unmade then .list (blocks t i) else q) = .list (r :: rs') ∧
      Accounted (blocks t i) (.list (r :: rs')) numactive rs ∧
      inactiveAmount t i q = inactiveAmount t i (.list (r :: rs')) := by
  cases h with
  | unmade =>
    have htiling := blocks_tiling ht i
    obtain ⟨r, rs', hrs⟩ := List.exists_cons_of_ne_nil (l := blocks t i) (by
      intro hnil
      rw [hnil] at htiling
      cases htiling)
    refine ⟨r, rs', by rw [if_pos rfl, hrs], ?_, ?_⟩
    · have hlist : Accounted (blocks t i) (.list (r :: rs')) (([] : List (Nat × Nat)).length : Int) [] :=
        .list (by simp) (by rw [List.append_nil, hrs])
      exact hlist
    · rw [inactiveAmount, inactiveAmount, ← hrs, htiling.sum, Nat.sub_zero]
  | none => cases htruthy
  | @list rs' _ hne hsub =>
    cases rs' with
    | nil => cases htruthy
    | cons r rs' => exact ⟨r, rs', if_neg (by simp), .list hne hsub, rfl⟩

/-- A block of a piece is requested. -/
structure Requested (b : Backing σ) (t : Torrent n) (sw : StorageWrapper σ n) (fl : List (Request n)) (i : Fin n)
    (r : Nat × Nat) (sw' : StorageWrapper σ n) : Prop where
  mem_blocks : r ∈ blocks t i
  sound : Sound b t sw' ((i, r) :: fl)
  data : SameData sw sw'
  endgame : sw'.endgame = true ↔ sw.endgame = true ∨ sw'.amountInactive = 0
  requests : ∃ rs, (sw.inactiveRequests i = .unmade ∧ rs = blocks t i ∨ sw.inactiveRequests i = .list rs) ∧ r ∈ rs ∧
    sw'.inactiveRequests = update sw.inactiveRequests i (.list (rs.erase r))

theorem newRequest_ok (ht : t.Sized) (h : Sound b t sw fl) (hi : sw.doIHaveRequests i = true) :
    ∃ r sw', newRequest t i sw = .ok (r, sw') ∧ Requested b t sw fl i r sw' := by
  obtain ⟨r, rs, hrequests, haccounted, hamount⟩ := exists_requests ht (h.accounted i) hi
  have hmem := minimum_mem r rs
  simp only [newRequest, hrequests]
  refine ⟨_, _, rfl, haccounted.mem_blocks (List.mem_append_left _ hmem), ?_, ⟨rfl, rfl, rfl, rfl, rfl, rfl⟩, ?_,
    r :: rs, ?_, hmem, rfl⟩
  · refine h.requests_changed ⟨rfl, rfl, rfl, rfl, rfl, rfl⟩ rfl rfl (i := i) ?_ ?_ ?_ ?_
    · rw [inflight_cons_self]
      exact haccounted.request hmem
    · exact fun j hj => inflight_cons_of_ne (Ne.symm hj) ..
    · rw [h.have_iff]
      constructor
      · intro hnone
        rw [hnone] at hrequests
        cases hrequests
      · intro hnone
        cases hnone
    · have hsum : (((r :: rs).erase (minimum r rs)).map Prod.snd).sum + (minimum r rs).2 =
          ((r :: rs).map Prod.snd).sum := by
        rw [((List.perm_cons_erase hmem).map Prod.snd).sum_eq, List.map_cons, List.sum_cons, Nat.add_comm]
      rw [hamount, inactiveAmount, inactiveAmount]
      dsimp only
      omega
  · dsimp only
    split
    · next hzero => simp [hzero]
    · next hzero => simp [hzero]
  · split at hrequests
    · next hunmade => exact .inl ⟨hunmade, (Requests.list.inj hrequests).symm⟩
    · exact .inr hrequests

theorem newRequest_eq (ht : t.Sized) (h : Sound b t sw fl) (hi : sw.doIHaveRequests i = true) {r : Nat × Nat}
    (hok : newRequest t i sw = .ok (r, sw')) : Requested b t sw fl i r sw' := by
  obtain ⟨r', sw₁, hok', hrequested⟩ := newRequest_ok ht h hi
  obtain ⟨rfl, rfl⟩ := Prod.mk.inj (Except.ok.inj (hok.symm.trans hok'))
  exact hrequested

/-- A request on its way is lost. -/
structure Lost (b : Backing σ) (t : Torrent n) (sw : StorageWrapper σ n) (fl : List (Request n)) (i : Fin n)
    (r : Nat × Nat) (sw' : StorageWrapper σ n) : Prop where
  sound : Sound b t sw' fl
  data : SameData sw sw'
  endgame : sw'.endgame = sw.endgame
  requests : ∃ rs, sw.inactiveRequests i = .list rs ∧
    sw'.inactiveRequests = update sw.inactiveRequests i (.list (rs ++ [r]))

theorem requestLost_ok {x l : Nat} (h : Sound b t sw ((i, x, l) :: fl)) :
    ∃ sw', requestLost i x l sw = .ok sw' ∧ Lost b t sw fl i (x, l) sw' := by
  have haccounted := h.accounted i
  rw [inflight_cons_self] at haccounted
  obtain ⟨rs, hrs, -, -⟩ := haccounted.exists_list
  rw [hrs] at haccounted
  simp only [requestLost, hrs]
  refine ⟨_, rfl, ?_, ⟨rfl, rfl, rfl, rfl, rfl, rfl⟩, rfl, rs, hrs, rfl⟩
  refine h.requests_changed ⟨rfl, rfl, rfl, rfl, rfl, rfl⟩ rfl rfl (i := i) haccounted.lose ?_ ?_ ?_
  · exact fun j hj => (inflight_cons_of_ne (Ne.symm hj) ..).symm
  · rw [h.have_iff, hrs]
    simp
  · rw [hrs, inactiveAmount, inactiveAmount, List.map_append, List.sum_append]
    simp
    omega

theorem requestLost_eq {x l : Nat} (h : Sound b t sw ((i, x, l) :: fl)) (hok : requestLost i x l sw = .ok sw') :
    Lost b t sw fl i (x, l) sw' := by
  obtain ⟨sw₁, hok', hlost⟩ := requestLost_ok h
  obtain rfl := Except.ok.inj (hok.symm.trans hok')
  exact hlost

/-! ## Pieces that come in -/

/-- A piece with a block in it -/
def splice (bs : Bytes) (x : Nat) (block : Bytes) : Bytes := bs.take x ++ block ++ bs.drop (x + block.length)

theorem length_splice {bs block : Bytes} {x : Nat} (h : x + block.length ≤ bs.length) :
    (splice bs x block).length = bs.length := by
  simp only [splice, List.length_append, List.length_take, List.length_drop]
  omega

theorem ensurePlace_ok (ht : t.Sized) (h : Sound b t sw fl) (hok : ensurePlace b t i sw = .ok sw') :
    ∃ s places holes, sw' = { sw with storage := s, places, holes } ∧ Arranged b t s places ∧ Holes places holes ∧
      (∃ p, places i = some p) ∧
      ∀ {j bs}, Holds b t sw.storage sw.places j bs → Holds b t s places j bs := by
  rw [ensurePlace] at hok
  split at hok
  · next hnone =>
    obtain ⟨hole, holes, s, places, hsw, rfl, hallocated⟩ :=
      allocate_ok ht h.arranged h.holes (Option.isNone_iff_eq_none.mp hnone) hok
    exact ⟨s, places, holes, rfl, hallocated.arranged, (hsw ▸ h.holes).tail hallocated.free,
      Option.isSome_iff_exists.mp hallocated.placed, hallocated.holds⟩
  · next hsome =>
    obtain rfl := Except.ok.inj hok
    rw [Option.isNone_iff_eq_none] at hsome
    exact ⟨sw.storage, sw.places, sw.holes, rfl, h.arranged, h.holes, Option.ne_none_iff_exists'.mp hsome, id⟩

/-- A block is written into its piece. -/
theorem put_block (ht : t.Sized) (h : Arranged b t s places) (hp : places i = some p) {x : Nat} {block : Bytes}
    (hput : b.put s (t.pieceSize * p + x) block = .ok s') (hx : x + block.length ≤ t.piecelen i) :
    Arranged b t s' places ∧ (∀ {j bs}, j ≠ i → Holds b t s places j bs → Holds b t s' places j bs) ∧
      ∀ {old}, Holds b t s places i old → Holds b t s' places i (splice old x block) := by
  have hwrite := catchIOError_ok hput
  have hfits := h.fits hp
  have htotal : ∀ {cs : Bytes}, cs.length = t.piecelen p → t.pieceSize * p + cs.length ≤ b.total s := by
    intro cs hcs
    rw [h.total, hcs]
    exact ht.add_piecelen_le p
  refine ⟨⟨(b.total_write hwrite).trans h.total, h.placement, h.fits, fun {j q} hj => ?_⟩, fun hji hj => ?_, ?_⟩
  · by_cases hqp : q = p
    · subst hqp
      obtain ⟨cs, hlen, hat⟩ := h.full hj
      have hle : x + block.length ≤ cs.length := by omega
      exact ⟨_, (length_splice hle).trans hlen, hat.write_within hwrite hle (htotal hlen)⟩
    · exact (h.full hj).put ht hput (hx.trans hfits) hqp
  · refine hj.put ht h.fits hput (hx.trans hfits) fun hjp => hji ?_
    exact h.placement.inj hjp hp
  · rintro old ⟨q, hq, hlen, hat⟩
    obtain rfl : p = q := Option.some.inj (hp.symm.trans hq)
    have hle : x + block.length ≤ old.length := by omega
    refine ⟨p, hp, (length_splice hle).trans hlen, hat.write_within hwrite hle ?_⟩
    rw [h.total, hlen]
    exact (Nat.add_le_add_left hfits _).trans (ht.add_piecelen_le p)

/-- What is found out about the piece to which a block belongs, whose bytes are now `bs` -/
inductive Verdict (t : Torrent n) (sw : StorageWrapper σ n) (fl : List (Request n)) (i : Fin n) (bs : Bytes)
    (sw' : StorageWrapper σ n) : Bool → List Callback → Prop
  | part : sw.inactiveRequests i ≠ .list [] ∨ inflight fl i ≠ [] → sw'.inactiveRequests = sw.inactiveRequests →
    sw'.have_ = sw.have_ → Verdict t sw fl i bs sw' true []
  | right : sw.inactiveRequests i = .list [] → inflight fl i = [] → t.sha bs = t.hashes i →
    sw'.inactiveRequests = update sw.inactiveRequests i .none → sw'.have_ = update sw.have_ i true →
    Verdict t sw fl i bs sw' true (if sw'.amountLeft = 0 then [.finished] else [])
  | wrong : sw.inactiveRequests i = .list [] → inflight fl i = [] → t.sha bs ≠ t.hashes i →
    sw'.inactiveRequests = update sw.inactiveRequests i .unmade → sw'.have_ = sw.have_ →
    Verdict t sw fl i bs sw' false [.dataFlunked (t.piecelen i)]

structure Arrived (b : Backing σ) (t : Torrent n) (sw : StorageWrapper σ n) (fl : List (Request n)) (i : Fin n)
    (x : Nat) (block : Bytes) (v : Bool) (calls : List Callback) (sw' : StorageWrapper σ n) : Prop where
  sound : Sound b t sw' fl
  kept : ∀ {j bs}, j ≠ i → Holds b t sw.storage sw.places j bs → Holds b t sw'.storage sw'.places j bs
  written : ∃ old, old.length = t.piecelen i ∧ (∀ {bs}, Holds b t sw.storage sw.places i bs → bs = old) ∧
    Holds b t sw'.storage sw'.places i (splice old x block) ∧ Verdict t sw fl i (splice old x block) sw' v calls
  endgame : sw'.endgame = sw.endgame
  waschecked : ∀ j, sw.waschecked j = true → sw'.waschecked j = true

theorem missing_update {have_ : Fin n → Bool} (hi : have_ i = false) :
    missing t (update have_ i true) = missing t have_ - t.piecelen i := by
  have hsum := sum_update (fun i have_ => if have_ = true then 0 else (t.piecelen i : Int)) have_ i true
  rw [missing, hsum, if_pos rfl, hi, if_neg Bool.false_ne_true, missing]
  omega

/-- A block of one piece has arrived. -/
theorem Sound.arrived {r : Nat × Nat} (h : Sound b t sw ((i, r) :: fl)) (harranged : Arranged b t sw'.storage sw'.places)
    (hholes : Holes sw'.places sw'.holes)
    (hkept : ∀ {j bs}, j ≠ i → Holds b t sw.storage sw.places j bs → Holds b t sw'.storage sw'.places j bs)
    {q : Requests} {numactive : Int} (hrequests : sw'.inactiveRequests = update sw.inactiveRequests i q)
    (hnumactive : sw'.numactive = update sw.numactive i numactive)
    (haccounted : Accounted (blocks t i) q numactive (inflight fl i))
    (hhave : ∀ j, j ≠ i → sw'.have_ j = sw.have_ j) (hwaschecked : ∀ j, j ≠ i → sw'.waschecked j = sw.waschecked j)
    (hi : sw'.have_ i = true ↔ q = .none)
    (hverified : sw'.have_ i = true → ∃ bs, Holds b t sw'.storage sw'.places i bs ∧ t.sha bs = t.hashes i)
    (hleft : sw'.amountLeft = missing t sw'.have_)
    (hamount : sw'.amountInactive = sw.amountInactive - inactiveAmount t i (sw.inactiveRequests i) +
      inactiveAmount t i q) : Sound b t sw' fl where
  arranged := harranged
  holes := hholes
  accounted j := by
    rw [hrequests, hnumactive]
    by_cases hji : j = i
    · subst hji
      rw [update_self, update_self]
      exact haccounted
    · rw [update_of_ne hji, update_of_ne hji, ← inflight_cons_of_ne (Ne.symm hji) fl r]
      exact h.accounted j
  have_iff j := by
    rw [hrequests]
    by_cases hji : j = i
    · subst hji
      rw [update_self]
      exact hi
    · rw [update_of_ne hji, hhave j hji]
      exact h.have_iff j
  verified j hj := by
    by_cases hji : j = i
    · subst hji
      obtain ⟨bs, hbs, hsha⟩ := hverified hj
      exact ⟨bs, hbs, fun _ => hsha⟩
    · obtain ⟨bs, hbs, hsha⟩ := h.verified j (hhave j hji ▸ hj)
      exact ⟨bs, hkept hji hbs, fun hw => hsha (hwaschecked j hji ▸ hw)⟩
  amountLeft := hleft
  amountInactive := by rw [hamount, h.amountInactive, hrequests, inactive_update]

theorem pieceCameIn_ok (ht : t.Sized) {x : Nat} {block : Bytes} {v : Bool} {calls : List Callback}
    (h : Sound b t sw ((i, x, block.length) :: fl)) (hok : pieceCameIn b t i x block sw = .ok (v, calls, sw')) :
    Arrived b t sw fl i x block v calls sw' := by
  rw [pieceCameIn] at hok
  obtain ⟨sw₁, hensure, hok⟩ := bind_eq_ok hok
  obtain ⟨s₁, places, holes, rfl, harranged, hholes, ⟨p, hp⟩, hholds⟩ := ensurePlace_ok ht h hensure
  have haccounted := h.accounted i
  rw [inflight_cons_self] at haccounted
  obtain ⟨rs, hrs, hnum, hsub⟩ := haccounted.exists_list
  rw [hrs] at haccounted
  have hbound : x + block.length ≤ t.piecelen i :=
    ((blocks_tiling ht i).bounds (hsub.subset (List.mem_append_right _ List.mem_cons_self))).2.2
  have hnum' : sw.numactive i - 1 = (inflight fl i).length := by
    rw [hnum, List.length_cons]
    omega
  have hhave : sw.have_ i = false := by
    rw [← Bool.not_eq_true, h.have_iff, hrs]
    simp
  rw [arrive] at hok
  simp only [hp] at hok
  obtain ⟨s', hput, hok⟩ := bind_eq_ok hok
  rw [Nat.mul_comm] at hput
  obtain ⟨old, hold⟩ := harranged.exists_holds hp
  obtain ⟨harranged', hkept, hself⟩ := put_block ht harranged hp hput hbound
  have hspliced := hself hold
  have hold' : ∀ {bs}, Holds b t sw.storage sw.places i bs → bs = old := fun hbs => (hholds hbs).unique hold
  have hkept' : ∀ {j bs}, j ≠ i → Holds b t sw.storage sw.places j bs → Holds b t s' places j bs :=
    fun hji hj => hkept hji (hholds hj)
  have holdlen : old.length = t.piecelen i := by
    obtain ⟨_, _, hlen, _⟩ := hold
    exact hlen
  simp only [doIHaveRequests, hrs, Requests.truthy, Bool.not_not, update_self, hnum'] at hok
  split at hok
  · next hcond =>
    rw [Bool.and_eq_true, List.isEmpty_iff, decide_eq_true_iff, Int.natCast_eq_zero, List.length_eq_zero_iff] at hcond
    obtain ⟨rfl, hfl⟩ := hcond
    obtain ⟨data, hget, hok⟩ := bind_eq_ok hok
    have hdata : data = splice old x block := by
      obtain ⟨p', hp', hlen, hat⟩ := hspliced
      obtain rfl : p = p' := Option.some.inj (hp.symm.trans hp')
      refine hat.read (by rw [hlen]; exact catchIOError_ok hget) ?_
      rw [harranged'.total, hlen]
      exact (Nat.add_le_add_left (harranged.fits hp) _).trans (ht.add_piecelen_le p)
    subst hdata
    split at hok
    · next hsha =>
      cases hok
      have hleft : sw.amountLeft - t.piecelen i = missing t (update sw.have_ i true) := by
        rw [h.amountLeft, missing_update hhave]
      refine ⟨?_, hkept', ⟨old, holdlen, hold', hspliced, .right hrs hfl hsha rfl rfl⟩, rfl, fun j hj => ?_⟩
      refine h.arrived harranged' hholes hkept' rfl rfl (q := .none) ?_ (fun j hji => update_of_ne hji ..)
        (fun j hji => update_of_ne hji ..) ?_ (fun _ => ⟨_, hspliced, hsha⟩) hleft ?_
      · rw [hfl]
        exact .none
      · simp
      · rw [hrs]
        simp [inactiveAmount]
      · by_cases hji : j = i
        · subst hji
          exact update_self ..
        · exact (update_of_ne hji ..).trans hj
    · next hsha =>
      cases hok
      refine ⟨?_, hkept', ⟨old, holdlen, hold', hspliced, .wrong hrs hfl hsha rfl rfl⟩, rfl, fun _ => id⟩
      refine h.arrived harranged' hholes hkept' rfl rfl (q := .unmade) ?_ (fun _ _ => rfl) (fun _ _ => rfl) ?_ ?_
        h.amountLeft ?_
      · rw [hfl]
        exact .unmade
      · simp [hhave]
      · intro hi
        rw [hhave] at hi
        cases hi
      · rw [hrs]
        simp [inactiveAmount]
  · next hcond =>
    rw [Bool.and_eq_true, List.isEmpty_iff, decide_eq_true_iff, Int.natCast_eq_zero, List.length_eq_zero_iff,
      not_and_or] at hcond
    cases hok
    have hpart : sw.inactiveRequests i ≠ .list [] ∨ inflight fl i ≠ [] := by
      refine hcond.imp_left fun hne heq => hne ?_
      rw [hrs] at heq
      exact Requests.list.inj heq
    refine ⟨?_, hkept', ⟨old, holdlen, hold', hspliced, .part hpart rfl rfl⟩, rfl, fun _ => id⟩
    refine h.arrived harranged' hholes hkept' (q := .list rs) ?_ rfl (hnum' ▸ haccounted.arrive hcond) (fun _ _ => rfl)
      (fun _ _ => rfl) ?_ ?_ h.amountLeft ?_
    · rw [← hrs, Function.update_eq_self]
    · simp [hhave]
    · intro hi
      rw [hhave] at hi
      cases hi
    · rw [hrs]
      dsimp only
      omega

end Swinst.BitTorrent
