import Swinst.BitTorrent.Handlers

/-! What a block that comes in changes, in the normal course and in the endgame. -/

namespace Swinst.BitTorrent

open Function (update update_self update_of_ne)
open StorageWrapper (newRequest requestLost pieceCameIn blocks blocks_tiling)

variable {σ : Type} {n : Nat} {b : Backing σ} {t : Torrent n} {sw₀ : StorageWrapper σ n} {fl : List (Request n)}

theorem Peer.Ok.erase {backlog : Nat} {p : Peer n} (h : p.Ok backlog) (r : Request n) :
    Peer.Ok backlog { p with activeRequests := p.activeRequests.erase r } where
  choked hc := by simp [h.choked hc]
  backlog := List.length_erase_le.trans h.backlog
  interested hne := h.interested fun hnil => hne (by simp [hnil])
  have_ r' hr' := h.have_ r' (List.mem_of_mem_erase hr')
  nodup := h.nodup.erase r

namespace Downloader

variable {d d' : Downloader σ n} {id other : Nat} {p p' : Peer n} {index : Fin n} {r : Request n} {begin : Nat}
  {piece : Bytes}

/-! ## The other peers in the endgame -/

theorem cancelAt_ok (id : Nat) (hp : (d.peers other).Ok d.backlog) (hnodup : d.allRequests.Nodup) (hr : r ∉ d.allRequests)
    (hid : other = id → r ∉ (d.peers other).activeRequests) :
    ∃ p, OnlyPeer other p d (cancelAt id r d other) ∧ p.Ok d.backlog ∧ r ∉ p.activeRequests ∧
      ∀ r' ∈ p.activeRequests, r' ∈ (d.peers other).activeRequests ∨ r' ∈ d.allRequests := by
  have hsame : r ∉ (d.peers other).activeRequests → ∃ p, OnlyPeer other p d d ∧ p.Ok d.backlog ∧ r ∉ p.activeRequests ∧
      ∀ r' ∈ p.activeRequests, r' ∈ (d.peers other).activeRequests ∨ r' ∈ d.allRequests :=
    fun h => ⟨_, .refl other d, hp, h, fun _ => .inl⟩
  rw [cancelAt]
  split
  · split
    · next hchoked =>
      obtain ⟨p, honly, hok, hactive⟩ := fix_ok hp hnodup
      refine ⟨p, honly, hok, fun hmem => ?_, hactive⟩
      rcases hactive r hmem with hmem | hmem
      · rw [hp.choked hchoked] at hmem
        cases hmem
      · exact hr hmem
    · split
      · generalize hd₁ : send other (.cancel r) (dropRequest other r d) = d₁
        have honly₁ : OnlyPeer other { d.peers other with activeRequests := (d.peers other).activeRequests.erase r } d d₁ := by
          rw [← hd₁]
          exact ⟨⟨rfl, rfl, rfl, rfl, rfl, rfl, rfl, rfl⟩, rfl⟩
        have hp₁ : (d₁.peers other).Ok d₁.backlog := by
          rw [honly₁.self, honly₁.backlog]
          exact hp.erase r
        obtain ⟨p, honly, hok, hactive⟩ := fix_ok hp₁ (honly₁.allRequests ▸ hnodup)
        rw [honly₁.self, honly₁.allRequests] at hactive
        refine ⟨p, honly₁.trans honly, honly₁.backlog ▸ hok, fun hmem => ?_, fun r' hr' => ?_⟩
        · rcases hactive r hmem with hmem | hmem
          · exact hp.nodup.not_mem_erase hmem
          · exact hr hmem
        · exact (hactive r' hr').imp_left List.mem_of_mem_erase
      · next hnot => exact hsame hnot
  · next hnot =>
    refine hsame fun hmem => ?_
    by_cases heq : other = id
    · exact hid heq hmem
    · exact hnot ⟨heq, hp.interested (List.ne_nil_of_mem hmem)⟩

theorem cancelAll_ok (hbase : Base b t sw₀ d fl) (hperm : fl.Perm d.allRequests) (hnodup : d.allRequests.Nodup)
    (hr : r ∉ d.allRequests) (hid : r ∉ (d.peers id).activeRequests)
    (hsubset : ∀ other ∈ d.downloads, (d.peers other).activeRequests ⊆ r :: d.allRequests) :
    ∃ d', d.downloads.foldl (cancelAt id r) d = d' ∧ Base b t sw₀ d' fl ∧ Pooled d' fl ∧ Kept d d' ∧
      d'.storage = d.storage := by
  refine ⟨_, rfl, ?_⟩
  have hdone := Loops.foldl_done (l := d.downloads) (f := cancelAt id r) (s := d) (fun done d' =>
      Base b t sw₀ d' fl ∧ Kept d d' ∧ d'.storage = d.storage ∧ d'.allRequests = d.allRequests ∧
        (∀ other ∈ d.downloads, (d'.peers other).activeRequests ⊆ r :: d.allRequests) ∧
        ∀ other ∈ d.downloads, other = id ∨ other ∈ done → r ∉ (d'.peers other).activeRequests)
    (fun done other rest d₁ hl h₁ => ?_) ⟨hbase, .refl d, rfl, rfl, hsubset, fun other _ hother => ?_⟩
  · obtain ⟨hbase', hkept, hstorage, hall, hsubset', hnot⟩ := hdone
    refine ⟨hbase', ⟨hall ▸ hperm, fun other hother r' hr' => ?_⟩, hkept, hstorage⟩
    have hother' : other ∈ d.downloads := hkept.downloads ▸ hother
    rw [hall]
    refine (List.mem_cons.mp (hsubset' other hother' hr')).resolve_left ?_
    rintro rfl
    exact hnot other hother' (.inr hother') hr'
  · obtain ⟨hbase₁, hkept₁, hstorage₁, hall₁, hsubset₁, hnot₁⟩ := h₁
    have hmem : other ∈ d.downloads := by simp [hl]
    obtain ⟨p, honly, hp, hrp, hactive⟩ := cancelAt_ok id (hbase₁.peers other (hkept₁.downloads ▸ hmem))
      (hall₁ ▸ hnodup) (hall₁ ▸ hr) fun heq => hnot₁ other hmem (.inl heq)
    refine ⟨honly.base hbase₁ hp, hkept₁.trans honly.kept, honly.storage.trans hstorage₁,
      honly.allRequests.trans hall₁, fun other' hmem' => ?_, fun other' hmem' hdone' => ?_⟩
    · by_cases heq : other' = other
      · rw [heq, honly.self]
        intro r' hr'
        rcases hactive r' hr' with hr' | hr'
        · exact hsubset₁ other hmem hr'
        · exact List.mem_cons_of_mem _ (hall₁ ▸ hr')
      · rw [honly.of_ne heq]
        exact hsubset₁ other' hmem'
    · by_cases heq : other' = other
      · rw [heq, honly.self]
        exact hrp
      · rw [honly.of_ne heq]
        refine hnot₁ other' hmem' (hdone'.imp_right fun hdone' => ?_)
        exact (List.mem_append.mp hdone').resolve_right fun h => heq (List.mem_singleton.mp h)
  · rcases hother with rfl | hother
    · exact hid
    · cases hother

/-! ## A piece that is rejected -/

/-- The blocks of a piece that are still to be requested, where none has come in -/
def Left (t : Torrent n) (sw : StorageWrapper σ n) (fl : List (Request n)) (i : Fin n) (rs : List (Nat × Nat)) : Prop :=
  (sw.inactiveRequests i = .unmade ∧ rs = blocks t i ∨ sw.inactiveRequests i = .list rs) ∧
    (rs ++ inflight fl i).Perm (blocks t i)

section

variable (ht : t.Sized) (hstart : Sound b t sw₀ [])

include ht hstart

theorem requestAgain_ok {turns : Nat} {rs : List (Nat × Nat)} (hbase : Base b t sw₀ d fl)
    (hperm : fl.Perm d.allRequests) (hleft : Left t d.storage fl index rs) (hturns : rs.length ≤ turns) :
    ∃ d' fl', requestAgain t index turns d = .ok d' ∧ Base b t sw₀ d' fl' ∧ fl'.Perm d'.allRequests ∧ Kept d d' ∧
      d'.peers = d.peers ∧ d.allRequests ⊆ d'.allRequests ∧ ∀ x ∈ blocks t index, (index, x) ∈ d'.allRequests := by
  induction turns generalizing d fl rs with
  | zero =>
    obtain rfl : rs = [] := List.length_eq_zero_iff.mp (Nat.le_zero.mp hturns)
    refine ⟨d, fl, rfl, hbase, hperm, .refl d, rfl, List.Subset.refl _, fun x hx => ?_⟩
    exact hperm.subset (mem_inflight.mp (hleft.2.symm.subset hx))
  | succ turns ih =>
    rw [requestAgain]
    split
    · next hrequests =>
      obtain ⟨r, sw', hok, hrequested⟩ := newRequest_ok ht (hbase.sound ht hstart) hrequests
      rw [hok, bind_ok]
      dsimp only
      obtain ⟨rs', hrs', hmem, hrequests'⟩ := hrequested.requests
      obtain rfl : rs = rs' := by
        rcases hleft.1 with ⟨hunmade, rfl⟩ | hlist
        · rcases hrs' with ⟨-, rfl⟩ | hlist'
          · rfl
          · rw [hunmade] at hlist'
            cases hlist'
        · rcases hrs' with ⟨hunmade, -⟩ | hlist'
          · rw [hunmade] at hlist
            cases hlist
          · exact Requests.list.inj (hlist.symm.trans hlist')
      have hbase' : Base b t sw₀ { d with storage := sw', allRequests := d.allRequests ++ [(index, r)] }
          ((index, r) :: fl) :=
        hbase.of_same rfl (fun _ => rfl) hrequested.data.have_ rfl (hbase.reached.requested hrequests hok) hbase.peers
          hbase.picker
      have hleft' : Left t sw' ((index, r) :: fl) index (rs.erase r) := by
        refine ⟨.inr (by rw [hrequests', update_self]), ?_⟩
        rw [inflight_cons_self]
        exact (List.perm_middle.trans ((List.perm_cons_erase hmem).symm.append_right _)).trans hleft.2
      have hkept : Kept d { d with storage := sw', allRequests := d.allRequests ++ [(index, r)] } :=
        ⟨rfl, rfl, fun _ => rfl, fun _ => rfl, hrequested.data.have_, rfl, fun h => hrequested.endgame.mpr (.inl h)⟩
      obtain ⟨d', fl', hagain, hbase'', hperm', hkept', hpeers, hsub, hblocks⟩ := ih hbase'
        ((hperm.cons _).trans (List.perm_append_singleton _ _).symm) hleft' (by
          rw [List.length_erase_of_mem hmem]
          omega)
      exact ⟨d', fl', hagain, hbase'', hperm', hkept.trans hkept', hpeers,
        List.Subset.trans (List.subset_append_left _ _) hsub, hblocks⟩
    · next hnone =>
      refine ⟨d, fl, rfl, hbase, hperm, .refl d, rfl, List.Subset.refl _, fun x hx => ?_⟩
      obtain rfl : rs = [] := by
        rw [Bool.not_eq_true, StorageWrapper.doIHaveRequests] at hnone
        rcases hleft.1 with ⟨hunmade, -⟩ | hlist
        · rw [hunmade] at hnone
          cases hnone
        · rw [hlist] at hnone
          simpa [Requests.truthy] using hnone
      exact hperm.subset (mem_inflight.mp (hleft.2.symm.subset hx))

theorem rejected_ok (hbase : Base b t sw₀ d fl) (hleft : Left t d.storage fl index (blocks t index))
    (hmissing : d.storage.have_ index = false) {x : Nat × Nat} (hx : x ∈ blocks t index)
    (hrequests : if d.storage.endgame then fl.Perm d.allRequests ∧
        ∀ other ∈ d.downloads, (d.peers other).activeRequests ⊆ (index, x) :: d.allRequests
      else Spread d fl) :
    ∃ d', rejected t index d = .ok d' ∧ Ok b t sw₀ d' ∧ d'.downloads = d.downloads := by
  rw [rejected]
  split
  · next hendgame =>
    rw [if_pos hendgame] at hrequests
    obtain ⟨hperm, hsubset⟩ := hrequests
    obtain ⟨d₁, fl₁, hagain, hbase₁, hperm₁, hkept₁, hpeers₁, hsub₁, hblocks⟩ :=
      requestAgain_ok ht hstart hbase hperm hleft (Nat.le_refl _)
    -- what was taken off the list is on it again
    have hpooled : Pooled d₁ fl₁ := by
      refine ⟨hperm₁, fun other hmem r hr => ?_⟩
      rw [hpeers₁] at hr
      rcases List.mem_cons.mp (hsubset other (hkept₁.downloads ▸ hmem) hr) with rfl | hr
      · exact hblocks x hx
      · exact hsub₁ hr
    rw [hagain, bind_ok]
    obtain ⟨d', hd', hbase', hpooled', hkept', hstorage⟩ := fixAll_pooled ht hstart hbase₁ hpooled
    refine ⟨d', congrArg _ hd', ⟨fl₁, hbase', ?_⟩, hkept'.downloads.trans hkept₁.downloads⟩
    rw [hstorage, hkept₁.endgame hendgame, if_pos rfl]
    exact hpooled'
  · next hendgame =>
    rw [if_neg hendgame] at hrequests
    have hnum := hbase.numinterests index
    rw [hmissing, if_neg Bool.false_ne_true] at hnum
    obtain ⟨picker, hbump⟩ := PiecePicker.exists_bump hnum
    obtain ⟨hpicker, -, hsame⟩ := PiecePicker.bump_ok hbase.picker hbump
    have hok : Ok b t sw₀ { d with picker } := by
      refine ⟨fl, hbase.of_same rfl (fun _ => rfl) rfl hsame hbase.reached hbase.peers hpicker, ?_⟩
      rw [if_neg hendgame]
      exact hrequests
    rw [hbump, raising, bind_ok]
    obtain ⟨d', hok', h', hkept⟩ := requestMoreOfAll_ok ht hstart hok [index]
    exact ⟨d', hok', h', hkept.downloads⟩

/-! ## A block that is good so far -/

theorem closeSeeds_ok (h : Ok b t sw₀ d) :
    ∃ d', closeSeeds t d = .ok d' ∧ Ok b t sw₀ d' ∧ d'.downloads ⊆ d.downloads := by
  rw [closeSeeds]
  split
  · refine Loops.foldlM_of_mem (P := fun d' => Ok b t sw₀ d' ∧ d'.downloads ⊆ d.downloads) (fun id _ d₁ h₁ => ?_)
      ⟨h, List.Subset.refl _⟩
    obtain ⟨d', hok, h', hsub⟩ := close_ok ht hstart h₁.1 id
    exact ⟨d', hok, h', List.Subset.trans hsub h₁.2⟩
  · exact ⟨d, rfl, h, List.Subset.refl _⟩

theorem accepted_ok {d₁ : Downloader σ n} (hcomplete : completePiece r.1 d = .ok d₁) (hbase : Base b t sw₀ d₁ fl)
    (hid : id ∈ d₁.downloads) (hchoked : (d₁.peers id).choked = false) (hr : r ∉ (d₁.peers id).activeRequests)
    (hrequests : if d₁.storage.endgame then fl.Perm d₁.allRequests ∧ r ∉ d₁.allRequests ∧
        ∀ other ∈ d₁.downloads, (d₁.peers other).activeRequests ⊆ r :: d₁.allRequests
      else Spread d₁ fl) :
    ∃ v d', accepted t id r d = .ok (v, d') ∧ Ok b t sw₀ d' ∧ d'.downloads ⊆ d₁.downloads := by
  obtain ⟨d₂, hd₂, hok₂, hkept₂⟩ : ∃ d₂, (if d₁.storage.endgame = true then d₁.downloads.foldl (cancelAt id r) d₁
      else d₁) = d₂ ∧ Ok b t sw₀ d₂ ∧ Kept d₁ d₂ := by
    split
    · next hendgame =>
      rw [if_pos hendgame] at hrequests
      obtain ⟨hperm, hnot, hsubset⟩ := hrequests
      have hnodup := hperm.nodup_iff.mp ((hbase.sound ht hstart).nodup ht)
      obtain ⟨d₂, hd₂, hbase₂, hpooled₂, hkept₂, hstorage₂⟩ := cancelAll_ok hbase hperm hnodup hnot hr hsubset
      refine ⟨d₂, hd₂, ⟨fl, hbase₂, ?_⟩, hkept₂⟩
      rwa [hstorage₂, if_pos hendgame]
    · next hendgame =>
      rw [if_neg hendgame] at hrequests
      exact ⟨d₁, rfl, ⟨fl, hbase, by rwa [if_neg hendgame]⟩, .refl d₁⟩
  obtain ⟨d₃, hd₃, hok₃, hkept₃⟩ := requestMore_ok ht hstart hok₂ (hkept₂.downloads ▸ hid)
    ((hkept₂.choked id).trans hchoked) none
  obtain ⟨d₄, hd₄, hok₄, hsub₄⟩ := closeSeeds_ok ht hstart hok₃
  refine ⟨d₄.storage.have_ r.1, d₄, ?_, hok₄, ?_⟩
  · rw [accepted, hcomplete, bind_ok]
    dsimp only
    rw [hd₂, hd₃, bind_ok, hd₄, bind_ok]
    rfl
  · rw [hkept₃.downloads, hkept₂.downloads] at hsub₄
    exact hsub₄

/-! ## `got_piece` -/

theorem takeRequest_ok (h : Ok b t sw₀ d) (hid : id ∈ d.downloads) (hr : r ∈ (d.peers id).activeRequests) :
    ∃ d₁ fl, takeRequest id r d = .ok d₁ ∧ Base b t sw₀ d₁ (r :: fl) ∧ d₁.downloads = d.downloads ∧
      (d₁.peers id).choked = false ∧ r ∉ (d₁.peers id).activeRequests ∧
      if d₁.storage.endgame then fl.Perm d₁.allRequests ∧ r ∉ d₁.allRequests ∧
        ∀ other ∈ d₁.downloads, (d₁.peers other).activeRequests ⊆ r :: d₁.allRequests
      else Spread d₁ fl := by
  obtain ⟨fl, hbase, hrequests⟩ := h
  have hp := hbase.peers id hid
  have hchoked : (d.peers id).choked = false := by
    rw [← Bool.not_eq_true]
    intro hchoked
    rw [hp.choked hchoked] at hr
    cases hr
  have hset : SetPeer id { d.peers id with activeRequests := (d.peers id).activeRequests.erase r } d (dropRequest id r d) :=
    setPeer_ok rfl
  generalize hd₁ : dropRequest id r d = d₁ at hset
  have hbase₁ := hset.base hbase (hp.erase r)
  have hself : (d₁.peers id).choked = false ∧ r ∉ (d₁.peers id).activeRequests := by
    rw [hset.self]
    exact ⟨hchoked, hp.nodup.not_mem_erase⟩
  rw [takeRequest, hd₁]
  split
  · next hendgame =>
    rw [if_pos hendgame] at hrequests
    have hall : r ∈ d.allRequests := hrequests.subset id hid hr
    have hperm : fl.Perm (r :: d.allRequests.erase r) := hrequests.perm.trans (List.perm_cons_erase hall)
    have hnodup := hrequests.perm.nodup_iff.mp ((hbase.sound ht hstart).nodup ht)
    rw [if_pos hall]
    refine ⟨_, d.allRequests.erase r, rfl, { hbase₁ with reached := hbase₁.reached.perm hperm }, hset.downloads,
      hself.1, hself.2, ?_⟩
    rw [hset.storage, if_pos hendgame]
    refine ⟨.refl _, hnodup.not_mem_erase, fun other hmem r' hr' => ?_⟩
    have hr'' : r' ∈ (d.peers other).activeRequests := by
      by_cases heq : other = id
      · dsimp only at hr'
        rw [heq, hset.self] at hr'
        exact heq ▸ List.mem_of_mem_erase hr'
      · dsimp only at hr'
        rwa [hset.of_ne heq] at hr'
    have hmem' : other ∈ d.downloads := hset.downloads ▸ hmem
    exact (List.perm_cons_erase hall).subset (hrequests.subset other hmem' hr'')
  · next hendgame =>
    rw [if_neg hendgame] at hrequests
    have hperm : fl.Perm (r :: ((d₁.peers id).activeRequests ++ others d₁ id)) := by
      rw [hset.self, others_congr hbase.nodup hset.downloads fun other hne => by rw [hset.of_ne hne],
        ← List.cons_append]
      exact ((spread_iff hid).mp hrequests).trans ((List.perm_cons_erase hr).append_right _)
    refine ⟨d₁, _, rfl, { hbase₁ with reached := hbase₁.reached.perm hperm }, hset.downloads, hself.1, hself.2, ?_⟩
    rw [hset.storage, if_neg hendgame]
    exact (spread_iff (hset.downloads ▸ hid)).mpr (.refl _)

variable (hb : b.Reliable) (hchecked : ∀ i, sw₀.waschecked i = true)

include hb hchecked

/-- What the storage makes of a block that was requested: it is good so far, or its piece is rejected. -/
theorem cameIn_ok (hbase : Base b t sw₀ d ((index, begin, piece.length) :: fl)) :
    ∃ v calls sw, pieceCameIn b t index begin piece d.storage = .ok (v, calls, sw) ∧ sw.endgame = d.storage.endgame ∧
      (v = true → ∃ picker, completePiece index { d with storage := sw, calls := d.calls ++ calls } =
          .ok { d with storage := sw, calls := d.calls ++ calls, picker } ∧
        Base b t sw₀ { d with storage := sw, calls := d.calls ++ calls, picker } fl) ∧
      (v = false → Base b t sw₀ { d with storage := sw, calls := d.calls ++ calls } fl ∧ sw.have_ index = false ∧
        Left t sw fl index (blocks t index)) := by
  have hsound := hbase.sound ht hstart
  obtain ⟨v, calls, sw, hok⟩ :=
    pieceCameIn_reliable hb ht hsound (hbase.reached.checked ht hstart hchecked)
  have harrived := pieceCameIn_ok ht hsound hok
  have hreached : Reached b t sw₀ sw (d.calls ++ calls) fl := hbase.reached.cameIn hok
  have hmissing : d.storage.have_ index = false := by
    have haccounted := hsound.accounted index
    rw [inflight_cons_self] at haccounted
    obtain ⟨rs, hrs, -, -⟩ := haccounted.exists_list
    rw [← Bool.not_eq_true, hsound.have_iff, hrs]
    simp
  obtain ⟨old, -, -, -, hverdict⟩ := harrived.written
  refine ⟨v, calls, sw, hok, harrived.endgame, fun hv => ?_, fun hv => ?_⟩
  · cases hverdict with
    | part _ _ hhave =>
      refine ⟨d.picker, ?_, hbase.of_same rfl (fun _ => rfl) hhave rfl hreached hbase.peers hbase.picker⟩
      rw [completePiece]
      dsimp only
      rw [hhave, hmissing, if_neg Bool.false_ne_true]
    | right _ _ _ _ hhave =>
      have hnum := hbase.numinterests index
      rw [hmissing, if_neg Bool.false_ne_true] at hnum
      obtain ⟨picker, hcomplete⟩ := PiecePicker.exists_complete hnum
      obtain ⟨hpicker, -, hnum', -⟩ := PiecePicker.complete_ok hbase.picker hcomplete
      refine ⟨picker, ?_, hreached, hbase.nodup, hbase.few, hbase.peers, hpicker, fun i => ?_⟩
      · rw [completePiece]
        dsimp only
        rw [hhave, update_self, if_pos rfl, hcomplete]
        rfl
      · dsimp only
        rw [hnum', hhave]
        by_cases hi : i = index
        · rw [hi, update_self, update_self, if_pos rfl]
        · rw [update_of_ne hi, update_of_ne hi, hbase.numinterests]
    | wrong => cases hv
  · cases hverdict with
    | part => cases hv
    | right => cases hv
    | wrong _ hfl _ hrequests hhave =>
      refine ⟨hbase.of_same rfl (fun _ => rfl) hhave rfl hreached hbase.peers hbase.picker, by rw [hhave, hmissing],
        .inl ⟨by rw [hrequests, update_self], rfl⟩, ?_⟩
      rw [hfl, List.append_nil]

theorem gotPiece_ok (h : Ok b t sw₀ d) (hid : id ∈ d.downloads) (index : Fin n) (begin : Nat) (piece : Bytes) :
    ∃ v d', gotPiece b t id index begin piece d = .ok (v, d') ∧ Ok b t sw₀ d' ∧ d'.downloads ⊆ d.downloads := by
  rw [gotPiece]
  dsimp only
  split
  · next hmem =>
    obtain ⟨d₁, fl, htake, hbase, hdownloads, hchoked, hr, hrequests⟩ := takeRequest_ok ht hstart h hid hmem
    have hid₁ : id ∈ d₁.downloads := hdownloads ▸ hid
    obtain ⟨v, calls, sw, hcame, hendgame, hgood, hbad⟩ := cameIn_ok ht hstart hb hchecked hbase
    have hx : (begin, piece.length) ∈ blocks t index := by
      have haccounted := (hbase.sound ht hstart).accounted index
      rw [inflight_cons_self] at haccounted
      obtain ⟨rs, -, -, hsub⟩ := haccounted.exists_list
      exact hsub.subset (List.mem_append_right _ List.mem_cons_self)
    rw [htake, bind_ok, hcame, bind_ok, ← hdownloads]
    dsimp only
    rw [← hendgame] at hrequests
    cases v with
    | true =>
      obtain ⟨picker, hcomplete, hbase₂⟩ := hgood rfl
      obtain ⟨v, d', hok, h', hsub⟩ := accepted_ok ht hstart hcomplete hbase₂ hid₁ hchoked hr hrequests
      exact ⟨v, d', by rw [if_pos rfl, hok], h', hsub⟩
    | false =>
      obtain ⟨hbase₂, hmissing, hleft⟩ := hbad rfl
      obtain ⟨d', hok, h', hdownloads'⟩ := rejected_ok ht hstart hbase₂ hleft hmissing hx (by
        split
        · next hend =>
          have hend' : sw.endgame = true := hend
          rw [if_pos hend'] at hrequests
          exact ⟨hrequests.1, hrequests.2.2⟩
        · next hend =>
          have hend' : ¬ sw.endgame = true := hend
          rw [if_neg hend'] at hrequests
          exact hrequests)
      refine ⟨false, d', ?_, h', hdownloads' ▸ List.Subset.refl _⟩
      rw [if_neg Bool.false_ne_true, hok, bind_ok]
      rfl
  · exact ⟨_, d, rfl, h, List.Subset.refl _⟩

end

end Downloader

end Swinst.BitTorrent
