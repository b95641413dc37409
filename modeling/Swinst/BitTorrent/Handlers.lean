import Swinst.BitTorrent.Outstanding

/-! What the handlers of messages keep. -/

namespace Swinst.BitTorrent

open Function (update update_self update_of_ne)
open StorageWrapper (newRequest requestLost pieceCameIn blocks blocks_tiling)

variable {σ : Type} {n : Nat} {b : Backing σ} {t : Torrent n} {sw₀ : StorageWrapper σ n} {fl : List (Request n)}

namespace Downloader

variable {d d' : Downloader σ n} {id other : Nat} {p p' : Peer n} {i : Fin n}

theorem Ok.of_setPeer (h : Ok b t sw₀ d) (hset : SetPeer id p d d') (hp : p.Ok d.backlog)
    (hactive : p.activeRequests = (d.peers id).activeRequests) (hid : id ∈ d.downloads) : Ok b t sw₀ d' := by
  obtain ⟨fl, hbase, hrequests⟩ := h
  refine ⟨fl, hset.base hbase hp, ?_⟩
  rw [hset.storage]
  split
  · next hendgame =>
    rw [if_pos hendgame] at hrequests
    exact hset.pooled (hactive ▸ hrequests.subset id hid) hrequests
  · next hendgame =>
    rw [if_neg hendgame] at hrequests
    exact hset.spread hactive hrequests

theorem Ok.peer (h : Ok b t sw₀ d) (hid : id ∈ d.downloads) : (d.peers id).Ok d.backlog := by
  obtain ⟨fl, hbase, -⟩ := h
  exact hbase.peers id hid

theorem Ok.interest (h : Ok b t sw₀ d) (hid : id ∈ d.downloads) : Ok b t sw₀ (interest id d) := by
  have hp := h.peer hid
  exact h.of_setPeer (onlyPeer_interest id d).toSetPeer ⟨hp.choked, hp.backlog, fun _ => rfl, hp.have_, hp.nodup⟩ rfl hid

theorem Ok.random (h : Ok b t sw₀ d) (g : Random) : Ok b t sw₀ { d with random := g } := by
  obtain ⟨fl, hbase, hrequests⟩ := h
  refine ⟨fl, { hbase with }, ?_⟩
  split
  · next hendgame =>
    rw [if_pos hendgame] at hrequests
    exact { hrequests with }
  · next hendgame =>
    rw [if_neg hendgame] at hrequests
    exact hrequests

theorem regainInterest_ok (h : Ok b t sw₀ d) (hid : id ∈ d.downloads) (lost : List (Fin n)) :
    Ok b t sw₀ (regainInterest lost d id) ∧ Kept d (regainInterest lost d id) := by
  rw [regainInterest]
  split
  · exact ⟨h.interest hid, (onlyPeer_interest id d).kept⟩
  · exact ⟨h, .refl d⟩

section

variable (ht : t.Sized) (hstart : Sound b t sw₀ [])

include ht hstart

theorem requestMoreOfAll_ok (h : Ok b t sw₀ d) (indices : List (Fin n)) :
    ∃ d', requestMoreOfAll t indices d = .ok d' ∧ Ok b t sw₀ d' ∧ Kept d d' := by
  rw [requestMoreOfAll]
  generalize hshuffle : Random.shuffle (d.downloads.filter fun id => !(d.peers id).choked) d.random = q
  obtain ⟨ds, g⟩ := q
  have hds : ∀ id ∈ ds, id ∈ d.downloads ∧ (d.peers id).choked = false := by
    intro id hid
    have hperm := Random.shuffle_perm (d.downloads.filter fun id => !(d.peers id).choked) d.random
    rw [hshuffle] at hperm
    simpa using hperm.subset hid
  have hkept : Kept d { d with random := g } := { Kept.refl d with }
  refine Loops.foldlM_of_mem (P := fun d' => Ok b t sw₀ d' ∧ Kept d d') (fun id hid d₁ h₁ => ?_) ⟨h.random g, hkept⟩
  obtain ⟨hmem, hchoked⟩ := hds id hid
  obtain ⟨d', hok, h', hkept'⟩ := requestMore_ok ht hstart h₁.1 (h₁.2.downloads ▸ hmem)
    ((h₁.2.choked id).trans hchoked) (some indices)
  exact ⟨d', hok, h', h₁.2.trans hkept'⟩

theorem loseAll_ok {rs : List (Request n)} (hbase : Base b t sw₀ d (rs ++ fl)) :
    ∃ sw, rs.foldlM (fun sw r => requestLost r.1 r.2.1 r.2.2 sw) d.storage = .ok sw ∧
      Base b t sw₀ { d with storage := sw } fl ∧ sw.have_ = d.storage.have_ ∧ sw.endgame = d.storage.endgame := by
  induction rs generalizing d with
  | nil => exact ⟨d.storage, rfl, hbase, rfl, rfl⟩
  | cons r rs ih =>
    obtain ⟨i, x, l⟩ := r
    obtain ⟨sw₁, hlost, hspec⟩ := requestLost_ok (hbase.sound ht hstart)
    have hbase₁ : Base b t sw₀ { d with storage := sw₁ } (rs ++ fl) := by
      exact hbase.of_same rfl (fun _ => rfl) hspec.data.have_ rfl (hbase.reached.lost hlost) hbase.peers hbase.picker
    obtain ⟨sw, hok, hbase', hhave, hendgame⟩ := ih hbase₁
    exact ⟨sw, by rw [List.foldlM_cons, hlost, bind_ok]; exact hok, hbase', hhave.trans hspec.data.have_,
      hendgame.trans hspec.endgame⟩

/-- `_letgo` of a peer, whether it is still among the others or not: `d₁` is what is left when it has been asked for
nothing. -/
theorem letgo_ok {d₁ : Downloader σ n} (hd₁ : setPeer id { d.peers id with activeRequests := [] } d = d₁)
    (hbase : Base b t sw₀ d₁ fl)
    (hrequests : if d.storage.endgame then Pooled d₁ fl
      else fl.Perm ((d.peers id).activeRequests ++ d₁.downloads.flatMap fun id => (d₁.peers id).activeRequests)) :
    ∃ d', letgo t id d = .ok d' ∧ Ok b t sw₀ d' ∧ Kept d₁ d' := by
  have hstorage : d₁.storage = d.storage := by
    rw [← hd₁]
    rfl
  rw [letgo]
  split
  · next hnil =>
    rw [List.isEmpty_iff] at hnil
    have hd : d₁ = d := by
      have hp : ({ d.peers id with activeRequests := [] } : Peer n) = d.peers id := by rw [← hnil]
      rw [← hd₁, hp, setPeer, Function.update_eq_self]
    rw [hd] at hbase hrequests ⊢
    refine ⟨d, rfl, ⟨fl, hbase, ?_⟩, .refl d⟩
    rwa [hnil] at hrequests
  split
  · next hendgame =>
    rw [if_pos hendgame] at hrequests
    exact ⟨d₁, by rw [hd₁], ⟨fl, hbase, by rwa [hstorage, if_pos hendgame]⟩, .refl d₁⟩
  next hendgame =>
  rw [if_neg hendgame] at hrequests
  have hbase₁ : Base b t sw₀ d₁
      ((d.peers id).activeRequests ++ d₁.downloads.flatMap fun id => (d₁.peers id).activeRequests) :=
    { hbase with reached := hbase.reached.perm hrequests }
  obtain ⟨sw, hlose, hbase₂, hhave, hendgame₂⟩ := loseAll_ok ht hstart hbase₁
  rw [hstorage] at hlose hendgame₂ hhave
  have hset : setPeer id { d.peers id with activeRequests := [] } { d with storage := sw } = { d₁ with storage := sw } := by
    rw [← hd₁]
    rfl
  have hok₂ : Ok b t sw₀ { d₁ with storage := sw } := by
    refine ⟨_, hbase₂, ?_⟩
    rw [if_neg (by rwa [hendgame₂])]
    exact List.Perm.refl _
  have hkept₂ : Kept d₁ { d₁ with storage := sw } :=
    { Kept.refl d₁ with
      have_ := by rw [hstorage, hhave]
      endgame := fun h => by
        rw [hstorage] at h
        exact absurd h hendgame }
  have hgive : giveBack (d.peers id).activeRequests d = .ok
      ((d.peers id).activeRequests.foldl (fun lost r => if lost.contains r.1 then lost else lost ++ [r.1]) [],
        { d with storage := sw }) := by
    rw [giveBack, hlose, bind_ok]
    rfl
  rw [hgive, bind_ok]
  dsimp only
  rw [hset]
  obtain ⟨d₃, hd₃, hok₃, hkept₃⟩ := requestMoreOfAll_ok ht hstart hok₂
    ((d.peers id).activeRequests.foldl (fun lost r => if lost.contains r.1 then lost else lost ++ [r.1]) [])
  rw [hd₃, bind_ok]
  refine ⟨_, rfl, ?_⟩
  refine Loops.foldl_of_mem (P := fun d' => Ok b t sw₀ d' ∧ Kept d₁ d') (fun id hid d h => ?_)
    ⟨hok₃, hkept₂.trans hkept₃⟩
  have hid' : id ∈ d.downloads := by rwa [h.2.downloads, ← (hkept₂.trans hkept₃).downloads]
  obtain ⟨hok, hkept⟩ := regainInterest_ok h.1 hid' _
  exact ⟨hok, h.2.trans hkept⟩

theorem gotChoke_ok (h : Ok b t sw₀ d) (hid : id ∈ d.downloads) :
    ∃ d', gotChoke t id d = .ok d' ∧ Ok b t sw₀ d' ∧ d'.downloads = d.downloads := by
  obtain ⟨fl, hbase, hrequests⟩ := h
  rw [gotChoke]
  split
  · exact ⟨d, rfl, ⟨fl, hbase, hrequests⟩, rfl⟩
  generalize hd₁ : setPeer id { d.peers id with choked := true, activeRequests := [] } d = d₁
  have hset : SetPeer id { d.peers id with choked := true, activeRequests := [] } d d₁ := hd₁ ▸ setPeer_ok rfl
  have hset' : setPeer id { (setPeer id { d.peers id with choked := true } d).peers id with activeRequests := [] }
      (setPeer id { d.peers id with choked := true } d) = d₁ := by
    rw [setPeer_self, setPeer, setPeer]
    dsimp only
    rw [Function.update_idem]
    exact hd₁
  have hbase₁ : Base b t sw₀ d₁ fl :=
    hset.base hbase (.of_nil rfl)
  obtain ⟨d', hok, hok', hkept⟩ := letgo_ok ht hstart hset' hbase₁ (by
    split
    · next hendgame =>
      have hendgame' : d.storage.endgame = true := hendgame
      rw [if_pos hendgame'] at hrequests
      exact hset.pooled (List.nil_subset _) hrequests
    · next hendgame =>
      have hendgame' : ¬ d.storage.endgame = true := hendgame
      rw [if_neg hendgame'] at hrequests
      rw [setPeer_self]
      refine ((spread_iff hid).mp hrequests).trans (List.Perm.append_left _ ?_)
      have hperm := active_perm (d := d₁) (hset.downloads ▸ hid : id ∈ d₁.downloads)
      rw [hset.self, others_congr hbase.nodup hset.downloads fun other hne => by rw [hset.of_ne hne]] at hperm
      exact hperm.symm)
  exact ⟨d', hok, hok', hkept.downloads.trans hset.downloads⟩

theorem gotUnchoke_ok (h : Ok b t sw₀ d) (hid : id ∈ d.downloads) :
    ∃ d', gotUnchoke t id d = .ok d' ∧ Ok b t sw₀ d' ∧ d'.downloads = d.downloads := by
  have hp := h.peer hid
  rw [gotUnchoke]
  split
  · next hchoked =>
    have hok₁ : Ok b t sw₀ (setPeer id { d.peers id with choked := false } d) :=
      h.of_setPeer (setPeer_ok rfl) (.of_nil (hp.choked hchoked)) rfl hid
    dsimp only
    split
    · obtain ⟨d', hok, hok', hkept⟩ := requestMore_ok ht hstart hok₁ hid (by rw [setPeer_self]) none
      exact ⟨d', hok, hok', hkept.downloads⟩
    · exact ⟨_, rfl, hok₁, rfl⟩
  · exact ⟨d, rfl, h, rfl⟩

theorem disconnected_ok (h : Ok b t sw₀ d) (hid : id ∈ d.downloads) :
    ∃ d', disconnected t id d = .ok d' ∧ Ok b t sw₀ d' ∧ d'.downloads = d.downloads.erase id := by
  obtain ⟨fl, hbase, hrequests⟩ := h
  have hcount : ∀ i, d.downloads.countP (fun id => (d.peers id).have_.get i) =
      (d.downloads.erase id).countP (fun id => (d.peers id).have_.get i) + if (d.peers id).have_.get i then 1 else 0 := by
    intro i
    rw [(List.perm_cons_erase hid).countP_eq, List.countP_cons]
  have hpos : ∀ i, (d.peers id).have_.get i = true → d.picker.numinterests i ≠ some 0 := by
    intro i hi hzero
    rw [hbase.numinterests, hcount, hi] at hzero
    split at hzero
    · cases hzero
    · have := Option.some.inj hzero
      simp at this
  have hpicked := PiecePicker.lostHaves_ok (g := d.random) hbase.picker hpos
  rw [disconnected, if_pos hid]
  generalize PiecePicker.lostHaves (d.peers id).have_.get d.picker d.random = q at hpicked
  obtain ⟨picker, g⟩ := q
  obtain ⟨hpicker, -, hnum⟩ := hpicked
  dsimp only
  generalize hd₀ : ({ d with downloads := d.downloads.erase id, picker, random := g } : Downloader σ n) = d₀
  have hpeers₀ : d₀.peers = d.peers := by
    rw [← hd₀]
  have hdownloads₀ : d₀.downloads = d.downloads.erase id := by
    rw [← hd₀]
  generalize hd₁ : setPeer id { d₀.peers id with activeRequests := [] } d₀ = d₁
  have hset : SetPeer id { d₀.peers id with activeRequests := [] } d₀ d₁ := hd₁ ▸ setPeer_ok rfl
  have hstorage : d₁.storage = d.storage := by
    rw [hset.storage, ← hd₀]
  have hother : ∀ other ∈ d.downloads.erase id, d₁.peers other = d.peers other := by
    intro other hmem
    rw [hbase.nodup.mem_erase_iff] at hmem
    rw [hset.of_ne hmem.1, hpeers₀]
  have hbase₁ : Base b t sw₀ d₁ fl := by
    refine ⟨?_, ?_, ?_, fun other hmem => ?_, ?_, fun i => ?_⟩
    · rw [hstorage, hset.calls, ← hd₀]
      exact hbase.reached
    · rw [hset.downloads, hdownloads₀]
      exact hbase.nodup.erase id
    · rw [hset.downloads, hdownloads₀]
      exact (List.length_erase_le).trans_lt hbase.few
    · rw [hset.downloads, hdownloads₀] at hmem
      rw [hother other hmem, hset.backlog, ← hd₀]
      exact hbase.peers other (List.mem_of_mem_erase hmem)
    · rw [hset.picker, ← hd₀]
      exact hpicker
    · rw [hset.picker, hstorage, hset.downloads, hdownloads₀]
      simp only [hset.peerHave, hpeers₀]
      have hi := hnum i
      rw [hbase.numinterests, hcount] at hi
      rw [← hd₀, hi]
      by_cases hhave : d.storage.have_ i = true
      · simp [hhave]
      · by_cases hpeer : (d.peers id).have_.get i = true
        · simp [hhave, hpeer]
        · simp [hhave, hpeer]
  obtain ⟨d', hok, hok', hkept⟩ := letgo_ok ht hstart hd₁ hbase₁ (by
    have hd₀storage : d₀.storage = d.storage := by rw [← hd₀]
    rw [hd₀storage]
    split
    · next hendgame =>
      rw [if_pos hendgame] at hrequests
      have hall : d₁.allRequests = d.allRequests := by
        rw [hset.allRequests, ← hd₀]
      refine ⟨hall ▸ hrequests.perm, fun other hmem => ?_⟩
      rw [hset.downloads, hdownloads₀] at hmem
      rw [hother other hmem, hall]
      exact hrequests.subset other (List.mem_of_mem_erase hmem)
    · next hendgame =>
      rw [if_neg hendgame] at hrequests
      refine ((spread_iff hid).mp hrequests).trans (List.Perm.of_eq ?_)
      rw [hpeers₀, hset.downloads, hdownloads₀, others]
      congr 1
      exact List.flatMap_congr fun other hmem => by rw [hother other hmem])
  exact ⟨d', hok, hok', hkept.downloads.trans (hset.downloads.trans hdownloads₀)⟩

theorem close_ok (h : Ok b t sw₀ d) (id : Nat) :
    ∃ d', close t id d = .ok d' ∧ Ok b t sw₀ d' ∧ d'.downloads ⊆ d.downloads := by
  rw [close]
  split
  · next hid =>
    obtain ⟨d', hok, hok', hdownloads⟩ := disconnected_ok ht hstart h hid
    exact ⟨d', hok, hok', hdownloads ▸ List.erase_subset⟩
  · exact ⟨d, rfl, h, List.Subset.refl _⟩

theorem Ok.fix (h : Ok b t sw₀ d) (hendgame : d.storage.endgame = true) (hid : id ∈ d.downloads) :
    Ok b t sw₀ (fixDownloadEndgame id d) ∧ Kept d (fixDownloadEndgame id d) := by
  obtain ⟨fl, hbase, hrequests⟩ := h
  rw [if_pos hendgame] at hrequests
  obtain ⟨hbase', hpooled, hkept, -⟩ := fix_pooled ht hstart hbase hrequests hid
  refine ⟨⟨fl, hbase', ?_⟩, hkept⟩
  rwa [hkept.endgame hendgame, if_pos rfl]

omit ht hstart in
/-- A peer has got more pieces. -/
theorem Ok.gained (h : Ok b t sw₀ d) (hid : id ∈ d.downloads) {have_ : Bitfield n} {picker : PiecePicker n} (g : Random)
    (hmono : ∀ i, (d.peers id).have_.get i = true → have_.get i = true) (hpicker : picker.Ok)
    (hnum : ∀ i, picker.numinterests i = if have_.get i && !(d.peers id).have_.get i
      then (d.picker.numinterests i).map (· + 1) else d.picker.numinterests i) :
    Ok b t sw₀ (setPeer id { d.peers id with have_ } { d with picker, random := g }) := by
  obtain ⟨fl, hbase, hrequests⟩ := h
  generalize hd₁ : setPeer id { d.peers id with have_ } { d with picker, random := g } = d₁
  have hstorage : d₁.storage = d.storage := by
    rw [← hd₁]
    rfl
  have hdownloads : d₁.downloads = d.downloads := by
    rw [← hd₁]
    rfl
  have hself : d₁.peers id = { d.peers id with have_ } := by
    rw [← hd₁]
    exact update_self ..
  have hother : ∀ {other}, other ≠ id → d₁.peers other = d.peers other := by
    intro other hne
    rw [← hd₁]
    exact update_of_ne hne ..
  have hactive : ∀ other, (d₁.peers other).activeRequests = (d.peers other).activeRequests := by
    intro other
    by_cases heq : other = id
    · rw [heq, hself]
    · rw [hother heq]
  have hp := hbase.peers id hid
  refine ⟨fl, ⟨?_, ?_, ?_, fun other hmem => ?_, ?_, fun i => ?_⟩, ?_⟩
  · rw [hstorage, ← hd₁]
    exact hbase.reached
  · rw [hdownloads]
    exact hbase.nodup
  · rw [hdownloads]
    exact hbase.few
  · have hbacklog : d₁.backlog = d.backlog := by
      rw [← hd₁]
      rfl
    rw [hbacklog]
    by_cases heq : other = id
    · rw [heq, hself]
      exact ⟨hp.choked, hp.backlog, hp.interested, fun r hr => hmono r.1 (hp.have_ r hr), hp.nodup⟩
    · rw [hother heq]
      exact hbase.peers other (hdownloads ▸ hmem)
  · rw [← hd₁]
    exact hpicker
  · have hpicker' : d₁.picker = picker := by
      rw [← hd₁]
      rfl
    have hrest : (d.downloads.erase id).countP (fun id => (d₁.peers id).have_.get i) =
        (d.downloads.erase id).countP (fun id => (d.peers id).have_.get i) := by
      refine List.countP_congr fun other hmem => ?_
      rw [hbase.nodup.mem_erase_iff] at hmem
      rw [hother hmem.1]
    rw [hpicker', hstorage, hdownloads, hnum, hbase.numinterests, (List.perm_cons_erase hid).countP_eq,
      (List.perm_cons_erase hid).countP_eq, List.countP_cons, List.countP_cons, hrest, hself]
    dsimp only
    by_cases hhave : d.storage.have_ i = true
    · simp [hhave]
    · have himp := hmono i
      cases hold : (d.peers id).have_.get i with
      | false => cases hnew : have_.get i <;> simp [hhave]
      | true => simp [hhave, himp hold]
  · rw [hstorage]
    split
    · next hendgame =>
      rw [if_pos hendgame] at hrequests
      have hall : d₁.allRequests = d.allRequests := by
        rw [← hd₁]
        rfl
      refine ⟨hall ▸ hrequests.perm, fun other hmem => ?_⟩
      rw [hactive, hall]
      exact hrequests.subset other (hdownloads ▸ hmem)
    · next hendgame =>
      rw [if_neg hendgame] at hrequests
      rw [Spread, hdownloads]
      simp only [hactive]
      exact hrequests

theorem gotHave_ok (h : Ok b t sw₀ d) (hid : id ∈ d.downloads) (index : Fin n) :
    ∃ d', gotHave t id index d = .ok d' ∧ Ok b t sw₀ d' ∧ d'.downloads ⊆ d.downloads := by
  rw [gotHave]
  dsimp only
  split
  · exact ⟨d, rfl, h, List.Subset.refl _⟩
  next hnew =>
  rw [Bool.not_eq_true] at hnew
  have hpicker : d.picker.Ok := h.elim fun fl h => h.1.picker
  obtain ⟨hpicker', -, hnum⟩ := PiecePicker.gotHave_ok hpicker index d.random
  generalize hd₁ : setPeer id { d.peers id with have_ := (d.peers id).have_.set index true }
    { d with picker := (d.picker.gotHave index d.random).1, random := (d.picker.gotHave index d.random).2 } = d₁
  have hok₁ : Ok b t sw₀ d₁ := by
    rw [← hd₁]
    refine h.gained hid _ (fun i hi => ?_) hpicker' fun i => ?_
    · rw [Bitfield.get_set, hi, ite_self]
    · rw [hnum, Bitfield.get_set]
      by_cases hi : i = index
      · subst hi
        simp [hnew]
      · simp [hi]
  have hdownloads : d₁.downloads = d.downloads := by
    rw [← hd₁]
    rfl
  have hid₁ : id ∈ d₁.downloads := hdownloads ▸ hid
  rw [← hdownloads]
  split
  · exact close_ok ht hstart hok₁ id
  split
  · next hendgame =>
    obtain ⟨hok, hkept⟩ := hok₁.fix ht hstart hendgame hid₁
    exact ⟨_, rfl, hok, hkept.downloads ▸ List.Subset.refl _⟩
  split
  · split
    · next hchoked =>
      have hchoked₁ : (d₁.peers id).choked = false := by
        rw [← hd₁, setPeer_self]
        simpa using hchoked
      obtain ⟨d', hok, hok', hkept⟩ := requestMore_ok ht hstart hok₁ hid₁ hchoked₁ (some [index])
      exact ⟨d', hok, hok', hkept.downloads ▸ List.Subset.refl _⟩
    · split
      · exact ⟨_, rfl, hok₁.interest hid₁, List.Subset.refl _⟩
      · exact ⟨_, rfl, hok₁, List.Subset.refl _⟩
  · exact ⟨_, rfl, hok₁, List.Subset.refl _⟩

theorem gotHaveBitfield_ok (h : Ok b t sw₀ d) (hid : id ∈ d.downloads)
    (hfresh : ∀ i, (d.peers id).have_.get i = false) (have_ : Bitfield n) :
    ∃ d', gotHaveBitfield t id have_ d = .ok d' ∧ Ok b t sw₀ d' ∧ d'.downloads ⊆ d.downloads := by
  have hpicker : d.picker.Ok := h.elim fun fl h => h.1.picker
  obtain ⟨hpicker', -, hnum⟩ := PiecePicker.gotHaves_ok (g := d.random) hpicker have_.get
  rw [gotHaveBitfield]
  dsimp only
  generalize hd₁ : setPeer id { d.peers id with have_ }
    { d with picker := (PiecePicker.gotHaves have_.get d.picker d.random).1
             random := (PiecePicker.gotHaves have_.get d.picker d.random).2 } = d₁
  have hok₁ : Ok b t sw₀ d₁ := by
    rw [← hd₁]
    refine h.gained hid _ (fun i hi => ?_) hpicker' fun i => ?_
    · rw [hfresh] at hi
      cases hi
    · rw [hnum, hfresh, Bool.not_false, Bool.and_true]
  have hdownloads : d₁.downloads = d.downloads := by
    rw [← hd₁]
    rfl
  have hid₁ : id ∈ d₁.downloads := hdownloads ▸ hid
  rw [← hdownloads]
  split
  · exact close_ok ht hstart hok₁ id
  split
  · exact ⟨_, rfl, hok₁.interest hid₁, List.Subset.refl _⟩
  split
  · exact ⟨_, rfl, hok₁.interest hid₁, List.Subset.refl _⟩
  · exact ⟨_, rfl, hok₁, List.Subset.refl _⟩

omit ht hstart in
theorem makeDownload_ok (h : Ok b t sw₀ d) (hid : id ∉ d.downloads) (hfew : d.downloads.length + 1 < 2 ^ 30) :
    Ok b t sw₀ (makeDownload id d) := by
  obtain ⟨fl, hbase, hrequests⟩ := h
  generalize hd₁ : makeDownload id d = d₁
  have hdownloads : d₁.downloads = d.downloads ++ [id] := by
    rw [← hd₁]
    rfl
  have hself : d₁.peers id = ⟨true, false, [], .empty n, none⟩ := by
    rw [← hd₁]
    exact update_self ..
  have hother : ∀ other ∈ d.downloads, d₁.peers other = d.peers other := by
    intro other hmem
    rw [← hd₁]
    refine update_of_ne ?_ ..
    rintro rfl
    exact hid hmem
  have hactive : (d₁.downloads.flatMap fun id => (d₁.peers id).activeRequests) =
      d.downloads.flatMap fun id => (d.peers id).activeRequests := by
    rw [hdownloads, List.flatMap_append, List.flatMap_singleton, hself, List.append_nil]
    exact List.flatMap_congr fun other hmem => by rw [hother other hmem]
  refine ⟨fl, ⟨?_, ?_, ?_, fun other hmem => ?_, ?_, fun i => ?_⟩, ?_⟩
  · rw [← hd₁]
    exact hbase.reached
  · rw [hdownloads, List.nodup_append]
    exact ⟨hbase.nodup, List.nodup_singleton _, fun a ha c hc heq => hid (by
      rwa [heq, List.mem_singleton.mp hc] at ha)⟩
  · rwa [hdownloads, List.length_append, List.length_singleton]
  · have hbacklog : d₁.backlog = d.backlog := by
      rw [← hd₁]
      rfl
    rw [hdownloads] at hmem
    rcases List.mem_append.mp hmem with hmem | hmem
    · rw [hother other hmem, hbacklog]
      exact hbase.peers other hmem
    · rw [List.mem_singleton.mp hmem, hself]
      exact .of_nil rfl
  · rw [← hd₁]
    exact hbase.picker
  · have hcount : (d.downloads.countP fun id => (d₁.peers id).have_.get i) =
        d.downloads.countP fun id => (d.peers id).have_.get i :=
      List.countP_congr fun other hmem => by rw [hother other hmem]
    rw [hdownloads, List.countP_append, hcount, List.countP_singleton, hself]
    rw [← hd₁]
    simp only [Bitfield.get_empty]
    exact hbase.numinterests i
  · have hstorage : d₁.storage = d.storage := by
      rw [← hd₁]
      rfl
    rw [hstorage]
    split
    · next hendgame =>
      rw [if_pos hendgame] at hrequests
      have hall : d₁.allRequests = d.allRequests := by
        rw [← hd₁]
        rfl
      refine ⟨hall ▸ hrequests.perm, fun other hmem => ?_⟩
      rw [hdownloads] at hmem
      rcases List.mem_append.mp hmem with hmem | hmem
      · rw [hother other hmem, hall]
        exact hrequests.subset other hmem
      · rw [List.mem_singleton.mp hmem, hself]
        exact List.nil_subset _
    · next hendgame =>
      rw [if_neg hendgame] at hrequests
      rw [Spread, hactive]
      exact hrequests

end

end Downloader

end Swinst.BitTorrent
