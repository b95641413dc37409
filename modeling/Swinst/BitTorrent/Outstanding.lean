import Swinst.BitTorrent.Downloader
import Swinst.BitTorrent.Reliable
import Swinst.Data.Loops

/-! What has been asked of the peers, over any run: in the normal course every request that is on its way is with one
peer, in the endgame they are those of a common list. -/

namespace Swinst.BitTorrent

open Function (update update_self update_of_ne)
open StorageWrapper (newRequest requestLost pieceCameIn blocks blocks_tiling)

variable {σ : Type} {n : Nat} {b : Backing σ} {t : Torrent n} {sw₀ : StorageWrapper σ n} {fl : List (Request n)}

theorem nodup_of_inflight (h : ∀ i, (inflight fl i).Nodup) : fl.Nodup := by
  induction fl with
  | nil => exact .nil
  | cons r fl ih =>
    obtain ⟨i, r⟩ := r
    have hi := h i
    rw [inflight_cons_self, List.nodup_cons] at hi
    refine List.nodup_cons.mpr ⟨fun hmem => hi.1 (mem_inflight.mpr hmem), ih fun j => ?_⟩
    exact (h j).sublist ((List.sublist_cons_self _ _).filterMap _)

theorem Sound.nodup (ht : t.Sized) {sw : StorageWrapper σ n} (h : Sound b t sw fl) : fl.Nodup :=
  nodup_of_inflight fun i => ((h.accounted i).nodup_inflight (blocks_tiling ht i).nodup)

theorem length_inflight (fl : List (Request n)) (i : Fin n) : (inflight fl i).length = fl.countP (·.1 = i) := by
  rw [inflight, List.length_filterMap_eq_countP]
  refine List.countP_congr fun r _ => ?_
  split <;> simp_all

/-- What is on its way is a block of a missing piece. -/
theorem Sound.inflight_missing {sw : StorageWrapper σ n} (h : Sound b t sw fl) {r : Request n} (hr : r ∈ fl) :
    sw.have_ r.1 = false ∧ r.2 ∈ blocks t r.1 := by
  have hr' : r.2 ∈ inflight fl r.1 := mem_inflight.mpr hr
  obtain ⟨x, rs', hx⟩ := List.exists_cons_of_ne_nil (List.ne_nil_of_mem hr')
  have haccounted := h.accounted r.1
  obtain ⟨rs, hrs, -, hsub⟩ := (hx ▸ haccounted).exists_list
  refine ⟨Bool.eq_false_iff.mpr fun hhave => ?_, hsub.subset (List.mem_append_right _ (hx ▸ hr'))⟩
  rw [(h.have_iff r.1).mp hhave] at hrs
  cases hrs

/-- The storage has come to a state, with requests on their way and with these calls. -/
def Reached (b : Backing σ) (t : Torrent n) (sw₀ sw : StorageWrapper σ n) (calls : List Callback)
    (fl : List (Request n)) : Prop :=
  ∃ es fl₀, Runs (Step b t) (sw₀, []) es (sw, fl₀) ∧ fl₀.Perm fl ∧ calls = es.flatMap Event.calls

namespace Reached

variable {sw sw' : StorageWrapper σ n} {calls calls' : List Callback} {fl' : List (Request n)} {i : Fin n} {x l : Nat}

theorem perm (h : Reached b t sw₀ sw calls fl) (hperm : fl.Perm fl') : Reached b t sw₀ sw calls fl' := by
  obtain ⟨es, fl₀, hrun, hfl, hcalls⟩ := h
  exact ⟨es, fl₀, hrun, hfl.trans hperm, hcalls⟩

theorem sound (ht : t.Sized) (hstart : Sound b t sw₀ []) (h : Reached b t sw₀ sw calls fl) : Sound b t sw fl := by
  obtain ⟨es, fl₀, hrun, hfl, -⟩ := h
  exact (Sound.run ht hstart hrun).perm hfl

theorem checked (ht : t.Sized) (hstart : Sound b t sw₀ []) (hchecked : ∀ i, sw₀.waschecked i = true)
    (h : Reached b t sw₀ sw calls fl) (i : Fin n) : sw.waschecked i = true := by
  obtain ⟨es, fl₀, hrun, -, -⟩ := h
  exact (Sound.run_checked ht hstart hchecked hrun).2 i

theorem requested (h : Reached b t sw₀ sw calls fl) (hi : sw.doIHaveRequests i = true) {r : Nat × Nat}
    (hok : newRequest t i sw = .ok (r, sw')) : Reached b t sw₀ sw' calls ((i, r) :: fl) := by
  obtain ⟨es, fl₀, hrun, hfl, hcalls⟩ := h
  refine ⟨es ++ [.requested i r], _, hrun.snoc (.requested hi hok), hfl.cons _, ?_⟩
  rw [List.flatMap_append, ← hcalls]
  exact (List.append_nil calls).symm

theorem lost (h : Reached b t sw₀ sw calls ((i, x, l) :: fl)) (hok : requestLost i x l sw = .ok sw') :
    Reached b t sw₀ sw' calls fl := by
  obtain ⟨es, fl₀, hrun, hfl, hcalls⟩ := h
  refine ⟨es ++ [.lost i x l], fl, hrun.snoc (.lost hfl hok), .refl fl, ?_⟩
  rw [List.flatMap_append, ← hcalls]
  exact (List.append_nil calls).symm

theorem cameIn {block : Bytes} {v : Bool} (h : Reached b t sw₀ sw calls ((i, x, block.length) :: fl))
    (hok : pieceCameIn b t i x block sw = .ok (v, calls', sw')) : Reached b t sw₀ sw' (calls ++ calls') fl := by
  obtain ⟨es, fl₀, hrun, hfl, hcalls⟩ := h
  refine ⟨es ++ [.cameIn i x block calls'], fl, hrun.snoc (.cameIn hfl hok), .refl fl, ?_⟩
  rw [List.flatMap_append, ← hcalls]
  exact congrArg _ (List.append_nil calls').symm

theorem sent {data : Option Bytes} (h : Reached b t sw₀ sw calls fl)
    (hok : StorageWrapper.getPiece b t i x l sw = .ok (data, sw')) : Reached b t sw₀ sw' calls fl := by
  obtain ⟨es, fl₀, hrun, hfl, hcalls⟩ := h
  refine ⟨es ++ [.sent i x l data], fl₀, hrun.snoc (.sent hok), hfl, ?_⟩
  rw [List.flatMap_append, ← hcalls]
  exact (List.append_nil calls).symm

end Reached

/-- What holds of the data about a peer -/
structure Peer.Ok (backlog : Nat) (p : Peer n) : Prop where
  choked : p.choked = true → p.activeRequests = []
  backlog : p.activeRequests.length ≤ backlog
  interested : p.activeRequests ≠ [] → p.interested = true
  have_ : ∀ r ∈ p.activeRequests, p.have_.get r.1 = true
  nodup : p.activeRequests.Nodup

theorem Peer.Ok.of_nil {backlog : Nat} {p : Peer n} (h : p.activeRequests = []) : p.Ok backlog where
  choked _ := h
  backlog := by simp [h]
  interested hne := absurd h hne
  have_ r hr := by
    rw [h] at hr
    cases hr
  nodup := h ▸ .nil

theorem Peer.Ok.ask {backlog : Nat} {p : Peer n} (h : p.Ok backlog) (rs : List (Request n))
    (hchoked : p.choked = false)
    (hinterested : rs ≠ [] → p.interested = true) (hlength : p.activeRequests.length + rs.length ≤ backlog)
    (hrs : ∀ r ∈ rs, p.have_.get r.1 = true ∧ r ∉ p.activeRequests) (hnodup : rs.Nodup) :
    Peer.Ok backlog { p with activeRequests := p.activeRequests ++ rs } where
  choked hc := by
    rw [hchoked] at hc
    cases hc
  backlog := by rwa [List.length_append]
  interested hne := by
    by_cases hnil : rs = []
    · subst hnil
      exact h.interested (by simpa using hne)
    · exact hinterested hnil
  have_ r hr := (List.mem_append.mp hr).elim (h.have_ r) fun hr => (hrs r hr).1
  nodup := h.nodup.append hnodup fun r hr hr' => (hrs r hr').2 hr

namespace Downloader

variable {d d' : Downloader σ n} {id other : Nat} {p p' : Peer n} {i : Fin n}

/-- `fl` are the requests on their way. -/
structure Base (b : Backing σ) (t : Torrent n) (sw₀ : StorageWrapper σ n) (d : Downloader σ n) (fl : List (Request n)) :
    Prop where
  reached : Reached b t sw₀ d.storage d.calls fl
  nodup : d.downloads.Nodup
  few : d.downloads.length < 2 ^ 30
  peers : ∀ id ∈ d.downloads, (d.peers id).Ok d.backlog
  picker : d.picker.Ok
  numinterests : ∀ i, d.picker.numinterests i =
    if d.storage.have_ i then none else some (d.downloads.countP fun id => (d.peers id).have_.get i)

/-- Every request is with one peer. -/
def Spread (d : Downloader σ n) (fl : List (Request n)) : Prop :=
  fl.Perm (d.downloads.flatMap fun id => (d.peers id).activeRequests)

/-- The peers have been asked for requests of a common list. -/
structure Pooled (d : Downloader σ n) (fl : List (Request n)) : Prop where
  perm : fl.Perm d.allRequests
  subset : ∀ id ∈ d.downloads, (d.peers id).activeRequests ⊆ d.allRequests

def Ok (b : Backing σ) (t : Torrent n) (sw₀ : StorageWrapper σ n) (d : Downloader σ n) : Prop :=
  ∃ fl, Base b t sw₀ d fl ∧ if d.storage.endgame then Pooled d fl else Spread d fl

/-- What a handler of requests leaves as it is -/
structure Kept (d d' : Downloader σ n) : Prop where
  downloads : d'.downloads = d.downloads
  backlog : d'.backlog = d.backlog
  choked : ∀ id, (d'.peers id).choked = (d.peers id).choked
  peerHave : ∀ id, (d'.peers id).have_ = (d.peers id).have_
  have_ : d'.storage.have_ = d.storage.have_
  numinterests : d'.picker.numinterests = d.picker.numinterests
  endgame : d.storage.endgame = true → d'.storage.endgame = true

theorem Kept.refl (d : Downloader σ n) : Kept d d := ⟨rfl, rfl, fun _ => rfl, fun _ => rfl, rfl, rfl, id⟩

theorem Kept.trans {d₁ d₂ d₃ : Downloader σ n} (h : Kept d₁ d₂) (h' : Kept d₂ d₃) : Kept d₁ d₃ where
  downloads := h'.downloads.trans h.downloads
  backlog := h'.backlog.trans h.backlog
  choked id := (h'.choked id).trans (h.choked id)
  peerHave id := (h'.peerHave id).trans (h.peerHave id)
  have_ := h'.have_.trans h.have_
  numinterests := h'.numinterests.trans h.numinterests
  endgame := h'.endgame ∘ h.endgame

/-! ## The requests of one peer and of the others -/

def others (d : Downloader σ n) (id : Nat) : List (Request n) :=
  (d.downloads.erase id).flatMap fun id => (d.peers id).activeRequests

theorem active_perm (hid : id ∈ d.downloads) :
    (d.downloads.flatMap fun id => (d.peers id).activeRequests).Perm ((d.peers id).activeRequests ++ others d id) :=
  (List.perm_cons_erase hid).flatMap_right _

theorem others_congr (hnodup : d.downloads.Nodup) (hdownloads : d'.downloads = d.downloads)
    (hpeers : ∀ other, other ≠ id → (d'.peers other).activeRequests = (d.peers other).activeRequests) :
    others d' id = others d id := by
  rw [others, others, hdownloads]
  refine List.flatMap_congr fun other hother => ?_
  rw [hnodup.mem_erase_iff] at hother
  exact hpeers other hother.1

section

variable (ht : t.Sized) (hstart : Sound b t sw₀ [])

include ht hstart

theorem Base.sound (h : Base b t sw₀ d fl) : Sound b t d.storage fl := h.reached.sound ht hstart

end

@[simp] theorem setPeer_self : (setPeer id p d).peers id = p := update_self ..

theorem Base.of_same {fl' : List (Request n)} (h : Base b t sw₀ d fl) (hdownloads : d'.downloads = d.downloads)
    (hpeerHave : ∀ id, (d'.peers id).have_ = (d.peers id).have_) (hhave : d'.storage.have_ = d.storage.have_)
    (hnum : d'.picker.numinterests = d.picker.numinterests)
    (hreached : Reached b t sw₀ d'.storage d'.calls fl')
    (hpeers : ∀ id ∈ d.downloads, (d'.peers id).Ok d'.backlog) (hpicker : d'.picker.Ok) : Base b t sw₀ d' fl' where
  reached := hreached
  nodup := hdownloads ▸ h.nodup
  few := hdownloads ▸ h.few
  peers := hdownloads ▸ hpeers
  picker := hpicker
  numinterests i := by
    rw [hnum, hhave, hdownloads, h.numinterests]
    simp only [hpeerHave]

theorem Base.of_kept {fl' : List (Request n)} (h : Base b t sw₀ d fl) (hkept : Kept d d')
    (hreached : Reached b t sw₀ d'.storage d'.calls fl')
    (hpeers : ∀ id ∈ d.downloads, (d'.peers id).Ok d.backlog) (hpicker : d'.picker.Ok) : Base b t sw₀ d' fl' :=
  h.of_same hkept.downloads hkept.peerHave hkept.have_ hkept.numinterests hreached (hkept.backlog ▸ hpeers) hpicker

/-- Only what is known about one peer changes, and what is sent. -/
structure SetPeer (id : Nat) (p : Peer n) (d d' : Downloader σ n) : Prop where
  storage : d'.storage = d.storage
  picker : d'.picker = d.picker
  backlog : d'.backlog = d.backlog
  allRequests : d'.allRequests = d.allRequests
  downloads : d'.downloads = d.downloads
  calls : d'.calls = d.calls
  peers : d'.peers = update d.peers id p
  have_ : p.have_ = (d.peers id).have_

namespace SetPeer

theorem self (h : SetPeer id p d d') : d'.peers id = p := by rw [h.peers, update_self]

theorem of_ne (h : SetPeer id p d d') (hne : other ≠ id) : d'.peers other = d.peers other := by
  rw [h.peers, update_of_ne hne]

theorem peerHave (h : SetPeer id p d d') (other : Nat) : (d'.peers other).have_ = (d.peers other).have_ := by
  by_cases heq : other = id
  · rw [heq, h.self, h.have_]
  · rw [h.of_ne heq]

theorem base (h : SetPeer id p d d') (hbase : Base b t sw₀ d fl) (hp : p.Ok d.backlog) : Base b t sw₀ d' fl := by
  refine hbase.of_same h.downloads h.peerHave ?_ ?_ ?_ (fun other hother => ?_) ?_
  · rw [h.storage]
  · rw [h.picker]
  · rw [h.storage, h.calls]
    exact hbase.reached
  · rw [h.backlog]
    by_cases heq : other = id
    · rw [heq, h.self]
      exact hp
    · rw [h.of_ne heq]
      exact hbase.peers other hother
  · rw [h.picker]
    exact hbase.picker

theorem spread (h : SetPeer id p d d') (hactive : p.activeRequests = (d.peers id).activeRequests)
    (hspread : Spread d fl) : Spread d' fl := by
  have hall : ∀ other, (d'.peers other).activeRequests = (d.peers other).activeRequests := by
    intro other
    by_cases heq : other = id
    · rw [heq, h.self, hactive]
    · rw [h.of_ne heq]
  rw [Spread, h.downloads]
  simp only [hall]
  exact hspread

theorem pooled (h : SetPeer id p d d') (hactive : p.activeRequests ⊆ d.allRequests) (hpooled : Pooled d fl) :
    Pooled d' fl where
  perm := h.allRequests ▸ hpooled.perm
  subset other hother := by
    rw [h.allRequests]
    by_cases heq : other = id
    · rw [heq, h.self]
      exact hactive
    · rw [h.of_ne heq]
      exact hpooled.subset other (h.downloads ▸ hother)

end SetPeer

theorem setPeer_ok (hhave : p.have_ = (d.peers id).have_) : SetPeer id p d (setPeer id p d) :=
  ⟨rfl, rfl, rfl, rfl, rfl, rfl, rfl, hhave⟩

/-- The same, and the peer chokes as before. -/
structure OnlyPeer (id : Nat) (p : Peer n) (d d' : Downloader σ n) : Prop extends SetPeer id p d d' where
  choked : p.choked = (d.peers id).choked

namespace OnlyPeer

theorem kept (h : OnlyPeer id p d d') : Kept d d' where
  downloads := h.downloads
  backlog := h.backlog
  choked other := by
    by_cases heq : other = id
    · rw [heq, h.self, h.choked]
    · rw [h.of_ne heq]
  peerHave := h.peerHave
  have_ := by rw [h.storage]
  numinterests := by rw [h.picker]
  endgame := by
    rw [h.storage]
    exact fun h => h

theorem trans {d'' : Downloader σ n} (h : OnlyPeer id p d d') (h' : OnlyPeer id p' d' d'') : OnlyPeer id p' d d'' where
  storage := h'.storage.trans h.storage
  picker := h'.picker.trans h.picker
  backlog := h'.backlog.trans h.backlog
  allRequests := h'.allRequests.trans h.allRequests
  downloads := h'.downloads.trans h.downloads
  calls := h'.calls.trans h.calls
  peers := by rw [h'.peers, h.peers, Function.update_idem]
  have_ := h'.have_.trans (by rw [h.self, h.have_])
  choked := h'.choked.trans (by rw [h.self, h.choked])

theorem refl (id : Nat) (d : Downloader σ n) : OnlyPeer id (d.peers id) d d :=
  ⟨⟨rfl, rfl, rfl, rfl, rfl, rfl, (Function.update_eq_self ..).symm, rfl⟩, rfl⟩

end OnlyPeer

theorem onlyPeer_interest (id : Nat) (d : Downloader σ n) :
    OnlyPeer id { d.peers id with interested := true } d (interest id d) :=
  ⟨⟨rfl, rfl, rfl, rfl, rfl, rfl, rfl, rfl⟩, rfl⟩

theorem onlyPeer_loseInterest (id : Nat) (d : Downloader σ n) :
    OnlyPeer id { d.peers id with interested := false } d (loseInterest id d) :=
  ⟨⟨rfl, rfl, rfl, rfl, rfl, rfl, rfl, rfl⟩, rfl⟩

theorem onlyPeer_ask (id : Nat) (rs : List (Request n)) (d : Downloader σ n) :
    OnlyPeer id { d.peers id with activeRequests := (d.peers id).activeRequests ++ rs } d (ask id rs d) :=
  ⟨⟨rfl, rfl, rfl, rfl, rfl, rfl, rfl, rfl⟩, rfl⟩

theorem truncate_sublist {α : Type} (l : List α) (k : Int) : (truncate l k).Sublist l := List.take_sublist ..

theorem length_truncate_le {α : Type} (l : List α) (k : Nat) : (truncate l k).length ≤ k := by
  rw [truncate, if_neg (by omega), Int.toNat_natCast]
  exact List.length_take_le ..

/-- Only the peer is asked, and only for what is on the common list. -/
theorem fix_ok (hp : (d.peers id).Ok d.backlog) (hnodup : d.allRequests.Nodup) :
    ∃ p, OnlyPeer id p d (fixDownloadEndgame id d) ∧ p.Ok d.backlog ∧
      ∀ r ∈ p.activeRequests, r ∈ (d.peers id).activeRequests ∨ r ∈ d.allRequests := by
  rw [fixDownloadEndgame]
  dsimp only
  generalize hwant : (d.allRequests.filter fun a =>
    (d.peers id).have_.get a.1 && decide (a ∉ (d.peers id).activeRequests)) = want
  have hmem : ∀ r ∈ want, r ∈ d.allRequests ∧ (d.peers id).have_.get r.1 = true ∧ r ∉ (d.peers id).activeRequests := by
    intro r hr
    rw [← hwant, List.mem_filter, Bool.and_eq_true, decide_eq_true_eq] at hr
    exact hr
  split
  · next hlose =>
    rw [Bool.and_eq_true, Bool.and_eq_true, List.isEmpty_iff] at hlose
    have hactive : (d.peers id).activeRequests = [] := hlose.1.2
    exact ⟨_, onlyPeer_loseInterest id d, .of_nil hactive, fun r hr => .inl hr⟩
  · next hkeep =>
    -- whoever is asked for something is interested
    obtain ⟨d₁, hd₁⟩ : ∃ d₁, (if (!(d.peers id).interested && !want.isEmpty) = true then interest id d else d) = d₁ :=
      ⟨_, rfl⟩
    obtain ⟨p, honly, hok, hactive, hinterested⟩ : ∃ p, OnlyPeer id p d d₁ ∧ p.Ok d.backlog ∧
        p.activeRequests = (d.peers id).activeRequests ∧ (want ≠ [] → p.interested = true) := by
      rw [← hd₁]
      split
      · exact ⟨_, onlyPeer_interest id d, ⟨hp.choked, hp.backlog, fun _ => rfl, hp.have_, hp.nodup⟩, rfl, fun _ => rfl⟩
      · next hnot =>
        refine ⟨d.peers id, .refl id d, hp, rfl, ?_⟩
        intro hne
        by_contra hinterested
        rw [Bool.not_eq_true] at hinterested
        exact hnot (by simp [hinterested, hne])
    rw [hd₁]
    split
    · exact ⟨p, honly, hok, fun r hr => .inl (hactive ▸ hr)⟩
    · next hchoked =>
      rw [Bool.not_eq_true] at hchoked
      have hbacklog := hp.backlog
      have hroom : (d₁.backlog : Int) - (d.peers id).activeRequests.length =
          ((d.backlog - (d.peers id).activeRequests.length : Nat) : Int) := by
        rw [honly.backlog]
        omega
      generalize hshuffle : Random.shuffle want d₁.random = q
      obtain ⟨want', g⟩ := q
      have hperm : want'.Perm want := by
        have := Random.shuffle_perm want d₁.random
        rwa [hshuffle] at this
      have honly' : OnlyPeer id p d { d₁ with random := g } := { honly with }
      dsimp only
      rw [hroom]
      have hask := onlyPeer_ask id (truncate want' ((d.backlog - (d.peers id).activeRequests.length : Nat) : Int))
        { d₁ with random := g }
      rw [honly'.self, hactive] at hask
      have hsub := (truncate_sublist want' ((d.backlog - (d.peers id).activeRequests.length : Nat) : Int))
      have hmem' : ∀ r ∈ truncate want' ((d.backlog - (d.peers id).activeRequests.length : Nat) : Int), r ∈ want :=
        fun r hr => hperm.subset (hsub.subset hr)
      refine ⟨_, honly'.trans hask, ?_, fun r hr => ?_⟩
      · have hasked := hok.ask (truncate want' ((d.backlog - (d.peers id).activeRequests.length : Nat) : Int))
          (honly.choked.trans hchoked) (fun hne => hinterested ?_) ?_ (fun r hr => ?_)
          ((hperm.nodup_iff.mpr (hwant ▸ hnodup.filter _)).sublist hsub)
        · rwa [hactive] at hasked
        · rintro rfl
          rw [hperm.eq_nil] at hne
          exact hne (List.take_nil)
        · have := length_truncate_le want' (d.backlog - (d.peers id).activeRequests.length)
          rw [hactive]
          omega
        · rw [honly.have_, hactive]
          exact (hmem r (hmem' r hr)).2
      · rcases List.mem_append.mp hr with hr | hr
        · exact .inl hr
        · exact .inr (hmem r (hmem' r hr)).1

theorem spread_iff (hid : id ∈ d.downloads) : Spread d fl ↔ fl.Perm ((d.peers id).activeRequests ++ others d id) :=
  ⟨fun h => h.trans (active_perm hid), fun h => h.trans (active_perm hid).symm⟩

theorem Base.next (hbase : Base b t sw₀ d fl) (id : Nat) :
    ∃ r g, d.picker.next (d.want id) (d.seed id) d.random = .ok (r, g) ∧
      d.picker.Choice (d.want id) (d.seed id) r := by
  refine PiecePicker.next_ok hbase.picker (fun i k hk => ?_) _ _ _
  rw [hbase.numinterests] at hk
  split at hk
  · cases hk
  · rw [← Option.some.inj hk]
    exact List.countP_le_length.trans_lt hbase.few

theorem chooseInterest_ok (hbase : Base b t sw₀ d fl) (id : Nat) (indices : Option (List (Fin n))) :
    ∃ interest g, chooseInterest id indices d = .ok (interest, { d with random := g }) ∧
      ∀ i, interest = some i → d.want id i = true := by
  cases indices with
  | none =>
    obtain ⟨r, g, hnext, hchoice⟩ := hbase.next id
    refine ⟨r, g, ?_, hchoice.wanted⟩
    rw [chooseInterest, hnext]
    rfl
  | some indices => exact ⟨_, d.random, rfl, fun i hi => List.find?_some hi⟩

theorem reconsider_ok (hbase : Base b t sw₀ d fl) (hspread : Spread d fl) (hid : id ∈ d.downloads)
    (lost : List (Fin n)) :
    ∃ d', reconsider lost d id = .ok d' ∧ Base b t sw₀ d' fl ∧ Spread d' fl ∧ Kept d d' ∧ d'.storage = d.storage := by
  have hp := hbase.peers id hid
  rw [reconsider]
  dsimp only
  split
  · exact ⟨d, rfl, hbase, hspread, .refl d, rfl⟩
  next hidle =>
  rw [Bool.or_eq_true, not_or, Bool.not_eq_true', Bool.not_eq_false, List.isEmpty_iff] at hidle
  split
  · exact ⟨d, rfl, hbase, hspread, .refl d, rfl⟩
  split
  · exact ⟨d, rfl, hbase, hspread, .refl d, rfl⟩
  obtain ⟨interest, g, hnext, -⟩ := hbase.next id
  have hbase₁ : Base b t sw₀ { d with random := g } fl := { hbase with }
  have hkept₁ : Kept d { d with random := g } := { Kept.refl d with }
  have honly : ∀ {p d'}, OnlyPeer id p { d with random := g } d' → p.Ok d.backlog →
      p.activeRequests = (d.peers id).activeRequests →
      ∃ d'', Except.ok (ε := Stop) d' = .ok d'' ∧ Base b t sw₀ d'' fl ∧ Spread d'' fl ∧ Kept d d'' ∧
        d''.storage = d.storage := by
    intro p d' h hok hactive
    exact ⟨d', rfl, h.base hbase₁ hok, h.spread hactive hspread, hkept₁.trans h.kept, h.storage⟩
  rw [hnext, raising, bind_ok]
  cases interest with
  | none =>
    exact honly (onlyPeer_loseInterest id _) (.of_nil hidle.1) rfl
  | some i => exact honly ⟨⟨rfl, rfl, rfl, rfl, rfl, rfl, rfl, rfl⟩, rfl⟩ { hp with } rfl

section

variable (ht : t.Sized) (hstart : Sound b t sw₀ [])

include ht hstart

/-! ## The endgame -/

theorem fix_pooled (hbase : Base b t sw₀ d fl) (hpooled : Pooled d fl) (hid : id ∈ d.downloads) :
    Base b t sw₀ (fixDownloadEndgame id d) fl ∧ Pooled (fixDownloadEndgame id d) fl ∧
      Kept d (fixDownloadEndgame id d) ∧ (fixDownloadEndgame id d).storage = d.storage := by
  have hnodup := hpooled.perm.nodup_iff.mp ((hbase.sound ht hstart).nodup ht)
  obtain ⟨p, honly, hp, hactive⟩ := fix_ok (hbase.peers id hid) hnodup
  refine ⟨honly.base hbase hp, honly.pooled (fun r hr => ?_) hpooled, honly.kept, honly.storage⟩
  exact (hactive r hr).elim (fun h => hpooled.subset id hid h) fun h => h

theorem fixAll_pooled (hbase : Base b t sw₀ d fl) (hpooled : Pooled d fl) :
    ∃ d', d.downloads.foldl (fun d id => fixDownloadEndgame id d) d = d' ∧ Base b t sw₀ d' fl ∧ Pooled d' fl ∧
      Kept d d' ∧ d'.storage = d.storage := by
  refine ⟨_, rfl, ?_⟩
  refine Loops.foldl_of_mem (P := fun d' => Base b t sw₀ d' fl ∧ Pooled d' fl ∧ Kept d d' ∧ d'.storage = d.storage)
    (fun id hid d' h => ?_) ⟨hbase, hpooled, .refl d, rfl⟩
  obtain ⟨hbase', hpooled', hkept, hstorage⟩ := h
  obtain ⟨h₁, h₂, h₃, h₄⟩ := fix_pooled ht hstart hbase' hpooled'
    (hkept.downloads ▸ hid : id ∈ d'.downloads)
  exact ⟨h₁, h₂, hkept.trans h₃, h₄.trans hstorage⟩

/-! ## New requests -/

theorem Base.missing (h : Base b t sw₀ d fl) (hi : d.storage.doIHaveRequests i = true) : d.storage.have_ i = false := by
  rw [← Bool.not_eq_true, (h.sound ht hstart).have_iff]
  intro hnone
  rw [StorageWrapper.doIHaveRequests, hnone] at hi
  cases hi

theorem requestOne_ok (hbase : Base b t sw₀ d fl) (hspread : Spread d fl) (hid : id ∈ d.downloads)
    (hchoked : (d.peers id).choked = false) (hroom : (d.peers id).activeRequests.length < d.backlog)
    (hwant : d.want id i = true) (lost : List (Fin n)) :
    ∃ lost' d' r, requestOne t id i lost d = .ok (lost', d') ∧ Base b t sw₀ d' ((i, r) :: fl) ∧
      Spread d' ((i, r) :: fl) ∧ Kept d d' ∧
      (d'.peers id).activeRequests.length = (d.peers id).activeRequests.length + 1 := by
  rw [want, Bool.and_eq_true] at hwant
  obtain ⟨d₁, hd₁⟩ : ∃ d₁, (if (d.peers id).interested = true then d else interest id d) = d₁ := ⟨_, rfl⟩
  obtain ⟨p, hp, honly, hok, hactive, hinterested⟩ : ∃ p, d₁.peers id = p ∧ OnlyPeer id p d d₁ ∧ p.Ok d.backlog ∧
      p.activeRequests = (d.peers id).activeRequests ∧ p.interested = true := by
    have hpeer := hbase.peers id hid
    rw [← hd₁]
    split
    · next h => exact ⟨_, rfl, .refl id d, hpeer, rfl, h⟩
    · exact ⟨_, (onlyPeer_interest id d).self, onlyPeer_interest id d,
        ⟨hpeer.choked, hpeer.backlog, fun _ => rfl, hpeer.have_, hpeer.nodup⟩, rfl, rfl⟩
  -- the piece is noted as an example of what is wanted
  have honly₂ : OnlyPeer id { p with exampleInterest := some i } d (setPeer id { p with exampleInterest := some i } d₁) :=
    honly.trans ⟨⟨rfl, rfl, rfl, rfl, rfl, rfl, rfl, by rw [hp]⟩, by rw [hp]⟩
  obtain ⟨r, sw', hrequest, hrequested⟩ := newRequest_ok ht (hbase.sound ht hstart) hwant.2
  have hnew : (i, r) ∉ (d.peers id).activeRequests := by
    have hnodup := hrequested.sound.nodup ht
    rw [List.nodup_cons] at hnodup
    exact fun hmem => hnodup.1 (((spread_iff hid).mp hspread).symm.subset (List.mem_append_left _ hmem))
  rw [requestOne]
  dsimp only
  rw [hd₁, hp, honly₂.storage, hrequest, bind_ok]
  generalize hd₂ : setPeer id { p with exampleInterest := some i } d₁ = d₂ at honly₂
  refine ⟨_, _, r, rfl, ?_⟩
  generalize hd₃ : ask id [(i, r)] { d₂ with storage := sw', picker := d₂.picker.requested i (d₂.seed id) } = d₃
  have hpeers : d₃.peers = update d₂.peers id
      { d₂.peers id with activeRequests := (d₂.peers id).activeRequests ++ [(i, r)] } := by
    rw [← hd₃]
    rfl
  have hself : d₃.peers id = { p with exampleInterest := some i, activeRequests := p.activeRequests ++ [(i, r)] } := by
    rw [hpeers, update_self, honly₂.self]
  have hother : ∀ {other}, other ≠ id → d₃.peers other = d.peers other := fun hne => by
    rw [hpeers, update_of_ne hne, honly₂.of_ne hne]
  have hstorage : d₃.storage = sw' := by rw [← hd₃]; rfl
  have hkept : Kept d d₃ := by
    refine ⟨?_, ?_, fun other => ?_, fun other => ?_, ?_, ?_, fun h => ?_⟩
    · rw [← hd₃]
      exact honly₂.downloads
    · rw [← hd₃]
      exact honly₂.backlog
    · by_cases heq : other = id
      · rw [heq, hself]
        exact honly.choked
      · rw [hother heq]
    · by_cases heq : other = id
      · rw [heq, hself]
        exact honly.have_
      · rw [hother heq]
    · rw [hstorage, hrequested.data.have_]
    · have hnum : d₂.picker.numinterests = d.picker.numinterests := by rw [honly₂.picker]
      rw [← hd₃]
      exact hnum
    · rw [hstorage]
      exact hrequested.endgame.mpr (.inl h)
  refine ⟨hbase.of_kept hkept ?_ (fun other hother' => ?_) ?_, ?_, hkept, ?_⟩
  · have hcalls : d₃.calls = d.calls := by
      rw [← hd₃]
      exact honly₂.calls
    rw [hstorage, hcalls]
    exact hbase.reached.requested hwant.2 hrequest
  · by_cases heq : other = id
    · rw [heq, hself]
      have hok₂ : Peer.Ok d.backlog { p with exampleInterest := some i } := { hok with }
      refine hok₂.ask [(i, r)] (honly.choked.trans hchoked) (fun _ => hinterested) ?_ (fun r' hr' => ?_)
        (List.nodup_singleton _)
      · rw [hactive, List.length_singleton]
        exact hroom
      · rw [List.mem_singleton.mp hr']
        exact ⟨by rw [honly.have_]; exact hwant.1, by rwa [hactive]⟩
    · rw [hother heq]
      exact hbase.peers other hother'
  · have hmissing : d₂.picker.numinterests i ≠ none := by
      rw [honly₂.picker, hbase.numinterests, hbase.missing ht hstart hwant.2]
      simp
    rw [← hd₃]
    exact PiecePicker.requested_ok (honly₂.picker ▸ hbase.picker) hmissing _
  · rw [spread_iff (hkept.downloads ▸ hid), others_congr hbase.nodup hkept.downloads fun other hne => by rw [hother hne],
      hself, hactive, List.append_assoc]
    exact (((spread_iff hid).mp hspread).cons (i, r)).trans List.perm_middle.symm
  · rw [hself, hactive, List.length_append, List.length_singleton]

theorem requestLoop_ok {indices : Option (List (Fin n))} {turns : Nat} (hbase : Base b t sw₀ d fl)
    (hspread : Spread d fl) (hid : id ∈ d.downloads) (hchoked : (d.peers id).choked = false)
    (hturns : (d.peers id).activeRequests.length + turns ≤ d.backlog) (lost : List (Fin n)) :
    ∃ lost' d' fl', requestLoop t id indices turns lost d = .ok (lost', d') ∧ Base b t sw₀ d' fl' ∧ Spread d' fl' ∧
      Kept d d' := by
  induction turns generalizing lost d fl with
  | zero => exact ⟨lost, d, fl, rfl, hbase, hspread, .refl d⟩
  | succ turns ih =>
    obtain ⟨interest, g, hchoose, hwant⟩ := chooseInterest_ok hbase id indices
    have hbase₁ : Base b t sw₀ { d with random := g } fl := { hbase with }
    have hkept₁ : Kept d { d with random := g } := { Kept.refl d with }
    rw [requestLoop, hchoose, bind_ok]
    cases interest with
    | none => exact ⟨lost, _, fl, rfl, hbase₁, hspread, hkept₁⟩
    | some i =>
      obtain ⟨lost₁, d₁, r, hone, hbase₂, hspread₂, hkept₂, hlength⟩ :=
        requestOne_ok ht hstart hbase₁ hspread hid hchoked (by dsimp only; omega) (hwant i rfl) lost
      dsimp only at hlength ⊢
      rw [hone, bind_ok]
      obtain ⟨lost', d', fl', hok, hbase', hspread', hkept'⟩ := ih hbase₂ hspread₂ (hkept₂.downloads ▸ hid)
        ((hkept₂.choked id).trans hchoked) (by rw [hlength, hkept₂.backlog]; dsimp only; omega) lost₁
      exact ⟨lost', d', fl', hok, hbase', hspread', (hkept₁.trans hkept₂).trans hkept'⟩

/-- What holds between two handlers -/
theorem enterEndgame_ok (hbase : Base b t sw₀ d fl) (hspread : Spread d fl) :
    Ok b t sw₀ (enterEndgame d) ∧ Kept d (enterEndgame d) := by
  rw [enterEndgame]
  split
  · next hendgame =>
    generalize hd₁ : ({ d with allRequests := d.downloads.flatMap fun id => (d.peers id).activeRequests } :
      Downloader σ n) = d₁
    have hbase₁ : Base b t sw₀ d₁ fl := by
      rw [← hd₁]
      exact { hbase with }
    have hpooled : Pooled d₁ fl := by
      rw [← hd₁]
      exact ⟨hspread, fun id hid r hr => List.mem_flatMap.mpr ⟨id, hid, hr⟩⟩
    have hkept : Kept d d₁ := by
      rw [← hd₁]
      exact { Kept.refl d with }
    obtain ⟨d', hd', hbase', hpooled', hkept', hstorage⟩ := fixAll_pooled ht hstart hbase₁ hpooled
    dsimp only
    rw [hd']
    refine ⟨⟨fl, hbase', ?_⟩, hkept.trans hkept'⟩
    rw [(hkept.trans hkept').endgame hendgame, if_pos rfl]
    exact hpooled'
  · next hendgame => exact ⟨⟨fl, hbase, by rwa [if_neg hendgame]⟩, .refl d⟩

theorem requestMore_ok (h : Ok b t sw₀ d) (hid : id ∈ d.downloads) (hchoked : (d.peers id).choked = false)
    (indices : Option (List (Fin n))) : ∃ d', requestMore t id indices d = .ok d' ∧ Ok b t sw₀ d' ∧ Kept d d' := by
  obtain ⟨fl, hbase, hrequests⟩ := h
  rw [requestMore, hchoked, if_neg Bool.false_ne_true]
  split
  · exact ⟨d, rfl, ⟨fl, hbase, hrequests⟩, .refl d⟩
  next hroom =>
  split
  · next hendgame =>
    rw [if_pos hendgame] at hrequests
    obtain ⟨hbase', hpooled', hkept, hstorage⟩ := fix_pooled ht hstart hbase hrequests hid
    refine ⟨_, rfl, ⟨fl, hbase', ?_⟩, hkept⟩
    rwa [hstorage, if_pos hendgame]
  next hendgame =>
  rw [if_neg hendgame] at hrequests
  have hbacklog := (hbase.peers id hid).backlog
  obtain ⟨lost, d₁, fl₁, hloop, hbase₁, hspread₁, hkept₁⟩ := requestLoop_ok ht hstart hbase hrequests
    hid hchoked (show _ + (d.backlog - (d.peers id).activeRequests.length) ≤ d.backlog by omega) []
  rw [hloop, bind_ok]
  dsimp only
  obtain ⟨d₂, hd₂, hbase₂, hspread₂, hkept₂⟩ : ∃ d₂, (if ((d₁.peers id).activeRequests.isEmpty &&
      (d₁.peers id).interested) = true then loseInterest id d₁ else d₁) = d₂ ∧ Base b t sw₀ d₂ fl₁ ∧ Spread d₂ fl₁ ∧
      Kept d₁ d₂ := by
    split
    · next hlose =>
      rw [Bool.and_eq_true, List.isEmpty_iff] at hlose
      have honly := onlyPeer_loseInterest id d₁
      exact ⟨_, rfl, honly.base hbase₁ (.of_nil hlose.1), honly.spread rfl hspread₁, honly.kept⟩
    · exact ⟨_, rfl, hbase₁, hspread₁, .refl d₁⟩
  rw [hd₂]
  obtain ⟨d₃, hd₃, hbase₃, hspread₃, hkept₃⟩ : ∃ d₃, reconsiderAll lost d₂ = .ok d₃ ∧ Base b t sw₀ d₃ fl₁ ∧
      Spread d₃ fl₁ ∧ Kept d₂ d₃ := by
    rw [reconsiderAll]
    split
    · exact ⟨_, rfl, hbase₂, hspread₂, .refl d₂⟩
    · refine Loops.foldlM_of_mem (P := fun d => Base b t sw₀ d fl₁ ∧ Spread d fl₁ ∧ Kept d₂ d)
        (fun id hid d h => ?_) ⟨hbase₂, hspread₂, .refl d₂⟩
      obtain ⟨d', hok, hbase', hspread', hkept', -⟩ :=
        reconsider_ok h.1 h.2.1 (h.2.2.downloads ▸ hid : id ∈ d.downloads) lost
      exact ⟨d', hok, hbase', hspread', h.2.2.trans hkept'⟩
  rw [hd₃, bind_ok]
  obtain ⟨hok, hkept₄⟩ := enterEndgame_ok ht hstart hbase₃ hspread₃
  exact ⟨_, rfl, hok, ((hkept₁.trans hkept₂).trans hkept₃).trans hkept₄⟩

end

end Downloader

end Swinst.BitTorrent
