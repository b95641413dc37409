import Swinst.BitTorrent.GotPiece

/-! A download from any number of peers, whatever they do. -/

namespace Swinst.BitTorrent

open StorageWrapper (init getPiece blocks blocks_tiling)

variable {σ : Type} {n : Nat} {b : Backing σ} {t : Torrent n} {sw : StorageWrapper σ n}

/-- What peers do: they come, send messages and go, and they are sent data. -/
inductive PeerEvent (n : Nat)
  | connected (id : Nat)
  | choke (id : Nat)
  | unchoke (id : Nat)
  | have_ (id : Nat) (index : Fin n)
  | bitfield (id : Nat) (have_ : Bitfield n)
  | piece (id : Nat) (index : Fin n) (begin : Nat) (piece : Bytes)
  | lost (id : Nat)
  | sent (index : Fin n) (begin length : Nat)

namespace Downloader

def handle (b : Backing σ) (t : Torrent n) (d : Downloader σ n) : PeerEvent n → Except Stop (Downloader σ n)
  | .connected id => .ok (makeDownload id d)
  | .choke id => gotChoke t id d
  | .unchoke id => gotUnchoke t id d
  | .have_ id index => gotHave t id index d
  | .bitfield id have_ => gotHaveBitfield t id have_ d
  | .piece id index begin piece => (gotPiece b t id index begin piece d).map Prod.snd
  | .lost id => disconnected t id d
  | .sent index begin length => (getPiece b t index begin length d.storage).map fun r => { d with storage := r.2 }

/-- A peer is connected once before it does something, and a bitfield is the first of its messages. -/
def Allowed (d : Downloader σ n) : PeerEvent n → Prop
  | .connected id => id ∉ d.downloads ∧ d.downloads.length + 1 < 2 ^ 30
  | .bitfield id _ => id ∈ d.downloads ∧ ∀ i, (d.peers id).have_.get i = false
  | .choke id | .unchoke id | .have_ id _ | .piece id _ _ _ | .lost id => id ∈ d.downloads
  | .sent .. => True

/-- What `download` sets up -/
def start (rarestFirstCutoff backlog : Nat) (sw : StorageWrapper σ n) (g : Random) : Except Stop (Downloader σ n) := do
  let (picker, random) := PiecePicker.init rarestFirstCutoff g
  let picker ← ((List.finRange n).filter sw.have_).foldlM (fun p i => raising (p.complete i)) picker
  return { storage := sw, picker, backlog, allRequests := [], downloads := [], random, sent := [], calls := [],
           peers := fun _ => ⟨true, false, [], .empty n, none⟩ }

variable {d d' d₀ : Downloader σ n} {e : PeerEvent n} {es : List (PeerEvent n)} {cutoff backlog : Nat} {g : Random}

theorem start_ok (hendgame : sw.endgame = false) (cutoff backlog : Nat) (g : Random) :
    ∃ d, start cutoff backlog sw g = .ok d ∧ Ok b t sw d ∧ d.storage = sw ∧ d.calls = [] := by
  obtain ⟨picker, hfold, hpicker, hnum⟩ := Loops.foldlM_done (l := (List.finRange n).filter sw.have_)
    (f := fun (p : PiecePicker n) i => raising (p.complete i)) (s := (PiecePicker.init cutoff g).1)
    (fun done p => p.Ok ∧ ∀ i, p.numinterests i = if i ∈ done then none else some 0)
    (fun done i rest p hl hp => by
      obtain ⟨hpicker, hnum⟩ := hp
      have hi : i ∉ done := by
        have hnodup := (List.nodup_finRange n).filter sw.have_
        rw [hl, List.nodup_append] at hnodup
        exact fun hmem => hnodup.2.2 i hmem i List.mem_cons_self rfl
      obtain ⟨p', hok⟩ := PiecePicker.exists_complete ((hnum i).trans (if_neg hi))
      obtain ⟨hp', -, hnum', -⟩ := PiecePicker.complete_ok hpicker hok
      refine ⟨p', by rw [hok, raising], hp', fun j => ?_⟩
      rw [hnum']
      by_cases hj : j = i
      · simp [hj]
      · simp [hj, hnum])
    ⟨PiecePicker.init_ok cutoff, fun i => (if_neg List.not_mem_nil).symm⟩
  refine ⟨_, by rw [start]; dsimp only; rw [hfold]; rfl, ⟨[], ⟨?_, List.nodup_nil, ?_, ?_, hpicker, fun i => ?_⟩, ?_⟩,
    rfl, rfl⟩
  · exact ⟨[], [], .nil, .nil, rfl⟩
  · exact Nat.two_pow_pos 30
  · intro id hid
    cases hid
  · dsimp only
    rw [hnum]
    simp only [PiecePicker.mem_filter_finRange]
    rfl
  · rw [hendgame, if_neg Bool.false_ne_true]
    exact .nil

section

variable (hb : b.Reliable) (ht : t.Sized) (hstart : Sound b t sw []) (hchecked : ∀ i, sw.waschecked i = true)

include hb ht hstart hchecked

/-- Whatever a peer may do is dealt with. -/
theorem Ok.handle (h : Ok b t sw d) (hallowed : d.Allowed e) : ∃ d', d.handle b t e = .ok d' ∧ Ok b t sw d' := by
  cases e with
  | connected id => exact ⟨_, rfl, makeDownload_ok h hallowed.1 hallowed.2⟩
  | choke id =>
    obtain ⟨d', hok, h', -⟩ := gotChoke_ok ht hstart h hallowed
    exact ⟨d', hok, h'⟩
  | unchoke id =>
    obtain ⟨d', hok, h', -⟩ := gotUnchoke_ok ht hstart h hallowed
    exact ⟨d', hok, h'⟩
  | have_ id index =>
    obtain ⟨d', hok, h', -⟩ := gotHave_ok ht hstart h hallowed index
    exact ⟨d', hok, h'⟩
  | bitfield id have_ =>
    obtain ⟨d', hok, h', -⟩ := gotHaveBitfield_ok ht hstart h hallowed.1 hallowed.2 have_
    exact ⟨d', hok, h'⟩
  | piece id index begin piece =>
    obtain ⟨v, d', hok, h', -⟩ := gotPiece_ok ht hstart hb hchecked h hallowed index begin piece
    exact ⟨d', by rw [Downloader.handle, hok]; rfl, h'⟩
  | lost id =>
    obtain ⟨d', hok, h', -⟩ := disconnected_ok ht hstart h hallowed
    exact ⟨d', hok, h'⟩
  | sent index begin length =>
    obtain ⟨fl, hbase, hrequests⟩ := h
    obtain ⟨data, sw', hget⟩ := getPiece_reliable hb ht (hbase.sound ht hstart)
      (hbase.reached.checked ht hstart hchecked) index begin length
    obtain ⟨-, hsw', -⟩ := getPiece_ok ht (hbase.sound ht hstart) hget
    have hsame : sw'.have_ = d.storage.have_ ∧ sw'.endgame = d.storage.endgame := by
      rcases hsw' with rfl | rfl <;> exact ⟨rfl, rfl⟩
    refine ⟨{ d with storage := sw' }, by rw [Downloader.handle, hget]; rfl, fl,
      hbase.of_same rfl (fun _ => rfl) hsame.1 rfl (hbase.reached.sent hget) hbase.peers hbase.picker, ?_⟩
    dsimp only
    rw [hsame.2]
    split
    · next hendgame =>
      rw [if_pos hendgame] at hrequests
      exact { hrequests with }
    · next hendgame =>
      rw [if_neg hendgame] at hrequests
      exact hrequests

end

/-- One thing that a peer may do, and what becomes of it -/
def Turn (b : Backing σ) (t : Torrent n) (d : Downloader σ n) (e : PeerEvent n) (d' : Downloader σ n) : Prop :=
  d.Allowed e ∧ d.handle b t e = .ok d'

open threePieces (first second third)

/-- A seed and a peer with one piece come and unchoke. -/
private def firstTurns : List (PeerEvent 3) :=
  [.connected 0, .bitfield 0 ((((Bitfield.empty 3).set first true).set second true).set third true), .connected 1,
    .have_ 1 first, .unchoke 0, .unchoke 1]

/-- The endgame begins, and a block is false. -/
private def endgameTurns : List (PeerEvent 3) := [.piece 0 second 1 [4], .piece 0 second 0 [9]]

/-- The second peer goes after a block, and the seed sends the rest. -/
private def lastTurns : List (PeerEvent 3) :=
  [.piece 1 first 0 [1], .lost 1, .piece 0 third 0 [5], .piece 0 first 1 [2], .piece 0 second 0 [3],
    .piece 0 second 1 [4]]

theorem threePieces_turns : ∃ sw d₀ d₁ d₂ d₃,
    init memory threePieces true (fun _ => false) [0, 0, 0, 0, 0] = .ok (some ([], sw)) ∧
    start 1 2 sw ⟨fun _ => 0, 0⟩ = .ok d₀ ∧ Runs (Turn memory threePieces) d₀ firstTurns d₁ ∧
    d₁.storage.endgame = false ∧ d₁.downloads = [0, 1] ∧
    (d₁.downloads.flatMap fun id => (d₁.peers id).activeRequests) = [(1, 0, 1), (1, 1, 1), (0, 0, 1), (0, 1, 1)] ∧
    Runs (Turn memory threePieces) d₁ endgameTurns d₂ ∧
    d₂.storage.endgame = true ∧ d₂.downloads = [0, 1] ∧ Runs (Turn memory threePieces) d₂ lastTurns d₃ ∧
    d₃.storage.amountLeft = 0 := by
  have h₀ : 0 ∈ [0, 1] := List.mem_cons_self
  have h₁ : 1 ∈ [0, 1] := List.mem_cons_of_mem _ (List.mem_singleton_self 1)
  have hseed : 0 ∈ [0] := List.mem_singleton_self 0
  exact ⟨_, _, _, _, _, rfl, rfl,
    .cons ⟨⟨List.not_mem_nil, by decide⟩, rfl⟩ <| .cons ⟨⟨hseed, Bitfield.get_empty⟩, rfl⟩ <|
      .cons ⟨⟨by decide, by decide⟩, rfl⟩ <| .cons ⟨h₁, rfl⟩ <| .cons ⟨h₀, rfl⟩ <| .cons ⟨h₁, rfl⟩ .nil, rfl, rfl, rfl,
    .cons ⟨h₀, rfl⟩ <| .cons ⟨h₀, rfl⟩ .nil, rfl, rfl,
    .cons ⟨h₁, rfl⟩ <| .cons ⟨h₁, rfl⟩ <| .cons ⟨hseed, rfl⟩ <| .cons ⟨hseed, rfl⟩ <| .cons ⟨hseed, rfl⟩ <|
      .cons ⟨hseed, rfl⟩ .nil, rfl⟩

section

variable {s : σ} {flag : Fin n → Bool} {calls : List Callback} (hb : b.Reliable) (hrequest : 0 < t.requestSize)
  (hs : b.total s = t.totalLength) (hinit : init b t true flag s = .ok (some (calls, sw)))
  (hstart : start cutoff backlog sw g = .ok d₀) (hrun : Runs (Turn b t) d₀ es d)

include hb hrequest hs hinit hstart hrun

theorem Ok.run : Ok b t sw d := by
  obtain ⟨-, hsound, -, ht, hchecked, -, hendgame⟩ := init_ok hrequest hs hinit
  obtain ⟨d₁, hd₁, hok, -, -⟩ := start_ok (b := b) (t := t) hendgame cutoff backlog g
  obtain rfl := Except.ok.inj (hstart.symm.trans hd₁)
  refine hrun.preserve (P := Ok b t sw) (fun d e d' h hturn => ?_) hok
  obtain ⟨d'', hhandle, h'⟩ := h.handle hb ht hsound hchecked hturn.1
  rwa [Except.ok.inj (hturn.2.symm.trans hhandle)]

/-- No message and no loss of a peer ends in an exception, whatever happened before. -/
theorem handles (hallowed : d.Allowed e) : ∃ d', d.handle b t e = .ok d' := by
  obtain ⟨-, hsound, -, ht, hchecked, -⟩ := init_ok hrequest hs hinit
  obtain ⟨d', hok, -⟩ := (Ok.run hb hrequest hs hinit hstart hrun).handle hb ht hsound hchecked hallowed
  exact ⟨d', hok⟩

omit hb hrequest hs hinit hstart hrun in
theorem handles_threePieces : ∃ d d' : Downloader Bytes 3, d.storage.endgame = true ∧
    d.handle memory threePieces (.lost 1) = .ok d' := by
  obtain ⟨sw, d₀, d₁, d₂, -, hinit, hstart, h₁, -, -, -, h₂, hendgame, hdownloads, -⟩ := threePieces_turns
  have hallowed : d₂.Allowed (.lost 1) := by
    rw [Allowed, hdownloads]
    decide
  obtain ⟨d', hok⟩ := handles memory_reliable (by decide) rfl hinit hstart (h₁.append h₂) hallowed
  exact ⟨d₂, d', hendgame, hok⟩

/-- A peer is asked for blocks of pieces that are missing and that it has, for no more than the backlog, for nothing
twice, and only when it is known to be of interest and does not choke. -/
theorem asked {id : Nat} (hid : id ∈ d.downloads) : (d.peers id).Ok d.backlog ∧
    ∀ r ∈ (d.peers id).activeRequests, d.storage.have_ r.1 = false ∧ r.2 ∈ blocks t r.1 := by
  obtain ⟨-, hsound, -, ht, -⟩ := init_ok hrequest hs hinit
  obtain ⟨fl, hbase, hrequests⟩ := Ok.run hb hrequest hs hinit hstart hrun
  refine ⟨hbase.peers id hid, fun r hr => (hbase.sound ht hsound).inflight_missing ?_⟩
  split at hrequests
  · exact hrequests.perm.mem_iff.mpr (hrequests.subset id hid hr)
  · exact hrequests.mem_iff.mpr (List.mem_flatMap.mpr ⟨id, hid, hr⟩)

omit hb hrequest hs hinit hstart hrun in
theorem asked_threePieces : ∃ d : Downloader Bytes 3, d.downloads = [0, 1] ∧ ∀ id ∈ [0, 1], (d.peers id).Ok d.backlog ∧
    ∀ r ∈ (d.peers id).activeRequests, d.storage.have_ r.1 = false := by
  obtain ⟨sw, d₀, d₁, d₂, -, hinit, hstart, h₁, -, -, -, h₂, -, hdownloads, -⟩ := threePieces_turns
  refine ⟨d₂, hdownloads, fun id hid => ?_⟩
  obtain ⟨hok, hasked⟩ := asked memory_reliable (by decide) rfl hinit hstart (h₁.append h₂) (hdownloads ▸ hid)
  exact ⟨hok, fun r hr => (hasked r hr).1⟩

/-- Until the endgame no block is asked of two peers, or asked and still to be asked for, and the storage counts for
each piece how many of its blocks are with peers. -/
theorem each_once (hendgame : d.storage.endgame = false) :
    (d.downloads.flatMap fun id => (d.peers id).activeRequests).Nodup ∧
      ∀ i, d.storage.numactive i = ((d.downloads.flatMap fun id => (d.peers id).activeRequests).countP (·.1 = i) : Nat) ∧
        ∀ rs, d.storage.inactiveRequests i = .list rs → rs.Nodup ∧
          ∀ r ∈ rs, (i, r) ∉ d.downloads.flatMap fun id => (d.peers id).activeRequests := by
  obtain ⟨-, hsound, -, ht, -⟩ := init_ok hrequest hs hinit
  obtain ⟨fl, hbase, hrequests⟩ := Ok.run hb hrequest hs hinit hstart hrun
  rw [hendgame, if_neg Bool.false_ne_true, Spread] at hrequests
  have h := (hbase.sound ht hsound).perm hrequests
  refine ⟨h.nodup ht, fun i => ⟨?_, fun rs hrs => ?_⟩⟩
  · rw [(h.accounted i).numactive_eq, length_inflight]
  · have haccounted := h.accounted i
    rw [hrs] at haccounted
    have hnodup := List.nodup_append.mp (haccounted.nodup (blocks_tiling ht i).nodup)
    exact ⟨hnodup.1, fun r hr hmem => hnodup.2.2 r hr r (mem_inflight.mpr hmem) rfl⟩

omit hb hrequest hs hinit hstart hrun in
theorem each_once_threePieces : ∃ d : Downloader Bytes 3,
    (d.downloads.flatMap fun id => (d.peers id).activeRequests) = [(1, 0, 1), (1, 1, 1), (0, 0, 1), (0, 1, 1)] ∧
    ∀ i, d.storage.numactive i = (([(1, 0, 1), (1, 1, 1), (0, 0, 1), (0, 1, 1)] : List (Request 3)).countP (·.1 = i) : Nat) := by
  obtain ⟨sw, d₀, d₁, -, -, hinit, hstart, h₁, hendgame, -, hrequests, -⟩ := threePieces_turns
  obtain ⟨-, hactive⟩ := each_once memory_reliable (by decide) rfl hinit hstart h₁ hendgame
  exact ⟨d₁, hrequests, fun i => by rw [(hactive i).1, hrequests]⟩

/-- In the endgame the blocks that are asked of peers are those of a list, on which each stands once. -/
theorem endgame_listed (hendgame : d.storage.endgame = true) : d.allRequests.Nodup ∧
    (∀ i, d.storage.numactive i = (d.allRequests.countP (·.1 = i) : Nat)) ∧
      ∀ id ∈ d.downloads, (d.peers id).activeRequests ⊆ d.allRequests := by
  obtain ⟨-, hsound, -, ht, -⟩ := init_ok hrequest hs hinit
  obtain ⟨fl, hbase, hrequests⟩ := Ok.run hb hrequest hs hinit hstart hrun
  rw [hendgame, if_pos rfl] at hrequests
  have h := (hbase.sound ht hsound).perm hrequests.perm
  exact ⟨h.nodup ht, fun i => by rw [(h.accounted i).numactive_eq, length_inflight], hrequests.subset⟩

omit hb hrequest hs hinit hstart hrun in
theorem endgame_listed_threePieces : ∃ d : Downloader Bytes 3, d.downloads = [0, 1] ∧ d.allRequests.Nodup ∧
    ∀ id ∈ [0, 1], (d.peers id).activeRequests ⊆ d.allRequests := by
  obtain ⟨sw, d₀, d₁, d₂, -, hinit, hstart, h₁, -, -, -, h₂, hendgame, hdownloads, -⟩ := threePieces_turns
  obtain ⟨hnodup, -, hsubset⟩ :=
    endgame_listed memory_reliable (by decide) rfl hinit hstart (h₁.append h₂) hendgame
  exact ⟨d₂, hdownloads, hnodup, fun id hid => hsubset id (hdownloads ▸ hid)⟩

/-- The picker counts for each missing piece the connected peers that have it. -/
theorem haves_counted (i : Fin n) : d.picker.numinterests i =
    if d.storage.have_ i then none else some (d.downloads.countP fun id => (d.peers id).have_.get i) :=
  (Ok.run hb hrequest hs hinit hstart hrun).elim fun _ h => h.1.numinterests i

omit hb hrequest hs hinit hstart hrun in
theorem haves_counted_threePieces : ∃ d : Downloader Bytes 3, d.downloads = [0, 1] ∧ ∀ i, d.picker.numinterests i =
    if d.storage.have_ i then none else some ([0, 1].countP fun id => (d.peers id).have_.get i) := by
  obtain ⟨sw, d₀, d₁, d₂, -, hinit, hstart, h₁, -, -, -, h₂, -, hdownloads, -⟩ := threePieces_turns
  refine ⟨d₂, hdownloads, fun i => ?_⟩
  rw [haves_counted memory_reliable (by decide) rfl hinit hstart (h₁.append h₂) i, hdownloads]

/-- Whatever peers do, `finished` is called once, when nothing is missing any more, and then the storage holds the data
of the torrent. -/
theorem completed : (calls ++ d.calls).count .finished = (if d.storage.amountLeft = 0 then 1 else 0) ∧
    (d.storage.amountLeft = 0 → ∃ data, t.IsContent data ∧ b.At d.storage.storage 0 data) := by
  obtain ⟨-, hsound, hcalls, ht, hchecked, -⟩ := init_ok hrequest hs hinit
  obtain ⟨fl, hbase, -⟩ := Ok.run hb hrequest hs hinit hstart hrun
  obtain ⟨es, fl₀, hsteps, -, hflat⟩ := hbase.reached
  refine ⟨?_, fun hleft => (hbase.sound ht hsound).content ht hleft (hbase.reached.checked ht hsound hchecked)⟩
  rw [hflat]
  exact hsound.finished_once ht hcalls hsteps

omit hb hrequest hs hinit hstart hrun in
theorem completed_threePieces : ∃ d : Downloader Bytes 3, d.storage.amountLeft = 0 ∧ d.calls.count .finished = 1 ∧
    ∃ data, threePieces.IsContent data ∧ memory.At d.storage.storage 0 data := by
  obtain ⟨sw, d₀, d₁, d₂, d₃, hinit, hstart, h₁, -, -, -, h₂, -, -, h₃, hleft⟩ := threePieces_turns
  obtain ⟨hcount, hdata⟩ :=
    completed memory_reliable (by decide) rfl hinit hstart ((h₁.append h₂).append h₃)
  rw [if_pos hleft] at hcount
  exact ⟨d₃, hleft, hcount, hdata hleft⟩

end

end Downloader

end Swinst.BitTorrent
