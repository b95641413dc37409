import Swinst.BitTorrent.StorageInit
import Swinst.Data.Runs

/-! What a download comes to: the storage when `finished` is called, and what true blocks are worth. -/

namespace Swinst.BitTorrent

open Function (update update_self update_of_ne)
open StorageWrapper

variable {σ : Type} {n : Nat} {b : Backing σ} {t : Torrent n}

/-- What is done with a `StorageWrapper`, and what it calls -/
inductive Event (n : Nat)
  | requested (i : Fin n) (r : Nat × Nat)
  | cameIn (i : Fin n) (x : Nat) (block : Bytes) (calls : List Callback)
  | lost (i : Fin n) (x l : Nat)
  | sent (i : Fin n) (x l : Nat) (data : Option Bytes)

def Event.calls : Event n → List Callback
  | cameIn _ _ _ calls => calls
  | _ => []

/-- A step, with the requests on their way. A block comes in, or is lost, if it has been requested. A call that fails
is the end of a run, and no step. -/
inductive Step (b : Backing σ) (t : Torrent n) :
    StorageWrapper σ n × List (Request n) → Event n → StorageWrapper σ n × List (Request n) → Prop
  | requested {sw sw' : StorageWrapper σ n} {fl : List (Request n)} {i : Fin n} {r : Nat × Nat} :
    sw.doIHaveRequests i = true → newRequest t i sw = .ok (r, sw') → Step b t (sw, fl) (.requested i r) (sw', (i, r) :: fl)
  | cameIn {sw sw' : StorageWrapper σ n} {fl fl' : List (Request n)} {i : Fin n} {x : Nat} {block : Bytes} {v : Bool}
    {calls : List Callback} : fl.Perm ((i, x, block.length) :: fl') → pieceCameIn b t i x block sw = .ok (v, calls, sw') →
    Step b t (sw, fl) (.cameIn i x block calls) (sw', fl')
  | lost {sw sw' : StorageWrapper σ n} {fl fl' : List (Request n)} {i : Fin n} {x l : Nat} :
    fl.Perm ((i, x, l) :: fl') → requestLost i x l sw = .ok sw' → Step b t (sw, fl) (.lost i x l) (sw', fl')
  | sent {sw sw' : StorageWrapper σ n} {fl : List (Request n)} {i : Fin n} {x l : Nat} {data : Option Bytes} :
    getPiece b t i x l sw = .ok (data, sw') → Step b t (sw, fl) (.sent i x l data) (sw', fl)

variable {sw sw' : StorageWrapper σ n} {fl fl' : List (Request n)} {i j p : Fin n} {st st' : StorageWrapper σ n × List (Request n)}
  {e : Event n} {es : List (Event n)}

/-! ## Pieces that go out -/

theorem Sound.checked (h : Sound b t sw fl) {bs : Bytes} (hholds : Holds b t sw.storage sw.places i bs)
    (hsha : t.sha bs = t.hashes i) : Sound b t { sw with waschecked := update sw.waschecked i true } fl :=
  { h with
    verified := fun j hj => by
      by_cases hji : j = i
      · subst hji
        exact ⟨bs, hholds, fun _ => hsha⟩
      · obtain ⟨cs, hcs, hsha'⟩ := h.verified j hj
        refine ⟨cs, hcs, fun hw => hsha' ?_⟩
        have hw' : update sw.waschecked i true j = true := hw
        rwa [update_of_ne hji] at hw' }

theorem getPiece_ok (ht : t.Sized) (h : Sound b t sw fl) {x l : Nat} {r : Option Bytes}
    (hok : getPiece b t i x l sw = .ok (r, sw')) :
    Sound b t sw' fl ∧ (sw' = sw ∨ sw' = { sw with waschecked := update sw.waschecked i true }) ∧
      ∀ data, r = some data → sw.have_ i = true ∧ ∃ bs, Holds b t sw.storage sw.places i bs ∧ t.sha bs = t.hashes i ∧
        x + l ≤ bs.length ∧ data = (bs.drop x).take l := by
  rw [getPiece] at hok
  split at hok
  · cases hok
    exact ⟨h, .inl rfl, fun data hdata => by cases hdata⟩
  next hhave =>
  rw [Bool.not_eq_true', Bool.not_eq_false] at hhave
  obtain ⟨bs, hholds, hsha⟩ := h.verified i hhave
  obtain ⟨pos, hpos, hlen, hat⟩ := id hholds
  have hle : t.pieceSize * pos + bs.length ≤ b.total sw.storage := by
    rw [h.arranged.total, hlen]
    exact (Nat.add_le_add_left (h.arranged.fits hpos) _).trans (ht.add_piecelen_le pos)
  simp only [hpos] at hok
  obtain ⟨sw₁, hensure, hok⟩ := bind_eq_ok hok
  have hchecked : t.sha bs = t.hashes i ∧ (sw₁ = sw ∨ sw₁ = { sw with waschecked := update sw.waschecked i true }) := by
    rw [ensureChecked] at hensure
    split at hensure
    · next hw =>
      cases hensure
      exact ⟨hsha hw, .inl rfl⟩
    · obtain ⟨data, hget, hensure⟩ := bind_eq_ok hensure
      rw [← hlen] at hget
      obtain rfl := hat.read (catchIOError_ok hget) hle
      split at hensure
      · next hsha' =>
        cases hensure
        exact ⟨hsha', .inr rfl⟩
      · cases hensure
  obtain ⟨hsha', hsw₁⟩ := hchecked
  have hsound : Sound b t sw₁ fl := by
    rcases hsw₁ with rfl | rfl
    · exact h
    · exact h.checked hholds hsha'
  have hstorage : sw₁.storage = sw.storage := by rcases hsw₁ with rfl | rfl <;> rfl
  split at hok
  · cases hok
    exact ⟨hsound, hsw₁, fun data hdata => by cases hdata⟩
  next hxl =>
  obtain ⟨data, hget, hok⟩ := bind_eq_ok hok
  cases hok
  refine ⟨hsound, hsw₁, fun data' hdata => ⟨hhave, bs, hholds, hsha', by omega, ?_⟩⟩
  obtain rfl := Option.some.inj hdata
  rw [hstorage] at hget
  refine (hat.drop (by omega)).read_take (catchIOError_ok hget) ?_ (by omega)
  rw [List.length_drop]
  omega

/-! ## Runs -/

theorem Step.sound (ht : t.Sized) (hstep : Step b t st e st') (h : Sound b t st.1 st.2) : Sound b t st'.1 st'.2 := by
  cases hstep with
  | requested hi hok =>
    exact (newRequest_eq ht h hi hok).sound
  | cameIn hperm hok => exact (pieceCameIn_ok ht (h.perm hperm) hok).sound
  | lost hperm hok =>
    exact (requestLost_eq (h.perm hperm) hok).sound
  | sent hok => exact (getPiece_ok ht h hok).1

theorem Sound.run (ht : t.Sized) (h : Sound b t st.1 st.2) (hrun : Runs (Step b t) st es st') : Sound b t st'.1 st'.2 :=
  hrun.preserve (P := fun st => Sound b t st.1 st.2) (fun _ _ _ h hstep => hstep.sound ht h) h

/-- Whatever was read at the start, and whatever has happened since: what is sent of a piece is a part of data that has
its hash. -/
theorem served {s : σ} {checkHashes : Bool} {flag : Fin n → Bool} {calls : List Callback} {x l : Nat} {data : Bytes}
    (hrequest : 0 < t.requestSize) (hs : b.total s = t.totalLength)
    (hinit : init b t checkHashes flag s = .ok (some (calls, sw))) (hrun : Runs (Step b t) (sw, []) es st)
    (hsent : .sent i x l (some data) ∈ es) :
    ∃ bs : Bytes, bs.length = t.piecelen i ∧ t.sha bs = t.hashes i ∧ x + l ≤ bs.length ∧ data = (bs.drop x).take l := by
  obtain ⟨-, hsound, -, ht, -⟩ := init_ok hrequest hs hinit
  obtain ⟨es₁, st₁, st₂, es₂, -, hrun₁, hstep, -⟩ := hrun.exists_step hsent
  have h := hsound.run ht hrun₁
  cases hstep with
  | sent hok =>
    obtain ⟨-, -, hdata⟩ := getPiece_ok ht h hok
    obtain ⟨-, bs, ⟨p, hp, hlen, hat⟩, hsha, hle, rfl⟩ := hdata data rfl
    exact ⟨bs, hlen, hsha, hle, rfl⟩

/-- A storage in memory, in which nothing was at first -/
def memory : Backing Bytes where
  toFlatStore := .ofList .indexError
  wasPreallocated _ _ _ := false
  preallocated h := nomatch h

/-- Three pieces, the last of which is short, with a digest that is the data itself -/
def threePieces : Torrent 3 := ⟨id, fun i => (([1, 2, 3, 4, 5] : Bytes).drop (2 * i)).take 2, 2, 5, 1⟩

namespace threePieces

abbrev first : Fin 3 := 0
abbrev second : Fin 3 := 1
abbrev third : Fin 3 := 2

end threePieces

/-- The last piece comes first, and is moved from the place of the first. -/
def outOfPlace : List (Event 3) :=
  [.requested 2 (0, 1), .cameIn 2 0 [5] [], .requested 0 (0, 1), .requested 0 (1, 1), .cameIn 0 1 [2] [], .cameIn 0 0 [1] [],
    .sent 2 0 1 (some [5])]

/-- One of the blocks is false. -/
def flunked : List (Event 3) :=
  [.requested 1 (0, 1), .requested 1 (1, 1), .cameIn 1 1 [9] [], .cameIn 1 0 [3] [.dataFlunked 2]]

/-- One of the requests is lost. -/
def lastPiece : List (Event 3) :=
  [.requested 1 (0, 1), .lost 1 0 1, .requested 1 (0, 1), .requested 1 (1, 1), .cameIn 1 1 [4] [], .cameIn 1 0 [3] [.finished]]

theorem threePieces_run : ∃ sw st₁ st₂ st₃ st₄,
    init memory threePieces true (fun _ => false) [0, 0, 0, 0, 0] = .ok (some ([], sw)) ∧
    Runs (Step memory threePieces) (sw, []) outOfPlace st₁ ∧ st₁.1.places 2 = some 1 ∧
    Runs (Step memory threePieces) st₁ flunked st₂ ∧ Runs (Step memory threePieces) st₂ lastPiece st₃ ∧
    st₃.1.amountLeft = 0 ∧ Runs (Step memory threePieces) st₁ lastPiece st₄ ∧ st₄.1.amountLeft = 0 :=
  ⟨_, _, _, _, _, rfl,
    .cons (.requested rfl rfl) <| .cons (.cameIn (.refl _) rfl) <| .cons (.requested rfl rfl) <|
      .cons (.requested rfl rfl) <| .cons (.cameIn (.refl _) rfl) <| .cons (.cameIn (.refl _) rfl) <|
      .cons (.sent rfl) .nil, rfl,
    .cons (.requested rfl rfl) <| .cons (.requested rfl rfl) <| .cons (.cameIn (.refl _) rfl) <|
      .cons (.cameIn (.refl _) rfl) .nil,
    .cons (.requested rfl rfl) <| .cons (.lost (.refl _) rfl) <| .cons (.requested rfl rfl) <|
      .cons (.requested rfl rfl) <| .cons (.cameIn (.refl _) rfl) <| .cons (.cameIn (.refl _) rfl) .nil, rfl,
    .cons (.requested rfl rfl) <| .cons (.lost (.refl _) rfl) <| .cons (.requested rfl rfl) <|
      .cons (.requested rfl rfl) <| .cons (.cameIn (.refl _) rfl) <| .cons (.cameIn (.refl _) rfl) .nil, rfl⟩

theorem served_threePieces : ∃ bs : Bytes, bs.length = threePieces.piecelen 2 ∧ threePieces.sha bs = threePieces.hashes 2 ∧
    0 + 1 ≤ bs.length ∧ [5] = (bs.drop 0).take 1 := by
  obtain ⟨sw, st, -, -, -, hinit, hrun, -⟩ := threePieces_run
  exact served (by decide) rfl hinit hrun (by simp [outOfPlace])

/-! ## The complete download -/

/-- The data of a torrent, of which every piece has its hash -/
structure Torrent.IsContent (t : Torrent n) (data : Bytes) : Prop where
  length : data.length = t.totalLength
  hash : ∀ i : Fin n, t.sha ((data.drop (t.pieceSize * i)).take (t.piecelen i)) = t.hashes i

theorem Sound.all_have (ht : t.Sized) (h : Sound b t sw fl) (hleft : sw.amountLeft = 0) (i : Fin n) : sw.have_ i = true := by
  rw [h.amountLeft, missing, Finset.sum_eq_zero_iff_of_nonneg fun i _ => by split <;> omega] at hleft
  by_contra hhave
  have hzero := hleft i (Finset.mem_univ i)
  rw [if_neg hhave] at hzero
  have := ht.piecelen_pos i
  omega

/-- All pieces are in their own places. -/
theorem Sound.at_home (h : Sound b t sw fl) (hall : ∀ i, sw.have_ i = true) (i : Fin n) : sw.places i = some i := by
  have hplaced : ∀ j, (sw.places j).isSome := fun j => by
    obtain ⟨_, ⟨p, hp, -⟩, -⟩ := h.verified j (hall j)
    rw [hp]
    rfl
  obtain ⟨p, hp⟩ := Option.isSome_iff_exists.mp (hplaced i)
  rw [hp, h.arranged.placement.at_home (h.arranged.placement.not_free_of_total hplaced) hp]

theorem Sound.content (ht : t.Sized) (h : Sound b t sw fl) (hleft : sw.amountLeft = 0)
    (hchecked : ∀ i, sw.waschecked i = true) : ∃ data, t.IsContent data ∧ b.At sw.storage 0 data := by
  have hall := h.all_have ht hleft
  have hpieces : ∀ i, ∃ bs : Bytes, bs.length = t.piecelen i ∧ b.At sw.storage (t.pieceSize * i) bs ∧
      t.sha bs = t.hashes i := by
    intro i
    obtain ⟨bs, ⟨p, hp, hlen, hat⟩, hsha⟩ := h.verified i (hall i)
    rw [h.at_home hall i] at hp
    obtain rfl := Option.some.inj hp
    exact ⟨bs, hlen, hat, hsha (hchecked i)⟩
  have hdata : ∃ data : Bytes, data.length = t.totalLength ∧ b.At sw.storage 0 data := by
    refine FlatStore.exists_at _ fun q _ hq => ?_
    rw [Nat.zero_add] at hq
    obtain ⟨i, hlo, hhi⟩ := ht.exists_piece hq
    obtain ⟨bs, hbs, hat, -⟩ := hpieces i
    have hget := hat (q - t.pieceSize * i) _ (List.getElem?_eq_getElem (by omega))
    rw [Nat.add_sub_cancel' hlo] at hget
    exact Option.isSome_of_eq_some hget
  obtain ⟨data, hlen, hat⟩ := hdata
  refine ⟨data, ⟨hlen, fun i => ?_⟩, hat⟩
  obtain ⟨bs, hbs, hpiece, hsha⟩ := hpieces i
  have hle := ht.add_piecelen_le i
  have hslice : b.At sw.storage (t.pieceSize * i) ((data.drop (t.pieceSize * i)).take (t.piecelen i)) := by
    have hdrop := hat.drop (n := t.pieceSize * i) (by omega)
    rw [Nat.zero_add] at hdrop
    exact hdrop.take _
  rw [hslice.unique hpiece, hsha]
  rw [List.length_take, List.length_drop]
  omega

/-- Nothing is on its way when nothing is missing. -/
theorem Sound.nothing_inflight (ht : t.Sized) (h : Sound b t sw fl) (hleft : sw.amountLeft = 0) : fl = [] := by
  cases fl with
  | nil => rfl
  | cons r fl =>
    obtain ⟨i, r⟩ := r
    have haccounted := h.accounted i
    rw [inflight_cons_self] at haccounted
    obtain ⟨rs, hrs, -, -⟩ := haccounted.exists_list
    rw [(h.have_iff i).mp (h.all_have ht hleft i)] at hrs
    cases hrs

/-! ## `finished` -/

theorem Step.finished (ht : t.Sized) (hstep : Step b t st e st') (h : Sound b t st.1 st.2) :
    (if st'.1.amountLeft = 0 then 0 else 1) + e.calls.count .finished = if st.1.amountLeft = 0 then 0 else 1 := by
  cases hstep with
  | requested hi hok =>
    simp [Event.calls, (newRequest_eq ht h hi hok).data.amountLeft]
  | @cameIn sw sw' fl fl' i x block v calls hperm hok =>
    have harrived := pieceCameIn_ok ht (h.perm hperm) hok
    have hleft := harrived.sound.amountLeft
    obtain ⟨old, -, -, -, hverdict⟩ := harrived.written
    have hne : ¬ sw.amountLeft = 0 := fun hzero => by
      have hnil : fl = [] := h.nothing_inflight ht hzero
      rw [hnil] at hperm
      cases hperm.nil_eq
    rw [if_neg hne]
    cases hverdict with
    | part _ _ hhave =>
      rw [hhave, ← h.amountLeft] at hleft
      simp [Event.calls, hleft, hne]
    | right =>
      simp only [Event.calls]
      split <;> simp
    | wrong _ _ _ _ hhave =>
      rw [hhave, ← h.amountLeft] at hleft
      simp [Event.calls, hleft, hne]
  | lost hperm hok =>
    simp [Event.calls, (requestLost_eq (h.perm hperm) hok).data.amountLeft]
  | sent hok =>
    obtain ⟨-, hsw, -⟩ := getPiece_ok ht h hok
    rcases hsw with rfl | rfl <;> simp [Event.calls]

theorem waschecked_update {waschecked : Fin n → Bool} (h : waschecked j = true) : update waschecked i true j = true := by
  by_cases hji : j = i
  · subst hji
    exact update_self ..
  · rw [update_of_ne hji, h]

theorem Step.waschecked (ht : t.Sized) (hstep : Step b t st e st') (h : Sound b t st.1 st.2) (i : Fin n)
    (hi : st.1.waschecked i = true) : st'.1.waschecked i = true := by
  cases hstep with
  | requested hrequests hok =>
    exact (congrFun (newRequest_eq ht h hrequests hok).data.waschecked i).trans hi
  | cameIn hperm hok => exact (pieceCameIn_ok ht (h.perm hperm) hok).waschecked i hi
  | lost hperm hok =>
    exact (congrFun (requestLost_eq (h.perm hperm) hok).data.waschecked i).trans hi
  | sent hok =>
    obtain ⟨-, hsw, -⟩ := getPiece_ok ht h hok
    rcases hsw with rfl | rfl
    · exact hi
    · exact waschecked_update hi

/-- After the hashes were checked at the start, they are checked for good. -/
theorem Sound.run_checked (ht : t.Sized) (h : Sound b t st.1 st.2) (hchecked : ∀ i, st.1.waschecked i = true)
    (hrun : Runs (Step b t) st es st') : Sound b t st'.1 st'.2 ∧ ∀ i, st'.1.waschecked i = true :=
  hrun.preserve (P := fun st => Sound b t st.1 st.2 ∧ ∀ i, st.1.waschecked i = true)
    (fun _ _ _ h hstep => ⟨hstep.sound ht h.1, fun i => hstep.waschecked ht h.1 i (h.2 i)⟩) ⟨h, hchecked⟩

theorem Sound.finished_once (ht : t.Sized) (h : Sound b t sw fl) {calls : List Callback}
    (hcalls : calls = if sw.amountLeft = 0 then [.finished] else []) (hrun : Runs (Step b t) (sw, fl) es st) :
    (calls ++ es.flatMap Event.calls).count .finished = if st.1.amountLeft = 0 then 1 else 0 := by
  have hfinished := hrun.measure_of (P := fun st => Sound b t st.1 st.2) (Q := fun _ => True)
    (fun _ _ _ _ h hstep => ⟨hstep.sound ht h, hstep.finished ht h⟩) (fun _ _ => trivial) h
  rw [List.count_append, List.count_flatMap]
  have hmap : List.count .finished ∘ Event.calls = fun e : Event n => e.calls.count .finished := rfl
  rw [hmap, hcalls]
  dsimp only at hfinished
  -- `finished` is due once: at the start, in the run, or not yet
  have hstart : List.count .finished (if sw.amountLeft = 0 then [Callback.finished] else []) =
      if sw.amountLeft = 0 then 1 else 0 := by
    split <;> rfl
  rw [hstart]
  by_cases hsw : sw.amountLeft = 0
  · rw [if_pos hsw] at hfinished ⊢
    rw [Nat.eq_zero_of_add_eq_zero_left hfinished, if_pos]
    by_contra hleft
    rw [if_neg hleft] at hfinished
    omega
  · rw [if_neg hsw] at hfinished ⊢
    split at hfinished
    · next hleft => rw [if_pos hleft, Nat.zero_add, ← hfinished, Nat.zero_add]
    · next hleft =>
      rw [if_neg hleft]
      omega

/-- `finished` is called once, when nothing is missing any more, and then the storage holds the data of the torrent. -/
theorem downloaded {s : σ} {flag : Fin n → Bool} {calls : List Callback} (hrequest : 0 < t.requestSize)
    (hs : b.total s = t.totalLength) (hinit : init b t true flag s = .ok (some (calls, sw)))
    (hrun : Runs (Step b t) (sw, []) es st) :
    (calls ++ es.flatMap Event.calls).count .finished = (if st.1.amountLeft = 0 then 1 else 0) ∧
      (st.1.amountLeft = 0 → ∃ data, t.IsContent data ∧ b.At st.1.storage 0 data) := by
  obtain ⟨-, hsound, hcalls, ht, hchecked, -⟩ := init_ok hrequest hs hinit
  have hst := hsound.run_checked ht hchecked hrun
  exact ⟨hsound.finished_once ht hcalls hrun, fun hleft => hst.1.content ht hleft hst.2⟩

theorem downloaded_threePieces : ∃ st : StorageWrapper Bytes 3, st.amountLeft = 0 ∧
    ((outOfPlace ++ flunked ++ lastPiece).flatMap Event.calls).count .finished = 1 ∧
    ∃ data, threePieces.IsContent data ∧ memory.At st.storage 0 data := by
  obtain ⟨sw, st₁, st₂, st₃, -, hinit, h₁, -, h₂, h₃, hleft, -⟩ := threePieces_run
  obtain ⟨hcount, hdata⟩ := downloaded (by decide) rfl hinit ((h₁.append h₂).append h₃)
  rw [if_pos hleft] at hcount
  exact ⟨st₃.1, hleft, hcount, hdata hleft⟩

end Swinst.BitTorrent
