import Swinst.BitTorrent.Completion

/-! A download whose blocks are all true: no piece is rejected, and no block comes in twice. -/

namespace Swinst.BitTorrent

open Function (update update_self update_of_ne)
open StorageWrapper

variable {σ : Type} {n : Nat} {b : Backing σ} {t : Torrent n}

/-- The bytes of a block -/
def slice (bs : Bytes) (r : Nat × Nat) : Bytes := (bs.drop r.1).take r.2

theorem getElem?_slice (bs : Bytes) (r : Nat × Nat) (k : Nat) : (slice bs r)[k]? = if k < r.2 then bs[r.1 + k]? else none := by
  rw [slice, List.getElem?_take, List.getElem?_drop]

theorem getElem?_splice {bs block : Bytes} {x : Nat} (h : x + block.length ≤ bs.length) (k : Nat) :
    (splice bs x block)[k]? = if k < x then bs[k]? else if k < x + block.length then block[k - x]? else bs[k]? := by
  have hx : (bs.take x).length = x := List.length_take_of_le (by omega)
  rw [splice]
  split
  · next hk => rw [List.append_assoc, List.getElem?_append_left (hx.symm ▸ hk), List.getElem?_take_of_lt hk]
  · next hk =>
    split
    · next hk' =>
      rw [List.getElem?_append_left (by rw [List.length_append, hx]; exact hk'),
        List.getElem?_append_right (by omega), hx]
    · next hk' =>
      rw [List.getElem?_append_right (by rw [List.length_append, hx]; omega), List.length_append, hx,
        List.getElem?_drop]
      congr 1
      omega

theorem slice_splice {bs block : Bytes} {x : Nat} (h : x + block.length ≤ bs.length) :
    slice (splice bs x block) (x, block.length) = block := by
  apply List.ext_getElem?
  intro k
  rw [getElem?_slice, getElem?_splice h]
  dsimp only
  split
  · next hk => rw [if_neg (by omega), if_pos (by omega), Nat.add_sub_cancel_left]
  · next hk => rw [List.getElem?_eq_none (Nat.le_of_not_lt hk)]

theorem slice_splice_disjoint {bs block : Bytes} {x : Nat} {r : Nat × Nat} (h : x + block.length ≤ bs.length)
    (hdisjoint : r.1 + r.2 ≤ x ∨ x + block.length ≤ r.1) : slice (splice bs x block) r = slice bs r := by
  apply List.ext_getElem?
  intro k
  rw [getElem?_slice, getElem?_slice, getElem?_splice h]
  split
  · next hk =>
    split
    · rfl
    · rw [if_neg (by omega)]
  · rfl

/-- What agrees on all blocks is the same. -/
theorem eq_of_slices {lo hi : Nat} {rs : List (Nat × Nat)} (h : Tiling lo hi rs) {bs cs : Bytes}
    (hslice : ∀ r ∈ rs, slice bs r = slice cs r) {k : Nat} (hlo : lo ≤ k) (hhi : k < hi) : bs[k]? = cs[k]? := by
  obtain ⟨r, hr, hrk, hkr⟩ := h.cover hlo hhi
  have hget := congrArg (fun l => l[k - r.1]?) (hslice r hr)
  simp only [getElem?_slice] at hget
  rwa [if_pos (by omega), if_pos (by omega), Nat.add_sub_cancel' hrk] at hget

/-- The data of every piece -/
structure TrueContent (t : Torrent n) (content : Fin n → Bytes) : Prop where
  length : ∀ i, (content i).length = t.piecelen i
  hash : ∀ i, t.sha (content i) = t.hashes i

def Event.IsTrue (content : Fin n → Bytes) : Event n → Prop
  | cameIn i x block _ => block = slice (content i) (x, block.length)
  | _ => True

/-- The blocks that have come in are true. -/
def TrueSoFar (b : Backing σ) (t : Torrent n) (content : Fin n → Bytes) (sw : StorageWrapper σ n)
    (fl : List (Request n)) : Prop :=
  ∀ i rs, sw.inactiveRequests i = .list rs → ∀ r ∈ blocks t i, r ∉ rs → r ∉ inflight fl i →
    ∃ bs, Holds b t sw.storage sw.places i bs ∧ slice bs r = slice (content i) r

variable {content : Fin n → Bytes} {sw sw' : StorageWrapper σ n} {fl fl' : List (Request n)} {i j : Fin n}
  {r : Nat × Nat} {st st' : StorageWrapper σ n × List (Request n)} {e : Event n} {es : List (Event n)}

theorem TrueSoFar.perm (h : TrueSoFar b t content sw fl) (hperm : fl.Perm fl') : TrueSoFar b t content sw fl' :=
  fun i rs hrs r hr hnot hfl => h i rs hrs r hr hnot fun hmem => hfl ((inflight_perm hperm i).mem_iff.mp hmem)

theorem TrueSoFar.of_nil (h : ∀ i rs, sw.inactiveRequests i ≠ .list rs) : TrueSoFar b t content sw fl :=
  fun i rs hrs => absurd hrs (h i rs)

theorem TrueSoFar.requested (h : TrueSoFar b t content sw fl) (hrequested : Requested b t sw fl i r sw') :
    TrueSoFar b t content sw' ((i, r) :: fl) := by
  intro j rs hrs r' hr' hnot hfl
  obtain ⟨rs₀, hrs₀, hmem, hrequests⟩ := hrequested.requests
  rw [hrequested.data.storage, hrequested.data.places]
  rw [hrequests] at hrs
  by_cases hji : j = i
  · subst hji
    rw [update_self] at hrs
    obtain rfl := Requests.list.inj hrs
    rw [inflight_cons_self, List.mem_cons, not_or] at hfl
    rw [List.mem_erase_of_ne hfl.1] at hnot
    rcases hrs₀ with ⟨-, rfl⟩ | hrs₀
    · exact absurd hr' hnot
    · exact h j rs₀ hrs₀ r' hr' hnot hfl.2
  · rw [update_of_ne hji] at hrs
    rw [inflight_cons_of_ne (Ne.symm hji)] at hfl
    exact h j rs hrs r' hr' hnot hfl

theorem TrueSoFar.lost (h : TrueSoFar b t content sw ((i, r) :: fl)) (hlost : Lost b t sw fl i r sw') :
    TrueSoFar b t content sw' fl := by
  intro j rs hrs r' hr' hnot hfl
  obtain ⟨rs₀, hrs₀, hrequests⟩ := hlost.requests
  rw [hlost.data.storage, hlost.data.places]
  rw [hrequests] at hrs
  by_cases hji : j = i
  · subst hji
    rw [update_self] at hrs
    obtain rfl := Requests.list.inj hrs
    rw [List.mem_append, List.mem_singleton, not_or] at hnot
    refine h j rs₀ hrs₀ r' hr' hnot.1 ?_
    rw [inflight_cons_self, List.mem_cons, not_or]
    exact ⟨hnot.2, hfl⟩
  · rw [update_of_ne hji] at hrs
    refine h j rs hrs r' hr' hnot ?_
    rwa [inflight_cons_of_ne (Ne.symm hji)]

/-- With a true block, what has come in of its piece is true. -/
theorem TrueSoFar.splice (ht : t.Sized) (hsound : Sound b t sw ((i, r) :: fl)) (h : TrueSoFar b t content sw ((i, r) :: fl))
    {old block : Bytes} (hr : r.2 = block.length) (hblock : block = slice (content i) r) (hold : old.length = t.piecelen i)
    (holds : ∀ {bs}, Holds b t sw.storage sw.places i bs → bs = old) {rs : List (Nat × Nat)}
    (hrs : sw.inactiveRequests i = .list rs) {r' : Nat × Nat} (hr' : r' ∈ blocks t i) (hnot : r' ∉ rs)
    (hfl : r' ∉ inflight fl i) : slice (BitTorrent.splice old r.1 block) r' = slice (content i) r' := by
  have htiling := blocks_tiling ht i
  have haccounted := hsound.accounted i
  rw [inflight_cons_self, hrs] at haccounted
  have hmem : r ∈ blocks t i := haccounted.mem_blocks (List.mem_append_right _ List.mem_cons_self)
  have hle : r.1 + block.length ≤ old.length := by
    rw [hold, ← hr]
    exact (htiling.bounds hmem).2.2
  by_cases hne : r' = r
  · subst hne
    have hself := slice_splice hle
    rw [← hr] at hself
    exact hself.trans hblock
  · obtain ⟨bs, hbs, hslice⟩ := h i rs hrs r' hr' hnot (by
      rw [inflight_cons_self, List.mem_cons, not_or]
      exact ⟨hne, hfl⟩)
    obtain rfl := holds hbs
    rw [slice_splice_disjoint hle, hslice]
    rw [← hr]
    exact htiling.disjoint hr' hmem hne

theorem TrueSoFar.cameIn (ht : t.Sized) (hcontent : TrueContent t content) {x : Nat} {block : Bytes} {v : Bool}
    {calls : List Callback} (hsound : Sound b t sw ((i, x, block.length) :: fl))
    (h : TrueSoFar b t content sw ((i, x, block.length) :: fl)) (hblock : block = slice (content i) (x, block.length))
    (harrived : Arrived b t sw fl i x block v calls sw') :
    TrueSoFar b t content sw' fl ∧ ∀ size, Callback.dataFlunked size ∉ calls := by
  obtain ⟨old, hold, holds, hnew, hverdict⟩ := harrived.written
  have hslices : ∀ rs, sw.inactiveRequests i = .list rs → ∀ r ∈ blocks t i, r ∉ rs → r ∉ inflight fl i →
      slice (BitTorrent.splice old x block) r = slice (content i) r :=
    fun _ hrs _ hr => h.splice ht hsound rfl hblock hold holds hrs hr
  -- a piece with all its blocks is right
  have hall : sw.inactiveRequests i = .list [] → inflight fl i = [] → BitTorrent.splice old x block = content i := by
    intro hrs hfl
    have hlen : (BitTorrent.splice old x block).length = t.piecelen i := by
      obtain ⟨_, _, hlen, _⟩ := hnew
      exact hlen
    apply List.ext_getElem?
    intro k
    rcases Nat.lt_or_ge k (t.piecelen i) with hk | hk
    · refine eq_of_slices (blocks_tiling ht i) (fun r hr => ?_) (Nat.zero_le k) hk
      exact hslices [] hrs r hr List.not_mem_nil (hfl ▸ List.not_mem_nil)
    · rw [List.getElem?_eq_none (hlen.trans_le hk), List.getElem?_eq_none ((hcontent.length i).trans_le hk)]
  have hother : ∀ j, j ≠ i → ∀ rs, sw.inactiveRequests j = .list rs → ∀ r ∈ blocks t j, r ∉ rs → r ∉ inflight fl j →
      ∃ bs, Holds b t sw'.storage sw'.places j bs ∧ slice bs r = slice (content j) r := by
    intro j hji rs hrs r hr hnot hfl
    rw [← inflight_cons_of_ne (Ne.symm hji) fl (x, block.length)] at hfl
    obtain ⟨bs, hbs, hslice⟩ := h j rs hrs r hr hnot hfl
    exact ⟨bs, harrived.kept hji hbs, hslice⟩
  have hupdated : ∀ q, (∀ rs, q ≠ .list rs) → sw'.inactiveRequests = update sw.inactiveRequests i q →
      TrueSoFar b t content sw' fl := by
    intro q hq hrequests j rs hrs r hr hnot hfl
    rw [hrequests] at hrs
    by_cases hji : j = i
    · subst hji
      rw [update_self] at hrs
      exact absurd hrs (hq rs)
    · rw [update_of_ne hji] at hrs
      exact hother j hji rs hrs r hr hnot hfl
  cases hverdict with
  | part _ hrequests _ =>
    refine ⟨fun j rs hrs r hr hnot hfl => ?_, fun size hsize => by cases hsize⟩
    rw [hrequests] at hrs
    by_cases hji : j = i
    · subst hji
      exact ⟨_, hnew, hslices rs hrs r hr hnot hfl⟩
    · exact hother j hji rs hrs r hr hnot hfl
  | right _ _ _ hrequests _ =>
    refine ⟨hupdated .none (fun rs => Requests.noConfusion) hrequests, fun size hsize => ?_⟩
    split at hsize
    · cases List.mem_singleton.mp hsize
    · cases hsize
  | wrong hrs hfl hsha _ _ =>
    rw [hall hrs hfl] at hsha
    exact absurd (hcontent.hash i) hsha

/-! ## How many blocks come in -/

/-- The blocks of a piece that have not come in, of which `k` are on their way -/
def remainingAt (t : Torrent n) (i : Fin n) (k : Nat) : Requests → Nat
  | .unmade => (blocks t i).length
  | .none => 0
  | .list rs => rs.length + k

def remaining (t : Torrent n) (requests : Fin n → Requests) (fl : List (Request n)) : Nat :=
  ∑ i, remainingAt t i (inflight fl i).length (requests i)

def Event.arrivals : Event n → Nat
  | cameIn .. => 1
  | _ => 0

theorem sum_change {f g : Fin n → Nat} (h : ∀ j, j ≠ i → f j = g j) : ∑ j, f j + g i = ∑ j, g j + f i := by
  have hrest : ∑ j ∈ Finset.univ.erase i, f j = ∑ j ∈ Finset.univ.erase i, g j :=
    Finset.sum_congr rfl fun j hj => h j (Finset.ne_of_mem_erase hj)
  rw [← Finset.add_sum_erase _ f (Finset.mem_univ i), ← Finset.add_sum_erase _ g (Finset.mem_univ i), hrest]
  omega

theorem remaining_update (requests : Fin n → Requests) (q : Requests) (hother : ∀ j, j ≠ i → inflight fl' j = inflight fl j) :
    remaining t (update requests i q) fl' + remainingAt t i (inflight fl i).length (requests i) =
      remaining t requests fl + remainingAt t i (inflight fl' i).length q := by
  have hsum := sum_change (i := i) (f := fun j => remainingAt t j (inflight fl' j).length (update requests i q j))
    (g := fun j => remainingAt t j (inflight fl j).length (requests j)) fun j hj => by
      rw [update_of_ne hj, hother j hj]
  rwa [update_self] at hsum

theorem remaining_perm (requests : Fin n → Requests) (hperm : fl.Perm fl') :
    remaining t requests fl = remaining t requests fl' :=
  Finset.sum_congr rfl fun i _ => by rw [(inflight_perm hperm i).length_eq]

theorem Requested.remaining (hsound : Sound b t sw fl) (h : Requested b t sw fl i r sw') :
    remaining t sw'.inactiveRequests ((i, r) :: fl) = remaining t sw.inactiveRequests fl := by
  obtain ⟨rs, hrs, hmem, hrequests⟩ := h.requests
  have hupdate := remaining_update (t := t) (i := i) sw.inactiveRequests (.list (rs.erase r))
    fun j hj => inflight_cons_of_ne (Ne.symm hj) fl r
  rw [inflight_cons_self, remainingAt, List.length_erase_of_mem hmem, List.length_cons] at hupdate
  have hpos := List.length_pos_of_mem hmem
  have haccounted := hsound.accounted i
  rw [hrequests]
  rcases hrs with ⟨hunmade, rfl⟩ | hrs
  · rw [hunmade] at haccounted hupdate
    rw [haccounted.eq_nil_of_unmade, remainingAt, List.length_nil] at hupdate
    omega
  · rw [hrs, remainingAt] at hupdate
    omega

theorem Lost.remaining (h : Lost b t sw fl i r sw') :
    remaining t sw'.inactiveRequests fl = remaining t sw.inactiveRequests ((i, r) :: fl) := by
  obtain ⟨rs, hrs, hrequests⟩ := h.requests
  have hupdate := remaining_update (t := t) (i := i) sw.inactiveRequests (.list (rs ++ [r]))
    fun j hj => (inflight_cons_of_ne (Ne.symm hj) fl r).symm
  rw [inflight_cons_self, remainingAt, hrs, remainingAt, List.length_append, List.length_cons, List.length_cons,
    List.length_nil] at hupdate
  rw [hrequests]
  omega

/-- A block that comes in counts once, unless the piece is rejected. -/
theorem Arrived.remaining {x : Nat} {block : Bytes} {v : Bool} {calls : List Callback}
    (hsound : Sound b t sw ((i, x, block.length) :: fl)) (h : Arrived b t sw fl i x block v calls sw')
    (hcalls : ∀ size, Callback.dataFlunked size ∉ calls) :
    remaining t sw'.inactiveRequests fl + 1 = remaining t sw.inactiveRequests ((i, x, block.length) :: fl) := by
  have hupdate := fun q => remaining_update (t := t) (i := i) sw.inactiveRequests q
    fun j hj => (inflight_cons_of_ne (Ne.symm hj) fl (x, block.length)).symm
  have haccounted := hsound.accounted i
  rw [inflight_cons_self] at haccounted
  obtain ⟨rs, hrs, -, -⟩ := haccounted.exists_list
  obtain ⟨old, -, -, -, hverdict⟩ := h.written
  cases hverdict with
  | part _ hrequests _ =>
    have hself := hupdate (sw.inactiveRequests i)
    rw [Function.update_eq_self, inflight_cons_self, hrs, remainingAt, remainingAt, List.length_cons] at hself
    rw [hrequests]
    omega
  | right hnil hfl _ hrequests _ =>
    have hself := hupdate .none
    rw [inflight_cons_self, hnil, hfl, remainingAt, remainingAt, List.length_cons, List.length_nil] at hself
    rw [hrequests]
    omega
  | wrong => exact absurd (List.mem_singleton_self _) (hcalls _)

theorem Sound.remaining_eq_zero (ht : t.Sized) (h : Sound b t sw fl) :
    remaining t sw.inactiveRequests fl = 0 ↔ sw.amountLeft = 0 := by
  rw [remaining, Finset.sum_eq_zero_iff]
  constructor
  · intro hzero
    have hall : ∀ i, sw.have_ i = true := by
      intro i
      rw [h.have_iff]
      have hi := hzero i (Finset.mem_univ i)
      have haccounted := h.accounted i
      cases hrequests : sw.inactiveRequests i with
      | none => rfl
      | unmade =>
        rw [hrequests, remainingAt, List.length_eq_zero_iff] at hi
        have htiling := blocks_tiling ht i
        rw [hi] at htiling
        cases htiling
      | list rs =>
        rw [hrequests, remainingAt, Nat.add_eq_zero_iff, List.length_eq_zero_iff, List.length_eq_zero_iff] at hi
        rw [hrequests, hi.1, hi.2] at haccounted
        exact absurd rfl haccounted.ne_nil
    rw [h.amountLeft, missing]
    exact Finset.sum_eq_zero fun i _ => if_pos (hall i)
  · intro hleft i _
    rw [(h.have_iff i).mp (h.all_have ht hleft i)]
    rfl

/-- What holds while only true blocks come in -/
structure TrueRun (b : Backing σ) (t : Torrent n) (content : Fin n → Bytes)
    (st : StorageWrapper σ n × List (Request n)) : Prop where
  sound : Sound b t st.1 st.2
  true_ : TrueSoFar b t content st.1 st.2

theorem Step.true_ (ht : t.Sized) (hcontent : TrueContent t content) (he : e.IsTrue content)
    (h : TrueRun b t content st) (hstep : Step b t st e st') :
    TrueRun b t content st' ∧ (∀ size, Callback.dataFlunked size ∉ e.calls) ∧
      remaining t st'.1.inactiveRequests st'.2 + e.arrivals = remaining t st.1.inactiveRequests st.2 := by
  cases hstep with
  | requested hi hok =>
    have hrequested := newRequest_eq ht h.sound hi hok
    exact ⟨⟨hrequested.sound, h.true_.requested hrequested⟩, fun _ => List.not_mem_nil, hrequested.remaining h.sound⟩
  | cameIn hperm hok =>
    have hsound := h.sound.perm hperm
    have harrived := pieceCameIn_ok ht hsound hok
    obtain ⟨htrue, hcalls⟩ := (h.true_.perm hperm).cameIn ht hcontent hsound he harrived
    refine ⟨⟨harrived.sound, htrue⟩, hcalls, ?_⟩
    exact (harrived.remaining hsound hcalls).trans (remaining_perm _ hperm).symm
  | lost hperm hok =>
    have hlost := requestLost_eq (h.sound.perm hperm) hok
    refine ⟨⟨hlost.sound, (h.true_.perm hperm).lost hlost⟩, fun _ => List.not_mem_nil, ?_⟩
    exact hlost.remaining.trans (remaining_perm _ hperm).symm
  | sent hok =>
    obtain ⟨hsound, hsw, -⟩ := getPiece_ok ht h.sound hok
    rcases hsw with rfl | rfl
    · exact ⟨h, fun _ => List.not_mem_nil, rfl⟩
    · exact ⟨⟨hsound, h.true_⟩, fun _ => List.not_mem_nil, rfl⟩

section

variable {s : σ} {checkHashes : Bool} {flag : Fin n → Bool} {calls : List Callback}

theorem TrueRun.init (hrequest : 0 < t.requestSize) (hs : b.total s = t.totalLength)
    (hinit : StorageWrapper.init b t checkHashes flag s = .ok (some (calls, sw))) :
    TrueRun b t content (sw, []) ∧ remaining t sw.inactiveRequests [] = ∑ i, if sw.have_ i then 0 else (blocks t i).length := by
  obtain ⟨-, hsound, -, -, -, hrequests, -⟩ := init_ok hrequest hs hinit
  refine ⟨⟨hsound, TrueSoFar.of_nil fun i rs hrs => ?_⟩, Finset.sum_congr rfl fun i _ => ?_⟩
  · rw [hrequests] at hrs
    cases hhave : sw.have_ i <;> simp [hhave] at hrs
  · rw [hrequests]
    cases sw.have_ i <;> rfl

theorem TrueRun.run (ht : t.Sized) (hcontent : TrueContent t content) (h : TrueRun b t content st)
    (hrun : Runs (Step b t) st es st') (htrue : ∀ e ∈ es, e.IsTrue content) :
    TrueRun b t content st' ∧
      remaining t st'.1.inactiveRequests st'.2 + (es.map Event.arrivals).sum = remaining t st.1.inactiveRequests st.2 :=
  ⟨hrun.preserve_of (P := TrueRun b t content) (fun _ _ _ he h hstep => (hstep.true_ ht hcontent he h).1) htrue h,
    hrun.measure_of (P := TrueRun b t content)
      (fun _ _ _ he h hstep => ⟨(hstep.true_ ht hcontent he h).1, (hstep.true_ ht hcontent he h).2.2⟩) htrue h⟩

/-- The blocks that have come in are as many as were missing when nothing is missing any more. -/
theorem TrueRun.arrivals (ht : t.Sized) (hcontent : TrueContent t content) (h : TrueRun b t content st)
    (hrun : Runs (Step b t) st es st') (htrue : ∀ e ∈ es, e.IsTrue content) :
    (es.map Event.arrivals).sum ≤ remaining t st.1.inactiveRequests st.2 ∧
      (st'.1.amountLeft = 0 ↔ (es.map Event.arrivals).sum = remaining t st.1.inactiveRequests st.2) := by
  obtain ⟨h', hmeasure⟩ := h.run ht hcontent hrun htrue
  refine ⟨by omega, ?_⟩
  rw [← h'.sound.remaining_eq_zero ht]
  omega

/-- If only true blocks come in, no piece is rejected, and every missing block comes in once until all are there. -/
theorem downloaded_true (hrequest : 0 < t.requestSize) (hs : b.total s = t.totalLength)
    (hinit : init b t checkHashes flag s = .ok (some (calls, sw))) (hcontent : TrueContent t content)
    (hrun : Runs (Step b t) (sw, []) es st) (htrue : ∀ e ∈ es, e.IsTrue content) :
    (∀ size, Callback.dataFlunked size ∉ es.flatMap Event.calls) ∧
      (es.map Event.arrivals).sum ≤ (∑ i, if sw.have_ i then 0 else (blocks t i).length) ∧
      (st.1.amountLeft = 0 ↔ (es.map Event.arrivals).sum = ∑ i, if sw.have_ i then 0 else (blocks t i).length) := by
  obtain ⟨-, -, -, ht, -⟩ := init_ok hrequest hs hinit
  obtain ⟨hstart, hremaining⟩ := TrueRun.init hrequest hs hinit
  rw [← hremaining]
  refine ⟨fun size hsize => ?_, hstart.arrivals ht hcontent hrun htrue⟩
  obtain ⟨e, he, hcall⟩ := List.mem_flatMap.mp hsize
  obtain ⟨es₁, s₁, s₂, es₂, rfl, h₁, hstep, -⟩ := hrun.exists_step he
  have hs₁ := (hstart.run ht hcontent h₁ fun e he => htrue e (List.mem_append_left _ he)).1
  exact (hstep.true_ ht hcontent (htrue e (List.mem_append_right _ List.mem_cons_self)) hs₁).2.1 size hcall

end

theorem downloaded_true_threePieces : ∃ st : StorageWrapper Bytes 3, st.amountLeft = 0 ∧
    (∀ size, Callback.dataFlunked size ∉ (outOfPlace ++ lastPiece).flatMap Event.calls) ∧
    ((outOfPlace ++ lastPiece).map Event.arrivals).sum = 5 := by
  obtain ⟨sw, st₁, -, -, st, hinit, h₁, -, -, -, -, h₂, hleft⟩ := threePieces_run
  have htrue : ∀ e ∈ outOfPlace ++ lastPiece, e.IsTrue threePieces.hashes := by
    simp [outOfPlace, lastPiece, Event.IsTrue, slice, threePieces]
  have hcontent : TrueContent threePieces threePieces.hashes := ⟨by decide, fun _ => rfl⟩
  exact ⟨st.1, hleft, (downloaded_true (by decide) rfl hinit hcontent (h₁.append h₂) htrue).1, rfl⟩

end Swinst.BitTorrent
