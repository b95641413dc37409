import Swinst.BitTorrent.StorageOpen
import Swinst.BitTorrent.TrueBlocks

/-! The files on the disk when a download is complete. -/

namespace Swinst.BitTorrent

open Function (update update_self update_of_ne)
open StorageWrapper

variable {σ : Type} {n : Nat} {b : Backing σ} {t : Torrent n} {sw sw' : StorageWrapper σ n} {index : Fin n}
  {st st' : StorageWrapper σ n × List (Request n)} {e : Event n} {es : List (Event n)} {P : σ → Prop}

section Storage

variable (hput : ∀ {s pos data s'}, P s → b.put s pos data = .ok s' → P s')

include hput

theorem allocate_storage (h : P sw.storage) (hok : sw.allocate b t index = .ok sw') : P sw'.storage := by
  rw [StorageWrapper.allocate] at hok
  split at hok
  · cases hok
  split at hok
  · obtain ⟨old, -, hok⟩ := bind_eq_ok hok
    split at hok
    · cases hok
    obtain ⟨s₁, hput₁, hok⟩ := bind_eq_ok hok
    split at hok
    · obtain rfl := Except.ok.inj hok
      exact hput h hput₁
    · obtain ⟨p, -, hok⟩ := bind_eq_ok hok
      obtain ⟨old', -, hok⟩ := bind_eq_ok hok
      obtain ⟨s₂, hput₂, hok⟩ := bind_eq_ok hok
      obtain rfl := Except.ok.inj hok
      exact hput (hput h hput₁) hput₂
  · split at hok
    · obtain ⟨s₁, hfill, hok⟩ := bind_eq_ok hok
      obtain rfl := Except.ok.inj hok
      rw [StorageWrapper.fill] at hfill
      split at hfill
      · obtain rfl := Except.ok.inj hfill
        exact h
      · exact hput h hfill
    · obtain ⟨p, -, hok⟩ := bind_eq_ok hok
      obtain ⟨old, -, hok⟩ := bind_eq_ok hok
      obtain ⟨s₁, hput₁, hok⟩ := bind_eq_ok hok
      obtain rfl := Except.ok.inj hok
      exact hput h hput₁

/-- What every write keeps, a block that comes in keeps. -/
theorem pieceCameIn_storage {x : Nat} {block : Bytes} {v : Bool} {calls : List Callback} (h : P sw.storage)
    (hok : pieceCameIn b t index x block sw = .ok (v, calls, sw')) : P sw'.storage := by
  rw [pieceCameIn] at hok
  obtain ⟨sw₁, hensure, hok⟩ := bind_eq_ok hok
  have h₁ : P sw₁.storage := by
    rw [ensurePlace] at hensure
    split at hensure
    · exact allocate_storage hput h hensure
    · obtain rfl := Except.ok.inj hensure
      exact h
  rw [arrive] at hok
  split at hok
  · cases hok
  obtain ⟨s₂, hput₂, hok⟩ := bind_eq_ok hok
  have h₂ := hput h₁ hput₂
  dsimp only at hok
  split at hok
  · obtain ⟨data, -, hok⟩ := bind_eq_ok hok
    split at hok <;> cases hok <;> exact h₂
  · cases hok
    exact h₂

theorem Step.storage (ht : t.Sized) (hsound : Sound b t st.1 st.2) (hstep : Step b t st e st') (h : P st.1.storage) :
    P st'.1.storage := by
  cases hstep with
  | requested hi hok => exact (newRequest_eq ht hsound hi hok).data.storage ▸ h
  | cameIn hperm hok => exact pieceCameIn_storage hput h hok
  | lost hperm hok => exact (requestLost_eq (hsound.perm hperm) hok).data.storage ▸ h
  | sent hok =>
    obtain ⟨-, hsw, -⟩ := getPiece_ok ht hsound hok
    rcases hsw with rfl | rfl <;> exact h

theorem Sound.run_storage (ht : t.Sized) (hsound : Sound b t st.1 st.2) (hrun : Runs (Step b t) st es st')
    (h : P st.1.storage) : P st'.1.storage :=
  (hrun.preserve (P := fun st => Sound b t st.1 st.2 ∧ P st.1.storage)
    (fun _ _ _ h hstep => ⟨hstep.sound ht h.1, hstep.storage hput ht h.1 h.2⟩) ⟨hsound, h⟩).2

end Storage

/-- The layout of the storage stays, and so do the files that are not part of it. -/
structure SameLayout (d d' : Disk) : Prop where
  ranges : d'.1.ranges = d.1.ranges
  totalLength : d'.1.totalLength = d.1.totalLength
  others : ∀ f, (f ∉ d.1.ranges.map fun r => r.2.2) → d'.1.files f = d.1.files f

theorem SameLayout.put {faults : Faults} {d d₁ d₂ : Disk} {pos : Nat} {data : Bytes} (h : SameLayout d d₁)
    (hok : (disk faults).put d₁ pos data = .ok d₂) : SameLayout d d₂ := by
  obtain ⟨hle, hok⟩ := Disk.write_ok (catchIOError_ok hok)
  obtain ⟨hframe, -⟩ := d₁.2.write_ok hle hok
  refine ⟨hframe.ranges.trans h.ranges, hframe.totalLength.trans h.totalLength, fun f hf => ?_⟩
  rw [Storage.write_others hok (by rwa [h.ranges]), h.others f hf]

theorem mem_ranges_pos {st : Storage} (h : st.WellFormed) {r : Segment Text} (hr : r ∈ st.ranges) : 0 < r.2.1 - r.1 := by
  have := (h.ranges.mem hr).2.1
  omega

/-- When nothing is missing any more, the files of the torrent are its data, cut in their lengths, and no other file has
changed. -/
theorem download_files {faults : Faults} {files : List (Text × Nat)} {fs : Files} {d : Disk} {flag : Fin n → Bool}
    {calls : List Callback} {sw : StorageWrapper Disk n} {st : StorageWrapper Disk n × List (Request n)}
    (hrequest : 0 < t.requestSize) (hnodup : (files.map Prod.fst).Nodup)
    (hlength : t.totalLength = (files.map Prod.snd).sum) (hstorage : Storage.init faults files fs = .ok d.1)
    (hinit : init (disk faults) t true flag d = .ok (some (calls, sw)))
    (hrun : Runs (Step (disk faults) t) (sw, []) es st) (hleft : st.1.amountLeft = 0) :
    t.IsContent (files.flatMap fun x => st.1.storage.1.content x.1) ∧
      (∀ x ∈ files, (st.1.storage.1.content x.1).length = x.2) ∧
      ∀ f, f ∉ files.map Prod.fst → st.1.storage.1.files f = fs f := by
  obtain ⟨hwell, hranges, htotal, hkept, hfs⟩ := Storage.init_ok hnodup hstorage
  have hs : (disk faults).total d = t.totalLength := htotal.trans hlength.symm
  obtain ⟨hsame, hsound, -, ht, hchecked, -⟩ := init_ok hrequest hs hinit
  have hlayout : SameLayout d st.1.storage :=
    hsound.run_storage (P := SameLayout d) (fun h hok => h.put hok) ht hrun (hsame ▸ ⟨rfl, rfl, fun _ _ => rfl⟩)
  obtain ⟨hst, hchecked⟩ := hsound.run_checked ht hchecked hrun
  obtain ⟨data, hdata, hat⟩ := hst.content ht hleft hchecked
  have hconsecutive := st.1.storage.2.ranges
  rw [hlayout.totalLength, htotal, ← hlength] at hconsecutive
  have hitem : ∀ k x, data[k]? = some x → flat st.1.storage.1.ranges st.1.storage.1.content k = some x := fun k x hx => by
    have := hat k x hx
    rwa [Nat.zero_add] at this
  -- no file is shorter than its range
  have hfull : ∀ r ∈ st.1.storage.1.ranges, (st.1.storage.1.content r.2.2).length = r.2.1 - r.1 := by
    intro r hr
    refine le_antisymm (st.1.storage.2.content r hr).1 ?_
    obtain ⟨-, hlt, hle⟩ := hconsecutive.mem hr
    have hlast := hitem (r.2.1 - 1) _ (List.getElem?_eq_getElem (by rw [hdata.length]; omega))
    rw [flat_of_mem hconsecutive hr (by omega) (by omega)] at hlast
    have := (List.getElem?_eq_some_iff.mp hlast).1
    omega
  have hlengths : ∀ x ∈ files, (st.1.storage.1.content x.1).length = x.2 := by
    rintro ⟨file, length⟩ hx
    by_cases hzero : length = 0
    · subst hzero
      -- an empty file is in no range
      have hnot : file ∉ d.1.ranges.map fun r => r.2.2 := by
        intro hmem
        obtain ⟨r, hr, hfile⟩ := List.mem_map.mp hmem
        have hr' := mem_ranges_pos hwell hr
        have hmem' := Storage.mem_rangesOf (hranges ▸ hr)
        rw [hfile] at hmem'
        have heq := List.inj_on_of_nodup_map hnodup hmem' hx rfl
        have hlen : r.2.1 - r.1 = 0 := congrArg Prod.snd heq
        omega
      rw [Storage.content, hlayout.others file hnot, hkept _ hx, Option.getD_some, List.take_zero]
      rfl
    · obtain ⟨r, hr, rfl, rfl⟩ := Storage.exists_rangesOf 0 hx hzero
      refine hfull r ?_
      rw [hlayout.ranges, hranges]
      exact hr
  refine ⟨?_, hlengths, fun f hf => ?_⟩
  · have hflat := flatMap_eq hconsecutive hfull (by rw [hdata.length, Nat.sub_zero])
      (by simpa using hitem)
    rw [← hflat, hlayout.ranges, hranges, Storage.rangesOf_flatMap hlengths] at hdata
    exact hdata
  · rw [hlayout.others f, hfs f hf]
    rw [hranges]
    exact fun hmem => hf ((Storage.rangesOf_sublist files 0).subset hmem)

private def threeFiles : List (Text × Nat) := [(['a'], 1), (['b'], 3), (['c'], 1)]

/-- Pieces that go over the ends of files -/
theorem download_files_three : ∃ st : StorageWrapper Disk 3 × List (Request 3), st.1.amountLeft = 0 ∧
    threePieces.IsContent (threeFiles.flatMap fun x => st.1.storage.1.content x.1) ∧
    ∀ x ∈ threeFiles, (st.1.storage.1.content x.1).length = x.2 := by
  have hnodup : (threeFiles.map Prod.fst).Nodup := by decide
  obtain ⟨s, hs⟩ : ∃ s, Storage.init (fun _ _ => false) threeFiles (fun _ => none) = .ok s := ⟨_, rfl⟩
  obtain ⟨hwell, -, hlength, -⟩ := Storage.init_ok hnodup hs
  have htotal : (disk fun _ _ => false).total ⟨s, hwell⟩ = threePieces.totalLength := hlength
  obtain ⟨sw, hinit⟩ : ∃ sw, init (disk fun _ _ => false) threePieces true (fun _ => false) ⟨s, hwell⟩ =
      .ok (some ([], sw)) := by
    obtain rfl := Except.ok.inj hs
    exact ⟨_, rfl⟩
  obtain ⟨-, -, -, ht, hchecked, -⟩ := init_ok (by decide) htotal hinit
  have hcontent : TrueContent threePieces threePieces.hashes := ⟨by decide, fun _ => rfl⟩
  obtain ⟨hstart, -⟩ := TrueRun.init (by decide) htotal hinit
  obtain ⟨es, st, hrun, -, hleft⟩ := hstart.can_complete (disk_reliable fun _ _ => rfl) ht hcontent hchecked
  obtain ⟨hdata, hlengths, -⟩ := download_files (by decide) hnodup rfl hs hinit hrun hleft
  exact ⟨st, hleft, hdata, hlengths⟩

end Swinst.BitTorrent
