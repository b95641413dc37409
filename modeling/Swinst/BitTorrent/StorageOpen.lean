import Swinst.BitTorrent.Reliable
import Swinst.BitTorrent.StorageFiles

/-! `Storage.__init__` opens the files of a torrent, and keeps what is in them. -/

namespace Swinst.BitTorrent

open Function (update update_self update_of_ne)

namespace Storage

variable {faults : Faults} {st st' : Storage} {file f : Text} {length total : Nat} {fs fs' : Files}
  {files : List (Text × Nat)}

/-- The ranges of files, from `total` on -/
@[simp] def rangesOf : List (Text × Nat) → (total : Nat) → List (Segment Text)
  | [], _ => []
  | (file, length) :: files, total =>
    if length ≠ 0 then (total, total + length, file) :: rangesOf files (total + length) else rangesOf files total

theorem rangesOf_consecutive (files : List (Text × Nat)) (total : Nat) :
    Consecutive total (rangesOf files total) (total + (files.map Prod.snd).sum) := by
  induction files generalizing total with
  | nil => exact .nil
  | cons x files ih =>
    obtain ⟨file, length⟩ := x
    rw [rangesOf, List.map_cons, List.sum_cons, ← Nat.add_assoc]
    split
    · exact .cons (by omega) (ih (total + length))
    · next hzero =>
      obtain rfl := not_not.mp hzero
      exact ih total

theorem rangesOf_sublist (files : List (Text × Nat)) (total : Nat) :
    ((rangesOf files total).map fun r => r.2.2).Sublist (files.map Prod.fst) := by
  induction files generalizing total with
  | nil => exact .slnil
  | cons x files ih =>
    obtain ⟨file, length⟩ := x
    rw [rangesOf, List.map_cons]
    split
    · exact (ih (total + length)).cons_cons file
    · exact (ih total).cons file

theorem mem_rangesOf {r : Segment Text} (hr : r ∈ rangesOf files total) : (r.2.2, r.2.1 - r.1) ∈ files := by
  induction files generalizing total with
  | nil => cases hr
  | cons x files ih =>
    obtain ⟨file, length⟩ := x
    rw [rangesOf] at hr
    split at hr
    · rcases List.mem_cons.mp hr with rfl | hr
      · simp
      · exact List.mem_cons_of_mem _ (ih hr)
    · exact List.mem_cons_of_mem _ (ih hr)

theorem exists_rangesOf (total : Nat) (hfile : (file, length) ∈ files) (hne : length ≠ 0) :
    ∃ r ∈ rangesOf files total, r.2.2 = file ∧ r.2.1 - r.1 = length := by
  induction files generalizing total with
  | nil => cases hfile
  | cons x files ih =>
    obtain ⟨f, l⟩ := x
    rw [rangesOf]
    rcases List.mem_cons.mp hfile with heq | hfile
    · obtain ⟨rfl, rfl⟩ := Prod.mk.inj heq
      rw [if_pos hne]
      exact ⟨_, List.mem_cons_self, rfl, Nat.add_sub_cancel_left ..⟩
    · split
      · obtain ⟨r, hr, hrange⟩ := ih (total + l) hfile
        exact ⟨r, List.mem_cons_of_mem _ hr, hrange⟩
      · exact ih total hfile

/-- Files without bytes have no range. -/
theorem rangesOf_flatMap {c : Text → Bytes} (hc : ∀ x ∈ files, (c x.1).length = x.2) :
    (rangesOf files total).flatMap (fun r => c r.2.2) = files.flatMap fun x => c x.1 := by
  induction files generalizing total with
  | nil => rfl
  | cons x files ih =>
    obtain ⟨file, length⟩ := x
    have hrest : ∀ total, (rangesOf files total).flatMap (fun r => c r.2.2) = files.flatMap fun x => c x.1 :=
      fun _ => ih fun x hx => hc x (List.mem_cons_of_mem _ hx)
    rw [rangesOf, List.flatMap_cons]
    split
    · rw [List.flatMap_cons, hrest]
    · next hzero =>
      have hnil : (c file).length = 0 := (hc _ List.mem_cons_self).trans (not_not.mp hzero)
      rw [hrest, List.length_eq_zero_iff.mp hnil, List.nil_append]

/-- A file that did not exist may now be empty. -/
structure Touched (fs fs' : Files) : Prop where
  getD : ∀ f, (fs' f).getD [] = (fs f).getD []
  exist : ∀ f, (fs f).isSome → fs' f = fs f

theorem touch_ok (hok : touch faults file fs = .ok fs') :
    Touched fs fs' ∧ (fs' file).isSome ∧ ∀ f, f ≠ file → fs' f = fs f := by
  rw [touch] at hok
  split at hok
  · next hsome =>
    obtain rfl := Except.ok.inj hok
    exact ⟨⟨fun _ => rfl, fun _ _ => rfl⟩, hsome, fun _ _ => rfl⟩
  · next hnone =>
    obtain rfl := openFile_wb (.inl rfl) hok
    rw [Bool.not_eq_true, Option.isSome_eq_false_iff, Option.isNone_iff_eq_none] at hnone
    refine ⟨⟨fun f => ?_, fun f hf => ?_⟩, by rw [update_self]; rfl, fun f hf => update_of_ne hf ..⟩
    · by_cases hfile : f = file
      · subst hfile
        rw [update_self, hnone]
        rfl
      · rw [update_of_ne hfile]
    · refine update_of_ne ?_ ..
      rintro rfl
      rw [hnone] at hf
      cases hf

theorem layOut_ok {ranges : List (Segment Text)} {sum : Nat}
    (hok : layOut faults files total fs = .ok (ranges, sum, fs')) :
    ranges = rangesOf files total ∧ sum = total + (files.map Prod.snd).sum ∧ Touched fs fs' ∧
      ∀ f, f ∉ files.map Prod.fst → fs' f = fs f := by
  induction files generalizing total fs ranges with
  | nil =>
    cases hok
    exact ⟨rfl, rfl, ⟨fun _ => rfl, fun _ _ => rfl⟩, fun _ _ => rfl⟩
  | cons x files ih =>
    obtain ⟨file, length⟩ := x
    rw [layOut] at hok
    rw [rangesOf, List.map_cons, List.map_cons, List.sum_cons, ← Nat.add_assoc]
    split at hok
    · next hne =>
      obtain ⟨⟨ranges', sum', fs₁⟩, hrest, hok⟩ := bind_eq_ok hok
      cases hok
      obtain ⟨rfl, hsum, htouched, hothers⟩ := ih hrest
      refine ⟨(if_pos hne).symm, hsum, htouched, fun f hf => hothers f fun hmem => hf (List.mem_cons_of_mem _ hmem)⟩
    · next hzero =>
      obtain ⟨fs₁, htouch, hok⟩ := bind_eq_ok hok
      obtain ⟨htouched, -, hothers⟩ := touch_ok htouch
      obtain ⟨rfl, rfl, htouched', hothers'⟩ := ih hok
      refine ⟨(if_neg hzero).symm, by rw [not_not.mp hzero, Nat.add_zero], ⟨fun f => ?_, fun f hf => ?_⟩, fun f hf => ?_⟩
      · rw [htouched'.getD, htouched.getD]
      · rw [htouched'.exist f (htouched.exist f hf ▸ hf), htouched.exist f hf]
      · rw [List.mem_cons, not_or] at hf
        rw [hothers' f hf.2, hothers f hf.1]

/-- What the second loop makes of a file -/
structure Opened (fs : Files) (st : Storage) (file : Text) (length : Nat) : Prop where
  handle : ∃ mode, st.handles file = some mode ∧ (file ∈ st.whandles → mode.writable = true)
  files : st.files file = some (((fs file).getD []).take length)
  top : ∀ top, st.tops file = some top → min top length ≤ (((fs file).getD []).take length).length

/-- What happens to other files -/
structure Others (st st' : Storage) (P : Text → Prop) : Prop where
  handles : ∀ f, P f → st'.handles f = st.handles f
  whandles : ∀ f, P f → (f ∈ st'.whandles ↔ f ∈ st.whandles)
  tops : ∀ f, P f → st'.tops f = st.tops f
  files : ∀ f, P f → st'.files f = st.files f

theorem openHandle_ok (hnew : file ∉ st.whandles) (htop : st.tops file = none)
    (hok : openHandle faults file length st = .ok st') : Opened st.files st' file length ∧
      Others st st' (· ≠ file) ∧ st'.ranges = st.ranges ∧ st'.totalLength = st.totalLength := by
  rw [openHandle] at hok
  split at hok
  · next content hcontent =>
    dsimp only at hok
    split at hok
    · next hne =>
      obtain ⟨fs, hfs, hok⟩ := bind_eq_ok hok
      obtain ⟨fs', hshorten, hok⟩ := bind_eq_ok hok
      obtain rfl := Except.ok.inj hok
      obtain ⟨rfl, -⟩ := openFile_rb (.inr rfl) hfs
      have hfs' : fs' = update st.files file (some (content.take length)) := by
        rw [shorten] at hshorten
        split at hshorten
        · rw [truncateFile] at hshorten
          split at hshorten
          · cases hshorten
          · rw [← Except.ok.inj hshorten, hcontent, Option.map_some]
        · next hle =>
          rw [← Except.ok.inj hshorten, List.take_of_length_le (Nat.le_of_not_lt hle), ← hcontent,
            Function.update_eq_self]
      subst hfs'
      refine ⟨⟨⟨.rbPlus, update_self .., fun _ => rfl⟩, ?_, fun top htop => ?_⟩,
        ⟨fun f hf => update_of_ne hf .., fun f hf => ?_, fun f hf => update_of_ne hf .., fun f hf => update_of_ne hf ..⟩,
        rfl, rfl⟩
      · simp only [update_self, hcontent, Option.getD_some]
      · simp only [update_self, Option.some.injEq] at htop
        rw [hcontent, Option.getD_some, List.length_take, htop, min_comm]
      · simp [hf]
    · next heq =>
      obtain ⟨fs, hfs, hok⟩ := bind_eq_ok hok
      obtain rfl := Except.ok.inj hok
      obtain ⟨rfl, -⟩ := openFile_rb (.inl rfl) hfs
      have hlen : content.length = length := not_not.mp heq
      refine ⟨⟨⟨.rb, update_self .., fun hmem => absurd hmem hnew⟩, ?_, fun top htop => ?_⟩,
        ⟨fun f hf => update_of_ne hf .., fun f hf => Iff.rfl, fun f hf => update_of_ne hf .., fun f hf => rfl⟩, rfl, rfl⟩
      · simp only [hcontent, Option.getD_some]
        rw [List.take_of_length_le hlen.le]
      · simp only [update_self, Option.some.injEq] at htop
        rw [hcontent, Option.getD_some, List.length_take, htop, min_comm]
  · next hnone =>
    obtain ⟨fs, hfs, hok⟩ := bind_eq_ok hok
    obtain rfl := Except.ok.inj hok
    obtain rfl := openFile_wb (.inr rfl) hfs
    refine ⟨⟨⟨.wbPlus, update_self .., fun _ => rfl⟩, ?_, fun top htop' => ?_⟩,
      ⟨fun f hf => update_of_ne hf .., fun f hf => ?_, fun f hf => rfl, fun f hf => update_of_ne hf ..⟩, rfl, rfl⟩
    · simp only [update_self, hnone, Option.getD_none, List.take_nil]
    · simp only [htop] at htop'
      cases htop'
    · simp [hf]

theorem openAll_ok (hnodup : (files.map Prod.fst).Nodup) (hnew : ∀ f ∈ files.map Prod.fst, f ∉ st.whandles)
    (htop : ∀ f ∈ files.map Prod.fst, st.tops f = none) (hok : openAll faults files st = .ok st') :
    (∀ x ∈ files, Opened st.files st' x.1 x.2) ∧ Others st st' (· ∉ files.map Prod.fst) ∧ st'.ranges = st.ranges ∧
      st'.totalLength = st.totalLength := by
  induction files generalizing st with
  | nil =>
    obtain rfl := Except.ok.inj hok
    refine ⟨fun x hx => ?_, ⟨fun _ _ => rfl, fun _ _ => Iff.rfl, fun _ _ => rfl, fun _ _ => rfl⟩, rfl, rfl⟩
    cases hx
  | cons x files ih =>
    obtain ⟨file, length⟩ := x
    rw [openAll] at hok
    obtain ⟨st₁, hopen, hok⟩ := bind_eq_ok hok
    rw [List.map_cons, List.nodup_cons] at hnodup
    rw [List.map_cons] at hnew htop
    obtain ⟨hopened, hothers, hranges, htotal⟩ :=
      openHandle_ok (hnew file List.mem_cons_self) (htop file List.mem_cons_self) hopen
    have hne : ∀ f ∈ files.map Prod.fst, f ≠ file := by
      rintro f hf rfl
      exact hnodup.1 hf
    obtain ⟨hrest, hothers', hranges', htotal'⟩ := ih hnodup.2
      (fun f hf => (hothers.whandles f (hne f hf)).not.mpr (hnew f (List.mem_cons_of_mem _ hf)))
      (fun f hf => (hothers.tops f (hne f hf)).trans (htop f (List.mem_cons_of_mem _ hf))) hok
    refine ⟨fun x hx => ?_, ⟨fun f hf => ?_, fun f hf => ?_, fun f hf => ?_, fun f hf => ?_⟩, hranges'.trans hranges,
      htotal'.trans htotal⟩
    · rcases List.mem_cons.mp hx with rfl | hx
      · obtain ⟨mode, hmode, hwritable⟩ := hopened.handle
        refine ⟨⟨mode, (hothers'.handles _ hnodup.1).trans hmode, fun hmem => ?_⟩, ?_, fun top htop => ?_⟩
        · exact hwritable ((hothers'.whandles _ hnodup.1).mp hmem)
        · exact (hothers'.files _ hnodup.1).trans hopened.files
        · exact hopened.top top ((hothers'.tops _ hnodup.1).symm.trans htop)
      · have hfiles := hothers.files x.1 (hne _ (List.mem_map_of_mem hx))
        obtain ⟨hhandle, hcontent, htop'⟩ := hrest x hx
        rw [hfiles] at hcontent htop'
        exact ⟨hhandle, hcontent, htop'⟩
    all_goals
      rw [List.map_cons, List.mem_cons, not_or] at hf
    · rw [hothers'.handles f hf.2, hothers.handles f hf.1]
    · rw [hothers'.whandles f hf.2, hothers.whandles f hf.1]
    · rw [hothers'.tops f hf.2, hothers.tops f hf.1]
    · rw [hothers'.files f hf.2, hothers.files f hf.1]

/-- Every file keeps what fits into it, and the storage is one row of all of them. -/
theorem init_ok (hnodup : (files.map Prod.fst).Nodup) (hok : init faults files fs = .ok st) :
    st.WellFormed ∧ st.ranges = rangesOf files 0 ∧ st.totalLength = (files.map Prod.snd).sum ∧
      (∀ x ∈ files, st.files x.1 = some (((fs x.1).getD []).take x.2)) ∧
      ∀ f, f ∉ files.map Prod.fst → st.files f = fs f := by
  rw [init] at hok
  obtain ⟨⟨ranges, sum, fs'⟩, hlay, hok⟩ := bind_eq_ok hok
  obtain ⟨rfl, rfl, htouched, hothers⟩ := layOut_ok hlay
  obtain ⟨hopened, hothers', hranges, htotal⟩ :=
    openAll_ok hnodup (fun _ _ => List.not_mem_nil) (fun _ _ => rfl) hok
  dsimp only at hranges htotal hopened
  rw [Nat.zero_add] at htotal
  have hfiles : ∀ x ∈ files, st.files x.1 = some (((fs x.1).getD []).take x.2) := fun x hx => by
    rw [(hopened x hx).files, htouched.getD]
  refine ⟨⟨?_, ?_, fun r hr => ?_, fun r hr => ?_, fun r hr => ?_⟩, hranges, htotal, hfiles, fun f hf => ?_⟩
  · rw [hranges, htotal]
    have hconsecutive := rangesOf_consecutive files 0
    rwa [Nat.zero_add] at hconsecutive
  · rw [hranges]
    exact hnodup.sublist (rangesOf_sublist files 0)
  · exact (hopened _ (mem_rangesOf (hranges ▸ hr))).handle
  · rw [(hopened _ (mem_rangesOf (hranges ▸ hr))).files]
    rfl
  · have hx := hopened _ (mem_rangesOf (hranges ▸ hr))
    rw [content, hx.files, Option.getD_some]
    exact ⟨List.length_take_le .., hx.top⟩
  · rw [hothers'.files f hf]
    exact hothers f hf

/-! ## Without failures -/

theorem readChunks_total (hfaults : ∀ fs op, faults fs op = false) {iv : List (Text × Nat × Nat)}
    (hiv : ∀ x ∈ iv, ∃ mode, st.handles x.1 = some mode) : ∃ r, st.readChunks faults iv = .ok r := by
  induction iv with
  | nil => exact ⟨[], rfl⟩
  | cons x iv ih =>
    obtain ⟨file, b, e⟩ := x
    obtain ⟨mode, hmode⟩ := hiv _ List.mem_cons_self
    obtain ⟨r, hr⟩ := ih fun x hx => hiv x (List.mem_cons_of_mem _ hx)
    rw [readChunks, handle, hmode, hfaults, hr]
    exact ⟨_, rfl⟩

theorem openFile_total (hfaults : ∀ fs op, faults fs op = false) (hfile : (fs file).isSome) :
    openFile faults file .rbPlus fs = .ok fs := by
  rw [openFile, hfaults, if_neg Bool.false_ne_true, if_pos hfile]

theorem reopen_total (hfaults : ∀ fs op, faults fs op = false) (hfile : (st.files file).isSome) {mode : Mode}
    (hmode : st.handles file = some mode) (hwritable : file ∈ st.whandles → mode.writable = true) :
    ∃ st', reopen faults file st = .ok st' ∧ ∃ mode, st'.handles file = some mode ∧ mode.writable = true := by
  rw [reopen]
  split
  · next hmem => exact ⟨st, rfl, mode, hmode, hwritable (List.contains_iff_mem.mp hmem)⟩
  · rw [handle, hmode, bind_ok, openFile_total hfaults hfile]
    exact ⟨_, rfl, .rbPlus, update_self .., rfl⟩

theorem writeChunks_total (hfaults : ∀ fs op, faults fs op = false) {data : Bytes} {iv : List (Text × Nat × Nat)}
    {done : Int} (hopened : ∀ x ∈ iv, ∃ mode, st.handles x.1 = some mode ∧ (x.1 ∈ st.whandles → mode.writable = true))
    (hexist : ∀ x ∈ iv, (st.files x.1).isSome) : ∃ st', writeChunks faults data iv done st = .ok st' := by
  induction iv generalizing st done with
  | nil => exact ⟨st, rfl⟩
  | cons x iv ih =>
    obtain ⟨file, b, e⟩ := x
    obtain ⟨mode, hmode, hwritable⟩ := hopened _ List.mem_cons_self
    obtain ⟨st₁, hreopen, mode₁, hmode₁, hwritable₁⟩ :=
      reopen_total hfaults (hexist _ List.mem_cons_self) hmode hwritable
    have hwrite : ∃ st₂, writeChunk faults file b (pySlice data done (done + e - b)) st₁ = .ok st₂ := by
      rw [writeChunk, handle, hmode₁, bind_ok, hwritable₁, hfaults]
      exact ⟨_, rfl⟩
    obtain ⟨st₂, hwrite⟩ := hwrite
    have hframe := (reopen_ok hreopen).1.trans (writeChunk_ok hwrite).1
    rw [writeChunks, hreopen, bind_ok, hwrite, bind_ok]
    exact ih (fun x hx => hframe.opened _ (hopened x (List.mem_cons_of_mem _ hx)))
      (fun x hx => hframe.exist _ (hexist x (List.mem_cons_of_mem _ hx)))

end Storage

/-- The files that a range of positions is in are among those of the storage. -/
theorem exists_range {d : Disk} (pos amount : Nat) (hpos : 0 < d.1.totalLength) :
    ∃ iv, d.1.intervals pos amount = .ok iv ∧ ∀ x ∈ iv, ∃ r ∈ d.1.ranges, r.2.2 = x.1 := by
  have hne : ¬ d.1.ranges.isEmpty = true := by
    intro hempty
    have hconsecutive := d.2.ranges
    rw [List.isEmpty_iff.mp hempty] at hconsecutive
    generalize d.1.totalLength = total at hpos hconsecutive
    cases hconsecutive
    exact lt_irrefl _ hpos
  rw [Storage.intervals, if_neg hne]
  refine ⟨_, rfl, fun x hx => ?_⟩
  obtain ⟨r, hr, -, rfl⟩ := mem_overlaps hx
  exact ⟨r, (List.drop_sublist ..).subset hr, rfl⟩

theorem disk_reliable {faults : Faults} (hfaults : ∀ fs op, faults fs op = false) : (disk faults).Reliable where
  read {d pos amount} hpos _ := by
    obtain ⟨iv, hiv, hfiles⟩ := exists_range pos amount hpos
    have hread : d.1.read faults pos amount = d.1.readChunks faults iv := by rw [Storage.read, hiv, bind_ok]
    have hopened : ∀ x ∈ iv, ∃ mode, d.1.handles x.1 = some mode := fun x hx => by
      obtain ⟨r, hr, hfile⟩ := hfiles x hx
      obtain ⟨mode, hmode, -⟩ := d.2.opened r hr
      exact ⟨mode, hfile ▸ hmode⟩
    obtain ⟨r, hr⟩ := Storage.readChunks_total hfaults hopened
    exact ⟨r, hread.trans hr⟩
  write {d pos data} hpos hle := by
    obtain ⟨iv, hiv, hfiles⟩ := exists_range pos data.length hpos
    have hwrite : d.1.write faults pos data = Storage.writeChunks faults data iv 0 d.1 := by
      rw [Storage.write, hiv, bind_ok]
    have hchunks : ∃ st, Storage.writeChunks faults data iv 0 d.1 = .ok st := by
      refine Storage.writeChunks_total hfaults (fun x hx => ?_) fun x hx => ?_
      · obtain ⟨r, hr, hfile⟩ := hfiles x hx
        exact hfile ▸ d.2.opened r hr
      · obtain ⟨r, hr, hfile⟩ := hfiles x hx
        exact hfile ▸ d.2.exist r hr
    obtain ⟨st, hst⟩ := hchunks
    have hok : ∃ d', d.write faults pos data = .ok d' := by
      rw [Disk.write]
      have hle' : pos + data.length ≤ d.1.totalLength := hle
      rw [dif_pos hle']
      split
      · exact ⟨_, rfl⟩
      · next herror =>
        rw [hwrite, hst] at herror
        cases herror
    exact hok

end Swinst.BitTorrent
