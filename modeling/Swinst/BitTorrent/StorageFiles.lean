import Swinst.BitTorrent.Storage

/-! The files of a torrent are read and written like one row of bytes. -/

namespace Swinst.BitTorrent

open Function (update update_self update_of_ne)

namespace Storage

structure WellFormed (st : Storage) : Prop where
  ranges : Consecutive 0 st.ranges st.totalLength
  nodup : (st.ranges.map fun r => r.2.2).Nodup
  opened : ∀ r ∈ st.ranges, ∃ mode, st.handles r.2.2 = some mode ∧ (r.2.2 ∈ st.whandles → mode.writable = true)
  exist : ∀ r ∈ st.ranges, (st.files r.2.2).isSome
  content : ∀ r ∈ st.ranges, (st.content r.2.2).length ≤ r.2.1 - r.1 ∧
    ∀ top, st.tops r.2.2 = some top → min top (r.2.1 - r.1) ≤ (st.content r.2.2).length

variable {faults : Faults} {st st' : Storage} {file : Text} {pos amount begin : Nat} {data chunk : Bytes}
  {iv : List (Text × Nat × Nat)}

/-! ## Files -/

theorem openFile_rb {mode : Mode} {fs fs' : Files} (hmode : mode = .rb ∨ mode = .rbPlus)
    (hok : openFile faults file mode fs = .ok fs') : fs' = fs ∧ (fs file).isSome := by
  rcases hmode with rfl | rfl
  all_goals
    rw [openFile] at hok
    split at hok
    · cases hok
    · split at hok
      · next hsome => exact ⟨(Except.ok.inj hok).symm, hsome⟩
      · cases hok

theorem openFile_wb {mode : Mode} {fs fs' : Files} (hmode : mode = .wb ∨ mode = .wbPlus)
    (hok : openFile faults file mode fs = .ok fs') : fs' = update fs file (some []) := by
  rcases hmode with rfl | rfl
  all_goals
    rw [openFile] at hok
    split at hok
    · cases hok
    · exact (Except.ok.inj hok).symm

/-! ## Intervals -/

/-- The ranges up to the one in which a position is, and the others -/
structure Behind (st : Storage) (pos : Nat) (pre rs : List (Segment Text)) (lo : Nat) : Prop where
  ranges : st.ranges = pre ++ rs
  pre : Consecutive 0 pre lo
  rest : Consecutive lo rs st.totalLength
  le : lo ≤ pos
  first : ∀ r ∈ rs.head?, pos < r.2.1
  intervals : ∀ amount, st.intervals pos amount = .ok (overlaps rs pos (pos + amount))

theorem WellFormed.behind (h : st.WellFormed) (hpos : pos < st.totalLength) : ∃ pre rs lo, Behind st pos pre rs lo := by
  obtain ⟨pre, b, e, a, post, hranges, hcount, hb, he, hpre, hpost⟩ := h.ranges.split (Nat.zero_le pos) hpos
  have hdrop : st.ranges.drop ((st.ranges.countP fun r => r.1 ≤ pos) - 1) = (b, e, a) :: post := by
    rw [hcount, Nat.add_sub_cancel, hranges, List.drop_left]
  refine ⟨pre, (b, e, a) :: post, b, hranges, hpre, hpost, hb, fun r hr => ?_, fun amount => ?_⟩
  · obtain rfl := Option.some.inj hr
    exact he
  · rw [Storage.intervals, if_neg, hdrop]
    rw [hranges]
    simp

theorem overlaps_le {rs : List (Segment Text)} {lo hi stop : Nat} (h : Consecutive lo rs hi)
    (hfirst : ∀ r ∈ rs.head?, pos < r.2.1) (hle : pos ≤ stop) {x : Text × Nat × Nat} (hx : x ∈ overlaps rs pos stop) :
    x.2.1 ≤ x.2.2 := by
  obtain ⟨r, hr, hlt, rfl⟩ := mem_overlaps hx
  have hrange := h.mem hr
  have hpos : pos < r.2.1 := by
    cases h with
    | nil => cases hr
    | cons hlt h =>
      rcases List.mem_cons.mp hr with rfl | hr
      · exact hfirst _ rfl
      · have := h.mem hr
        have := hfirst _ rfl
        dsimp only at this
        omega
  dsimp only
  omega

/-! ## Reading -/

theorem readChunks_ok (hiv : ∀ x ∈ iv, x.2.1 ≤ x.2.2 ∨ (st.content x.1).length ≤ x.2.1) {r : Bytes}
    (hok : st.readChunks faults iv = .ok r) : r = readOverlaps st.content iv := by
  induction iv generalizing r with
  | nil => exact (Except.ok.inj hok).symm
  | cons x iv ih =>
    obtain ⟨file, b, e⟩ := x
    rw [readChunks] at hok
    obtain ⟨_, -, hok⟩ := bind_eq_ok hok
    split at hok
    · cases hok
    · obtain ⟨r', hr', hok⟩ := bind_eq_ok hok
      rw [← Except.ok.inj hok, ih (fun x hx => hiv x (List.mem_cons_of_mem _ hx)) hr', readOverlaps, readOverlaps,
        List.flatMap_cons]
      congr 1
      split
      · next hlt =>
        have hlen : (st.content file).length ≤ b := (hiv _ List.mem_cons_self).resolve_left (Nat.not_le.mpr hlt)
        rw [List.drop_of_length_le hlen, List.take_nil]
      · rfl

/-- A range is not read beyond its end, unless there is nothing any more. -/
theorem WellFormed.overlaps_le (h : st.WellFormed) {rs : List (Segment Text)} (hrs : rs.Sublist st.ranges) {stop : Nat}
    (hle : pos ≤ stop) {x : Text × Nat × Nat} (hx : x ∈ overlaps rs pos stop) :
    x.2.1 ≤ x.2.2 ∨ (st.content x.1).length ≤ x.2.1 := by
  obtain ⟨r, hr, hlt, rfl⟩ := mem_overlaps hx
  have hrange := h.ranges.mem (hrs.subset hr)
  have hcontent := (h.content r (hrs.subset hr)).1
  dsimp only
  omega

theorem WellFormed.read_eq (h : st.WellFormed) {r xs : Bytes} (hok : st.read faults pos xs.length = .ok r)
    (hle : pos + xs.length ≤ st.totalLength)
    (hxs : ∀ k x, xs[k]? = some x → flat st.ranges st.content (pos + k) = some x) : r = xs := by
  rw [Storage.read] at hok
  obtain ⟨iv, hiv, hok⟩ := bind_eq_ok hok
  rcases Nat.lt_or_ge pos st.totalLength with hpos | hpos
  · obtain ⟨pre, rs, lo, hrs⟩ := h.behind hpos
    rw [hrs.intervals] at hiv
    obtain rfl := Except.ok.inj hiv
    have hle' := hrs.le
    have hmax : max pos lo = pos := Nat.max_eq_left hle'
    have hsub : rs.Sublist st.ranges := by
      rw [hrs.ranges]
      exact List.sublist_append_right ..
    rw [readChunks_ok (fun x hx => h.overlaps_le hsub (Nat.le_add_right ..) hx) hok]
    refine readOverlaps_eq hrs.rest hrs.first hle (by rw [hmax, Nat.add_sub_cancel_left]) fun k x hx => ?_
    have hflat := hxs k x hx
    rw [hrs.ranges, flat_append_of_ge hrs.pre (by omega)] at hflat
    rwa [hmax]
  · obtain rfl : xs = [] := List.length_eq_zero_iff.mp (by omega)
    rw [Storage.intervals] at hiv
    split at hiv
    · cases hiv
    · obtain rfl := Except.ok.inj hiv
      rw [readChunks_ok (fun x hx => h.overlaps_le (List.drop_sublist ..) (Nat.le_add_right ..) hx) hok,
        readOverlaps, List.flatMap_eq_nil_iff]
      intro x hx
      obtain ⟨r, -, -, rfl⟩ := mem_overlaps hx
      rw [List.take_eq_nil_iff]
      simp only [List.length_nil]
      omega

/-! ## Writing -/

theorem pySlice_natCast (data : Bytes) (i j : Nat) : pySlice data i j = (data.drop i).take (j - i) := by
  have hi : ¬ ((i : Int) < 0) := by omega
  have hj : ¬ ((j : Int) < 0) := by omega
  rw [pySlice]
  simp only [if_neg hi, if_neg hj, Int.toNat_natCast]
  apply List.ext_getElem?
  intro k
  simp only [List.getElem?_drop, List.getElem?_take]
  rcases Nat.lt_or_ge i data.length with hlt | hge
  · rw [Nat.min_eq_left hlt.le]
    split
    · rw [if_pos (by omega)]
    · split
      · rw [List.getElem?_eq_none (by omega)]
      · rfl
  · rw [List.getElem?_eq_none (by omega), List.getElem?_eq_none (by omega), ite_self, ite_self]

theorem pySlice_nil (i j : Int) : pySlice [] i j = [] := by simp [pySlice]

/-- What a write does not change -/
structure Frame (st st' : Storage) : Prop where
  ranges : st'.ranges = st.ranges
  totalLength : st'.totalLength = st.totalLength
  tops : st'.tops = st.tops
  opened : ∀ f, (∃ mode, st.handles f = some mode ∧ (f ∈ st.whandles → mode.writable = true)) →
    ∃ mode, st'.handles f = some mode ∧ (f ∈ st'.whandles → mode.writable = true)
  exist : ∀ f, (st.files f).isSome → (st'.files f).isSome

theorem Frame.trans {st₁ st₂ : Storage} (h : Frame st st₁) (h' : Frame st₁ st₂) : Frame st st₂ where
  ranges := h'.ranges.trans h.ranges
  totalLength := h'.totalLength.trans h.totalLength
  tops := h'.tops.trans h.tops
  opened f hf := h'.opened f (h.opened f hf)
  exist f hf := h'.exist f (h.exist f hf)

theorem reopen_ok (hok : reopen faults file st = .ok st') : Frame st st' ∧ st'.files = st.files := by
  rw [reopen] at hok
  split at hok
  · obtain rfl := Except.ok.inj hok
    exact ⟨⟨rfl, rfl, rfl, fun _ => id, fun _ => id⟩, rfl⟩
  · obtain ⟨_, -, hok⟩ := bind_eq_ok hok
    obtain ⟨fs, hfs, hok⟩ := bind_eq_ok hok
    obtain ⟨rfl, -⟩ := openFile_rb (.inr rfl) hfs
    obtain rfl := Except.ok.inj hok
    refine ⟨⟨rfl, rfl, rfl, fun f ⟨mode, hmode, hwritable⟩ => ?_, fun _ => id⟩, rfl⟩
    by_cases hf : f = file
    · subst hf
      exact ⟨.rbPlus, update_self .., fun _ => rfl⟩
    · refine ⟨mode, (update_of_ne hf ..).trans hmode, fun hmem => hwritable ?_⟩
      exact (List.mem_cons.mp hmem).resolve_left hf

theorem writeChunk_ok (hok : writeChunk faults file begin chunk st = .ok st') :
    Frame st st' ∧ st'.content = update st.content file (patch 0 (st.content file) begin chunk) := by
  rw [writeChunk] at hok
  obtain ⟨mode, -, hok⟩ := bind_eq_ok hok
  split at hok
  · cases hok
  split at hok
  · cases hok
  obtain rfl := Except.ok.inj hok
  refine ⟨⟨rfl, rfl, rfl, fun _ => id, fun f hf => ?_⟩, funext fun f => ?_⟩
  · dsimp only
    by_cases hfile : f = file
    · subst hfile
      rw [update_self]
      rfl
    · rwa [update_of_ne hfile]
  · by_cases hfile : f = file
    · subst hfile
      simp only [content, update_self, Option.getD_some]
    · simp only [content, update_of_ne hfile]

theorem writeChunks_ok (hiv : ∀ x ∈ iv, x.2.1 ≤ x.2.2) {total : Nat}
    (hok : writeChunks faults data iv total st = .ok st') :
    Frame st st' ∧ st'.content = writeOverlaps 0 data iv total st.content := by
  induction iv generalizing st total with
  | nil =>
    obtain rfl := Except.ok.inj hok
    exact ⟨⟨rfl, rfl, rfl, fun _ => id, fun _ => id⟩, rfl⟩
  | cons x iv ih =>
    obtain ⟨file, b, e⟩ := x
    have hbe : b ≤ e := hiv _ List.mem_cons_self
    have hcast : (total : Int) + e - b = ((total + (e - b) : Nat) : Int) := by omega
    rw [writeChunks, hcast, pySlice_natCast] at hok
    obtain ⟨st₁, hreopen, hok⟩ := bind_eq_ok hok
    obtain ⟨st₂, hwrite, hok⟩ := bind_eq_ok hok
    obtain ⟨hframe₁, hfiles⟩ := reopen_ok hreopen
    obtain ⟨hframe₂, hcontent⟩ := writeChunk_ok hwrite
    obtain ⟨hframe₃, hrest⟩ := ih (fun x hx => hiv x (List.mem_cons_of_mem _ hx)) hok
    have hcontent₁ : st₁.content = st.content := funext fun f => by rw [content, content, hfiles]
    refine ⟨(hframe₁.trans hframe₂).trans hframe₃, ?_⟩
    rw [hrest, hcontent, hcontent₁, writeOverlaps, Nat.add_sub_cancel_left]

theorem writeChunks_nil {total : Int} (hok : writeChunks faults [] iv total st = .ok st') :
    Frame st st' ∧ st'.content = st.content := by
  induction iv generalizing st total with
  | nil =>
    obtain rfl := Except.ok.inj hok
    exact ⟨⟨rfl, rfl, rfl, fun _ => id, fun _ => id⟩, rfl⟩
  | cons x iv ih =>
    obtain ⟨file, b, e⟩ := x
    rw [writeChunks, pySlice_nil] at hok
    obtain ⟨st₁, hreopen, hok⟩ := bind_eq_ok hok
    obtain ⟨st₂, hwrite, hok⟩ := bind_eq_ok hok
    obtain ⟨hframe₁, hfiles⟩ := reopen_ok hreopen
    obtain ⟨hframe₂, hcontent⟩ := writeChunk_ok hwrite
    obtain ⟨hframe₃, hrest⟩ := ih hok
    have hcontent₁ : st₁.content = st.content := funext fun f => by rw [content, content, hfiles]
    refine ⟨(hframe₁.trans hframe₂).trans hframe₃, ?_⟩
    rw [hrest, hcontent, hcontent₁, patch, if_pos (by rfl), Function.update_eq_self]

/-- What a write comes to. Before `pos + data.length` is the end, there is nothing to be cut off. -/
theorem WellFormed.write_ok (h : st.WellFormed) (hle : pos + data.length ≤ st.totalLength)
    (hok : st.write faults pos data = .ok st') : Frame st st' ∧
      (∀ k x, data[k]? = some x → flat st.ranges st'.content (pos + k) = some x) ∧
      (∀ q x, flat st.ranges st.content q = some x → q < pos ∨ pos + data.length ≤ q →
        flat st.ranges st'.content q = some x) ∧
      ∀ r ∈ st.ranges, (st.content r.2.2).length ≤ (st'.content r.2.2).length ∧
        (st'.content r.2.2).length ≤ r.2.1 - r.1 := by
  rw [Storage.write] at hok
  obtain ⟨iv, hiv, hok⟩ := bind_eq_ok hok
  rcases Nat.lt_or_ge pos st.totalLength with hpos | hpos
  · obtain ⟨pre, rs, lo, hrs⟩ := h.behind hpos
    rw [hrs.intervals] at hiv
    obtain rfl := Except.ok.inj hiv
    have hle' := hrs.le
    have hmax : max pos lo = pos := Nat.max_eq_left hle'
    have hok' : writeChunks faults data (overlaps rs pos (pos + data.length)) (0 : Nat) st = .ok st' := hok
    obtain ⟨hframe, hcontent⟩ :=
      writeChunks_ok (fun x hx => Storage.overlaps_le hrs.rest hrs.first (Nat.le_add_right ..) hx) hok'
    have hnodup := h.nodup
    rw [hrs.ranges, List.map_append, List.nodup_append] at hnodup
    obtain ⟨-, hnodup, hdisjoint⟩ := hnodup
    obtain ⟨hwritten, hkept⟩ := flat_writeOverlaps 0 (c := st.content) hrs.rest hnodup hrs.first rfl hle 0
      fun _ => by omega
    rw [← hcontent, hmax] at hwritten hkept
    -- the files in front are not written
    have hfront : ∀ r ∈ pre, st'.content r.2.2 = st.content r.2.2 := by
      intro r hr
      rw [hcontent]
      refine writeOverlaps_frame (not_mem_overlaps fun hmem => ?_)
      exact hdisjoint _ (List.mem_map.mpr ⟨r, hr, rfl⟩) _ hmem rfl
    rw [hrs.ranges]
    refine ⟨hframe, fun k x hx => ?_, fun q x hx hq => ?_, fun r hr => ?_⟩
    · have hk := (List.getElem?_eq_some_iff.mp hx).1
      rw [flat_append_of_ge hrs.pre (by omega), hwritten _ (by omega) (by omega), Nat.add_sub_cancel_left, hx]
    · rcases Nat.lt_or_ge q lo with hqlo | hqlo
      · rw [flat_append_of_lt hrs.rest hqlo] at hx ⊢
        rwa [flat_congr hfront]
      · rw [flat_append_of_ge hrs.pre hqlo] at hx ⊢
        exact hkept q x hx hq
    · have hlen := (h.content r (hrs.ranges ▸ hr)).1
      rcases List.mem_append.mp hr with hr | hr
      · rw [hfront r hr]
        exact ⟨le_rfl, hlen⟩
      · rw [hcontent]
        exact length_writeOverlaps hrs.rest hnodup hrs.first 0 hr hlen
  · obtain rfl : data = [] := List.length_eq_zero_iff.mp (by omega)
    obtain ⟨hframe, hcontent⟩ := writeChunks_nil hok
    rw [hcontent]
    refine ⟨hframe, fun k x hx => ?_, fun q x hx _ => hx, fun r hr => ⟨le_rfl, (h.content r hr).1⟩⟩
    rw [List.getElem?_nil] at hx
    cases hx

theorem WellFormed.write (h : st.WellFormed) (hle : pos + data.length ≤ st.totalLength)
    (hok : st.write faults pos data = .ok st') : st'.WellFormed := by
  obtain ⟨hframe, -, -, hlength⟩ := h.write_ok hle hok
  refine ⟨?_, ?_, ?_, ?_, ?_⟩
  · rw [hframe.ranges, hframe.totalLength]
    exact h.ranges
  · rw [hframe.ranges]
    exact h.nodup
  · rw [hframe.ranges]
    exact fun r hr => hframe.opened _ (h.opened r hr)
  · rw [hframe.ranges]
    exact fun r hr => hframe.exist _ (h.exist r hr)
  · rw [hframe.ranges, hframe.tops]
    intro r hr
    obtain ⟨hmono, hle⟩ := hlength r hr
    exact ⟨hle, fun top htop => ((h.content r hr).2 top htop).trans hmono⟩

/-- What was preallocated is there. -/
theorem WellFormed.preallocated (h : st.WellFormed) {length : Nat} (hpre : st.wasPreallocated pos length = .ok true)
    {q : Nat} (hlo : pos ≤ q) (hhi : q < pos + length) (hq : q < st.totalLength) :
    (flat st.ranges st.content q).isSome := by
  obtain ⟨pre, rs, lo, hrs⟩ := h.behind (hlo.trans_lt hq)
  rw [Storage.wasPreallocated, hrs.intervals, bind_ok] at hpre
  obtain ⟨_, b, e, a, _, hsplit, -, hb, he, -, -⟩ := hrs.rest.split (hrs.le.trans hlo) hq
  have hmem : (b, e, a) ∈ rs := by
    rw [hsplit]
    simp
  have hmem' : (b, e, a) ∈ st.ranges := hrs.ranges ▸ List.mem_append_right _ hmem
  have htop := List.all_eq_true.mp (Except.ok.inj hpre) _ (hrs.rest.mem_overlaps hmem (by dsimp only; omega))
  simp only [Bool.not_eq_true', decide_eq_false_iff_not, not_lt] at htop
  have hlength : q - b < (st.content a).length := by
    cases htops : st.tops a with
    | none =>
      rw [htops, Option.getD_none] at htop
      omega
    | some top =>
      rw [htops, Option.getD_some] at htop
      have hcontent := (h.content _ hmem').2 top htops
      dsimp only at hcontent
      omega
  rw [flat_of_mem h.ranges hmem' hb he]
  dsimp only
  rw [List.getElem?_eq_getElem hlength]
  rfl

/-! ## Other files -/

theorem writeChunks_others {total : Int} (hok : writeChunks faults data iv total st = .ok st')
    (hfile : file ∉ iv.map Prod.fst) : st'.files file = st.files file := by
  induction iv generalizing st total with
  | nil =>
    obtain rfl := Except.ok.inj hok
    rfl
  | cons x iv ih =>
    obtain ⟨f, b, e⟩ := x
    rw [List.map_cons, List.mem_cons, not_or] at hfile
    rw [writeChunks] at hok
    obtain ⟨st₁, hreopen, hok⟩ := bind_eq_ok hok
    obtain ⟨st₂, hwrite, hok⟩ := bind_eq_ok hok
    rw [writeChunk] at hwrite
    obtain ⟨mode, -, hwrite⟩ := bind_eq_ok hwrite
    split at hwrite
    · cases hwrite
    split at hwrite
    · cases hwrite
    obtain rfl := Except.ok.inj hwrite
    rw [ih hok hfile.2, ← (reopen_ok hreopen).2]
    exact update_of_ne hfile.1 ..

/-- Only files of the torrent are written. -/
theorem write_others (hok : st.write faults pos data = .ok st') (hfile : file ∉ st.ranges.map fun r => r.2.2) :
    st'.files file = st.files file := by
  rw [Storage.write] at hok
  obtain ⟨iv, hiv, hok⟩ := bind_eq_ok hok
  rw [Storage.intervals] at hiv
  split at hiv
  · cases hiv
  obtain rfl := Except.ok.inj hiv
  refine writeChunks_others hok (not_mem_overlaps fun hmem => hfile ?_)
  exact ((List.drop_sublist ..).map _).subset hmem

end Storage

/-- A storage whose files fit to its ranges -/
abbrev Disk := { st : Storage // st.WellFormed }

namespace Disk

/-- Beyond the end nothing is written. -/
def write (faults : Faults) (d : Disk) (pos : Nat) (data : Bytes) : Except PyError Disk :=
  if hle : pos + data.length ≤ d.1.totalLength then
    match hok : d.1.write faults pos data with
    | .ok st => .ok ⟨st, d.2.write hle hok⟩
    | .error e => .error e
  else .error .indexError

def wasPreallocated (d : Disk) (begin length : Nat) : Bool :=
  match d.1.wasPreallocated begin length with
  | .ok v => v
  | .error _ => false

variable {faults : Faults} {d d' : Disk} {pos : Nat} {data : Bytes}

theorem write_ok (hok : d.write faults pos data = .ok d') :
    pos + data.length ≤ d.1.totalLength ∧ d.1.write faults pos data = .ok d'.1 := by
  rw [write] at hok
  split at hok
  · next hle =>
    split at hok
    · next st hst =>
      obtain rfl := Except.ok.inj hok
      exact ⟨hle, hst⟩
    · cases hok
  · cases hok

theorem wasPreallocated_ok {length : Nat} (h : d.wasPreallocated pos length = true) :
    d.1.wasPreallocated pos length = .ok true := by
  rw [wasPreallocated] at h
  split at h
  · next hok => rw [hok, h]
  · cases h

end Disk

/-- The storage, for `StorageWrapper` -/
def disk (faults : Faults) : Backing Disk where
  total d := d.1.totalLength
  item d q := flat d.1.ranges d.1.content q
  read d := d.1.read faults
  write := Disk.write faults
  wasPreallocated := Disk.wasPreallocated
  read_eq {d pos xs r} hok hle hxs := d.2.read_eq hok hle hxs
  total_write {d pos xs d'} hok := by
    obtain ⟨hle, hok⟩ := Disk.write_ok hok
    exact (d.2.write_ok hle hok).1.totalLength
  item_written {d pos xs d'} hok _ := by
    obtain ⟨hle, hok⟩ := Disk.write_ok hok
    obtain ⟨hframe, hwritten, -, -⟩ := d.2.write_ok hle hok
    rw [hframe.ranges]
    exact hwritten
  item_kept {d pos xs d'} hok := by
    obtain ⟨hle, hok⟩ := Disk.write_ok hok
    obtain ⟨hframe, -, hkept, -⟩ := d.2.write_ok hle hok
    rw [hframe.ranges]
    exact hkept
  preallocated {d begin length} hpre q hlo hhi hq := d.2.preallocated (Disk.wasPreallocated_ok hpre) hlo hhi hq

end Swinst.BitTorrent
