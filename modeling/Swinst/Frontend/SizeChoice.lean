import Swinst.Frontend.InstallationPage

/-! The size that the installation page selects at first: `populate_size_list` and
`select_default_size`. -/

namespace Swinst.Frontend
open Disks

/-- The numbers of an interval, in the order of a range. -/
theorem filter_range'_interval (a n lo hi : Nat) :
    (List.range' a n).filter (fun i => lo ≤ i ∧ i ≤ hi) =
      List.range' (max a lo) (min (a + n) (hi + 1) - max a lo) := by
  induction n generalizing a with
  | zero =>
    have hcount : min (a + 0) (hi + 1) - max a lo = 0 := by omega
    rw [hcount, List.range'_zero, List.range'_zero, List.filter_nil]
  | succ n ih =>
    rw [List.range'_succ, List.filter_cons, ih (a + 1)]
    split
    · next h =>
      have h : lo ≤ a ∧ a ≤ hi := of_decide_eq_true h
      have hcount : min (a + (n + 1)) (hi + 1) - max a lo =
          min (a + 1 + n) (hi + 1) - max (a + 1) lo + 1 := by omega
      have hstart : max a lo = a := by omega
      have hnext : max (a + 1) lo = a + 1 := by omega
      rw [hcount, List.range'_succ, hstart, hnext]
    · next h =>
      have h : ¬ (lo ≤ a ∧ a ≤ hi) := fun hle => h (decide_eq_true hle)
      by_cases hlo : lo ≤ a
      · have hleft : min (a + 1 + n) (hi + 1) - max (a + 1) lo = 0 := by omega
        have hright : min (a + (n + 1)) (hi + 1) - max a lo = 0 := by omega
        rw [hleft, hright, List.range'_zero, List.range'_zero]
      · have hstart : max (a + 1) lo = max a lo := by omega
        rw [hstart, Nat.add_right_comm a 1 n, Nat.add_assoc]

/-! ## The offered sizes -/

namespace Page

/-- The smallest size that is large enough for the distribution, in thousands of MB -/
def smallestGb (p : Page) : Int := max 1 (-(-p.minDiskSpaceMb / 1000))

/-- The largest size that leaves room for the ISO -/
def largestGb (p : Page) (drive : WindowsDrive) : Int :=
  min 30 ((drive.freeBytes / 1024 ^ 2 - p.distro.maxIsoSize / 1024 ^ 2 - 100) / 1000)

theorem fits_iff (p : Page) (drive : WindowsDrive) (hskip : p.skipSizeCheck = false) (i : Nat)
    (hi : 1 ≤ i ∧ i ≤ 30) :
    fits p.distro p.minDiskSpaceMb drive.space p.skipSizeCheck i =
      decide (p.smallestGb ≤ i ∧ i ≤ p.largestGb drive) := by
  have hfree : ((i * 1000 + p.distro.maxIsoSize / 1024 ^ 2 + 100 : Int) : Rat) ≤
      drive.space.freeSpaceMb ↔
        (i * 1000 + p.distro.maxIsoSize / 1024 ^ 2 + 100) * 1024 ^ 2 ≤ (drive.freeBytes : Int) := by
    rw [Disks.Drive.freeSpaceMb, le_div_iff₀ (by norm_num)]
    exact_mod_cast Iff.rfl
  rw [fits, hskip, Bool.false_or, ← Bool.decide_and, decide_eq_decide, hfree, smallestGb, largestGb]
  omega

/-- The sizes between the two bounds, without a gap. -/
theorem filter_fits (p : Page) (drive : WindowsDrive) (hskip : p.skipSizeCheck = false) :
    (List.range' 1 30).filter (fits p.distro p.minDiskSpaceMb drive.space p.skipSizeCheck) =
      List.range' p.smallestGb.toNat (p.largestGb drive + 1 - p.smallestGb).toNat := by
  have hlo : 1 ≤ p.smallestGb := le_max_left _ _
  have hhi : p.largestGb drive ≤ 30 := min_le_left _ _
  have hinterval : (List.range' 1 30).filter
      (fits p.distro p.minDiskSpaceMb drive.space p.skipSizeCheck) =
        (List.range' 1 30).filter
          (fun i => p.smallestGb.toNat ≤ i ∧ i ≤ (p.largestGb drive + 1).toNat - 1) := by
    apply List.filter_congr
    intro i hi
    have hi := List.mem_range'_1.mp hi
    rw [fits_iff p drive hskip i (by omega), decide_eq_decide]
    omega
  rw [hinterval, filter_range'_interval]
  by_cases hle : p.smallestGb ≤ p.largestGb drive
  · congr 1 <;> omega
  · have hleft : min (1 + 30) ((p.largestGb drive + 1).toNat - 1 + 1) - max 1 p.smallestGb.toNat = 0 := by
      omega
    have hright : (p.largestGb drive + 1 - p.smallestGb).toNat = 0 := by omega
    rw [hleft, hright, List.range'_zero, List.range'_zero]

end Page

/-! ## The list on the page -/

/-- The list box with the sizes `l` -/
def sizeMenu (l : List Nat) : ComboBox := (l.map sizeItem).foldl ComboBox.addItem .empty

theorem items_sizeMenu (l : List Nat) : (sizeMenu l).items = l.map sizeItem := by
  rw [sizeMenu, ComboBox.items_foldl_addItem]
  rfl

theorem getText_sizeMenu (l : List Nat) : (sizeMenu l).getText = [] := by
  have hselected (box : ComboBox) (texts : List Text) :
      (texts.foldl ComboBox.addItem box).selected = box.selected := by
    induction texts generalizing box with
    | nil => rfl
    | cons text texts ih => exact ih _
  rw [ComboBox.getText, sizeMenu, hselected]
  rfl

/-- No item begins with another one. -/
theorem sizeItem_of_beginsWith {i j : Nat} (hi : i ∈ List.range' 1 30) (hj : j ∈ List.range' 1 30)
    (h : ComboBox.beginsWith (sizeItem i) (sizeItem j)) : i = j := by
  have hall : ∀ i ∈ List.range' 1 30, ∀ j ∈ List.range' 1 30,
      ComboBox.beginsWith (sizeItem i) (sizeItem j) → i = j := by decide +kernel
  exact hall i hi j hj h

section
variable {l : List Nat} (hl : ∀ i ∈ l, i ∈ List.range' 1 30)
include hl

theorem getText_setValue_of_mem {i : Nat} (hi : i ∈ l) :
    ((sizeMenu l).setValue (sizeItem i)).getText = sizeItem i := by
  apply ComboBox.getText_setValue
  · rw [items_sizeMenu]
    exact List.mem_map_of_mem hi
  · intro item hitem hbegins
    rw [items_sizeMenu] at hitem
    obtain ⟨j, hj, rfl⟩ := List.mem_map.mp hitem
    rw [sizeItem_of_beginsWith (hl i hi) (hl j hj) hbegins]

theorem getText_setValue_of_not_mem {i : Nat} (hi : i ∈ List.range' 1 30) (hnot : i ∉ l) :
    ((sizeMenu l).setValue (sizeItem i)).getText = [] := by
  rw [ComboBox.setValue_of_not_begins, getText_sizeMenu]
  intro item hitem
  rw [items_sizeMenu] at hitem
  obtain ⟨j, hj, rfl⟩ := List.mem_map.mp hitem
  rw [← Bool.not_eq_true]
  intro hbegins
  exact hnot (sizeItem_of_beginsWith hi (hl j hj) hbegins ▸ hj)

end

theorem sizeItem_ne_nil (i : Nat) : sizeItem i ≠ [] := List.append_ne_nil_of_right_ne_nil _ (by decide)

theorem SizeSetting.gb_isOk_iff {setting : SizeSetting} :
    (∃ gb, setting.gb = .ok gb) ↔ ∀ s, setting = .text s → s = [] := by
  cases setting with
  | unset | mb => exact iff_of_true ⟨_, rfl⟩ (fun s h => by cases h)
  | text s =>
    by_cases hs : s = []
    · subst hs
      exact iff_of_true ⟨none, rfl⟩ (fun s h => by cases h; rfl)
    · refine iff_of_false ?_ (fun h => hs (h s rfl))
      rintro ⟨_, h⟩
      rw [SizeSetting.gb, if_neg hs] at h
      cases h

theorem SizeSetting.gb_eq_some_iff {setting : SizeSetting} {g : Int} :
    setting.gb = .ok (some g) ↔ ∃ n, setting = .mb n ∧ n ≠ 0 ∧ n / 1000 = g := by
  cases setting with
  | unset => exact iff_of_false (fun h => by cases h) (fun ⟨n, h, _⟩ => by cases h)
  | mb n =>
    by_cases hn : n = 0
    · refine iff_of_false (fun h => ?_) (fun ⟨m, h, hm, _⟩ => ?_)
      · rw [gb, if_pos hn] at h
        cases h
      · cases h
        exact hm hn
    · rw [gb, if_neg hn]
      constructor
      · intro h
        cases h
        exact ⟨n, rfl, hn, rfl⟩
      · rintro ⟨m, h, -, rfl⟩
        cases h
        rfl
  | text s =>
    refine iff_of_false (fun h => ?_) (fun ⟨n, h, _⟩ => by cases h)
    rw [gb] at h
    split at h <;> cases h

/-- A page with a selected size among those that it offers. -/
def SizeChosen (r : Except PyError Page) : Prop :=
  ∃ p, r = .ok p ∧ p.sizeListGb ≠ [] ∧ ∃ i ∈ p.sizeListGb, p.sizeList.getText = sizeItem i

namespace Page

/-- What `populate_size_list` hands to `select_default_size`. -/
def withSizes (p : Page) (l : List Nat) : Page := { p with sizeListGb := l, sizeList := sizeMenu l }

/-- A size is selected when it is in the list. -/
theorem sizeChosen_iff_mem {p : Page} {l : List Nat} (hl : ∀ i ∈ l, i ∈ List.range' 1 30) {i : Nat}
    (hi : i ∈ List.range' 1 30) (hgb : p.sizeListGb = l)
    (hlist : p.sizeList = (sizeMenu l).setValue (sizeItem i)) : SizeChosen (.ok p) ↔ i ∈ l := by
  constructor
  · rintro ⟨q, hq, -, j, -, htext⟩
    cases hq
    by_contra hnot
    rw [hlist, getText_setValue_of_not_mem hl hi hnot] at htext
    exact sizeItem_ne_nil j htext.symm
  · intro hmem
    refine ⟨p, rfl, ?_, i, hgb ▸ hmem, ?_⟩
    · rw [hgb]
      exact List.ne_nil_of_mem hmem
    · rw [hlist, getText_setValue_of_mem hl hmem]

/-- The item in the middle of the list, or 10 GB. -/
theorem selectAverageSize_iff {p : Page} {a n : Nat} (ha : 1 ≤ a) (hn : a + n ≤ 31) :
    SizeChosen (p.withSizes (List.range' a n)).selectAverageSize ↔ 1 < n ∧ a ≤ 10 := by
  have hl : ∀ i ∈ List.range' a n, i ∈ List.range' 1 30 := fun i hi => by
    rw [List.mem_range'_1] at hi ⊢
    omega
  have hlen : (p.withSizes (List.range' a n)).sizeListGb.length = n := List.length_range'
  unfold selectAverageSize
  simp only [hlen]
  by_cases h0 : n = 0
  · rw [if_pos h0]
    subst h0
    refine iff_of_false ?_ (by omega)
    rintro ⟨q, hq, hne, -⟩
    cases hq
    exact hne rfl
  rw [if_neg h0]
  by_cases h1 : n > 1
  · have hmiddle : (p.withSizes (List.range' a n)).sizeListGb[n / 2]? = some (a + n / 2) := by
      rw [withSizes, List.getElem?_range' (by omega), Nat.one_mul]
    have hgb : (if a + n / 2 < 10 ∧ a + n / 2 ≠ 0 then a + n / 2 else 10) ∈ List.range' 1 30 := by
      rw [List.mem_range'_1]
      split <;> omega
    simp only [if_pos h1, hmiddle]
    rw [sizeChosen_iff_mem hl hgb rfl rfl, List.mem_range'_1]
    split <;> omega
  · have hnone : (p.withSizes (List.range' a n)).sizeListGb[n]? = none :=
      List.getElem?_eq_none hlen.le
    simp only [if_neg h1, hnone]
    refine iff_of_false ?_ (by omega)
    rintro ⟨q, hq, -⟩
    cases hq

theorem selectDefaultSize_of_find {p : Page} {g : Int} (hgb : p.installationSizeMb.gb = .ok (some g)) :
    p.selectDefaultSize =
      match p.sizeListGb.find? fun i : Nat => decide (g ≤ i) with
      | some i => .ok { p with sizeList := p.sizeList.setValue (sizeItem i) }
      | none => p.selectAverageSize := by
  rw [selectDefaultSize, hgb]
  rfl

/-- When a size that was set before, or none at all, is among the sizes from `a` on. -/
theorem selectDefaultSize_iff {p : Page} {a n : Nat} (ha : 1 ≤ a) (hn : a + n ≤ 31) :
    SizeChosen (p.withSizes (List.range' a n)).selectDefaultSize ↔
      ∃ gb, p.installationSizeMb.gb = .ok gb ∧ ((∃ g, gb = some g ∧ g < a + n ∧ 0 < n) ∨ 1 < n ∧ a ≤ 10) := by
  have hl : ∀ i ∈ List.range' a n, i ∈ List.range' 1 30 := fun i hi => by
    rw [List.mem_range'_1] at hi ⊢
    omega
  have hset : (p.withSizes (List.range' a n)).installationSizeMb = p.installationSizeMb := rfl
  have haverage := selectAverageSize_iff (p := p) ha hn
  cases hgb : p.installationSizeMb.gb with
  | error e =>
    rw [selectDefaultSize, hset, hgb]
    refine iff_of_false ?_ ?_
    · rintro ⟨q, hq, -⟩
      cases hq
    · rintro ⟨gb, h, -⟩
      cases h
  | ok gb =>
    cases gb with
    | none =>
      rw [selectDefaultSize, hset, hgb]
      refine haverage.trans ⟨fun h => ⟨none, rfl, .inr h⟩, ?_⟩
      rintro ⟨gb, h, ⟨g, rfl, -⟩ | h'⟩
      · cases h
      · exact h'
    | some g =>
      have hlist : (p.withSizes (List.range' a n)).sizeListGb = List.range' a n := rfl
      rw [selectDefaultSize_of_find (p := p.withSizes _) hgb, hlist]
      cases hfind : (List.range' a n).find? fun i : Nat => decide (g ≤ i) with
      | some i =>
        have hmem : i ∈ List.range' a n := List.mem_of_find?_eq_some hfind
        have hle : g ≤ i := by simpa using List.find?_some hfind
        have hi := List.mem_range'_1.mp hmem
        refine iff_of_true ?_ ⟨some g, rfl, .inl ⟨g, rfl, by omega, by omega⟩⟩
        exact (sizeChosen_iff_mem hl (hl i hmem) rfl rfl).mpr hmem
      | none =>
        have hgt : ¬ (g < a + n ∧ 0 < n) := by
          rintro ⟨hlt, hpos⟩
          have hlast := List.find?_eq_none.mp hfind (a + n - 1) (List.mem_range'_1.mpr (by omega))
          exact hlast (decide_eq_true (by omega))
        refine haverage.trans ⟨fun h => ⟨some g, rfl, .inr h⟩, ?_⟩
        rintro ⟨gb, h, ⟨g', rfl, hlt⟩ | h'⟩
        · cases h
          exact (hgt hlt).elim
        · exact h'

theorem populateSizeList_chosen_iff_gb (p : Page) (drive : WindowsDrive)
    (hdrive : p.getDrive = some drive) (hskip : p.skipSizeCheck = false) :
    SizeChosen p.populateSizeList ↔
      ∃ gb, p.installationSizeMb.gb = .ok gb ∧
        ((∃ g, gb = some g ∧ g ≤ p.largestGb drive ∧ p.smallestGb ≤ p.largestGb drive) ∨
          p.smallestGb < p.largestGb drive ∧ p.smallestGb ≤ 10) := by
  have hlo : 1 ≤ p.smallestGb := le_max_left _ _
  have hhi : p.largestGb drive ≤ 30 := min_le_left _ _
  have hpop : p.populateSizeList = (p.withSizes (List.range' p.smallestGb.toNat
      (p.largestGb drive + 1 - p.smallestGb).toNat)).selectDefaultSize := by
    rw [populateSizeList, hdrive, ← filter_fits p drive hskip]
    rfl
  rw [hpop]
  by_cases hle : p.smallestGb ≤ p.largestGb drive
  · rw [selectDefaultSize_iff (by omega) (by omega)]
    refine exists_congr fun gb => and_congr_right fun _ => or_congr ?_ (by omega)
    exact exists_congr fun g => and_congr_right fun _ => by omega
  · have hcount : (p.largestGb drive + 1 - p.smallestGb).toNat = 0 := by omega
    have hempty : List.range' p.smallestGb.toNat 0 = List.range' 1 0 := rfl
    rw [hcount, hempty, selectDefaultSize_iff (by decide) (by decide)]
    refine exists_congr fun gb => and_congr_right fun _ => or_congr ?_ (by omega)
    exact exists_congr fun g => and_congr_right fun _ => by omega

/-- `populate_size_list` selects one of the sizes it offers exactly when the setting is no text and the
interval of sizes, not empty, reaches up to the setting or has two sizes and starts at 10 GB at most. -/
theorem populateSizeList_chosen_iff (p : Page) (drive : WindowsDrive) (hdrive : p.getDrive = some drive)
    (hskip : p.skipSizeCheck = false) :
    SizeChosen p.populateSizeList ↔
      (∀ s, p.installationSizeMb = .text s → s = []) ∧ p.smallestGb ≤ p.largestGb drive ∧
        ((∃ n, p.installationSizeMb = .mb n ∧ n ≠ 0 ∧ n / 1000 ≤ p.largestGb drive) ∨
          p.smallestGb < p.largestGb drive ∧ p.smallestGb ≤ 10) := by
  rw [populateSizeList_chosen_iff_gb p drive hdrive hskip]
  constructor
  · rintro ⟨gb, hgb, h⟩
    have htext := SizeSetting.gb_isOk_iff.mp ⟨gb, hgb⟩
    rcases h with ⟨g, rfl, hg, hle⟩ | h
    · obtain ⟨n, hset, hn, rfl⟩ := SizeSetting.gb_eq_some_iff.mp hgb
      exact ⟨htext, hle, .inl ⟨n, hset, hn, hg⟩⟩
    · exact ⟨htext, h.1.le, .inr h⟩
  · rintro ⟨htext, hle, ⟨n, hset, hn, hg⟩ | h⟩
    · exact ⟨some (n / 1000), SizeSetting.gb_eq_some_iff.mpr ⟨n, hset, hn, rfl⟩,
        .inl ⟨_, rfl, hg, hle⟩⟩
    · obtain ⟨gb, hgb⟩ := SizeSetting.gb_isOk_iff.mpr htext
      exact ⟨gb, hgb, .inr h⟩

end Page

/-! ## With the distribution as it is delivered -/

/-- The bounds of `isolist.ini` -/
def deliveredDistro : Distro := { Retrieval.Sample.distro with maxIsoSize := 4800000000 }

/-- One drive with `freeMb`, selected in a page that has not offered sizes yet. -/
def driveCPage (freeMb : Nat) : Page where
  distro := deliveredDistro
  minDiskSpaceMb := 3000
  drives := Drives.getDrives fun letter =>
    if letter = 'C' then some (.hd, "ntfs".toList, freeMb * 1024 ^ 2) else none
  skipSizeCheck := false
  targetDrive := none
  installationSizeMb := .unset
  targetDriveList := { items := ["C: (8GB free)".toList], selected := some 0 }
  drivesGb := ["C: (8GB free)".toList]
  sizeList := .empty
  sizeListGb := []

def driveC (freeMb : Nat) : WindowsDrive where
  path := "C:".toList
  type := .hd
  filesystem := "ntfs".toList
  freeBytes := freeMb * 1024 ^ 2

theorem populateSizeList_chosen_driveC :
    SizeChosen (driveCPage 20000).populateSizeList ↔
      (∀ s, (driveCPage 20000).installationSizeMb = .text s → s = []) ∧
        (driveCPage 20000).smallestGb ≤ (driveCPage 20000).largestGb (driveC 20000) ∧
          ((∃ n, (driveCPage 20000).installationSizeMb = .mb n ∧ n ≠ 0 ∧
              n / 1000 ≤ (driveCPage 20000).largestGb (driveC 20000)) ∨
            (driveCPage 20000).smallestGb < (driveCPage 20000).largestGb (driveC 20000) ∧
              (driveCPage 20000).smallestGb ≤ 10) :=
  Page.populateSizeList_chosen_iff (driveCPage 20000) (driveC 20000) rfl rfl

/-- With 8300 MB free the drive is offered, with the size of 3 GB alone. -/
theorem single_size_raises :
    ¬ ∀ (p : Page) (drive : WindowsDrive), p.skipSizeCheck = false → p.getDrive = some drive →
      p.offers drive → SizeChosen p.populateSizeList := by
  intro h
  obtain ⟨q, hq, -⟩ := h (driveCPage 8300) (driveC 8300) rfl rfl (by decide +kernel)
  have hraises : (driveCPage 8300).populateSizeList.isOk = false := by decide +kernel
  rw [hq] at hraises
  cases hraises

end Swinst.Frontend
