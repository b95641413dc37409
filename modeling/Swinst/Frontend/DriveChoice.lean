import Swinst.Frontend.InstallationPage

/-! The drive that the installation page selects at first: `check_disk_free_space` and
`populate_drive_list`. -/

namespace Swinst.Frontend
open Disks

namespace WindowsDrive

theorem freeSpaceMb_nonneg (drive : WindowsDrive) : 0 ≤ drive.freeSpaceMb := by
  rw [freeSpaceMb, Disks.Drive.freeSpaceMb]
  positivity

/-- The rounded space is never more than the free space. -/
theorem driveSpaceMb_le (drive : WindowsDrive) : (drive.driveSpaceMb : Rat) ≤ drive.freeSpaceMb := by
  have hfloor : ((⌊drive.freeSpaceMb / 1024⌋ : Int) : Rat) ≤ drive.freeSpaceMb / 1024 := Int.floor_le _
  have hnonneg : (0 : Int) ≤ ⌊drive.freeSpaceMb / 1024⌋ :=
    Int.floor_nonneg.mpr (div_nonneg drive.freeSpaceMb_nonneg (by norm_num))
  have hcast : (0 : Rat) ≤ (⌊drive.freeSpaceMb / 1024⌋ : Int) := by exact_mod_cast hnonneg
  rw [le_div_iff₀ (by norm_num)] at hfloor
  rw [driveSpaceMb]
  push_cast
  linarith

theorem le_freeSpaceMb {drive : WindowsDrive} (h : 0 < drive.driveSpaceMb) :
    1024 ≤ drive.freeSpaceMb := by
  have hfloor : 1 ≤ ⌊drive.freeSpaceMb / 1024⌋ := by
    rw [driveSpaceMb] at h
    omega
  rw [Int.le_floor, le_div_iff₀ (by norm_num)] at hfloor
  simpa using hfloor

theorem le_driveSpaceMb {drive : WindowsDrive} (h : 1024 ≤ drive.freeSpaceMb) :
    1000 ≤ drive.driveSpaceMb := by
  have hfloor : 1 ≤ ⌊drive.freeSpaceMb / 1024⌋ := by
    rw [Int.le_floor, le_div_iff₀ (by norm_num)]
    simpa using h
  rw [driveSpaceMb]
  omega

end WindowsDrive

namespace Page

/-- Does `check_disk_free_space` count the drive as large enough? -/
def counts (p : Page) (drive : WindowsDrive) : Bool :=
  drive.isDisk && drive.driveSpaceMb > p.minSpaceMb && 1024 ≤ drive.freeSpaceMb

theorem counts_iff {p : Page} {drive : WindowsDrive} :
    p.counts drive = true ↔
      drive.isDisk ∧ p.minSpaceMb < drive.driveSpaceMb ∧ 1024 ≤ drive.freeSpaceMb := by
  simp only [counts, Bool.and_eq_true, decide_eq_true_eq, and_assoc, gt_iff_lt]

theorem le_countDrive_iff (m : Int) (s : Rat × Rat) (drive : WindowsDrive) (x : Rat) :
    (x ≤ (countDrive m s drive).1 ↔ x ≤ s.1 ∨ drive.isDisk ∧ x ≤ drive.freeSpaceMb) ∧
      (x ≤ (countDrive m s drive).2 ↔
        x ≤ s.2 ∨ drive.isDisk ∧ drive.driveSpaceMb > m ∧ x ≤ drive.freeSpaceMb) := by
  unfold countDrive
  cases drive.isDisk with
  | false => simp
  | true =>
    by_cases hlarge : drive.driveSpaceMb > m
    · simp [hlarge]
    · simp [hlarge]

theorem le_foldl_countDrive_iff (m : Int) (drives : List WindowsDrive) (x : Rat) (s : Rat × Rat) :
    (x ≤ (drives.foldl (countDrive m) s).1 ↔
        x ≤ s.1 ∨ ∃ drive ∈ drives, drive.isDisk ∧ x ≤ drive.freeSpaceMb) ∧
      (x ≤ (drives.foldl (countDrive m) s).2 ↔
        x ≤ s.2 ∨ ∃ drive ∈ drives, drive.isDisk ∧ drive.driveSpaceMb > m ∧ x ≤ drive.freeSpaceMb) := by
  induction drives generalizing s with
  | nil => simp
  | cons drive drives ih =>
    obtain ⟨ih₁, ih₂⟩ := ih (countDrive m s drive)
    obtain ⟨hturn₁, hturn₂⟩ := le_countDrive_iff m s drive x
    rw [List.foldl_cons, ih₁, ih₂, hturn₁, hturn₂]
    simp only [List.exists_mem_cons_iff, or_assoc, and_self]

/-- The check is silent when one disk is large enough, whatever its file system. -/
theorem dialogs_eq_nil_iff {p : Page} (hskip : p.skipSizeCheck = false) (answer : Bool) :
    (p.checkDiskFreeSpace answer).1 = [] ↔ ∃ drive ∈ p.drives.list, p.counts drive := by
  obtain ⟨hmax, -⟩ := le_foldl_countDrive_iff p.minSpaceMb p.drives.list 1024 (0, 0)
  obtain ⟨-, hmax2⟩ := le_foldl_countDrive_iff p.minSpaceMb p.drives.list p.minSpaceMb (0, 0)
  have hpositive : ¬ (1024 : Rat) ≤ 0 := by norm_num
  rw [or_iff_right hpositive] at hmax
  have hsilent : (p.checkDiskFreeSpace answer).1 = [] ↔
      1024 ≤ (p.drives.list.foldl (countDrive p.minSpaceMb) (0, 0)).1 ∧
        p.minSpaceMb ≤ (p.drives.list.foldl (countDrive p.minSpaceMb) (0, 0)).2 := by
    simp only [checkDiskFreeSpace, hskip, Bool.false_eq_true, if_false]
    rw [← not_lt, ← not_lt]
    split
    · next h => simp [h]
    split
    · next h => simp [h]
    · next h₁ h₂ => simp [h₁, h₂]
  rw [hsilent, hmax, hmax2]
  constructor
  · rintro ⟨⟨drive, hmem, hdisk, hfree⟩, hlarge⟩
    by_cases hmin : p.minSpaceMb ≤ 0
    -- any disk of 1024 MB is larger than no space at all
    · have hspace := WindowsDrive.le_driveSpaceMb hfree
      exact ⟨drive, hmem, counts_iff.mpr ⟨hdisk, by omega, hfree⟩⟩
    · have hcast : ¬ (p.minSpaceMb : Rat) ≤ 0 := by exact_mod_cast hmin
      obtain ⟨drive, hmem, hdisk, hlarge, -⟩ := (or_iff_right hcast).mp hlarge
      exact ⟨drive, hmem, counts_iff.mpr ⟨hdisk, hlarge, WindowsDrive.le_freeSpaceMb (by omega)⟩⟩
  · rintro ⟨drive, hmem, hcounts⟩
    obtain ⟨hdisk, hlarge, hfree⟩ := counts_iff.mp hcounts
    have hle : (p.minSpaceMb : Rat) ≤ drive.driveSpaceMb := by exact_mod_cast hlarge.le
    exact ⟨⟨drive, hmem, hdisk, hfree⟩,
      .inr ⟨drive, hmem, hdisk, hlarge, hle.trans drive.driveSpaceMb_le⟩⟩

/-! ## The list of the drives -/

/-- The text that is remembered is that of one of the drives. -/
theorem foldl_largest (gbFree : Int → Text) (l : List WindowsDrive) (best : Int × Option Text)
    {text : Text} (h : (l.foldl (largest gbFree) best).2 = some text) :
    best.2 = some text ∨ ∃ drive ∈ l, driveText gbFree drive = text := by
  induction l generalizing best with
  | nil => exact .inl h
  | cons drive l ih =>
    rcases ih _ h with hbest | ⟨other, hmem, htext⟩
    · unfold largest at hbest
      split at hbest
      · exact .inr ⟨drive, List.mem_cons_self, Option.some.inj hbest⟩
      · exact .inl hbest
    · exact .inr ⟨other, List.mem_cons_of_mem _ hmem, htext⟩

theorem lower_take_driveText {gbFree : Int → Text} {drives : Drives} {drive : WindowsDrive}
    (h : drive ∈ drives.list) : (driveText gbFree drive).lower.take 2 = drive.key := by
  have htake : (driveText gbFree drive).take 2 = drive.path.take 2 := by
    rw [driveText, List.append_assoc, List.take_append_of_le_length (drives.path_length drive h).ge]
  rw [WindowsDrive.key, Text.lower, ← List.map_take, htake]
  rfl

theorem key_of_beginsWith {gbFree : Int → Text} {drives : Drives} {a b : WindowsDrive}
    (ha : a ∈ drives.list) (hb : b ∈ drives.list)
    (h : ComboBox.beginsWith (driveText gbFree a) (driveText gbFree b)) : b.key = a.key := by
  have hkeys := (Text.startsWith_iff.mp h).take 2
  rw [lower_take_driveText ha, lower_take_driveText hb] at hkeys
  have hlength {drive : WindowsDrive} (h : drive ∈ drives.list) : drive.key.length = 2 := by
    rw [WindowsDrive.key, Text.lower, List.length_map, List.length_take, drives.path_length drive h,
      Nat.min_self]
  exact (hkeys.eq_of_length ((hlength ha).trans (hlength hb).symm)).symm

/-- The drive of a text in the list -/
theorem getDrive_of_getText {p : Page} {gbFree : Int → Text} {drive : WindowsDrive}
    (hmem : drive ∈ p.drives.list) (htext : p.targetDriveList.getText = driveText gbFree drive) :
    p.getDrive = some drive := by
  have hne : driveText gbFree drive ≠ [] := by
    have hpath : drive.path ≠ [] := List.ne_nil_of_length_pos (by rw [p.drives.path_length drive hmem]; decide)
    simp [driveText, hpath]
  have hkey : Text.lower ((driveText gbFree drive).take 2) = drive.key := by
    rw [← lower_take_driveText hmem, Text.lower, Text.lower, List.map_take]
  rw [getDrive, htext, if_neg hne, hkey, p.drives.get_key hmem]

/-- What is selected in the list is the text of a drive that is offered. -/
theorem getText_listDrives {p : Page} (gbFree : Int → Text) (h : ∃ drive ∈ p.drives.list, p.offers drive) :
    ∃ drive ∈ p.drives.list, p.offers drive ∧
      (p.listDrives gbFree).targetDriveList.getText = driveText gbFree drive := by
  have hne : p.drives.list.filter p.offers ≠ [] := by
    obtain ⟨drive, hmem, hoffers⟩ := h
    exact List.ne_nil_of_mem (List.mem_filter.mpr ⟨hmem, hoffers⟩)
  generalize hl : p.drives.list.filter p.offers = offered at hne
  have hmem {drive : WindowsDrive} (h : drive ∈ offered) : drive ∈ p.drives.list :=
    (List.mem_filter.mp (hl ▸ h)).1
  have hoffers {drive : WindowsDrive} (h : drive ∈ offered) : p.offers drive :=
    (List.mem_filter.mp (hl ▸ h)).2
  -- the text handed to `set_value`
  obtain ⟨drive, hdrive, hvalue⟩ : ∃ drive ∈ offered,
      (p.listDrives gbFree).targetDriveList =
        ((offered.map (driveText gbFree)).foldl ComboBox.addItem .empty).setValue
          (driveText gbFree drive) := by
    simp only [listDrives, hl]
    cases hbest : (offered.foldl (largest gbFree) (p.minSpaceMb, none)).2 with
    | some text =>
      rcases foldl_largest gbFree offered _ hbest with hnone | ⟨drive, hdrive, rfl⟩
      · cases hnone
      · exact ⟨drive, hdrive, rfl⟩
    | none =>
      obtain ⟨drive, rest, rfl⟩ := List.exists_cons_of_ne_nil hne
      exact ⟨drive, List.mem_cons_self, rfl⟩
  refine ⟨drive, hmem hdrive, hoffers hdrive, ?_⟩
  rw [hvalue]
  apply ComboBox.getText_setValue
  · rw [ComboBox.items_foldl_addItem]
    exact List.mem_append_right _ (List.mem_map_of_mem hdrive)
  · intro item hitem hbegins
    rw [ComboBox.items_foldl_addItem] at hitem
    obtain ⟨other, hother, rfl⟩ := List.mem_map.mp hitem
    have hkey := key_of_beginsWith (hmem hdrive) (hmem hother) hbegins
    rw [p.drives.key_injective (hmem hother) (hmem hdrive) hkey]

end Page

/-- The page `q` offers a drive and has taken one of those offered as the target. -/
structure DriveChosen (p q : Page) : Prop where
  offered : q.drivesGb ≠ []
  target : ∃ drive ∈ p.drives.list, p.offers drive ∧ q.targetDrive = some drive

namespace Page

/-- A silent check means that there is a drive to install to. -/
def CheckAgrees (p : Page) (gbFree : Int → Text) (answer : Bool) : Prop :=
  (p.checkDiskFreeSpace answer).1 = [] →
    ∃ q r, p.populateDriveList gbFree answer = some (q, r) ∧ DriveChosen p q

theorem checkDiskFreeSpace_page {p : Page} {answer : Bool} (h : (p.checkDiskFreeSpace answer).1 = []) :
    (p.checkDiskFreeSpace answer).2 = some p := by
  revert h
  unfold checkDiskFreeSpace
  split
  · exact fun _ => rfl
  dsimp only
  split
  · exact fun h => by cases h
  split
  · exact fun h => by cases h
  · exact fun _ => rfl

theorem driveChosen_iff {p : Page} (gbFree : Int → Text) :
    DriveChosen p (p.listDrives gbFree).onDriveChange.1 ↔ ∃ drive ∈ p.drives.list, p.offers drive := by
  constructor
  · rintro ⟨-, drive, hmem, hoffers, -⟩
    exact ⟨drive, hmem, hoffers⟩
  · intro h
    obtain ⟨drive, hmem, hoffers, htext⟩ := getText_listDrives gbFree h
    refine ⟨?_, drive, hmem, hoffers, ?_⟩
    · exact List.ne_nil_of_mem (List.mem_map_of_mem (List.mem_filter.mpr ⟨hmem, hoffers⟩))
    · exact getDrive_of_getText hmem htext

/-- The check and the list agree unless FAT drives alone are large enough. -/
theorem checkAgrees_iff (p : Page) (gbFree : Int → Text) (answer : Bool) (hskip : p.skipSizeCheck = false) :
    p.CheckAgrees gbFree answer ↔
      ((∃ drive ∈ p.drives.list, p.counts drive) →
        ∃ drive ∈ p.drives.list, p.offers drive) := by
  rw [← dialogs_eq_nil_iff hskip answer]
  refine forall_congr' fun hsilent => ?_
  rw [populateDriveList, checkDiskFreeSpace_page hsilent, Option.map_some, ← driveChosen_iff gbFree]
  constructor
  · rintro ⟨q, r, hq, hchosen⟩
    cases hq
    exact hchosen
  · exact fun hchosen => ⟨_, _, rfl, hchosen⟩

end Page

/-- A page before the drive list is filled, on a computer with the drives `list`. -/
def freshPage (drives : Drives) : Page where
  distro := Retrieval.Sample.distro
  minDiskSpaceMb := 3000
  drives
  skipSizeCheck := false
  targetDrive := none
  installationSizeMb := .unset
  targetDriveList := .empty
  drivesGb := []
  sizeList := .empty
  sizeListGb := []

/-- A memory stick of 20 GB formatted with FAT32 -/
private def fatStick : Drives := Drives.getDrives fun letter =>
  if letter = 'E' then some (.hd, "fat32".toList, 20 * 1024 ^ 3) else none

private def ntfsDisk : Drives := Drives.getDrives fun letter =>
  if letter = 'C' then some (.hd, "ntfs".toList, 20 * 1024 ^ 3) else none

private def untranslated (n : Int) : Text := "(".toList ++ Text.decimal n ++ "GB free)".toList

theorem checkAgrees_ntfsDisk :
    (freshPage ntfsDisk).CheckAgrees untranslated true ↔
      ((∃ drive ∈ ntfsDisk.list, (freshPage ntfsDisk).counts drive) →
        ∃ drive ∈ ntfsDisk.list, (freshPage ntfsDisk).offers drive) :=
  (freshPage ntfsDisk).checkAgrees_iff untranslated true rfl

theorem fat_drive_not_offered : ¬ ∀ (p : Page) (gbFree : Int → Text) (answer : Bool),
    p.skipSizeCheck = false → p.CheckAgrees gbFree answer := by
  intro h
  have hcounts : ∃ drive ∈ fatStick.list, (freshPage fatStick).counts drive :=
    List.any_eq_true.mp (by decide +kernel)
  have hsilent := (Page.dialogs_eq_nil_iff (p := freshPage fatStick) rfl true).mpr hcounts
  obtain ⟨q, r, -, -, drive, hmem, hoffers, -⟩ := h (freshPage fatStick) untranslated true rfl hsilent
  have hnone : fatStick.list.all (fun drive => !(freshPage fatStick).offers drive) := by decide +kernel
  have hdrive := List.all_eq_true.mp hnone drive hmem
  rw [hoffers] at hdrive
  cases hdrive

end Swinst.Frontend
