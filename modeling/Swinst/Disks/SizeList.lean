import Swinst.Disks.Sizes
import Swinst.Retrieval.World
import Mathlib.Algebra.Order.Field.Rat
import Mathlib.Algebra.Order.Ring.Cast
import Mathlib.Algebra.Order.Field.Basic

/-! The sizes that the installation page offers: `populate_size_list` and `get_installation_size_mb` of
`frontends/win32/installation_page.py`. They count thousands of MB, the free space is a fraction of
MiB, and the size of an ISO is in bytes. -/

namespace Swinst.Disks

/-- `int(s)` of a text of digits -/
def int? (s : Text) : Option Int :=
  if s ≠ [] ∧ s.all Char.isDigit then some (s.foldl (fun n c => 10 * n + (c.toNat - '0'.toNat)) 0 : Nat)
  else none

structure Drive where
  freeBytes : Nat
  isFat : Bool

/-- `free_space_mb` -/
def Drive.freeSpaceMb (drive : Drive) : Rat := drive.freeBytes / 1024 ^ 2

/-- `"%sGB" % i` -/
def sizeItem (i : Nat) : Text := Text.decimal i ++ "GB".toList

/-- Is `i` in `size_list_gb`? -/
def fits (d : Distro) (minDiskSpaceMb : Int) (drive : Drive) (skipSizeCheck : Bool) (i : Nat) : Bool :=
  (skipSizeCheck || minDiskSpaceMb ≤ i * 1000) &&
    ((i * 1000 + d.maxIsoSize / 1024 ^ 2 + 100 : Int) : Rat) ≤ drive.freeSpaceMb

/-- The items that `populate_size_list` puts into `size_list`. -/
def populateSizeList (d : Distro) (minDiskSpaceMb : Int) (drive : Drive) (skipSizeCheck : Bool) :
    List Text :=
  ((List.range' 1 30).filter (fits d minDiskSpaceMb drive skipSizeCheck)).map sizeItem

/-- `get_installation_size_mb`, with the text of the selected item -/
def getInstallationSizeMb (installationSize : Text) : Option Int :=
  if installationSize = [] then none
  else (int? (installationSize.take (installationSize.length - 2))).map (· * 1000)

theorem getInstallationSizeMb_sizeItem {i : Nat} (hi : i ∈ List.range' 1 30) :
    getInstallationSizeMb (sizeItem i) = some (i * 1000) := by
  have hall : ∀ i ∈ List.range' 1 30, getInstallationSizeMb (sizeItem i) = some ((i : Int) * 1000) := by
    decide
  exact hall i hi

/-- The room that an offered size leaves, in bytes. -/
theorem fits_bytes {d : Distro} {minDiskSpaceMb : Int} {drive : Drive} {skip : Bool} {i : Nat}
    (h : fits d minDiskSpaceMb drive skip i) :
    (i * 1000 + d.maxIsoSize / 1024 ^ 2 + 100) * 1024 ^ 2 ≤ (drive.freeBytes : Int) := by
  have hle := of_decide_eq_true (Bool.and_eq_true_iff.mp h).2
  rw [Drive.freeSpaceMb, le_div_iff₀ (by norm_num)] at hle
  exact_mod_cast hle

/-- An accepted ISO is not larger than `max_iso_size`. -/
theorem length_le_of_isValidIso {h : Platform} {s : Storage} {d : Distro} {isoPath : Text}
    {checkArch : Bool} {c : Caches} {content : Text} (hmax : 0 < d.maxIsoSize)
    (hiso : (d.isValidIso h s isoPath checkArch c).1 = .ok true)
    (hfile : s.files (h.abspath isoPath) = some content) : (content.length : Int) ≤ d.maxIsoSize := by
  by_contra hlt
  have hwrong : d.wrongSize content.length = true := by
    unfold Distro.wrongSize
    split
    · rfl
    split
    · rfl
    · exact decide_eq_true ⟨hmax.ne', not_le.mp hlt⟩
  simp only [Distro.isValidIso, hfile, hwrong, if_true] at hiso
  cases hiso

theorem sum_chooseDiskSizes (total : Int) :
    chooseDiskSizes total false .root + chooseDiskSizes total false .home +
      chooseDiskSizes total false .usr + chooseDiskSizes total false .swap = total := by
  simp only [chooseDiskSizes, Bool.false_eq_true, if_false, Bool.false_and]
  omega

theorem chooseDiskSizes_nonneg {total : Int} (h : 256 ≤ total) (isFat : Bool) (d : Disk) :
    0 ≤ chooseDiskSizes total isFat d := by
  unfold chooseDiskSizes
  cases isFat with
  | false =>
    cases d <;> simp
    omega
  | true =>
    simp only [if_true]
    split_ifs <;> cases d <;> simp at * <;> omega

/-- The disks and the copy of the ISO leave 99 MiB free. -/
theorem disks_and_iso_fit {h : Platform} {s : Storage} {d : Distro} {minDiskSpaceMb total : Int}
    {drive : Drive} {skip checkArch : Bool} {item isoPath content : Text} {c : Caches}
    {disks disks' : DisksDir} (hmax : 0 < d.maxIsoSize)
    (hitem : item ∈ populateSizeList d minDiskSpaceMb drive skip)
    (htotal : getInstallationSizeMb item = some total) (hfat : drive.isFat = false)
    (hdisks : createVirtualDisks (chooseDiskSizes total drive.isFat) disks = some disks')
    (hiso : (d.isValidIso h s isoPath checkArch c).1 = .ok true)
    (hfile : s.files (h.abspath isoPath) = some content) :
    occupied disks' + content.length + 99 * 1024 ^ 2 ≤ occupied disks + drive.freeBytes := by
  obtain ⟨i, hi, rfl⟩ := List.mem_map.mp hitem
  obtain ⟨hi, hfits⟩ := List.mem_filter.mp hi
  obtain rfl : i * 1000 = total :=
    Option.some.inj ((getInstallationSizeMb_sizeItem hi).symm.trans htotal)
  have hpos : 1 ≤ i := (List.mem_range'_1.mp hi).1
  have hgrow := occupied_createVirtualDisks hdisks (chooseDiskSizes_nonneg (by omega) _)
  rw [hfat, sum_chooseDiskSizes] at hgrow
  have hlen := length_le_of_isValidIso hmax hiso hfile
  have hroom := fits_bytes hfits
  -- the size of the ISO in MiB is rounded down, which the 100 MiB make good
  have hround : d.maxIsoSize < (d.maxIsoSize / 1024 ^ 2 + 1) * 1024 ^ 2 := by omega
  omega

private def roomyDrive : Drive where
  freeBytes := 4 * 1024 ^ 3
  isFat := false

private def boundedDistro : Distro := { Retrieval.Sample.distro with maxIsoSize := 734003200 }

private def isoStorage : Storage where
  files path := if path = "e:\\startos.iso".toList then some "iso".toList else none
  dirs _ := none

/-- The size of 3 GB on a drive with 4 GiB, and an ISO of three bytes. -/
theorem disks_and_iso_fit_roomy :
    ∃ disks', createVirtualDisks (chooseDiskSizes 3000 roomyDrive.isFat) (fun _ => .absent) =
        some disks' ∧
      occupied disks' + 3 + 99 * 1024 ^ 2 ≤ occupied (fun _ => .absent) + 4 * 1024 ^ 3 := by
  obtain ⟨disks', hdisks⟩ : ∃ disks', createVirtualDisks (chooseDiskSizes 3000 roomyDrive.isFat)
      (fun _ => .absent) = some disks' := Option.isSome_iff_exists.mp (by decide)
  have hitem : "3GB".toList ∈ populateSizeList boundedDistro 1000 roomyDrive false := by
    decide +kernel
  have htotal : getInstallationSizeMb "3GB".toList = some 3000 := by decide
  have hiso : (boundedDistro.isValidIso Retrieval.Sample.env.platform isoStorage
      "e:\\startos.iso".toList true .empty).1 = .ok true := by decide +kernel
  exact ⟨disks', hdisks, disks_and_iso_fit (by decide) hitem htotal rfl hdisks hiso rfl⟩

end Swinst.Disks
