import Swinst.Disks.SizeList

/-! The sizes of the disks against the limits of the target file system: `choose_disk_sizes` of
`backends/win32/backend.py`. -/

namespace Swinst.Disks

/-- The largest file on FAT32, in MiB as `create_virtual_disk` takes the sizes. -/
def maxFatFileMb : Int := 4095

/-- Is more left for `home` than the 4000 that it is cut to? -/
def HomeCapped (total : Int) (isFat : Bool) : Prop := isFat ∧ 4000 < total - 256 - 8000

/-- What the sizes of the disks are to be. -/
structure SoundSizes (total : Int) (isFat : Bool) (sizes : Sizes) : Prop where
  nonneg : ∀ d, 0 ≤ sizes d
  swap : 0 < sizes .swap
  sum_le : sizes .root + sizes .home + sizes .usr + sizes .swap ≤ total
  sum_eq : ¬ HomeCapped total isFat → sizes .root + sizes .home + sizes .usr + sizes .swap = total
  fat : isFat → ∀ d, sizes d ≤ maxFatFileMb

theorem chooseDiskSizes_swap (total : Int) (isFat : Bool) : chooseDiskSizes total isFat .swap = 256 := rfl

/-- The branches for a FAT target, in the order of the source. -/
theorem chooseDiskSizes_fat (total : Int) :
    (8756 < total ∧ chooseDiskSizes total true .root = 4000 ∧
        chooseDiskSizes total true .home = min 4000 (total - 8256) ∧
        chooseDiskSizes total true .usr = 4000) ∨
      (5756 < total ∧ total ≤ 8756 ∧ chooseDiskSizes total true .root = total - 4256 ∧
        chooseDiskSizes total true .home = 0 ∧ chooseDiskSizes total true .usr = 4000) ∨
      (4256 < total ∧ total ≤ 5756 ∧ chooseDiskSizes total true .root = 1500 ∧
        chooseDiskSizes total true .home = 0 ∧ chooseDiskSizes total true .usr = total - 1756) ∨
      (total ≤ 4256 ∧ chooseDiskSizes total true .root = total - 256 ∧
        chooseDiskSizes total true .home = 0 ∧ chooseDiskSizes total true .usr = 0) := by
  simp only [chooseDiskSizes, if_true, Bool.true_and, decide_eq_true_eq]
  by_cases h₁ : total - 256 > 8500
  · refine .inl ⟨by omega, ?_⟩
    simp only [if_pos h₁, true_and, and_true]
    split <;> omega
  by_cases h₂ : total - 256 > 5500
  · refine .inr (.inl ⟨by omega, by omega, ?_⟩)
    simp only [if_neg h₁, if_pos h₂]
    exact ⟨by omega, rfl, trivial⟩
  by_cases h₃ : total - 256 > 4000
  · refine .inr (.inr (.inl ⟨by omega, by omega, ?_⟩))
    simp only [if_neg h₁, if_neg h₂, if_pos h₃]
    exact ⟨trivial, rfl, by omega⟩
  · refine .inr (.inr (.inr ⟨by omega, ?_⟩))
    simp only [if_neg h₁, if_neg h₂, if_neg h₃]
    exact ⟨trivial, rfl, trivial⟩

theorem soundSizes_ntfs {total : Int} (h : 1000 ≤ total) :
    SoundSizes total false (chooseDiskSizes total false) where
  nonneg := chooseDiskSizes_nonneg (by omega) false
  swap := by rw [chooseDiskSizes_swap]; decide
  sum_le := (sum_chooseDiskSizes total).le
  sum_eq _ := sum_chooseDiskSizes total
  fat h := by cases h

theorem soundSizes_fat {total : Int} (h : 1000 ≤ total) (hgap : ¬ (8352 ≤ total ∧ total ≤ 8756)) :
    SoundSizes total true (chooseDiskSizes total true) := by
  have hswap := chooseDiskSizes_swap total true
  have hbranch := chooseDiskSizes_fat total
  constructor
  · exact chooseDiskSizes_nonneg (by omega) true
  · omega
  · omega
  · intro hcap
    have hcap : ¬ 4000 < total - 256 - 8000 := fun h => hcap ⟨rfl, h⟩
    omega
  · intro _ d
    cases d <;> rw [maxFatFileMb] <;> omega

/-- Between 8096 and 8500 MB for the system, 4000 of them go to `usr` and the rest stays on `root`. -/
theorem soundSizes_iff (total : Int) (isFat : Bool) (h : 1000 ≤ total) :
    SoundSizes total isFat (chooseDiskSizes total isFat) ↔
      ¬ (isFat = true ∧ 8352 ≤ total ∧ total ≤ 8756) := by
  cases isFat with
  | false => exact iff_of_true (soundSizes_ntfs h) (fun hgap => by cases hgap.1)
  | true =>
    constructor
    · rintro hsound ⟨-, hlo, hhi⟩
      have hroot : chooseDiskSizes total true .root ≤ 4095 := hsound.fat rfl .root
      have hbranch := chooseDiskSizes_fat total
      omega
    · intro hgap
      exact soundSizes_fat h fun hbounds => hgap ⟨rfl, hbounds⟩

/-- 20 GB on a FAT drive, which are divided over several disks. -/
theorem soundSizes_iff_split : SoundSizes 20000 true (chooseDiskSizes 20000 true) ↔
    ¬ (true = true ∧ (8352 : Int) ≤ 20000 ∧ (20000 : Int) ≤ 8756) :=
  soundSizes_iff 20000 true (by decide)

/-- 4144 MB for `root` -/
theorem fat_root_too_large : ¬ ∀ (total : Int) (isFat : Bool), 1000 ≤ total →
    SoundSizes total isFat (chooseDiskSizes total isFat) := by
  intro h
  have hroot := (h 8400 true (by decide)).fat rfl .root
  revert hroot
  decide

end Swinst.Disks
