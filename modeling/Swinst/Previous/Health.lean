import Swinst.BootIni.Entry
import Swinst.Bootloader.Bcd
import Swinst.Previous.Uninstalled

/-! Does the health check of a previous installation find in order what the installer has just
written? `chk_needfix` counts `needfix` down from 3: the root disk, the registry, the boot entry. -/

namespace Swinst.Previous

open BootIni TaskList

/-! ## The check of the boot entry -/

/-- What `check_boot_entry` reads besides the files. -/
structure BootCheck where
  bootloader : Option Bootloader
  /-- `os.environ['SystemDrive']` -/
  systemDrive : Text
  vistaBootDrive : Option Text

namespace BootCheck

variable (b : BootCheck) (w : World)

/-- Both loader files are on the system drive. -/
def hasLoader : Bool :=
  (w.file? (join b.systemDrive "yldr.mbr".toList)).isSome &&
    (w.file? (join b.systemDrive "yldr".toList)).isSome

/-- `chk_bootini_entry` -/
def chkBootiniEntry : Bool :=
  match w.file? (join b.systemDrive "boot.ini".toList) with
  | none => false
  | some content => (content.lower.find "c:\\yldr.mbr = \"StartOS\"".toList).isSome

def chkBootini : Bool := b.hasLoader w && b.chkBootiniEntry w

def chkBootbcd : Bool := b.hasLoader w && (given b.vistaBootDrive).isSome

def checkBootEntry : Bool :=
  match b.bootloader with
  | some .xp => b.chkBootini w
  | some .vista => b.chkBootbcd w
  | _ => false

/-- `needfix` after `fetch_basic_info` -/
def needfix (c : Computer) : Nat := (fetchBasicInfo { c with bootEntry := b.checkBootEntry } w).needfix

end BootCheck

/-! ## What the installer leaves -/

/-- The loader of an installation in loop mode. -/
def InLoopMode (info : LoaderInfo) : Prop := info.runTask ≠ some .cdBoot ∧ info.flag = true

/-- The entry that `modify_bootloader` makes in the menu of Windows: in the `boot.ini` of `C:`, or
in the BCD store, whatever `modify_bcd` does on the other drives before. -/
inductive Entered (b : BootCheck) (w : World) : Prop where
  | xp (info : LoaderInfo) (content text : Text) : b.bootloader = some .xp →
    b.systemDrive = "C:".toList → InLoopMode info → info.distroName = "StartOS".toList →
    modifyBootini info content = some text → HasEntry info text.lines →
    w.file? (join b.systemDrive "boot.ini".toList) = some text → Entered b w
  | vista (info : Bcd.Info) (drive : Drive) (c : Bcd.Commands) (v : Bcd.World)
    (id output : Text) (hid : id ≠ []) (hout : Bcd.parseId output = some id) :
    b.bootloader = some .vista → InLoopMode info.toLoaderInfo → info.isSystemDrive drive →
    c.copies → c.found → c.create = .created id output hid hout →
    b.vistaBootDrive = ((Bcd.modifyBcd info drive c).eval true true v).world.vistaBootDrive →
    Entered b w

/-- A completed installation in loop mode on the drive `d`, the only one, with nothing damaged
since. -/
structure Installed (c : Computer) (b : BootCheck) (w : World) (d : Drive) : Prop where
  mem : d ∈ c.drives
  dir : w.hasLoop d
  only : ∀ e ∈ c.drives, w.hasLoop e → e = d
  rootDisk : ∃ disk, w.file? (join (join (loopDir d) "disks".toList) "root.disk".toList) = some disk ∧
    1500 * 1000 * 1000 ≤ disk.length
  registry : (given w.installationDir).isSome
  loader : b.hasLoader w
  entry : Entered b w

section Health

variable {c : Computer} {b : BootCheck} {w : World} {d : Drive}

theorem Installed.firstLoop_eq (h : Installed c b w d) : firstLoop w c.drives = some d := by
  cases hf : firstLoop w c.drives with
  | some e => rw [h.only e (firstLoop_some hf).1 (firstLoop_some hf).2]
  | none => exact absurd h.dir (List.find?_eq_none.mp hf d h.mem)

/-- In a completed installation only the boot entry is left to decide. -/
theorem Installed.needfix_eq (h : Installed c b w d) :
    b.needfix w c = 1 - if b.checkBootEntry w then 1 else 0 := by
  obtain ⟨disk, hdisk, hsize⟩ := h.rootDisk
  obtain ⟨dir, hdir⟩ := Option.isSome_iff_exists.mp h.registry
  have hroot : hasRootDisk w (loopDir d) = true := by
    rw [hasRootDisk, hdisk]
    exact decide_eq_true (by omega)
  rw [BootCheck.needfix, fetchBasicInfo]
  simp only [checkPreInstallPath_eq, h.firstLoop_eq, Option.map_some, chkNeedfix, hroot, hdir,
    Bool.not_true, Bool.false_eq_true, if_false]

/-- `lower` leaves no capital letter, so that the check looks for what cannot be there. -/
theorem chkBootiniEntry_eq_false : b.chkBootiniEntry w = false := by
  unfold BootCheck.chkBootiniEntry
  split
  · rfl
  next content _ =>
  rw [Bool.eq_false_iff]
  intro hf
  have hmem : 'S' ∈ content.lower := (Text.isSome_find.mp hf).subset (by decide)
  obtain ⟨a, -, ha⟩ := List.mem_map.mp hmem
  exact Text.toLower_ne (by decide) ha

/-- But for the capital letters the check would find what `modify_bootini` wrote. -/
theorem bootLine_in_lower {info : LoaderInfo} {text : Text} (hm : InLoopMode info)
    (hn : info.distroName = "StartOS".toList) (he : HasEntry info text.lines) :
    (text.lower.find (Text.lower "c:\\yldr.mbr = \"StartOS\"".toList)).isSome := by
  have hline : info.bootLine.lower = Text.lower "c:\\yldr.mbr = \"StartOS\"".toList := by
    rw [LoaderInfo.bootLine, LoaderInfo.choose, if_neg hm.1, if_pos hm.2, hn]
    decide
  rw [Text.isSome_find, ← hline]
  exact (Text.infix_of_mem_lines he.mem).map Char.toLower

theorem isSome_given_iff {v : Bcd.World} : (given v.vistaBootDrive).isSome ↔ v.value ≠ [] := by
  cases h : v.vistaBootDrive with
  | none => simp [given, Bcd.World.value, h]
  | some id => simp [given, Bcd.World.value, h]

/-- The value is there afterwards, whether `modify_bcd` finds it or creates the entry. -/
theorem Entered.given_vistaBootDrive (h : Entered b w) (hb : b.bootloader = some .vista) :
    (given b.vistaBootDrive).isSome := by
  cases h with
  | xp _ _ _ hx => exact absurd (hx.symm.trans hb) (by decide)
  | vista info drive c v id output hid hout _ _ hdrive hcopies hfound hcreate hvalue =>
    rw [hvalue, isSome_given_iff, Bcd.modifyBcd, if_neg (by simp [hcopies]), if_neg (by simp [hfound]),
      Prog.eval_read]
    split
    · next hv => exact hv
    · rw [Prog.eval_update, hcreate]
      simp only [Bcd.Create.output, hout]
      rw [Bcd.World.value, Bcd.vistaBootDrive_configure]
      exact hid

theorem Entered.checkBootEntry_iff (h : Entered b w) (hl : b.hasLoader w) :
    b.checkBootEntry w ↔ b.bootloader = some .vista := by
  unfold BootCheck.checkBootEntry
  split
  · next hb => simp [BootCheck.chkBootini, chkBootiniEntry_eq_false, hb]
  · next hb => simp [BootCheck.chkBootbcd, hl, h.given_vistaBootDrive hb, hb]
  · next _ hv => simpa using hv

/-- A completed installation is found in order exactly on a machine of the type `vista`. -/
theorem needfix_eq_zero_iff (h : Installed c b w d) :
    b.needfix w c = 0 ∧ (b.bootloader = some .xp → b.chkBootiniEntry w) ↔
      b.bootloader = some .vista := by
  rw [h.needfix_eq, chkBootiniEntry_eq_false]
  have hiff := h.entry.checkBootEntry_iff h.loader
  constructor
  · rintro ⟨hzero, -⟩
    refine hiff.mp ?_
    by_contra hne
    simp [hne] at hzero
  · intro hb
    exact ⟨by rw [if_pos (hiff.mpr hb)], fun hx => absurd (hx.symm.trans hb) (by decide)⟩

end Health

private def loopMode : LoaderInfo := { runTask := none, flag := true, distroName := "StartOS".toList }

private def loopModeBcd : Bcd.Info :=
  { loopMode with
    targetDir := "C:\\startos-loop".toList
    targetDrive := "C:".toList
    systemDrive := "C:".toList }

private def oneDisk : Computer where
  drives := [⟨"C:".toList, .hd⟩]
  lettered := by
    intro d hd
    obtain rfl := List.mem_singleton.mp hd
    exact ⟨'C', rfl⟩
  originalExe := "C:\\startos.exe".toList
  inst := "startos.exe".toList
  bootEntry _ := false

/-- The installation on the disk `C:`, with this `boot.ini`. -/
private def installedWorld (bootIni : Option Text) : World where
  dirs q := q = "c:\\startos-loop".toList
  files q :=
    if q = "c:\\startos-loop\\disks\\root.disk".toList then
      some (List.replicate (1500 * 1000 * 1000) 'x')
    else if q = "c:\\yldr".toList ∨ q = "c:\\yldr.mbr".toList then some []
    else if q = "c:\\boot.ini".toList then bootIni
    else none
  installationDir := some "C:\\startos-loop".toList
  uninstallString := none

private def onVista : BootCheck where
  bootloader := some .vista
  systemDrive := "C:".toList
  vistaBootDrive := some "{1}".toList

private def onXp : BootCheck where
  bootloader := some .xp
  systemDrive := "C:".toList
  vistaBootDrive := none

private def xpBootIni : Text :=
  "[boot loader]\ntimeout = 10\n[operating systems]\nC:\\yldr.mbr = \"StartOS\"\n".toList

private theorem installed_oneDisk {b : BootCheck} {bootIni : Option Text}
    (hb : b.systemDrive = "C:".toList) (he : Entered b (installedWorld bootIni)) :
    Installed oneDisk b (installedWorld bootIni) ⟨"C:".toList, .hd⟩ where
  mem := List.mem_singleton_self _
  dir := rfl
  only e he _ := List.mem_singleton.mp he
  rootDisk := ⟨List.replicate (1500 * 1000 * 1000) 'x', rfl, by rw [List.length_replicate]⟩
  registry := rfl
  loader := by
    rw [BootCheck.hasLoader, hb]
    rfl
  entry := he

/-- The BCD store was empty. -/
theorem needfix_eq_zero_vista :
    onVista.needfix (installedWorld none) oneDisk = 0 ∧
        (onVista.bootloader = some .xp → onVista.chkBootiniEntry (installedWorld none)) ↔
      onVista.bootloader = some .vista := by
  refine needfix_eq_zero_iff (installed_oneDisk rfl ?_)
  refine .vista loopModeBcd ⟨"C:".toList, .hd⟩
    { create := .created "{1}".toList "The entry {1} was created".toList (by decide) (by decide) }
    { entries := [], displayOrder := [], timeout := none, vistaBootDrive := none }
    "{1}".toList "The entry {1} was created".toList (by decide) (by decide) rfl
    ⟨by decide, rfl⟩ (by decide) rfl rfl rfl ?_
  decide

/-- On a machine of the type `xp` the installation looks broken as soon as it is finished. -/
theorem xp_needs_fix :
    Installed oneDisk onXp (installedWorld (some xpBootIni)) ⟨"C:".toList, .hd⟩ ∧
      modifyBootini loopMode "[boot loader]\n[operating systems]\n".toList = some xpBootIni ∧
      HasEntry loopMode xpBootIni.lines ∧
      onXp.chkBootiniEntry (installedWorld (some xpBootIni)) = false ∧
      onXp.needfix (installedWorld (some xpBootIni)) oneDisk = 1 := by
  have htext : modifyBootini loopMode "[boot loader]\n[operating systems]\n".toList = some xpBootIni := by
    decide
  have hentry : HasEntry loopMode xpBootIni.lines :=
    ⟨by decide, ["[boot loader]".toList, "timeout = 10".toList, "[operating systems]".toList], [[]],
      by decide, by decide⟩
  have hi : Installed oneDisk onXp (installedWorld (some xpBootIni)) ⟨"C:".toList, .hd⟩ :=
    installed_oneDisk rfl
      (.xp loopMode _ xpBootIni rfl rfl ⟨by decide, rfl⟩ rfl htext hentry (by decide))
  refine ⟨hi, htext, hentry, chkBootiniEntry_eq_false, ?_⟩
  rw [hi.needfix_eq, if_neg]
  rw [hi.entry.checkBootEntry_iff hi.loader]
  decide

end Swinst.Previous
