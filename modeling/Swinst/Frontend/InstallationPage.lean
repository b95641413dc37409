import Swinst.Disks.SizeList
import Mathlib.Data.Rat.Floor

/-! The installation page: the drives and the sizes it offers, by `frontends/win32/installation_page.py`,
with `ComboBox` of `winui/ui.py` and `Drive` of `backends/win32/drive.py`. -/

namespace Swinst.Frontend
open Disks

/-! ## Lists to choose from -/

/-- `ComboBox`; the items are not sorted -/
structure ComboBox where
  items : List Text
  selected : Option Nat

namespace ComboBox

def empty : ComboBox where
  items := []
  selected := none

def addItem (box : ComboBox) (text : Text) : ComboBox := { box with items := box.items ++ [text] }

def beginsWith (value item : Text) : Bool := item.lower.startsWith value.lower

/-- `CB_SELECTSTRING` from the first item on: the first item that begins with `value`, and no change when
there is none. -/
def setValue (box : ComboBox) (value : Text) : ComboBox :=
  match box.items.findIdx? (beginsWith value) with
  | some i => { box with selected := some i }
  | none => box

/-- `get_text`, where the empty text stands for `None` -/
def getText (box : ComboBox) : Text := (box.selected.bind (box.items[·]?)).getD []

theorem items_foldl_addItem (box : ComboBox) (texts : List Text) :
    (texts.foldl addItem box).items = box.items ++ texts := by
  induction texts generalizing box with
  | nil => exact (List.append_nil _).symm
  | cons text texts ih =>
    rw [List.foldl_cons, ih, addItem, List.append_assoc]
    rfl

theorem beginsWith_self (value : Text) : beginsWith value value = true :=
  Text.startsWith_iff.mpr (List.prefix_refl _)

/-- An item that begins no other is found. -/
theorem getText_setValue {box : ComboBox} {value : Text} (h : value ∈ box.items)
    (honly : ∀ item ∈ box.items, beginsWith value item → item = value) :
    (box.setValue value).getText = value := by
  unfold setValue
  split
  · next i hi =>
    obtain ⟨hlt, hbegins, -⟩ := List.findIdx?_eq_some_iff_getElem.mp hi
    have hitem : box.items[i] = value := honly _ (List.getElem_mem hlt) hbegins
    rw [getText, Option.bind_some, List.getElem?_eq_getElem hlt, hitem, Option.getD_some]
  · next hnone =>
    have hself := List.findIdx?_eq_none_iff.mp hnone value h
    rw [beginsWith_self] at hself
    cases hself

theorem setValue_of_not_begins {box : ComboBox} {value : Text}
    (h : ∀ item ∈ box.items, beginsWith value item = false) : box.setValue value = box := by
  rw [setValue, List.findIdx?_eq_none_iff.mpr h]

end ComboBox

/-! ## Drives -/

inductive DriveType where
  | removable | hd | remote | cd | ram
  deriving DecidableEq

/-- `Drive`, of a letter that has a type -/
structure WindowsDrive where
  path : Text
  type : DriveType
  filesystem : Text
  freeBytes : Nat

namespace WindowsDrive

def isFat (drive : WindowsDrive) : Bool :=
  drive.filesystem = "fat".toList || drive.filesystem = "fat32".toList || drive.filesystem = "vfat".toList

/-- What the sizes depend on. -/
def space (drive : WindowsDrive) : Disks.Drive where
  freeBytes := drive.freeBytes
  isFat := drive.isFat

def freeSpaceMb (drive : WindowsDrive) : Rat := drive.space.freeSpaceMb

/-- `int(drive.free_space_mb/1024) * 1000` -/
def driveSpaceMb (drive : WindowsDrive) : Int := ⌊drive.freeSpaceMb / 1024⌋ * 1000

/-- `drive.type in ['removable', 'hd']` -/
def isDisk (drive : WindowsDrive) : Bool := drive.type = .removable ∨ drive.type = .hd

/-- The key of `drives_dict` -/
def key (drive : WindowsDrive) : Text := Text.lower (drive.path.take 2)

end WindowsDrive

/-- `info.drives`, and `info.drives_dict` by the keys. -/
structure Drives where
  list : List WindowsDrive
  path_length : ∀ drive ∈ list, drive.path.length = 2
  keys_nodup : (list.map (·.key)).Nodup

namespace Drives

/-- `drives_dict.get(key)`, where the last drive of a key counts -/
def get (drives : Drives) (key : Text) : Option WindowsDrive :=
  drives.list.reverse.find? (·.key = key)

theorem key_injective (drives : Drives) {a b : WindowsDrive} (ha : a ∈ drives.list) (hb : b ∈ drives.list)
    (h : a.key = b.key) : a = b := List.inj_on_of_nodup_map drives.keys_nodup ha hb h

theorem get_key (drives : Drives) {drive : WindowsDrive} (h : drive ∈ drives.list) :
    drives.get drive.key = some drive := by
  cases hget : drives.get drive.key with
  | none =>
    have hne := List.find?_eq_none.mp hget drive (List.mem_reverse.mpr h)
    exact (hne (decide_eq_true rfl)).elim
  | some found =>
    rw [get] at hget
    have hkey : found.key = drive.key := by simpa using List.find?_some hget
    have hmem : found ∈ drives.list := List.mem_reverse.mp (List.mem_of_find?_eq_some hget)
    rw [drives.key_injective hmem h hkey]

def letters : List Char := "ABCDEFGHIJKLMNOPQRSTUVWXYZ".toList

/-- `get_drives`, with what Windows says about each letter: no type at all, or what a drive consists of. -/
def getDrives (probe : Char → Option (DriveType × Text × Nat)) : Drives where
  list := letters.filterMap fun letter =>
    (probe letter).map fun (type, filesystem, freeBytes) =>
      { path := [letter, ':'], type, filesystem, freeBytes }
  path_length := by
    intro drive h
    obtain ⟨letter, -, hdrive⟩ := List.mem_filterMap.mp h
    obtain ⟨_, -, rfl⟩ := Option.map_eq_some_iff.mp hdrive
    rfl
  keys_nodup := by
    have hall : (letters.map fun letter => Text.lower [letter, ':']).Nodup := by decide
    refine hall.sublist ?_
    generalize letters = l
    induction l with
    | nil => exact List.nil_sublist _
    | cons letter l ih =>
      cases hprobe : probe letter with
      | none =>
        rw [List.filterMap_cons_none (by rw [hprobe]; rfl)]
        exact ih.cons _
      | some =>
        rw [List.filterMap_cons_some (by rw [hprobe]; rfl)]
        exact ih.cons_cons _

end Drives

/-! ## The page -/

/-- `info.installation_size_mb`: a number from the page, or the text after `--size` -/
inductive SizeSetting where
  | unset
  | mb (n : Int)
  | text (s : Text)

/-- `installation_size_gb` of a setting that is not empty; a text cannot be divided. -/
def SizeSetting.gb : SizeSetting → Except PyError (Option Int)
  | .unset => .ok none
  | .mb n => .ok (if n = 0 then none else some (n / 1000))
  | .text s => if s = [] then .ok none else .error .typeError

/-- What the page shows to the user in front of it. -/
inductive Dialog where
  | error (message : Text)
  | confirmation (message : Text)

/-- The page and the fields of `info` that it reads and sets. -/
structure Page where
  distro : Distro
  minDiskSpaceMb : Int
  drives : Drives
  skipSizeCheck : Bool
  targetDrive : Option WindowsDrive
  installationSizeMb : SizeSetting
  targetDriveList : ComboBox
  drivesGb : List Text
  sizeList : ComboBox
  sizeListGb : List Nat

namespace Page

/-- `min_space_mb` of the drive list and of the check before it -/
def minSpaceMb (p : Page) : Int := p.minDiskSpaceMb + p.distro.maxIsoSize / 1024 ^ 2 + 100

def onlyAvailable (maxSpace : Int) : Text :=
  "Only ".toList ++ Text.decimal maxSpace ++
    "MB of disk space are available.\nAt least 1024MB are required as a bare minimum. Quitting".toList

def areRequired (minSpace maxSpace : Int) : Text :=
  Text.decimal minSpace ++ "MB of disk size are required for installation.\nOnly ".toList ++
    Text.decimal maxSpace ++ "MB are available.\nThe installation may fail in such circumstances.\n".toList ++
    "Do you wish to continue anyway?".toList

/-- `int(round(min_space_mb/1000+0.5)*1024)`, which rounds a half away from zero -/
def roundedMb (minSpace : Int) : Int :=
  (if 0 ≤ minSpace / 1000 then minSpace / 1000 + 1 else minSpace / 1000) * 1024

/-- The turn of the loop of `check_disk_free_space`, on `max_space_mb` and `max_space_mb2` -/
def countDrive (minSpace : Int) (maxSpaces : Rat × Rat) (drive : WindowsDrive) : Rat × Rat :=
  if !drive.isDisk then maxSpaces
  else
    (max maxSpaces.1 drive.freeSpaceMb,
      if drive.driveSpaceMb > minSpace then max maxSpaces.2 drive.freeSpaceMb else maxSpaces.2)

/-- `check_disk_free_space` with the user's `answer`: what it shows, and the page when it does not quit. -/
def checkDiskFreeSpace (p : Page) (answer : Bool) : List Dialog × Option Page :=
  if p.skipSizeCheck then ([], some p)
  else
    let (maxSpace, maxSpace2) := p.drives.list.foldl (countDrive p.minSpaceMb) (0, 0)
    if maxSpace < 1024 then ([.error (onlyAvailable ⌊maxSpace⌋)], none)
    else if maxSpace2 < p.minSpaceMb then
      ([.confirmation (areRequired (roundedMb p.minSpaceMb) ⌊maxSpace⌋)],
        if answer then some { p with skipSizeCheck := true } else none)
    else ([], some p)

/-- `get_drive` -/
def getDrive (p : Page) : Option WindowsDrive :=
  if p.targetDriveList.getText = [] then none
  else p.drives.get (Text.lower (p.targetDriveList.getText.take 2))

/-- `on_size_change` -/
def onSizeChange (p : Page) : Page :=
  { p with
    installationSizeMb :=
      match getInstallationSizeMb p.sizeList.getText with
      | some n => .mb n
      | none => .unset }

/-- The second half of `select_default_size` -/
def selectAverageSize (p : Page) : Except PyError Page :=
  let i := p.sizeListGb.length
  if i = 0 then .ok p
  else
    let i := if i > 1 then i / 2 else i
    match p.sizeListGb[i]? with
    | none => .error .indexError
    | some gb =>
      let gb := if gb < 10 ∧ gb ≠ 0 then gb else 10
      .ok { p with sizeList := p.sizeList.setValue (sizeItem gb) }.onSizeChange

/-- `select_default_size` -/
def selectDefaultSize (p : Page) : Except PyError Page := do
  let gb ← SizeSetting.gb p.installationSizeMb
  let enough : Option Nat := gb.bind fun gb => p.sizeListGb.find? fun i => gb ≤ i
  match enough with
  | some i => .ok { p with sizeList := p.sizeList.setValue (sizeItem i) }
  | none => p.selectAverageSize

/-- `populate_size_list` -/
def populateSizeList (p : Page) : Except PyError Page :=
  match p.getDrive with
  | none => .ok { p with sizeList := .empty }
  | some drive =>
    let sizeListGb :=
      (List.range' 1 30).filter (fits p.distro p.minDiskSpaceMb drive.space p.skipSizeCheck)
    selectDefaultSize
      { p with sizeListGb, sizeList := (sizeListGb.map sizeItem).foldl ComboBox.addItem .empty }

/-- `on_drive_change`, where the target drive stays set when the sizes raise -/
def onDriveChange (p : Page) : Page × Except PyError Page :=
  let p := { p with targetDrive := p.getDrive }
  (p, p.populateSizeList)

/-- Does `populate_drive_list` offer the drive? -/
def offers (p : Page) (drive : WindowsDrive) : Bool :=
  drive.isDisk && !drive.isFat && (p.skipSizeCheck || drive.driveSpaceMb > p.minSpaceMb)

/-- `drive.path + " " + _("(%sGB free)") % n`, with the translation of the second part -/
def driveText (gbFree : Int → Text) (drive : WindowsDrive) : Text :=
  drive.path ++ " ".toList ++ gbFree (drive.driveSpaceMb / 1000)

/-- `tmpsize` and `tmptext` after a drive that is offered -/
def largest (gbFree : Int → Text) (best : Int × Option Text) (drive : WindowsDrive) : Int × Option Text :=
  if drive.driveSpaceMb > best.1 then (drive.driveSpaceMb, some (driveText gbFree drive)) else best

/-- `populate_drive_list` after its check, up to `on_drive_change` -/
def listDrives (p : Page) (gbFree : Int → Text) : Page :=
  let offered := p.drives.list.filter p.offers
  let drivesGb := offered.map (driveText gbFree)
  let box := drivesGb.foldl ComboBox.addItem .empty
  let value :=
    match (offered.foldl (largest gbFree) (p.minSpaceMb, none)).2, drivesGb with
    | some text, _ => text
    | none, text :: _ => text
    -- `set_value(None)`
    | none, [] => "None".toList
  { p with drivesGb, targetDriveList := box.setValue value }

/-- `populate_drive_list`; `none` when the check quits -/
def populateDriveList (p : Page) (gbFree : Int → Text) (answer : Bool) :
    Option (Page × Except PyError Page) :=
  (p.checkDiskFreeSpace answer).2.map fun p => (p.listDrives gbFree).onDriveChange

end Page

end Swinst.Frontend
