import Mathlib.Algebra.BigOperators.Group.List.Basic
import Mathlib.Algebra.GroupWithZero.Nat
import Mathlib.Logic.Function.Basic
import Mathlib.Data.List.Nodup

/-! The virtual disks of an installation: `choose_disk_sizes` and `create_virtual_disks` of
`backends/win32/backend.py`, and `create_virtual_disk` of `backends/win32/virtualdisk.py`. -/

namespace Swinst.Disks

inductive Disk where
  | root | home | usr | swap
  deriving DecidableEq

/-- In the order of `create_virtual_disks`. -/
def Disk.all : List Disk := [.root, .home, .usr, .swap]

theorem Disk.mem_all (d : Disk) : d ∈ all := by cases d <;> decide

/-- `info.root_size_mb`, `info.home_size_mb`, … -/
abbrev Sizes := Disk → Int

/-- `choose_disk_sizes`; `total` is `info.installation_size_mb` -/
def chooseDiskSizes (total : Int) (isFat : Bool) : Sizes :=
  let swap : Int := 256
  let root := total - swap
  let (root, home, usr) : Int × Int × Int :=
    if isFat then
      if root > 8500 then (4000, root - 8000, 4000)
      else if root > 5500 then (root - 4000, 0, 4000)
      else if root > 4000 then (1500, 0, root - 1500)
      else (root, 0, 0)
    else (root, 0, 0)
  let home := if isFat && home > 4000 then 4000 else home
  fun
    | .root => root
    | .home => home
    | .usr => usr
    | .swap => swap

/-- What is found at the path of a disk. -/
inductive Entry where
  | absent
  | file (bytes : Nat)
  | dir
  deriving DecidableEq

/-- `info.disks_dir`, at the paths of the four disks. -/
abbrev DisksDir := Disk → Entry

/-- `create_virtual_disk`. When the file cannot be created the code goes on all the same, and the loop
of `zero_file` never ends: `none`. -/
def createVirtualDisk (sizeMb : Int) (e : Entry) : Option Entry :=
  if sizeMb < 1 then some e
  else
    match e with
    | .dir => none
    | .absent | .file _ => some (.file (sizeMb * 1024 * 1024).toNat)

/-- One turn of the loop of `create_virtual_disks`: an existing file is kept. -/
def createEntry (sizeMb : Int) (e : Entry) : Option Entry :=
  match e with
  | .file _ => some e
  | .absent | .dir => if sizeMb = 0 then some e else createVirtualDisk sizeMb e

/-- `create_virtual_disks` -/
def createVirtualDisks (sizes : Sizes) (disks : DisksDir) : Option DisksDir :=
  Disk.all.foldlM (fun disks d => (createEntry (sizes d) (disks d)).map (Function.update disks d)) disks

/-- A loop that treats each place once treats each as it was before. -/
theorem foldlM_update {α β : Type} [DecidableEq α] {f : α → β → Option β} {l : List α} (hl : l.Nodup) :
    ∀ {s s' : α → β}, l.foldlM (fun s a => (f a (s a)).map (Function.update s a)) s = some s' →
      (∀ a ∈ l, f a (s a) = some (s' a)) ∧ ∀ a, a ∉ l → s' a = s a := by
  induction l with
  | nil =>
    intro s s' h
    cases h
    exact ⟨by simp, fun _ _ => rfl⟩
  | cons a l ih =>
    intro s s' h
    obtain ⟨ha, hl⟩ := List.nodup_cons.mp hl
    rw [List.foldlM_cons] at h
    obtain ⟨s₁, h₁, h⟩ := Option.bind_eq_some_iff.mp h
    obtain ⟨b, hb, rfl⟩ := Option.map_eq_some_iff.mp h₁
    obtain ⟨hin, hout⟩ := ih hl h
    refine ⟨fun c hc => ?_, fun c hc => ?_⟩
    · rcases List.mem_cons.mp hc with rfl | hc
      · rw [hb, hout c ha, Function.update_self]
      · have hca : c ≠ a := fun h => ha (h ▸ hc)
        rw [← hin c hc, Function.update_of_ne hca]
    · rw [List.mem_cons, not_or] at hc
      rw [hout c hc.2, Function.update_of_ne hc.1]

theorem createVirtualDisks_apply {sizes : Sizes} {disks disks' : DisksDir}
    (h : createVirtualDisks sizes disks = some disks') (d : Disk) :
    createEntry (sizes d) (disks d) = some (disks' d) :=
  (foldlM_update (f := fun d => createEntry (sizes d)) (by decide) h).1 d d.mem_all

namespace Entry

def bytes : Entry → Nat
  | .file n => n
  | .absent | .dir => 0

end Entry

/-- What the disks occupy. -/
def occupied (disks : DisksDir) : Nat := (Disk.all.map fun d => (disks d).bytes).sum

/-- A disk grows by its chosen size at most. -/
theorem bytes_createEntry {sizeMb : Int} {e e' : Entry} (h : createEntry sizeMb e = some e')
    (hs : 0 ≤ sizeMb) : (e'.bytes : Int) ≤ e.bytes + sizeMb * 1024 ^ 2 := by
  have hpos : 0 ≤ sizeMb * 1024 ^ 2 := by omega
  have hgrow (hc : createVirtualDisk sizeMb e = some e') :
      (e'.bytes : Int) ≤ e.bytes + sizeMb * 1024 ^ 2 := by
    unfold createVirtualDisk at hc
    split at hc
    · cases hc
      omega
    · cases e with
      | dir => cases hc
      | absent | file =>
        cases hc
        simp only [Entry.bytes]
        omega
  cases e with
  | file n =>
    cases h
    exact Int.le_add_of_nonneg_right hpos
  | absent | dir =>
    unfold createEntry at h
    dsimp only at h
    split at h
    · cases h
      exact Int.le_add_of_nonneg_right hpos
    · exact hgrow h

/-- Together they grow by the sum of the sizes at most. -/
theorem occupied_createVirtualDisks {sizes : Sizes} {disks disks' : DisksDir}
    (h : createVirtualDisks sizes disks = some disks') (hs : ∀ d, 0 ≤ sizes d) :
    (occupied disks' : Int) ≤
      occupied disks + (sizes .root + sizes .home + sizes .usr + sizes .swap) * 1024 ^ 2 := by
  have hd (d : Disk) := bytes_createEntry (createVirtualDisks_apply h d) (hs d)
  have hroot := hd .root
  have hhome := hd .home
  have husr := hd .usr
  have hswap := hd .swap
  simp only [occupied, Disk.all, List.map_cons, List.map_nil, List.sum_cons, List.sum_nil]
  push_cast
  omega

end Swinst.Disks
