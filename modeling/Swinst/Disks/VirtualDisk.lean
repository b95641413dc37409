import Swinst.Disks.ZeroFile

/-! The file of a virtual disk, byte by byte: `create_virtual_disk` of `backends/win32/virtualdisk.py`
where the calls of Windows succeed. -/

namespace Swinst.Disks

/-- `file_pos.QuadPart = n`, of 64 bits -/
def quadPart (n : Int) : Int := n.bmod (2 ^ 64)

/-- `SetFilePointerEx(file_handle, file_pos, NULL, FILE_BEGIN)`, which refuses a negative position; the
code logs that and goes on. -/
def FileHandle.setPointer (f : FileHandle) (filePos : Int) : FileHandle :=
  if filePos < 0 then f else { f with pos := filePos.toNat }

/-- `SetEndOfFile(file_handle)` -/
def FileHandle.setEnd (f : FileHandle) : FileHandle := { f with size := f.pos }

theorem FileHandle.setPointer_natCast (f : FileHandle) (n : Nat) :
    f.setPointer n = { f with pos := n } := by
  have hlt : ¬ (n : Int) < 0 := by omega
  rw [setPointer, if_neg hlt, Int.toNat_natCast]

theorem FileHandle.byte_setPointer (f : FileHandle) (filePos : Int) :
    (f.setPointer filePos).byte = f.byte := by
  unfold setPointer
  split <;> rfl

def clearBytes : Nat := 1000000

/-- `create_virtual_disk` at a path where `before` is found. The bytes of the extended file are whatever
the disk holds there, since `SetFileValidData` spares Windows the zeros. `none`: more than `fuel` turns. -/
def createVirtualDiskFile (outcomes : Nat → WriteOutcome) (disk : Nat → UInt8) (fuel : Nat) (sizeMb : Int)
    (before : Option FileHandle) : Option (Option FileHandle) :=
  if sizeMb < 1 then some before
  else do
    let file : FileHandle := { size := 0, byte := disk, pos := 0, writes := [] }
    let file := (file.setPointer (quadPart (sizeMb * 1024 * 1024))).setEnd
    let file ← zeroFile outcomes fuel (file.setPointer (quadPart 0)) clearBytes
    let file ← zeroFile outcomes fuel
      (file.setPointer (quadPart (sizeMb * 1024 * 1024 - clearBytes))) clearBytes
    some (some file)

section
variable {outcomes : Nat → WriteOutcome} {disk : Nat → UInt8} {sizeMb : Int} {before : Option FileHandle}

/-- The file before the first block is written. -/
def extended (disk : Nat → UInt8) (sizeMb : Int) : FileHandle :=
  ((({ size := 0, byte := disk, pos := 0, writes := [] } : FileHandle).setPointer
    (quadPart (sizeMb * 1024 * 1024))).setEnd).setPointer (quadPart 0)

theorem createVirtualDiskFile_eq_some {fuel : Nat} {e : Option FileHandle} (hsize : 1 ≤ sizeMb) :
    createVirtualDiskFile outcomes disk fuel sizeMb before = some e ↔
      ∃ first last, zeroFile outcomes fuel (extended disk sizeMb) clearBytes = some first ∧
        zeroFile outcomes fuel (first.setPointer (quadPart (sizeMb * 1024 * 1024 - clearBytes)))
          clearBytes = some last ∧ e = some last := by
  have hlt : ¬ sizeMb < 1 := not_lt.mpr hsize
  rw [createVirtualDiskFile, if_neg hlt]
  constructor
  · intro h
    obtain ⟨first, hfirst, h⟩ := Option.bind_eq_some_iff.mp h
    obtain ⟨last, hlast, h⟩ := Option.bind_eq_some_iff.mp h
    exact ⟨first, last, hfirst, hlast, (Option.some.inj h).symm⟩
  · rintro ⟨first, last, hfirst, hlast, rfl⟩
    exact Option.bind_eq_some_iff.mpr
      ⟨first, hfirst, Option.bind_eq_some_iff.mpr ⟨last, hlast, rfl⟩⟩

/-- It ends when every call writes something. -/
theorem createVirtualDiskFile_terminates (hpos : ∀ k, 0 < (outcomes k).bytes) (hsize : 1 ≤ sizeMb) :
    ∃ fuel f, createVirtualDiskFile outcomes disk fuel sizeMb before = some (some f) := by
  obtain ⟨n, hn⟩ := zeroFile_terminates_of_pos hpos (extended disk sizeMb) clearBytes
  obtain ⟨first, hfirst⟩ := Option.isSome_iff_exists.mp hn
  obtain ⟨m, hm⟩ := zeroFile_terminates_of_pos hpos
    (first.setPointer (quadPart (sizeMb * 1024 * 1024 - clearBytes))) clearBytes
  obtain ⟨last, hlast⟩ := Option.isSome_iff_exists.mp hm
  refine ⟨n + m, last, (createVirtualDiskFile_eq_some hsize).mpr
    ⟨first, last, zeroFile_add hfirst m, ?_, rfl⟩⟩
  rw [Nat.add_comm]
  exact zeroFile_add hlast n

/-- A file as a virtual disk of `sizeMb` is announced: "The initial and final block are zeroed". -/
structure ZeroedDisk (sizeMb : Int) (f : FileHandle) : Prop where
  size : (f.size : Int) = sizeMb * 1024 * 1024
  initial : ∀ i < clearBytes, f.byte i = 0
  final : ∀ i < f.size, f.size - clearBytes ≤ i → f.byte i = 0
  inside : ∀ w ∈ f.writes, w.1 + w.2 ≤ f.size

/-- The bytes `'0'` that the first block is written with are never replaced by others. -/
theorem byte_zero_createVirtualDiskFile {fuel : Nat} {f : FileHandle} (hsize : 1 ≤ sizeMb)
    (h : createVirtualDiskFile outcomes disk fuel sizeMb before = some (some f)) :
    f.byte 0 = '0'.toUInt8 := by
  obtain ⟨first, last, hfirst, hlast, he⟩ := (createVirtualDiskFile_eq_some hsize).mp h
  obtain rfl := Option.some.inj he
  have hbyte : first.byte 0 = '0'.toUInt8 := by
    rw [(filled_zeroFile hfirst).byte]
    rfl
  rw [(filled_zeroFile hlast).byte, FileHandle.byte_setPointer, hbyte]
  exact ite_self _

/-- Both blocks consist of the character `'0'`. -/
theorem createVirtualDiskFile_never_zeroed (hpos : ∀ k, 0 < (outcomes k).bytes) (hsize : 1 ≤ sizeMb) :
    (∃ fuel f, createVirtualDiskFile outcomes disk fuel sizeMb before = some (some f)) ∧
      ∀ fuel f, createVirtualDiskFile outcomes disk fuel sizeMb before = some (some f) →
        ¬ ZeroedDisk sizeMb f := by
  refine ⟨createVirtualDiskFile_terminates hpos hsize, ?_⟩
  intro fuel f hf hzero
  have h0 := hzero.initial 0 (by decide)
  rw [byte_zero_createVirtualDiskFile hsize hf] at h0
  cases h0

/-- Except for that the file is as announced. The bound is that of `QuadPart`: 8 EiB. -/
theorem createVirtualDiskFile_spec {fuel : Nat} {f : FileHandle} (hsize : 1 ≤ sizeMb)
    (hquad : sizeMb < 2 ^ 43)
    (h : createVirtualDiskFile outcomes disk fuel sizeMb before = some (some f)) :
    (f.size : Int) = sizeMb * 1024 * 1024 ∧ (∀ w ∈ f.writes, w.1 + w.2 ≤ f.size) ∧
      ∀ i < f.size, f.byte i =
        if i < clearBytes ∨ f.size - clearBytes ≤ i then '0'.toUInt8 else disk i := by
  obtain ⟨first, last, hfirst, hlast, he⟩ := (createVirtualDiskFile_eq_some hsize).mp h
  obtain rfl := Option.some.inj he
  obtain ⟨n, hn⟩ := Int.eq_ofNat_of_zero_le (a := sizeMb) (by omega)
  have hend : quadPart (sizeMb * 1024 * 1024) = (n * 1024 * 1024 : Nat) := by
    rw [quadPart, Int.bmod_eq_of_le (by omega) (by omega)]
    omega
  have hlastPos : quadPart (sizeMb * 1024 * 1024 - clearBytes) =
      (n * 1024 * 1024 - 1000000 : Nat) := by
    rw [clearBytes, quadPart, Int.bmod_eq_of_le (by omega) (by omega)]
    omega
  have hstart : extended disk sizeMb =
      { size := n * 1024 * 1024, byte := disk, pos := 0, writes := [] } := by
    rw [extended, hend]
    rfl
  obtain ⟨-, hfsize, hfbyte, hfwrites⟩ := filled_zeroFile hfirst
  obtain ⟨-, hlsize, hlbyte, hlwrites⟩ := filled_zeroFile hlast
  rw [hstart, clearBytes] at hfsize hfbyte hfwrites
  rw [hlastPos, FileHandle.setPointer_natCast, clearBytes] at hlsize hlbyte hlwrites
  dsimp only at hfsize hfbyte hfwrites hlsize hlbyte hlwrites
  rw [if_neg (by decide)] at hfsize hlsize
  refine ⟨by omega, ?_, ?_⟩
  · intro w hw
    rcases hlwrites w hw with hw | ⟨_, hw⟩
    · rcases hfwrites w hw with hw | ⟨_, hw⟩
      · cases hw
      · omega
    · omega
  · intro i hi
    rw [hlbyte, hfbyte, clearBytes]
    split_ifs <;> first | rfl | omega

/-- It is the file of `createVirtualDisk`. -/
theorem createVirtualDisk_eq_file {fuel : Nat} {f : FileHandle} (hsize : 1 ≤ sizeMb)
    (hquad : sizeMb < 2 ^ 43)
    (h : createVirtualDiskFile outcomes disk fuel sizeMb before = some (some f)) :
    createVirtualDisk sizeMb .absent = some (.file f.size) := by
  have hlt : ¬ sizeMb < 1 := not_lt.mpr hsize
  rw [createVirtualDisk, if_neg hlt, ← (createVirtualDiskFile_spec hsize hquad h).1]
  rfl

end

private def wholeWrites : Nat → WriteOutcome := fun _ => ⟨true, 1000⟩

/-- A disk of 1 MB whose calls write all that they are asked to. -/
theorem createVirtualDiskFile_never_zeroed_small :
    (∃ fuel f, createVirtualDiskFile wholeWrites (fun _ => 0) fuel 1 none = some (some f)) ∧
      ∀ fuel f, createVirtualDiskFile wholeWrites (fun _ => 0) fuel 1 none = some (some f) →
        ¬ ZeroedDisk 1 f :=
  createVirtualDiskFile_never_zeroed (fun _ => Nat.succ_pos 999) (by decide)

theorem small_disk_not_zeroed :
    ¬ ∀ (outcomes : Nat → WriteOutcome) (disk : Nat → UInt8) (sizeMb : Int) (before : Option FileHandle),
      (∀ k, (outcomes k).result = true ∧ 0 < (outcomes k).bytes) → 1 ≤ sizeMb →
        ∃ fuel f, createVirtualDiskFile outcomes disk fuel sizeMb before = some (some f) ∧
          ZeroedDisk sizeMb f := by
  intro h
  obtain ⟨fuel, f, hf, hzero⟩ :=
    h wholeWrites (fun _ => 0) 1 none (fun _ => ⟨rfl, Nat.succ_pos 999⟩) (by decide)
  have h0 := hzero.initial 0 (by decide)
  rw [byte_zero_createVirtualDiskFile (by decide) hf] at h0
  cases h0

end Swinst.Disks
