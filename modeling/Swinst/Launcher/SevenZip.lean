import Swinst.Launcher.Archive

/-! The archives that `pylauncher` reads: `SzArchiveOpen` of `7zIn.c`, `SzExtract` of `7zExtract.c` and
`7zCrc.c`. The program is built for 32 bits, with a `CFileSize` of 32 bits. -/

namespace Swinst.Launcher

/-- The results of `Types.h` other than `SZ_OK` -/
inductive SzError
  | dataError | crcError | archiveError | outOfMemory | notImpl | fail
  deriving DecidableEq

/-! ## Checksums -/

/-- The entry `i` of `g_CrcTable` -/
def crcTable (i : UInt32) : UInt32 :=
  (fun r : UInt32 => (r >>> 1) ^^^ (0xEDB88320 &&& ~~~((r &&& 1) - 1)))^[8] i

/-- `CRC_UPDATE_BYTE` -/
def crcUpdateByte (crc : UInt32) (b : UInt8) : UInt32 :=
  crcTable ((crc ^^^ b.toUInt32) &&& 0xFF) ^^^ (crc >>> 8)

def crcUpdate (v : UInt32) (data : List UInt8) : UInt32 := data.foldl crcUpdateByte v

def crcCalc (data : List UInt8) : UInt32 := crcUpdate 0xFFFFFFFF data ^^^ 0xFFFFFFFF

/-! ## The database -/

/-- `CFileItem`. In an archive without names `Name` is null. -/
structure FileItem where
  name : Option (List UInt8)
  size : UInt32
  fileCRC : UInt32
  isFileCRCDefined : Bool
  isDirectory : Bool
  deriving DecidableEq

/-- `CArchiveDatabaseEx`, where a folder index `(UInt32)-1` is `none` -/
structure Database where
  files : List FileItem
  fileIndexToFolderIndexMap : Nat → Option Nat
  folderStartFileIndex : Nat → Nat
  /-- `NumFiles` has 32 bits. -/
  length_lt : files.length < 2 ^ 32

/-- `SzArDbExInit` -/
def szArDbExInit : Database where
  files := []
  fileIndexToFolderIndexMap := fun _ => none
  folderStartFileIndex := fun _ => 0
  length_lt := by decide

/-! ## The stream -/

/-- `CFileInStream`, with `g_offset` -/
structure InStream where
  file : File
  gOffset : Nat

/-- `seek_file_imp`: what can be read from then on. `fseek` takes a signed integer of 32 bits. -/
def InStream.seek (s : InStream) (pos : Nat) : Except SzError (List UInt8) :=
  let pos := (pos + s.gOffset) % 2 ^ 32
  if pos < 2 ^ 31 then .ok (s.file.bytes.drop pos) else .error .fail

/-- `SafeReadDirect`: the bytes, and what follows them -/
def safeReadDirect (size : Nat) : StateT (List UInt8) (Except SzError) (List UInt8) := fun data =>
  if data.length < size then .error .fail else .ok (data.take size, data.drop size)

/-- A number, as `SafeReadDirectUInt32` and `SafeReadDirectUInt64` put it together -/
def littleEndian : List UInt8 → Nat
  | [] => 0
  | b :: data => b.toNat + 2 ^ 8 * littleEndian data

/-! ## Opening -/

structure StartHeader where
  nextHeaderOffset : Nat
  nextHeaderSize : Nat
  nextHeaderCRC : Nat

/-- The start of `SzArchiveOpen2` -/
def readStartHeader : StateT (List UInt8) (Except SzError) StartHeader := do
  let signature ← safeReadDirect 6
  if signature ≠ k7zSignature then throw .archiveError else
  let major ← safeReadDirect 1
  if major ≠ [0] then throw .archiveError else
  let _ ← safeReadDirect 1
  let crcFromArchive ← safeReadDirect 4
  let nextHeaderOffset ← safeReadDirect 8
  let nextHeaderSize ← safeReadDirect 8
  let nextHeaderCRC ← safeReadDirect 4
  if (crcCalc (nextHeaderOffset ++ nextHeaderSize ++ nextHeaderCRC)).toNat ≠ littleEndian crcFromArchive then
    throw .archiveError else
  return ⟨littleEndian nextHeaderOffset, littleEndian nextHeaderSize, littleEndian nextHeaderCRC⟩

/-- `SzArchiveOpen`, on the bytes at the beginning of the stream. `readHeader` stands for what comes of the
bytes of the next header: `SzReadHeader`, or `SzReadAndDecodePackedStreams` and the same again. -/
def szArchiveOpen (malloc : Nat → Bool) (readHeader : List UInt8 → Except SzError Database)
    (inStream : InStream) (data : List UInt8) : Except SzError Database := do
  let header ← readStartHeader.run' data
  if header.nextHeaderSize = 0 then return szArDbExInit else
  let data ← inStream.seek ((0x20 + header.nextHeaderOffset) % 2 ^ 32)
  let size := header.nextHeaderSize % 2 ^ 32
  if size ≠ 0 ∧ !malloc size then throw .outOfMemory else
  let buffer ← (safeReadDirect size).run' data
  if (crcCalc buffer).toNat ≠ header.nextHeaderCRC then throw .archiveError else
  readHeader buffer

theorem safeReadDirect_bind {α : Type} {bytes : List UInt8} {size : Nat} (hsize : bytes.length = size)
    (data : List UInt8) (f : List UInt8 → StateT (List UInt8) (Except SzError) α) :
    (safeReadDirect size >>= f).run' (bytes ++ data) = (f bytes).run' data := by
  have henough : ¬ (bytes ++ data).length < size := by
    rw [List.length_append]
    omega
  have hread : safeReadDirect size (bytes ++ data) = .ok (bytes, data) := by
    rw [safeReadDirect, if_neg henough, ← hsize, List.take_left, List.drop_left]
  simp only [StateT.run', bind, StateT.bind, hread]
  rfl

/-- The bytes of a start header -/
def startHeader (minor : UInt8) (crc nextHeaderOffset nextHeaderSize nextHeaderCRC : List UInt8) : List UInt8 :=
  k7zSignature ++ ([0, minor] ++ (crc ++ (nextHeaderOffset ++ (nextHeaderSize ++ nextHeaderCRC))))

theorem readStartHeader_startHeader {minor : UInt8} {crc offset size headerCRC : List UInt8}
    (hcrc : crc.length = 4) (hoffset : offset.length = 8) (hsize : size.length = 8)
    (hheaderCRC : headerCRC.length = 4)
    (hsum : (crcCalc (offset ++ size ++ headerCRC)).toNat = littleEndian crc) (data : List UInt8) :
    readStartHeader.run' (startHeader minor crc offset size headerCRC ++ data) =
      .ok ⟨littleEndian offset, littleEndian size, littleEndian headerCRC⟩ := by
  have hbytes : startHeader minor crc offset size headerCRC ++ data =
      k7zSignature ++ ([0] ++ ([minor] ++ (crc ++ (offset ++ (size ++ (headerCRC ++ data)))))) := by
    simp [startHeader]
  have hsignature : k7zSignature.length = 6 := rfl
  have hbyte (b : UInt8) : [b].length = 1 := rfl
  rw [hbytes, readStartHeader, safeReadDirect_bind hsignature, if_neg (not_not_intro rfl),
    safeReadDirect_bind (hbyte 0), if_neg (not_not_intro rfl), safeReadDirect_bind (hbyte minor),
    safeReadDirect_bind hcrc, safeReadDirect_bind hoffset, safeReadDirect_bind hsize,
    safeReadDirect_bind hheaderCRC, if_neg (not_not_intro hsum)]
  rfl

/-- Behind an empty next header nothing is read: every such archive is accepted, without any file. -/
theorem szArchiveOpen_empty {minor : UInt8} {crc offset headerCRC : List UInt8} (hcrc : crc.length = 4)
    (hoffset : offset.length = 8) (hheaderCRC : headerCRC.length = 4)
    (hsum : (crcCalc (offset ++ List.replicate 8 0 ++ headerCRC)).toNat = littleEndian crc) (data : List UInt8)
    (malloc : Nat → Bool) (readHeader : List UInt8 → Except SzError Database) (inStream : InStream) :
    szArchiveOpen malloc readHeader inStream
      (startHeader minor crc offset (List.replicate 8 0) headerCRC ++ data) = .ok szArDbExInit := by
  rw [szArchiveOpen, readStartHeader_startHeader hcrc hoffset (List.length_replicate ..) hheaderCRC hsum]
  rfl

/-! ## Extraction -/

/-- A part of the buffer: `offset` and `outSizeProcessed` -/
structure Range where
  offset : Nat
  size : Nat
  deriving DecidableEq

/-- What is kept from one `SzExtract` to the next: `blockIndex`, and `outBuffer`, empty where it is null -/
structure Block where
  blockIndex : Option Nat
  outBuffer : List UInt8

/-- A call of `SzExtract`: the entries that it reads, and what it returns -/
structure Extraction (κ : Type) where
  reads : List Nat
  result : Except SzError (κ × Range)

/-- `SzExtract`. `decodeFolder` stands for `SzDecode` with what is done for it: the folder is read from the
stream and decoded, and its checksum compared. -/
def szExtract (db : Database) (decodeFolder : Nat → Except SzError (List UInt8)) (block : Block)
    (fileIndex : Fin db.files.length) : Extraction Block :=
  match db.fileIndexToFolderIndexMap fileIndex with
  | none => ⟨[], .ok (⟨none, []⟩, ⟨0, 0⟩)⟩
  | some folderIndex =>
    let decoded :=
      if block.outBuffer = [] ∨ block.blockIndex ≠ some folderIndex then decodeFolder folderIndex
      else .ok block.outBuffer
    match decoded with
    | .error e => ⟨[], .error e⟩
    | .ok outBuffer =>
      let fileItem := db.files[fileIndex]
      let start := db.folderStartFileIndex folderIndex
      let sizes := ((db.files.take fileIndex).drop start).map (·.size.toNat)
      let range := ⟨sizes.sum % 2 ^ 32, fileItem.size.toNat⟩
      let data := (outBuffer.drop range.offset).take range.size
      ⟨List.range' start (fileIndex - start) ++ [fileIndex.val],
        if (range.offset + range.size) % 2 ^ 32 > outBuffer.length then .error .fail
        else if fileItem.isFileCRCDefined ∧ crcCalc data ≠ fileItem.fileCRC then .error .crcError
        else .ok (⟨some folderIndex, outBuffer⟩, range)⟩

/-- No entry behind the file is read. -/
theorem le_of_mem_reads {db : Database} {decodeFolder : Nat → Except SzError (List UInt8)} {block : Block}
    {fileIndex : Fin db.files.length} {i : Nat}
    (hi : i ∈ (szExtract db decodeFolder block fileIndex).reads) : i ≤ fileIndex := by
  unfold szExtract at hi
  split at hi
  · cases hi
  · dsimp only at hi
    split at hi
    · cases hi
    · rw [List.mem_append, List.mem_singleton, List.mem_range'_1] at hi
      omega

end Swinst.Launcher
