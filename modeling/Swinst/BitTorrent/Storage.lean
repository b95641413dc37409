import Swinst.BitTorrent.StorageWrapper
import Swinst.Data.Segments

/-! `Storage` of `bittorrent/Storage.py`: the files of a torrent as one row of bytes. -/

namespace Swinst.BitTorrent

open Function (update)

inductive Mode
  | rb
  | rbPlus
  | wb
  | wbPlus
  deriving DecidableEq

def Mode.writable : Mode → Bool
  | rb => false
  | _ => true

/-- The files of the disk -/
abbrev Files := Text → Option Bytes

inductive FileOp
  | opened (file : Text) (mode : Mode)
  | truncate (file : Text) (length : Nat)
  | read (file : Text) (pos amount : Nat)
  | write (file : Text) (pos : Nat) (data : Bytes)
  deriving DecidableEq

/-- What the operating system fails to do -/
abbrev Faults := Files → FileOp → Bool

structure Storage where
  ranges : List (Segment Text)
  totalLength : Nat
  handles : Text → Option Mode
  whandles : List Text
  tops : Text → Option Nat
  files : Files

/-- `data[i:j]` -/
def pySlice (data : Bytes) (i j : Int) : Bytes :=
  let index (k : Int) : Nat := min (if k < 0 then k + data.length else k).toNat data.length
  (data.take (index j)).drop (index i)

namespace Storage

variable (faults : Faults)

def openFile (file : Text) (mode : Mode) (fs : Files) : Except PyError Files :=
  if faults fs (.opened file mode) then .error .ioError
  else
    match mode with
    | .rb | .rbPlus => if (fs file).isSome then .ok fs else .error .ioError
    | .wb | .wbPlus => .ok (update fs file (some []))

def truncateFile (file : Text) (length : Nat) (fs : Files) : Except PyError Files :=
  if faults fs (.truncate file length) then .error .ioError
  else .ok (update fs file ((fs file).map fun content => content.take length))

/-! ## `__init__` -/

/-- An empty file that does not exist is created. -/
def touch (file : Text) (fs : Files) : Except PyError Files :=
  if (fs file).isSome then .ok fs else openFile faults file .wb fs

/-- The first loop, from `total` on -/
def layOut : List (Text × Nat) → (total : Nat) → Files → Except PyError (List (Segment Text) × Nat × Files)
  | [], total, fs => .ok ([], total, fs)
  | (file, length) :: files, total, fs =>
    if length ≠ 0 then do
      let (ranges, sum, fs) ← layOut files (total + length) fs
      return ((total, total + length, file) :: ranges, sum, fs)
    else do
      let fs ← touch faults file fs
      layOut files total fs

def shorten (file : Text) (l length : Nat) (fs : Files) : Except PyError Files :=
  if l > length then truncateFile faults file length fs else .ok fs

/-- A turn of the second loop -/
def openHandle (file : Text) (length : Nat) (st : Storage) : Except PyError Storage :=
  match st.files file with
  | some content =>
    let l := content.length
    if l ≠ length then do
      let fs ← openFile faults file .rbPlus st.files
      let fs ← shorten faults file l length fs
      return { st with
        handles := update st.handles file (some .rbPlus)
        whandles := file :: st.whandles
        tops := update st.tops file (some l)
        files := fs }
    else do
      let fs ← openFile faults file .rb st.files
      return { st with
        handles := update st.handles file (some .rb)
        tops := update st.tops file (some l)
        files := fs }
  | none => do
    let fs ← openFile faults file .wbPlus st.files
    return { st with
      handles := update st.handles file (some .wbPlus)
      whandles := file :: st.whandles
      files := fs }

def openAll : List (Text × Nat) → Storage → Except PyError Storage
  | [], st => .ok st
  | (file, length) :: files, st => do
    let st ← openHandle faults file length st
    openAll files st

/-- `__init__` -/
def init (files : List (Text × Nat)) (fs : Files) : Except PyError Storage := do
  let (ranges, totalLength, fs) ← layOut faults files 0 fs
  openAll faults files
    { ranges, totalLength, handles := fun _ => none, whandles := [], tops := fun _ => none, files := fs }

/-! ## Reading and writing -/

/-- `_intervals`. The first range begins at 0, so the index is not -1 unless there is no range. -/
def intervals (st : Storage) (pos amount : Nat) : Except PyError (List (Text × Nat × Nat)) :=
  if st.ranges.isEmpty then .error .indexError
  else .ok (overlaps (st.ranges.drop ((st.ranges.countP fun r => r.1 ≤ pos) - 1)) pos (pos + amount))

def wasPreallocated (st : Storage) (pos length : Nat) : Except PyError Bool := do
  let iv ← st.intervals pos length
  return iv.all fun (file, _, stop) => !((st.tops file).getD 0 < stop)

def content (st : Storage) (file : Text) : Bytes := (st.files file).getD []

/-- `self.handles[file]` -/
def handle (st : Storage) (file : Text) : Except PyError Mode :=
  match st.handles file with
  | some mode => .ok mode
  | none => .error (.exception "KeyError")

def readChunks (st : Storage) : List (Text × Nat × Nat) → Except PyError Bytes
  | [] => .ok []
  | (file, pos, stop) :: iv => do
    let _ ← st.handle file
    if faults st.files (.read file pos (stop - pos)) then .error .ioError
    else do
      let r ← readChunks st iv
      -- a negative amount reads to the end
      return (if stop < pos then (st.content file).drop pos else ((st.content file).drop pos).take (stop - pos)) ++ r

def read (st : Storage) (pos amount : Nat) : Except PyError Bytes := do
  let iv ← st.intervals pos amount
  readChunks faults st iv

/-- The handle of a file is opened for writing. -/
def reopen (file : Text) (st : Storage) : Except PyError Storage :=
  if st.whandles.contains file then .ok st
  else do
    let _ ← st.handle file
    let fs ← openFile faults file .rbPlus st.files
    return { st with
      handles := update st.handles file (some .rbPlus)
      whandles := file :: st.whandles
      files := fs }

def writeChunk (file : Text) (begin : Nat) (chunk : Bytes) (st : Storage) : Except PyError Storage := do
  let mode ← st.handle file
  if !mode.writable then .error .ioError
  else if faults st.files (.write file begin chunk) then .error .ioError
  else return { st with files := update st.files file (some (patch 0 (st.content file) begin chunk)) }

def writeChunks (s : Bytes) : List (Text × Nat × Nat) → (total : Int) → Storage → Except PyError Storage
  | [], _, st => .ok st
  | (file, begin, stop) :: iv, total, st => do
    let st ← reopen faults file st
    let st ← writeChunk faults file begin (pySlice s total (total + stop - begin)) st
    writeChunks s iv (total + stop - begin) st

def write (st : Storage) (pos : Nat) (s : Bytes) : Except PyError Storage := do
  let iv ← st.intervals pos s.length
  writeChunks faults s iv 0 st

end Storage

end Swinst.BitTorrent
