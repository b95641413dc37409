import Swinst.Retrieval.FileMd5

/-! `copy_file` of `backends/common/utils.py`, block by block. -/

namespace Swinst.Retrieval

open TaskList Blocks

/-- What `copy_file` finds on a computer. Two paths may name one file. -/
structure Host (N : Type) where
  node : Text → N
  /-- `os.path.ismount` -/
  isMount : Text → Bool
  /-- `sys.platform.startswith("win")` -/
  windows : Bool
  /-- the size of a drive as `GetDiskFreeSpaceExW` stores it -/
  totalSpace : Text → Nat
  /-- what can be read from a raw device -/
  device : Text → Option Text
  /-- the exception that opening a file or a device for reading ends with -/
  sourceError : Text → Option PyError
  /-- the exception that opening a file for writing ends with -/
  openError : Text → Option PyError
  /-- the exception that the `n`-th read ends with -/
  readError : Nat → Option PyError
  /-- the exception that the write of the `n`-th block ends with, and how many bytes it leaves -/
  writeError : Nat → Option (PyError × Nat)

/-- The contents of the files. -/
abbrev Files (N : Type) := N → Option Text

variable {N : Type} [DecidableEq N] (host : Host N)

/-- `get_drive_space` -/
def getDriveSpace (drivePath : Text) : Nat := host.totalSpace drivePath

/-- `"\\\\.\\%s" % source[:2]` -/
def deviceName (source : Text) : Text := "\\\\.\\".toList ++ source.take 2

/-- What is opened for reading. -/
inductive Source where
  | file (path : Text)
  | device (name : Text)

/-- The choice of `source`, and `file_size` when it is bound. -/
def sourceOf (source : Text) (w : Files N) : Source × Option Nat :=
  match w (host.node source) with
  | some content => (.file source, some content.length)
  | none =>
    if host.isMount source && host.windows then
      (.device (deviceName source), some (getDriveSpace host source))
    else (.file source, none)

/-- What can be read, if it can be opened. -/
def Source.readable (w : Files N) : Source → Option Text
  | file path => w (host.node path)
  | device name => host.device name

def Source.path : Source → Text
  | file path => path
  | device name => name

/-- `open(target, "wb")` -/
def truncate (target : Text) (w : Files N) : Files N :=
  Function.update w (host.node target) (some [])

/-- `target_file.write(data)` -/
def write (target data : Text) (w : Files N) : Files N :=
  Function.update w (host.node target) (some ((w (host.node target)).getD [] ++ data))

/-- The end of `copy_file` -/
def closeCopy {σ : Type} (task : Bool) : Job Value PyError σ :=
  if task then .finish (.ret none) else .ret none

/-- The write of the `n`-th block; one that fails leaves a part of the block. -/
def writeBlock (target data : Text) (n : Nat) (next : Job Value PyError (Files N)) :
    Job Value PyError (Files N) :=
  match host.writeError n with
  | some (e, left) =>
    .step (write host target (data.take (min left (data.length - 1)))) fun _ => .raise e
  | none => .step (write host target data) fun _ => next

/-- The `n`-th `source_file.read` -/
def readBlock (n : Nat) (next : Job Value PyError (Files N)) : Job Value PyError (Files N) :=
  match host.readError n with
  | some e => .raise e
  | none => next

/-- `while True`, with `data_read` and what is left of the source -/
def copyLoop (target : Text) (task : Bool) (fileSize : Option Nat) :
    (dataRead : Nat) → (file : List Text) → Job Value PyError (Files N)
  | dataRead, [] => readBlock host (dataRead + 1) (closeCopy task)
  | dataRead, data :: file =>
    let dataRead := dataRead + 1
    readBlock host dataRead <|
    .report task (.int dataRead) <|
    writeBlock host target data dataRead <|
    match fileSize with
    -- `file_size` is not bound
    | none => .raise .nameError
    | some size =>
      if size ≤ dataRead then closeCopy task else copyLoop target task fileSize dataRead file

/-- `copy_file` after `source` and `file_size` are found -/
def copyOpened (source : Source) (target : Text) (task : Bool) (fileSize : Option Nat) :
    Job Value PyError (Files N) :=
  .step id fun w =>
  match source.readable host w, host.sourceError source.path, host.openError target with
  | none, _, _ => .raise .ioError
  | some _, some e, _ | some _, none, some e => .raise e
  | some _, none, none =>
    .step (truncate host target) fun _ =>
    -- what is read is what is there after the target was emptied
    .step id fun w =>
    copyLoop host target task fileSize 0 (openFile ((source.readable host w).getD []))

/-- `copy_file`; `task` tells whether there is an `associated_task` -/
def copyFileJob (source target : Text) (task : Bool) : Job Value PyError (Files N) :=
  .step id fun w =>
  let (opened, fileSize) := sourceOf host source w
  if task then
    match fileSize with
    | none => .raise .nameError
    | some size => .setSize (.int (size / mib : Nat)) (copyOpened host opened target task fileSize)
  else copyOpened host opened target task fileSize

variable {host}

theorem closeCopy_run {σ : Type} (answers : Nat → Bool) (task : Bool) (n : Nat) (w : σ) :
    (closeCopy task : Job Value PyError σ).run answers n w = (.ok none, w) := by
  cases task <;> rfl

theorem write_update (target data written : Text) (w : Files N) :
    write host target data (Function.update w (host.node target) (some written)) =
      Function.update w (host.node target) (some (written ++ data)) := by
  simp [write]

/-- Without stops and errors, at least one block is copied, and at most as many as the size counts. -/
theorem copyLoop_run {answers : Nat → Bool} (hstop : ∀ i, answers i = false)
    (hreads : ∀ i, host.readError i = none) (hwrite : ∀ i, host.writeError i = none) (target : Text) (task : Bool) (size : Nat)
    (file : List Text) (dataRead n : Nat) (written : Text) (w : Files N) :
    (copyLoop host target task (some size) dataRead file).run answers n
        (Function.update w (host.node target) (some written)) =
      (.ok none, Function.update w (host.node target)
        (some (written ++ (file.take (max 1 (size - dataRead))).flatten))) := by
  induction file generalizing dataRead n written with
  | nil => simp [copyLoop, readBlock, hreads, closeCopy_run]
  | cons data file ih =>
    simp only [copyLoop, readBlock, hreads]
    rw [Job.run_report (hstop n), writeBlock, hwrite]
    simp only [Job.run, write_update]
    split
    · next hsize =>
      have hone : max 1 (size - dataRead) = 1 := by omega
      simp [closeCopy_run, hone]
    · next hsize =>
      have hmore : max 1 (size - dataRead) = max 1 (size - (dataRead + 1)) + 1 := by omega
      rw [ih, hmore, List.take_succ_cons, List.flatten_cons, List.append_assoc]

/-! ## The whole copy -/

variable (host) in
/-- A source that can be read: what is opened, its content, and the size that is found. -/
inductive Found (source : Text) (w : Files N) : Source → Text → Nat → Prop
  | file {content} : w (host.node source) = some content → host.sourceError source = none →
    Found source w (.file source) content content.length
  | drive {content} : w (host.node source) = none → host.isMount source → host.windows →
    host.device (deviceName source) = some content → host.sourceError (deviceName source) = none →
    Found source w (.device (deviceName source)) content (getDriveSpace host source)

variable (host) in
/-- The file that is read is the one that is written. -/
def Source.isTarget (target : Text) : Source → Bool
  | file path => host.node path = host.node target
  | device _ => false

omit [DecidableEq N] in
theorem Found.sourceOf {source : Text} {w : Files N} {opened : Source} {content : Text} {size : Nat}
    (h : Found host source w opened content size) :
    sourceOf host source w = (opened, some size) ∧ opened.readable host w = some content ∧
      host.sourceError opened.path = none := by
  cases h with
  | file hf he => exact ⟨by rw [Retrieval.sourceOf, hf], hf, he⟩
  | drive hf hm hwin hd he => exact ⟨by simp [Retrieval.sourceOf, hf, hm, hwin], hd, he⟩

theorem readable_truncate {target : Text} {opened : Source} {content : Text} {w : Files N}
    (h : opened.readable host w = some content) :
    opened.readable host (truncate host target w) =
      some (if opened.isTarget host target then [] else content) := by
  cases opened with
  | device name => simpa [Source.isTarget, Source.readable] using h
  | file path =>
    by_cases hnode : host.node path = host.node target
    · simp [Source.readable, truncate, Source.isTarget, hnode]
    · simpa [Source.readable, truncate, Source.isTarget, hnode] using h

/-- What a copy without stops and errors leaves. -/
theorem copyFileJob_run {answers : Nat → Bool} (hstop : ∀ i, answers i = false)
    (hreads : ∀ i, host.readError i = none) (hwrite : ∀ i, host.writeError i = none)
    {source target : Text}
    (hopen : host.openError target = none) (task : Bool) {w : Files N} {opened : Source}
    {content : Text} {size : Nat} (h : Found host source w opened content size) :
    (copyFileJob host source target task).run answers 0 w =
      (.ok none, Function.update w (host.node target)
        (some ((if opened.isTarget host target then [] else content).take (max 1 size * mib)))) := by
  obtain ⟨hsource, hread, herror⟩ := h.sourceOf
  have hopened : (copyOpened host opened target task (some size)).run answers 0 w =
      (.ok none, Function.update w (host.node target)
        (some ((if opened.isTarget host target then [] else content).take (max 1 size * mib)))) := by
    simp only [copyOpened, Job.run, id, hread, herror, hopen, readable_truncate hread, Option.getD_some]
    rw [truncate, copyLoop_run hstop hreads hwrite, Nat.sub_zero, List.nil_append, openFile,
      flatten_take_blocks (by decide)]
  simp only [copyFileJob, Job.run, id, hsource]
  cases task with
  | false => exact hopened
  | true => exact hopened

/-- `copy_file` copies as much as its size says if and only if there is no more, and the target is not
the source itself. -/
theorem copyFile_iff {answers : Nat → Bool} (hstop : ∀ i, answers i = false)
    (hreads : ∀ i, host.readError i = none) (hwrite : ∀ i, host.writeError i = none)
    {source target : Text}
    (hopen : host.openError target = none) (task : Bool) {w : Files N} {opened : Source}
    {content : Text} {size : Nat} (h : Found host source w opened content size) :
    ((copyFileJob host source target task).run answers 0 w).2 (host.node target) =
        some (content.take size) ↔
      content.length ≤ size ∧ (opened.isTarget host target → content = []) := by
  rw [copyFileJob_run hstop hreads hwrite hopen task h]
  simp only [Function.update_self, Option.some_inj]
  have hsize : size < max 1 size * mib :=
    calc size ≤ max 1 size := Nat.le_max_right 1 size
      _ < max 1 size * mib := (Nat.lt_mul_iff_one_lt_right (by omega)).mpr (by decide)
  by_cases hself : opened.isTarget host target
  · -- nothing is read
    have hlen : content.length ≤ size := by
      cases h with
      | file => exact Nat.le_refl _
      | drive => cases hself
    simp [hself, hlen, eq_comm, List.take_of_length_le hlen]
  · rw [if_neg hself, and_iff_left fun h => (hself h).elim]
    constructor
    · intro heq
      have hlen := congrArg List.length heq
      simp only [List.length_take] at hlen
      omega
    · intro hlen
      rw [List.take_of_length_le hlen, List.take_of_length_le (hlen.trans hsize.le)]

/-- A computer with a disc in drive `d:`, whose size is one sector; its paths are its files. -/
private def discHost (content : Text) : Host Text where
  node := id
  isMount path := path = "d:\\".toList
  windows := true
  totalSpace _ := 2048
  device name := if name = "\\\\.\\d:".toList then some content else none
  sourceError _ := none
  openError _ := none
  readError _ := none
  writeError _ := none

private theorem found_disc (content : Text) : Found (discHost content) "d:\\".toList (fun _ => none)
    (.device "\\\\.\\d:".toList) content 2048 := .drive rfl rfl rfl rfl rfl

/-- What is at `c:\iso` after the copy of the disc. -/
private def discCopy (content : Text) : Option Text :=
  ((copyFileJob (discHost content) "d:\\".toList "c:\\iso".toList true).run
    (fun _ => false) 0 fun _ => none).2 "c:\\iso".toList

theorem copyFile_disc : discCopy "ab".toList = some ("ab".toList.take 2048) :=
  (copyFile_iff (fun _ => rfl) (fun _ => rfl) (fun _ => rfl) rfl true (found_disc "ab".toList)).mpr
    ⟨by decide, fun h => absurd h Bool.false_ne_true⟩

private theorem discCopy_eq (content : Text) :
    discCopy content = some (content.take (max 1 2048 * mib)) := by
  have hrun : (copyFileJob (discHost content) "d:\\".toList "c:\\iso".toList true).run
        (fun _ => false) 0 (fun _ => none) =
      (.ok none, Function.update (fun _ => none) "c:\\iso".toList
        (some (content.take (max 1 2048 * mib)))) :=
    copyFileJob_run (fun _ => rfl) (fun _ => rfl) (fun _ => rfl) rfl true (found_disc content)
  simp only [discCopy, hrun, Function.update_self]

/-- The device can be read one sector further than the size says. -/
theorem device_copied_whole :
    discCopy (.replicate 4096 'a') ≠ some ((List.replicate 4096 'a').take 2048) := by
  rw [discCopy_eq]
  intro heq
  have hlen := congrArg List.length (Option.some.inj heq)
  rw [List.length_take, List.length_take, List.length_replicate, mib] at hlen
  omega

end Swinst.Retrieval
