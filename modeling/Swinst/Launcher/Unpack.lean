import Swinst.Launcher.SevenZip

/-! `unpack` of `unpack.c`: the entries of the archive are unpacked into the current directory. -/

namespace Swinst.Launcher

/-- What `unpack` does, for the entry with an index -/
inductive Event
  | read (i : Nat)
  | createDirectory (i : Nat) (name : Option (List UInt8))
  | openFile (i : Nat) (name : Option (List UInt8))
  | writeFile (i : Nat) (range : Range)
  | closeFile (i : Nat)
  deriving DecidableEq

/-- The file system: whether the file of an entry can be opened for writing, how many bytes are written
when a number is given, and whether it can be closed -/
structure Disk where
  fopen : Nat → Bool
  fwrite : Nat → Nat → Nat
  fclose : Nat → Bool

/-- `write_file` -/
def Disk.writeFile (disk : Disk) (i size : Nat) : Nat := if size = 0 then 0 else disk.fwrite i size

/-- A piece of the program, and `none` where it has read memory that it cannot read -/
structure Run (α : Type) where
  events : List Event
  result : Option α

def Run.behind {α : Type} (events : List Event) (run : Run α) : Run α := ⟨events ++ run.events, run.result⟩

def Run.map {α β : Type} (f : α → β) (run : Run α) : Run β := ⟨run.events, run.result.map f⟩

def Run.andThen {α β : Type} (run : Run α) (next : α → Run β) : Run β :=
  match run.result with
  | none => ⟨run.events, none⟩
  | some a => (next a).behind run.events

/-- The memory at an index of `Files`. Behind the last entry it holds what happens to be there. -/
def Database.memory (db : Database) (beyond : Nat → Option FileItem) (i : Nat) : Option FileItem :=
  if h : i < db.files.length then some db.files[i] else beyond i

/-- The loop that creates the directories, with `i` in its counter -/
def createDirectories (db : Database) (beyond : Nat → Option FileItem) : (i : Nat) → Run Unit
  | 0 => ⟨[], some ()⟩
  | i + 1 =>
    match db.memory beyond (i + 1) with
    | none => ⟨[.read (i + 1)], none⟩
    | some f =>
      let create := if f.isDirectory then [.createDirectory (i + 1) f.name] else []
      (createDirectories db beyond i).behind (.read (i + 1) :: create)

/-- The loop that extracts the files, with at most `k` more turns from the index `i` -/
def extractFiles {κ : Type} (db : Database) (extract : κ → Fin db.files.length → Extraction κ) (disk : Disk) :
    (k i : Nat) → κ → Run (Except SzError Unit)
  | 0, _, _ => ⟨[], some (.ok ())⟩
  | k + 1, i, block =>
    if hi : i < db.files.length then
      let f := db.files[i]
      if f.isDirectory then (extractFiles db extract disk k (i + 1) block).behind [.read i]
      else
        let extraction := extract block ⟨i, hi⟩
        let reads := .read i :: extraction.reads.map .read
        match extraction.result with
        | .error e => ⟨reads, some (.error e)⟩
        | .ok (block, range) =>
          if !disk.fopen i then ⟨reads ++ [.openFile i f.name], some (.error .fail)⟩
          else if disk.writeFile i range.size ≠ range.size then
            ⟨reads ++ [.openFile i f.name, .writeFile i range], some (.error .fail)⟩
          else
            let events := reads ++ [.openFile i f.name, .writeFile i range, .closeFile i]
            if !disk.fclose i then ⟨events, some (.error .fail)⟩
            else (extractFiles db extract disk k (i + 1) block).behind events
    else ⟨[], some (.ok ())⟩

/-- `NumFiles - 1`, in 32 bits -/
def Database.lastIndex (db : Database) : Nat := (db.files.length + (2 ^ 32 - 1)) % 2 ^ 32

/-- The two loops of `unpack` -/
def unpackEntries {κ : Type} (db : Database) (beyond : Nat → Option FileItem)
    (extract : κ → Fin db.files.length → Extraction κ) (disk : Disk) (block : κ) : Run (Except SzError Unit) :=
  (createDirectories db beyond db.lastIndex).andThen fun () =>
    extractFiles db extract disk db.files.length 0 block

/-- What `unpack` depends on besides the archive -/
structure Host where
  malloc : Nat → Bool
  /-- What is on the stack where the search for the archive has its buffer -/
  stack : List UInt8
  readHeader : List UInt8 → Except SzError Database
  decodeFolder : Database → Nat → Except SzError (List UInt8)
  beyond : Database → Nat → Option FileItem
  disk : Disk

/-- The database, as `unpack` opens it -/
def openArchive (host : Host) (archive : File) : Except SzError Database :=
  szArchiveOpen host.malloc host.readHeader ⟨archive, seekBeginningOfArchive archive host.stack⟩
    (openedArchive archive host.stack)

def unpackDatabase (host : Host) (db : Database) : Run Nat :=
  (unpackEntries db (host.beyond db) (szExtract db (host.decodeFolder db)) host.disk ⟨none, []⟩).map fun
    | .ok () => 0
    | .error _ => 1

/-- `unpack`, with `none` for an archive that cannot be opened -/
def unpack (host : Host) : Option File → Run Nat
  | none => ⟨[], some 1⟩
  | some archive =>
    match openArchive host archive with
    | .ok db => unpackDatabase host db
    | .error _ => ⟨[], some 1⟩

/-! ## What the loops do -/

/-- The entry for which a directory is created -/
def Event.creates : Event → Option Nat
  | .createDirectory i _ => some i
  | _ => none

def Event.opens : Event → Bool
  | .openFile .. => true
  | _ => false

/-- Only entries of the archive are read, a directory is created once for each entry of one, and no file is
opened before. -/
structure Orderly (db : Database) (events : List Event) : Prop where
  reads : ∀ i, .read i ∈ events → i < db.files.length
  creates : ∀ i f, db.files[i]? = some f → f.isDirectory = true →
    events.filter (·.creates = some i) = [.createDirectory i f.name]
  order : events.Pairwise fun e e' => e.opens = true → e'.creates = none

variable {db : Database} {beyond : Nat → Option FileItem}

theorem createDirectories_succ {i : Nat} (hi : i + 1 < db.files.length) :
    createDirectories db beyond (i + 1) = (createDirectories db beyond i).behind (.read (i + 1) ::
      if db.files[i + 1].isDirectory then [.createDirectory (i + 1) db.files[i + 1].name] else []) := by
  rw [createDirectories, Database.memory, dif_pos hi]

/-- From an index of an entry on, the loop stays among the entries. -/
theorem createDirectories_inside (beyond : Nat → Option FileItem) {i : Nat} (hi : i < db.files.length) :
    (createDirectories db beyond i).result = some () ∧
      ∀ e ∈ (createDirectories db beyond i).events, e.opens = false ∧ ∀ j, e = .read j → j < db.files.length := by
  induction i with
  | zero => exact ⟨rfl, fun e he => by cases he⟩
  | succ i ih =>
    obtain ⟨hresult, hevents⟩ := ih (by omega)
    rw [createDirectories_succ hi]
    refine ⟨hresult, fun e he => ?_⟩
    rw [Run.behind, List.mem_append, List.mem_cons] at he
    rcases he with (rfl | he) | he
    · exact ⟨rfl, fun j hj => by cases hj; exact hi⟩
    · obtain ⟨-, he⟩ := List.mem_ite_nil_right.mp he
      obtain rfl := List.mem_singleton.mp he
      exact ⟨rfl, fun j hj => by cases hj⟩
    · exact hevents e he

/-- It creates the directories of all entries from this one down, but for the first entry. -/
theorem creates_createDirectories {i j : Nat} (hi : i < db.files.length) (hj : j < db.files.length) :
    (createDirectories db beyond i).events.filter (·.creates = some j) =
      if 0 < j ∧ j ≤ i ∧ db.files[j].isDirectory then [.createDirectory j db.files[j].name] else [] := by
  induction i with
  | zero => rw [if_neg (by omega)]; rfl
  | succ i ih =>
    rw [createDirectories_succ hi, Run.behind, List.filter_append, ih (by omega), List.filter_cons]
    have hread : ¬ (Event.read (i + 1)).creates = some j := by simp [Event.creates]
    rw [if_neg (by simpa using hread)]
    by_cases hij : j = i + 1
    · subst hij
      rw [if_neg (show ¬ (0 < i + 1 ∧ i + 1 ≤ i ∧ _) by omega), List.append_nil]
      by_cases hdir : db.files[i + 1].isDirectory = true
      · simp [hdir, Event.creates]
      · simp [hdir]
    · have hle : j ≤ i + 1 ↔ j ≤ i := by omega
      have hother : i + 1 ≠ j := fun h => hij h.symm
      simp only [hle]
      by_cases hdir : db.files[i + 1].isDirectory = true
      · simp [hdir, Event.creates, hother]
      · simp [hdir]

variable {κ : Type} {extract : κ → Fin db.files.length → Extraction κ} {disk : Disk}

/-- What the second loop does: it reads entries, and creates no directory. -/
def Event.OfFiles (db : Database) (e : Event) : Prop :=
  e.creates = none ∧ ∀ j, e = .read j → j < db.files.length

theorem extractFiles_inside (disk : Disk)
    (hextract : ∀ block i, ∀ j ∈ (extract block i).reads, j < db.files.length) (k i : Nat) (block : κ) :
    ∀ e ∈ (extractFiles db extract disk k i block).events, e.OfFiles db := by
  induction k generalizing i block with
  | zero => intro e he; cases he
  | succ k ih =>
    rw [extractFiles]
    split
    · next hi =>
      have hread {j : Nat} (hj : j < db.files.length) : (Event.read j).OfFiles db :=
        ⟨rfl, fun j' hj' => by cases hj'; exact hj⟩
      have hreads : ∀ e ∈ Event.read i :: (extract block ⟨i, hi⟩).reads.map .read, e.OfFiles db := by
        intro e he
        rcases List.mem_cons.mp he with rfl | he
        · exact hread hi
        · obtain ⟨j, hj, rfl⟩ := List.mem_map.mp he
          exact hread (hextract _ _ j hj)
      have hopen (name) : (Event.openFile i name).OfFiles db := ⟨rfl, fun j hj => by cases hj⟩
      have hwrite (range) : (Event.writeFile i range).OfFiles db := ⟨rfl, fun j hj => by cases hj⟩
      have hclose : (Event.closeFile i).OfFiles db := ⟨rfl, fun j hj => by cases hj⟩
      dsimp only
      generalize Event.read i :: (extract block ⟨i, hi⟩).reads.map .read = reads at hreads ⊢
      split
      · exact List.forall_mem_append.mpr ⟨by simpa using hread hi, ih _ _⟩
      split
      · exact hreads
      split
      · exact List.forall_mem_append.mpr ⟨hreads, by simp [hopen]⟩
      split
      · exact List.forall_mem_append.mpr ⟨hreads, by simp [hopen, hwrite]⟩
      have hall (name range) : ∀ e ∈ reads ++ [.openFile i name, .writeFile i range, .closeFile i], e.OfFiles db :=
        List.forall_mem_append.mpr ⟨hreads, by simp [hopen, hwrite, hclose]⟩
      split
      · exact hall _ _
      · exact List.forall_mem_append.mpr ⟨hall _ _, ih _ _⟩
    · intro e he
      cases he

theorem read_mem_createDirectories {i : Nat} (hi : 0 < i) : .read i ∈ (createDirectories db beyond i).events := by
  obtain ⟨i, rfl⟩ := Nat.exists_eq_succ_of_ne_zero hi.ne'
  rw [createDirectories]
  split
  · exact List.mem_singleton_self _
  · exact List.mem_append_left _ List.mem_cons_self

theorem Run.events_map {α β : Type} (f : α → β) (run : Run α) : (run.map f).events = run.events := rfl

theorem Run.prefix_andThen {α β : Type} (run : Run α) (next : α → Run β) :
    run.events <+: (run.andThen next).events := by
  rw [Run.andThen]
  split
  · exact List.prefix_refl _
  · exact List.prefix_append ..

theorem lastIndex_add_one (hlen : 0 < db.files.length) : db.lastIndex + 1 = db.files.length := by
  have := db.length_lt
  rw [Database.lastIndex]
  omega

/-- From the last entry the first loop goes down to the second one, and ends. -/
theorem unpackEntries_eq {i : Nat} {block : κ} (hi : db.files.length = i + 1) :
    (unpackEntries db beyond extract disk block).events = (createDirectories db beyond i).events ++
      (extractFiles db extract disk db.files.length 0 block).events := by
  have hlast : db.lastIndex = i := Nat.succ_inj.mp ((lastIndex_add_one (by omega)).trans hi)
  obtain ⟨hresult, -⟩ := createDirectories_inside beyond (show i < db.files.length by omega)
  rw [unpackEntries, hlast, Run.andThen, hresult]
  rfl

variable {block : κ}

/-- From zero the counter goes to the last number, where there is no entry. -/
theorem not_orderly_of_empty (hlen : db.files.length = 0) :
    ¬ Orderly db (unpackEntries db beyond extract disk block).events := by
  have hpos : 0 < db.lastIndex := by
    rw [Database.lastIndex, hlen]
    decide
  have hread : .read db.lastIndex ∈ (unpackEntries db beyond extract disk block).events :=
    (Run.prefix_andThen ..).subset (read_mem_createDirectories hpos)
  intro h
  have := h.reads _ hread
  omega

/-- The directories of all entries but the first one are created. -/
theorem creates_unpackEntries (hextract : ∀ block i, ∀ j ∈ (extract block i).reads, j < db.files.length)
    {j : Nat} (hj : j < db.files.length) :
    (unpackEntries db beyond extract disk block).events.filter (·.creates = some j) =
      if 0 < j ∧ db.files[j].isDirectory then [.createDirectory j db.files[j].name] else [] := by
  obtain ⟨i, hi⟩ := Nat.exists_eq_succ_of_ne_zero (Nat.ne_zero_of_lt hj)
  have hnone : (extractFiles db extract disk db.files.length 0 block).events.filter (·.creates = some j) = [] :=
    List.filter_eq_nil_iff.mpr fun e he => by simp [(extractFiles_inside disk hextract _ _ _ e he).1]
  rw [unpackEntries_eq hi, List.filter_append, hnone, List.append_nil, creates_createDirectories (by omega) hj]
  have hle : j ≤ i := by omega
  simp only [hle, true_and]

theorem orderly_of_file (hextract : ∀ block i, ∀ j ∈ (extract block i).reads, j < db.files.length)
    (hlen : 0 < db.files.length) (hfile : db.files[0].isDirectory = false) :
    Orderly db (unpackEntries db beyond extract disk block).events := by
  obtain ⟨i, hi⟩ := Nat.exists_eq_succ_of_ne_zero hlen.ne'
  obtain ⟨-, hdirectories⟩ := createDirectories_inside beyond (show i < db.files.length by omega)
  have hfiles := extractFiles_inside disk hextract db.files.length 0 block
  constructor
  · intro j hj
    rw [unpackEntries_eq hi, List.mem_append] at hj
    rcases hj with hj | hj
    · exact (hdirectories _ hj).2 j rfl
    · exact (hfiles _ hj).2 j rfl
  · intro j f hj hdir
    obtain ⟨hlt, rfl⟩ := List.getElem?_eq_some_iff.mp hj
    have hpos : 0 < j := by
      rw [Nat.pos_iff_ne_zero]
      rintro rfl
      exact Bool.false_ne_true (hfile.symm.trans hdir)
    rw [creates_unpackEntries hextract hlt, if_pos ⟨hpos, hdir⟩]
  · rw [unpackEntries_eq hi, List.pairwise_append]
    refine ⟨List.pairwise_of_forall_mem_list ?_, List.pairwise_of_forall_mem_list ?_, ?_⟩
    · intro e he _ _ hopen
      rw [(hdirectories e he).1] at hopen
      cases hopen
    · exact fun _ _ e he _ => (hfiles e he).1
    · exact fun _ _ e he _ => (hfiles e he).1

theorem unpackEntries_orderly_iff
    (hextract : ∀ block i, ∀ j ∈ (extract block i).reads, j < db.files.length) :
    Orderly db (unpackEntries db beyond extract disk block).events ↔
      ∃ f ∈ db.files.head?, f.isDirectory = false := by
  rcases Nat.eq_zero_or_pos db.files.length with hlen | hlen
  · have hnone : db.files.head? = none := by rw [List.length_eq_zero_iff.mp hlen]; rfl
    rw [hnone]
    constructor
    · exact fun h => (not_orderly_of_empty hlen h).elim
    · rintro ⟨f, hf, -⟩
      cases hf
  have hhead : db.files.head? = some db.files[0] := by rw [List.head?_eq_getElem?, List.getElem?_eq_getElem]
  constructor
  · intro h
    refine ⟨db.files[0], hhead, ?_⟩
    rw [← Bool.not_eq_true]
    intro hdir
    have := h.creates 0 db.files[0] (List.getElem?_eq_getElem _) hdir
    rw [creates_unpackEntries hextract hlen, if_neg (by omega)] at this
    cases this
  · rintro ⟨f, hf, hfile⟩
    obtain rfl : db.files[0] = f := Option.some.inj (hhead.symm.trans hf)
    exact orderly_of_file hextract hlen hfile

theorem events_unpack {host : Host} {archive : File} {db : Database} (hopen : openArchive host archive = .ok db) :
    (unpack host (some archive)).events = (unpackEntries db (host.beyond db)
      (szExtract db (host.decodeFolder db)) host.disk ⟨none, []⟩).events := by
  have hrun : unpack host (some archive) = unpackDatabase host db := by simp only [unpack, hopen]
  rw [hrun, unpackDatabase, Run.events_map]

theorem szExtract_inside (decodeFolder : Nat → Except SzError (List UInt8)) (block : Block)
    (i : Fin db.files.length) : ∀ j ∈ (szExtract db decodeFolder block i).reads, j < db.files.length :=
  fun _ hj => (le_of_mem_reads hj).trans_lt i.isLt

/-- What is unpacked is in order if and only if the archive has an entry, and the first one is a file. -/
theorem unpack_orderly_iff (host : Host) (archive : File) (db : Database)
    (hopen : openArchive host archive = .ok db) :
    Orderly db (unpack host (some archive)).events ↔ ∃ f ∈ db.files.head?, f.isDirectory = false := by
  rw [events_unpack hopen]
  exact unpackEntries_orderly_iff (szExtract_inside _)

theorem exists_db (host : Host) (archive : File) (files : List FileItem)
    (h : (openArchive host archive).toOption.map (·.files) = some files) :
    ∃ db, openArchive host archive = .ok db ∧ db.files = files := by
  cases hopen : openArchive host archive with
  | error e => simp [hopen, Except.toOption] at h
  | ok db => exact ⟨db, rfl, by simpa [hopen, Except.toOption] using h⟩

/-- A directory `d`, as the next header and as its entry -/
def directoryHeader : List UInt8 := [1, 5, 1, 0xE, 1, 0x80, 0x11, 5, 0, 0x64, 0, 0, 0, 0, 0]

def directoryItem : FileItem := ⟨some [0x64, 0], 0, 0, false, true⟩

/-- An empty file `a` and the directory -/
def fileHeader : List UInt8 :=
  [1, 5, 2, 0xE, 1, 0xC0, 0xF, 1, 0x80, 0x11, 9, 0, 0x61, 0, 0, 0, 0x64, 0, 0, 0, 0, 0]

def fileItem : FileItem := ⟨some [0x61, 0], 0, 0, false, false⟩

def smallHost : Host where
  malloc := fun _ => true
  stack := []
  readHeader := fun header =>
    if header = directoryHeader then
      .ok { szArDbExInit with files := [directoryItem], length_lt := by decide }
    else if header = fileHeader then
      .ok { szArDbExInit with files := [fileItem, directoryItem], length_lt := by decide }
    else .error .archiveError
  decodeFolder := fun _ _ => .error .dataError
  beyond := fun _ _ => none
  disk := ⟨fun _ => true, fun _ size => size, fun _ => true⟩

/-- An executable with an archive -/
def exeBytes (crc : List UInt8) (size : UInt8) (headerCRC nextHeader : List UInt8) : List UInt8 :=
  makeSelfExtractingExe [0x4D, 0x5A]
    (startHeader 4 crc (List.replicate 8 0) (size :: List.replicate 7 0) headerCRC ++ nextHeader)

private def emptyExe : File := ⟨exeBytes [0x8D, 0x9B, 0xD5, 0x0F] 0 [0, 0, 0, 0] [], by decide⟩

private def directoryExe : File :=
  ⟨exeBytes [0x97, 0x56, 0x87, 0x01] 15 [0x22, 0x7F, 0x99, 0x99] directoryHeader, by decide⟩

def fileExe : File :=
  ⟨exeBytes [0x51, 0x07, 0x05, 0xBF] 22 [0x1E, 0x1E, 0x13, 0x89] fileHeader, by decide⟩

theorem unpack_orderly_small : ∃ db, openArchive smallHost fileExe = .ok db ∧
    Orderly db (unpack smallHost (some fileExe)).events := by
  obtain ⟨db, hopen, hfiles⟩ := exists_db smallHost fileExe [fileItem, directoryItem] (by decide +kernel)
  refine ⟨db, hopen, (unpack_orderly_iff smallHost fileExe db hopen).mpr ⟨fileItem, ?_, rfl⟩⟩
  rw [hfiles]
  rfl

/-- In an archive without entries one is read nevertheless, and a directory that comes first is not
created. -/
theorem first_entry_passed_over :
    (openArchive smallHost emptyExe = .ok szArDbExInit ∧
      ¬ Orderly szArDbExInit (unpack smallHost (some emptyExe)).events) ∧
    ∃ db, openArchive smallHost directoryExe = .ok db ∧ db.files = [directoryItem] ∧
      ¬ Orderly db (unpack smallHost (some directoryExe)).events := by
  constructor
  · have hdata : openedArchive emptyExe smallHost.stack = startHeader 4 [0x8D, 0x9B, 0xD5, 0x0F]
        (List.replicate 8 0) (List.replicate 8 0) [0, 0, 0, 0] ++ [] := by decide +kernel
    have hopen : openArchive smallHost emptyExe = .ok szArDbExInit := by
      rw [openArchive, hdata]
      exact szArchiveOpen_empty rfl rfl rfl (by decide +kernel) ..
    refine ⟨hopen, ?_⟩
    rw [events_unpack hopen]
    exact not_orderly_of_empty rfl
  · obtain ⟨db, hopen, hfiles⟩ := exists_db smallHost directoryExe [directoryItem] (by decide +kernel)
    refine ⟨db, hopen, hfiles, fun h => ?_⟩
    rw [events_unpack hopen] at h
    obtain ⟨f, hf, hfile⟩ := (unpackEntries_orderly_iff (szExtract_inside _)).mp h
    rw [hfiles] at hf
    cases hf
    exact absurd hfile (by decide)

end Swinst.Launcher
