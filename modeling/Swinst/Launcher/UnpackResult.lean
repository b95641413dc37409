import Swinst.Launcher.Unpack

/-! What `unpack` returns: the loop over the files ends at the first failure. -/

namespace Swinst.Launcher

/-- The entry with which an event deals -/
def Event.entry : Event → Nat
  | .read i => i
  | .createDirectory i _ => i
  | .openFile i _ => i
  | .writeFile i _ => i
  | .closeFile i => i

section Loop

variable {κ : Type} (db : Database) (extract : κ → Fin db.files.length → Extraction κ) (disk : Disk)

/-- A directory is passed over; a file is extracted with `SZ_OK`, opened, written in full and closed
without error, and the extraction leaves the block `b'`. -/
inductive Unpacked (i : Fin db.files.length) (b : κ) : κ → Prop
  | directory : (db.files.get i).isDirectory = true → Unpacked i b b
  | file {b' : κ} {range : Range} : (db.files.get i).isDirectory = false →
    (extract b i).result = .ok (b', range) → disk.fopen i = true →
    disk.writeFile i range.size = range.size → disk.fclose i = true → Unpacked i b b'

/-- A turn of the loop over the files -/
def turn (b : κ) (i : Fin db.files.length) : List Event × Except SzError κ :=
  let f := db.files.get i
  if f.isDirectory then ([.read i], .ok b)
  else
    let reads := Event.read i :: (extract b i).reads.map .read
    match (extract b i).result with
    | .error e => (reads, .error e)
    | .ok (b', range) =>
      if !disk.fopen i then (reads ++ [.openFile i f.name], .error .fail)
      else if disk.writeFile i range.size ≠ range.size then
        (reads ++ [.openFile i f.name, .writeFile i range], .error .fail)
      else
        (reads ++ [.openFile i f.name, .writeFile i range, .closeFile i],
          if !disk.fclose i then .error .fail else .ok b')

/-- The entries before `i` are unpacked, in the order of their indexes, with these events, and leave a block. -/
inductive Through (b₀ : κ) : Nat → κ → List Event → Prop
  | start : Through b₀ 0 b₀ []
  | next {i : Fin db.files.length} {b b' : κ} {events : List Event} : Through b₀ i b events →
    Unpacked db extract disk i b b' → Through b₀ (i + 1) b' (events ++ (turn db extract disk b i).1)

end Loop

variable {κ : Type} {db : Database} {extract : κ → Fin db.files.length → Extraction κ} {disk : Disk}
  {b b' b₀ : κ} {i : Fin db.files.length} {events : List Event}

theorem extractFiles_succ (k : Nat) (b : κ) (i : Fin db.files.length) :
    extractFiles db extract disk (k + 1) i b =
      match turn db extract disk b i with
      | (events, .ok b') => (extractFiles db extract disk k (i + 1) b').behind events
      | (events, .error e) => ⟨events, some (.error e)⟩ := by
  rw [extractFiles, dif_pos i.isLt, turn]
  dsimp only [Fin.eta, List.get_eq_getElem]
  split
  · rfl
  cases (extract b i).result with
  | error e => rfl
  | ok r =>
    dsimp only
    split
    · rfl
    split
    · rfl
    split <;> rfl

/-- The turn goes on exactly when the entry is unpacked. -/
theorem turn_eq_ok_iff : (turn db extract disk b i).2 = .ok b' ↔ Unpacked db extract disk i b b' := by
  constructor
  · intro h
    rw [turn] at h
    dsimp only at h
    split at h
    · next hdir =>
      obtain rfl := Except.ok.inj h
      exact .directory hdir
    next hdir =>
    cases hextract : (extract b i).result with
    | error e => simp [hextract] at h
    | ok r =>
      simp only [hextract] at h
      by_cases hopen : disk.fopen i = true
      · by_cases hwrite : disk.writeFile i r.2.size = r.2.size
        · by_cases hclose : disk.fclose i = true
          · simp only [hopen, hwrite, hclose, Bool.not_true, Bool.false_eq_true, if_false, ne_eq,
              not_true_eq_false, Except.ok.injEq] at h
            exact .file (by simpa using hdir) (h ▸ hextract) hopen hwrite hclose
          · simp [hopen, hwrite, hclose] at h
        · simp [hopen, hwrite] at h
      · simp [hopen] at h
  · intro h
    cases h with
    | directory hdir => simp only [turn, hdir, if_true]
    | file hdir hextract hopen hwrite hclose =>
      rw [turn]
      dsimp only
      rw [if_neg (Bool.eq_false_iff.mp hdir), hextract]
      simp [hopen, hwrite, hclose]

theorem Run.behind_nil {α : Type} (run : Run α) : run.behind [] = run := rfl

theorem Run.behind_behind {α : Type} (events events' : List Event) (run : Run α) :
    (run.behind events').behind events = run.behind (events ++ events') := by
  simp only [Run.behind, List.append_assoc]

/-- The loop gets through these entries. -/
theorem Through.run {n k : Nat} (h : Through db extract disk b₀ n b events) (hk : n + k = db.files.length) :
    extractFiles db extract disk db.files.length 0 b₀ = (extractFiles db extract disk k n b).behind events := by
  induction h generalizing k with
  | start =>
    rw [Run.behind_nil]
    congr 1
    omega
  | @next i b b' events _ hi ih =>
    have hturn := turn_eq_ok_iff.mpr hi
    rw [ih (k := k + 1) (by omega), extractFiles_succ]
    generalize turn db extract disk b i = t at hturn ⊢
    obtain ⟨es, r⟩ := t
    obtain rfl : r = .ok b' := hturn
    exact Run.behind_behind ..

/-- The run ends after the entry that is not unpacked. -/
theorem Through.failed {i : Fin db.files.length} (h : Through db extract disk b₀ i b events)
    (hi : ∀ b', ¬ Unpacked db extract disk i b b') : ∃ e, extractFiles db extract disk db.files.length 0 b₀ =
      ⟨events ++ (turn db extract disk b i).1, some (.error e)⟩ := by
  obtain ⟨k, hk⟩ := Nat.exists_eq_add_of_lt i.isLt
  rw [h.run (k := k + 1) (by omega), extractFiles_succ]
  cases hturn : turn db extract disk b i with
  | mk es r =>
    cases r with
    | ok b' => exact (hi b' (turn_eq_ok_iff.mp (by rw [hturn]))).elim
    | error e => exact ⟨e, rfl⟩

/-- The database of the archive, if the archive can be opened -/
def opened (host : Host) (archive : Option File) : Option Database :=
  archive.bind fun archive => (openArchive host archive).toOption

section Result

variable {host : Host} {archive : Option File} {extract : (db : Database) → κ → Fin db.files.length → Extraction κ}

end Result

end Swinst.Launcher
