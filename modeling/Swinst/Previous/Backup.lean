import Swinst.Previous.Uninstalled
import Swinst.TaskList.Program

/-! `backup_iso` and the tasks after it in `get_uninstallation_tasklist`, with the failures that they
can meet; and what the loop of `backup_iso` does with an ISO. -/

namespace Swinst.Previous

open TaskList

/-! ## The tasks -/

/-- `info.previous_target_dir`: what `join_path` gave, without a separator at its end. -/
structure TargetDir where
  path : Text
  plain : ∀ c ∈ path.getLast?, c ≠ '\\' ∧ c ≠ '/'

/-- The name of something in a directory. -/
structure Name where
  text : Text
  ne_nil : text ≠ []
  plain : '\\' ∉ text ∧ '/' ∉ text

/-- The names in a directory, which differ not only in case. -/
structure Listing where
  names : List Name
  nodup : (names.map fun name => name.text.lower).Nodup

/-- How `shutil.move` of a file ends. -/
inductive Move where
  | moved
  /-- the file is still there; something may have been written at the new place -/
  | failed (e : PyError) (written : Option Text)

/-- What the system does. -/
structure Host where
  entries : World → Text → Listing
  /-- does `os.listdir` raise? -/
  listdir : World → Text → Except PyError Unit
  mkdir : World → Text → Except PyError Unit
  move : World → (src dst : Text) → Move
  undoBcd : World → Except PyError Unit
  /-- the edit of a `boot.ini` or the deletion of a loader, and what it leaves at the path -/
  undoFile : World → Text → Except PyError Unit × Option Text
  /-- an error of `rm_tree`, with the paths in the directory that are left -/
  rmTree : World → Text → Option (PyError × (Text → Bool))
  deleteKey : World → Except PyError Unit
  /-- the drives of type `removable` or `hd` -/
  drives : List Drive

namespace World

variable (w : World)

def put (path : Text) (content : Option Text) : World :=
  { w with files := Function.update w.files (normPath path) content }

/-- `os.mkdir` -/
def mkdir (path : Text) : World := { w with dirs := Function.update w.dirs (normPath path) true }

/-- `rm_tree`, when it raises -/
def rmTreePart (target : Text) (left : Text → Bool) : World :=
  { w with
    dirs := fun q => w.dirs q && (!under (normPath target) q || left q)
    files := fun q => if under (normPath target) q && !left q then none else w.files q }

/-- The test of `backup_iso`. -/
def isBigIso (f : Text) : Bool := f.endsWith ".iso".toList && (w.file? f).any (1000000 < ·.length)

/-- Where `shutil.move` puts a file; a directory takes it in. -/
def place (dst : Text) (name : Name) : Text := if w.isDir dst then join dst name.text else dst

end World

namespace TargetDir

variable (target : TargetDir)

def install : Text := join target.path "install".toList

def backup : Text := target.path ++ "-backup".toList

/-- The path of a file in the install directory. -/
def source (name : Name) : Text := join target.install name.text

/-- `target_path` -/
def saved (name : Name) : Text := join target.backup name.text

end TargetDir

namespace Host

variable (h : Host) (target : TargetDir)

/-- `shutil.move` -/
def moveFile (src dst : Text) (w : World) : Except PyError Unit × World :=
  match h.move w src dst with
  | .moved => (.ok (), (w.put dst (w.file? src)).put src none)
  | .failed e none => (.error e, w)
  | .failed e (some written) => (.error e, w.put dst (some written))

/-- The backup directory is made if there is none; `none`: "The backup directory %s is a file,
skipping ISO backup". -/
def makeBackup (w : World) : Except PyError (Option World) :=
  if w.isDir target.backup then .ok (some w)
  else if (w.file? target.backup).isSome then .ok none
  else (h.mkdir w target.backup).map fun _ => some (w.mkdir target.backup)

/-- The loop of `backup_iso` at one name: does it go on? -/
def backupFile (name : Name) (w : World) : Except PyError Bool × World :=
  if w.isBigIso (target.source name) then
    match h.makeBackup target w with
    | .error e => (.error e, w)
    | .ok none => (.ok false, w)
    | .ok (some w) =>
      let (r, w) := h.moveFile (target.source name) (w.place (target.saved name) name) w
      (r.map fun _ => true, w)
  else (.ok true, w)

def backupLoop : List Name → World → Except PyError Unit × World
  | [], w => (.ok (), w)
  | name :: names, w =>
    match h.backupFile target name w with
    | (.error e, w) => (.error e, w)
    | (.ok false, w) => (.ok (), w)
    | (.ok true, w) => backupLoop names w

/-- `backup_iso`; `asked` is `info.backup_iso` -/
def backupIso (asked : Bool) (w : World) : Except PyError Unit × World :=
  if !asked then (.ok (), w)
  else
    match h.listdir w target.install with
    | .error e => (.error e, w)
    | .ok () => h.backupLoop target (h.entries w target.install).names w

def bootFiles (d : Drive) : List Text :=
  ["boot.ini", "yldr", "yldr.mbr", "yldrd", "yldrd.mbr"].map fun name => join d.path name.toList

def undoFiles : List Text → World → Except PyError Unit × World
  | [], w => (.ok (), w)
  | f :: fs, w =>
    if (w.file? f).isSome then
      match h.undoFile w f with
      | (.error e, content) => (.error e, w.put f content)
      | (.ok (), content) => undoFiles fs (w.put f content)
    else undoFiles fs w

/-- `undo_bootloader` -/
def undoBootloader (w : World) : Except PyError Unit × World :=
  match h.undoBcd w with
  | .error e => (.error e, w)
  | .ok () => h.undoFiles (h.drives.flatMap bootFiles) w

/-- `remove_target_dir` -/
def removeTarget (w : World) : Except PyError Unit × World :=
  if !w.isDir target.path then (.ok (), w)
  else
    match h.rmTree w target.path with
    | none => (.ok (), w.rmTree target.path)
    | some (e, left) => (.error e, w.rmTreePart target.path left)

/-- `remove_registry_key` -/
def removeKey (w : World) : Except PyError Unit × World :=
  match h.deleteKey w with
  | .error e => (.error e, w)
  | .ok () => (.ok (), { w with installationDir := none, uninstallString := none })

/-- `get_uninstallation_tasklist` -/
def uninstallationTasklist (asked : Bool) : List (ProgTask Unit PyError World) :=
  [{ name := "backup_iso", prog := .code (h.backupIso target asked) fun _ => .ret none },
    { name := "undo_bootloader", prog := .code h.undoBootloader fun _ => .ret none },
    { name := "remove_target_dir", prog := .code (h.removeTarget target) fun _ => .ret none },
    { name := "remove_registry_key", prog := .code h.removeKey fun _ => .ret none }]

end Host

/-! ## Paths -/

/-- A path without case, with backslashes. -/
def norm (path : Text) : Text := path.lower.replaceChar '/' '\\'

theorem norm_append (p q : Text) : norm (p ++ q) = norm p ++ norm q := by
  rw [norm, Text.lower_append]
  exact List.map_append

theorem norm_getLast? {p : Text} {c : Char} (h : p.getLast? = some c) :
    (norm p).getLast? = some (if c.toLower = '/' then '\\' else c.toLower) := by
  simp [norm, Text.lower, Text.replaceChar, h]

theorem normPath_eq_norm {p : Text} (h : ∀ c ∈ p.getLast?, c ≠ '\\' ∧ c ≠ '/') :
    normPath p = norm p := by
  have hrev : normPath p = ((norm p).reverse.dropWhile (· = '\\')).reverse := rfl
  cases hp : p.getLast? with
  | none =>
    rw [List.getLast?_eq_none_iff] at hp
    subst hp
    rfl
  | some c =>
    obtain ⟨hne, hne'⟩ := h c hp
    have hlast := norm_getLast? hp
    have hslash : c.toLower ≠ '/' := fun hc => hne' (Text.eq_of_toLower (by decide) hc)
    have hback : c.toLower ≠ '\\' := fun hc => hne (Text.eq_of_toLower (by decide) hc)
    rw [if_neg hslash] at hlast
    obtain ⟨r, hr⟩ := List.getLast?_eq_some_iff.mp hlast
    rw [hrev, hr, List.reverse_append, List.reverse_singleton, List.singleton_append,
      List.dropWhile_cons_of_neg (by simpa using hback)]
    simp

namespace Name

variable (name : Name)

theorem not_mem_lower {d : Char} (hd : d.isLower = false) (h : d ∉ name.text) :
    d ∉ name.text.lower := by
  intro hmem
  obtain ⟨c, hc, hcd⟩ := List.mem_map.mp hmem
  exact h (Text.eq_of_toLower hd hcd ▸ hc)

theorem backslash_not_mem : '\\' ∉ name.text.lower := name.not_mem_lower (by decide) name.plain.1

theorem norm_text : norm name.text = name.text.lower := by
  have hslash : '/' ∉ name.text.lower := name.not_mem_lower (by decide) name.plain.2
  refine (List.map_congr_left fun c hc => ?_).trans (List.map_id _)
  have hne : c ≠ '/' := fun h => hslash (h ▸ hc)
  exact if_neg hne

theorem normPath_join (dir : Text) :
    normPath (join dir name.text) = norm dir ++ '\\' :: name.text.lower := by
  have hlast : ∀ c ∈ (join dir name.text).getLast?, c ≠ '\\' ∧ c ≠ '/' := by
    intro c hc
    have hjoin : join dir name.text = (dir ++ ['\\']) ++ name.text := by simp [join]
    rw [hjoin, List.getLast?_append_of_ne_nil _ name.ne_nil] at hc
    have hmem : c ∈ name.text := List.mem_of_getLast? hc
    exact ⟨fun h => name.plain.1 (h ▸ hmem), fun h => name.plain.2 (h ▸ hmem)⟩
  have hcons : norm ('\\' :: name.text) = '\\' :: norm name.text := rfl
  rw [normPath_eq_norm hlast, join, norm_append, hcons, name.norm_text]

end Name

namespace TargetDir

variable {target : TargetDir} {a b : Name} {w w' : World}

theorem normPath_source (a : Name) : normPath (target.source a) =
    norm target.path ++ '\\' :: ("install".toList ++ '\\' :: a.text.lower) := by
  have hinstall : norm target.install = norm target.path ++ '\\' :: "install".toList :=
    norm_append ..
  rw [source, a.normPath_join, hinstall]
  simp

theorem norm_backup : norm target.backup = norm target.path ++ "-backup".toList := norm_append ..

theorem normPath_backup : normPath target.backup = norm target.backup := by
  refine normPath_eq_norm fun c hc => ?_
  have hlast : target.backup.getLast? = some 'p' := List.getLast?_append_of_ne_nil _ (by decide)
  rw [hlast] at hc
  cases hc
  decide

/-- A directory of the same name can only put the name behind its own. -/
theorem normPath_place (target : TargetDir) (w : World) (a : Name) :
    ∃ tail, (tail = a.text.lower ∨ tail = a.text.lower ++ '\\' :: a.text.lower) ∧
      normPath (w.place (target.saved a) a) = norm target.backup ++ '\\' :: tail := by
  unfold World.place
  split
  · have hsaved : norm (target.saved a) = norm target.backup ++ '\\' :: norm a.text :=
      norm_append ..
    refine ⟨_, .inr rfl, ?_⟩
    rw [a.normPath_join, hsaved, a.norm_text]
    simp
  · exact ⟨_, .inl rfl, a.normPath_join _⟩

theorem source_ne_source (h : a.text.lower ≠ b.text.lower) :
    normPath (target.source a) ≠ normPath (target.source b) := by
  rw [normPath_source, normPath_source]
  intro heq
  have heq := (List.cons.inj (List.append_cancel_left heq)).2
  exact h (List.cons.inj (List.append_cancel_left heq)).2

theorem source_ne_place (w : World) :
    normPath (target.source a) ≠ normPath (w.place (target.saved b) b) := by
  obtain ⟨tail, -, hplace⟩ := normPath_place target w b
  rw [normPath_source, hplace, norm_backup, List.append_assoc]
  intro heq
  exact absurd (List.cons.inj (List.append_cancel_left heq)).1 (by decide)

theorem place_ne_place (h : a.text.lower ≠ b.text.lower) :
    normPath (w.place (target.saved a) a) ≠ normPath (w'.place (target.saved b) b) := by
  have hname (name : Name) {tail : Text}
      (ht : tail = name.text.lower ∨ tail = name.text.lower ++ '\\' :: name.text.lower) :
      tail.takeWhile (· ≠ '\\') = name.text.lower := by
    have hall : ∀ c ∈ name.text.lower, (decide (c ≠ '\\')) = true := by
      intro c hc
      exact decide_eq_true fun h => name.backslash_not_mem (h ▸ hc)
    rcases ht with rfl | rfl
    · exact List.takeWhile_eq_self_iff.mpr hall
    · rw [List.takeWhile_append_of_pos hall]
      simp
  obtain ⟨tail, ht, hplace⟩ := normPath_place target w a
  obtain ⟨tail', ht', hplace'⟩ := normPath_place target w' b
  rw [hplace, hplace']
  intro heq
  have htail : tail = tail' := (List.cons.inj (List.append_cancel_left heq)).2
  exact h ((hname a ht).symm.trans ((congrArg _ htail).trans (hname b ht')))

/-- What is in the backup directory is not this directory itself. -/
theorem ne_backup {q tail : Text} (h : normPath q = norm target.backup ++ '\\' :: tail) :
    normPath q ≠ normPath target.backup := by
  rw [h, normPath_backup]
  intro heq
  have hlen := congrArg List.length heq
  rw [List.length_append, List.length_cons] at hlen
  omega

theorem under_source (target : TargetDir) (a : Name) :
    under (normPath target.path) (normPath (target.source a)) = true := by
  rw [normPath_eq_norm target.plain, normPath_source, under_iff]
  exact .inr ⟨"install".toList ++ '\\' :: a.text.lower, by simp⟩

/-- The backup directory is beside the target directory. -/
theorem not_under_place (target : TargetDir) (w : World) (a : Name) :
    under (normPath target.path) (normPath (w.place (target.saved a) a)) = false := by
  obtain ⟨tail, -, hplace⟩ := normPath_place target w a
  rw [normPath_eq_norm target.plain, hplace, norm_backup, List.append_assoc, ← Bool.not_eq_true,
    under_iff]
  rintro (heq | hpre)
  · exact absurd (List.append_right_eq_self.mp heq) (by simp)
  · rw [List.prefix_append_right_inj] at hpre
    exact absurd (List.cons_prefix_cons.mp hpre).1 (by decide)

end TargetDir

/-! ## The loop -/

namespace World

variable {w : World} {p q : Text}

@[simp] theorem file?_put_self (content : Option Text) : (w.put p content).file? p = content :=
  Function.update_self ..

theorem file?_put_of_ne (h : normPath q ≠ normPath p) (content : Option Text) :
    (w.put p content).file? q = w.file? q := Function.update_of_ne h ..

theorem isDir_mkdir_self : (w.mkdir p).isDir p = true := Function.update_self ..

theorem isDir_mkdir_of_ne (h : normPath q ≠ normPath p) : (w.mkdir p).isDir q = w.isDir q :=
  Function.update_of_ne h ..

end World

/-- `backup_iso` does not skip the backup. -/
def TargetDir.Usable (target : TargetDir) (w : World) : Prop :=
  w.isDir target.backup = true ∨ w.file? target.backup = none

namespace Host

variable {h : Host} {target : TargetDir} {w w' : World} {name : Name} {src dst q : Text}

theorem isDir_moveFile (h : Host) (src dst q : Text) (w : World) : (h.moveFile src dst w).2.isDir q = w.isDir q := by
  unfold moveFile
  split <;> rfl

theorem file?_moveFile_of_ne (hsrc : normPath q ≠ normPath src) (hdst : normPath q ≠ normPath dst) :
    (h.moveFile src dst w).2.file? q = w.file? q := by
  unfold moveFile
  split
  · rw [World.file?_put_of_ne hsrc, World.file?_put_of_ne hdst]
  · rfl
  · exact World.file?_put_of_ne hdst _

/-- A move that succeeds brings the content along; one that fails leaves it. -/
theorem moveFile_content (hne : normPath src ≠ normPath dst) :
    ((h.moveFile src dst w).1 = .ok () ∧ (h.moveFile src dst w).2.file? dst = w.file? src) ∨
      ∃ e, (h.moveFile src dst w).1 = .error e ∧
        (h.moveFile src dst w).2.file? src = w.file? src := by
  unfold moveFile
  split
  · left
    refine ⟨rfl, ?_⟩
    rw [World.file?_put_of_ne hne.symm, World.file?_put_self]
  · exact .inr ⟨_, rfl, rfl⟩
  · exact .inr ⟨_, rfl, World.file?_put_of_ne hne _⟩

theorem makeBackup_none (hm : h.makeBackup target w = .ok none) : ¬ target.Usable w := by
  unfold makeBackup at hm
  split at hm
  · cases hm
  · next hdir =>
    split at hm
    · next hfile =>
      rintro (hu | hu)
      · exact hdir hu
      · simp [hu] at hfile
    · cases hmk : h.mkdir w target.backup with
      | error e => simp [hmk, Except.map] at hm
      | ok _ => simp [hmk, Except.map] at hm

/-- After the backup directory was made, all else is as before. -/
structure Made (target : TargetDir) (w w' : World) : Prop where
  file? : ∀ q, w'.file? q = w.file? q
  isDir : w'.isDir target.backup = true
  place : ∀ a, w'.place (target.saved a) a = w.place (target.saved a) a

theorem makeBackup_some (hm : h.makeBackup target w = .ok (some w')) : Made target w w' := by
  unfold makeBackup at hm
  split at hm
  · next hdir =>
    cases hm
    exact ⟨fun _ => rfl, hdir, fun _ => rfl⟩
  · split at hm
    · cases hm
    · cases hmk : h.mkdir w target.backup with
      | error e => simp [hmk, Except.map] at hm
      | ok _ =>
        rw [hmk] at hm
        cases hm
        refine ⟨fun _ => rfl, World.isDir_mkdir_self, fun a => ?_⟩
        have hne : normPath (target.saved a) ≠ normPath target.backup :=
          TargetDir.ne_backup (a.normPath_join _)
        rw [World.place, World.isDir_mkdir_of_ne hne]
        rfl

/-- What is done at one name: nothing, the skip, an error, or a move. -/
inductive Turn (h : Host) (target : TargetDir) (name : Name) (w : World) :
    Except PyError Bool × World → Prop
  | passed : w.isBigIso (target.source name) = false → Turn h target name w (.ok true, w)
  | skipped : ¬ target.Usable w → Turn h target name w (.ok false, w)
  | raised {e} : Turn h target name w (.error e, w)
  | moved {w₁ r w'} : Made target w w₁ →
      h.moveFile (target.source name) (w.place (target.saved name) name) w₁ = (r, w') →
      Turn h target name w (r.map fun _ => true, w')

theorem turn (h : Host) (target : TargetDir) (name : Name) (w : World) :
    Turn h target name w (h.backupFile target name w) := by
  unfold backupFile
  split
  · cases hm : h.makeBackup target w with
    | error e => exact .raised
    | ok made =>
      cases made with
      | none => exact .skipped (makeBackup_none hm)
      | some w₁ =>
        have hmade := makeBackup_some hm
        refine .moved hmade ?_
        rw [← hmade.place name]
        rfl
  · next hbig => exact .passed (by simpa using hbig)

namespace Turn

variable {r : Except PyError Bool × World}

theorem file?_of_ne (ht : Turn h target name w r)
    (hsrc : normPath q ≠ normPath (target.source name))
    (hdst : normPath q ≠ normPath (w.place (target.saved name) name)) :
    r.2.file? q = w.file? q := by
  cases ht with
  | passed | skipped | raised => rfl
  | @moved w₁ r w' hmade hmove =>
    have hfile := file?_moveFile_of_ne (h := h) (w := w₁) hsrc hdst
    rw [hmove] at hfile
    exact hfile.trans (hmade.file? q)

theorem place (ht : Turn h target name w r) (a : Name) :
    r.2.place (target.saved a) a = w.place (target.saved a) a := by
  cases ht with
  | passed | skipped | raised => rfl
  | @moved w₁ r w' hmade hmove =>
    have hdir := isDir_moveFile h (target.source name) (w.place (target.saved name) name)
      (target.saved a) w₁
    rw [hmove] at hdir
    rw [← hmade.place a, World.place, hdir]
    rfl

theorem usable (ht : Turn h target name w r) (hu : target.Usable w) : target.Usable r.2 := by
  cases ht with
  | passed | skipped | raised => exact hu
  | @moved w₁ r w' hmade hmove =>
    have hdir := isDir_moveFile h (target.source name) (w.place (target.saved name) name)
      target.backup w₁
    rw [hmove] at hdir
    exact .inl (hdir.trans hmade.isDir)

/-- An ISO is moved to its place, or stays where it was. -/
theorem content (ht : Turn h target name w r) (hu : target.Usable w)
    (hbig : w.isBigIso (target.source name) = true) :
    (r.1 = .ok true ∧ r.2.file? (w.place (target.saved name) name) =
        w.file? (target.source name)) ∨
      ∃ e, r.1 = .error e ∧ r.2.file? (target.source name) = w.file? (target.source name) := by
  cases ht with
  | passed hpassed => exact (Bool.false_ne_true (hpassed.symm.trans hbig)).elim
  | skipped hskipped => exact (hskipped hu).elim
  | raised => exact .inr ⟨_, rfl, rfl⟩
  | @moved w₁ r w' hmade hmove =>
    have hne : normPath (target.source name) ≠ normPath (w.place (target.saved name) name) :=
      TargetDir.source_ne_place w
    rcases moveFile_content (h := h) (w := w₁) hne with ⟨hok, hfile⟩ | ⟨e, herror, hfile⟩
    · rw [hmove] at hok hfile
      obtain rfl : r = .ok () := hok
      exact .inl ⟨rfl, hfile.trans (hmade.file? _)⟩
    · rw [hmove] at herror hfile
      obtain rfl : r = .error e := herror
      exact .inr ⟨e, rfl, hfile.trans (hmade.file? _)⟩

theorem not_skipped (ht : Turn h target name w r) (hu : target.Usable w) : r.1 ≠ .ok false := by
  cases ht with
  | passed => nofun
  | skipped hskipped => exact (hskipped hu).elim
  | raised => nofun
  | @moved w₁ r w' =>
    cases r with
    | ok _ => nofun
    | error e => nofun

end Turn

/-- The loop leaves alone what is at no place of its names. -/
theorem file?_backupLoop {names : List Name}
    (hq : ∀ a ∈ names, normPath q ≠ normPath (target.source a) ∧
      ∀ w : World, normPath q ≠ normPath (w.place (target.saved a) a)) :
    ∀ w, (h.backupLoop target names w).2.file? q = w.file? q := by
  induction names with
  | nil => exact fun _ => rfl
  | cons a names ih =>
    intro w
    obtain ⟨ha, hq⟩ := List.forall_mem_cons.mp hq
    have hfile := (turn h target a w).file?_of_ne ha.1 (ha.2 w)
    unfold backupLoop
    split
    · next hr => exact (congrArg (World.file? · q) (congrArg Prod.snd hr)).symm.trans hfile
    · next hr => exact (congrArg (World.file? · q) (congrArg Prod.snd hr)).symm.trans hfile
    · next w₁ hr =>
      rw [hr] at hfile
      exact (ih hq w₁).trans hfile

theorem isBigIso_congr (hfile : w'.file? q = w.file? q) : w'.isBigIso q = w.isBigIso q := by
  rw [World.isBigIso, hfile]
  rfl

/-- At the end of the loop an ISO is at its place; if the loop raised, it may still be where it
was. -/
theorem backupLoop_content {names : List Name}
    (hnodup : (names.map fun a => a.text.lower).Nodup) (hname : name ∈ names) :
    ∀ {w : World}, target.Usable w → w.isBigIso (target.source name) = true →
      (h.backupLoop target names w).2.file? (w.place (target.saved name) name) =
          w.file? (target.source name) ∨
        (∃ e, (h.backupLoop target names w).1 = .error e) ∧
          (h.backupLoop target names w).2.file? (target.source name) =
            w.file? (target.source name) := by
  induction names with
  | nil => cases hname
  | cons a names ih =>
    intro w hu hbig
    rw [List.map_cons, List.nodup_cons] at hnodup
    have hne : ∀ b ∈ names, a.text.lower ≠ b.text.lower := fun b hb he =>
      hnodup.1 (he ▸ List.mem_map_of_mem hb)
    have ht := turn h target a w
    unfold backupLoop
    rcases List.mem_cons.mp hname with rfl | hin
    · -- its turn: what comes later is at other places
      rcases ht.content hu hbig with ⟨hok, hfile⟩ | ⟨e, herror, hfile⟩
      · split
        · next hr => cases (congrArg Prod.fst hr).symm.trans hok
        · next hr => cases (congrArg Prod.fst hr).symm.trans hok
        · next w₁ hr =>
          rw [hr] at hfile
          left
          rw [← hfile]
          refine file?_backupLoop (fun b hb => ⟨?_, fun w' => ?_⟩) w₁
          · exact (TargetDir.source_ne_place w).symm
          · exact TargetDir.place_ne_place (hne b hb)
      · split
        · next e' w₁ hr =>
          rw [hr] at hfile
          exact .inr ⟨⟨e', rfl⟩, hfile⟩
        · next hr => cases (congrArg Prod.fst hr).symm.trans herror
        · next hr => cases (congrArg Prod.fst hr).symm.trans herror
    · -- the turn of another
      have hfile := ht.file?_of_ne (TargetDir.source_ne_source (hne name hin).symm)
        (TargetDir.source_ne_place w)
      have hplace := ht.place name
      have husable := ht.usable hu
      split
      · next e' w₁ hr =>
        rw [hr] at hfile
        exact .inr ⟨⟨e', rfl⟩, hfile⟩
      · next hr => exact (ht.not_skipped hu (congrArg Prod.fst hr)).elim
      · next w₁ hr =>
        rw [hr] at hfile hplace husable
        rw [← hfile, ← hplace]
        exact ih hnodup.2 hin husable ((isBigIso_congr hfile).trans hbig)

/-- `backup_iso`, when the user asked for it. -/
theorem backupIso_content (hu : target.Usable w)
    (hname : name ∈ (h.entries w target.install).names)
    (hbig : w.isBigIso (target.source name) = true) :
    (h.backupIso target true w).2.file? (w.place (target.saved name) name) =
        w.file? (target.source name) ∨
      (∃ e, (h.backupIso target true w).1 = .error e) ∧
        (h.backupIso target true w).2.file? (target.source name) =
          w.file? (target.source name) := by
  have hbackup : h.backupIso target true w = match h.listdir w target.install with
    | .error e => (.error e, w)
    | .ok () => h.backupLoop target (h.entries w target.install).names w := rfl
  rw [hbackup]
  cases h.listdir w target.install with
  | error e => exact .inr ⟨⟨e, rfl⟩, rfl⟩
  | ok _ => exact backupLoop_content (h.entries w target.install).nodup hname hu hbig

end Host

end Swinst.Previous
