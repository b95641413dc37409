import Swinst.Disks.Recipe
import Swinst.Disks.SizeList
import Swinst.TaskList.ProgramRuns

/-! The recipe that `create_preseed` writes, against the disks that `create_virtual_disks` makes, when
`get_installation_tasklist` has run to its end. -/

namespace Swinst.Disks

open TaskList Templates

/-! ## The tasks -/

/-- How a task fails. With too little room for the disks, or a directory at the path of one,
`create_virtual_disks` does not come to its end, and no later task starts either. -/
inductive Failure where
  | raised (e : PyError)
  | endless

/-- What does not change. -/
structure Target where
  /-- `info.installation_size_mb` -/
  installationSizeMb : Int
  /-- `info.target_drive.is_fat()` -/
  isFat : Bool
  /-- is there room for the disks on the drive? -/
  room : Sizes → DisksDir → Bool
  env : Env
  salt : Salt

/-- `info` has the paths that the first tasks set; `O` is what the tasks that are not modelled here
work on. -/
structure World (O : Type) where
  info : Info
  files : Files
  disks : DisksDir
  other : O

section tasks

variable {O : Type} (t : Target)

/-- `choose_disk_sizes` -/
def World.chooseSizes (w : World O) : World O :=
  { w with info := setSizes (chooseDiskSizes t.installationSizeMb t.isFat) w.info }

/-- `create_preseed` -/
def World.createPreseed (w : World O) : Except Failure Unit × World O :=
  let (r, files) := Templates.createPreseed t.env t.salt w.info w.files
  (r.mapError .raised, { w with files })

/-- `create_virtual_disks` -/
def World.createDisks (w : World O) : Except Failure Unit × World O :=
  let sizes := sizesOf w.info
  match if t.room sizes w.disks then createVirtualDisks sizes w.disks else none with
  | some disks => (.ok (), { w with disks })
  | none => (.error .endless, w)

/-- A task that changes neither the sizes, nor the disks, nor what `create_preseed` reads and
writes. -/
def outside (other : String → Prog Unit Failure O) (name : String) :
    ProgTask Unit Failure (World O) where
  name := name
  prog := (other name).zoom World.other fun o w => { w with other := o }

/-- `get_installation_tasklist` -/
def getInstallationTasklist (other : String → Prog Unit Failure O) :
    List (ProgTask Unit Failure (World O)) :=
  ["select_target_dir", "create_dir_structure", "uncompress_target_dir", "create_uninstaller",
      "copy_installation_files", "get_iso", "extract_kernel"].map (outside other) ++
    { name := "choose_disk_sizes", prog := .update (World.chooseSizes t) (.ret none) } ::
    { name := "create_preseed", prog := .code (World.createPreseed t) fun _ => .ret none } ::
    (["undo_bootloader", "modify_bootloader", "modify_grub_configuration"].map (outside other) ++
      { name := "create_virtual_disks", prog := .code (World.createDisks t) fun _ => .ret none } ::
      ["uncompress_files", "eject_cd"].map (outside other))

end tasks

/-- What the tasks that are not modelled leave alone. -/
def World.core (w : World O) : Info × Files × DisksDir := (w.info, w.files, w.disks)

theorem World.core_eq {w w' : World O} (h : w.core = w'.core) :
    w.info = w'.info ∧ w.files = w'.files ∧ w.disks = w'.disks := by
  obtain ⟨hinfo, h⟩ := Prod.mk.inj h
  exact ⟨hinfo, Prod.mk.inj h⟩

theorem evalTasks_outside (other : String → Prog Unit Failure O) (names : List String)
    (active : Bool) (w : World O) :
    (evalTasks (names.map (outside other)) active w).2.core = w.core := by
  refine evalTasks_invariant (P := fun w' : World O => w'.core = w.core) (fun t ht w' hw' => ?_) rfl
  obtain ⟨name, -, rfl⟩ := List.mem_map.mp ht
  have hset (o : O) (w : World O) : World.core { w with other := o } = w.core := rfl
  exact (Prog.eval_zoom hset (other name) true true w').trans hw'

/-- A run of tasks that are not modelled, up to the next. -/
theorem evalTasks_outside_ok {other : String → Prog Unit Failure O} {names : List String}
    {ts : List (ProgTask Unit Failure (World O))} {w w' : World O}
    (h : evalTasks (names.map (outside other) ++ ts) true w = (true, w')) :
    ∃ w₁ : World O, w₁.core = w.core ∧ evalTasks ts true w₁ = (true, w') :=
  ⟨_, evalTasks_outside other names true w, (evalTasks_append_ok h).2⟩

theorem World.createPreseed_ok {t : Target} {w : World O} (h : (w.createPreseed t).1 = .ok ()) :
    Templates.createPreseed t.env t.salt w.info w.files = (.ok (), (w.createPreseed t).2.files) := by
  have hok : (Templates.createPreseed t.env t.salt w.info w.files).1.mapError Failure.raised =
    .ok () := h
  refine Prod.ext ?_ rfl
  cases hr : (Templates.createPreseed t.env t.salt w.info w.files).1 with
  | ok _ => rfl
  | error e =>
    rw [hr] at hok
    cases hok

theorem World.createDisks_ok {t : Target} {w : World O} (h : (w.createDisks t).1 = .ok ()) :
    createVirtualDisks (sizesOf w.info) w.disks = some (w.createDisks t).2.disks ∧
      (w.createDisks t).2.files = w.files := by
  unfold World.createDisks at h ⊢
  dsimp only at h ⊢
  split at h
  · next disks hdisks =>
    split at hdisks
    · exact ⟨hdisks, rfl⟩
    · cases hdisks
  · cases h

/-- What a run without failure has done. -/
theorem evalTasks_installation {t : Target} {other : String → Prog Unit Failure O}
    {w w' : World O} (h : evalTasks (getInstallationTasklist t other) true w = (true, w')) :
    Templates.createPreseed t.env t.salt
        (setSizes (chooseDiskSizes t.installationSizeMb t.isFat) w.info) w.files =
      (.ok (), w'.files) ∧
    createVirtualDisks (chooseDiskSizes t.installationSizeMb t.isFat) w.disks = some w'.disks := by
  obtain ⟨w₁, hw₁, h⟩ := evalTasks_outside_ok h
  obtain ⟨-, h⟩ := evalTasks_cons_ok h
  obtain ⟨⟨_, hpreseed⟩, h⟩ := evalTasks_code_ok h
  obtain ⟨w₂, hw₂, h⟩ := evalTasks_outside_ok h
  obtain ⟨⟨_, hdisks⟩, h⟩ := evalTasks_code_ok h
  have hw' : w'.core = (w₂.createDisks t).2.core := by
    have hcore := evalTasks_outside other ["uncompress_files", "eject_cd"] true (w₂.createDisks t).2
    rwa [h] at hcore
  obtain ⟨hinfo₁, hfiles₁, hdisks₁⟩ := World.core_eq hw₁
  obtain ⟨hinfo₂, hfiles₂, hdisks₂⟩ := World.core_eq hw₂
  obtain ⟨-, hfiles', hdisks'⟩ := World.core_eq hw'
  obtain ⟨hcreated, hkept⟩ := World.createDisks_ok hdisks
  constructor
  · have hwritten : Templates.createPreseed t.env t.salt (setSizes _ w₁.info) w₁.files =
      (.ok (), (World.createPreseed t (w₁.chooseSizes t)).2.files) := World.createPreseed_ok hpreseed
    rw [hinfo₁, hfiles₁] at hwritten
    rw [hwritten, hfiles', hkept, hfiles₂]
    rfl
  · have hsizes : sizesOf w₂.info = chooseDiskSizes t.installationSizeMb t.isFat := by
      rw [hinfo₂]
      exact sizesOf_setSizes _ w₁.info
    have hbefore : w₂.disks = w₁.disks := hdisks₂
    rw [hdisks', ← hcreated, hsizes, hbefore, hdisks₁]

/-! ## The recipe against the disks -/

/-- The recipe names the disks that have a size, each once. A file that was at the path of a disk is
kept; else the disk has the number of MiB that the recipe states. -/
structure Agree (sizes : Sizes) (disks disks' : DisksDir) : Prop where
  named : ∀ d n, (d, n) ∈ recipe sizes ↔ n = sizes d ∧ n ≠ 0
  once : ((recipe sizes).map Prod.fst).Nodup
  kept : ∀ d bytes, disks d = .file bytes → disks' d = .file bytes
  created : ∀ d n, (d, n) ∈ recipe sizes → 0 < n → (∀ bytes, disks d ≠ .file bytes) →
    ∃ bytes : Nat, disks' d = .file bytes ∧ bytes = n * 1024 ^ 2

theorem createEntry_created {n : Int} {e e' : Entry} (h : createEntry n e = some e') (hn : 0 < n)
    (he : ∀ bytes, e ≠ .file bytes) : ∃ bytes : Nat, e' = .file bytes ∧ bytes = n * 1024 ^ 2 := by
  have hne : n ≠ 0 := by omega
  have hlt : ¬ n < 1 := by omega
  cases e with
  | file bytes => exact (he bytes rfl).elim
  | dir =>
    rw [createEntry, if_neg hne, createVirtualDisk, if_neg hlt] at h
    cases h
  | absent =>
    rw [createEntry, if_neg hne, createVirtualDisk, if_neg hlt] at h
    cases h
    refine ⟨_, rfl, ?_⟩
    omega

theorem agree_createVirtualDisks {sizes : Sizes} {disks disks' : DisksDir}
    (h : createVirtualDisks sizes disks = some disks') : Agree sizes disks disks' where
  named _ _ := mem_recipe
  once := nodup_recipe sizes
  kept d bytes hd := by
    have hentry := createVirtualDisks_apply h d
    rw [hd] at hentry
    exact (Option.some.inj hentry).symm
  created d n hn hpos hd := by
    have hentry := createVirtualDisks_apply h d
    rw [← (mem_recipe.mp hn).1] at hentry
    exact createEntry_created hentry hpos hd

theorem Agree.isFile {sizes : Sizes} {disks disks' : DisksDir} (h : Agree sizes disks disks')
    {d : Disk} {n : Int} (hn : (d, n) ∈ recipe sizes) (hpos : 0 < n) :
    ∃ bytes, disks' d = .file bytes := by
  by_cases hd : ∃ bytes, disks d = .file bytes
  · obtain ⟨bytes, hd⟩ := hd
    exact ⟨bytes, h.kept d bytes hd⟩
  · obtain ⟨bytes, hbytes, -⟩ := h.created d n hn hpos fun bytes hd' => hd ⟨bytes, hd'⟩
    exact ⟨bytes, hbytes⟩

/-- The template has a place for the recipe. -/
def HasPlace (env : Env) (info : Info) (files : Files) : Prop :=
  ∃ template, readFile files (templateFile env info files) = some template ∧
    placeholder "partitioning".toList <:+: template

theorem createPreseed_content {env : Env} {salt : Salt} {info : Info} {files files' : Files}
    (h : createPreseed env salt info files = (.ok (), files')) :
    ∃ content, preseedContent env salt info files = .ok content ∧
      files' (preseedFile env info) = some content.text := by
  unfold createPreseed at h
  split at h
  · cases h
  · next content hcontent =>
    have hne : preseedFile env info ≠ [] := env.join_ne _ _
    refine ⟨content, hcontent, ?_⟩
    rw [writeFile, if_neg hne] at h
    split at h
    · cases h
    · next text htext =>
      rw [← PyStr.encode_text htext, ← (Prod.mk.inj h).2, Function.update_self]

/-- After a run of the installation without failure, `create_preseed` has written the recipe of the
chosen sizes, and the disks agree with it; with 256 MB in all or more, every disk in it is there. -/
theorem recipe_and_disks_agree {O : Type} {t : Target} {other : String → Prog Unit Failure O}
    {errText : Failure → String} {name : String} {threaded : Bool} {w : World O}
    {m : Machine (Prog Unit Failure (World O)) Unit Failure (ProgControl Unit Failure (World O))
      (World O)}
    (hrun : Thread (progBehaviour errText)
      (.init name ((getInstallationTasklist t other).map ProgTask.spec) threaded w) m)
    (hend : m.stack = []) (hok : m.tree.value.error = none) :
    let sizes := chooseDiskSizes t.installationSizeMb t.isFat
    let text := recipeText (w.info.disksDir.text.unixPath ++ ['/']) (recipe sizes)
    (∃ part, partitioning (setSizes sizes w.info) = .ok part ∧ part.text = text) ∧
      (∃ preseed, m.world.files (preseedFile t.env w.info) = some preseed ∧
        ('$' ∉ w.info.disksDir.text → HasPlace t.env w.info w.files → text <:+: preseed)) ∧
      Agree sizes w.disks m.world.disks ∧
      (256 ≤ t.installationSizeMb → ∀ d n, (d, n) ∈ recipe sizes →
        ∃ bytes, m.world.disks d = .file bytes) := by
  intro sizes text
  obtain ⟨hpreseed, hdisks⟩ := evalTasks_installation (Machine.thread_end_ok hrun hend hok)
  have hagree : Agree sizes w.disks m.world.disks := agree_createVirtualDisks hdisks
  obtain ⟨content, hcontent, hfile⟩ := createPreseed_content hpreseed
  obtain ⟨part, hpart, -⟩ := bind_eq_ok hcontent
  have htext : part.text = text := by
    rw [partitioning_text hpart, sizesOf_setSizes]
    rfl
  refine ⟨⟨part, hpart, htext⟩, ⟨content.text, hfile, fun hdir hplace => ?_⟩, hagree,
    fun htotal d n hn => ?_⟩
  · obtain ⟨template, hread, hplace⟩ := hplace
    rw [← htext]
    exact recipe_written hcontent hread hpart hdir hplace
  · obtain ⟨hsize, hne⟩ := mem_recipe.mp hn
    have hnonneg : 0 ≤ sizes d := chooseDiskSizes_nonneg htotal t.isFat d
    exact hagree.isFile hn (by omega)

/-- A computer whose template is the place of the recipe. -/
private def recipeFiles : Files := fun path =>
  if path = plainEnv.join "data".toList "preseed.lupin".toList then
    some (placeholder "partitioning".toList)
  else none

private def recipeInfo : Info where
  dataDir := "data".toList
  custominstall := "custom".toList
  distroName := "StartOS".toList
  packages := .bytes []
  disksDir := .bytes "C:\\startos-loop\\disks".toList
  rootSizeMb := 0
  swapSizeMb := 0
  homeSizeMb := 0
  usrSizeMb := 0
  timezone := .bytes []
  hostUsername := .bytes []
  userFullName := .bytes []
  userDirectory := .bytes []
  username := .bytes []
  password := .bytes []
  instmod := .bytes []
  autologin := .bytes []

private def recipeTarget (total : Int) : Target where
  installationSizeMb := total
  isFat := false
  room _ _ := true
  env := plainEnv
  salt := plainSalt

private def rootDisk (e : Entry) : World Unit where
  info := recipeInfo
  files := recipeFiles
  disks := Function.update (fun _ => .absent) .root e
  other := ()

private def recipeTasks (total : Int) : List (ProgTask Unit Failure (World Unit)) :=
  getInstallationTasklist (recipeTarget total) fun _ => .ret none

private theorem exists_installed (total : Int) (w : World Unit)
    (h : (evalTasks (recipeTasks total) true w).1 = true) :
    ∃ m : Machine (Prog Unit Failure (World Unit)) Unit Failure
        (ProgControl Unit Failure (World Unit)) (World Unit),
      Thread (progBehaviour fun _ => "")
        (.init "Installing" ((recipeTasks total).map ProgTask.spec) true w) m ∧
      m.stack = [] ∧ m.tree.value.error = none ∧
      m.world = (evalTasks (recipeTasks total) true w).2 := by
  obtain ⟨m, hm, hst, hw, he⟩ := Machine.exists_end (fun _ => "") "Installing" (recipeTasks total)
    true w
  rw [h] at he
  exact ⟨m, hm, hst, by simpa using he, hw⟩

/-- On an empty drive. -/
theorem recipe_and_disks_agree_empty :
    ∃ disks', Agree (chooseDiskSizes 3000 false) (rootDisk .absent).disks disks' ∧
      disks' .root = .file (2744 * 1024 ^ 2) := by
  obtain ⟨m, hm, hst, he, hw⟩ := exists_installed 3000 (rootDisk .absent)
    (by decide +kernel)
  have hagree := recipe_and_disks_agree hm hst he
  refine ⟨m.world.disks, hagree.2.2.1, ?_⟩
  rw [hw]
  decide +kernel

/-- The file of an earlier installation is kept, whatever its size; and a negative size is in the
recipe, but there is no file. -/
theorem leftover_disk_kept :
    (∃ m : Machine (Prog Unit Failure (World Unit)) Unit Failure
        (ProgControl Unit Failure (World Unit)) (World Unit),
      Thread (progBehaviour fun _ => "")
        (.init "Installing" ((recipeTasks 3000).map ProgTask.spec) true (rootDisk (.file 5))) m ∧
      m.stack = [] ∧ m.tree.value.error = none ∧
      (.root, 2744) ∈ recipe (chooseDiskSizes 3000 false) ∧ m.world.disks .root = .file 5) ∧
    ∃ m : Machine (Prog Unit Failure (World Unit)) Unit Failure
        (ProgControl Unit Failure (World Unit)) (World Unit),
      Thread (progBehaviour fun _ => "")
        (.init "Installing" ((recipeTasks 200).map ProgTask.spec) true (rootDisk .absent)) m ∧
      m.stack = [] ∧ m.tree.value.error = none ∧
      (.root, -56) ∈ recipe (chooseDiskSizes 200 false) ∧ m.world.disks .root = .absent := by
  constructor
  · obtain ⟨m, hm, hst, he, hw⟩ := exists_installed 3000 (rootDisk (.file 5))
      (by decide +kernel)
    refine ⟨m, hm, hst, he, by decide, ?_⟩
    rw [hw]
    decide +kernel
  · obtain ⟨m, hm, hst, he, hw⟩ := exists_installed 200 (rootDisk .absent)
      (by decide +kernel)
    refine ⟨m, hm, hst, he, by decide, ?_⟩
    rw [hw]
    decide +kernel

end Swinst.Disks
