import Swinst.Bootloader.Drives

/-! The entry of the installer in the BCD store, and the registry value `VistaBootDrive` that names
it. A `bcdedit` command takes effect or fails without effect; `run_command` returns the output of
`bcdedit` either way. The registry functions work. -/

namespace Swinst.Bcd

open TaskList

/-- An entry of the store that the installer created. -/
structure Entry where
  id : Text
  description : Text
  device : Option Text := none
  path : Option Text := none
  deriving DecidableEq

structure World where
  /-- only the entries that the installer created -/
  entries : List Entry
  displayOrder : List Text
  timeout : Option Text
  /-- `registry.get_value(…, 'VistaBootDrive')` -/
  vistaBootDrive : Option Text
  deriving DecidableEq

inductive Err where
  /-- `shutil.copyfile` or `attrib` failed -/
  | files
  /-- `substring not found` -/
  | valueError
  deriving DecidableEq

/-- The fields of `info` and the variables of the environment that `modify_bcd` reads. -/
structure Info extends LoaderInfo where
  targetDir : Text
  targetDrive : Text
  /-- `os.getenv('SystemDrive')` -/
  systemDrive : Text

/-- `id[id.index('{'):id.index('}')+1]` -/
def parseId (output : Text) : Option Text :=
  match output.findIdx? (· = '{'), output.findIdx? (· = '}') with
  | some i, some j => some ((output.take (j + 1)).drop i)
  | _, _ => none

/-- What happens to `bcdedit /create`. -/
inductive Create where
  /-- a new entry, whose id can be read off the output -/
  | created (id output : Text) (hid : id ≠ []) (hout : parseId output = some id)
  | failed (output : Text)

def Create.output : Create → Text
  | .created _ output _ _ | .failed output => output

/-- What the commands of `modify_bcd` do on a drive. -/
structure Commands where
  /-- are the loader files copied? -/
  copies : Bool := true
  /-- is there a `bcdedit.exe`? -/
  found : Bool := true
  create : Create
  setDevice : Bool := true
  setPath : Bool := true
  displayOrder : Bool := true
  timeout : Bool := true

namespace World

/-- `bcdedit /set id device value` -/
def setDevice (id value : Text) (w : World) : World :=
  { w with entries := w.entries.map fun e => if e.id = id then { e with device := some value } else e }

/-- `bcdedit /set id path value` -/
def setPath (id value : Text) (w : World) : World :=
  { w with entries := w.entries.map fun e => if e.id = id then { e with path := some value } else e }

/-- `bcdedit /displayorder id /addlast` -/
def addLast (id : Text) (w : World) : World := { w with displayOrder := w.displayOrder ++ [id] }

/-- `bcdedit /timeout seconds` -/
def setTimeout (seconds : Text) (w : World) : World := { w with timeout := some seconds }

/-- `bcdedit /create /d description /application bootsector` -/
def create (description : Text) (c : Create) (w : World) : World :=
  match c with
  | .created id _ _ _ => { w with entries := w.entries ++ [{ id, description }] }
  | .failed _ => w

/-- `bcdedit /delete id /f` -/
def delete (id : Text) (w : World) : World :=
  { w with
    entries := w.entries.filter (·.id ≠ id)
    displayOrder := w.displayOrder.filter (· ≠ id) }

def setValue (id : Text) (w : World) : World := { w with vistaBootDrive := some id }

/-- The value, empty when there is none. -/
def value (w : World) : Text := w.vistaBootDrive.getD []

end World

/-- A command that takes effect or fails. -/
def command (effect : Bool) (f : World → World) (k : Prog Unit Err World) : Prog Unit Err World :=
  .update (if effect then f else id) k

def Info.description (info : Info) : Text :=
  info.choose info.distroName (info.distroName ++ " LiveCD".toList)

/-- `join_path(self.info.target_dir, 'winboot', …)[2:]` -/
def Info.mbrPath (info : Info) : Text :=
  (info.targetDir ++ "\\winboot\\".toList ++
    info.choose "yldr.mbr".toList "yldrd.mbr".toList).drop 2

/-- `drive.path == "C:" or drive.path == os.getenv('SystemDrive').upper()`; the comparison by `is`
with the object of the system drive holds for no drive of the list -/
def Info.isSystemDrive (info : Info) (drive : Drive) : Bool :=
  drive.path = "C:".toList || drive.path = info.systemDrive.map Char.toUpper

/-- `modify_bcd` from the first `/set` on -/
def configure (info : Info) (c : Commands) (id : Text) : Prog Unit Err World :=
  command c.setDevice (.setDevice id ("partition=".toList ++ info.targetDrive)) <|
  command c.setPath (.setPath id info.mbrPath) <|
  command c.displayOrder (.addLast id) <|
  command c.timeout (.setTimeout "10".toList) <|
  .update (.setValue id) <| .ret none

/-- `modify_bcd` -/
def modifyBcd (info : Info) (drive : Drive) (c : Commands) : Prog Unit Err World :=
  if info.isSystemDrive drive && !c.copies then .raise .files
  else if !c.found then .ret none
  else .read fun w =>
    if w.value ≠ [] then .ret none
    else .update (.create info.description c.create) <|
      match parseId c.create.output with
      | none => .raise .valueError
      | some id => configure info c id

/-- What the commands of `undo_bootloader` do. -/
structure Undo where
  found : Bool := true
  delete : Bool := true
  /-- do `undo_bootini` and the removal of the loader files work on every drive? -/
  files : Bool := true

/-- `undo_bcd` -/
def undoBcd (u : Undo) : Prog Unit Err World :=
  if !u.found then .ret none
  else .read fun w =>
    if w.value = [] then .ret none
    else command u.delete (.delete w.value) <| .update (.setValue []) <| .ret none

/-- `undo_bootloader` -/
def undoBootloader (u : Undo) : Prog Unit Err World :=
  (undoBcd u).bind fun _ => if u.files then .ret none else .raise .files

/-- `modify_bootloader` of a machine of the type `vista` -/
def modifyBootloader (info : Info) (drives : List (Drive × Commands)) : Prog Unit Err World :=
  Bootloader.modify (some .vista) (fun _ _ => .ret none) (modifyBcd info) drives

/-! ## Runs -/

inductive Action where
  | modify (drives : List (Drive × Commands))
  | undo (u : Undo)

/-- A run of `modify_bootloader` or of `undo_bootloader` as a task of a list. -/
def Action.exec (info : Info) : Action → World → World
  | .modify drives, w => ((modifyBootloader info drives).eval true true w).world
  | .undo u, w => ((undoBootloader u).eval true true w).world

def run (info : Info) (w : World) (actions : List Action) : World :=
  actions.foldl (fun w a => a.exec info w) w

/-- There is at most one entry, and the value is empty unless it names the entry. -/
structure Consistent (w : World) : Prop where
  atMostOne : w.entries.length ≤ 1
  value_ne_nil : w.value ≠ [] ↔ w.entries ≠ []
  names : ∀ e ∈ w.entries, w.vistaBootDrive = some e.id

/-- A `/create` that fails does not print an id. -/
def Create.Honest : Create → Prop
  | .created .. => True
  | .failed output => parseId output = none ∨ parseId output = some []

/-- `bcdedit` does its part: a `/delete` that is issued takes effect. -/
def Action.Effective (w : World) : Action → Prop
  | .modify drives => ∀ d ∈ drives, d.2.create.Honest
  | .undo u => u.found → w.value ≠ [] → u.delete

/-- The ids of the entries; all that the registry value has to do with. -/
def World.ids (w : World) : List Text := w.entries.map (·.id)

theorem consistent_iff {w : World} : Consistent w ↔
    w.ids = [] ∧ w.value = [] ∨ ∃ id, id ≠ [] ∧ w.ids = [id] ∧ w.vistaBootDrive = some id := by
  constructor
  · rintro ⟨h₁, h₂, h₃⟩
    rcases he : w.entries with _ | ⟨e, _ | ⟨e', es⟩⟩
    · exact .inl ⟨by simp [World.ids, he], by simpa [he] using h₂⟩
    · have hv := h₃ e (by simp [he])
      exact .inr ⟨e.id, by simpa [World.value, hv, he] using h₂, by simp [World.ids, he], hv⟩
    · simp [he] at h₁
  · rintro (⟨hi, hv⟩ | ⟨id, hid, hi, hv⟩)
    · have he : w.entries = [] := by simpa [World.ids] using hi
      exact ⟨by simp [he], by simp [he, hv], by simp [he]⟩
    · obtain ⟨e, he, rfl⟩ := List.map_eq_singleton_iff.mp hi
      exact ⟨by simp [he], by simp [he, World.value, hv, hid], by simp [he, hv]⟩

theorem World.ids_setDevice (id value : Text) (w : World) : (w.setDevice id value).ids = w.ids := by
  simp only [ids, setDevice, List.map_map]
  exact List.map_congr_left fun e _ => by rw [Function.comp_apply]; split <;> rfl

theorem World.ids_setPath (id value : Text) (w : World) : (w.setPath id value).ids = w.ids := by
  simp only [ids, setPath, List.map_map]
  exact List.map_congr_left fun e _ => by rw [Function.comp_apply]; split <;> rfl

/-- A command that keeps the ids, before the rest of a function. -/
theorem ids_command {f : World → World} (hf : ∀ w, (f w).ids = w.ids) {k : Prog Unit Err World}
    (hk : ∀ w, (k.eval true true w).world.ids = w.ids) (effect : Bool) (w : World) :
    ((command effect f k).eval true true w).world.ids = w.ids := by
  rw [command, Prog.eval_update, hk]
  cases effect
  · rfl
  · exact hf w

theorem ids_configure (info : Info) (c : Commands) (id : Text) (w : World) :
    ((configure info c id).eval true true w).world.ids = w.ids := by
  have hlast (w : World) : (w.addLast id).ids = w.ids := rfl
  have htimeout (w : World) : (w.setTimeout "10".toList).ids = w.ids := rfl
  refine ids_command (World.ids_setDevice _ _) (fun w => ?_) ..
  refine ids_command (World.ids_setPath _ _) (fun w => ?_) ..
  refine ids_command hlast (fun w => ?_) ..
  exact ids_command htimeout (fun w => rfl) ..

theorem vistaBootDrive_configure (info : Info) (c : Commands) (id : Text) (w : World) :
    ((configure info c id).eval true true w).world.vistaBootDrive = some id := rfl

/-- What `modify_bcd` can do: nothing, or create an entry and store its id, or fail to create one
and store what it takes for an id. -/
theorem modifyBcd_cases (info : Info) (drive : Drive) (c : Commands) (w : World) :
    let w' := ((modifyBcd info drive c).eval true true w).world
    w' = w ∨ w.value = [] ∧
      ((∃ id output hid hout, c.create = .created id output hid hout ∧
          w'.vistaBootDrive = some id ∧ w'.ids = w.ids ++ [id]) ∨
        ∃ output id, c.create = .failed output ∧ parseId output = some id ∧
          w'.vistaBootDrive = some id ∧ w'.ids = w.ids) := by
  unfold modifyBcd
  split
  · exact .inl rfl
  split
  · exact .inl rfl
  rw [Prog.eval_read]
  split
  · exact .inl rfl
  next hv =>
  rw [Prog.eval_update]
  have hv : w.value = [] := Decidable.not_not.mp hv
  cases hc : c.create with
  | created id output hid hout =>
    simp only [Create.output, hout]
    refine .inr ⟨hv, .inl ⟨id, output, hid, hout, rfl, vistaBootDrive_configure .., ?_⟩⟩
    rw [ids_configure]
    simp [World.ids, World.create]
  | failed output =>
    cases hp : parseId output with
    | none =>
      simp only [Create.output, hp]
      exact .inl rfl
    | some id =>
      simp only [Create.output, hp]
      exact .inr ⟨hv, .inr ⟨output, id, rfl, hp, vistaBootDrive_configure .., ids_configure ..⟩⟩

theorem Consistent.modifyBcd {w : World} (h : Consistent w) (info : Info) (drive : Drive)
    {c : Commands} (hc : c.create.Honest) :
    Consistent ((modifyBcd info drive c).eval true true w).world := by
  rcases modifyBcd_cases info drive c w with hw | ⟨hv, hw⟩
  · rwa [hw]
  have hi : w.ids = [] := by
    rcases consistent_iff.mp h with ⟨hi, -⟩ | ⟨id, hid, -, hn⟩
    · exact hi
    · simp [World.value, hn, hid] at hv
  rw [consistent_iff]
  rcases hw with ⟨id, output, hid, hout, -, hn, hi'⟩ | ⟨output, id, hc', hp, hn, hi'⟩
  · exact .inr ⟨id, hid, by rw [hi', hi, List.nil_append], hn⟩
  · rw [hc'] at hc
    obtain rfl : id = [] := by rcases hc with hc | hc <;> simp_all
    exact .inl ⟨hi'.trans hi, by simp [World.value, hn]⟩

theorem world_undoBootloader (u : Undo) (w : World) :
    ((undoBootloader u).eval true true w).world =
      if u.found ∧ w.value ≠ [] then
        (if u.delete then w.delete w.value else w).setValue []
      else w := by
  have hfiles (o : Prog.Outcome Unit Err World) :
      (o.andThen fun _ => if u.files then .ret none else .raise .files).world = o.world := by
    unfold Prog.Outcome.andThen
    split
    · split <;> rfl
    · rfl
  rw [undoBootloader, Prog.eval_bind, hfiles, undoBcd]
  cases u.found with
  | false => simp
  | true =>
    by_cases hv : w.value = []
    · simp [hv]
    · cases hd : u.delete <;> simp [hv, command]

/-- After `undo_bootloader` the state is consistent exactly when the `/delete`, if one was issued,
took effect. -/
theorem consistent_undo_iff {w : World} (h : Consistent w) (info : Info) (u : Undo) :
    Consistent ((Action.undo u).exec info w) ↔ (Action.undo u).Effective w := by
  rw [Action.exec, world_undoBootloader, Action.Effective]
  split
  · next hu =>
    obtain ⟨hf, hv⟩ := hu
    obtain ⟨id, hid, hi, hn⟩ := (consistent_iff.mp h).resolve_left fun h => hv h.2
    have hval : w.value = id := by simp [World.value, hn]
    simp only [hf, hv, ne_eq, not_false_eq_true, forall_const]
    cases hd : u.delete with
    | true =>
      refine ⟨fun _ => rfl, fun _ => consistent_iff.mpr (.inl ⟨?_, rfl⟩)⟩
      obtain ⟨e, he, hid'⟩ := List.map_eq_singleton_iff.mp hi
      simp [World.ids, World.setValue, World.delete, he, hid', hval]
    | false =>
      refine ⟨fun hc => ?_, fun h => by simp at h⟩
      rcases consistent_iff.mp hc with ⟨hc, -⟩ | ⟨id', hid', -, hc⟩
      · exact absurd (hi.symm.trans hc) (by simp)
      · exact absurd hc (by simp [World.setValue, hid'.symm])
  · next hu =>
    exact ⟨fun _ hf hv => (hu ⟨hf, hv⟩).elim, fun _ => h⟩

theorem Consistent.exec {w : World} (h : Consistent w) (info : Info) {a : Action}
    (ha : a.Effective w) : Consistent (a.exec info w) := by
  cases a with
  | modify drives =>
    exact Bootloader.modify_vista_keeps drives (fun d hd w hw => hw.modifyBcd info d.1 (ha d hd)) h
  | undo u => exact (consistent_undo_iff h info u).mpr ha

/-- In a run whose `bcdedit` commands are effective the state is consistent after every action. -/
theorem consistent_run (info : Info) (w : World) (actions : List Action)
    (he : w.entries = []) (hv : w.value = [])
    (ha : ∀ i (a : Action), actions[i]? = some a → a.Effective (run info w (actions.take i))) (n : Nat) :
    Consistent (run info w (actions.take n)) := by
  induction n with
  | zero => exact consistent_iff.mpr (.inl ⟨by simp [run, World.ids, he], hv⟩)
  | succ n ih =>
    rw [List.take_add_one]
    cases hn : actions[n]? with
    | none => simpa [run] using ih
    | some a =>
      rw [run, List.foldl_append]
      exact ih.exec info (ha n a hn)

private def info : Info where
  runTask := none
  flag := true
  distroName := "StartOS".toList
  targetDir := "C:\\startos-loop".toList
  targetDrive := "C:".toList
  systemDrive := "C:".toList

private def empty : World :=
  { entries := [], displayOrder := [], timeout := none, vistaBootDrive := none }

private def systemDrive : Drive := { path := "C:".toList, type := .hd }

private def creates1 : Commands :=
  { create := .created "{1}".toList "The entry {1} was created".toList (by decide) (by decide) }

private def creates2 : Commands :=
  { create := .created "{2}".toList "The entry {2} was created".toList (by decide) (by decide) }

/-- Installing, uninstalling and installing again, on two drives. -/
theorem consistent_run_reinstalled :
    Consistent (run info empty [.modify [(systemDrive, creates1), (systemDrive, creates2)],
      .undo {}, .modify [(systemDrive, creates2)]]) := by
  refine consistent_run info empty [.modify [(systemDrive, creates1), (systemDrive, creates2)],
    .undo {}, .modify [(systemDrive, creates2)]] rfl rfl ?_ 3
  intro i a ha
  match i with
  | 0 | 2 =>
    obtain rfl := Option.some.inj ha
    simp [Action.Effective, creates1, creates2, Create.Honest]
  | 1 =>
    obtain rfl := Option.some.inj ha
    exact fun _ _ => rfl

/-- A `/delete` that fails: the value is cleared all the same, so that the entry is forgotten and
the next installation creates a second one. -/
theorem undo_forgets_entry :
    ∃ info w actions, World.entries w = [] ∧ w.value = [] ∧
      ¬ Consistent (run info w (actions.take 2)) ∧ (run info w actions).entries.length = 2 := by
  refine ⟨info, empty, [.modify [(systemDrive, creates1)], .undo { delete := false },
    .modify [(systemDrive, creates2)]], rfl, rfl, fun h => ?_, by decide⟩
  exact absurd (h.value_ne_nil.mpr (by decide)) (by decide)

end Swinst.Bcd
