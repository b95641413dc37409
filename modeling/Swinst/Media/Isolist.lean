import Mathlib.Data.List.Pairwise
import Swinst.Data.Unicode
import Swinst.Media.Distro

/-! `parse_isolist` of `backends/common/backend.py`: the distros of `isolist.ini`, sorted by their `ordering`, and
the searches that try them in this order. -/

namespace Swinst

open Text

/-- `dict(isolist.items(distro))` -/
abbrev Kargs := List (Text × Text)

/-- A distro with the attributes that a search on a medium does not need -/
structure ListedDistro extends Distro where
  version : Text
  packages : Text
  minDiskSpaceMb : Int
  minMemoryMb : Int
  ordering : Text
  website : Text
  support : Text
  installationDir : Text

namespace ListedDistro

/-- The arguments of `Distro.__init__` without `backend` -/
def required : List Text :=
  ["name", "version", "kernel", "initrd", "info_file", "arch", "metalink", "metalink2", "packages", "size",
    "md5sums", "files_to_check", "metalink_md5sums", "metalink_md5sums_signature", "ordering", "website", "support",
    "min_disk_space_mb", "min_memory_mb", "installation_dir"].map String.toList

def optional : List Text := ["min_iso_size", "max_iso_size"].map String.toList

/-- `int(s)` -/
def int (s : Text) : Except PyError Int := (Unicode.ascii.int? s).elim (.error .valueError) .ok

/-- `s and int(s) or 0` -/
def intOr0 (s : Text) : Except PyError Int := if s.isEmpty then .ok 0 else int s

/-- Python calls `__init__` with these arguments, and `backend`. -/
def accepts (kargs : Kargs) : Bool :=
  (kargs.all fun item => item.1 == "backend".toList || (required ++ optional).contains item.1) &&
    required.all fun key => (kargs.lookup key).isSome

/-- An argument that is there -/
def arg (kargs : Kargs) (key : String) : Text := (kargs.lookup key.toList).getD []

/-- `Distro.__init__`, for the object with an identity -/
def init (h : Platform) (id : Nat) (kargs : Kargs) : Except PyError ListedDistro :=
  if !accepts kargs then .error .typeError
  else do
    let size ← intOr0 (arg kargs "size")
    let minIsoSize ← (kargs.lookup "min_iso_size".toList).elim (.ok 0) intOr0
    let maxIsoSize ← (kargs.lookup "max_iso_size".toList).elim (.ok 0) intOr0
    let minDiskSpaceMb ← int (arg kargs "min_disk_space_mb")
    let minMemoryMb ← int (arg kargs "min_memory_mb")
    return {
      id
      name := arg kargs "name"
      version := arg kargs "version"
      arch := arg kargs "arch"
      kernel := h.normpath (arg kargs "kernel")
      initrd := h.normpath (arg kargs "initrd")
      md5sums := h.normpath (arg kargs "md5sums")
      infoFile := h.normpath (arg kargs "info_file")
      size
      minIsoSize
      maxIsoSize
      minDiskSpaceMb
      minMemoryMb
      metalinkMd5sums := arg kargs "metalink_md5sums"
      metalinkMd5sumsSignature := arg kargs "metalink_md5sums_signature"
      metalinkUrl := arg kargs "metalink"
      metalinkUrl2 := arg kargs "metalink2"
      packages := arg kargs "packages"
      ordering := arg kargs "ordering"
      website := arg kargs "website"
      support := arg kargs "support"
      installationDir := arg kargs "installation_dir"
      filesToCheck := ((arg kargs "files_to_check").splitOn ',').map fun f => h.normpath (lower (strip f)) }

/-- `s < t` for strings -/
def less : (s t : Text) → Bool
  | _, [] => false
  | [], _ :: _ => true
  | c :: s, d :: t => c.toNat < d.toNat || (c.toNat = d.toNat && less s t)

/-- `compfunc` -/
def compfunc (x y : ListedDistro) : Int :=
  if x.ordering = y.ordering then 0 else if less y.ordering x.ordering then 1 else -1

end ListedDistro

/-- The distros of the sections, in the order in which the parser gives these -/
def initDistros (h : Platform) : (id : Nat) → List Kargs → Except PyError (List ListedDistro)
  | _, [] => .ok []
  | id, kargs :: sections => do
    let distro ← ListedDistro.init h id kargs
    return distro :: (← initDistros h (id + 1) sections)

/-- `parse_isolist`, for the sections that the parser has found -/
def parseIsolist (h : Platform) (sections : List Kargs) : Except PyError (List ListedDistro) := do
  return (← initDistros h 0 sections).mergeSort fun x y => ListedDistro.compfunc x y ≤ 0

/-! `find_any_cd` and `find_any_iso`. In one round each distro is asked once: `valid` gives the answers of
`is_valid_cd` or `is_valid_iso`, with `check_arch`. -/

/-- For each path, `for distro in self.info.distros` -/
def findAny (valid : Text → ListedDistro → Except PyError Bool) (distros : List ListedDistro) :
    (paths : List Text) → Except PyError (Option (Text × ListedDistro))
  | [] => .ok none
  | path :: paths => do
    match ← distros.findM? (valid path) with
    | some distro => return some (path, distro)
    | none => findAny valid distros paths

/-- `find_any_cd`, where `paths` are those of `get_cd_search_paths` -/
def findAnyCd (h : Platform) (valid : Text → ListedDistro → Except PyError Bool) (distros : List ListedDistro)
    (paths : List Text) : Except PyError (Option (Text × ListedDistro)) :=
  findAny valid distros (paths.map h.abspath)

/-- The ISO files that `glob.glob` finds below `get_usb_search_paths`; of one path, the latest first -/
def usbIsos (glob : Text → List Text) (getmtime : Text → Int) (paths : List Text) : List Text :=
  paths.flatMap fun path => (glob path).mergeSort fun a b => getmtime b ≤ getmtime a

/-- `find_any_iso`, where `isoPath` is `info.iso_path` if that exists. The last part of the result is `info.cd_path`. -/
def findAnyIso (glob : Text → List Text) (getmtime : Text → Int) (valid : Text → ListedDistro → Except PyError Bool)
    (distros : List ListedDistro) (isoPath : Option Text) (paths : List Text) (cdPath : Option Text) :
    Except PyError (Option (Text × ListedDistro) × Option Text) := do
  match ← findAny valid distros isoPath.toList with
  | some found => return (some found, none)
  | none => return (← findAny valid distros (usbIsos glob getmtime paths), cdPath)

/-- The number that is written with these digits -/
def natural (s : Text) : Nat := s.foldl (fun n c => 10 * n + (c.toNat - '0'.toNat)) 0

/-- A list that is sorted by one order is sorted by a relation if and only if that holds wherever the order is
strict. -/
theorem pairwise_mergeSort_iff {α : Type} {le : α → α → Bool} {r : α → α → Prop}
    (trans : ∀ a b c, le a b → le b c → le a c) (total : ∀ a b, le a b || le b a)
    (equal : ∀ a b, le a b → le b a → r a b) (l : List α) :
    (l.mergeSort le).Pairwise r ↔ ∀ a ∈ l, ∀ b ∈ l, ¬ le b a → r a b := by
  have hsorted := List.pairwise_mergeSort trans total l
  constructor
  · intro h a ha b hb hba
    have hne : a ≠ b := by
      rintro rfl
      exact hba (by simpa using total a a)
    have hsymm : Std.Symm fun a b => (le a b = true ∧ r a b) ∨ (le b a = true ∧ r b a) := ⟨fun _ _ => Or.symm⟩
    have hboth : (l.mergeSort le).Pairwise fun a b => (le a b = true ∧ r a b) ∨ (le b a = true ∧ r b a) :=
      (hsorted.and h).imp .inl
    rcases hboth.forall (List.mem_mergeSort.mpr ha) (List.mem_mergeSort.mpr hb) hne with h | h
    · exact h.2
    · exact (hba h.1).elim
  · intro h
    refine hsorted.imp_of_mem fun {a b} ha hb hab => ?_
    by_cases hba : le b a
    · exact equal a b hab hba
    · exact h a (List.mem_mergeSort.mp ha) b (List.mem_mergeSort.mp hb) hba

namespace ListedDistro

variable {h : Platform} {x y z : ListedDistro} {s t : Text}

theorem less_cons_iff {c d : Char} :
    less (c :: s) (d :: t) = true ↔ c.toNat < d.toNat ∨ c.toNat = d.toNat ∧ less s t = true := by
  simp [less]

theorem less_asymm (h : less s t = true) : less t s = false := by
  induction s generalizing t with
  | nil => cases t <;> rfl
  | cons c s ih =>
    cases t with
    | nil => cases h
    | cons d t =>
      rw [← Bool.not_eq_true, less_cons_iff]
      rcases less_cons_iff.mp h with hlt | ⟨heq, h⟩
      · omega
      · rw [ih h]
        simp
        omega

/-- What is less is on one side of any text. -/
theorem less_or_less (h : less s t = true) (u : Text) : less s u = true ∨ less u t = true := by
  induction s generalizing t u with
  | nil =>
    cases u with
    | nil => exact .inr h
    | cons e u => exact .inl rfl
  | cons c s ih =>
    cases t with
    | nil => cases h
    | cons d t =>
      cases u with
      | nil => exact .inr rfl
      | cons e u =>
        rw [less_cons_iff, less_cons_iff]
        rcases less_cons_iff.mp h with hlt | ⟨heq, h⟩
        · omega
        · rcases ih h u with h | h
          · simp only [h, and_true]
            omega
          · simp only [h, and_true]
            omega

theorem eq_of_not_less (hst : less s t = false) (hts : less t s = false) : s = t := by
  induction s generalizing t with
  | nil =>
    cases t with
    | nil => rfl
    | cons d t => cases hst
  | cons c s ih =>
    cases t with
    | nil => cases hts
    | cons d t =>
      rw [← Bool.not_eq_true, less_cons_iff] at hst hts
      have hcd : c.toNat = d.toNat := by omega
      have hs : less s t = false := Bool.eq_false_iff.mpr fun h => hst (.inr ⟨hcd, h⟩)
      have ht : less t s = false := Bool.eq_false_iff.mpr fun h => hts (.inr ⟨hcd.symm, h⟩)
      rw [Char.toNat_inj.mp hcd, ih hs ht]

theorem less_self (s : Text) : less s s = false := by
  cases hless : less s s with
  | false => rfl
  | true => exact hless ▸ less_asymm hless

theorem compfunc_le_zero_iff : compfunc x y ≤ 0 ↔ less y.ordering x.ordering = false := by
  rw [compfunc]
  split
  · next heq => simp [heq, less_self]
  · split
    · next hlt => simp [hlt]
    · next hlt => simp [hlt]

theorem compfunc_trans (hxy : compfunc x y ≤ 0) (hyz : compfunc y z ≤ 0) : compfunc x z ≤ 0 := by
  rw [compfunc_le_zero_iff] at *
  rw [← Bool.not_eq_true]
  intro hlt
  rcases less_or_less hlt y.ordering with h | h
  · exact Bool.false_ne_true (hyz.symm.trans h)
  · exact Bool.false_ne_true (hxy.symm.trans h)

theorem compfunc_total (x y : ListedDistro) : compfunc x y ≤ 0 ∨ compfunc y x ≤ 0 := by
  rw [compfunc_le_zero_iff, compfunc_le_zero_iff]
  cases hlt : less y.ordering x.ordering with
  | false => exact .inl rfl
  | true => exact .inr (less_asymm hlt)

theorem compfunc_antisymm (hxy : compfunc x y ≤ 0) (hyx : compfunc y x ≤ 0) : x.ordering = y.ordering :=
  eq_of_not_less (compfunc_le_zero_iff.mp hyx) (compfunc_le_zero_iff.mp hxy)

theorem ordering_of_init {id : Nat} {kargs : Kargs} (hinit : init h id kargs = .ok x) :
    kargs.lookup "ordering".toList = some x.ordering := by
  rw [init] at hinit
  split at hinit
  · cases hinit
  next haccepts =>
  obtain ⟨size, -, hinit⟩ := bind_eq_ok hinit
  obtain ⟨minIsoSize, -, hinit⟩ := bind_eq_ok hinit
  obtain ⟨maxIsoSize, -, hinit⟩ := bind_eq_ok hinit
  obtain ⟨minDiskSpaceMb, -, hinit⟩ := bind_eq_ok hinit
  obtain ⟨minMemoryMb, -, hinit⟩ := bind_eq_ok hinit
  have hx : arg kargs "ordering" = x.ordering := by rw [← Except.ok.inj hinit]
  have hordering : (kargs.lookup "ordering".toList).isSome := by
    rw [Bool.not_eq_true', Bool.not_eq_false, accepts, Bool.and_eq_true] at haccepts
    exact List.all_eq_true.mp haccepts.2 _ (by decide)
  obtain ⟨ordering, hordering⟩ := Option.isSome_iff_exists.mp hordering
  rw [hordering, ← hx, arg, hordering, Option.getD_some]

end ListedDistro

variable {h : Platform} {id : Nat} {sections : List Kargs} {distros : List ListedDistro}

/-- The values of a key in the sections that have it -/
def values (sections : List Kargs) (key : String) : List Text := sections.filterMap (·.lookup key.toList)

theorem orderings_of_initDistros (hinit : initDistros h id sections = .ok distros) :
    distros.map (·.ordering) = values sections "ordering" := by
  induction sections generalizing id distros with
  | nil =>
    obtain rfl := Except.ok.inj hinit
    rfl
  | cons kargs sections ih =>
    rw [initDistros] at hinit
    obtain ⟨distro, hdistro, hinit⟩ := bind_eq_ok hinit
    obtain ⟨rest, hrest, hinit⟩ := bind_eq_ok hinit
    obtain rfl := Except.ok.inj hinit
    rw [List.map_cons, ih hrest, values, values, List.filterMap_cons, ListedDistro.ordering_of_init hdistro]

/-! ## The distro that is found -/

variable {valid : Text → ListedDistro → Except PyError Bool} {sorted : List ListedDistro}

/-- No distro that is valid for the path has a smaller number than the one that is found. -/
structure LeastValid (valid : Text → ListedDistro → Except PyError Bool) (distros : List ListedDistro)
    (found : Text × ListedDistro) : Prop where
  accepted : valid found.1 found.2 = .ok true
  least : ∀ y ∈ distros, valid found.1 y = .ok true → natural found.2.ordering ≤ natural y.ordering

/-- What is found is valid, and nothing before it is. -/
theorem findM?_eq_some {α : Type} {p : α → Except PyError Bool} {l : List α} {a : α}
    (hfind : l.findM? p = .ok (some a)) :
    ∃ before after, l = before ++ a :: after ∧ p a = .ok true ∧ ∀ b ∈ before, p b = .ok false := by
  induction l with
  | nil => cases hfind
  | cons b l ih =>
    rw [List.findM?] at hfind
    obtain ⟨answer, hanswer, hfind⟩ := bind_eq_ok hfind
    cases answer with
    | true =>
      obtain rfl := Option.some.inj (Except.ok.inj hfind)
      exact ⟨[], l, rfl, hanswer, by simp⟩
    | false =>
      obtain ⟨before, after, rfl, ha, hbefore⟩ := ih hfind
      exact ⟨b :: before, after, rfl, ha, List.forall_mem_cons.mpr ⟨hanswer, hbefore⟩⟩

/-- In a sorted list, what is found comes before everything else that could be. -/
theorem rel_of_findM? {α : Type} {p : α → Except PyError Bool} {r : α → α → Prop} (refl : ∀ a, r a a) {l : List α}
    (hsorted : l.Pairwise r) {a b : α} (hfind : l.findM? p = .ok (some a)) (hb : b ∈ l) (hvalid : p b = .ok true) :
    r a b := by
  obtain ⟨before, after, rfl, -, hbefore⟩ := findM?_eq_some hfind
  rcases List.mem_append.mp hb with hb | hb
  · cases (hbefore b hb).symm.trans hvalid
  · rcases List.mem_cons.mp hb with rfl | hb
    · exact refl b
    · exact (List.pairwise_cons.mp (List.pairwise_append.mp hsorted).2.1).1 b hb

theorem findAny_least (hperm : sorted.Perm distros)
    (hsorted : sorted.Pairwise fun x y => natural x.ordering ≤ natural y.ordering) {paths : List Text}
    {found : Text × ListedDistro} (hfind : findAny valid sorted paths = .ok (some found)) :
    LeastValid valid distros found := by
  induction paths with
  | nil => cases hfind
  | cons path paths ih =>
    rw [findAny] at hfind
    obtain ⟨answer, hanswer, hfind⟩ := bind_eq_ok hfind
    cases answer with
    | none => exact ih hfind
    | some x =>
      obtain rfl := Option.some.inj (Except.ok.inj hfind)
      obtain ⟨before, after, -, hvalid, -⟩ := findM?_eq_some hanswer
      refine ⟨hvalid, fun y hy hvalid => ?_⟩
      exact rel_of_findM? (r := fun x y => natural x.ordering ≤ natural y.ordering) (fun _ => Nat.le_refl _)
        hsorted hanswer (hperm.mem_iff.mpr hy) hvalid

theorem findAnyIso_least (hperm : sorted.Perm distros)
    (hsorted : sorted.Pairwise fun x y => natural x.ordering ≤ natural y.ordering)
    {glob : Text → List Text} {getmtime : Text → Int} {isoPath cdPath cdPath' : Option Text} {paths : List Text}
    {found : Text × ListedDistro}
    (hfind : findAnyIso glob getmtime valid sorted isoPath paths cdPath = .ok (some found, cdPath')) :
    LeastValid valid distros found := by
  rw [findAnyIso] at hfind
  obtain ⟨answer, hanswer, hfind⟩ := bind_eq_ok hfind
  cases answer with
  | some found' =>
    obtain ⟨hfound, -⟩ := Prod.mk.inj (Except.ok.inj hfind)
    exact findAny_least hperm hsorted (hanswer.trans (congrArg Except.ok hfound))
  | none =>
    obtain ⟨answer', hanswer', hfind⟩ := bind_eq_ok hfind
    obtain ⟨rfl, -⟩ := Prod.mk.inj (Except.ok.inj hfind)
    exact findAny_least hperm hsorted hanswer'

/-- The texts of the orderings compare as the numbers do. -/
def OrderingsAgree (sections : List Kargs) : Prop :=
  ∀ a ∈ values sections "ordering", ∀ b ∈ values sections "ordering",
    ListedDistro.less a b = true → natural a ≤ natural b

theorem orderingsAgree_iff (hinit : initDistros h id sections = .ok distros) :
    OrderingsAgree sections ↔ ∀ x ∈ distros, ∀ y ∈ distros,
      ListedDistro.less x.ordering y.ordering = true → natural x.ordering ≤ natural y.ordering := by
  rw [OrderingsAgree, ← orderings_of_initDistros hinit, List.forall_mem_map]
  exact forall₂_congr fun x _ => List.forall_mem_map

/-- Where the searches find the least numbers, whatever is valid, the texts compare as the numbers: of two distros,
that with the lesser text is found when only these two are valid. -/
theorem orderingsAgree_of_least (hinit : initDistros h id sections = .ok distros) (hperm : sorted.Perm distros)
    (hsorted : sorted.Pairwise fun x y => ListedDistro.compfunc x y ≤ 0)
    (hleast : ∀ valid x, sorted.findM? (valid []) = .ok (some x) → LeastValid valid distros ([], x)) :
    OrderingsAgree sections := by
  classical
  rw [orderingsAgree_iff hinit]
  intro x hx y hy hless
  let valid : Text → ListedDistro → Except PyError Bool := fun _ z => .ok (decide (z = x ∨ z = y))
  have hfind : sorted.findM? (valid []) = .ok (sorted.find? fun z => decide (z = x ∨ z = y)) :=
    List.findM?_pure (fun z => decide (z = x ∨ z = y)) sorted
  obtain ⟨z, hz⟩ : ∃ z, sorted.find? (fun z => decide (z = x ∨ z = y)) = some z := by
    rw [← Option.isSome_iff_exists, List.find?_isSome]
    exact ⟨x, hperm.mem_iff.mpr hx, by simp⟩
  rw [hz] at hfind
  have hzxy : z = x ∨ z = y := by simpa using List.find?_some hz
  rcases hzxy with rfl | rfl
  · exact (hleast valid z hfind).least y hy (by simp [valid])
  · have hzx : ListedDistro.compfunc z x ≤ 0 := by
      refine rel_of_findM? (fun a => ?_) hsorted hfind (hperm.mem_iff.mpr hx) (by simp [valid])
      exact (or_self_iff.mp (ListedDistro.compfunc_total a a))
    rw [ListedDistro.compfunc_le_zero_iff, hless] at hzx
    cases hzx

theorem findAnyCd_least_iff (hinit : initDistros h id sections = .ok distros) (hperm : sorted.Perm distros)
    (hsorted : sorted.Pairwise fun x y => ListedDistro.compfunc x y ≤ 0)
    (hnumbers : (sorted.Pairwise fun x y => natural x.ordering ≤ natural y.ordering) ↔ OrderingsAgree sections) :
    (∀ valid paths found, findAnyCd h valid sorted paths = .ok (some found) → LeastValid valid distros found) ↔
      OrderingsAgree sections := by
  constructor
  · intro hleast
    refine orderingsAgree_of_least hinit hperm hsorted fun valid x hfind => ?_
    have hfound : findAnyCd h (fun _ => valid []) sorted [[]] = .ok (some (h.abspath [], x)) := by
      rw [findAnyCd, List.map_singleton, findAny, hfind]
      rfl
    obtain ⟨hvalid, hx⟩ := hleast _ _ _ hfound
    exact ⟨hvalid, hx⟩
  · exact fun hagree _ _ _ hfind => findAny_least hperm (hnumbers.mpr hagree) hfind

theorem findAnyIso_least_iff (hinit : initDistros h id sections = .ok distros) (hperm : sorted.Perm distros)
    (hsorted : sorted.Pairwise fun x y => ListedDistro.compfunc x y ≤ 0)
    (hnumbers : (sorted.Pairwise fun x y => natural x.ordering ≤ natural y.ordering) ↔ OrderingsAgree sections) :
    (∀ glob getmtime valid isoPath paths cdPath found cdPath',
      findAnyIso glob getmtime valid sorted isoPath paths cdPath = .ok (some found, cdPath') →
        LeastValid valid distros found) ↔ OrderingsAgree sections := by
  constructor
  · intro hleast
    refine orderingsAgree_of_least hinit hperm hsorted fun valid x hfind => ?_
    refine hleast (fun _ => []) (fun _ => 0) valid (some []) [] none ([], x) none ?_
    rw [findAnyIso, Option.toList_some, show findAny valid sorted [[]] = .ok (some ([], x)) by
      rw [findAny, hfind]; rfl]
    rfl
  · exact fun hagree _ _ _ _ _ _ _ _ hfind => findAnyIso_least hperm (hnumbers.mpr hagree) hfind

/-- `parse_isolist` gives all distros. They are sorted by the numbers in `ordering` if and only if the texts of
these compare as the numbers do, and only then `find_any_cd` and `find_any_iso` find valid distros with the least
numbers. -/
theorem parseIsolist_sorted_iff (h : Platform) (sections : List Kargs) (distros : List ListedDistro)
    (hinit : initDistros h 0 sections = .ok distros) :
    ∃ sorted, parseIsolist h sections = .ok sorted ∧ sorted.Perm distros ∧
      ((sorted.Pairwise fun x y => natural x.ordering ≤ natural y.ordering) ↔ OrderingsAgree sections) ∧
      ((∀ valid paths found, findAnyCd h valid sorted paths = .ok (some found) → LeastValid valid distros found) ↔
        OrderingsAgree sections) ∧
      ((∀ glob getmtime valid isoPath paths cdPath found cdPath',
        findAnyIso glob getmtime valid sorted isoPath paths cdPath = .ok (some found, cdPath') →
          LeastValid valid distros found) ↔ OrderingsAgree sections) := by
  let le x y := decide (ListedDistro.compfunc x y ≤ 0)
  have trans : ∀ x y z, le x y → le y z → le x z := fun x y z hxy hyz =>
    decide_eq_true (ListedDistro.compfunc_trans (of_decide_eq_true hxy) (of_decide_eq_true hyz))
  have total : ∀ x y, le x y || le y x := fun x y => by
    rw [Bool.or_eq_true, decide_eq_true_iff, decide_eq_true_iff]
    exact ListedDistro.compfunc_total x y
  have hperm : (distros.mergeSort le).Perm distros := List.mergeSort_perm _ _
  have hsorted : (distros.mergeSort le).Pairwise fun x y => ListedDistro.compfunc x y ≤ 0 :=
    (List.pairwise_mergeSort trans total distros).imp of_decide_eq_true
  have hnumbers : ((distros.mergeSort le).Pairwise fun x y => natural x.ordering ≤ natural y.ordering) ↔
      OrderingsAgree sections := by
    rw [pairwise_mergeSort_iff trans total, orderingsAgree_iff hinit]
    · refine forall₂_congr fun x _ => forall₂_congr fun y _ => ?_
      rw [decide_eq_true_iff, ListedDistro.compfunc_le_zero_iff, Bool.not_eq_false]
    · intro x y hxy hyx
      rw [ListedDistro.compfunc_antisymm (of_decide_eq_true hxy) (of_decide_eq_true hyx)]
  exact ⟨distros.mergeSort le, by rw [parseIsolist, hinit]; rfl, hperm, hnumbers,
    findAnyCd_least_iff hinit hperm hsorted hnumbers, findAnyIso_least_iff hinit hperm hsorted hnumbers⟩

private def plainPlatform : Platform where
  abspath path := path
  normpath path := path
  list _ := none
  extract _ _ := none
  diskInfoRe _ := none

/-- The section of StartOS, with another `ordering` -/
private def startOS (ordering : String) : Kargs :=
  [("version", "5.1"), ("info_file", ".disk/info"), ("kernel", "casper/vmlinuz"), ("initrd", "casper/initrd.img"),
    ("files_to_check", "casper/filesystem.squashfs"), ("md5sums", "md5sum"), ("metalink_md5sums", "MD5SUMS-metalink"),
    ("metalink_md5sums_signature", "MD5SUMS-metalink.gpg"), ("size", "0"), ("min_iso_size", "100000000"),
    ("max_iso_size", "4800000000"), ("min_disk_space_mb", "3000"), ("min_memory_mb", "256"),
    ("support", "http://www.startos.org"), ("installation_dir", "startos"), ("arch", "i686"), ("name", "StartOS"),
    ("packages", ""), ("metalink", ""), ("metalink2", ""), ("website", ""), ("ordering", ordering)].map
      fun item => (item.1.toList, item.2.toList)

private theorem exists_distros (sections : List Kargs) (orderings : List Text)
    (hread : (initDistros plainPlatform 0 sections).toOption.map (·.map (·.ordering)) = some orderings) :
    ∃ distros, initDistros plainPlatform 0 sections = .ok distros ∧ distros.map (·.ordering) = orderings := by
  cases hinit : initDistros plainPlatform 0 sections with
  | error e => simp [hinit, Except.toOption] at hread
  | ok distros => exact ⟨distros, rfl, by simpa [hinit, Except.toOption] using hread⟩

theorem parseIsolist_one_digit : ∃ distros sorted, initDistros plainPlatform 0 [startOS "2", startOS "1"] = .ok distros ∧
    parseIsolist plainPlatform [startOS "2", startOS "1"] = .ok sorted ∧ sorted.Perm distros ∧
      (sorted.Pairwise fun x y => natural x.ordering ≤ natural y.ordering) ∧
      ∀ valid paths found, findAnyCd plainPlatform valid sorted paths = .ok (some found) →
        LeastValid valid distros found := by
  obtain ⟨distros, hinit, -⟩ :=
    exists_distros [startOS "2", startOS "1"] ["2".toList, "1".toList] (by decide +kernel)
  obtain ⟨sorted, hparse, hperm, hsorted, hcd, -⟩ :=
    parseIsolist_sorted_iff plainPlatform [startOS "2", startOS "1"] distros hinit
  have hagree : OrderingsAgree [startOS "2", startOS "1"] := by
    rw [OrderingsAgree]
    decide
  exact ⟨distros, sorted, hinit, hparse, hperm, hsorted.mpr hagree, hcd.mpr hagree⟩

/-- The tenth distro comes before the ninth. -/
theorem ten_before_nine : ∃ sorted, parseIsolist plainPlatform [startOS "10", startOS "9"] = .ok sorted ∧
    sorted.map (fun distro => natural distro.ordering) = [10, 9] := by
  obtain ⟨distros, hinit, horderings⟩ :=
    exists_distros [startOS "10", startOS "9"] ["10".toList, "9".toList] (by decide +kernel)
  have hsorted : distros.Pairwise fun x y => decide (ListedDistro.compfunc x y ≤ 0) = true := by
    have htexts : (distros.map (·.ordering)).Pairwise fun a b => ListedDistro.less b a = false := by
      rw [horderings]
      decide
    refine (List.pairwise_map.mp htexts).imp fun h => ?_
    exact decide_eq_true (ListedDistro.compfunc_le_zero_iff.mpr h)
  refine ⟨distros, ?_, ?_⟩
  · rw [parseIsolist, hinit]
    exact congrArg Except.ok (List.mergeSort_of_pairwise hsorted)
  · have hnumbers : (distros.map (·.ordering)).map natural = [10, 9] := by
      rw [horderings]
      decide
    rwa [List.map_map] at hnumbers

end Swinst
