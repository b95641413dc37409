import Swinst.Data.Regex
import Swinst.Media.Distro

/-! `disk_info_re` of `backends/common/distro.py`, and the lines of `.disk/info` that it takes apart. -/

namespace Swinst

open Regex

/-- The named groups of `disk_info_re` -/
inductive InfoGroup where
  | name | version | codename | subversion | arch | build
  deriving DecidableEq

/-- `[\w\s-]` -/
def isNameChar (c : Char) : Bool := c.isAlphanum || c == '_' || Text.isSpace c || c == '-'

/-- `[\d.]` -/
def isNumberChar (c : Char) : Bool := c.isDigit || c == '.'

/-! `disk_info_re`, its last part first -/

abbrev InfoRe := Regex Char InfoGroup

/-- ` \((?P<build>[\d.]+)\)` -/
def buildRe : InfoRe :=
  .seq (.lit " (".toList) (.seq (.group .build (.many isNumberChar)) (.lit ")".toList))

/-- ` (?P<arch>i686|amd64|x86_64)` and what follows -/
def archRe : InfoRe :=
  .seq (.lit " ".toList)
    (.seq (.group .arch (.alt (.lit "i686".toList) (.alt (.lit "amd64".toList) (.lit "x86_64".toList)))) buildRe)

/-- `\" - (?P<subversion>[\D]+)` and what follows -/
def subversionRe : InfoRe :=
  .seq (.lit "\" - ".toList) (.seq (.group .subversion (.many fun c => !c.isDigit)) archRe)

/-- ` \"(?P<codename>[\S\s]+)` and what follows -/
def codenameRe : InfoRe :=
  .seq (.lit " \"".toList) (.seq (.group .codename (.many fun _ => true)) subversionRe)

/-- ` (?P<version>[\d.]+)(?: LTS)?` and what follows -/
def versionRe : InfoRe :=
  .seq (.lit " ".toList)
    (.seq (.group .version (.many isNumberChar)) (.seq (.opt (.lit " LTS".toList)) codenameRe))

def diskInfoRe : InfoRe := .seq (.group .name (.many isNameChar)) versionRe

/-- `disk_info_re.match`, with the groups that `parse_isoinfo` reads. They take part in every match. -/
def matchDiskInfo (info : Text) : Option DiskInfo := do
  let m ← diskInfoRe.match? info
  return {
    name := ← m.group .name
    version := ← m.group .version
    subversion := ← m.group .subversion
    arch := ← m.group .arch }

theorem Text.cut_left {c : Char} {w w' v u : Text} (h : w ++ w' = v ++ c :: u) (hc : c ∉ w') :
    ∃ s, w = v ++ c :: s ∧ u = s ++ w' := by
  rcases List.append_eq_append_iff.mp h with ⟨a, rfl, rfl⟩ | ⟨a, rfl, ha⟩
  · exact (hc (by simp)).elim
  · cases a with
    | nil =>
      have ha : c :: u = w' := ha
      exact (hc (ha ▸ List.mem_cons_self)).elim
    | cons d a =>
      obtain ⟨rfl, rfl⟩ := List.cons.inj ha
      exact ⟨a, rfl, rfl⟩

theorem Text.cut_right {c : Char} {w w' v u : Text} (h : w ++ w' = v ++ c :: u) (hc : c ∉ w) :
    ∃ s, v = w ++ s ∧ w' = s ++ c :: u := by
  rcases List.append_eq_append_iff.mp h with ⟨a, rfl, rfl⟩ | ⟨a, rfl, ha⟩
  · exact ⟨a, rfl, rfl⟩
  · cases a with
    | nil => exact ⟨[], by simp, ha.symm⟩
    | cons d a =>
      obtain ⟨rfl, rfl⟩ := List.cons.inj ha
      exact (hc (by simp)).elim

/-- The parts of a line of `.disk/info` -/
structure InfoLine where
  name : Text
  version : Text
  lts : Bool
  codename : Text
  subversion : Text
  arch : Text
  build : Text
  name_ne : name ≠ []
  name_chars : ∀ c ∈ name, isNameChar c
  version_ne : version ≠ []
  version_chars : ∀ c ∈ version, isNumberChar c
  codename_ne : codename ≠ []
  subversion_ne : subversion ≠ []
  subversion_chars : ∀ c ∈ subversion, c.isDigit = false
  subversion_dash : ¬ "\" - ".toList <:+: subversion
  arch_mem : arch = "i686".toList ∨ arch = "amd64".toList ∨ arch = "x86_64".toList
  build_ne : build ≠ []
  build_chars : ∀ c ∈ build, isNumberChar c

namespace InfoLine
variable (i : InfoLine)

def fromBuild : Text := " (".toList ++ (i.build ++ ")".toList)

def fromArch : Text := " ".toList ++ (i.arch ++ i.fromBuild)

def fromSubversion : Text := "\" - ".toList ++ (i.subversion ++ i.fromArch)

def fromCodename : Text := " \"".toList ++ (i.codename ++ i.fromSubversion)

def fromLts : Text := (if i.lts then " LTS".toList else []) ++ i.fromCodename

def fromVersion : Text := " ".toList ++ (i.version ++ i.fromLts)

/-- name, version, optional LTS, codename, subversion, arch and build -/
def line : Text := i.name ++ i.fromVersion

/-! ## Where the parts cannot be cut -/

theorem arch_digit : ∃ w d w', i.arch = w ++ d :: w' ∧ d.isDigit ∧ ' ' ∉ w := by
  rcases i.arch_mem with h | h | h
  · exact ⟨"i".toList, '6', "86".toList, h, by decide, by decide⟩
  · exact ⟨"amd".toList, '6', "4".toList, h, by decide, by decide⟩
  · exact ⟨"x".toList, '8', "6_64".toList, h, by decide, by decide⟩

/-- No word without digits at the beginning of the architecture ends before a space. -/
theorem arch_cut {v u : Text} (h : i.arch ++ i.fromBuild = v ++ ' ' :: u) : ∃ c ∈ v, c.isDigit := by
  obtain ⟨w, d, w', harch, hd, hspace⟩ := i.arch_digit
  rw [harch, List.append_assoc, List.cons_append] at h
  obtain ⟨s, rfl, hs⟩ := Text.cut_right h hspace
  cases s with
  | nil =>
    obtain ⟨rfl, -⟩ := List.cons.inj hs
    cases hd
  | cons c s =>
    obtain ⟨rfl, -⟩ := List.cons.inj hs
    exact ⟨d, by simp, hd⟩

theorem archRe_fails {v t : Text} (h : i.arch ++ i.fromBuild = v ++ t) (hv : ∀ c ∈ v, !c.isDigit) :
    archRe.runs t = [] := by
  apply runs_lit_seq_eq_nil
  rintro u rfl
  obtain ⟨c, hc, hdigit⟩ := i.arch_cut h
  have hnot := hv c hc
  rw [hdigit] at hnot
  cases hnot

theorem quote_not_mem : '"' ∉ i.fromArch := by
  have hbuild : '"' ∉ i.build := fun hmem => by cases i.build_chars _ hmem
  have harch : '"' ∉ i.arch := by
    rcases i.arch_mem with h | h | h <;> rw [h] <;> decide
  simp [fromArch, fromBuild, hbuild, harch]

/-- Behind the codename `" - ` stands nowhere but where the subversion begins, and before the architecture when
the subversion ends so. -/
theorem dash_cut {v u : Text} (h : i.fromSubversion = v ++ ("\" - ".toList ++ u)) (hv : v ≠ []) :
    u = i.arch ++ i.fromBuild := by
  obtain ⟨c, v, rfl⟩ := List.exists_cons_of_ne_nil hv
  have h : " - ".toList ++ i.subversion ++ i.fromArch = v ++ '"' :: (" - ".toList ++ u) := by
    rw [List.append_assoc]
    exact (List.cons.inj h).2
  obtain ⟨s, hquote, hs⟩ := Text.cut_left h i.quote_not_mem
  obtain ⟨w, -, hsub⟩ := Text.cut_right hquote (by decide)
  -- `s` is what follows the quote in the subversion
  have hs : ' ' :: '-' :: ' ' :: u = s ++ i.fromArch := hs
  rcases s with _ | ⟨c₁, _ | ⟨c₂, _ | ⟨c₃, s⟩⟩⟩
  · have harch : i.arch ++ i.fromBuild = ['-'] ++ ' ' :: u := (List.cons.inj hs).2.symm
    obtain ⟨c, hc, hdigit⟩ := i.arch_cut harch
    rw [List.mem_singleton.mp hc] at hdigit
    cases hdigit
  · cases (List.cons.inj (List.cons.inj hs).2).1
  · exact (List.cons.inj (List.cons.inj (List.cons.inj hs).2).2).2
  · obtain ⟨rfl, rfl, rfl, -⟩ : ' ' = c₁ ∧ '-' = c₂ ∧ ' ' = c₃ ∧ _ = _ := by simpa using hs
    refine (i.subversion_dash ⟨w, s, ?_⟩).elim
    rw [hsub, List.append_assoc]
    rfl

theorem subversionRe_fails {v t : Text} (h : i.fromSubversion = v ++ t) (hv : v ≠ []) :
    subversionRe.runs t = [] := by
  apply runs_lit_seq_eq_nil
  rintro u rfl
  obtain rfl := i.dash_cut h hv
  apply runs_many_seq_eq_nil
  intro v t harch _ hdigit
  exact i.archRe_fails harch hdigit

theorem before_quote {c : Char} {s u : Text} (h : i.fromCodename = s ++ ' ' :: c :: u) (hs : '"' ∉ s) :
    c = '"' := by
  have h : ' ' :: '"' :: (i.codename ++ i.fromSubversion) = s ++ ' ' :: c :: u := h
  rcases s with _ | ⟨d, _ | ⟨e, s⟩⟩
  · exact (List.cons.inj (List.cons.inj h).2).1.symm
  · cases (List.cons.inj (List.cons.inj h).2).1
  · obtain ⟨rfl, -⟩ := List.cons.inj (List.cons.inj h).2
    exact (hs (by simp)).elim

/-- The version and what comes before the codename are not cut before a number. -/
theorem number_cut {v u : Text} {c : Char} (h : i.version ++ i.fromLts = v ++ ' ' :: c :: u)
    (hv : ∀ c ∈ v, isNameChar c) : isNumberChar c = false := by
  have hspace : ' ' ∉ i.version := fun hmem => by cases i.version_chars _ hmem
  obtain ⟨s, rfl, hs⟩ := Text.cut_right h hspace
  have hquote : '"' ∉ s := fun hmem => by cases hv _ (List.mem_append_right _ hmem)
  rw [fromLts] at hs
  cases hlts : i.lts with
  | false =>
    rw [hlts] at hs
    rw [i.before_quote hs hquote]
    rfl
  | true =>
    rw [hlts] at hs
    cases s with
    | nil =>
      obtain ⟨rfl, -⟩ := List.cons.inj (List.cons.inj hs).2
      rfl
    | cons d s =>
      have hs : "LTS".toList ++ i.fromCodename = s ++ ' ' :: c :: u := (List.cons.inj hs).2
      obtain ⟨s, rfl, hcodename⟩ := Text.cut_right hs (by decide)
      rw [i.before_quote hcodename (mt (List.mem_append_right _) (mt (List.mem_cons_of_mem d) hquote))]
      rfl

theorem versionRe_fails {v t : Text} (h : i.version ++ i.fromLts = v ++ t) (hv : ∀ c ∈ v, isNameChar c) :
    versionRe.runs t = [] := by
  apply runs_lit_seq_eq_nil
  rintro u rfl
  apply runs_many_seq_eq_nil
  rintro w t rfl hw hnumber
  obtain ⟨c, w, rfl⟩ := List.exists_cons_of_ne_nil hw
  have hnot := i.number_cut h hv
  rw [hnumber c List.mem_cons_self] at hnot
  cases hnot

/-! ## The match -/

theorem first_build : ∃ m, First buildRe i.fromBuild m ∧ m.groups = [(.build, i.build)] := by
  have hend : First (.lit ")".toList) ")".toList ({ taken := ")".toList, rest := [] } : Match Char InfoGroup) :=
    First.lit ")".toList []
  refine ⟨_, First.lit_seq _ (First.many_seq i.build_ne i.build_chars ?_ hend), rfl⟩
  intro v t h hv hnumber
  obtain ⟨c, v, rfl⟩ := List.exists_cons_of_ne_nil hv
  obtain ⟨rfl, -⟩ := List.cons.inj h
  cases hnumber _ List.mem_cons_self

theorem first_arch : ∃ m, First archRe i.fromArch m ∧ m.groups = [(.arch, i.arch), (.build, i.build)] := by
  obtain ⟨m, hm, hgroups⟩ := i.first_build
  have harch : (group .arch (.alt (.lit "i686".toList) (.alt (.lit "amd64".toList) (.lit "x86_64".toList))) :
      InfoRe).runs (i.arch ++ i.fromBuild) =
        [] ++ { taken := i.arch, groups := [(.arch, i.arch)], rest := i.fromBuild } :: [] := by
    rcases i.arch_mem with h | h | h <;> simp [h, runs]
  refine ⟨_, First.lit_seq _ (First.seq harch (fun _ hb => by cases hb) hm), ?_⟩
  exact congrArg (_ :: ·) hgroups

theorem first_subversion : ∃ m, First subversionRe i.fromSubversion m ∧
    m.groups = [(.subversion, i.subversion), (.arch, i.arch), (.build, i.build)] := by
  obtain ⟨m, hm, hgroups⟩ := i.first_arch
  have hchars : ∀ c ∈ i.subversion, !c.isDigit := fun c hc => by simp [i.subversion_chars c hc]
  refine ⟨_, First.lit_seq _ (First.many_seq i.subversion_ne hchars ?_ hm), congrArg (_ :: ·) hgroups⟩
  intro v t h hv hdigit
  obtain ⟨c, v, rfl⟩ := List.exists_cons_of_ne_nil hv
  obtain ⟨-, h⟩ := List.cons.inj h
  exact i.archRe_fails h (List.forall_mem_cons.mp hdigit).2

theorem first_codename : ∃ m, First codenameRe i.fromCodename m ∧
    m.groups = [(.codename, i.codename), (.subversion, i.subversion), (.arch, i.arch), (.build, i.build)] := by
  obtain ⟨m, hm, hgroups⟩ := i.first_subversion
  refine ⟨_, First.lit_seq _ (First.many_seq i.codename_ne (fun _ _ => rfl) ?_ hm), congrArg (_ :: ·) hgroups⟩
  intro v t h hv _
  exact i.subversionRe_fails h hv

theorem first_lts : ∃ m, First (.seq (.opt (.lit " LTS".toList)) codenameRe) i.fromLts m ∧
    m.groups = [(.codename, i.codename), (.subversion, i.subversion), (.arch, i.arch), (.build, i.build)] := by
  obtain ⟨m, hm, hgroups⟩ := i.first_codename
  rw [fromLts]
  cases i.lts with
  | true => exact ⟨_, First.opt_seq (First.lit_seq _ hm), hgroups⟩
  | false =>
    refine ⟨m, First.skip_opt ?_ hm, hgroups⟩
    apply runs_lit_eq_nil
    intro t h
    cases (List.cons.inj (List.cons.inj h).2).1

theorem first_version : ∃ m, First versionRe i.fromVersion m ∧
    m.groups = [(.version, i.version), (.codename, i.codename), (.subversion, i.subversion), (.arch, i.arch),
      (.build, i.build)] := by
  obtain ⟨m, hm, hgroups⟩ := i.first_lts
  refine ⟨_, First.lit_seq _ (First.many_seq i.version_ne i.version_chars ?_ hm), congrArg (_ :: ·) hgroups⟩
  intro v t h hv hnumber
  obtain ⟨c, v, rfl⟩ := List.exists_cons_of_ne_nil hv
  obtain rfl : ' ' = c := by
    rw [fromLts] at h
    split at h <;> exact (List.cons.inj h).1
  cases hnumber _ List.mem_cons_self

/-- The groups of `disk_info_re` that the parts are to be found in -/
def groups : List (InfoGroup × Text) :=
  [(.name, i.name), (.version, i.version), (.codename, i.codename), (.subversion, i.subversion), (.arch, i.arch),
    (.build, i.build)]

theorem first_line : ∃ m, First diskInfoRe i.line m ∧ m.groups = i.groups := by
  obtain ⟨m, hm, hgroups⟩ := i.first_version
  refine ⟨_, First.many_seq i.name_ne i.name_chars ?_ hm, congrArg (_ :: ·) hgroups⟩
  intro v t h hv hname
  obtain ⟨c, v, rfl⟩ := List.exists_cons_of_ne_nil hv
  obtain ⟨-, h⟩ := List.cons.inj h
  exact i.versionRe_fails h (List.forall_mem_cons.mp hname).2

end InfoLine

/-- `parse_isoinfo` finds the parts of the line, and the match cuts the line in no other place. -/
theorem parseIsoinfo_line (h : Platform) (i : InfoLine) :
    Distro.parseIsoinfo { h with diskInfoRe := matchDiskInfo } i.line =
        .ok (some ⟨i.name.replaceChar '-' ' ', i.version, i.subversion, i.arch⟩) ∧
      ∃ m, diskInfoRe.match? i.line = some m ∧ m.groups = i.groups := by
  obtain ⟨m, hm, hgroups⟩ := i.first_line
  have hmatch : matchDiskInfo i.line = some ⟨i.name, i.version, i.subversion, i.arch⟩ := by
    rw [matchDiskInfo, hm.match?_eq]
    simp only [Match.group, Option.bind_eq_bind, Option.bind_some, hgroups]
    rfl
  have hne : i.line.isEmpty = false := by
    rw [List.isEmpty_eq_false_iff, InfoLine.line]
    exact List.append_ne_nil_of_left_ne_nil i.name_ne _
  refine ⟨?_, m, hm.match?_eq, hgroups⟩
  rw [Distro.parseIsoinfo, hne]
  simp only [hmatch, Bool.false_eq_true, if_false]

/-- A line whose codename has a quote and the dash of the subversion, and whose subversion has a
quote -/
private def jaunty : InfoLine where
  name := "Ubuntu-Split Name".toList
  version := "9.04.1".toList
  lts := true
  codename := "Jaunty\" - 2 Jackalope".toList
  subversion := "Final \"Release\"".toList
  arch := "amd64".toList
  build := "20090106.2".toList
  name_ne := by decide
  name_chars := List.all_eq_true.mp (by decide)
  version_ne := by decide
  version_chars := List.all_eq_true.mp (by decide)
  codename_ne := by decide
  subversion_ne := by decide
  subversion_chars c hc := by
    have hall : ("Final \"Release\"".toList.all fun c => !c.isDigit) = true := by decide
    simpa using List.all_eq_true.mp hall c hc
  subversion_dash := by decide
  arch_mem := by decide
  build_ne := by decide
  build_chars := List.all_eq_true.mp (by decide)

private def noArchive : Platform where
  abspath path := path
  normpath path := path
  list _ := none
  extract _ _ := none
  diskInfoRe _ := none

theorem parseIsoinfo_line_jaunty :
    jaunty.line =
      "Ubuntu-Split Name 9.04.1 LTS \"Jaunty\" - 2 Jackalope\" - Final \"Release\" amd64 (20090106.2)".toList ∧
    Distro.parseIsoinfo { noArchive with diskInfoRe := matchDiskInfo } jaunty.line =
      .ok (some ⟨"Ubuntu Split Name".toList, "9.04.1".toList, "Final \"Release\"".toList, "amd64".toList⟩) := by
  refine ⟨by decide, (parseIsoinfo_line noArchive jaunty).1.trans ?_⟩
  rfl

end Swinst
