import Swinst.BootIni.Undo

/-! The list of md5 sums on a medium, and `check_file` of `backends/common/backend.py`, which looks a
file up in it with `find_line_in_file` of `backends/common/utils.py`. -/

namespace Swinst.Md5sums

open BootIni (readlines readlines_append_newline readlines_of_not_mem)

/-- `find_line_in_file`: the line that is found loses its last character, whatever it is -/
def findLineInFile (file : Option Text) (text : Text) (endswith : Bool) :
    Except PyError (Option Text) :=
  match file with
  | none => .ok none
  | some content =>
    -- `text[-1]`
    if endswith ∧ text = [] then .error .indexError
    else
      let text := if endswith ∧ text.getLast? ≠ some '\n' then text ++ ['\n'] else text
      .ok (((readlines content).find? fun line =>
        if endswith then line.endsWith text else line.startsWith text).map List.dropLast)

/-- The separators of a listing. -/
def slashed (relpath : Text) : Text := relpath.replaceChar '\\' '/'

/-- `"./%s" % relpath` -/
def dotted (relpath : Text) : Text := "./".toList ++ relpath

def cannotFind (md5sums relpath : Text) : PyError :=
  .exception ("Cannot find md5 in " ++ String.ofList md5sums ++ " for " ++ String.ofList relpath)

/-- The part of `check_file` that finds `reference_md5` -/
def referenceMd5 (files : Text → Option Text) (relpath md5sums : Text) : Except PyError Text :=
  match findLineInFile (files md5sums) (dotted (slashed relpath)) true with
  | .error e => .error e
  | .ok none | .ok (some []) => .error (cannotFind md5sums (slashed relpath))
  | .ok (some line) =>
    match line.words with
    | [] => .error .indexError
    | reference :: _ => .ok reference

/-- `check_file`, where `md5` is what `get_file_md5` returns for the file -/
def checkFile (files : Text → Option Text) (md5 : Option Text) (relpath md5sums : Text) :
    Except PyError Bool := do
  let reference ← referenceMd5 files relpath md5sums
  return decide (md5 = some reference)

/-! ## Listings -/

/-- A line of a listing: the digest, two spaces, and a path below `./` -/
structure Entry where
  digest : Text
  path : Text
  digest_ne : digest ≠ []
  digest_alphanum : ∀ c ∈ digest, c.isAlphanum
  path_line : '\n' ∉ path

def Entry.line (e : Entry) : Text := e.digest ++ "  ".toList ++ dotted e.path

/-- The file, whose last line may lack its end. -/
def listing : List Entry → (newline : Bool) → Text
  | [], _ => []
  | [e], false => e.line
  | e :: es, newline => e.line ++ '\n' :: listing es newline

/-- The entries whose line has an end. -/
def terminated (es : List Entry) (newline : Bool) : List Entry :=
  if newline then es else es.dropLast

/-- The entry of a path. -/
def entryOf (es : List Entry) (relpath : Text) : Option Entry :=
  es.find? fun e => e.path = slashed relpath

/-- Does `./path` end with `./relpath`? -/
def Entry.endsWith (e : Entry) (relpath : Text) : Bool :=
  (dotted e.path).endsWith (dotted (slashed relpath))

/-- A reference, or the exception of `check_file` when there is none -/
def orCannotFind (md5sums relpath : Text) : Option Text → Except PyError Text
  | some digest => .ok digest
  | none => .error (cannotFind md5sums (slashed relpath))

/-- What the look-up is for: the digest in the entry of the path. -/
def expected (es : List Entry) (relpath md5sums : Text) : Except PyError Text :=
  orCannotFind md5sums relpath ((entryOf es relpath).map (·.digest))

/-- `check_file` compares a file with the digest of its own entry, and raises when there is none. -/
structure Checks (files : Text → Option Text) (md5 : Text → Text) (es : List Entry)
    (relpath md5sums : Text) : Prop where
  reference : referenceMd5 files relpath md5sums = expected es relpath md5sums
  verdict : ∀ content, checkFile files (some (md5 content)) relpath md5sums =
    (expected es relpath md5sums).map fun digest => decide (md5 content = digest)

/-- The first line with an end whose path ends with `./relpath` -/
def firstEnding (es : List Entry) (newline : Bool) (relpath : Text) : Option Entry :=
  (terminated es newline).find? (·.endsWith relpath)

/-! ## What is found -/

namespace Entry

variable (e : Entry)

theorem digest_not_space {c : Char} (hc : c ∈ e.digest) : Text.isSpace c = false := by
  have halnum : c.isAlphanum := e.digest_alphanum c hc
  rw [Bool.eq_false_iff]
  intro hspace
  simp only [Text.isSpace, Bool.or_eq_true, decide_eq_true_eq] at hspace
  rcases hspace with ((((rfl | rfl) | rfl) | rfl) | rfl) | rfl <;> exact absurd halnum (by decide)

theorem line_not_newline : '\n' ∉ e.line := by
  have hdigest : '\n' ∉ e.digest := fun h => absurd (e.digest_not_space h) (by decide)
  simp [line, dotted, hdigest, e.path_line]

theorem words_line : ∃ rest, e.line.words = e.digest :: rest := by
  refine ⟨(Text.words (' ' :: dotted e.path)), ?_⟩
  have hsplit : e.line.splitOnP Text.isSpace =
      e.digest :: (' ' :: dotted e.path).splitOnP Text.isSpace := by
    rw [line, List.append_assoc]
    exact List.splitOnP_append_cons_of_forall_mem (fun _ hc => e.digest_not_space hc) ' ' rfl _
  rw [Text.words, hsplit, List.filter_cons_of_pos (by simp [e.digest_ne])]
  rfl

/-- The searched text begins with a dot, so that it cannot reach into the digest. -/
theorem line_endsWith (relpath : Text) :
    dotted relpath <:+ e.line ↔ dotted relpath <:+ dotted e.path := by
  refine ⟨fun h => ?_, fun h => h.trans (List.suffix_append _ _)⟩
  rcases List.suffix_or_suffix_of_suffix h (List.suffix_append _ (dotted e.path)) with h' | ⟨s, hs⟩
  · exact h'
  · rw [← hs, line, List.suffix_append_self_iff] at h
    cases s with
    | nil => exact ⟨[], hs.symm⟩
    | cons c s =>
      obtain rfl : c = '.' := (List.cons.inj hs).1
      have hdot : '.' ∈ e.digest ++ "  ".toList := h.subset List.mem_cons_self
      have hdigest : '.' ∉ e.digest := fun h => absurd (e.digest_alphanum _ h) (by decide)
      simp [hdigest] at hdot

theorem endsWith_line {relpath : Text} :
    (e.line ++ ['\n']).endsWith (dotted relpath ++ ['\n']) =
      (dotted e.path).endsWith (dotted relpath) := by
  rw [Bool.eq_iff_iff, Text.endsWith, Text.endsWith, List.isSuffixOf_iff_suffix,
    List.isSuffixOf_iff_suffix, List.suffix_append_self_iff, e.line_endsWith]

theorem not_endsWith_line (s : Text) : e.line.endsWith (s ++ ['\n']) = false := by
  rw [Bool.eq_false_iff, Text.endsWith, Ne, List.isSuffixOf_iff_suffix]
  intro h
  exact e.line_not_newline (h.subset (List.mem_append_right s List.mem_cons_self))

end Entry

theorem terminated_cons {e : Entry} {es : List Entry} {newline : Bool}
    (h : es = [] → newline = true) : terminated (e :: es) newline = e :: terminated es newline := by
  cases newline with
  | true => rfl
  | false =>
    cases es with
    | nil => cases h rfl
    | cons e' es => rfl

theorem find?_readlines (relpath : Text) (es : List Entry) (newline : Bool) :
    ((readlines (listing es newline)).find? (·.endsWith (dotted (slashed relpath) ++ ['\n']))) =
      ((terminated es newline).find? (·.endsWith relpath)).map fun e => e.line ++ ['\n'] := by
  induction es, newline using listing.induct with
  | case1 newline => cases newline <;> rfl
  | case2 e =>
    rw [listing, readlines_of_not_mem e.line_not_newline]
    split
    · rfl
    · rw [List.find?_singleton, e.not_endsWith_line]
      rfl
  | case3 e es newline hne ih =>
    have hlast : es = [] → newline = true := fun hnil =>
      Bool.not_eq_false _ ▸ fun hfalse => hne hfalse hnil
    rw [listing, readlines_append_newline e.line_not_newline, terminated_cons hlast,
      List.find?_cons, List.find?_cons, ih, e.endsWith_line, Entry.endsWith]
    cases (dotted e.path).endsWith (dotted (slashed relpath)) <;> rfl
    exact hne

theorem findLineInFile_listing {relpath : Text} (h : '\n' ∉ relpath) (es : List Entry)
    (newline : Bool) : findLineInFile (some (listing es newline)) (dotted (slashed relpath)) true =
      .ok ((firstEnding es newline relpath).map Entry.line) := by
  have hlast : (dotted (slashed relpath)).getLast? ≠ some '\n' := by
    intro hlast
    have hmem : '\n' ∈ slashed relpath := by simpa [dotted] using List.mem_of_getLast? hlast
    obtain ⟨c, hc, hn⟩ := List.mem_map.mp hmem
    split at hn
    · cases hn
    · exact h (hn ▸ hc)
  rw [findLineInFile, if_neg (by simp [dotted])]
  simp only [true_and, if_true, if_pos hlast, find?_readlines, Option.map_map]
  congr 2
  funext e
  exact List.dropLast_concat

variable {files : Text → Option Text} {md5sums relpath : Text} {es : List Entry} {newline : Bool}

theorem referenceMd5_listing (hfile : files md5sums = some (listing es newline))
    (hrel : '\n' ∉ relpath) : referenceMd5 files relpath md5sums =
      orCannotFind md5sums relpath ((firstEnding es newline relpath).map (·.digest)) := by
  rw [referenceMd5, hfile, findLineInFile_listing hrel]
  cases firstEnding es newline relpath with
  | none => rfl
  | some e =>
    obtain ⟨rest, hwords⟩ := e.words_line
    obtain ⟨c, s, hline⟩ : ∃ c s, e.line = c :: s :=
      List.exists_cons_of_ne_nil fun h => by simp [h, Text.words] at hwords
    rw [hline] at hwords
    simp only [Option.map_some, hline, hwords, orCannotFind]

theorem orCannotFind_inj {md5sums relpath : Text} {r r' : Option Text} :
    orCannotFind md5sums relpath r = orCannotFind md5sums relpath r' ↔ r = r' := by
  cases r <;> cases r' <;> simp [orCannotFind]

theorem Checks.of_reference (md5 : Text → Text)
    (h : referenceMd5 files relpath md5sums = expected es relpath md5sums) :
    Checks files md5 es relpath md5sums := by
  refine ⟨h, fun content => ?_⟩
  rw [checkFile, h]
  cases expected es relpath md5sums with
  | error e => rfl
  | ok digest => simp [Except.map, bind, Except.bind, pure, Except.pure]

/-- The digest that is compared comes from the first line that ends right. -/
theorem checks_iff (md5 : Text → Text) (hfile : files md5sums = some (listing es newline))
    (hrel : '\n' ∉ relpath) : Checks files md5 es relpath md5sums ↔
      (firstEnding es newline relpath).map (·.digest) = (entryOf es relpath).map (·.digest) := by
  rw [← orCannotFind_inj, ← referenceMd5_listing hfile hrel]
  exact ⟨fun h => h.reference, .of_reference md5⟩

private def kernelEntry : Entry where
  digest := "5ca1ab1e".toList
  path := "vmlinuz".toList
  digest_ne := by decide
  digest_alphanum := List.all_eq_true.mp (by decide)
  path_line := by decide

private def casperEntry (digest name : String) (hdigest : digest.toList ≠ [])
    (halphanum : digest.toList.all (·.isAlphanum)) (hname : '\n' ∉ name.toList) : Entry where
  digest := digest.toList
  path := "casper/".toList ++ name.toList
  digest_ne := hdigest
  digest_alphanum := List.all_eq_true.mp halphanum
  path_line := by simpa using hname

/-- Two kernels and an initrd, the kernel that is not in `casper` on the last line -/
private def casperEntries : List Entry :=
  [casperEntry "c0ffee11" "initrd.lz" (by decide) (by decide) (by decide),
    casperEntry "deadbeef" "vmlinuz" (by decide) (by decide) (by decide), kernelEntry]

private def listingFiles (es : List Entry) (newline : Bool) (path : Text) : Option Text :=
  if path = "md5sum".toList then some (listing es newline) else none

private theorem listingFiles_md5sum (es : List Entry) (newline : Bool) :
    listingFiles es newline "md5sum".toList = some (listing es newline) := if_pos rfl

theorem checks_kernel :
    Checks (listingFiles casperEntries false) id casperEntries "casper\\vmlinuz".toList "md5sum".toList :=
  (checks_iff id (listingFiles_md5sum casperEntries false) (by decide)).mpr (by decide)

theorem not_checks_last_line :
    ¬ Checks (listingFiles [kernelEntry] false) id [kernelEntry] "vmlinuz".toList "md5sum".toList := fun h => by
  have hraises := referenceMd5_listing (listingFiles_md5sum [kernelEntry] false) (by decide : '\n' ∉ "vmlinuz".toList)
  rw [h.reference, expected, orCannotFind_inj] at hraises
  exact absurd hraises (by decide)

end Swinst.Md5sums
