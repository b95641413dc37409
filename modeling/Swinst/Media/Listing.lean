import Swinst.Media.CacheRuns

/-! One medium, in a drive and as an ISO file: what `is_valid_cd` finds in the file system, and what
`is_valid_iso` reads from the table that `7z l` prints. -/

namespace Swinst.Media

/-- An entry of a medium, by its full path; a directory has no content. -/
structure Entry where
  path : Text
  content : Option Text

/-- An entry with the columns that are printed before it: date, time, attributes and sizes. -/
structure Row where
  columns : Text
  entry : Entry
  columns_gap : ∃ text, columns = text ++ [' '] ∧ text.words ≠ []
  columns_line : '\n' ∉ columns
  path_line : '\n' ∉ entry.path

def Row.line (r : Row) : Text := r.columns ++ r.entry.path

/-- The output of `7z l` -/
structure Listing where
  heading : List Text
  rows : List Row
  closing : List Text
  length_heading : heading.length = 7
  length_closing : closing.length = 3
  heading_line : ∀ l ∈ heading, '\n' ∉ l
  closing_line : ∀ l ∈ closing, '\n' ∉ l

namespace Listing

variable (l : Listing)

def lines : List Text := l.heading ++ (l.rows.map Row.line ++ l.closing)

def text : Text := "\r\n".toList.intercalate l.lines

/-- The look-up of a file in a drive, where case does not matter. -/
def file (name : Text) : Option Text :=
  l.rows.findSome? fun r => if r.entry.path.lower = name.lower then r.entry.content else none

end Listing

/-- What `get_info` makes of the text of an info file. -/
def infoOf (h : Platform) (text : Option Text) : Option DiskInfo :=
  match text with
  | none => none
  | some text =>
    match Distro.parseIsoinfo h text with
    | .error _ => none
    | .ok r => r

/-- The medium is in a drive, and there is an image of it, from which the info file comes out as it
is. -/
structure Mounted (h : Platform) (s : Storage) (d : Distro) (cdPath isoPath : Text) (l : Listing) :
    Prop where
  noFile : s.files (h.abspath cdPath) = none
  disc : ∃ disc, s.dirs (h.abspath cdPath) = some disc ∧ disc.file = l.file
  image : ∃ image, s.files (h.abspath isoPath) = some image ∧ h.list image = some l.text ∧
    h.extract image d.infoFile = l.file d.infoFile
  abspath_abspath : h.abspath (h.abspath isoPath) = h.abspath isoPath

/-- A distro of which any size is right. -/
structure AnySize (d : Distro) : Prop where
  size : d.size = 0
  minIsoSize : d.minIsoSize = 0
  maxIsoSize : d.maxIsoSize = 0

def Row.lastWord (r : Row) : Text := r.line.words.getLast?.getD []

/-- Is the name, up to case and surrounding blanks, the last word of a row? -/
def Listing.Lists (h : Platform) (l : Listing) (name : Text) : Prop :=
  ∃ r ∈ l.rows, (h.normpath r.lastWord).strip.lower = name.strip.lower

/-- If all required files are on the medium, each is the last word of a row; otherwise one of them
is not. -/
def Fits (h : Platform) (d : Distro) (l : Listing) : Prop :=
  if ∀ file ∈ d.requiredFiles, (l.file file).isSome then ∀ file ∈ d.requiredFiles, l.Lists h file
  else ∃ file ∈ d.requiredFiles, ¬ l.Lists h file

variable {h : Platform} {s : Storage} {d : Distro} {cdPath isoPath : Text} {l : Listing}

/-! ## The table -/

theorem Row.words_line (r : Row) : ∃ ws, ws ≠ [] ∧ r.line.words = ws ++ r.entry.path.words := by
  obtain ⟨text, hcolumns, hne⟩ := r.columns_gap
  refine ⟨text.words, hne, ?_⟩
  rw [line, hcolumns, List.append_assoc]
  exact Text.words_append_blank text r.entry.path

theorem Row.line_not_newline (r : Row) : '\n' ∉ r.line := by
  simp [line, r.columns_line, r.path_line]

theorem Row.rowName_line (h : Platform) (r : Row) : h.rowName r.line = .ok (h.normpath r.lastWord) := by
  obtain ⟨ws, hne, hwords⟩ := r.words_line
  obtain ⟨word, hword⟩ : ∃ word, r.line.words.getLast? = some word := by
    rw [← Option.isSome_iff_exists, hwords, List.getLast?_isSome]
    simp [hne]
  simp only [Platform.rowName, lastWord, hword, Option.getD_some]

/-- The last word of a path without blanks is the path. -/
theorem Row.lastWord_of_forall_not_space {r : Row} (hne : r.entry.path ≠ [])
    (hpath : ∀ c ∈ r.entry.path, Text.isSpace c = false) : r.lastWord = r.entry.path := by
  obtain ⟨ws, -, hwords⟩ := r.words_line
  rw [lastWord, hwords, Text.words_of_forall_not_space hne hpath, List.getLast?_concat,
    Option.getD_some]

namespace Listing

variable (l : Listing)

theorem length_lines : l.lines.length = 7 + (l.rows.length + 3) := by
  simp only [lines, List.length_append, List.length_map, l.length_heading, l.length_closing]

theorem crlfLines_text : l.text.crlfLines = l.lines := by
  refine Text.crlfLines_intercalate ?_ fun hnil => ?_
  · simp only [lines, List.forall_mem_append, List.forall_mem_map]
    exact ⟨l.heading_line, fun r _ => r.line_not_newline, l.closing_line⟩
  · have hlen := l.length_lines
    rw [hnil, List.length_nil] at hlen
    omega

theorem text_ne_nil : l.text ≠ [] := by
  intro hnil
  have hlen := l.length_lines
  rw [← l.crlfLines_text, hnil, Text.crlfLines, List.length_singleton] at hlen
  omega

theorem rows_text : Platform.rows l.text = l.rows.map Row.line := by
  have hkeep : l.lines.length - 3 = (l.heading ++ l.rows.map Row.line).length := by
    rw [l.length_lines, List.length_append, List.length_map, l.length_heading]
    omega
  simp only [Platform.rows, l.crlfLines_text]
  rw [hkeep, lines, ← List.append_assoc, List.take_left, ← l.length_heading, List.drop_left]

end Listing

theorem mapM_rowName_line (h : Platform) (rows : List Row) :
    (rows.map Row.line).mapM h.rowName = .ok (rows.map fun r => h.normpath r.lastWord) := by
  induction rows with
  | nil => rfl
  | cons r rows ih =>
    rw [List.map_cons, List.mapM_cons, r.rowName_line, ih]
    rfl

/-- `get_iso_file_names` gives the last words of the rows. -/
theorem Mounted.listing (hm : Mounted h s d cdPath isoPath l) :
    h.listing s (h.abspath isoPath) = .ok (some (l.rows.map fun r => h.normpath r.lastWord)) := by
  obtain ⟨image, hfile, hlist, -⟩ := hm.image
  have hempty : l.text.isEmpty = false := by
    rw [List.isEmpty_eq_false_iff]
    exact l.text_ne_nil
  simp only [Platform.listing, hfile, Option.bind_some, hlist, hempty, l.rows_text,
    mapM_rowName_line]
  rfl

theorem contains_iff (h : Platform) (d : Distro) (l : Listing) :
    d.contains (l.rows.map fun r => h.normpath r.lastWord) = true ↔
      ∀ file ∈ d.requiredFiles, l.Lists h file := by
  simp [Distro.contains, Listing.Lists, List.all_eq_true]

/-! ## The verdicts -/

/-- A listing that works is the same at every time. -/
theorem Seen.getIsoFileNames_listed {keys : List Text} {c : Caches} {path : Text} {names : List Text}
    (hc : Seen h s keys c) (hl : h.listing s (h.abspath path) = .ok (some names)) :
    ∃ keys' c', h.getIsoFileNames s path c = (.ok (some names), c') ∧ Seen h s keys' c' := by
  have hkept : h.keptNames s (h.abspath path) = some names := by rw [Platform.keptNames, hl]
  by_cases hk : h.abspath path ∈ keys
  · exact ⟨keys, c, by rw [hc.getIsoFileNames_again hk, hkept], hc⟩
  · refine ⟨_, _, ?_, hc.setNames (h.abspath path)⟩
    rw [hc.getIsoFileNames_first hk, Platform.freshNames, hl]
    rfl

theorem readInfo_eq (h : Platform) (s : Storage) (d : Distro) (path : Text) :
    d.readInfo h s path = infoOf h (d.infoText h s path) := rfl

/-- Both paths to the medium lead to the same info. -/
theorem Mounted.readInfo (hm : Mounted h s d cdPath isoPath l) :
    d.readInfo h s (h.abspath cdPath) = infoOf h (l.file d.infoFile) ∧
      d.readInfo h s (h.abspath isoPath) = infoOf h (l.file d.infoFile) := by
  obtain ⟨disc, hdisc, hfile⟩ := hm.disc
  obtain ⟨image, himage, -, hextract⟩ := hm.image
  constructor
  · rw [readInfo_eq, Distro.infoText, hm.noFile]
    simp only [hdisc, Option.bind_some, hfile]
  · rw [readInfo_eq, Distro.infoText, himage]
    exact congrArg (infoOf h) hextract

theorem AnySize.wrongSize (hd : AnySize d) (fileSize : Int) : d.wrongSize fileSize = false := by
  simp [Distro.wrongSize, hd.size, hd.minIsoSize, hd.maxIsoSize]

/-- The verdict on the medium in the drive. -/
theorem Mounted.isValidCd (hm : Mounted h s d cdPath isoPath l) {keys : List Text} {c : Caches}
    (hc : Seen h s keys c) (checkArch : Bool) :
    (d.isValidCd h s cdPath checkArch c).1 =
      ((d.requiredFiles.all fun file => (l.file file).isSome) &&
        d.checkInfo (infoOf h (l.file d.infoFile)) checkArch) := by
  obtain ⟨disc, hdisc, hfile⟩ := hm.disc
  have hinfo := (hc.getInfo d (h.abspath cdPath)).1
  rw [hm.readInfo.1] at hinfo
  simp only [Distro.isValidCd, hdisc, hfile]
  cases hall : d.requiredFiles.all fun file => (l.file file).isSome with
  | true => simp [hinfo]
  | false => simp

/-- The verdict on its image. -/
theorem Mounted.isValidIso (hm : Mounted h s d cdPath isoPath l) (hd : AnySize d)
    {keys : List Text} {c : Caches} (hc : Seen h s keys c) (checkArch : Bool) :
    (d.isValidIso h s isoPath checkArch c).1 =
      .ok (d.contains (l.rows.map fun r => h.normpath r.lastWord) &&
        d.checkInfo (infoOf h (l.file d.infoFile)) checkArch) := by
  obtain ⟨image, himage, -, -⟩ := hm.image
  have hlisting := hm.listing
  rw [← hm.abspath_abspath] at hlisting
  obtain ⟨keys', c', hnames, hc'⟩ := hc.getIsoFileNames_listed hlisting
  rw [(isValidIso_listed checkArch himage (hd.wrongSize _) hnames hc').1, judge, hm.readInfo.2]

/-- The two verdicts agree if and only if the info does not name the distro, or the rows of the
listing fit the required files. -/
theorem verdicts_agree_iff (hm : Mounted h s d cdPath isoPath l) (hd : AnySize d)
    {keys keys' : List Text} {c c' : Caches} (hc : Seen h s keys c) (hc' : Seen h s keys' c')
    (checkArch : Bool) :
    (d.isValidIso h s isoPath checkArch c).1 = .ok (d.isValidCd h s cdPath checkArch c').1 ↔
      d.checkInfo (infoOf h (l.file d.infoFile)) checkArch = false ∨ Fits h d l := by
  rw [hm.isValidIso hd hc, hm.isValidCd hc', Except.ok.injEq]
  have hcontains := contains_iff h d l
  cases d.checkInfo (infoOf h (l.file d.infoFile)) checkArch with
  | false => simp
  | true =>
    rw [Bool.and_true, Bool.and_true, or_iff_right Bool.true_eq_false.mp, Fits]
    split
    · next hall =>
      rw [← hcontains, List.all_eq_true.mpr hall]
    · next hall =>
      have hall' : (d.requiredFiles.all fun file => (l.file file).isSome) = false := by
        rw [Bool.eq_false_iff]
        exact fun h => hall (List.all_eq_true.mp h)
      rw [hall', Bool.eq_false_iff, Ne, hcontains]
      simp

/-- A medium without blanks in its paths, none of whose directories has the path of a required
file. -/
structure Plain (h : Platform) (d : Distro) (l : Listing) : Prop where
  path : ∀ r ∈ l.rows, r.entry.path ≠ [] ∧ (∀ c ∈ r.entry.path, Text.isSpace c = false) ∧
    h.normpath r.entry.path = r.entry.path
  file : ∀ file ∈ d.requiredFiles, file.strip = file
  directory : ∀ r ∈ l.rows, r.entry.content = none →
    ∀ file ∈ d.requiredFiles, r.entry.path.lower ≠ file.lower

theorem Plain.lists_iff (hp : Plain h d l) {name : Text} (hname : name ∈ d.requiredFiles) :
    l.Lists h name ↔ (l.file name).isSome := by
  have hlast {r : Row} (hr : r ∈ l.rows) : (h.normpath r.lastWord).strip = r.entry.path := by
    obtain ⟨hne, hspace, hnorm⟩ := hp.path r hr
    rw [Row.lastWord_of_forall_not_space hne hspace, hnorm]
    exact Text.strip_eq_self (fun c hc => hspace c (List.mem_of_mem_head? hc))
      fun c hc => hspace c (List.mem_of_mem_getLast? hc)
  rw [Listing.file, List.findSome?_isSome_iff]
  refine exists_congr fun r => and_congr_right fun hr => ?_
  rw [hlast hr, hp.file name hname]
  constructor
  · intro heq
    rw [if_pos heq, Option.isSome_iff_ne_none]
    exact fun hnone => hp.directory r hr hnone name hname heq
  · intro hsome
    by_contra hne
    rw [if_neg hne] at hsome
    cases hsome

/-- On such a medium the two verdicts agree. -/
theorem Plain.fits (hp : Plain h d l) : Fits h d l := by
  rw [Fits]
  split
  · next hall => exact fun file hfile => (hp.lists_iff hfile).mpr (hall file hfile)
  · next hall =>
    by_contra hno
    refine hall fun file hfile => (hp.lists_iff hfile).mp ?_
    exact not_not.mp fun hlists => hno ⟨file, hfile, hlists⟩

private def diskRow (path : Text) (hpath : '\n' ∉ path) : Row where
  columns := "2012-07-01 10:00:00 .....  1024  1024  ".toList
  entry := ⟨path, some path⟩
  columns_gap := ⟨"2012-07-01 10:00:00 .....  1024  1024 ".toList, by decide, by decide⟩
  columns_line := by decide
  path_line := hpath

/-- A medium with these files. -/
private def diskListing (rows : List Row) : Listing where
  heading := .replicate 7 []
  rows := rows
  closing := .replicate 3 []
  length_heading := rfl
  length_closing := rfl
  heading_line := by decide
  closing_line := by decide

/-- A medium whose kernel is not there under its name. -/
private def otherRows (kernel : Text) (hkernel : '\n' ∉ kernel) : List Row :=
  [diskRow kernel hkernel, diskRow "initrd".toList (by decide), diskRow "info".toList (by decide),
    diskRow "md5sum".toList (by decide)]

private def flatDistro : Distro where
  id := 0
  name := "StartOS".toList
  arch := "i686".toList
  kernel := "vmlinuz".toList
  initrd := "initrd".toList
  md5sums := "md5sum".toList
  infoFile := "info".toList
  size := 0
  minIsoSize := 0
  maxIsoSize := 0
  filesToCheck := []
  metalinkUrl := []
  metalinkUrl2 := []
  metalinkMd5sums := []
  metalinkMd5sumsSignature := []

/-- A computer with the medium in drive `d:` and its image on drive `e:`. -/
private def shelf (l : Listing) : Platform × Storage where
  fst := {
    abspath := id
    normpath := id
    list image := if image = "image".toList then some l.text else none
    extract _ name := l.file name
    diskInfoRe text := some ⟨"StartOS".toList, "5.1".toList, text, "i686".toList⟩ }
  snd := {
    files path := if path = "e:\\startos.iso".toList then some "image".toList else none
    dirs path := if path = "d:\\".toList then some ⟨"image".toList, l.file⟩ else none }

private theorem mounted_shelf (l : Listing) : Mounted (shelf l).1 (shelf l).2 flatDistro "d:\\".toList
    "e:\\startos.iso".toList l where
  noFile := rfl
  disc := ⟨_, rfl, rfl⟩
  image := ⟨_, rfl, rfl, rfl⟩
  abspath_abspath := rfl

private theorem anySize_flat : AnySize flatDistro := ⟨rfl, rfl, rfl⟩

/-- The verdicts on the two forms of a medium -/
private def verdicts (l : Listing) : Except PyError Bool × Bool :=
  ((flatDistro.isValidIso (shelf l).1 (shelf l).2 "e:\\startos.iso".toList false .empty).1,
    (flatDistro.isValidCd (shelf l).1 (shelf l).2 "d:\\".toList false .empty).1)

theorem verdicts_agree_plain :
    let v := verdicts (diskListing (otherRows "vmlinuz".toList (by decide)))
    v.1 = .ok v.2 := by
  have hnames : ∀ r ∈ (diskListing (otherRows "vmlinuz".toList (by decide))).rows, r.entry.path ≠ [] ∧
      (r.entry.path.all fun c => !Text.isSpace c) ∧
      (shelf (diskListing (otherRows "vmlinuz".toList (by decide)))).1.normpath r.entry.path = r.entry.path := by
    decide +kernel
  refine (verdicts_agree_iff (mounted_shelf _) anySize_flat (.empty _ _) (.empty _ _) false).mpr
    (.inr (Plain.fits ⟨fun r hr => ?_, by decide +kernel, by decide +kernel⟩))
  obtain ⟨hne, hspace, hnorm⟩ := hnames r hr
  exact ⟨hne, fun c hc => by simpa using List.all_eq_true.mp hspace c hc, hnorm⟩

/-- The last word of `old vmlinuz` is the name of the kernel. -/
theorem spaced_name_accepted :
    let l := diskListing (otherRows "old vmlinuz".toList (by decide))
    Mounted (shelf l).1 (shelf l).2 flatDistro "d:\\".toList "e:\\startos.iso".toList l ∧
      AnySize flatDistro ∧ verdicts l = (.ok true, false) :=
  ⟨mounted_shelf _, anySize_flat, by decide +kernel⟩

end Swinst.Media
