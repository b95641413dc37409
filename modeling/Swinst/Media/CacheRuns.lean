import Swinst.Media.Distro

/-! Sequences of queries about media that do not change: when are the two caches invisible? -/

namespace Swinst.Media

inductive Query where
  | isValidIso (d : Distro) (path : Text) (checkArch : Bool)
  | isValidCd (d : Distro) (path : Text) (checkArch : Bool)
  | getInfo (d : Distro) (path : Text)

inductive Verdict where
  | valid (b : Bool)
  | info (i : Option DiskInfo)
  deriving DecidableEq

variable (h : Platform) (s : Storage)

def Query.ask (c : Caches) : Query → Except PyError Verdict × Caches
  | isValidIso d path checkArch =>
    let (r, c) := d.isValidIso h s path checkArch c
    (.valid <$> r, c)
  | isValidCd d path checkArch =>
    let (r, c) := d.isValidCd h s path checkArch c
    (.ok (.valid r), c)
  | getInfo d path =>
    let (r, c) := d.getInfo h s path c
    (.ok (.info r), c)

/-- The answer in a fresh process. -/
def Query.fresh (q : Query) : Except PyError Verdict := (q.ask h s .empty).1

def askAll : List Query → Caches → List (Except PyError Verdict)
  | [], _ => []
  | q :: qs, c => (q.ask h s c).1 :: askAll qs (q.ask h s c).2

/-- The ISO whose names the query looks for: file and size are right so far. -/
def Query.listed : Query → Option Text
  | isValidIso d path _ =>
    match s.files (h.abspath path) with
    | none => none
    | some content =>
      if d.wrongSize content.length then none else some (h.abspath (h.abspath path))
  | isValidCd .. => none
  | getInfo .. => none

/-- The caches after the ISOs `keys` have been listed, and any infos were asked for. -/
structure Seen (keys : List Text) (c : Caches) : Prop where
  names : ∀ key, c.names key = if key ∈ keys then some (h.keptNames s key) else none
  infos : ∀ {d : Distro} {path r}, c.infos (path, d.infoFile) = some r → r = d.readInfo h s path

theorem Seen.empty : Seen h s [] .empty where
  names _ := rfl
  infos hr := nomatch hr

variable {h s}

theorem readInfo_congr {d d' : Distro} (hd : d.infoFile = d'.infoFile) (path : Text) :
    d.readInfo h s path = d'.readInfo h s path := by
  simp only [Distro.readInfo, Distro.infoText, hd]

theorem Seen.setInfo {keys : List Text} {c : Caches} (hc : Seen h s keys c) (d : Distro)
    (path : Text) : Seen h s keys (c.setInfo (path, d.infoFile) (d.readInfo h s path)) where
  names := hc.names
  infos {d' path' r} hr := by
    rw [Caches.infos_setInfo] at hr
    split at hr
    · next hk =>
      obtain ⟨rfl, hd⟩ := Prod.mk.injEq .. ▸ hk
      rw [← Option.some.inj hr]
      exact readInfo_congr hd.symm path'
    · exact hc.infos hr

/-- `get_info` answers as without a cache, whatever was asked before. -/
theorem Seen.getInfo {keys : List Text} {c : Caches} (hc : Seen h s keys c) (d : Distro)
    (path : Text) :
    (d.getInfo h s path c).1 = d.readInfo h s path ∧ Seen h s keys (d.getInfo h s path c).2 := by
  cases hr : c.infos (path, d.infoFile) with
  | none =>
    rw [Distro.getInfo_miss h s d hr]
    exact ⟨rfl, hc.setInfo d path⟩
  | some r =>
    rw [Distro.getInfo_hit h s d hr]
    exact ⟨hc.infos hr, hc⟩

theorem Seen.setNames {keys : List Text} {c : Caches} (hc : Seen h s keys c) (key : Text) :
    Seen h s (key :: keys) (c.setNames key (h.keptNames s key)) where
  names k := by
    rw [Caches.names_setNames, hc.names]
    by_cases hk : k = key
    · simp [hk]
    · simp [hk]
  infos hr := hc.infos hr

/-- The first listing of an ISO. -/
theorem Seen.getIsoFileNames_first {keys : List Text} {c : Caches} {path : Text}
    (hc : Seen h s keys c) (hk : h.abspath path ∉ keys) :
    h.getIsoFileNames s path c = (h.freshNames s (h.abspath path),
      c.setNames (h.abspath path) (h.keptNames s (h.abspath path))) :=
  h.getIsoFileNames_miss (by rw [hc.names, if_neg hk])

/-- A later one. -/
theorem Seen.getIsoFileNames_again {keys : List Text} {c : Caches} {path : Text}
    (hc : Seen h s keys c) (hk : h.abspath path ∈ keys) :
    h.getIsoFileNames s path c = (.ok (h.keptNames s (h.abspath path)), c) :=
  h.getIsoFileNames_hit (by rw [hc.names, if_pos hk])

/-- The end of `is_valid_iso`, once the names are there. -/
def judge (h : Platform) (s : Storage) (d : Distro) (path : Text) (checkArch : Bool) :
    Except PyError (Option (List Text)) → Except PyError Bool
  | .error e => .error e
  | .ok none => .error .typeError
  | .ok (some names) =>
    .ok (d.contains names && d.checkInfo (d.readInfo h s (h.abspath path)) checkArch)

/-- `is_valid_iso` judges the names that it gets. -/
theorem isValidIso_listed {keys : List Text} {c c' : Caches} {d : Distro} {path : Text}
    {content : Text} {names : Except PyError (Option (List Text))} (checkArch : Bool)
    (hf : s.files (h.abspath path) = some content) (hsize : d.wrongSize content.length = false)
    (hn : h.getIsoFileNames s (h.abspath path) c = (names, c')) (hc' : Seen h s keys c') :
    (d.isValidIso h s path checkArch c).1 = judge h s d path checkArch names ∧
      Seen h s keys (d.isValidIso h s path checkArch c).2 := by
  simp only [Distro.isValidIso, hf, hsize, hn]
  match names with
  | .error e => exact ⟨rfl, hc'⟩
  | .ok none => exact ⟨rfl, hc'⟩
  | .ok (some names) =>
    obtain ⟨hi, hc''⟩ := hc'.getInfo d (h.abspath path)
    cases hcon : d.contains names with
    | false => exact ⟨by simp [judge, hcon], by simpa [hcon] using hc'⟩
    | true => exact ⟨by simp [judge, hcon, hi], by simpa [hcon] using hc''⟩

/-- 7z lists the ISO `key`, with a file name in every row of the table. -/
def Lists (h : Platform) (s : Storage) (key : Text) : Prop :=
  ∃ output, (s.files key).bind h.list = some output ∧ output ≠ [] ∧
    ∀ row ∈ Platform.rows output, row.words ≠ []

/-- 7z fails on the ISO `key`, or prints nothing. -/
def Fails (h : Platform) (s : Storage) (key : Text) : Prop :=
  ∀ output, (s.files key).bind h.list = some output → output = []

theorem mapM_rowName (h : Platform) (rows : List Text) :
    (∃ names, rows.mapM h.rowName = .ok names) ↔ ∀ row ∈ rows, row.words ≠ [] := by
  induction rows with
  | nil => exact ⟨fun _ row hr => (nomatch hr), fun _ => ⟨[], rfl⟩⟩
  | cons row rows ih =>
    rw [List.forall_mem_cons, ← ih, List.mapM_cons]
    cases hw : row.words.getLast? with
    | none =>
      have hnil : row.words = [] := List.getLast?_eq_none_iff.mp hw
      have hrow : h.rowName row = .error .indexError := by simp only [Platform.rowName, hw]
      rw [hrow]
      exact ⟨fun ⟨_, hn⟩ => (nomatch hn), fun hn => (hn.1 hnil).elim⟩
    | some word =>
      have hcons : row.words ≠ [] := fun hn => by simp [hn] at hw
      have hrow : h.rowName row = .ok (h.normpath word) := by simp only [Platform.rowName, hw]
      rw [hrow]
      refine ⟨fun ⟨names, hn⟩ => ⟨hcons, ?_⟩, fun ⟨_, names, hn⟩ => ⟨h.normpath word :: names, ?_⟩⟩
      · cases hm : rows.mapM h.rowName with
        | error e => rw [hm] at hn; exact nomatch hn
        | ok names' => exact ⟨names', rfl⟩
      · rw [hn]
        rfl

theorem listing_eq_some_iff {key : Text} :
    (∃ names, h.listing s key = .ok (some names)) ↔ Lists h s key := by
  unfold Platform.listing Lists
  cases (s.files key).bind h.list with
  | none => simp
  | some output =>
    cases output with
    | nil => simp
    | cons c output =>
      simp only [List.isEmpty_cons, Bool.false_eq_true, if_false, Option.some.injEq, ne_eq,
        exists_eq_left', reduceCtorEq, not_false_eq_true, true_and]
      rw [← mapM_rowName]
      cases (Platform.rows (c :: output)).mapM h.rowName with
      | error e => exact ⟨fun ⟨_, hn⟩ => (nomatch hn), fun ⟨_, hn⟩ => nomatch hn⟩
      | ok names => exact ⟨fun _ => ⟨names, rfl⟩, fun _ => ⟨names, rfl⟩⟩

theorem listing_eq_none_iff {key : Text} : h.listing s key = .ok none ↔ Fails h s key := by
  unfold Platform.listing Fails
  cases (s.files key).bind h.list with
  | none => simp
  | some output =>
    cases output with
    | nil => simp
    | cons c output =>
      simp only [List.isEmpty_cons, Bool.false_eq_true, if_false, Option.some.injEq, forall_eq',
        reduceCtorEq, iff_false]
      cases (Platform.rows (c :: output)).mapM h.rowName with
      | error e => exact fun hn => nomatch hn
      | ok names => exact fun hn => nomatch hn

/-- May the listing of `key` be asked for, after those of `keys`? One that works, always; one that
fails, once; one with a row without a name, never. -/
def Answered (h : Platform) (s : Storage) (keys : List Text) (key : Text) : Prop :=
  Lists h s key ∨ Fails h s key ∧ key ∉ keys

theorem answered_iff {keys : List Text} {key : Text} : Answered h s keys key ↔
    (∃ names, h.listing s key = .ok (some names)) ∨ h.listing s key = .ok none ∧ key ∉ keys := by
  rw [Answered, listing_eq_some_iff, listing_eq_none_iff]

/-- A query that asks for no listing. -/
theorem Seen.ask_unlisted {keys : List Text} {c : Caches} {q : Query} (hc : Seen h s keys c)
    (hq : q.listed h s = none) :
    (q.ask h s c).1 = q.fresh h s ∧ (q.fresh h s).isOk ∧ Seen h s keys (q.ask h s c).2 := by
  cases q with
  | isValidIso d path checkArch =>
    cases hf : s.files (h.abspath path) with
    | none =>
      have hask (c : Caches) : d.isValidIso h s path checkArch c = (.ok false, c) := by
        simp only [Distro.isValidIso, hf]
      simp only [Query.fresh, Query.ask, hask]
      exact ⟨trivial, rfl, hc⟩
    | some content =>
      have hsize : d.wrongSize content.length = true := by simpa [Query.listed, hf] using hq
      have hask (c : Caches) : d.isValidIso h s path checkArch c = (.ok false, c) := by
        simp only [Distro.isValidIso, hf, hsize, if_true]
      simp only [Query.fresh, Query.ask, hask]
      exact ⟨trivial, rfl, hc⟩
  | isValidCd d path checkArch =>
    obtain ⟨hi, hs⟩ := hc.getInfo d (h.abspath path)
    obtain ⟨hi₀, -⟩ := (Seen.empty h s).getInfo d (h.abspath path)
    refine ⟨?_, rfl, ?_⟩
    · simp only [Query.fresh, Query.ask, Distro.isValidCd]
      split
      · rfl
      · split
        · rfl
        · rw [hi, hi₀]
    · simp only [Query.ask, Distro.isValidCd]
      split
      · exact hc
      · split
        · exact hc
        · exact hs
  | getInfo d path =>
    obtain ⟨hi, hs⟩ := hc.getInfo d path
    obtain ⟨hi₀, -⟩ := (Seen.empty h s).getInfo d path
    refine ⟨?_, rfl, hs⟩
    simp only [Query.fresh, Query.ask]
    rw [hi, hi₀]

theorem Seen.congr {keys keys' : List Text} {c : Caches} (hc : Seen h s keys c)
    (hk : ∀ key, key ∈ keys ↔ key ∈ keys') : Seen h s keys' c where
  names key := by rw [hc.names, if_congr (hk key) rfl rfl]
  infos hr := hc.infos hr

/-- A query that asks for the listing of `key`. -/
theorem Seen.ask_listed {keys : List Text} {c : Caches} {q : Query} {key : Text}
    (hc : Seen h s keys c) (hq : q.listed h s = some key) :
    ((q.ask h s c).1 = q.fresh h s ∧ (q.ask h s c).1.isOk ↔ Answered h s keys key) ∧
      Seen h s (key :: keys) (q.ask h s c).2 := by
  cases q with
  | isValidCd => simp [Query.listed] at hq
  | getInfo => simp [Query.listed] at hq
  | isValidIso d path checkArch =>
    obtain ⟨content, hf, hsize, hkey⟩ : ∃ content, s.files (h.abspath path) = some content ∧
        d.wrongSize content.length = false ∧ h.abspath (h.abspath path) = key := by
      cases hf : s.files (h.abspath path) with
      | none => simp [Query.listed, hf] at hq
      | some content => exact ⟨content, rfl, by simpa [Query.listed, hf] using hq⟩
    have hfresh : (Query.isValidIso d path checkArch).fresh h s =
        .valid <$> judge h s d path checkArch (h.freshNames s key) := by
      rw [← hkey]
      exact congrArg (Functor.map Verdict.valid) (isValidIso_listed checkArch hf hsize
        ((Seen.empty h s).getIsoFileNames_first (by simp)) ((Seen.empty h s).setNames _)).1
    by_cases hk : key ∈ keys
    · obtain ⟨hv, hc'⟩ := isValidIso_listed checkArch hf hsize
        (hc.getIsoFileNames_again (hkey ▸ hk)) hc
      refine ⟨?_, hc'.congr fun k => by simpa using fun hkk => hkk ▸ hk⟩
      simp only [hfresh, Query.ask, hv, hkey, answered_iff, hk, not_true, and_false, or_false,
        Platform.keptNames, Platform.freshNames]
      -- the cache holds `None` unless the listing went well
      rcases h.listing s key with e | _ | names
      · simp [judge, Except.isOk, Except.toBool]
      · simp [judge, Except.isOk, Except.toBool]
      · simp [judge, Except.isOk, Except.toBool]
    · obtain ⟨hv, hc'⟩ := isValidIso_listed checkArch hf hsize
        (hc.getIsoFileNames_first (hkey ▸ hk)) (hc.setNames _)
      rw [hkey] at hv hc'
      refine ⟨?_, hc'⟩
      simp only [hfresh, Query.ask, hv, answered_iff, hk, not_false_eq_true, and_true,
        Platform.freshNames]
      rcases h.listing s key with e | _ | names
      · simp [judge, Except.isOk, Except.toBool]
      · simp [judge, Except.isOk, Except.toBool]
      · simp [judge, Except.isOk, Except.toBool]

/-- Every query of a sequence, after the ISOs `keys` have been listed. -/
theorem Seen.askAll {keys : List Text} {c : Caches} (hc : Seen h s keys c) (qs : List Query) :
    (Media.askAll h s qs c = qs.map (Query.fresh h s) ∧ ∀ r ∈ Media.askAll h s qs c, r.isOk) ↔
      ∀ earlier key later, qs.filterMap (Query.listed h s) = earlier ++ key :: later →
        Answered h s (earlier ++ keys) key := by
  induction qs generalizing keys c with
  | nil => simp [Media.askAll]
  | cons q qs ih =>
    rw [Media.askAll, List.map_cons, List.cons.injEq, List.forall_mem_cons, and_and_and_comm]
    cases hq : q.listed h s with
    | none =>
      obtain ⟨hf, hok, hc'⟩ := hc.ask_unlisted hq
      rw [List.filterMap_cons_none hq, ← ih hc', hf]
      exact and_iff_right ⟨rfl, hok⟩
    | some key =>
      obtain ⟨hans, hc'⟩ := hc.ask_listed hq
      rw [List.filterMap_cons_some hq, ih hc', hans]
      constructor
      · rintro ⟨hk, hrest⟩ earlier key' later heq
        rcases List.cons_eq_append_iff.mp heq with ⟨rfl, hh⟩ | ⟨earlier', rfl, hh⟩
        · obtain ⟨rfl, -⟩ := List.cons.inj hh
          exact hk
        · have hk' := hrest earlier' key' later hh
          simpa [Answered, or_left_comm] using hk'
      · refine fun hall => ⟨hall [] key _ rfl, fun earlier key' later heq => ?_⟩
        have hk' := hall (key :: earlier) key' later (by rw [heq]; rfl)
        simpa [Answered, or_left_comm] using hk'

/-- The caches are invisible in a sequence of queries exactly when each ISO whose listing it asks
for can be listed, or is asked about for the first time and makes 7z fail. -/
theorem caches_invisible_iff (h : Platform) (s : Storage) (qs : List Query) :
    (askAll h s qs .empty = qs.map (Query.fresh h s) ∧ ∀ r ∈ askAll h s qs .empty, r.isOk) ↔
      ∀ earlier key later, qs.filterMap (Query.listed h s) = earlier ++ key :: later →
        Lists h s key ∨ Fails h s key ∧ key ∉ earlier := by
  have hiff := (Seen.empty h s).askAll qs
  simpa only [Answered, List.append_nil] using hiff

/-- An ISO on which 7z fails. -/
private def brokenIso : Platform × Storage where
  fst := {
    abspath := id
    normpath := id
    list _ := none
    extract _ _ := none
    diskInfoRe _ := none }
  snd := {
    files path := if path = "c:\\broken.iso".toList then some "bytes".toList else none
    dirs _ := none }

private def startosI686 : Distro where
  id := 0
  name := "StartOS".toList
  arch := "i686".toList
  kernel := "casper\\vmlinuz".toList
  initrd := "casper\\initrd.img".toList
  md5sums := "md5sum".toList
  infoFile := ".disk\\info".toList
  size := 0
  minIsoSize := 0
  maxIsoSize := 0
  filesToCheck := ["casper\\filesystem.squashfs".toList]
  metalinkUrl := []
  metalinkUrl2 := []
  metalinkMd5sums := "MD5SUMS-metalink".toList
  metalinkMd5sumsSignature := "MD5SUMS-metalink.gpg".toList

/-- The second distribution that is compared with a broken ISO meets the `None` in the cache. -/
theorem broken_iso_raises :
    askAll brokenIso.1 brokenIso.2
      [.isValidIso startosI686 "c:\\broken.iso".toList true,
        .isValidIso { startosI686 with id := 1, arch := "x86_64".toList } "c:\\broken.iso".toList
          true] .empty =
      [.ok (.valid false), .error .typeError] ∧
    Query.fresh brokenIso.1 brokenIso.2
      (.isValidIso { startosI686 with id := 1, arch := "x86_64".toList } "c:\\broken.iso".toList
        true) = .ok (.valid false) := by
  decide

end Swinst.Media
