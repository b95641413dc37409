import Swinst.Templates.FillIn
import Mathlib.Data.List.Nodup

/-! For which user names and passwords `create_preseed` writes its file: all the rest is ASCII. -/

namespace Swinst.Templates

open Substitution

theorem isAscii_decimal (n : Int) : (Text.decimal n).isAscii := by
  have hdigits (n : Nat) : Text.isAscii (Nat.toDigits 10 n) := by
    rw [Text.isAscii_iff]
    intro c hc
    have hdigit : c.isDigit = true := Nat.isDigit_of_mem_toDigits (by decide) (by decide) hc
    have hle : c.val.toNat ≤ 57 := by
      simp only [Char.isDigit, Bool.and_eq_true, decide_eq_true_eq] at hdigit
      exact hdigit.2
    exact Nat.lt_of_le_of_lt hle (by decide)
  cases n with
  | ofNat n => exact hdigits n
  | negSucc n =>
    rw [Text.isAscii_iff, Text.decimal, List.forall_mem_cons]
    exact ⟨by decide, Text.isAscii_iff.mp (hdigits (n + 1))⟩

theorem isAscii_replaceChar {s : Text} (h : s.isAscii) (a : Char) {b : Char} (hb : b.toNat < 128) :
    (s.replaceChar a b).isAscii := by
  rw [Text.isAscii_iff] at *
  intro c hc
  obtain ⟨d, hd, rfl⟩ := List.mem_map.mp hc
  split
  · exact hb
  · exact h d hd

theorem isAscii_drop {s : Text} (h : s.isAscii) (n : Nat) : Text.isAscii (s.drop n) :=
  Text.isAscii_of_subset (List.drop_subset n s) h

theorem isAscii_unixPath {s : Text} (h : s.isAscii) : s.unixPath.isAscii :=
  Text.isAscii_of_subset (Text.unixPath_subset s) (isAscii_replaceChar h '\\' (by decide))

/-- A string in ASCII, of either type. -/
def Plain (s : PyStr) : Prop := s.text.isAscii = true

instance (s : PyStr) : Decidable (Plain s) := inferInstanceAs (Decidable (_ = true))

theorem Plain.decodable {s : PyStr} (h : Plain s) : s.Decodable := .of_isAscii h

theorem Plain.map {s : PyStr} {f : Text → Text} (h : (f s.text).isAscii = true) :
    Plain (s.map f) := (congrArg Text.isAscii (PyStr.text_map f s)).trans h

theorem Plain.bytes {s : Text} (h : s.isAscii = true) : Plain (.bytes s) := h

theorem Plain.append {s t : PyStr} (hs : Plain s) (ht : Plain t) :
    ∃ r, s.append t = .ok r ∧ Plain r := by
  obtain ⟨r, hr, htext, -⟩ := hs.decodable.append ht.decodable
  refine ⟨r, hr, ?_⟩
  rw [Plain, htext, Text.isAscii_append, hs, ht]
  rfl

theorem Plain.concat {ss : List PyStr} (h : ∀ s ∈ ss, Plain s) :
    ∃ r, PyStr.concat ss = .ok r ∧ Plain r := by
  obtain ⟨r, hr, htext, -⟩ := PyStr.Decodable.concat fun s hs => (h s hs).decodable
  refine ⟨r, hr, ?_⟩
  rw [Plain, htext, Text.isAscii_iff]
  intro c hc
  obtain ⟨t, ht, hc⟩ := List.mem_flatten.mp hc
  obtain ⟨s, hs, rfl⟩ := List.mem_map.mp ht
  exact Text.isAscii_iff.mp (h s hs) c hc

theorem diskLine_ok {disksDir : PyStr} (h : Plain disksDir) {name rest : String}
    (hname : Plain (.bytes name.toList)) (hrest : Plain (.bytes rest.toList)) (mb size : Int) :
    ∃ r, diskLine disksDir name mb size rest = .ok r ∧ Plain r := by
  unfold diskLine
  split
  · exact ⟨_, rfl, rfl⟩
  · obtain ⟨disk, hdisk, hplain⟩ := h.append hname
    have hsize : Plain (.bytes (Text.decimal size)) := isAscii_decimal size
    have hmb : Plain (.bytes (Text.decimal mb)) := isAscii_decimal mb
    have hspace : Plain (.bytes " ".toList) := by decide
    rw [hdisk]
    refine Plain.concat ?_
    simp only [List.forall_mem_cons]
    exact ⟨by decide, hplain, hspace, hmb, hspace, hsize, hspace, hsize, hrest, by simp⟩

theorem partitioning_ok {info : Info} (h : Plain info.disksDir) :
    ∃ r, partitioning info = .ok r ∧ Plain r := by
  have hunix : Plain (info.disksDir.map Text.unixPath) := .map (isAscii_unixPath h)
  have hslash : Plain (.bytes "/".toList) := by decide
  obtain ⟨disksDir, hdir, hplain⟩ := hunix.append hslash
  have hline {name rest : String} (hname : Plain (.bytes name.toList))
      (hrest : Plain (.bytes rest.toList)) (mb size : Int) :
      ∃ r, diskLine disksDir name mb size rest = .ok r ∧ Plain r :=
    diskLine_ok hplain hname hrest mb size
  obtain ⟨root, hroot, hroot'⟩ : ∃ r, diskLine disksDir "root.disk" 3000 info.rootSizeMb
      (filesystem "/") = .ok r ∧ Plain r := hline (by decide) (by decide +kernel) _ _
  obtain ⟨swap, hswap, hswap'⟩ : ∃ r, diskLine disksDir "swap.disk" 100 info.swapSizeMb
      " linux-swap method\x7b swap \x7d format\x7b \x7d . \\\n" = .ok r ∧ Plain r :=
    hline (by decide) (by decide +kernel) _ _
  obtain ⟨home, hhome, hhome'⟩ : ∃ r, diskLine disksDir "home.disk" 100 info.homeSizeMb
      (filesystem "/home") = .ok r ∧ Plain r := hline (by decide) (by decide +kernel) _ _
  obtain ⟨usr, husr, husr'⟩ : ∃ r, diskLine disksDir "usr.disk" 100 info.usrSizeMb
      (filesystem "/usr") = .ok r ∧ Plain r := hline (by decide) (by decide +kernel) _ _
  unfold partitioning
  rw [hdir]
  simp only [bind, Except.bind, hroot, hswap, hhome, husr]
  refine Plain.concat ?_
  simp only [List.forall_mem_cons]
  exact ⟨by decide +kernel, by decide +kernel, by decide +kernel, by decide +kernel, hroot', hswap',
    hhome', husr', by decide, by simp⟩

/-! ## The loop -/

/-- The loop on strings of either type is the loop on their texts. -/
theorem fillIn_ok {items : List (Text × PyStr)}
    (h : ∀ item ∈ items, Plain (.bytes (placeholder item.1)) ∧ item.2.Decodable) {template : PyStr}
    (ht : template.Decodable) : ∃ r, fillIn items template = .ok r ∧ r.Decodable ∧
      r.text = replaceLoop (texts items) template.text := by
  induction items generalizing template with
  | nil => exact ⟨template, rfl, ht, rfl⟩
  | cons item items ih =>
    obtain ⟨⟨hkey, hvalue⟩, hitems⟩ := List.forall_mem_cons.mp h
    obtain ⟨next, hnext, htext, hdec⟩ := ht.replace hkey.decodable hvalue
    obtain ⟨r, hr, hrdec, hrtext⟩ := ih hitems hdec
    refine ⟨r, ?_, hrdec, ?_⟩
    · rw [fillIn, List.foldlM_cons, hnext]
      exact hr
    · rw [hrtext, htext]
      rfl

theorem isAscii_replaceLoop {items : List (Text × Text)} (h : ∀ item ∈ items, item.2.isAscii)
    {template : Text} (ht : template.isAscii) : (replaceLoop items template).isAscii := by
  induction items generalizing template with
  | nil => exact ht
  | cons item items ih =>
    obtain ⟨hitem, hitems⟩ := List.forall_mem_cons.mp h
    exact ih hitems (PyStr.isAscii_replace hitem ht)

/-- A letter that is in no placeholder stays to the end. -/
theorem mem_replaceLoop {K : Keys} {items : List (Text × Text)} {c : Char}
    (h : ∀ item ∈ items, item.1 ∈ K.names ∧ c ∉ placeholder item.1) {template : Text}
    (ht : c ∈ template) : c ∈ replaceLoop items template := by
  induction items generalizing template with
  | nil => exact ht
  | cons item items ih =>
    obtain ⟨⟨hin, hc⟩, hitems⟩ := List.forall_mem_cons.mp h
    exact ih hitems (mem_replace_of_mem K.separate hin hc ht)

/-- One value between others that are in ASCII: the text is in ASCII if the value is, and only then
when its placeholder is in the template. -/
theorem isAscii_around {K : Keys} (hK : ∀ k ∈ K.names, Text.isAscii (placeholder k)) {k v : Text}
    (hk : k ∈ K.names) {before after : List (Text × Text)}
    (h : ∀ item ∈ before ++ after, item.1 ∈ K.names ∧ item.1 ≠ k ∧ item.2.isAscii) {template : Text}
    (ht : template.isAscii) :
    (v.isAscii → (replaceLoop (before ++ (k, v) :: after) template).isAscii) ∧
      ((replaceLoop (before ++ (k, v) :: after) template).isAscii →
        placeholder k <:+: template → v.isAscii) := by
  refine ⟨fun hv => isAscii_replaceLoop (fun item hitem => ?_) ht, fun hend hp => ?_⟩
  · rcases List.mem_append.mp hitem with hitem | hitem
    · exact (h item (List.mem_append_left _ hitem)).2.2
    · rcases List.mem_cons.mp hitem with rfl | hitem
      · exact hv
      · exact (h item (List.mem_append_right _ hitem)).2.2
  · rw [Text.isAscii_iff] at hend ⊢
    intro c hc
    by_contra hlt
    have hbefore : placeholder k <:+: replaceLoop before template :=
      replaceLoop_keeps hk (fun item hitem =>
        have hitem := h item (List.mem_append_left _ hitem)
        ⟨hitem.1, hitem.2.1⟩) hp
    have hturn : c ∈ replace (placeholder k) v (replaceLoop before template) :=
      subset_replace K.separate hk hbefore hc
    refine hlt (hend c ?_)
    rw [replaceLoop_append, replaceLoop_cons]
    refine mem_replaceLoop (K := K) (fun item hitem => ?_) hturn
    have hkey := (h item (List.mem_append_right before hitem)).1
    exact ⟨hkey, fun hmem => hlt (Text.isAscii_iff.mp (hK _ hkey) c hmem)⟩

/-! ## The whole function -/

/-- What the host says is in ASCII. -/
def Info.HostPlain (info : Info) : Prop :=
  ∀ s ∈ [info.packages, info.disksDir, info.timezone, info.hostUsername, info.userFullName,
    info.userDirectory], Plain s

/-- Everything in `dic` but the user name. -/
theorem dic_plain {info : Info} (h : info.HostPlain) (hinstmod : Plain info.instmod)
    (hautologin : Plain info.autologin) {password partitioning : PyStr} (hpassword : Plain password)
    (hpartitioning : Plain partitioning) :
    ∀ item ∈ dic info password partitioning, item.1 ≠ "username".toList → Plain item.2 := by
  simp only [Info.HostPlain, List.forall_mem_cons] at h
  obtain ⟨hpackages, -, htimezone, hhost, hfull, hdir, -⟩ := h
  have hdir' : Plain (info.userDirectory.map fun s => (s.replaceChar '\\' '/').drop 2) :=
    .map (isAscii_drop (isAscii_replaceChar hdir '\\' (by decide)) 2)
  have hhost' : Plain (info.hostUsername.map (·.replaceChar ' ' '+')) :=
    .map (isAscii_replaceChar hhost ' ' (by decide))
  simp only [dic, List.forall_mem_cons]
  exact ⟨fun _ => htimezone, fun _ => hpassword, fun _ => hfull, fun _ => hpackages,
    fun _ => hhost, fun h => (h rfl).elim, fun _ => hpartitioning, fun _ => hdir',
    fun _ => hhost', fun _ => by decide, fun _ => hinstmod, fun _ => hautologin, by simp⟩

theorem placeholder_plain {k : Text} (hk : k ∈ preseedKeys.names) :
    Plain (.bytes (placeholder k)) := by
  revert k
  decide +kernel

section content

variable {env : Env} {salt : Salt} {info : Info} {files : Files} {template : Text}

/-- With a password in ASCII, nothing raises before the file is written, and whether it can be
written depends on the user name. -/
theorem preseedContent_ok (salt : Salt) {bytes user : Text} (hhost : info.HostPlain)
    (hinstmod : Plain info.instmod) (hautologin : Plain info.autologin)
    (huser : info.username = .unicode user) (hpassword : info.password.encode = .ok bytes)
    (hread : readFile files (templateFile env info files) = some template)
    (htemplate : template.isAscii) :
    ∃ content, preseedContent env salt info files = .ok content ∧ content.Decodable ∧
      (user.isAscii → content.text.isAscii) ∧
      (content.text.isAscii → placeholder "username".toList <:+: template → user.isAscii) := by
  obtain ⟨part, hpart, hpart'⟩ := partitioning_ok (hhost info.disksDir (by simp))
  obtain ⟨hash, hhash, hhash'⟩ : ∃ s, md5Password env.md5 salt info.password = .ok (.bytes s) ∧
      s.isAscii := md5Password_ok hpassword
  have hdic := dic_plain hhost hinstmod hautologin (.bytes hhash') hpart'
  have huser' : ("username".toList, info.username) ∈ dic info (.bytes hash) part := by simp [dic]
  obtain ⟨before, after, hitems, hin, hother⟩ := items_split env huser'
  have hvalues : ∀ item ∈ env.items (dic info (.bytes hash) part),
      Plain (.bytes (placeholder item.1)) ∧ item.2.Decodable := by
    intro item hitem
    have hmem := (env.items_perm _).subset hitem
    refine ⟨placeholder_plain (key_mem hmem), ?_⟩
    by_cases hkey : item.1 = "username".toList
    · rw [hitems, List.mem_append, List.mem_cons] at hitem
      rcases hitem with hitem | rfl | hitem
      · exact (hother item (List.mem_append_left _ hitem) hkey).elim
      · rw [huser]
        trivial
      · exact (hother item (List.mem_append_right _ hitem) hkey).elim
    · exact (hdic item hmem hkey).decodable
  obtain ⟨content, hcontent, hdec, htext⟩ : ∃ content, fillIn _ (.bytes template) = .ok content ∧
    content.Decodable ∧ content.text = replaceLoop (texts _) template := fillIn_ok hvalues htemplate
  have hsplit : texts (env.items (dic info (.bytes hash) part)) =
      texts before ++ ("username".toList, user) :: texts after := by
    rw [hitems, texts, List.map_append, List.map_cons, huser]
    rfl
  have hothers : ∀ item ∈ texts before ++ texts after, item.1 ∈ preseedKeys.names ∧
      item.1 ≠ "username".toList ∧ item.2.isAscii := by
    intro item hitem
    rw [texts, texts, ← List.map_append] at hitem
    obtain ⟨pair, hpair, rfl⟩ := List.mem_map.mp hitem
    exact ⟨key_mem (hin pair hpair), hother pair hpair,
      hdic pair (hin pair hpair) (hother pair hpair)⟩
  refine ⟨content, ?_, hdec, ?_⟩
  · unfold preseedContent
    simp only [hpart, hhash, hread, bind, Except.bind]
    exact hcontent
  · rw [htext, hsplit]
    exact isAscii_around (fun _ => placeholder_plain) (by decide +kernel) hothers htemplate

/-- `create_preseed` comes to its end, and the file is there. -/
def Writes (env : Env) (salt : Salt) (info : Info) (files : Files) : Prop :=
  (createPreseed env salt info files).1 = .ok () ∧
    ((createPreseed env salt info files).2 (preseedFile env info)).isSome = true

theorem writes_of_content {content : PyStr} (h : preseedContent env salt info files = .ok content)
    (hdec : content.Decodable) : Writes env salt info files ↔ content.text.isAscii = true := by
  have hne : preseedFile env info ≠ [] := env.join_ne _ _
  unfold Writes createPreseed
  rw [h]
  dsimp only
  rw [writeFile, if_neg hne, hdec.encode]
  split
  · next hc => split at hc <;> simp_all
  · next hc => split at hc <;> simp_all

end content

/-- The user has left the page, and `create_preseed` comes to run, with a host and a template in
ASCII. -/
structure Ready (page : InstallationPage) (env : Env) (info : Info) (files : Files)
    (template : Text) : Prop where
  accepted : ∃ before : Info, before.HostPlain ∧ page.onInstall before = some info
  read : readFile files (templateFile env info files) = some template
  plain : template.isAscii = true

/-- What the user has typed in is in ASCII. -/
def InstallationPage.Ascii (page : InstallationPage) : Prop :=
  Text.isAscii (page.username.getD []) = true ∧ Text.isAscii (page.password1.getD []) = true

section ready

variable {page : InstallationPage} {env : Env} {info : Info} {files : Files} {template : Text}

theorem plain_checked (b : Bool) : Plain (InstallationPage.checked b) := by
  cases b <;> decide

/-- The fields of `info` then. -/
theorem Ready.fields (h : Ready page env info files template) : info.HostPlain ∧
    Plain info.instmod ∧ Plain info.autologin ∧
    info.username = .unicode (page.username.getD []) ∧
    info.password = .unicode (page.password1.getD []) := by
  obtain ⟨before, hhost, hinstall⟩ := h.accepted
  unfold InstallationPage.onInstall at hinstall
  split at hinstall
  · obtain rfl := Option.some.inj hinstall
    exact ⟨hhost, plain_checked _, plain_checked _, rfl, rfl⟩
  · cases hinstall

theorem Ready.writes (h : Ready page env info files template) (ha : page.Ascii) (salt : Salt) :
    Writes env salt info files := by
  obtain ⟨hhost, hinstmod, hautologin, huser, hpassword⟩ := h.fields
  have hencode : info.password.encode = .ok (page.password1.getD []) := by
    rw [hpassword]
    exact if_pos ha.2
  obtain ⟨content, hcontent, hdec, hascii, -⟩ := preseedContent_ok salt hhost hinstmod
    hautologin huser hencode h.read h.plain
  exact (writes_of_content hcontent hdec).mpr (hascii ha.1)

theorem Ready.ascii (h : Ready page env info files template)
    (hp : placeholder "username".toList <:+: template) {salt : Salt}
    (hw : Writes env salt info files) : page.Ascii := by
  obtain ⟨hhost, hinstmod, hautologin, huser, hpassword⟩ := h.fields
  cases hencode : info.password.encode with
  | error e =>
    -- `md5_password` raises
    obtain ⟨part, hpart, -⟩ := partitioning_ok (hhost info.disksDir (by simp))
    have hcontent : preseedContent env salt info files = .error e := by
      unfold preseedContent
      rw [hpart, md5Password_error hencode]
      rfl
    have herror := hw.1
    rw [createPreseed, hcontent] at herror
    cases herror
  | ok bytes =>
    obtain ⟨content, hcontent, hdec, -, hascii⟩ := preseedContent_ok salt hhost hinstmod
      hautologin huser hencode h.read h.plain
    refine ⟨hascii ((writes_of_content hcontent hdec).mp hw) hp, ?_⟩
    by_contra hne
    rw [hpassword, PyStr.encode, if_neg hne] at hencode
    cases hencode

end ready

/-- A computer whose only template is the user name. -/
private def plainFiles : Files := fun path =>
  if path = plainEnv.join "data".toList "preseed.lupin".toList then
    some (placeholder "username".toList)
  else none

private def plainInfo : Info where
  dataDir := "data".toList
  custominstall := "custom".toList
  distroName := "StartOS".toList
  packages := .bytes []
  disksDir := .bytes "C:\\startos\\disks".toList
  rootSizeMb := 4000
  swapSizeMb := 256
  homeSizeMb := 0
  usrSizeMb := 0
  timezone := .bytes "Asia/Shanghai".toList
  hostUsername := .unicode "host".toList
  userFullName := .unicode "host".toList
  userDirectory := .unicode "C:\\Users\\host".toList
  username := .unicode []
  password := .unicode []
  instmod := .bytes []
  autologin := .bytes []

private theorem plain_ready {page : InstallationPage} (h : page.Accepted) :
    ∃ info, Ready page plainEnv info plainFiles (placeholder "username".toList) := by
  refine ⟨_, ⟨plainInfo, ?_, if_pos h⟩, ?_, ?_⟩
  · simp only [Info.HostPlain, List.forall_mem_cons]
    decide +kernel
  · change readFile plainFiles (templateFile plainEnv plainInfo plainFiles) = _
    decide +kernel
  · decide +kernel

/-- When the user has left the page, `create_preseed` writes its file for every host and every
template, if and only if the user name and the password are in ASCII; so it does for each template
that has a place for the user name. -/
theorem createPreseed_writes_iff {page : InstallationPage} (h : page.Accepted) :
    ((∀ env info files template, Ready page env info files template →
        ∀ salt, Writes env salt info files) ↔ page.Ascii) ∧
      ∀ env info files template, Ready page env info files template →
        placeholder "username".toList <:+: template →
        ∀ salt, Writes env salt info files ↔ page.Ascii := by
  refine ⟨⟨fun hall => ?_, fun ha env info files template hr salt => hr.writes ha salt⟩,
    fun env info files template hr hp salt => ⟨fun hw => hr.ascii hp hw, fun ha => hr.writes ha salt⟩⟩
  obtain ⟨info, hr⟩ := plain_ready h
  exact hr.ascii List.infix_rfl (hall _ _ _ _ hr plainSalt)

private def pageOf (username password : String) : InstallationPage where
  installationSizeMb := 10000
  username := some username.toList
  password1 := some password.toList
  password2 := some password.toList
  instmod := false
  autologin := false

theorem createPreseed_writes_plain :
    ∃ info, Ready (pageOf "user" "secret") plainEnv info plainFiles
      (placeholder "username".toList) ∧ Writes plainEnv plainSalt info plainFiles := by
  have haccepted : (pageOf "user" "secret").Accepted := by decide +kernel
  obtain ⟨info, hr⟩ := plain_ready haccepted
  have hascii : (pageOf "user" "secret").Ascii := ⟨by decide +kernel, by decide +kernel⟩
  exact ⟨info, hr, (createPreseed_writes_iff haccepted).1.mpr hascii _ _ _ _ hr plainSalt⟩

/-- The page accepts a Chinese user name; writing the file then raises. -/
theorem chinese_username_raises :
    (pageOf "用户" "secret").Accepted ∧
      ∃ info, Ready (pageOf "用户" "secret") plainEnv info plainFiles
        (placeholder "username".toList) ∧ ¬ Writes plainEnv plainSalt info plainFiles := by
  have haccepted : (pageOf "用户" "secret").Accepted := by decide +kernel
  obtain ⟨info, hr⟩ := plain_ready haccepted
  refine ⟨haccepted, info, hr, fun hw => ?_⟩
  have hascii : (pageOf "用户" "secret").Ascii := hr.ascii List.infix_rfl hw
  exact absurd hascii.1 (by decide +kernel)

end Swinst.Templates
