import Swinst.Disks.Sizes
import Swinst.Templates.FillIn

/-! The recipe of the partitions that `create_preseed` writes, as a list of disks with their sizes. -/

namespace Swinst.Disks

open Templates Substitution

/-! ## The recipe -/

/-- The disks that the recipe names, with the sizes that it states. -/
def recipe (sizes : Sizes) : List (Disk × Int) :=
  ([Disk.root, .swap, .home, .usr].map fun d => (d, sizes d)).filter (·.2 ≠ 0)

def Disk.fileName : Disk → String
  | root => "root.disk"
  | home => "home.disk"
  | usr => "usr.disk"
  | swap => "swap.disk"

def Disk.minimum : Disk → Int
  | root => 3000
  | home | usr | swap => 100

/-- The end of the line of a disk. -/
def Disk.options : Disk → String
  | root => filesystem "/"
  | home => filesystem "/home"
  | usr => filesystem "/usr"
  | swap => " linux-swap method\x7b swap \x7d format\x7b \x7d . \\\n"

def recipeHeader : List Text :=
  ["d-i partman-auto/disk string LIDISK\n", "d-i partman-auto/method string loop\n",
    "d-i partman-auto-loop/partition string LIPARTITION\n",
    "d-i partman-auto-loop/recipe string \\\n"].map String.toList

def recipeLine (disksDir : Text) (d : Disk) (size : Int) : List Text :=
  ["  ".toList, disksDir ++ d.fileName.toList, " ".toList, Text.decimal d.minimum, " ".toList,
    Text.decimal size, " ".toList, Text.decimal size, d.options.toList]

def recipeText (disksDir : Text) (l : List (Disk × Int)) : Text :=
  (recipeHeader ++ (l.flatMap fun (d, size) => recipeLine disksDir d size) ++ ["\n".toList]).flatten

def sizesOf (info : Info) : Sizes
  | .root => info.rootSizeMb
  | .home => info.homeSizeMb
  | .usr => info.usrSizeMb
  | .swap => info.swapSizeMb

def setSizes (sizes : Sizes) (info : Info) : Info :=
  { info with
    rootSizeMb := sizes .root
    homeSizeMb := sizes .home
    usrSizeMb := sizes .usr
    swapSizeMb := sizes .swap }

@[simp] theorem sizesOf_setSizes (sizes : Sizes) (info : Info) :
    sizesOf (setSizes sizes info) = sizes := by
  funext d
  cases d <;> rfl

theorem mem_recipe {sizes : Sizes} {d : Disk} {n : Int} :
    (d, n) ∈ recipe sizes ↔ n = sizes d ∧ n ≠ 0 := by
  rw [recipe, List.mem_filter, decide_eq_true_iff]
  refine and_congr_left fun _ => ?_
  constructor
  · intro h
    obtain ⟨_, -, h⟩ := List.mem_map.mp h
    cases h
    rfl
  · rintro rfl
    exact List.mem_map.mpr ⟨d, by cases d <;> decide, rfl⟩

theorem nodup_recipe (sizes : Sizes) : ((recipe sizes).map Prod.fst).Nodup := by
  refine List.Nodup.sublist (List.filter_sublist.map Prod.fst) ?_
  exact (by decide : [Disk.root, .swap, .home, .usr].Nodup)

theorem diskLine_text {disksDir r : PyStr} {d : Disk} {size : Int}
    (h : diskLine disksDir d.fileName d.minimum size d.options = .ok r) :
    r.text = if size = 0 then [] else (recipeLine disksDir.text d size).flatten := by
  unfold diskLine at h
  split at h
  · next hsize =>
    rw [← Except.ok.inj h, if_pos hsize]
    rfl
  · next hsize =>
    obtain ⟨disk, hdisk, h⟩ := bind_eq_ok h
    rw [PyStr.concat_text h, if_neg hsize]
    simp only [List.map_cons, List.map_nil, PyStr.append_text hdisk, PyStr.text_bytes, recipeLine]

theorem flatten_recipe (disksDir : Text) (sizes : Sizes) (l : List Disk) :
    (((l.map fun d => (d, sizes d)).filter (·.2 ≠ 0)).flatMap fun (d, size) =>
      recipeLine disksDir d size).flatten =
    (l.map fun d => if sizes d = 0 then [] else (recipeLine disksDir d (sizes d)).flatten).flatten := by
  induction l with
  | nil => rfl
  | cons d l ih =>
    rw [List.map_cons, List.map_cons, List.flatten_cons, ← ih]
    by_cases hd : sizes d = 0
    · rw [List.filter_cons_of_neg (by simpa using hd), if_pos hd, List.nil_append]
    · rw [List.filter_cons_of_pos (by simpa using hd), if_neg hd, List.flatMap_cons,
        List.flatten_append]

theorem partitioning_text {info : Info} {part : PyStr} (h : partitioning info = .ok part) :
    part.text = recipeText (info.disksDir.text.unixPath ++ ['/']) (recipe (sizesOf info)) := by
  obtain ⟨dir, hdir, h⟩ := bind_eq_ok h
  obtain ⟨root, hroot, h⟩ := bind_eq_ok h
  obtain ⟨swap, hswap, h⟩ := bind_eq_ok h
  obtain ⟨home, hhome, h⟩ := bind_eq_ok h
  obtain ⟨usr, husr, h⟩ := bind_eq_ok h
  have hdir' : dir.text = info.disksDir.text.unixPath ++ ['/'] := by
    rw [PyStr.append_text hdir, PyStr.text_map]
    rfl
  have hline {d : Disk} {r : PyStr}
      (h : diskLine dir d.fileName d.minimum (sizesOf info d) d.options = .ok r) :
      r.text = if sizesOf info d = 0 then [] else (recipeLine dir.text d (sizesOf info d)).flatten :=
    diskLine_text h
  rw [PyStr.concat_text h, recipeText, recipe, List.flatten_append, List.flatten_append,
    flatten_recipe]
  simp only [List.map_cons, List.map_nil, hline (d := .root) hroot, hline (d := .swap) hswap,
    hline (d := .home) hhome, hline (d := .usr) husr, hdir', PyStr.text_bytes, recipeHeader,
    List.flatten_cons, List.flatten_nil, List.append_nil, List.append_assoc]

/-! ## The recipe in the file -/

/-- What every placeholder begins with. -/
def opening : Text := ['$', '(']

theorem noStart_of_not_mem {z : Text} (hz : '$' ∉ z) (s : Text) : NoStart opening z s := by
  intro t ht hsuf hpre
  cases t with
  | nil => exact ht rfl
  | cons c t =>
    obtain ⟨rfl, -⟩ := List.cons_prefix_cons.mp hpre
    exact hz (hsuf.subset List.mem_cons_self)

theorem noStart_of_getLast? {z : Text} {c : Char} (hz : ¬ opening <:+: z)
    (hlast : z.getLast? = some c) (hc : c ∉ opening) (s : Text) : NoStart opening z s := by
  refine .of_ends hz (fun u hu hsuf hpre => ?_) s
  obtain ⟨t, rfl⟩ := hsuf
  rw [List.getLast?_append_of_ne_nil t hu] at hlast
  exact hc (hpre.subset (List.mem_of_getLast? hlast))

theorem noStart_flatten {l : List Text} (h : ∀ z ∈ l, ∀ s, NoStart opening z s) (s : Text) :
    NoStart opening l.flatten s := by
  induction l with
  | nil => exact fun t ht hsuf => (ht (List.suffix_nil.mp hsuf)).elim
  | cons z l ih =>
    obtain ⟨hz, hl⟩ := List.forall_mem_cons.mp h
    exact .append hz (ih hl)

theorem dollar_not_mem_decimal (n : Int) : '$' ∉ Text.decimal n := by
  have hdigits (n : Nat) : '$' ∉ Nat.toDigits 10 n := by
    intro h
    exact absurd (Nat.isDigit_of_mem_toDigits (by decide) (by decide) h) (by decide)
  cases n with
  | ofNat n => exact hdigits n
  | negSucc n =>
    rw [Text.decimal, List.mem_cons, not_or]
    exact ⟨by decide, hdigits _⟩

theorem dollar_not_mem_unixPath {path : Text} (h : '$' ∉ path) : '$' ∉ path.unixPath := by
  intro hmem
  obtain ⟨c, hc, hcd⟩ := List.mem_map.mp (Text.unixPath_subset _ hmem)
  split at hcd
  · cases hcd
  · exact h (hcd ▸ hc)

theorem filesystem_toList (mountpoint : String) : (filesystem mountpoint).toList =
    " $default_filesystem method\x7b format \x7d format\x7b \x7d use_filesystem\x7b \x7d ".toList ++
      ("$default_filesystem\x7b \x7d mountpoint\x7b ".toList ++
        (mountpoint.toList ++ " \x7d . \\\n".toList)) := by
  unfold filesystem
  rw [String.toList_append, String.toList_append, String.toList_append, List.append_assoc,
    List.append_assoc]

theorem noStart_filesystem {mountpoint : String} (h : '$' ∉ mountpoint.toList) (s : Text) :
    NoStart opening (filesystem mountpoint).toList s := by
  rw [filesystem_toList]
  refine .append ?_ (.append ?_ (.append (noStart_of_not_mem h) (noStart_of_not_mem (by decide) s)))
  · exact noStart_of_getLast? (c := ' ') (by decide +kernel) (by decide +kernel) (by decide)
  · exact noStart_of_getLast? (c := ' ') (by decide +kernel) (by decide +kernel) (by decide)

theorem noStart_options (d : Disk) (s : Text) : NoStart opening d.options.toList s := by
  cases d with
  | root => exact noStart_filesystem (by decide) s
  | home => exact noStart_filesystem (by decide) s
  | usr => exact noStart_filesystem (by decide) s
  | swap => exact noStart_of_not_mem (by decide) s

theorem noStart_recipeLine {dir : Text} (hdir : '$' ∉ dir) (d : Disk) (size : Int) :
    ∀ z ∈ recipeLine dir d size, ∀ s, NoStart opening z s := by
  have hname : '$' ∉ dir ++ d.fileName.toList := by
    rw [List.mem_append, not_or]
    exact ⟨hdir, by cases d <;> decide⟩
  have hspace : '$' ∉ " ".toList := by decide
  have hdecimal (n : Int) : ∀ s, NoStart opening (Text.decimal n) s :=
    noStart_of_not_mem (dollar_not_mem_decimal n)
  simp only [recipeLine, List.forall_mem_cons]
  exact ⟨noStart_of_not_mem (by decide), noStart_of_not_mem hname, noStart_of_not_mem hspace,
    hdecimal _, noStart_of_not_mem hspace, hdecimal _, noStart_of_not_mem hspace, hdecimal _,
    noStart_options d, by simp⟩

theorem not_infix_recipeText {dir : Text} (hdir : '$' ∉ dir) (l : List (Disk × Int)) :
    ¬ opening <:+: recipeText dir l := by
  have hno : NoStart opening (recipeText dir l) [] := by
    refine noStart_flatten (fun z hz => ?_) []
    rw [List.mem_append, List.mem_append, List.mem_singleton, List.mem_flatMap] at hz
    rcases hz with (hz | ⟨⟨d, size⟩, -, hz⟩) | rfl
    · have hheader : ∀ z ∈ recipeHeader, '$' ∉ z := by decide +kernel
      exact noStart_of_not_mem (hheader z hz)
    · exact noStart_recipeLine hdir d size z hz
    · exact noStart_of_not_mem (by decide)
  intro h
  exact absurd (hno.later (by simpa using h)) (by decide)

/-- No placeholder touches the recipe, which is made of whole lines. -/
theorem not_touches_recipeText {dir k : Text} (hdir : '$' ∉ dir) (l : List (Disk × Int))
    (hk : k ∈ preseedKeys.names) : ¬ Touches (placeholder k) (recipeText dir l) := by
  let first : Text := "d-i partman-auto/disk string LIDISK\n".toList
  obtain ⟨rest, hfirst⟩ : ∃ rest, recipeText dir l = first ++ rest := ⟨_, rfl⟩
  have hnewline : '\n' ∉ placeholder k := by
    revert k
    decide +kernel
  rintro (h | h | ⟨u, v, hu, huv, h⟩ | ⟨u, v, hv, huv, h⟩)
  · refine hnewline (h.subset ?_)
    rw [hfirst]
    exact List.mem_append_left _ (by decide)
  · have hopening : opening <:+: placeholder k := List.IsPrefix.isInfix ⟨k ++ [')'], rfl⟩
    exact not_infix_recipeText hdir l (hopening.trans h)
  · -- a beginning of the recipe with which a placeholder ends has its `)`
    have hclose : ')' ∈ u := by
      have h : u <:+ ('$' :: '(' :: k) ++ [')'] := h
      rcases List.suffix_concat_iff.mp h with rfl | ⟨t, rfl, -⟩
      · exact (hu rfl).elim
      · simp
    have hpre : u <+: first ++ rest := ⟨v, (hfirst.symm.trans huv).symm⟩
    rcases prefix_append_cases hpre with hpre | ⟨w, rfl, -⟩
    · exact absurd (hpre.subset hclose) (by decide)
    · exact hnewline (h.subset (List.mem_append_left _ (by decide)))
  · have hend : '\n' ∈ v := by
      obtain ⟨lines, hlines⟩ : ∃ lines, recipeText dir l = lines ++ ['\n'] :=
        ⟨_, by rw [recipeText, List.flatten_append]; rfl⟩
      have hsuf : v <:+ lines ++ ['\n'] := ⟨u, (hlines.symm.trans huv).symm⟩
      rcases List.suffix_concat_iff.mp hsuf with rfl | ⟨t, rfl, -⟩
      · exact (hv rfl).elim
      · simp
    exact hnewline (h.subset hend)

/-- The recipe is in the text that `create_preseed` writes, if the template has a place for it. -/
theorem recipe_written {env : Env} {salt : Salt} {info : Info} {files : Files} {template : Text}
    {part content : PyStr} (h : preseedContent env salt info files = .ok content)
    (hread : readFile files (templateFile env info files) = some template)
    (hpart : partitioning info = .ok part) (hdir : '$' ∉ info.disksDir.text)
    (hplace : placeholder "partitioning".toList <:+: template) : part.text <:+: content.text := by
  unfold preseedContent at h
  rw [hpart, hread] at h
  obtain ⟨_, hok, h⟩ := bind_eq_ok h
  obtain rfl := Except.ok.inj hok
  obtain ⟨password, -, h⟩ := bind_eq_ok h
  have hmem : ("partitioning".toList, part) ∈ dic info password part := by simp [dic]
  obtain ⟨before, after, hitems, hin, hother⟩ := items_split env hmem
  have hkey : ∀ item ∈ texts before ++ texts after, item.1 ∈ preseedKeys.names ∧
      item.1 ≠ "partitioning".toList := by
    intro item hitem
    rw [texts, texts, ← List.map_append] at hitem
    obtain ⟨pair, hpair, rfl⟩ := List.mem_map.mp hitem
    exact ⟨key_mem (hin pair hpair), hother pair hpair⟩
  have hdir' : '$' ∉ info.disksDir.text.unixPath ++ ['/'] := by
    rw [List.mem_append, not_or]
    exact ⟨dollar_not_mem_unixPath hdir, by decide⟩
  have htext := fillIn_text h
  rw [hitems, texts, List.map_append, List.map_cons, replaceLoop_append, replaceLoop_cons] at htext
  rw [htext]
  refine replaceLoop_keeps_word (K := preseedKeys) (fun item hitem => ?_) ?_
  · have hitem := hkey item (List.mem_append_right _ hitem)
    refine ⟨hitem.1, ?_⟩
    rw [partitioning_text hpart]
    exact not_touches_recipeText hdir' _ hitem.1
  · have hturn : placeholder "partitioning".toList <:+: replaceLoop (texts before) template :=
      replaceLoop_keeps (K := preseedKeys) (key_mem hmem)
        (fun item hitem => hkey item (List.mem_append_left _ hitem)) hplace
    exact infix_replace preseedKeys.separate (key_mem hmem) hturn

end Swinst.Disks
