import Swinst.Metalink.Handler

/-! What `MetalinkHandler` finds in a document. The handler compares the path of every element with
the few that it knows; the same is said here as a recursion over the tree, and then of the elements
at each path. -/

namespace Swinst.Metalink

variable (u : Unicode)

/-! ## The files of a document -/

/-- The elements at a path below some nodes; the case of their names does not matter. -/
def below (names : List String) (xs : List Xml) : List Xml.Element := Xml.select u.lowerText (path names) xs

/-- The text of an element that the handler keeps -/
def contentOf (e : Xml.Element) : Text := unescape (u.strip (Xml.lastText e.children))

def numberOf (name : String) (e : Xml.Element) : Option Int := (attr e.attrs name).bind u.int?

def urlOf (e : Xml.Element) : MetalinkUrl where
  url := contentOf u e
  type := (attr e.attrs "type").getD []
  location := (attr e.attrs "location").getD []
  preference := (numberOf u "preference" e).getD (-1)
  maxconnections := (numberOf u "maxconnections" e).getD (-1)

/-- A hash must have a type. -/
def hashOf (e : Xml.Element) : Option MetalinkHash :=
  (attr e.attrs "type").map fun type => { type, hash := contentOf u e }

/-- The file of an element, without its piece hashes. A file must have a name; of several values the
last one counts, and of several numbers the last one that can be read. -/
def fileOf (e : Xml.Element) : Option MetalinkFile :=
  let text (name : String) : Text := ((below u [name] e.children).map (contentOf u)).getLastD []
  match attr e.attrs "name" with
  | none => none
  | some name =>
    if name = [] then none
    else some {
      name
      identity := text "identity"
      version := text "version"
      size := (((below u ["size"] e.children).map (contentOf u)).filterMap u.int?).getLastD (-1)
      description := text "description"
      language := text "language"
      os := text "os"
      hashes := (below u ["verification", "hash"] e.children).filterMap (hashOf u)
      pieceHashes := []
      pieceLength := ((below u ["verification", "pieces"] e.children).filterMap (numberOf u "length")).getLastD (-1)
      pieceType := ((below u ["verification", "pieces"] e.children).filterMap
        fun e => attr e.attrs "type").getLastD "sha1".toList
      urls := (below u ["resources", "url"] e.children).map (urlOf u)
      maxconnections := ((below u ["resources"] e.children).filterMap
        (numberOf u "maxconnections")).getLastD (-1) }

def filesOf (document : List Xml) : List MetalinkFile :=
  (below u ["metalink", "files", "file"] document).filterMap (fileOf u)

/-- The elements of the files that are kept: those with a name -/
def namedFiles (document : List Xml) : List Xml.Element :=
  (below u ["metalink", "files", "file"] document).filter fun e => (attr e.attrs "name").getD [] ≠ []

theorem filterMap_fileOf (es : List Xml.Element) :
    es.filterMap (fileOf u) = (es.filter fun e => (attr e.attrs "name").getD [] ≠ []).map fun e =>
      (fileOf u e).getD {} := by
  induction es with
  | nil => rfl
  | cons e es ih =>
    rw [List.filterMap_cons, List.filter_cons]
    cases hname : attr e.attrs "name" with
    | none =>
      have hnone : fileOf u e = none := by simp [fileOf, hname]
      simpa [hnone] using ih
    | some name =>
      by_cases hnil : name = []
      · have hnone : fileOf u e = none := by simp [fileOf, hname, hnil]
        simpa [hnone, hnil] using ih
      · obtain ⟨f, hf⟩ : ∃ f, fileOf u e = some f := by simp [fileOf, hname, hnil]
        simp [hf, hnil, ih]

/-! ## The places that the handler knows -/

inductive Place where
  | document | metalink | files | file
  | resources | url | identity | version | size | description | language | os
  | verification | hash | pieces | piece
  | elsewhere
  deriving DecidableEq

namespace Place

def known : List Place :=
  [document, metalink, files, file, resources, url, identity, version, size, description, language, os,
    verification, hash, pieces, piece]

def parent : Place → Place
  | metalink => document
  | files => metalink
  | file => files
  | resources | identity | version | size | description | language | os | verification => file
  | url => resources
  | hash | pieces => verification
  | piece => pieces
  | document | elsewhere => elsewhere

def tag : Place → String
  | document | elsewhere => ""
  | metalink => "metalink"
  | files => "files"
  | file => "file"
  | resources => "resources"
  | url => "url"
  | identity => "identity"
  | version => "version"
  | size => "size"
  | description => "description"
  | language => "language"
  | os => "os"
  | verification => "verification"
  | hash => "hash"
  | pieces => "pieces"
  | piece => "hash"

/-- The path of a place that is known -/
def path : Place → List Text
  | document | elsewhere => Metalink.path []
  | metalink => Metalink.path ["metalink"]
  | files => Metalink.path ["metalink", "files"]
  | file => Metalink.path ["metalink", "files", "file"]
  | resources => Metalink.path ["metalink", "files", "file", "resources"]
  | url => Metalink.path ["metalink", "files", "file", "resources", "url"]
  | identity => Metalink.path ["metalink", "files", "file", "identity"]
  | version => Metalink.path ["metalink", "files", "file", "version"]
  | size => Metalink.path ["metalink", "files", "file", "size"]
  | description => Metalink.path ["metalink", "files", "file", "description"]
  | language => Metalink.path ["metalink", "files", "file", "language"]
  | os => Metalink.path ["metalink", "files", "file", "os"]
  | verification => Metalink.path ["metalink", "files", "file", "verification"]
  | hash => Metalink.path ["metalink", "files", "file", "verification", "hash"]
  | pieces => Metalink.path ["metalink", "files", "file", "verification", "pieces"]
  | piece => Metalink.path ["metalink", "files", "file", "verification", "pieces", "hash"]

/-- The place of a path -/
def of (l : List Text) : Place := (known.find? (·.path = l)).getD elsewhere

theorem mem_known {q : Place} (hq : q ≠ elsewhere) : q ∈ known := by
  cases q <;> first | decide | exact (hq rfl).elim

theorem path_injective : ∀ p ∈ known, ∀ q ∈ known, p.path = q.path → p = q := by
  decide +kernel

theorem of_eq_iff {q : Place} (hq : q ≠ elsewhere) {l : List Text} : Place.of l = q ↔ l = q.path := by
  constructor
  · intro h
    rw [Place.of] at h
    cases hfind : known.find? (·.path = l) with
    | none =>
      rw [hfind] at h
      exact (hq h.symm).elim
    | some p =>
      rw [hfind] at h
      obtain rfl : p = q := h
      have hpath : p.path = l := by simpa using List.find?_some hfind
      exact hpath.symm
  · rintro rfl
    rw [Place.of]
    cases hfind : known.find? (·.path = q.path) with
    | none => simpa using List.find?_eq_none.mp hfind q (mem_known hq)
    | some p =>
      have hp : p.path = q.path := by simpa using List.find?_some hfind
      exact path_injective p (List.mem_of_find?_eq_some hfind) q (mem_known hq) hp

theorem path_eq {q : Place} (hd : q ≠ document) (he : q ≠ elsewhere) :
    q.path = q.parent.path ++ [q.tag.toList] := by
  cases q <;> first | rfl | exact (hd rfl).elim | exact (he rfl).elim

theorem parent_ne {q : Place} (hd : q ≠ document) (he : q ≠ elsewhere) : q.parent ≠ elsewhere := by
  cases q <;> first | decide | exact (hd rfl).elim | exact (he rfl).elim

/-- A known place is a child of the place before it. -/
theorem of_concat {q : Place} (hq : q ≠ elsewhere) {l : List Text} {n : Text} (h : Place.of (l ++ [n]) = q) :
    q ≠ document ∧ Place.of l = q.parent ∧ n = q.tag.toList := by
  rw [of_eq_iff hq] at h
  have hd : q ≠ document := by
    rintro rfl
    simp [path, Metalink.path] at h
  rw [path_eq hd hq] at h
  obtain ⟨rfl, hn⟩ := List.append_inj' h rfl
  exact ⟨hd, (of_eq_iff (parent_ne hd hq)).mpr rfl, List.singleton_inj.mp hn⟩

theorem of_concat_iff {q : Place} (hd : q ≠ document) (he : q ≠ elsewhere) {l : List Text}
    (hl : Place.of l = q.parent) {n : Text} : Place.of (l ++ [n]) = q ↔ n = q.tag.toList := by
  refine ⟨fun h => (of_concat he h).2.2, ?_⟩
  rintro rfl
  rw [of_eq_iff he, path_eq hd he, (of_eq_iff (parent_ne hd he)).mp hl]

/-- No place is known below it. -/
def Leaf (q : Place) : Prop := ∀ p ∈ known, p ≠ document → p.parent ≠ q

instance (q : Place) : Decidable q.Leaf := inferInstanceAs (Decidable (∀ p ∈ known, p ≠ document → p.parent ≠ q))

theorem Leaf.of_concat {l : List Text} (h : (Place.of l).Leaf) (n : Text) : Place.of (l ++ [n]) = elsewhere := by
  by_contra hq
  obtain ⟨hd, hparent, -⟩ := Place.of_concat hq rfl
  exact h _ (mem_known hq) hd hparent.symm

end Place

/-! ## The handler as a recursion over the tree -/

/-- What the handler has gathered -/
structure Gathered where
  files : List MetalinkFile
  file : Option MetalinkFile

namespace Gathered

/-- At the start tag of an element -/
def opened (place : Place) (attrs : Attributes) (g : Gathered) : Gathered :=
  match place with
  | .file => { g with file := some { name := (attr attrs "name").getD [] } }
  | .resources =>
    { g with file := g.file.map fun f =>
        { f with maxconnections := ((attr attrs "maxconnections").bind u.int?).getD f.maxconnections } }
  | .pieces =>
    { g with file := g.file.map fun f =>
        { f with
          pieceType := (attr attrs "type").getD f.pieceType
          pieceLength := ((attr attrs "length").bind u.int?).getD f.pieceLength } }
  | _ => g

/-- At the end tag of an element -/
def closed (place : Place) (e : Xml.Element) (g : Gathered) : Gathered :=
  match place with
  | .file => { g with files := g.files ++ (g.file.filter fun f => f.name ≠ []).toList }
  | .url => { g with file := g.file.map fun f => { f with urls := f.urls ++ [urlOf u e] } }
  | .identity => { g with file := g.file.map fun f => { f with identity := contentOf u e } }
  | .version => { g with file := g.file.map fun f => { f with version := contentOf u e } }
  | .size => { g with file := g.file.map fun f => { f with size := (u.int? (contentOf u e)).getD f.size } }
  | .description => { g with file := g.file.map fun f => { f with description := contentOf u e } }
  | .language => { g with file := g.file.map fun f => { f with language := contentOf u e } }
  | .os => { g with file := g.file.map fun f => { f with os := contentOf u e } }
  | .hash => { g with file := g.file.map fun f => { f with hashes := f.hashes ++ (hashOf u e).toList } }
  | _ => g

mutual

def absorb (l : List Text) : Xml → Gathered → Gathered
  | .text _, g => g
  | .element name attrs children, g =>
    let place := Place.of (l ++ [u.lowerText name])
    (absorbAll (l ++ [u.lowerText name]) children (g.opened u place attrs)).closed u place ⟨attrs, children⟩

def absorbAll (l : List Text) : List Xml → Gathered → Gathered
  | [], g => g
  | x :: xs, g => absorbAll l xs (absorb l x g)

end

mutual

/-- Where no place is known below, nothing is found. -/
theorem absorb_leaf {l : List Text} (h : (Place.of l).Leaf) : ∀ (x : Xml) (g : Gathered), absorb u l x g = g
  | .text _, _ => rfl
  | .element name attrs children, g => by
    have helsewhere := h.of_concat (u.lowerText name)
    have hleaf : (Place.of (l ++ [u.lowerText name])).Leaf := by
      rw [helsewhere]
      decide
    rw [absorb, helsewhere, absorbAll_leaf hleaf]
    rfl

theorem absorbAll_leaf {l : List Text} (h : (Place.of l).Leaf) :
    ∀ (xs : List Xml) (g : Gathered), absorbAll u l xs g = g
  | [], _ => rfl
  | x :: xs, g => by rw [absorbAll, absorb_leaf h, absorbAll_leaf h]

end

/-- The elements that are children at a place -/
def children (place : Place) (xs : List Xml) : List Xml.Element :=
  Xml.named (fun name => u.lowerText name = place.tag.toList) xs

theorem children_append (q : Place) (xs ys : List Xml) :
    children u q (xs ++ ys) = children u q xs ++ children u q ys := List.filterMap_append

theorem children_element {q : Place} (hd : q ≠ .document) (he : q ≠ .elsewhere) {l : List Text}
    (hl : Place.of l = q.parent) (name : Text) (attrs : Attributes) (cs xs : List Xml) :
    children u q (.element name attrs cs :: xs) =
      if Place.of (l ++ [u.lowerText name]) = q then ⟨attrs, cs⟩ :: children u q xs else children u q xs := by
  rw [children, Xml.named_element]
  simp only [decide_eq_true_eq, Place.of_concat_iff hd he hl]
  rfl

/-- An element is a child of the place it stands at, or elsewhere. -/
theorem not_child {l : List Text} {n : Text} {p q : Place} (hl : Place.of l = p) (hq : Place.of (l ++ [n]) = q)
    (he : q ≠ .elsewhere) (hp : q.parent ≠ p) : False :=
  hp ((Place.of_concat he hq).2.1.symm.trans hl)

theorem absorb_element_leaf {l : List Text} {name : Text} {q : Place}
    (hq : Place.of (l ++ [u.lowerText name]) = q) (hleaf : q.Leaf) (attrs : Attributes) (cs : List Xml) (g : Gathered) :
    absorb u l (.element name attrs cs) g = (g.opened u q attrs).closed u q ⟨attrs, cs⟩ := by
  rw [absorb, hq, absorbAll_leaf u (hq ▸ hleaf)]

/-- Of several values that can be read the last one counts. -/
theorem getLastD_filterMap_cons (f : α → Option β) (a : α) (as : List α) (b : β) :
    ((a :: as).filterMap f).getLastD b = (as.filterMap f).getLastD ((f a).getD b) := by
  cases h : f a with
  | none => rw [List.filterMap_cons_none h, Option.getD_none]
  | some c => rw [List.filterMap_cons_some h, List.getLastD_cons, Option.getD_some]

theorem getLastD_append (as bs : List α) (a : α) : (as ++ bs).getLastD a = bs.getLastD (as.getLastD a) := by
  rw [List.getLastD_eq_getLast?, List.getLastD_eq_getLast?, List.getLast?_append, List.getLastD_eq_getLast?]
  cases bs.getLast? <;> rfl

theorem absorbAll_resources {l : List Text} (hl : Place.of l = .resources) (xs : List Xml) (g : Gathered) :
    absorbAll u l xs g =
      { g with file := g.file.map fun f => { f with urls := f.urls ++ (children u .url xs).map (urlOf u) } } := by
  induction xs generalizing g with
  | nil => simp [absorbAll, children]
  | cons x xs ih =>
    rw [absorbAll, ih]
    cases x with
    | text s => rfl
    | element name attrs cs =>
      rw [children_element u (by decide) (by decide) hl]
      cases hq : Place.of (l ++ [u.lowerText name]) with
      | url =>
        rw [absorb_element_leaf u hq (by decide)]
        simp [opened, closed, Function.comp_def]
      | elsewhere =>
        rw [absorb_element_leaf u hq (by decide)]
        rfl
      | _ => exact (not_child hl hq (by decide) (by decide)).elim

theorem absorbAll_pieces {l : List Text} (hl : Place.of l = .pieces) (xs : List Xml) (g : Gathered) :
    absorbAll u l xs g = g := by
  induction xs generalizing g with
  | nil => rfl
  | cons x xs ih =>
    rw [absorbAll, ih]
    cases x with
    | text s => rfl
    | element name attrs cs =>
      cases hq : Place.of (l ++ [u.lowerText name]) with
      | piece | elsewhere =>
        rw [absorb_element_leaf u hq (by decide)]
        rfl
      | _ => exact (not_child hl hq (by decide) (by decide)).elim

theorem absorbAll_verification {l : List Text} (hl : Place.of l = .verification) (xs : List Xml) (g : Gathered) :
    absorbAll u l xs g =
      { g with file := g.file.map fun f =>
          { f with
            hashes := f.hashes ++ (children u .hash xs).filterMap (hashOf u)
            pieceType := ((children u .pieces xs).filterMap fun e => attr e.attrs "type").getLastD f.pieceType
            pieceLength := ((children u .pieces xs).filterMap (numberOf u "length")).getLastD f.pieceLength } } := by
  induction xs generalizing g with
  | nil => simp [absorbAll, children]
  | cons x xs ih =>
    rw [absorbAll, ih]
    cases x with
    | text s => rfl
    | element name attrs cs =>
      rw [children_element u (by decide) (by decide) hl, children_element u (by decide) (by decide) hl]
      cases hq : Place.of (l ++ [u.lowerText name]) with
      | hash =>
        rw [absorb_element_leaf u hq (by decide)]
        cases h : hashOf u ⟨attrs, cs⟩ <;> simp [opened, closed, Function.comp_def, h]
      | pieces =>
        rw [absorb, hq, absorbAll_pieces u hq]
        simp [opened, closed, Function.comp_def, numberOf]
      | elsewhere =>
        rw [absorb_element_leaf u hq (by decide)]
        rfl
      | _ => exact (not_child hl hq (by decide) (by decide)).elim

/-- A file with what the children of its element say -/
def gather (f : MetalinkFile) (xs : List Xml) : MetalinkFile :=
  let text (place : Place) (s : Text) : Text := ((children u place xs).map (contentOf u)).getLastD s
  let verification : List Xml := (children u .verification xs).flatMap (·.children)
  { f with
    identity := text .identity f.identity
    version := text .version f.version
    size := (((children u .size xs).map (contentOf u)).filterMap u.int?).getLastD f.size
    description := text .description f.description
    language := text .language f.language
    os := text .os f.os
    hashes := f.hashes ++ (children u .hash verification).filterMap (hashOf u)
    pieceLength := ((children u .pieces verification).filterMap (numberOf u "length")).getLastD f.pieceLength
    pieceType := ((children u .pieces verification).filterMap fun e => attr e.attrs "type").getLastD f.pieceType
    urls := f.urls ++ (children u .url ((children u .resources xs).flatMap (·.children))).map (urlOf u)
    maxconnections := ((children u .resources xs).filterMap (numberOf u "maxconnections")).getLastD
      f.maxconnections }

theorem absorbAll_file {l : List Text} (hl : Place.of l = .file) (xs : List Xml) (g : Gathered) :
    absorbAll u l xs g = { g with file := g.file.map fun f => gather u f xs } := by
  induction xs generalizing g with
  | nil => simp [absorbAll, gather, children]
  | cons x xs ih =>
    rw [absorbAll, ih]
    cases x with
    | text s => rfl
    | element name attrs cs =>
      have hchild {q : Place} (hd : q ≠ .document) (he : q ≠ .elsewhere) (hparent : q.parent = .file) :=
        children_element u hd he (hl.trans hparent.symm) name attrs cs xs
      cases hq : Place.of (l ++ [u.lowerText name]) with
      | resources =>
        rw [absorb, hq, absorbAll_resources u hq]
        simp (disch := decide) only [opened, closed, gather, hchild, hq, reduceCtorEq, if_true, if_false,
          Option.map_map, Function.comp_def, List.flatMap_cons, children_append, List.map_append, List.append_assoc,
          getLastD_filterMap_cons, numberOf]
      | verification =>
        rw [absorb, hq, absorbAll_verification u hq]
        simp (disch := decide) only [opened, closed, gather, hchild, hq, reduceCtorEq, if_true, if_false,
          Option.map_map, Function.comp_def, List.flatMap_cons, children_append, List.filterMap_append,
          List.append_assoc, getLastD_append]
      | identity | version | size | description | language | os =>
        rw [absorb_element_leaf u hq (by decide)]
        simp (disch := decide) only [opened, closed, gather, hchild, hq, reduceCtorEq, if_true, if_false,
          Option.map_map, Function.comp_def, List.map_cons, List.getLastD_cons, getLastD_filterMap_cons]
      | elsewhere =>
        rw [absorb_element_leaf u hq (by decide)]
        simp (disch := decide) only [opened, closed, gather, hchild, hq, reduceCtorEq, if_false]
      | _ => exact (not_child hl hq (by decide) (by decide)).elim

theorem children_flatMap (q : Place) (es : List Xml.Element) :
    children u q (es.flatMap (·.children)) = es.flatMap fun e => children u q e.children := by
  induction es with
  | nil => rfl
  | cons e es ih => rw [List.flatMap_cons, children_append, ih, List.flatMap_cons]

theorem fileOf_eq (e : Xml.Element) :
    fileOf u e =
      (some (gather u { name := (attr e.attrs "name").getD [] } e.children)).filter fun f => f.name ≠ [] := by
  have hgather : (gather u { name := (attr e.attrs "name").getD [] } e.children).name =
      (attr e.attrs "name").getD [] := rfl
  rw [Option.filter_some, hgather, fileOf]
  cases attr e.attrs "name" with
  | none => rfl
  | some name =>
    dsimp only [Option.getD_some]
    split
    · next h => simp [h]
    · next h =>
      rw [if_pos (by simpa using h)]
      simp only [gather, children_flatMap]
      rfl

theorem absorbAll_files {l : List Text} (hl : Place.of l = .files) (xs : List Xml) (g : Gathered) :
    (absorbAll u l xs g).files = g.files ++ (children u .file xs).filterMap (fileOf u) := by
  induction xs generalizing g with
  | nil => simp [absorbAll, children]
  | cons x xs ih =>
    rw [absorbAll, ih]
    cases x with
    | text s => rfl
    | element name attrs cs =>
      rw [children_element u (by decide) (by decide) hl]
      cases hq : Place.of (l ++ [u.lowerText name]) with
      | file =>
        rw [absorb, hq, absorbAll_file u hq, if_pos rfl, List.filterMap_cons, fileOf_eq]
        simp only [opened, closed, Option.map_some]
        cases (some (gather u { name := (attr attrs "name").getD [] } cs)).filter fun f => f.name ≠ [] with
        | none => rw [Option.toList_none, List.append_nil]
        | some f => rw [Option.toList_some, List.append_assoc, List.singleton_append]
      | elsewhere =>
        rw [absorb_element_leaf u hq (by decide)]
        rfl
      | _ => exact (not_child hl hq (by decide) (by decide)).elim

/-- A place with one known child, which gathers nothing itself -/
theorem absorbAll_through {p q : Place} (honly : ∀ r ∈ Place.known, r.parent = p → r = q) (hd : q ≠ .document)
    (he : q ≠ .elsewhere) (hparent : q.parent = p) (hopened : ∀ attrs g, opened u q attrs g = g)
    (hclosed : ∀ e g, closed u q e g = g) {f : List Xml → List MetalinkFile}
    (hq : ∀ {l}, Place.of l = q → ∀ xs g, (absorbAll u l xs g).files = g.files ++ f xs)
    {l : List Text} (hl : Place.of l = p) (xs : List Xml) (g : Gathered) :
    (absorbAll u l xs g).files = g.files ++ (children u q xs).flatMap fun e => f e.children := by
  induction xs generalizing g with
  | nil => simp [absorbAll, children]
  | cons x xs ih =>
    rw [absorbAll, ih]
    cases x with
    | text s => rfl
    | element name attrs cs =>
      rw [children_element u hd he (hl.trans hparent.symm)]
      by_cases hplace : Place.of (l ++ [u.lowerText name]) = q
      · rw [absorb, hplace, hopened, hclosed, hq hplace, if_pos rfl, List.flatMap_cons, List.append_assoc]
      · have helsewhere : Place.of (l ++ [u.lowerText name]) = .elsewhere := by
          by_contra hne
          have hchild := (Place.of_concat hne rfl).2.1
          exact hplace (honly _ (Place.mem_known hne) (hchild.symm.trans hl))
        rw [if_neg hplace, absorb_element_leaf u helsewhere (by decide)]
        rfl

/-- The files of the document are those of its elements at the path. -/
theorem absorbAll_document (xs : List Xml) (g : Gathered) :
    (absorbAll u [] xs g).files = g.files ++ filesOf u xs := by
  have hmetalink {l : List Text} (hl : Place.of l = .metalink) (xs : List Xml) (g : Gathered) :=
    absorbAll_through u (p := .metalink) (q := .files) (by decide) (by decide) (by decide) rfl (fun _ _ => rfl)
      (fun _ _ => rfl) (absorbAll_files u) hl xs g
  have hdocument := absorbAll_through u (p := .document) (q := .metalink) (by decide) (by decide) (by decide) rfl
    (fun _ _ => rfl) (fun _ _ => rfl) hmetalink ((Place.of_eq_iff (by decide)).mpr rfl) xs g
  have hfiles : filesOf u xs = ((children u .metalink xs).flatMap fun e =>
      (children u .files e.children).flatMap fun e => children u .file e.children).filterMap (fileOf u) := rfl
  simp only [hfiles, List.filterMap_flatMap]
  exact hdocument

end Gathered

end Swinst.Metalink
