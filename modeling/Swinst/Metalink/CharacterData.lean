import Swinst.Metalink.Run

/-! The character data of the elements whose text is kept in a field: which texts come out of a document
as they went in? -/

namespace Swinst.Metalink

variable (u : Unicode)

/-- The fields that hold the text of an element -/
inductive Field where
  | url | hash | identity | version

namespace Field

/-- The elements of a file that are read into the field: a hash must have a type, and of several identities
or versions the last one counts. -/
def elements (file : Xml.Element) : Field → List Xml.Element
  | url => below u ["resources", "url"] file.children
  | hash => (below u ["verification", "hash"] file.children).filter fun e => (attr e.attrs "type").isSome
  | identity => (below u ["identity"] file.children).getLast?.toList
  | version => (below u ["version"] file.children).getLast?.toList

def values (f : MetalinkFile) : Field → List Text
  | url => f.urls.map (·.url)
  | hash => f.hashes.map (·.hash)
  | identity => [f.identity]
  | version => [f.version]

end Field

/-- The `i`-th element that is read into the field of the `k`-th file has the character data `t`, delivered
in any pieces. -/
def CharacterData (document : List Xml) (k : Nat) (field : Field) (i : Nat) (t : Text) : Prop :=
  ∃ (file e : Xml.Element) (ts : List Text), (namedFiles u document)[k]? = some file ∧ (field.elements u file)[i]? = some e ∧
    e.children = ts.map .text ∧ ts.flatten = t

/-- In the `k`-th file that the handler finds, the field is the text without surrounding whitespace. -/
def Kept (root : Xml) (k : Nat) (field : Field) (i : Nat) (t : Text) : Prop :=
  ∃ h f, MetalinkHandler.startDocument.run u root.events = .ok h ∧ h.files[k]? = some f ∧
    (field.values f)[i]? = some (u.strip t)

theorem map_hash_filterMap (es : List Xml.Element) :
    (es.filterMap (hashOf u)).map (·.hash) =
      (es.filter fun e => (attr e.attrs "type").isSome).map (contentOf u) := by
  induction es with
  | nil => rfl
  | cons e es ih =>
    rw [List.filterMap_cons, List.filter_cons, hashOf]
    cases attr e.attrs "type" with
    | none => exact ih
    | some type => exact congrArg (contentOf u e :: ·) ih

/-- The last of some texts is that of the last element. -/
theorem getLastD_map_contentOf {es : List Xml.Element} {i : Nat} {e : Xml.Element}
    (he : es.getLast?.toList[i]? = some e) : [(es.map (contentOf u)).getLastD []][i]? = some (contentOf u e) := by
  cases hlast : es.getLast? with
  | none => simp [hlast] at he
  | some e' =>
    rw [hlast, Option.toList_some, List.getElem?_singleton] at he
    rw [List.getElem?_singleton, List.getLastD_eq_getLast?, List.getLast?_map, hlast]
    split at he
    · next hi =>
      obtain rfl := Option.some.inj he
      rw [if_pos hi]
      rfl
    · cases he

/-- The fields of a file are the contents of its elements. -/
theorem Field.values_eq {file : Xml.Element} (hname : (attr file.attrs "name").getD [] ≠ []) (field : Field)
    {i : Nat} {e : Xml.Element} (he : (field.elements u file)[i]? = some e) :
    (field.values ((fileOf u file).getD {}))[i]? = some (contentOf u e) := by
  obtain ⟨name, hattr, hne⟩ : ∃ name, attr file.attrs "name" = some name ∧ name ≠ [] := by
    cases hattr : attr file.attrs "name" with
    | none => simp [hattr] at hname
    | some name => exact ⟨name, rfl, by simpa [hattr] using hname⟩
  cases field with
  | url =>
    simp only [values, fileOf, hattr, if_neg hne, Option.getD_some, List.map_map, List.getElem?_map]
    rw [elements] at he
    rw [he]
    rfl
  | hash =>
    simp only [values, fileOf, hattr, if_neg hne, Option.getD_some, map_hash_filterMap, List.getElem?_map]
    rw [elements] at he
    rw [he]
    rfl
  | identity =>
    simp only [values, fileOf, hattr, if_neg hne, Option.getD_some]
    exact getLastD_map_contentOf u he
  | version =>
    simp only [values, fileOf, hattr, if_neg hne, Option.getD_some]
    exact getLastD_map_contentOf u he

theorem Field.values_bare (field : Field) (f : MetalinkFile) : field.values f.bare = field.values f := by
  cases field <;> rfl

variable {u}

/-- What the handler makes of character data: the text is stripped, and unescaped once more. -/
theorem CharacterData.parsed {name : Text} {attrs : Attributes} {children : List Xml} {k : Nat} {field : Field}
    {i : Nat} {t : Text} (hc : CharacterData u [.element name attrs children] k field i t) :
    ∃ h f, MetalinkHandler.startDocument.run u (Xml.element name attrs children).events = .ok h ∧
      h.files[k]? = some f ∧ (field.values f)[i]? = some (unescape (u.strip t)) := by
  obtain ⟨file, e, ts, hfile, he, hchildren, rfl⟩ := hc
  obtain ⟨h, hrun, -, -, hfiles, -⟩ := MetalinkHandler.run_document u name attrs children
  have hname : (attr file.attrs "name").getD [] ≠ [] := by
    simpa using (List.mem_filter.mp (List.mem_of_getElem? hfile)).2
  have hparsed : (h.files.map (·.bare))[k]? = some ((fileOf u file).getD {}) := by
    rw [hfiles, filesOf, filterMap_fileOf, List.getElem?_map]
    rw [namedFiles] at hfile
    rw [hfile]
    rfl
  rw [List.getElem?_map, Option.map_eq_some_iff] at hparsed
  obtain ⟨f, hf, hbare⟩ := hparsed
  refine ⟨h, f, hrun, hf, ?_⟩
  rw [← field.values_bare f, hbare, field.values_eq u hname he, contentOf, hchildren, Xml.lastText_map_text]

theorem CharacterData.kept_iff {name : Text} {attrs : Attributes} {children : List Xml} {k : Nat} {field : Field}
    {i : Nat} {t : Text} (hc : CharacterData u [.element name attrs children] k field i t) :
    Kept u (.element name attrs children) k field i t ↔ unescape (u.strip t) = u.strip t := by
  obtain ⟨h, f, hrun, hf, hvalue⟩ := hc.parsed
  constructor
  · rintro ⟨h', f', hrun', hf', hvalue'⟩
    obtain rfl : h = h' := Except.ok.inj (hrun.symm.trans hrun')
    obtain rfl : f = f' := Option.some.inj (hf.symm.trans hf')
    exact Option.some.inj (hvalue.symm.trans hvalue')
  · intro hkept
    exact ⟨h, f, hrun, hf, hvalue.trans (congrArg some hkept)⟩

/-- Character data is kept if and only if there is no reference in it, as a text of its own. -/
theorem kept_iff_no_reference {name : Text} {attrs : Attributes} {children : List Xml} {k : Nat} {field : Field}
    {i : Nat} {t : Text} (hc : CharacterData u [.element name attrs children] k field i t) :
    Kept u (.element name attrs children) k field i t ↔ ∀ r ∈ references, ¬ r <:+: u.strip t :=
  hc.kept_iff.trans (unescape_eq_self_iff _)

/-- A document with one url, in two pieces -/
private def urlDocument (t t' : Text) : Xml :=
  .element "metalink".toList [] [.element "files".toList [] [
    .element "file".toList [("name".toList, "a.iso".toList)] [
      .element "resources".toList [] [.element "url".toList [] [.text t, .text t']]]]]

private theorem urlDocument_data (t t' : Text) :
    CharacterData .ascii [urlDocument t t'] 0 .url 0 (t ++ t') :=
  ⟨⟨[("name".toList, "a.iso".toList)], [
      .element "resources".toList [] [.element "url".toList [] [.text t, .text t']]]⟩,
    ⟨[], [.text t, .text t']⟩, [t, t'], rfl, rfl, rfl, by simp⟩

theorem kept_query :
    Kept .ascii (urlDocument "http://m/x?a=1&".toList "b=2 ".toList) 0 .url 0
      ("http://m/x?a=1&".toList ++ "b=2 ".toList) :=
  (kept_iff_no_reference (urlDocument_data _ _)).mpr (by decide)

/-- A url with a reference in it loses it. -/
theorem reference_lost :
    CharacterData .ascii [urlDocument "http://m/x?a=1&amp".toList ";b=2".toList] 0 .url 0
        ("http://m/x?a=1&amp".toList ++ ";b=2".toList) ∧
      ¬ Kept .ascii (urlDocument "http://m/x?a=1&amp".toList ";b=2".toList) 0 .url 0
        ("http://m/x?a=1&amp".toList ++ ";b=2".toList) := by
  refine ⟨urlDocument_data _ _, fun hkept => ?_⟩
  have hself := (urlDocument_data _ _).kept_iff.mp hkept
  exact absurd hself (by decide +kernel)

end Swinst.Metalink
