import Swinst.Metalink.Files

/-! The run of `MetalinkHandler` over the events of a document. -/

namespace Swinst.Metalink

variable (u : Unicode)

/-- A file without its piece hashes -/
def MetalinkFile.bare (f : MetalinkFile) : MetalinkFile := { f with pieceHashes := [] }

def MetalinkHandler.gathered (h : MetalinkHandler) : Gathered where
  files := h.files.map (·.bare)
  file := h.file.map (·.bare)

/-- In an element `file` there is a current file. -/
def MetalinkHandler.Ready (h : MetalinkHandler) : Prop :=
  path ["metalink", "files", "file"] <+: h.elements → h.file.isSome

theorem eq_path_iff {q : Place} (hq : q ≠ .elsewhere) {l : List Text} {names : List String}
    (hpath : q.path = path names) : l = path names ↔ Place.of l = q := by
  rw [Place.of_eq_iff hq, hpath]

/-- One of the comparisons of the path with that of a place: something holds of the place and what comes
out, if it does in both cases. -/
theorem ite_path (P : Place → Except PyError MetalinkHandler → Prop) (l : List Text) {q : Place}
    (hq : q ≠ .elsewhere) {names : List String} (hpath : q.path = path names)
    {x y : Except PyError MetalinkHandler} (hx : Place.of l = q → P q x)
    (hy : Place.of l ≠ q → P (Place.of l) y) : P (Place.of l) (if l = path names then x else y) := by
  by_cases hplace : Place.of l = q
  · rw [if_pos ((eq_path_iff hq hpath).mpr hplace), hplace]
    exact hx hplace
  · rw [if_neg (mt (eq_path_iff hq hpath).mp hplace)]
    exact hy hplace

namespace MetalinkHandler

theorem Ready.isSome {h : MetalinkHandler} (hr : h.Ready) {q : Place} (he : q ≠ .elsewhere)
    (hq : Place.of h.elements = q) (hin : path ["metalink", "files", "file"] <+: q.path) : h.file.isSome := by
  apply hr
  rwa [(Place.of_eq_iff he).mp hq]

/-! ## One tag -/

/-- What the events of some nodes leave, and what they change -/
structure Ran (h h' : MetalinkHandler) (content : Text) (g : Gathered) : Prop where
  elements : h'.elements = h.elements
  attrs : h'.attrs = h.attrs
  content : h'.content = content
  gathered : h'.gathered = g
  file : h.file.isSome → h'.file.isSome

theorem Ran.ready {h h' : MetalinkHandler} {t : Text} {g : Gathered} (hran : Ran h h' t g) (hr : h.Ready) : h'.Ready := by
  intro hin
  rw [hran.elements] at hin
  exact hran.file (hr hin)

theorem Ran.refl (h : MetalinkHandler) : Ran h h h.content h.gathered := ⟨rfl, rfl, rfl, rfl, id⟩

/-- Assignments to fields of the current file -/
theorem ran_map {f f' : MetalinkFile → MetalinkFile} (hf : ∀ file, (f file).bare = f' file.bare)
    (h : MetalinkHandler) (p : Attributes) :
    Ran h { h with file := h.file.map f, pieces := p } h.content
      { h.gathered with file := h.gathered.file.map f' } := by
  refine ⟨rfl, rfl, rfl, ?_, fun hsome => by simpa using hsome⟩
  simp [gathered, Function.comp_def, hf]

theorem Ready.map {h : MetalinkHandler} (hr : h.Ready) (f : MetalinkFile → MetalinkFile) (p : Attributes) :
    Ready { h with file := h.file.map f, pieces := p } := by
  intro hin
  rw [Option.isSome_map]
  exact hr hin

theorem setFile_eq {h : MetalinkHandler} (hf : h.file.isSome) (f : MetalinkFile → MetalinkFile) :
    h.setFile f = .ok { h with file := h.file.map f } := by
  obtain ⟨file, hfile⟩ := Option.isSome_iff_exists.mp hf
  rw [setFile, hfile]
  rfl

theorem tryFile_eq (h : MetalinkHandler) (s : Option Text) (f : Int → MetalinkFile → MetalinkFile) :
    h.tryFile u s f = { h with file := h.file.map fun file => (s.bind u.int?).elim file (f · file) } := by
  rw [tryFile]
  cases s.bind u.int? with
  | none => simp
  | some n => rfl

/-- Only a few places do something at a start tag. -/
theorem opened_of_ne {q : Place} (hf : q ≠ .file) (hres : q ≠ .resources) (hp : q ≠ .pieces) (attrs : Attributes)
    (g : Gathered) : g.opened u q attrs = g := by
  cases q <;> first | rfl | exact (hf rfl).elim | exact (hres rfl).elim | exact (hp rfl).elim

theorem openElement_ran {h : MetalinkHandler} (hr : Place.of h.elements ≠ .file → h.Ready) (attrs : Attributes) :
    ∃ h', h.openElement u attrs = .ok h' ∧
      Ran h h' h.content (h.gathered.opened u (Place.of h.elements) attrs) ∧ h'.Ready := by
  have on {q : Place} := @ite_path (fun q r => ∃ h', r = .ok h' ∧
    Ran h h' h.content (h.gathered.opened u q attrs) ∧ h'.Ready) h.elements q
  unfold openElement
  refine on (q := .file) (by decide) rfl (fun hq => ?_) fun hfile => ?_
  · refine ⟨_, rfl, ⟨rfl, rfl, rfl, ?_, fun _ => rfl⟩, fun _ => rfl⟩
    simp only [Gathered.opened, gathered]
    cases attr attrs "name" <;> rfl
  have hr := hr hfile
  refine on (q := .resources) (by decide) rfl (fun hq => ?_) fun hresources => ?_
  · rw [tryFile_eq]
    refine ⟨_, rfl, ran_map (fun file => ?_) h _, hr.map _ _⟩
    cases (attr attrs "maxconnections").bind u.int? <;> rfl
  refine on (q := .pieces) (by decide) rfl (fun hq => ?_) fun hpieces => ?_
  · have hsome := hr.isSome (by decide) hq (by decide)
    cases htype : attr attrs "type" with
    | none =>
      rw [Option.elim_none, bind_ok, tryFile_eq]
      refine ⟨_, rfl, ran_map (fun file => ?_) h _, hr.map _ _⟩
      rw [htype]
      cases (attr attrs "length").bind u.int? <;> rfl
    | some type =>
      rw [Option.elim_some, setFile_eq hsome, bind_ok, tryFile_eq]
      simp only [Option.map_map]
      refine ⟨_, rfl, ran_map (fun file => ?_) h _, hr.map _ _⟩
      rw [htype]
      cases (attr attrs "length").bind u.int? <;> rfl
  rw [opened_of_ne u hfile hresources hpieces]
  exact ⟨h, rfl, .refl h, hr⟩

theorem setFile_ran {h : MetalinkHandler} (hsome : h.file.isSome) {f f' : MetalinkFile → MetalinkFile}
    (hf : ∀ file, (f file).bare = f' file.bare) :
    ∃ h', h.setFile f = .ok h' ∧ Ran h h' h.content { h.gathered with file := h.gathered.file.map f' } :=
  ⟨_, setFile_eq hsome f, ran_map hf h _⟩

/-- What the end tag of an element does, before the element is taken from the stack -/
theorem closeElement_ran {h : MetalinkHandler} (hr : h.Ready) (e : Xml.Element) :
    ∃ h', h.closeElement u e.attrs (contentOf u e) = .ok h' ∧
      Ran h h' h.content (h.gathered.closed u (Place.of h.elements) e) := by
  have on {q : Place} := @ite_path (fun q r => ∃ h', r = .ok h' ∧
    Ran h h' h.content (h.gathered.closed u q e)) h.elements q
  unfold closeElement
  refine on (q := .file) (by decide) rfl (fun hq => ?_) fun hfile => ?_
  · obtain ⟨file, hfile⟩ := Option.isSome_iff_exists.mp (hr.isSome (by decide) hq (by decide))
    rw [hfile]
    refine ⟨_, rfl, ?_⟩
    by_cases hname : file.name = []
    · rw [if_neg (by simpa using hname)]
      refine ⟨rfl, rfl, rfl, ?_, id⟩
      simp [gathered, Gathered.closed, hfile, MetalinkFile.bare, hname]
    · rw [if_pos hname]
      refine ⟨rfl, rfl, rfl, ?_, fun _ => rfl⟩
      simp [gathered, Gathered.closed, hfile, MetalinkFile.bare, hname, Option.filter_some]
  refine on (q := .url) (by decide) rfl (fun hq => ?_) fun hurl => ?_
  · exact setFile_ran (hr.isSome (by decide) hq (by decide)) fun _ => rfl
  refine on (q := .identity) (by decide) rfl (fun hq => ?_) fun hidentity => ?_
  · exact setFile_ran (hr.isSome (by decide) hq (by decide)) fun _ => rfl
  refine on (q := .version) (by decide) rfl (fun hq => ?_) fun hversion => ?_
  · exact setFile_ran (hr.isSome (by decide) hq (by decide)) fun _ => rfl
  refine on (q := .size) (by decide) rfl (fun hq => ?_) fun hsize => ?_
  · rw [tryFile_eq]
    refine ⟨_, rfl, ran_map (fun file => ?_) h _⟩
    rw [Option.bind_some]
    cases u.int? (contentOf u e) <;> rfl
  refine on (q := .description) (by decide) rfl (fun hq => ?_) fun hdescription => ?_
  · exact setFile_ran (hr.isSome (by decide) hq (by decide)) fun _ => rfl
  refine on (q := .language) (by decide) rfl (fun hq => ?_) fun hlanguage => ?_
  · exact setFile_ran (hr.isSome (by decide) hq (by decide)) fun _ => rfl
  refine on (q := .os) (by decide) rfl (fun hq => ?_) fun hos => ?_
  · exact setFile_ran (hr.isSome (by decide) hq (by decide)) fun _ => rfl
  refine on (q := .hash) (by decide) rfl (fun hq => ?_) fun hhash => ?_
  · cases htype : attr e.attrs "type" with
    | none =>
      refine ⟨h, rfl, rfl, rfl, rfl, ?_, id⟩
      simp [Gathered.closed, hashOf, htype]
    | some type =>
      refine setFile_ran (hr.isSome (by decide) hq (by decide)) fun file => ?_
      rw [hashOf, htype]
      rfl
  refine on (q := .piece) (by decide) rfl (fun hq => ?_) fun hpiece => ?_
  · cases attr e.attrs "piece" with
    | none => exact ⟨h, rfl, .refl h⟩
    | some piece => exact ⟨_, rfl, rfl, rfl, rfl, rfl, id⟩
  refine on (q := .pieces) (by decide) rfl (fun hq => ?_) fun hpieces => ?_
  · cases h.pieces.isEmpty with
    | true => exact ⟨_, rfl, rfl, rfl, rfl, rfl, id⟩
    | false =>
      rw [if_neg Bool.false_ne_true, setFile_eq (hr.isSome (by decide) hq (by decide)), bind_ok]
      refine ⟨_, rfl, rfl, rfl, rfl, ?_, fun hsome => by simpa using hsome⟩
      simp [gathered, Gathered.closed, Function.comp_def, MetalinkFile.bare]
  -- no other place does anything at its end tag
  unfold Gathered.closed
  split <;> first | contradiction | exact ⟨h, rfl, .refl h⟩

/-! ## A document -/

theorem startElement_ran {h : MetalinkHandler} (hr : h.Ready) (name : Text) (attrs : Attributes) :
    ∃ h', h.startElement u name attrs = .ok h' ∧ h'.elements = h.elements ++ [u.lowerText name] ∧
      h'.attrs = h.attrs ++ [attrs] ∧ h'.content = [] ∧
      h'.gathered = h.gathered.opened u (Place.of (h.elements ++ [u.lowerText name])) attrs ∧
      (h.file.isSome → h'.file.isSome) ∧ h'.Ready := by
  have hready (hfile : Place.of (h.elements ++ [u.lowerText name]) ≠ .file) :
      path ["metalink", "files", "file"] <+: h.elements ++ [u.lowerText name] → h.file.isSome := by
    intro hin
    rcases List.prefix_concat_iff.mp hin with heq | hin
    · exact (hfile ((Place.of_eq_iff (by decide)).mpr heq.symm)).elim
    · exact hr hin
  obtain ⟨h', hok, hran, hr'⟩ := openElement_ran u (h := { h with
    elements := h.elements ++ [u.lowerText name]
    attrs := h.attrs ++ [attrs]
    content := [] }) hready attrs
  exact ⟨h', hok, hran.elements, hran.attrs, hran.content, hran.gathered, hran.file, hr'⟩

theorem endElement_ran {h : MetalinkHandler} (hr : h.Ready) {l : List Text} {n : Text}
    (hl : h.elements = l ++ [n]) {as : List Attributes} {e : Xml.Element} (has : h.attrs = as ++ [e.attrs])
    (hcontent : h.content = Xml.lastText e.children) :
    ∃ h', h.endElement u = .ok h' ∧ h'.elements = l ∧ h'.attrs = as ∧ h'.content = [] ∧
      h'.gathered = h.gathered.closed u (Place.of (l ++ [n])) e ∧ (h.file.isSome → h'.file.isSome) := by
  obtain ⟨h', hok, hran⟩ := closeElement_ran u
    (h := { h with attrs := h.attrs.dropLast, content := [] }) hr e
  have helements : h'.elements = l ++ [n] := hran.elements.trans hl
  refine ⟨{ h' with elements := h'.elements.dropLast }, ?_, ?_, ?_, hran.content, ?_, hran.file⟩
  · have hlast : h.attrs.getLast? = some e.attrs := by rw [has, List.getLast?_concat]
    have hclose : closeElement u e.attrs (unescape (u.strip h.content))
        { h with attrs := h.attrs.dropLast, content := [] } = .ok h' := by
      rw [hcontent]
      exact hok
    rw [endElement, hlast]
    dsimp only
    rw [hclose, bind_ok, if_neg (by simp [helements])]
  · rw [helements, List.dropLast_concat]
  · rw [hran.attrs, has, List.dropLast_concat]
  · rw [← hl]
    exact hran.gathered

theorem run_append (es es' : List Xml.Event) (h : MetalinkHandler) :
    h.run u (es ++ es') = h.run u es >>= fun h => h.run u es' := List.foldlM_append

mutual

theorem run_events : ∀ (x : Xml) {h : MetalinkHandler}, h.Ready →
    ∃ h', h.run u x.events = .ok h' ∧
      Ran h h' (Xml.textBehind h.content [x]) (Gathered.absorb u h.elements x h.gathered)
  | .text s, h, _ => ⟨h.characters s, rfl, rfl, rfl, rfl, rfl, id⟩
  | .element name attrs children, h, hr => by
    obtain ⟨h₁, hok₁, helements₁, hattrs₁, hcontent₁, hgathered₁, hfile₁, hr₁⟩ := startElement_ran u hr name attrs
    obtain ⟨h₂, hok₂, hran⟩ := run_eventsAll children hr₁
    have hcontent : h₂.content = Xml.lastText children := by
      rw [hran.content, hcontent₁, Xml.lastText_eq]
    obtain ⟨h₃, hok₃, helements₃, hattrs₃, hcontent₃, hgathered₃, hfile₃⟩ :=
      endElement_ran u (hran.ready hr₁) (hran.elements.trans helements₁) (e := ⟨attrs, children⟩)
        (hran.attrs.trans hattrs₁) hcontent
    refine ⟨h₃, ?_, helements₃, hattrs₃, hcontent₃, ?_, fun hsome => hfile₃ (hran.file (hfile₁ hsome))⟩
    · have hrun : h.run u (Xml.element name attrs children).events =
          h.startElement u name attrs >>= fun h =>
            h.run u (Xml.eventsAll children ++ [.endElement name]) := List.foldlM_cons
      rw [hrun, hok₁, bind_ok, run_append, hok₂, bind_ok]
      simpa [run, event] using hok₃
    · rw [hgathered₃, hran.gathered, helements₁, hgathered₁]
      rfl

theorem run_eventsAll : ∀ (xs : List Xml) {h : MetalinkHandler}, h.Ready →
    ∃ h', h.run u (Xml.eventsAll xs) = .ok h' ∧
      Ran h h' (Xml.textBehind h.content xs) (Gathered.absorbAll u h.elements xs h.gathered)
  | [], h, _ => ⟨h, rfl, .refl h⟩
  | x :: xs, h, hr => by
    obtain ⟨h₁, hok₁, hran₁⟩ := run_events x hr
    obtain ⟨h₂, hok₂, hran₂⟩ := run_eventsAll xs (hran₁.ready hr)
    refine ⟨h₂, ?_, hran₂.elements.trans hran₁.elements, hran₂.attrs.trans hran₁.attrs, ?_, ?_,
      fun hsome => hran₂.file (hran₁.file hsome)⟩
    · rw [Xml.eventsAll, run_append, hok₁]
      exact hok₂
    · rw [hran₂.content, hran₁.content]
      rfl
    · rw [hran₂.gathered, hran₁.gathered, hran₁.elements]
      rfl

end

/-- The handler finds the files of every document, and leaves both stacks empty; they are what `parse_string`
returns for a text of the document. -/
theorem run_document (name : Text) (attrs : Attributes) (children : List Xml) :
    ∃ h, startDocument.run u (Xml.element name attrs children).events = .ok h ∧ h.elements = [] ∧ h.attrs = [] ∧
      h.files.map (·.bare) = filesOf u [.element name attrs children] ∧
      ∀ sax text, sax text = some (name, attrs, children) → parseString u sax text = .ok h.files := by
  obtain ⟨h, hok, hran⟩ := run_events u (.element name attrs children) (h := startDocument) (by
    intro hin
    cases List.prefix_nil.mp hin)
  refine ⟨h, hok, hran.elements, hran.attrs, ?_, ?_⟩
  · have hfiles := congrArg Gathered.files hran.gathered
    exact hfiles.trans (Gathered.absorbAll_document u [.element name attrs children] startDocument.gathered)
  · intro sax text htext
    rw [parseString, htext]
    dsimp only
    rw [hok]
    rfl

end MetalinkHandler

example : (filesOf .ascii [.element "Metalink".toList [] [.element "files".toList []
    [.element "FILE".toList [("name".toList, "a.iso".toList)]
      [.element "size".toList [] [.text " 7 ".toList], .element "size".toList [] [.text "7 MB".toList],
        .element "os".toList [] [.text "x".toList, .element "b".toList [] [], .text "A &amp; B".toList]],
      .element "file".toList [] []]]]).map (fun f => (f.name, f.size, f.os)) =
    [("a.iso".toList, 7, "A & B".toList)] := by decide +kernel

end Swinst.Metalink
