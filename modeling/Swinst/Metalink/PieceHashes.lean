import Swinst.Metalink.Pieces
import Swinst.Metalink.Run

/-! The piece hashes that `MetalinkHandler` leaves in the files of a document. -/

namespace Swinst.Metalink

variable (u : Unicode)

/-- What the handler knows of piece hashes: those of the files so far, the name and those of the current
file, and `_pieces` -/
structure PieceState where
  files : List (List Text)
  file : Option (Text × List Text)
  pieces : Attributes

def MetalinkFile.pieceState (f : MetalinkFile) : Text × List Text := (f.name, f.pieceHashes)

def MetalinkHandler.pieceState (h : MetalinkHandler) : PieceState where
  files := h.files.map (·.pieceHashes)
  file := h.file.map (·.pieceState)
  pieces := h.pieces

namespace PieceState

/-- At the start tag of an element -/
def opened (place : Place) (attrs : Attributes) (s : PieceState) : PieceState :=
  match place with
  | .file => { s with file := some ((attr attrs "name").getD [], []) }
  | .pieces => { s with pieces := [] }
  | _ => s

/-- At the end tag of an element -/
def closed (place : Place) (e : Xml.Element) (s : PieceState) : PieceState :=
  match place with
  | .file => { s with files := s.files ++ ((s.file.filter fun f => f.1 ≠ []).map (·.2)).toList }
  | .piece =>
    { s with pieces := (attr e.attrs "piece").elim s.pieces fun piece =>
        setItem s.pieces piece (contentOf u e) }
  | .pieces =>
    { s with
      file := s.file.map fun f => (f.1, if s.pieces.isEmpty then f.2
        else addPieces s.pieces (List.range s.pieces.length) f.2)
      pieces := [] }
  | _ => s

mutual

def absorb (l : List Text) : Xml → PieceState → PieceState
  | .text _, s => s
  | .element name attrs children, s =>
    let place := Place.of (l ++ [u.lowerText name])
    (absorbAll (l ++ [u.lowerText name]) children (s.opened place attrs)).closed u place ⟨attrs, children⟩

def absorbAll (l : List Text) : List Xml → PieceState → PieceState
  | [], s => s
  | x :: xs, s => absorbAll l xs (absorb l x s)

end

/-- A place that does not matter to the piece hashes, nor is on the way to one that does -/
def Silent (q : Place) : Prop :=
  q ∉ [Place.document, .metalink, .files, .file, .verification, .pieces, .piece]

instance (q : Place) : Decidable (Silent q) := inferInstanceAs (Decidable (q ∉ _))

theorem Silent.of_concat {l : List Text} (h : Silent (Place.of l)) (n : Text) :
    Silent (Place.of (l ++ [n])) := by
  by_cases hq : Place.of (l ++ [n]) = .elsewhere
  · rw [hq]
    decide
  · obtain ⟨hd, hparent, -⟩ := Place.of_concat hq rfl
    rw [hparent] at h
    revert h hd
    generalize Place.of (l ++ [n]) = q
    cases q <;> decide

theorem Silent.opened {q : Place} (h : Silent q) (attrs : Attributes) (s : PieceState) :
    s.opened q attrs = s := by
  cases q <;> first | rfl | exact absurd h (by decide)

theorem Silent.closed {q : Place} (h : Silent q) (e : Xml.Element) (s : PieceState) :
    s.closed u q e = s := by
  cases q <;> first | rfl | exact absurd h (by decide)

mutual

/-- Elsewhere nothing is found. -/
theorem absorb_silent {l : List Text} (h : Silent (Place.of l)) :
    ∀ (x : Xml) (s : PieceState), absorb u l x s = s
  | .text _, _ => rfl
  | .element name attrs children, s => by
    have hq := h.of_concat (u.lowerText name)
    rw [absorb, absorbAll_silent hq, hq.opened, hq.closed]

theorem absorbAll_silent {l : List Text} (h : Silent (Place.of l)) :
    ∀ (xs : List Xml) (s : PieceState), absorbAll u l xs s = s
  | [], _ => rfl
  | x :: xs, s => by rw [absorbAll, absorb_silent h, absorbAll_silent h]

end

/-- The child of a known place is elsewhere, or a known child of it. -/
theorem silent_child {p : Place} {l : List Text} (hl : Place.of l = p) {n : Text}
    (hs : Place.of (l ++ [n]) ∈ Place.known → (Place.of (l ++ [n])).parent = p →
      Silent (Place.of (l ++ [n]))) : Silent (Place.of (l ++ [n])) := by
  by_cases he : Place.of (l ++ [n]) = .elsewhere
  · rw [he]
    decide
  · exact hs (Place.mem_known he) ((Place.of_concat he rfl).2.1.symm.trans hl)

/-- Below a place without children that matter -/
theorem absorbAll_none {p : Place} (hs : ∀ r ∈ Place.known, r.parent = p → Silent r) {l : List Text}
    (hl : Place.of l = p) (xs : List Xml) (s : PieceState) : absorbAll u l xs s = s := by
  induction xs with
  | nil => rfl
  | cons x xs ih =>
    rw [absorbAll]
    cases x with
    | text t => exact ih
    | element name attrs children =>
      have hq : Silent (Place.of (l ++ [u.lowerText name])) := silent_child hl (hs _)
      rw [absorb, absorbAll_silent u hq, hq.opened, hq.closed, ih]

/-- An element at the place `q` below `l` -/
def visit (l : List Text) (q : Place) (s : PieceState) (e : Xml.Element) : PieceState :=
  (absorbAll u (l ++ [q.tag.toList]) e.children (s.opened q e.attrs)).closed u q e

/-- Below a place of which only the child `q` matters, the elements there are visited. -/
theorem absorbAll_only {p q : Place} (hd : q ≠ .document) (he : q ≠ .elsewhere) (hparent : q.parent = p)
    (hs : ∀ r ∈ Place.known, r.parent = p → r ≠ q → Silent r) {l : List Text} (hl : Place.of l = p)
    (xs : List Xml) (s : PieceState) :
    absorbAll u l xs s = (Gathered.children u q xs).foldl (visit u l q) s := by
  induction xs generalizing s with
  | nil => rfl
  | cons x xs ih =>
    rw [absorbAll, ih]
    cases x with
    | text t => rfl
    | element name attrs children =>
      rw [Gathered.children_element u hd he (hl.trans hparent.symm)]
      by_cases hq : Place.of (l ++ [u.lowerText name]) = q
      · have hname : u.lowerText name = q.tag.toList := (Place.of_concat he hq).2.2
        rw [if_pos hq, List.foldl_cons, absorb, hq, hname, visit]
      · have hq' := silent_child hl fun hk hp => hs _ hk hp hq
        rw [if_neg hq, absorb, absorbAll_silent u hq', hq'.opened, hq'.closed]

theorem absorbAll_pieces {l : List Text} (hl : Place.of l = .pieces) (e : Xml.Element) (s : PieceState) :
    absorbAll u l e.children s =
      { s with pieces := (numbered u e).foldl (fun d p => setItem d p.1 p.2) s.pieces } := by
  rw [absorbAll_only u (q := .piece) (by decide) (by decide) rfl (by decide) hl]
  have hnumbered : numbered u e = (Gathered.children u .piece e.children).filterMap fun hash =>
      (attr hash.attrs "piece").map fun piece => (piece, contentOf u hash) := rfl
  rw [hnumbered]
  have hpiece : Place.of (l ++ [Place.piece.tag.toList]) = .piece :=
    (Place.of_concat_iff (by decide) (by decide) hl).mpr rfl
  induction Gathered.children u .piece e.children generalizing s with
  | nil => rfl
  | cons hash hashes ih =>
    rw [List.foldl_cons, ih, visit, absorbAll_none u (p := .piece) (by decide) hpiece, List.filterMap_cons]
    cases hattr : attr hash.attrs "piece" with
    | none => simp [opened, closed, hattr]
    | some piece => simp [opened, closed, hattr]

/-- The known child of a place -/
theorem of_child {q : Place} (hd : q ≠ .document) (he : q ≠ .elsewhere) {l : List Text}
    (hl : Place.of l = q.parent) : Place.of (l ++ [q.tag.toList]) = q :=
  (Place.of_concat_iff hd he hl).mpr rfl

theorem visit_pieces {l : List Text} (hl : Place.of l = .verification) (s : PieceState) (e : Xml.Element) :
    visit u l .pieces s e =
      { s with file := s.file.map fun f => (f.1, addElement u f.2 e), pieces := [] } := by
  rw [visit, absorbAll_pieces u (of_child (by decide) (by decide) hl)]
  rfl

/-- What several elements do to the current file, when each does this -/
theorem foldl_visit {l : List Text} {q : Place} {g : List Text → Xml.Element → List Text}
    (hvisit : ∀ s e, (visit u l q s e).files = s.files ∧
      (visit u l q s e).file = s.file.map fun f => (f.1, g f.2 e)) (es : List Xml.Element) (s : PieceState) :
    (es.foldl (visit u l q) s).files = s.files ∧
      (es.foldl (visit u l q) s).file = s.file.map fun f => (f.1, es.foldl g f.2) := by
  induction es generalizing s with
  | nil => simp
  | cons e es ih =>
    obtain ⟨hfiles, hfile⟩ := ih (visit u l q s e)
    obtain ⟨hfiles', hfile'⟩ := hvisit s e
    rw [List.foldl_cons, hfiles, hfile, hfiles', hfile', Option.map_map]
    exact ⟨rfl, rfl⟩

theorem absorbAll_verification {l : List Text} (hl : Place.of l = .verification) (xs : List Xml)
    (s : PieceState) :
    (absorbAll u l xs s).files = s.files ∧ (absorbAll u l xs s).file = s.file.map fun f =>
      (f.1, (Gathered.children u .pieces xs).foldl (addElement u) f.2) := by
  rw [absorbAll_only u (q := .pieces) (by decide) (by decide) rfl (by decide) hl]
  refine foldl_visit u (fun s e => ?_) _ s
  rw [visit_pieces u hl]
  exact ⟨rfl, rfl⟩

theorem absorbAll_file {l : List Text} (hl : Place.of l = .file) (e : Xml.Element) (s : PieceState) :
    (absorbAll u l e.children s).files = s.files ∧ (absorbAll u l e.children s).file = s.file.map fun f =>
      (f.1, (below u ["verification", "pieces"] e.children).foldl (addElement u) f.2) := by
  have hbelow : below u ["verification", "pieces"] e.children =
      (Gathered.children u .verification e.children).flatMap fun e => Gathered.children u .pieces e.children := rfl
  rw [absorbAll_only u (q := .verification) (by decide) (by decide) rfl (by decide) hl, hbelow]
  simp only [List.foldl_flatMap]
  refine foldl_visit u (fun s e => ?_) _ s
  exact absorbAll_verification u (of_child (q := .verification) (by decide) (by decide) hl) e.children s

/-- What the element of a file adds to the files -/
def added (e : Xml.Element) : List (List Text) :=
  if (attr e.attrs "name").getD [] ≠ [] then [collected u (below u ["verification", "pieces"] e.children)] else []

theorem flatMap_added (es : List Xml.Element) : es.flatMap (added u) =
    (es.filter fun e => (attr e.attrs "name").getD [] ≠ []).map fun e =>
      collected u (below u ["verification", "pieces"] e.children) := by
  induction es with
  | nil => rfl
  | cons e es ih =>
    rw [List.flatMap_cons, ih, added, List.filter_cons]
    by_cases hname : (attr e.attrs "name").getD [] = []
    · simp [hname]
    · simp [hname]

theorem visit_file {l : List Text} (hl : Place.of l = .files) (s : PieceState) (e : Xml.Element) :
    (visit u l .file s e).files = s.files ++ added u e := by
  obtain ⟨hfiles, hfile⟩ := absorbAll_file u (of_child (q := .file) (by decide) (by decide) hl) e
    (s.opened .file e.attrs)
  simp only [visit, closed, hfiles, hfile, added]
  by_cases hname : (attr e.attrs "name").getD [] = []
  · simp [opened, hname]
  · simp [opened, hname, collected]

/-- What the elements at a place add to the files, when each adds this -/
theorem files_foldl_visit {l : List Text} {q : Place} {g : Xml.Element → List (List Text)}
    (hvisit : ∀ s e, (visit u l q s e).files = s.files ++ g e) (es : List Xml.Element) (s : PieceState) :
    (es.foldl (visit u l q) s).files = s.files ++ es.flatMap g := by
  induction es generalizing s with
  | nil => simp
  | cons e es ih => rw [List.foldl_cons, ih, hvisit, List.append_assoc, List.flatMap_cons]

theorem files_absorbAll_files {l : List Text} (hl : Place.of l = .files) (xs : List Xml) (s : PieceState) :
    (absorbAll u l xs s).files = s.files ++ (Gathered.children u .file xs).flatMap (added u) := by
  rw [absorbAll_only u (q := .file) (by decide) (by decide) rfl (by decide) hl]
  exact files_foldl_visit u (visit_file u hl) _ s

theorem files_absorbAll_metalink {l : List Text} (hl : Place.of l = .metalink) (xs : List Xml)
    (s : PieceState) : (absorbAll u l xs s).files = s.files ++
      (below u ["files", "file"] xs).flatMap (added u) := by
  have hbelow : below u ["files", "file"] xs = (Gathered.children u .files xs).flatMap fun e =>
      Gathered.children u .file e.children := rfl
  rw [absorbAll_only u (q := .files) (by decide) (by decide) rfl (by decide) hl, hbelow, List.flatMap_assoc]
  refine files_foldl_visit u (fun s e => ?_) _ s
  exact files_absorbAll_files u (of_child (q := .files) (by decide) (by decide) hl) e.children s

/-- The files of the document have the piece hashes that their elements leave. -/
theorem files_absorbAll_document (xs : List Xml) (s : PieceState) :
    (absorbAll u [] xs s).files = s.files ++ (namedFiles u xs).map fun e =>
      collected u (below u ["verification", "pieces"] e.children) := by
  have hl : Place.of [] = .document := (Place.of_eq_iff (by decide)).mpr rfl
  have hbelow : below u ["metalink", "files", "file"] xs = (Gathered.children u .metalink xs).flatMap fun e =>
      below u ["files", "file"] e.children := rfl
  rw [namedFiles, ← flatMap_added, hbelow, List.flatMap_assoc,
    absorbAll_only u (q := .metalink) (by decide) (by decide) rfl (by decide) hl]
  refine files_foldl_visit u (fun s e => ?_) _ s
  exact files_absorbAll_metalink u (of_child (q := .metalink) (by decide) (by decide) hl) e.children s

end PieceState

namespace MetalinkHandler

/-! ## One tag -/

theorem pieceState_setFile {h h' : MetalinkHandler} {f : MetalinkFile → MetalinkFile}
    (hok : h.setFile f = .ok h') (hf : ∀ file, (f file).pieceState = file.pieceState) :
    h'.pieceState = h.pieceState := by
  cases hfile : h.file with
  | none => simp [setFile, hfile] at hok
  | some file =>
    simp only [setFile, hfile, Except.ok.injEq] at hok
    subst hok
    simp [pieceState, hfile, hf]

theorem pieceState_tryFile {f : Int → MetalinkFile → MetalinkFile}
    (hf : ∀ n file, (f n file).pieceState = file.pieceState) (h : MetalinkHandler) (s : Option Text) :
    (h.tryFile u s f).pieceState = h.pieceState := by
  rw [tryFile]
  split
  · rfl
  · simp [pieceState, Function.comp_def, hf]

theorem pieceState_openElement {h h' : MetalinkHandler} {attrs : Attributes}
    (hok : h.openElement u attrs = .ok h') :
    h'.pieceState = h.pieceState.opened (Place.of h.elements) attrs := by
  have on {q : Place} := @ite_path (fun q r => r = .ok h' → h'.pieceState = h.pieceState.opened q attrs) h.elements q
  revert hok
  unfold openElement
  refine on (q := .file) (by decide) rfl (fun _ hok => ?_) fun hfile => ?_
  · obtain rfl := Except.ok.inj hok
    simp only [pieceState, PieceState.opened, Option.map_some]
    cases attr attrs "name" <;> rfl
  refine on (q := .resources) (by decide) rfl (fun _ hok => ?_) fun hresources => ?_
  · obtain rfl := Except.ok.inj hok
    refine pieceState_tryFile u ?_ h _
    exact fun _ _ => rfl
  refine on (q := .pieces) (by decide) rfl (fun _ hok => ?_) fun hpieces => ?_
  · obtain ⟨h₁, htype, hok⟩ := bind_eq_ok hok
    obtain rfl := Except.ok.inj hok
    have hkeep : h₁.pieceState = h.pieceState := by
      cases hattr : attr attrs "type" with
      | none =>
        rw [hattr] at htype
        rw [Except.ok.inj htype]
      | some type =>
        rw [hattr] at htype
        exact pieceState_setFile htype fun _ => rfl
    have htry := pieceState_tryFile u (f := fun n f => { f with pieceLength := n }) (fun _ _ => rfl) h₁
      (attr attrs "length")
    rw [PieceState.opened, ← hkeep, ← htry]
    rfl
  intro hok
  obtain rfl := Except.ok.inj hok
  generalize Place.of h.elements = q at hfile hresources hpieces
  cases q <;> first | rfl | contradiction

/-- The end tag of an element, before the element is taken from the stack -/
theorem pieceState_closeElement {h h' : MetalinkHandler} {e : Xml.Element}
    (hok : h.closeElement u e.attrs (contentOf u e) = .ok h') :
    h'.pieceState = h.pieceState.closed u (Place.of h.elements) e := by
  have on {q : Place} := @ite_path (fun q r => r = .ok h' → h'.pieceState = h.pieceState.closed u q e) h.elements q
  revert hok
  unfold closeElement
  refine on (q := .file) (by decide) rfl (fun _ hok => ?_) fun hfile => ?_
  · cases hf : h.file with
    | none => simp [hf] at hok
    | some file =>
      rw [hf] at hok
      obtain rfl := Except.ok.inj hok
      by_cases hname : file.name = []
      · rw [if_neg (by simpa using hname)]
        simp [pieceState, PieceState.closed, hf, hname, MetalinkFile.pieceState]
      · rw [if_pos hname]
        simp [pieceState, PieceState.closed, hf, hname, MetalinkFile.pieceState, Option.filter_some]
  refine on (q := .url) (by decide) rfl (fun _ hok => ?_) fun hurl => ?_
  · exact pieceState_setFile hok fun _ => rfl
  refine on (q := .identity) (by decide) rfl (fun _ hok => ?_) fun hidentity => ?_
  · exact pieceState_setFile hok fun _ => rfl
  refine on (q := .version) (by decide) rfl (fun _ hok => ?_) fun hversion => ?_
  · exact pieceState_setFile hok fun _ => rfl
  refine on (q := .size) (by decide) rfl (fun _ hok => ?_) fun hsize => ?_
  · obtain rfl := Except.ok.inj hok
    refine pieceState_tryFile u ?_ h _
    exact fun _ _ => rfl
  refine on (q := .description) (by decide) rfl (fun _ hok => ?_) fun hdescription => ?_
  · exact pieceState_setFile hok fun _ => rfl
  refine on (q := .language) (by decide) rfl (fun _ hok => ?_) fun hlanguage => ?_
  · exact pieceState_setFile hok fun _ => rfl
  refine on (q := .os) (by decide) rfl (fun _ hok => ?_) fun hos => ?_
  · exact pieceState_setFile hok fun _ => rfl
  refine on (q := .hash) (by decide) rfl (fun _ hok => ?_) fun hhash => ?_
  · split at hok
    · obtain rfl := Except.ok.inj hok
      rfl
    · exact pieceState_setFile hok fun _ => rfl
  refine on (q := .piece) (by decide) rfl (fun _ hok => ?_) fun hpiece => ?_
  · cases hattr : attr e.attrs "piece" with
    | none =>
      rw [hattr] at hok
      obtain rfl := Except.ok.inj hok
      simp [PieceState.closed, hattr]
    | some piece =>
      rw [hattr] at hok
      obtain rfl := Except.ok.inj hok
      simp [PieceState.closed, hattr, pieceState]
  refine on (q := .pieces) (by decide) rfl (fun _ hok => ?_) fun hpieces => ?_
  · dsimp only at hok
    cases hempty : h.pieces.isEmpty with
    | true =>
      rw [if_pos hempty, bind_ok] at hok
      obtain rfl := Except.ok.inj hok
      simp [pieceState, PieceState.closed, hempty, Function.comp_def]
    | false =>
      rw [if_neg (by simp [hempty])] at hok
      obtain ⟨h₁, hset, hok⟩ := bind_eq_ok hok
      obtain rfl := Except.ok.inj hok
      cases hf : h.file with
      | none => simp [setFile, hf] at hset
      | some file =>
        simp only [setFile, hf, Except.ok.injEq] at hset
        subst hset
        simp [pieceState, PieceState.closed, hf, hempty, MetalinkFile.pieceState]
  intro hok
  obtain rfl := Except.ok.inj hok
  generalize Place.of h.elements = q at hfile hpiece hpieces
  cases q <;> first | rfl | contradiction

/-! ## A document -/

theorem pieceState_startElement {h h' : MetalinkHandler} {name : Text} {attrs : Attributes}
    (hok : h.startElement u name attrs = .ok h') :
    h'.pieceState = h.pieceState.opened (Place.of (h.elements ++ [u.lowerText name])) attrs :=
  pieceState_openElement u hok

theorem pieceState_endElement {h h' : MetalinkHandler} {as : List Attributes} {e : Xml.Element}
    (has : h.attrs = as ++ [e.attrs]) (hcontent : h.content = Xml.lastText e.children)
    (hok : h.endElement u = .ok h') :
    h'.pieceState = h.pieceState.closed u (Place.of h.elements) e := by
  have hlast : h.attrs.getLast? = some e.attrs := by rw [has, List.getLast?_concat]
  rw [endElement, hlast] at hok
  obtain ⟨h₁, hclose, hok⟩ := bind_eq_ok hok
  rw [hcontent] at hclose
  have hclosed := pieceState_closeElement u
    (h := { h with attrs := h.attrs.dropLast, content := [] }) (e := e) hclose
  split at hok
  · cases hok
  · obtain rfl := Except.ok.inj hok
    exact hclosed

mutual

theorem pieceState_events : ∀ (x : Xml) {h h' : MetalinkHandler}, h.Ready → h.run u x.events = .ok h' →
    h'.pieceState = PieceState.absorb u h.elements x h.pieceState
  | .text s, h, h', _, hok => by
    obtain rfl : h.characters s = h' := Except.ok.inj hok
    rfl
  | .element name attrs children, h, h', hr, hok => by
    obtain ⟨h₁, hok₁, helements₁, hattrs₁, hcontent₁, -, -, hr₁⟩ := startElement_ran u hr name attrs
    obtain ⟨h₂, hok₂, hran⟩ := run_eventsAll u children hr₁
    have hcontent : h₂.content = Xml.lastText children := by
      rw [hran.content, hcontent₁, Xml.lastText_eq]
    have hend : h₂.endElement u = .ok h' := by
      have hrun : h.run u (Xml.element name attrs children).events =
          h.startElement u name attrs >>= fun h =>
            h.run u (Xml.eventsAll children ++ [.endElement name]) := List.foldlM_cons
      rw [hrun, hok₁, bind_ok, run_append, hok₂, bind_ok] at hok
      simpa [run, event] using hok
    have hclosed := pieceState_endElement u (e := ⟨attrs, children⟩) (hran.attrs.trans hattrs₁) hcontent hend
    rw [hclosed, pieceState_eventsAll children hr₁ hok₂, pieceState_startElement u hok₁, hran.elements,
      helements₁]
    rfl

theorem pieceState_eventsAll : ∀ (xs : List Xml) {h h' : MetalinkHandler}, h.Ready →
    h.run u (Xml.eventsAll xs) = .ok h' → h'.pieceState = PieceState.absorbAll u h.elements xs h.pieceState
  | [], h, h', _, hok => by
    obtain rfl : h = h' := Except.ok.inj hok
    rfl
  | x :: xs, h, h', hr, hok => by
    obtain ⟨h₁, hok₁, hran₁⟩ := run_events u x hr
    rw [Xml.eventsAll, run_append, hok₁, bind_ok] at hok
    rw [pieceState_eventsAll xs (hran₁.ready hr) hok, pieceState_events x hr hok₁, hran₁.elements]
    rfl

end

/-- What the handler finds in a document: the files of the elements with a name, each with the piece hashes
that its elements leave. -/
theorem run_document_pieces (name : Text) (attrs : Attributes) (children : List Xml) :
    ∃ h, startDocument.run u (Xml.element name attrs children).events = .ok h ∧
      h.files.map (·.bare) = filesOf u [.element name attrs children] ∧
      h.files.map (·.pieceHashes) = (namedFiles u [.element name attrs children]).map fun e =>
        collected u (below u ["verification", "pieces"] e.children) := by
  obtain ⟨h, hok, -, -, hfiles, -⟩ := run_document u name attrs children
  refine ⟨h, hok, hfiles, ?_⟩
  have hready : startDocument.Ready := fun hin => by cases List.prefix_nil.mp hin
  have hstate := congrArg PieceState.files (pieceState_events u _ hready hok)
  exact hstate.trans (PieceState.files_absorbAll_document u [.element name attrs children]
    startDocument.pieceState)

end MetalinkHandler

/-- The elements `pieces` of a file -/
def piecesOf (file : Xml.Element) : List Xml.Element := below u ["verification", "pieces"] file.children

/-- The type and the length of the pieces of a file with a name -/
theorem pieces_fileOf {file : Xml.Element} (hname : (attr file.attrs "name").getD [] ≠ []) :
    ((fileOf u file).getD {}).pieceType =
        ((piecesOf u file).filterMap fun e => attr e.attrs "type").getLastD "sha1".toList ∧
      ((fileOf u file).getD {}).pieceLength =
        ((piecesOf u file).filterMap (numberOf u "length")).getLastD (-1) := by
  cases hattr : attr file.attrs "name" with
  | none => simp [hattr] at hname
  | some name =>
    have hne : name ≠ [] := by simpa [hattr] using hname
    simp only [fileOf, hattr, if_neg hne, Option.getD_some]
    exact ⟨rfl, rfl⟩

theorem forall₂_of_map {α β γ δ : Type} {f : α → γ} {g : β → γ} {f' : α → δ} {g' : β → δ} {as : List α}
    {bs : List β} (h : bs.map g = as.map f) (h' : bs.map g' = as.map f') :
    List.Forall₂ (fun a b => g b = f a ∧ g' b = f' a) as bs := by
  induction as generalizing bs with
  | nil =>
    rw [List.map_eq_nil_iff.mp h]
    exact .nil
  | cons a as ih =>
    cases bs with
    | nil => cases h
    | cons b bs =>
      rw [List.map_cons, List.map_cons, List.cons.injEq] at h h'
      exact .cons ⟨h.1, h'.1⟩ (ih h.2 h'.2)

/-- In every document, each file that is parsed has the piece hashes of one of its elements `pieces`, or
none, if and only if those of no two elements come together. -/
theorem pieceHashes_iff (name : Text) (attrs : Attributes) (children : List Xml) :
    ∃ h, MetalinkHandler.startDocument.run u (Xml.element name attrs children).events = .ok h ∧
      List.Forall₂ (fun file f => FromOne u (piecesOf u file) f ↔ Unmixed u (piecesOf u file))
        (namedFiles u [.element name attrs children]) h.files := by
  obtain ⟨h, hrun, hfiles, hhashes⟩ := MetalinkHandler.run_document_pieces u name attrs children
  refine ⟨h, hrun, ?_⟩
  have hother : h.files.map (fun f => (f.pieceType, f.pieceLength)) =
      (namedFiles u [.element name attrs children]).map fun file =>
        (((piecesOf u file).filterMap fun e => attr e.attrs "type").getLastD "sha1".toList,
          ((piecesOf u file).filterMap (numberOf u "length")).getLastD (-1)) := by
    have hbare := congrArg (List.map fun f => (f.pieceType, f.pieceLength)) hfiles
    rw [filesOf, filterMap_fileOf, List.map_map, List.map_map] at hbare
    refine hbare.trans (List.map_congr_left fun file hfile => ?_)
    have hname : (attr file.attrs "name").getD [] ≠ [] := by simpa using (List.mem_filter.mp hfile).2
    obtain ⟨htype, hlength⟩ := pieces_fileOf u hname
    exact Prod.ext htype hlength
  refine (forall₂_of_map hhashes hother).imp fun file f hf => ?_
  obtain ⟨htype, hlength⟩ := Prod.mk.injEq .. ▸ hf.2
  exact fromOne_iff hf.1 htype hlength

/-- One file, with two elements `pieces` -/
private def twicePieces : Xml.Element where
  attrs := [("name".toList, "a.iso".toList)]
  children :=
    let pieces (hash : String) : Xml := .element "pieces".toList [("length".toList, "512".toList)]
      [.element "hash".toList [("piece".toList, "0".toList)] [.text hash.toList]]
    [.element "verification".toList [] [pieces "aa", pieces "bb"]]

/-- The hashes of both elements come together. -/
theorem pieces_mixed : ∃ h f,
    MetalinkHandler.startDocument.run .ascii (Xml.element "metalink".toList []
      [.element "files".toList [] [.element "file".toList twicePieces.attrs twicePieces.children]]).events = .ok h ∧
    namedFiles .ascii [.element "metalink".toList []
      [.element "files".toList [] [.element "file".toList twicePieces.attrs twicePieces.children]]] = [twicePieces] ∧
    h.files = [f] ∧ f.pieceHashes = ["aa".toList, "bb".toList] ∧
    ¬ FromOne .ascii (piecesOf .ascii twicePieces) f := by
  obtain ⟨h, hrun, -, hhashes⟩ := MetalinkHandler.run_document_pieces .ascii "metalink".toList []
    [.element "files".toList [] [.element "file".toList twicePieces.attrs twicePieces.children]]
  have hmap : h.files.map (·.pieceHashes) = [["aa".toList, "bb".toList]] := hhashes.trans (by decide +kernel)
  obtain ⟨f, hf, hf'⟩ := List.map_eq_singleton_iff.mp hmap
  refine ⟨h, f, hrun, rfl, hf, hf', ?_⟩
  rintro (hnil | ⟨e, he, hall, -⟩)
  · rw [hf'] at hnil
    cases hnil
  · rw [hf'] at hall
    revert e
    decide +kernel

end Swinst.Metalink
