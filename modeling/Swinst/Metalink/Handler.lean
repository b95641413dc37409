import Swinst.Data.Unicode
import Swinst.Data.Xml

/-! `MetalinkHandler` of `backends/common/metalink.py`, which takes a metalink apart while it is parsed. -/

namespace Swinst.Metalink

structure MetalinkHash where
  type : Text := []
  hash : Text := []

structure MetalinkUrl where
  url : Text := []
  type : Text := []
  location : Text := []
  preference : Int := -1
  maxconnections : Int := -1

structure MetalinkFile where
  name : Text := []
  identity : Text := []
  version : Text := []
  size : Int := -1
  description : Text := []
  language : Text := []
  os : Text := []
  hashes : List MetalinkHash := []
  pieceHashes : List Text := []
  pieceLength : Int := -1
  pieceType : Text := "sha1".toList
  urls : List MetalinkUrl := []
  maxconnections : Int := -1

/-- The fields of the handler, with the files of its metalink. -/
structure MetalinkHandler where
  files : List MetalinkFile
  elements : List Text
  attrs : List Attributes
  content : Text
  file : Option MetalinkFile
  pieces : Attributes

/-- The names of elements, from the root on -/
def path (names : List String) : List Text := names.map String.toList

/-- `attrs[name]`, `none` without the attribute -/
def attr (attrs : Attributes) (name : String) : Option Text := attrs.lookup name.toList

/-- `d[k] = v` -/
def setItem (d : Attributes) (k v : Text) : Attributes := (k, v) :: d.filter (·.1 ≠ k)

/-- `for i in range(len(self._pieces))`, with the indices that are left -/
def addPieces (pieces : Attributes) : List Nat → List Text → List Text
  | [], pieceHashes => pieceHashes
  | i :: is, pieceHashes =>
    match pieces.lookup (Text.decimal i) with
    | none => []
    | some piece => addPieces pieces is (pieceHashes ++ [piece])

namespace MetalinkHandler
variable (u : Unicode)

/-- The fields after `startDocument` -/
def startDocument : MetalinkHandler where
  files := []
  elements := []
  attrs := []
  content := []
  file := none
  pieces := []

/-- An assignment to a field of `self._file`, which may be `None` -/
def setFile (h : MetalinkHandler) (f : MetalinkFile → MetalinkFile) : Except PyError MetalinkHandler :=
  match h.file with
  | none => .error .attributeError
  | some file => .ok { h with file := some (f file) }

/-- `try: self._file.… = int(s)` with `except: pass` -/
def tryFile (h : MetalinkHandler) (s : Option Text) (f : Int → MetalinkFile → MetalinkFile) : MetalinkHandler :=
  match s.bind u.int? with
  | none => h
  | some n => { h with file := h.file.map (f n) }

/-- The part of `startElement` that depends on the path of the element -/
def openElement (attrs : Attributes) (h : MetalinkHandler) : Except PyError MetalinkHandler :=
  if h.elements = path ["metalink", "files", "file"] then
    let file : MetalinkFile := {}
    .ok { h with file := some ((attr attrs "name").elim file fun name => { file with name }) }
  else if h.elements = path ["metalink", "files", "file", "resources"] then
    .ok (h.tryFile u (attr attrs "maxconnections") fun n f => { f with maxconnections := n })
  else if h.elements = path ["metalink", "files", "file", "verification", "pieces"] then
    do
      let h ← (attr attrs "type").elim (.ok h) fun type => h.setFile fun f => { f with pieceType := type }
      let h := h.tryFile u (attr attrs "length") fun n f => { f with pieceLength := n }
      .ok { h with pieces := [] }
  else .ok h

def startElement (name : Text) (attrs : Attributes) (h : MetalinkHandler) : Except PyError MetalinkHandler :=
  openElement u attrs { h with
    elements := h.elements ++ [u.lowerText name]
    attrs := h.attrs ++ [attrs]
    content := [] }

/-- The url of an element `url` -/
def url (attrs : Attributes) (content : Text) : MetalinkUrl where
  url := content
  type := (attr attrs "type").getD []
  location := (attr attrs "location").getD []
  maxconnections := ((attr attrs "maxconnections").bind u.int?).getD (-1)
  preference := ((attr attrs "preference").bind u.int?).getD (-1)

/-- The part of `endElement` that depends on the path of the element -/
def closeElement (attrs : Attributes) (content : Text) (h : MetalinkHandler) : Except PyError MetalinkHandler :=
  if h.elements = path ["metalink", "files", "file"] then
    match h.file with
    | none => .error .attributeError
    | some file => .ok (if file.name ≠ [] then { h with files := h.files ++ [file] } else h)
  else if h.elements = path ["metalink", "files", "file", "resources", "url"] then
    h.setFile fun f => { f with urls := f.urls ++ [url u attrs content] }
  else if h.elements = path ["metalink", "files", "file", "identity"] then
    h.setFile fun f => { f with identity := content }
  else if h.elements = path ["metalink", "files", "file", "version"] then
    h.setFile fun f => { f with version := content }
  else if h.elements = path ["metalink", "files", "file", "size"] then
    .ok (h.tryFile u (some content) fun n f => { f with size := n })
  else if h.elements = path ["metalink", "files", "file", "description"] then
    h.setFile fun f => { f with description := content }
  else if h.elements = path ["metalink", "files", "file", "language"] then
    h.setFile fun f => { f with language := content }
  else if h.elements = path ["metalink", "files", "file", "os"] then
    h.setFile fun f => { f with os := content }
  else if h.elements = path ["metalink", "files", "file", "verification", "hash"] then
    match attr attrs "type" with
    | none => .ok h
    | some type => h.setFile fun f => { f with hashes := f.hashes ++ [{ type, hash := content }] }
  else if h.elements = path ["metalink", "files", "file", "verification", "pieces", "hash"] then
    match attr attrs "piece" with
    | none => .ok h
    | some piece => .ok { h with pieces := setItem h.pieces piece content }
  else if h.elements = path ["metalink", "files", "file", "verification", "pieces"] then
    do
      let h ← if h.pieces.isEmpty then .ok h else h.setFile fun f =>
        { f with pieceHashes := addPieces h.pieces (List.range h.pieces.length) f.pieceHashes }
      .ok { h with pieces := [] }
  else .ok h

def endElement (h : MetalinkHandler) : Except PyError MetalinkHandler :=
  match h.attrs.getLast? with
  | none => .error .indexError
  | some attrs => do
    let content := unescape (u.strip h.content)
    let h ← closeElement u attrs content { h with attrs := h.attrs.dropLast, content := [] }
    if h.elements.isEmpty then .error .indexError
    else .ok { h with elements := h.elements.dropLast }

def characters (content : Text) (h : MetalinkHandler) : MetalinkHandler :=
  { h with content := h.content ++ content }

def event : Xml.Event → MetalinkHandler → Except PyError MetalinkHandler
  | .startElement name attrs, h => h.startElement u name attrs
  | .characters content, h => .ok (h.characters content)
  | .endElement _, h => h.endElement u

def run (events : List Xml.Event) (h : MetalinkHandler) : Except PyError MetalinkHandler :=
  events.foldlM (fun h e => h.event u e) h

end MetalinkHandler

/-- `parse_string`, where `sax` gives the root element of a text, or nothing for one that is not well formed -/
def parseString (u : Unicode) (sax : Text → Option (Text × Attributes × List Xml)) (text : Text) :
    Except PyError (List MetalinkFile) :=
  match sax text with
  | none => .error (.exception "Failed to parse xml-data.")
  | some (name, attrs, children) =>
    (MetalinkHandler.startDocument.run u (Xml.element name attrs children).events).map (·.files)

end Swinst.Metalink
