import Swinst.Data.PyText
import Mathlib.Data.List.DropRight

/-! XML documents as trees, the events in which a SAX parser reports them, and the elements at a path. -/

namespace Swinst

abbrev Attributes := List (Text × Text)

inductive Xml where
  | text (s : Text)
  | element (name : Text) (attrs : Attributes) (children : List Xml)

namespace Xml

inductive Event where
  | startElement (name : Text) (attrs : Attributes)
  | characters (s : Text)
  | endElement (name : Text)

mutual

def events : Xml → List Event
  | text s => [.characters s]
  | element name attrs children => .startElement name attrs :: (eventsAll children ++ [.endElement name])

def eventsAll : List Xml → List Event
  | [] => []
  | x :: xs => x.events ++ eventsAll xs

end

/-- An element without its name -/
structure Element where
  attrs : Attributes
  children : List Xml

/-- An element whose name is one of `p` -/
def element? (p : Text → Bool) : Xml → Option Element
  | text _ => none
  | element name attrs children => if p name then some ⟨attrs, children⟩ else none

/-- The elements whose name is one of `p`, in document order -/
def named (p : Text → Bool) (xs : List Xml) : List Element := xs.filterMap (element? p)

/-- The elements at a path below a list of nodes, where `fold` is applied to the names of the document -/
def select (fold : Text → Text) : List Text → List Xml → List Element
  | [], _ => []
  | [n], xs => named (fun m => fold m = n) xs
  | n :: path, xs => (named (fun m => fold m = n) xs).flatMap fun e => select fold path e.children

@[simp] theorem named_nil (p : Text → Bool) : named p [] = [] := rfl

theorem named_element (p : Text → Bool) (name : Text) (attrs : Attributes) (children xs : List Xml) :
    named p (element name attrs children :: xs) =
      if p name then ⟨attrs, children⟩ :: named p xs else named p xs := by
  cases h : p name <;> simp [named, element?, h]

/-! ## The text behind the last element -/

def isText : Xml → Bool
  | text _ => true
  | element _ _ _ => false

def chars : Xml → Text
  | text s => s
  | element _ _ _ => []

def lastText (xs : List Xml) : Text := (xs.rtakeWhile isText).flatMap chars

/-- The text behind the last tag, read from the front, when it was `s` before -/
def textBehind (s : Text) (xs : List Xml) : Text :=
  xs.foldl (fun s x => match x with | text t => s ++ t | element _ _ _ => []) s

theorem textBehind_append (s : Text) (xs ys : List Xml) :
    textBehind s (xs ++ ys) = textBehind (textBehind s xs) ys := List.foldl_append

theorem lastText_eq (xs : List Xml) : lastText xs = textBehind [] xs := by
  induction xs using List.reverseRecOn with
  | nil => rfl
  | append_singleton xs x ih =>
    rw [textBehind_append, ← ih, lastText]
    cases x with
    | text s =>
      rw [List.rtakeWhile_concat_pos _ _ _ rfl, List.flatMap_append]
      simp [textBehind, lastText, chars]
    | element name attrs children =>
      rw [List.rtakeWhile_concat_neg _ _ _ Bool.false_ne_true]
      rfl

/-- Character data in any pieces -/
theorem lastText_map_text (ts : List Text) : lastText (ts.map .text) = ts.flatten := by
  have hall : (ts.map Xml.text).rtakeWhile isText = ts.map .text :=
    List.rtakeWhile_eq_self_iff.mpr (List.forall_mem_map.mpr fun _ _ => rfl)
  rw [lastText, hall, List.flatMap_map, List.flatten_eq_flatMap]
  rfl

end Xml

end Swinst
