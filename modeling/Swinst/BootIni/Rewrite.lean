import Swinst.Loader

/-! The rewriting of `boot.ini` by `modify_bootini`, on its lines. -/

namespace Swinst.BootIni

def isOsHead (line : Text) : Bool := line.strip.lower = "[operating systems]".toList

def isBootHead (line : Text) : Bool := line.strip.lower = "[boot loader]".toList

def isHead (line : Text) : Bool := line.strip.startsWith "[".toList

def isTimeout (line : Text) : Bool := line.strip.lower.startsWith "timeout".toList

/-- Does the line name the loader at `path`, given in lower case? -/
def names (path line : Text) : Bool := line.strip.lower.startsWith path

def isBlank (line : Text) : Bool := line.strip.isEmpty

def bootHead : Text := "[boot loader]".toList

def timeoutLine : Text := "timeout = 10".toList

/-- The variables of the loop in `modify_bootini`. -/
structure Scan where
  lines : List Text
  bootLoaderPos : Nat := 0
  hasTimeout : Bool := false
  hasBootHead : Bool := false
  isSection : Bool := false

inductive Turn where
  | next (s : Scan)
  /-- `break` -/
  | done (s : Scan)

/-- The body of the loop, at `i` and `line`. -/
def Scan.turn (bootLine oldLine : Text) (i : Nat) (line : Text) (s : Scan) : Turn :=
  if isOsHead line then .next { s with isSection := true }
  else if isBootHead line then .next { s with hasBootHead := true, bootLoaderPos := i }
  else if isHead line then .next { s with isSection := false }
  else if isTimeout line then
    if !s.hasBootHead then .next { s with lines := s.lines.erase line }
    else .next { s with lines := s.lines.set i timeoutLine, hasTimeout := true }
  else if s.isSection && names oldLine line then .done { s with lines := s.lines.set i bootLine }
  else if s.isSection && isBlank line then
    .done { s with lines := s.lines.insertIdx i bootLine }
  else .next s

/-- `for i,line in enumerate(lines)`, where the body changes `lines`: the index grows by one with
every turn. One unit of fuel is one turn. -/
def Scan.loop (bootLine oldLine : Text) : Nat → Nat → Scan → Scan
  | 0, _, s => s
  | fuel + 1, i, s =>
    match s.lines[i]? with
    | none => s
    | some line =>
      match s.turn bootLine oldLine i line with
      | .next s' => loop bootLine oldLine fuel (i + 1) s'
      | .done s' => s'

/-- The header and the timeout that are put in after the loop. -/
def Scan.head (s : Scan) : List Text :=
  if !s.hasBootHead then (s.lines.insertIdx 0 bootHead).insertIdx 1 timeoutLine
  else if !s.hasTimeout then s.lines.insertIdx (s.bootLoaderPos + 1) timeoutLine
  else s.lines

def modifyLines (bootLine oldLine : Text) (lines : List Text) : List Text :=
  (Scan.loop bootLine oldLine lines.length 0 { lines }).head

/-- The lines that `modify_bootini` reads, a missing final newline put in; `content[-1]` fails on
an empty text. -/
def readLines (content : Text) : Option (List Text) :=
  match content.getLast? with
  | none => none
  | some c => some (Text.lines (if c ≠ '\n' then content ++ ['\n'] else content))

/-- The text that `modify_bootini` writes in place of `content`. -/
def modifyBootini (info : LoaderInfo) (content : Text) : Option Text :=
  (readLines content).map fun lines =>
    Text.unlines (modifyLines info.bootLine info.oldLine lines)

/-! ## The kinds of lines -/

/-- The first visible character of a line in lower case tells its kind. -/
def initial (line : Text) : Option Char := line.strip.lower.head?

theorem initial_of_isTimeout {line : Text} (h : isTimeout line) : initial line = some 't' :=
  Text.head?_of_startsWith h

theorem isHead_iff {line : Text} : isHead line ↔ initial line = some '[' := by
  refine Text.startsWith_singleton.trans ?_
  rw [initial, Text.lower, List.head?_map, Option.map_eq_some_iff]
  constructor
  · exact fun h => ⟨_, h, rfl⟩
  · rintro ⟨c, hc, hl⟩
    rwa [Text.toLower_eq_bracket.mp hl] at hc

theorem isHead_of_isOsHead {line : Text} (h : isOsHead line) : isHead line := by
  rw [isHead_iff, initial, of_decide_eq_true h]
  rfl

theorem isHead_of_isBootHead {line : Text} (h : isBootHead line) : isHead line := by
  rw [isHead_iff, initial, of_decide_eq_true h]
  rfl

theorem isBootHead_eq_false_of_isOsHead {line : Text} (h : isOsHead line) : isBootHead line = false := by
  rw [isBootHead, of_decide_eq_true h]
  decide

theorem isBootHead_eq_false_of_isHead {line : Text} (h : isHead line = false) : isBootHead line = false := by
  cases hb : isBootHead line with
  | false => rfl
  | true => rw [isHead_of_isBootHead hb] at h; cases h

theorem isOsHead_eq_false_of_isHead {line : Text} (h : isHead line = false) : isOsHead line = false := by
  cases hb : isOsHead line with
  | false => rfl
  | true => rw [isHead_of_isOsHead hb] at h; cases h

theorem initial_of_names {info : LoaderInfo} {line : Text} (h : names info.loaderPath line) :
    initial line = some 'c' := by
  have hp : ∃ t, info.loaderPath = 'c' :: t := by
    unfold LoaderInfo.loaderPath LoaderInfo.choose
    split
    · exact ⟨_, rfl⟩
    · split <;> exact ⟨_, rfl⟩
  obtain ⟨t, ht⟩ := hp
  rw [ht] at h
  exact Text.head?_of_startsWith h

theorem initial_of_isBlank {line : Text} (h : isBlank line) : initial line = none := by
  rw [initial, List.isEmpty_iff.mp h]
  rfl

theorem names_bootLine (info : LoaderInfo) : names info.loaderPath info.bootLine := by
  rw [names, Text.startsWith_iff, info.strip_bootLine]
  exact info.loaderPath_prefix

end Swinst.BootIni
