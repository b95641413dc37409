import Mathlib.Data.List.Infix

/-! Python 2 strings as lists of characters, with the string methods that the installer uses, and
the exceptions that its code can end with. -/

namespace Swinst

/-- An exception, by its class; the installer raises `Exception` itself with a message. -/
inductive PyError where
  | exception (message : String)
  | attributeError | typeError | indexError | valueError | ioError | nameError | assertionError
  | unicodeEncodeError | unicodeDecodeError
  deriving DecidableEq, Repr

theorem bind_eq_ok {E α β : Type} {x : Except E α} {f : α → Except E β} {b : β}
    (h : (x >>= f) = .ok b) : ∃ a, x = .ok a ∧ f a = .ok b := by
  cases x with
  | error e => cases h
  | ok a => exact ⟨a, rfl, h⟩

theorem bind_ok {E α β : Type} (a : α) (f : α → Except E β) : (Except.ok a >>= f) = f a := rfl

/-- A Python 2 string. The characters of a byte string are those below 256. -/
abbrev Text := List Char

namespace Text

/-- `str.isspace` of a character of a byte string -/
def isSpace (c : Char) : Bool :=
  c = ' ' || c = '\t' || c = '\n' || c = '\r' || c = '\x0b' || c = '\x0c'

def lstrip (s : Text) : Text := s.dropWhile isSpace

def rstrip (s : Text) : Text := (s.reverse.dropWhile isSpace).reverse

def strip (s : Text) : Text := s.lstrip.rstrip

def lower (s : Text) : Text := s.map Char.toLower

def startsWith (s start : Text) : Bool := start.isPrefixOf s

def endsWith (s tail : Text) : Bool := tail.isSuffixOf s

/-- `s.find(sub)`; `none` stands for -1 -/
def find (s sub : Text) : Option Nat := s.tails.findIdx? (startsWith · sub)

/-- `s.replace(a, b)` for single characters -/
def replaceChar (s : Text) (a b : Char) : Text := s.map fun c => if c = a then b else c

/-- `s.split('\n')` -/
def lines (s : Text) : List Text := s.splitOn '\n'

/-- `'\n'.join(ls)` -/
def unlines (ls : List Text) : Text := ['\n'].intercalate ls

/-- `s.split("\r\n")`, `os.linesep` on Windows -/
def crlfLines : Text → List Text
  | [] => [[]]
  | '\r' :: '\n' :: s => [] :: crlfLines s
  | c :: s => (crlfLines s).modifyHead (List.cons c)

/-- `unix_path` of `backends/common/utils.py` -/
def unixPath (path : Text) : Text :=
  let path := path.replaceChar '\\' '/'
  let path := if path[1]? = some ':' then path.drop 2 else path
  if 1 < path.length ∧ path.getLast? = some '/' then path.dropLast else path

/-- `'%s' % n` -/
def decimal : Int → Text
  | .ofNat n => Nat.toDigits 10 n
  | .negSucc n => '-' :: Nat.toDigits 10 (n + 1)

/-- `s.split()` -/
def words (s : Text) : List Text := (s.splitOnP isSpace).filter (· ≠ [])

theorem unixPath_subset (s : Text) : s.unixPath ⊆ s.replaceChar '\\' '/' := by
  have hdrive (t : Text) : (if t[1]? = some ':' then t.drop 2 else t) ⊆ t := by
    split
    · exact List.drop_subset 2 t
    · exact List.Subset.refl t
  have hslash (t : Text) :
      (if 1 < t.length ∧ t.getLast? = some '/' then t.dropLast else t) ⊆ t := by
    split
    · exact List.dropLast_subset t
    · exact List.Subset.refl t
  exact List.Subset.trans (hslash _) (hdrive _)

theorem lines_unlines {ls : List Text} (h : ∀ l ∈ ls, '\n' ∉ l) (hne : ls ≠ []) :
    (unlines ls).lines = ls := List.splitOn_intercalate _ h hne

theorem lines_ne_nil (s : Text) : s.lines ≠ [] := by simp [lines]

theorem lines_cons (c : Char) (s : Text) :
    lines (c :: s) = if c == '\n' then [] :: s.lines else s.lines.modifyHead (List.cons c) :=
  List.splitOn_cons_eq_if_modifyHead ..

theorem not_mem_of_mem_lines {s l : Text} (h : l ∈ s.lines) : '\n' ∉ l := by
  induction s generalizing l with
  | nil => simp_all [lines]
  | cons c s ih =>
    rw [lines_cons] at h
    split at h
    · rcases List.mem_cons.mp h with rfl | h
      · simp
      · exact ih h
    · next hc =>
      cases hs : lines s with
      | nil => exact (lines_ne_nil s hs).elim
      | cons l' ls =>
        rw [hs, List.modifyHead_cons, List.mem_cons] at h
        rcases h with rfl | h
        · have hl' : '\n' ∉ l' := ih (hs ▸ List.mem_cons_self)
          have hc' : '\n' ≠ c := fun h => hc (by simp [← h])
          simp [hl', hc']
        · exact ih (hs ▸ List.mem_cons_of_mem _ h)

theorem infix_of_mem_lines {s l : Text} (h : l ∈ s.lines) : l <:+: s := by
  have hs : s = ((s.lines).intersperse ['\n']).flatten := (List.intercalate_splitOn '\n').symm
  have hmem {ls : List Text} (h : l ∈ ls) : l ∈ ls.intersperse ['\n'] := by
    induction ls with
    | nil => cases h
    | cons l' ls ih =>
      cases ls with
      | nil => exact h
      | cons l'' ls =>
        rw [List.intersperse_cons_cons, List.mem_cons]
        rcases List.mem_cons.mp h with rfl | h
        · exact .inl rfl
        · exact .inr (List.mem_cons_of_mem _ (ih h))
  rw [hs]
  exact List.infix_of_mem_flatten (hmem h)

theorem startsWith_iff {s start : Text} : s.startsWith start = true ↔ start <+: s :=
  List.isPrefixOf_iff_prefix

theorem isSome_find {s sub : Text} : (s.find sub).isSome ↔ sub <:+: s := by
  rw [find, List.findIdx?_isSome, List.any_eq_true, List.infix_iff_prefix_suffix]
  constructor
  · rintro ⟨t, ht, hp⟩
    exact ⟨t, startsWith_iff.mp hp, (List.mem_tails t s).mp ht⟩
  · rintro ⟨t, hp, ht⟩
    exact ⟨t, (List.mem_tails t s).mpr ht, startsWith_iff.mpr hp⟩

theorem lower_append (s t : Text) : lower (s ++ t) = s.lower ++ t.lower := List.map_append

/-- Nothing but a small letter comes from another character. -/
theorem eq_of_toLower {c d : Char} (hd : d.isLower = false) (h : c.toLower = d) : c = d := by
  unfold Char.toLower at h
  split at h
  · next hu =>
    subst h
    have h₁ : 65 ≤ c.val.toNat := hu.1
    have h₂ : c.val.toNat ≤ 90 := hu.2
    have hlower : ¬ (97 ≤ (c.val.toNat + 32) % 4294967296 ∧
        (c.val.toNat + 32) % 4294967296 ≤ 122) := fun h => by
      rw [← Bool.not_eq_true] at hd
      exact hd (Bool.and_eq_true_iff.mpr ⟨decide_eq_true h.1, decide_eq_true h.2⟩)
    omega
  · exact h

theorem toLower_eq_bracket {c : Char} : c.toLower = '[' ↔ c = '[' := by
  refine ⟨eq_of_toLower (by decide), ?_⟩
  rintro rfl
  rfl

theorem toLower_ne {c d : Char} (hd : d.isUpper) : c.toLower ≠ d := by
  rintro rfl
  unfold Char.toLower at hd
  split at hd
  · next hu =>
    have h₁ : 65 ≤ c.toNat := hu.1
    have h₂ : c.toNat ≤ 90 := hu.2
    have h₃ : (c.toNat + 32) % 4294967296 ≤ 90 := (of_decide_eq_true hd).2
    omega
  · next hu => exact hu (of_decide_eq_true hd)

theorem head?_of_startsWith {s start : Text} (h : startsWith s (c :: start)) :
    s.head? = some c := by
  obtain ⟨t, rfl⟩ := startsWith_iff.mp h
  rfl

theorem startsWith_singleton {s : Text} : startsWith s [c] ↔ s.head? = some c := by
  refine ⟨head?_of_startsWith, fun h => ?_⟩
  rw [startsWith_iff]
  obtain ⟨t, rfl⟩ := List.head?_eq_some_iff.mp h
  exact ⟨t, rfl⟩

/-- A text that begins and ends with visible characters keeps both ends. -/
theorem strip_eq_self {s : Text} (hh : ∀ c ∈ s.head?, isSpace c = false)
    (hl : ∀ c ∈ s.getLast?, isSpace c = false) : s.strip = s := by
  have hls : s.lstrip = s := by
    cases s with
    | nil => rfl
    | cons c s => exact List.dropWhile_cons_of_neg (by simpa using hh c rfl)
  rw [strip, hls, rstrip]
  cases hr : s.reverse with
  | nil => simp_all
  | cons c t =>
    have hc : isSpace c = false := hl c (by simp [← List.head?_reverse, hr])
    rw [List.dropWhile_cons_of_neg (by simp [hc]), ← hr, List.reverse_reverse]

/-- Words are split at a blank. -/
theorem words_append_blank (s t : Text) : words (s ++ ' ' :: t) = s.words ++ t.words := by
  rw [words, List.splitOnP_append_cons s t rfl, List.filter_append]
  rfl

/-- A text without blanks is one word. -/
theorem words_of_forall_not_space {s : Text} (hne : s ≠ []) (h : ∀ c ∈ s, isSpace c = false) :
    s.words = [s] := by
  rw [words, List.splitOnP_eq_singleton h]
  simp [hne]

theorem crlfLines_append {l : Text} (hl : '\n' ∉ l) (s : Text) :
    crlfLines (l ++ '\r' :: '\n' :: s) = l :: s.crlfLines := by
  induction l with
  | nil => rfl
  | cons c l ih =>
    rw [List.mem_cons, not_or] at hl
    rw [List.cons_append, crlfLines, ih hl.2, List.modifyHead_cons]
    rintro t rfl ht
    cases l with
    | nil => cases ht
    | cons c' l => exact hl.2 (by simp [(List.cons.inj ht).1])

theorem crlfLines_of_not_mem {l : Text} (hl : '\n' ∉ l) : l.crlfLines = [l] := by
  induction l with
  | nil => rfl
  | cons c l ih =>
    rw [List.mem_cons, not_or] at hl
    rw [crlfLines, ih hl.2, List.modifyHead_cons]
    rintro t rfl rfl
    exact hl.2 List.mem_cons_self

/-- `"\r\n".join(ls).split("\r\n")` -/
theorem crlfLines_intercalate {ls : List Text} (hls : ∀ l ∈ ls, '\n' ∉ l) (hne : ls ≠ []) :
    crlfLines ("\r\n".toList.intercalate ls) = ls := by
  induction ls with
  | nil => exact (hne rfl).elim
  | cons l ls ih =>
    obtain ⟨hl, hls⟩ := List.forall_mem_cons.mp hls
    cases ls with
    | nil => simpa using crlfLines_of_not_mem hl
    | cons l' ls =>
      rw [List.intercalate_cons_cons, List.append_assoc]
      exact (crlfLines_append hl _).trans (congrArg (l :: ·) (ih hls (by simp)))

end Text

end Swinst
