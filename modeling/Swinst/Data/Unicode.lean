import Swinst.Data.Substitution
import Swinst.Data.PyText

/-! Unicode strings of Python 2, with the character database of the interpreter as a parameter. -/

namespace Swinst

/-- What the interpreter knows of a character, which is fixed for ASCII. -/
structure Unicode where
  lower : Char → Char
  isSpace : Char → Bool
  decimal : Char → Option (Fin 10)
  lower_ascii : ∀ c, c.toNat < 128 → lower c = c.toLower
  isSpace_ascii : ∀ c, c.toNat < 128 → isSpace c = (Text.isSpace c || (28 ≤ c.toNat && c.toNat < 32))
  decimal_ascii : ∀ c, c.toNat < 128 →
    decimal c = if c.isDigit then some (Fin.ofNat 10 (c.toNat - '0'.toNat)) else none

namespace Unicode

/-- Nothing is known beyond ASCII. -/
def ascii : Unicode where
  lower c := c.toLower
  isSpace c := Text.isSpace c || (28 ≤ c.toNat && c.toNat < 32)
  decimal c := if c.isDigit then some (Fin.ofNat 10 (c.toNat - '0'.toNat)) else none
  lower_ascii _ _ := rfl
  isSpace_ascii _ _ := rfl
  decimal_ascii _ _ := rfl

variable (u : Unicode)

/-- `s.lower()` -/
def lowerText (s : Text) : Text := s.map u.lower

/-- `s.strip()` -/
def strip (s : Text) : Text := ((s.dropWhile u.isSpace).reverse.dropWhile u.isSpace).reverse

/-- The sign of a number, and what follows it -/
def sign : Text → Int × Text
  | '-' :: s => (-1, s)
  | '+' :: s => (1, s)
  | s => (1, s)

/-- `int(s)`, `none` where it raises. Spaces may stand around the digits, and behind the sign. -/
def int? (s : Text) : Option Int :=
  let (sgn, s) := sign (s.dropWhile u.isSpace)
  let s := s.dropWhile u.isSpace
  let digits := s.takeWhile fun c => (u.decimal c).isSome
  if digits.isEmpty || !(s.drop digits.length).all u.isSpace then none
  else some (sgn * (digits.filterMap u.decimal).foldl (fun (n : Nat) d => 10 * n + d.val) 0)

end Unicode

/-- `unescape` of `xml.sax.saxutils` -/
def unescape (s : Text) : Text :=
  let s := Substitution.replace "&gt;".toList ">".toList s
  let s := Substitution.replace "&lt;".toList "<".toList s
  Substitution.replace "&amp;".toList "&".toList s

/-- What `unescape` replaces -/
def references : List Text := ["&gt;".toList, "&lt;".toList, "&amp;".toList]

/-- One step of `unescape` -/
theorem replace_reference (c : Char) (name : Text) (hname : '&' ∉ name) (hne : name ≠ []) (s : Text) :
    (Substitution.replace ('&' :: name) [c] s).length ≤ s.length ∧
      ((Substitution.replace ('&' :: name) [c] s).length = s.length →
        ¬ ('&' :: name) <:+: s ∧ Substitution.replace ('&' :: name) [c] s = s) := by
  have hsep := Substitution.Separate.of_head hname
  have hshort : [c].length < ('&' :: name).length := by
    simpa using List.length_pos_of_ne_nil hne
  refine ⟨Substitution.length_replace_le hsep List.mem_cons_self hshort.le s, fun heq => ?_⟩
  have hno : ¬ ('&' :: name) <:+: s := fun hin =>
    (Substitution.length_replace_lt hsep List.mem_cons_self hin hshort).ne heq
  exact ⟨hno, Substitution.replace_last hno⟩

/-- The texts that `unescape` leaves alone are those without references. -/
theorem unescape_eq_self_iff (s : Text) : unescape s = s ↔ ∀ r ∈ references, ¬ r <:+: s := by
  simp only [references, List.forall_mem_cons, List.not_mem_nil, false_imp_iff, forall_const, and_true]
  constructor
  · intro h
    have hlen : (unescape s).length = s.length := congrArg List.length h
    -- no step makes the text longer, so that none makes it shorter
    obtain ⟨hgt, hgt'⟩ := replace_reference '>' "gt;".toList (by decide) (by decide) s
    obtain ⟨hlt, hlt'⟩ := replace_reference '<' "lt;".toList (by decide) (by decide)
      (Substitution.replace "&gt;".toList ">".toList s)
    obtain ⟨hamp, hamp'⟩ := replace_reference '&' "amp;".toList (by decide) (by decide)
      (Substitution.replace "&lt;".toList "<".toList (Substitution.replace "&gt;".toList ">".toList s))
    obtain ⟨hnogt, hs⟩ := hgt' (le_antisymm hgt (hlen ▸ hamp.trans hlt))
    have hs : Substitution.replace "&gt;".toList ">".toList s = s := hs
    rw [hs] at hlt hlt' hamp hamp'
    rw [unescape, hs] at hlen
    obtain ⟨hnolt, hs⟩ := hlt' (le_antisymm hlt (hlen ▸ hamp))
    have hs : Substitution.replace "&lt;".toList "<".toList s = s := hs
    rw [hs] at hamp' hlen
    exact ⟨hnogt, hnolt, (hamp' hlen).1⟩
  · rintro ⟨hgt, hlt, hamp⟩
    rw [unescape, Substitution.replace_last hgt, Substitution.replace_last hlt,
      Substitution.replace_last hamp]

end Swinst
