import Swinst.Data.PyText
import Swinst.Data.Substitution

/-! The two types of strings of Python 2. Where they meet, byte strings are decoded; where bytes are
needed, Unicode strings are encoded; both with the ASCII codec. -/

namespace Swinst

namespace Text

def isAscii (s : Text) : Bool := s.all fun c => c.toNat < 128

theorem isAscii_iff {s : Text} : s.isAscii = true ↔ ∀ c ∈ s, c.toNat < 128 := by
  simp [isAscii]

@[simp] theorem isAscii_append (s t : Text) : isAscii (s ++ t) = (s.isAscii && t.isAscii) :=
  List.all_append

theorem isAscii_of_subset {s t : Text} (h : t ⊆ s) (hs : s.isAscii) : t.isAscii :=
  isAscii_iff.mpr fun c hc => isAscii_iff.mp hs c (h hc)

end Text

inductive PyStr where
  | bytes (s : Text)
  | unicode (s : Text)
  deriving DecidableEq

namespace PyStr

def text : PyStr → Text
  | bytes s => s
  | unicode s => s

/-- What a function that takes bytes gets. -/
def encode : PyStr → Except PyError Text
  | bytes s => .ok s
  | unicode s => if s.isAscii then .ok s else .error .unicodeEncodeError

/-- What an operation on Unicode strings gets. -/
def decode : PyStr → Except PyError Text
  | bytes s => if s.isAscii then .ok s else .error .unicodeDecodeError
  | unicode s => .ok s

/-- A method whose result has the type of the string. -/
def map (f : Text → Text) : PyStr → PyStr
  | bytes s => bytes (f s)
  | unicode s => unicode (f s)

/-- `s + t` -/
def append : PyStr → PyStr → Except PyError PyStr
  | bytes s, bytes t => .ok (bytes (s ++ t))
  | s, t => do return unicode ((← s.decode) ++ (← t.decode))

/-- `''.join(ss)`, and `%` on a format that was cut at its conversions -/
def concat (ss : List PyStr) : Except PyError PyStr := ss.foldlM append (bytes [])

/-- `s.replace(old, new)`, for an `old` that is not empty -/
def replace (s old new : PyStr) : Except PyError PyStr :=
  match s, old, new with
  | bytes s, bytes old, bytes new => .ok (bytes (Substitution.replace old new s))
  | s, old, new => do
    return unicode (Substitution.replace (← old.decode) (← new.decode) (← s.decode))

@[simp] theorem text_bytes (s : Text) : (bytes s).text = s := rfl

theorem text_map (f : Text → Text) (s : PyStr) : (s.map f).text = f s.text := by
  cases s <;> rfl

theorem encode_text {s : PyStr} (h : s.encode = .ok t) : t = s.text := by
  cases s with
  | bytes s => exact (Except.ok.inj h).symm
  | unicode s =>
    rw [encode] at h
    split at h
    · exact (Except.ok.inj h).symm
    · cases h

theorem decode_text {s : PyStr} (h : s.decode = .ok t) : t = s.text := by
  cases s with
  | bytes s =>
    rw [decode] at h
    split at h
    · exact (Except.ok.inj h).symm
    · cases h
  | unicode s => exact (Except.ok.inj h).symm

/-- The types do not matter for the text, if nothing raises. -/
theorem replace_text {s old new r : PyStr} (h : s.replace old new = .ok r) :
    r.text = Substitution.replace old.text new.text s.text := by
  have hunicode (h : (do return unicode (Substitution.replace (← old.decode) (← new.decode)
      (← s.decode)) : Except PyError PyStr) = .ok r) :
      r.text = Substitution.replace old.text new.text s.text := by
    obtain ⟨o, ho, h⟩ := bind_eq_ok h
    obtain ⟨n, hn, h⟩ := bind_eq_ok h
    obtain ⟨t, ht, h⟩ := bind_eq_ok h
    rw [← decode_text ho, ← decode_text hn, ← decode_text ht, ← Except.ok.inj h]
    rfl
  match s, old, new with
  | bytes s, bytes old, bytes new => exact Except.ok.inj h ▸ rfl
  | unicode s, old, new => exact hunicode h
  | bytes s, unicode old, new => exact hunicode h
  | bytes s, bytes old, unicode new => exact hunicode h

theorem append_text {s t r : PyStr} (h : s.append t = .ok r) : r.text = s.text ++ t.text := by
  have hunicode (h : (do return unicode ((← s.decode) ++ (← t.decode)) : Except PyError PyStr) =
      .ok r) : r.text = s.text ++ t.text := by
    obtain ⟨a, ha, h⟩ := bind_eq_ok h
    obtain ⟨b, hb, h⟩ := bind_eq_ok h
    rw [← decode_text ha, ← decode_text hb, ← Except.ok.inj h]
    rfl
  match s, t with
  | bytes s, bytes t => exact Except.ok.inj h ▸ rfl
  | unicode s, t => exact hunicode h
  | bytes s, unicode t => exact hunicode h

theorem concat_text {ss : List PyStr} {r : PyStr} (h : concat ss = .ok r) :
    r.text = (ss.map text).flatten := by
  suffices hfold : ∀ acc : PyStr, ss.foldlM append acc = .ok r →
      r.text = acc.text ++ (ss.map text).flatten from hfold _ h
  clear h
  induction ss with
  | nil =>
    intro acc h
    rw [← Except.ok.inj h]
    exact (List.append_nil _).symm
  | cons s ss ih =>
    intro acc h
    rw [List.foldlM_cons] at h
    obtain ⟨acc', hacc, h⟩ := bind_eq_ok h
    rw [ih acc' h, append_text hacc, List.map_cons, List.flatten_cons, List.append_assoc]

/-- The string can be used where Unicode strings are. -/
def Decodable : PyStr → Prop
  | bytes s => s.isAscii = true
  | unicode _ => True

theorem Decodable.of_isAscii {s : PyStr} (h : s.text.isAscii = true) : s.Decodable := by
  cases s with
  | bytes s => exact h
  | unicode s => trivial

theorem Decodable.decode {s : PyStr} (h : s.Decodable) : s.decode = .ok s.text := by
  cases s with
  | bytes s => exact if_pos h
  | unicode s => rfl

theorem Decodable.append {s t : PyStr} (hs : s.Decodable) (ht : t.Decodable) :
    ∃ r, s.append t = .ok r ∧ r.text = s.text ++ t.text ∧ r.Decodable := by
  cases s with
  | bytes s =>
    cases t with
    | bytes t =>
      refine ⟨bytes (s ++ t), rfl, rfl, ?_⟩
      rw [Decodable, Text.isAscii_append, hs, ht]
      rfl
    | unicode t =>
      refine ⟨unicode (s ++ t), ?_, rfl, trivial⟩
      rw [PyStr.append, hs.decode]
      · rfl
      · nofun
  | unicode s =>
    refine ⟨unicode (s ++ t.text), ?_, rfl, trivial⟩
    rw [PyStr.append, ht.decode]
    · rfl
    · nofun

theorem Decodable.concat {ss : List PyStr} (h : ∀ s ∈ ss, s.Decodable) :
    ∃ r, PyStr.concat ss = .ok r ∧ r.text = (ss.map text).flatten ∧ r.Decodable := by
  suffices hfold : ∀ acc : PyStr, acc.Decodable → ∃ r, ss.foldlM PyStr.append acc = .ok r ∧
      r.text = acc.text ++ (ss.map text).flatten ∧ r.Decodable from hfold (bytes []) rfl
  induction ss with
  | nil => exact fun acc hacc => ⟨acc, rfl, (List.append_nil _).symm, hacc⟩
  | cons s ss ih =>
    intro acc hacc
    obtain ⟨hs, hss⟩ := List.forall_mem_cons.mp h
    obtain ⟨acc', happ, htext, hacc'⟩ := hacc.append hs
    obtain ⟨r, hr, hrtext, hrd⟩ := ih hss acc' hacc'
    refine ⟨r, ?_, ?_, hrd⟩
    · rw [List.foldlM_cons, happ]
      exact hr
    · rw [hrtext, htext, List.map_cons, List.flatten_cons, List.append_assoc]

theorem mem_replace {old new s : Text} {c : Char} (h : c ∈ Substitution.replace old new s) :
    c ∈ new ∨ c ∈ s := by
  suffices hfrom : ∀ skip, c ∈ Substitution.replaceFrom old new skip s → c ∈ new ∨ c ∈ s from
    hfrom 0 h
  clear h
  induction s with
  | nil => exact fun skip h => (List.not_mem_nil h).elim
  | cons d s ih =>
    intro skip h
    cases skip with
    | succ skip => exact (ih skip h).imp_right (List.mem_cons_of_mem _)
    | zero =>
      rw [Substitution.replaceFrom] at h
      split at h
      · rcases List.mem_append.mp h with h | h
        · exact .inl h
        · exact (ih _ h).imp_right (List.mem_cons_of_mem _)
      · rcases List.mem_cons.mp h with rfl | h
        · exact .inr List.mem_cons_self
        · exact (ih _ h).imp_right (List.mem_cons_of_mem _)

theorem isAscii_replace {old new s : Text} (hnew : new.isAscii) (hs : s.isAscii) :
    Text.isAscii (Substitution.replace old new s) := by
  rw [Text.isAscii_iff] at *
  exact fun c hc => (mem_replace hc).elim (hnew c) (hs c)

theorem Decodable.replace {s old new : PyStr} (hs : s.Decodable) (hold : old.Decodable)
    (hnew : new.Decodable) : ∃ r, s.replace old new = .ok r ∧
      r.text = Substitution.replace old.text new.text s.text ∧ r.Decodable := by
  have hunicode : (do return unicode (Substitution.replace (← old.decode) (← new.decode)
      (← s.decode)) : Except PyError PyStr) =
      .ok (unicode (Substitution.replace old.text new.text s.text)) := by
    rw [hs.decode, hold.decode, hnew.decode]
    rfl
  match s, old, new with
  | bytes s, bytes old, bytes new => exact ⟨_, rfl, rfl, isAscii_replace hnew hs⟩
  | unicode s, old, new => exact ⟨_, hunicode, rfl, trivial⟩
  | bytes s, unicode old, new => exact ⟨_, hunicode, rfl, trivial⟩
  | bytes s, bytes old, unicode new => exact ⟨_, hunicode, rfl, trivial⟩

/-- A decodable string can be written as bytes if and only if it is ASCII. -/
theorem Decodable.encode {s : PyStr} (h : s.Decodable) :
    s.encode = if s.text.isAscii then .ok s.text else .error .unicodeEncodeError := by
  cases s with
  | bytes s => exact (if_pos h).symm
  | unicode s => rfl

end PyStr

end Swinst
