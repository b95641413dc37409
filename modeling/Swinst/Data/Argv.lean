import Mathlib.Algebra.GroupWithZero.Nat
import Mathlib.Algebra.Order.BigOperators.Group.List
import Swinst.Data.PyText

/-! The rules by which the C runtime of Windows splits a command line into arguments. The runtimes
differ on a pair of quotes inside a quoted part: it stands for one quote, and either the quoted part
goes on or it is over. -/

namespace Swinst.Argv

def isBlank (c : Char) : Bool := c = ' ' || c = '\t'

/-- Where an argument is read: outside of a quoted part, inside, or just after its end, when a second
quote makes a pair. -/
inductive Quoting where
  | outside | inside | closed
  deriving DecidableEq

namespace Quoting

/-- after a quote -/
def toggle : Quoting → Quoting
  | inside => closed
  | outside | closed => inside

/-- after another character -/
def settle : Quoting → Quoting
  | inside => inside
  | outside | closed => outside

/-- after a pair of quotes -/
def afterPair (goesOn : Bool) : Quoting := if goesOn then inside else outside

theorem settle_ne_closed (q : Quoting) : q.settle ≠ closed := by cases q <;> decide

end Quoting

def backslashes (n : Nat) : Text := List.replicate n '\\'

/-- An argument in progress, with the arguments after it. -/
abbrev Partial := Text × List Text

def Partial.prepend (s : Text) (r : Partial) : Partial := (s ++ r.1, r.2)

section

variable (goesOn : Bool)

mutual
/-- Between two arguments. -/
def args : Text → List Text
  | [] => []
  | c :: s =>
    if isBlank c then args s
    else
      let r :=
        if c = '"' then inArg .inside 0 s
        else if c = '\\' then inArg .outside 1 s
        else Partial.prepend [c] (inArg .outside 0 s)
      r.1 :: r.2

/-- Inside an argument, after `n` backslashes, which escape only before a quote. -/
def inArg (q : Quoting) (n : Nat) : Text → Partial
  | [] => (backslashes n, [])
  | c :: s =>
    if c = '\\' then inArg q.settle (n + 1) s
    else if c = '"' then
      if n % 2 = 1 then Partial.prepend (backslashes (n / 2) ++ ['"']) (inArg q.settle 0 s)
      else if q = .closed then Partial.prepend ['"'] (inArg (.afterPair goesOn) 0 s)
      else Partial.prepend (backslashes (n / 2)) (inArg q.toggle 0 s)
    else if isBlank c && q ≠ .inside then (backslashes n, args s)
    else Partial.prepend (backslashes n ++ [c]) (inArg q.settle 0 s)
end

/-- The name of the program: quotes protect blanks in it, and nothing is escaped. -/
def program : (quoted : Bool) → Text → Text × Text
  | _, [] => ([], [])
  | quoted, c :: s =>
    if c = '"' then program (!quoted) s
    else if isBlank c && !quoted then ([], s)
    else ((c :: (program quoted s).1), (program quoted s).2)

/-- The arguments of a command line, the name of the program first. -/
def argv (s : Text) : List Text := (program false s).1 :: args goesOn (program false s).2

end

/-! ## What is lost -/

/-- The length of arguments, each with the blank before it. -/
def size (l : List Text) : Nat := (l.map fun a => a.length + 1).sum

def Partial.size (r : Partial) : Nat := r.1.length + Argv.size r.2

@[simp] theorem size_nil : size [] = 0 := rfl

@[simp] theorem size_cons (a : Text) (l : List Text) : size (a :: l) = a.length + 1 + size l := by
  simp [size]

@[simp] theorem Partial.size_prepend (s : Text) (r : Partial) :
    (r.prepend s).size = s.length + r.size := by
  simp [Partial.prepend, Partial.size, Nat.add_assoc]

@[simp] theorem length_backslashes (n : Nat) : (backslashes n).length = n := List.length_replicate

@[simp] theorem Partial.size_mk (a : Text) (l : List Text) :
    Partial.size (a, l) = a.length + Argv.size l := rfl

theorem Partial.size_args (r : Partial) : Argv.size (r.1 :: r.2) = r.size + 1 := by
  simp [Partial.size]
  omega

variable {goesOn : Bool} {q : Quoting} {n : Nat} {s : Text}

/-- What a quote takes with it at least: itself, or the backslash before it. -/
def lost (s : Text) : Nat := if '"' ∈ s then 1 else 0

theorem lost_quote (s : Text) : lost ('"' :: s) = 1 := if_pos List.mem_cons_self

theorem lost_cons {c : Char} (hc : c ≠ '"') (s : Text) : lost (c :: s) = lost s := by
  simp [lost, hc.symm]

/-- Every character gives at most one of an argument, or separates two; the first of a pair of quotes
has been counted before. -/
theorem size_add_lost (goesOn : Bool) (s : Text) : size (args goesOn s) + lost s ≤ s.length + 1 ∧
    ∀ q n, (inArg goesOn q n s).size + (if q = .closed then 0 else lost s) ≤ n + s.length := by
  induction s with
  | nil => simp [args, inArg, lost]
  | cons c s ih =>
    obtain ⟨hargs, harg⟩ := ih
    have hle (q : Quoting) (n : Nat) : (inArg goesOn q n s).size ≤ n + s.length :=
      (Nat.le_add_right ..).trans (harg q n)
    have hopen (q : Quoting) (n : Nat) (hq : q ≠ .closed) :
        (inArg goesOn q n s).size + lost s ≤ n + s.length := by
      have := harg q n
      rwa [if_neg hq] at this
    constructor
    · rw [args]
      split
      · next hc =>
        have hquote : c ≠ '"' := by
          rintro rfl
          cases hc
        rw [lost_cons hquote]
        exact hargs.trans (Nat.succ_le_succ (Nat.le_succ _))
      · rw [Partial.size_args, List.length_cons]
        split
        · next hc =>
          have hinside := hle .inside 0
          rw [hc, lost_quote]
          omega
        next hquote =>
        rw [lost_cons hquote]
        split
        · have hone := hopen .outside 1 (by decide)
          omega
        · have hzero := hopen .outside 0 (by decide)
          simp only [Partial.size_prepend, List.length_singleton]
          omega
    · intro q n
      have hsettle (n : Nat) := hopen q.settle n q.settle_ne_closed
      have hlost : (if q = .closed then 0 else lost (c :: s)) ≤ lost (c :: s) := by
        split
        · exact Nat.zero_le _
        · exact le_rfl
      by_cases hquote : c = '"'
      · subst hquote
        rw [lost_quote] at hlost ⊢
        rw [inArg, List.length_cons, if_neg (by decide), if_pos rfl]
        by_cases hodd : n % 2 = 1
        · -- the backslashes before the quote are halved, and one more is gone
          rw [if_pos hodd]
          simp only [Partial.size_prepend, List.length_append, length_backslashes, List.length_singleton]
          have hzero := hsettle 0
          omega
        by_cases hclosed : q = .closed
        · rw [if_neg hodd, if_pos hclosed, if_pos hclosed, Partial.size_prepend, List.length_singleton]
          have hpair := hle (.afterPair goesOn) 0
          omega
        · rw [if_neg hodd, if_neg hclosed, Partial.size_prepend, length_backslashes]
          have htoggle := hle q.toggle 0
          omega
      · rw [lost_cons hquote] at hlost ⊢
        rw [inArg, List.length_cons, if_neg hquote]
        split
        · have hnext := hsettle (n + 1)
          omega
        split
        · simp only [Partial.size_mk, length_backslashes]
          omega
        · simp only [Partial.size_prepend, List.length_append, length_backslashes, List.length_singleton]
          have hzero := hsettle 0
          omega

theorem size_le (goesOn : Bool) (s : Text) : size (args goesOn s) ≤ s.length + 1 :=
  (Nat.le_add_right ..).trans (size_add_lost goesOn s).1

/-- A quote gives no character, or takes a backslash with it. -/
theorem size_lt (goesOn : Bool) (h : '"' ∈ s) : size (args goesOn s) < s.length + 1 := by
  have hle := (size_add_lost goesOn s).1
  rwa [lost, if_pos h] at hle

/-! ## Arguments that need no quotes -/

/-- An argument that stands for itself. -/
structure Plain (a : Text) : Prop where
  ne_nil : a ≠ []
  chars : ∀ c ∈ a, isBlank c = false ∧ c ≠ '"'

theorem chars_backslashes (n : Nat) : ∀ c ∈ backslashes n, isBlank c = false ∧ c ≠ '"' := by
  intro c hc
  obtain rfl := List.eq_of_mem_replicate hc
  decide

/-- Without quotes a command line is split at its blanks. -/
theorem plain_of_mem_args (h : '"' ∉ s) : (∀ a ∈ args goesOn s, Plain a) ∧
    ∀ q n, q ≠ .inside → (∀ a ∈ (inArg goesOn q n s).2, Plain a) ∧
      n ≤ (inArg goesOn q n s).1.length ∧
      ∀ c ∈ (inArg goesOn q n s).1, isBlank c = false ∧ c ≠ '"' := by
  induction s with
  | nil => exact ⟨by simp [args], fun q n _ => ⟨by simp [inArg], by simp [inArg], chars_backslashes n⟩⟩
  | cons c s ih =>
    rw [List.mem_cons, not_or] at h
    obtain ⟨hargs, harg⟩ := ih h.2
    have hquote : c ≠ '"' := Ne.symm h.1
    constructor
    · rw [args]
      split
      · exact hargs
      next hblank =>
      split
      · obtain ⟨hrest, hlen, hchars⟩ := harg .outside 1 (by decide)
        refine List.forall_mem_cons.mpr ⟨⟨?_, hchars⟩, hrest⟩
        exact List.ne_nil_of_length_pos hlen
      · obtain ⟨hrest, -, hchars⟩ := harg .outside 0 (by decide)
        refine List.forall_mem_cons.mpr ⟨⟨by simp [Partial.prepend], ?_⟩, hrest⟩
        exact List.forall_mem_cons.mpr ⟨⟨Bool.eq_false_iff.mpr hblank, hquote⟩, hchars⟩
    · intro q n hq
      have hsettle : q.settle ≠ .inside := by cases q <;> simp_all [Quoting.settle]
      rw [inArg, if_neg hquote]
      split
      · obtain ⟨hrest, hlen, hchars⟩ := harg q.settle (n + 1) hsettle
        exact ⟨hrest, Nat.le_of_succ_le hlen, hchars⟩
      split
      · exact ⟨hargs, by simp, chars_backslashes n⟩
      · next hblank =>
        obtain ⟨hrest, -, hchars⟩ := harg q.settle 0 hsettle
        have hblank : isBlank c = false := by simpa [hq] using hblank
        refine ⟨hrest, by simp [Partial.prepend], ?_⟩
        simp only [Partial.prepend, List.append_assoc, List.forall_mem_append]
        exact ⟨chars_backslashes n, by simp [hblank, hquote], hchars⟩

/-- A plain argument, up to a blank or the end. -/
theorem inArg_plain (ha : ∀ c ∈ a, isBlank c = false ∧ c ≠ '"') (hs : s = [] ∨ ∃ s', s = ' ' :: s') :
    inArg goesOn .outside n (a ++ s) = (backslashes n ++ a, args goesOn s) := by
  induction a generalizing n with
  | nil =>
    rcases hs with rfl | ⟨s', rfl⟩
    · simp [inArg, args]
    · simp [inArg, args, isBlank]
  | cons c a ih =>
    obtain ⟨⟨hblank, hquote⟩, ha⟩ := List.forall_mem_cons.mp ha
    rw [List.cons_append, inArg, Quoting.settle, ih ha, ih ha, if_neg hquote]
    split
    · next hc => simp [hc, backslashes, List.replicate_succ']
    · simp [hblank, Partial.prepend, backslashes]

theorem args_plain (ha : Plain a) (hs : s = [] ∨ ∃ s', s = ' ' :: s') :
    args goesOn (a ++ s) = a :: args goesOn s := by
  cases a with
  | nil => exact (ha.ne_nil rfl).elim
  | cons c a =>
    obtain ⟨⟨hblank, hquote⟩, hchars⟩ := List.forall_mem_cons.mp ha.chars
    rw [List.cons_append, args, inArg_plain hchars hs, inArg_plain hchars hs, if_neg hquote,
      if_neg (Bool.eq_false_iff.mp hblank)]
    by_cases hc : c = '\\'
    · simp [hc, backslashes]
    · simp [hc, Partial.prepend, backslashes]

/-! ## Quoted arguments -/

def quote (a : Text) : Text := '"' :: a ++ ['"']

/-- The name of a file: it has no quotes, and something stands after its last backslash. -/
structure FileName where
  text : Text
  no_quote : '"' ∉ text
  last : ∃ c, text.getLast? = some c ∧ c ≠ '\\'

theorem inArg_closed (hs : s = [] ∨ ∃ s', s = ' ' :: s') : inArg goesOn .closed 0 s = ([], args goesOn s) := by
  rcases hs with rfl | ⟨s', rfl⟩
  · simp [inArg, args, backslashes]
  · simp [inArg, args, isBlank, backslashes]

theorem inArg_inside (goesOn : Bool) (n : Nat) (s : Text) (ha : '"' ∉ a) (hl : ∃ c, a.getLast? = some c ∧ c ≠ '\\') :
    inArg goesOn .inside n (a ++ '"' :: s) =
      Partial.prepend (backslashes n ++ a) (inArg goesOn .closed 0 s) := by
  obtain ⟨l, hl, hne⟩ := hl
  induction a generalizing n with
  | nil => cases hl
  | cons c a ih =>
    rw [List.mem_cons, not_or] at ha
    have hquote : c ≠ '"' := Ne.symm ha.1
    cases a with
    | nil =>
      obtain rfl : c = l := by simpa using hl
      simp [inArg, hne, hquote, Quoting.settle, Quoting.toggle, Partial.prepend, backslashes]
    | cons d a =>
      have hl : (d :: a).getLast? = some l := hl
      rw [List.cons_append, inArg, Quoting.settle, ih _ ha.2 hl, ih _ ha.2 hl, if_neg hquote]
      split
      · next hc => simp [hc, Partial.prepend, backslashes, List.replicate_succ']
      · simp [Partial.prepend, backslashes]

/-- A quoted file name is one argument. -/
theorem args_quote (f : FileName) (hs : s = [] ∨ ∃ s', s = ' ' :: s') :
    args goesOn (quote f.text ++ s) = f.text :: args goesOn s := by
  have h := inArg_inside goesOn 0 s f.no_quote f.last
  simp only [quote, List.cons_append, List.append_assoc, List.nil_append]
  rw [args]
  simp only [isBlank, h, inArg_closed hs]
  simp [Partial.prepend, backslashes]

theorem args_blank (s : Text) : args goesOn (' ' :: s) = args goesOn s := by simp [args, isBlank]

theorem program_quote (ha : '"' ∉ a) (s : Text) : program false (quote a ++ ' ' :: s) = (a, s) := by
  have hin (ha : '"' ∉ a) : program true (a ++ '"' :: ' ' :: s) = (a, s) := by
    induction a with
    | nil => simp [program, isBlank]
    | cons c a ih =>
      rw [List.mem_cons, not_or] at ha
      rw [List.cons_append, program, if_neg (Ne.symm ha.1), ih ha.2 ha.2]
      simp
  simpa [quote, program] using hin ha

/-! ## Arguments put behind each other -/

/-- The arguments as they come, each after a blank. -/
def forward (l : List Text) : Text := l.flatMap fun a => ' ' :: a

theorem length_forward (l : List Text) : (forward l).length = size l := by
  simp [forward, size]

theorem forward_blank (l : List Text) : forward l = [] ∨ ∃ s, forward l = ' ' :: s := by
  cases l with
  | nil => exact .inl rfl
  | cons a l => exact .inr ⟨a ++ forward l, rfl⟩

theorem args_forward (h : ∀ a ∈ l, Plain a) : args goesOn (forward l) = l := by
  induction l with
  | nil => rfl
  | cons a l ih =>
    obtain ⟨ha, hl⟩ := List.forall_mem_cons.mp h
    have hcons : forward (a :: l) = ' ' :: (a ++ forward l) := rfl
    rw [hcons, args_blank, args_plain ha (forward_blank l), ih hl]

theorem size_args_forward (goesOn : Bool) (l : List Text) : size (args goesOn (forward l)) ≤ size l := by
  rw [← length_forward l]
  rcases forward_blank l with h | ⟨s, h⟩
  · simp [h, args]
  · rw [h, args_blank, List.length_cons]
    exact size_le goesOn s

/-- Arguments that are not plain do not come back as they were, neither now nor after further
commands. -/
theorem plain_of_size (h : size l ≤ size (args goesOn (forward l))) :
    ∀ a ∈ args goesOn (forward l), Plain a := by
  refine (plain_of_mem_args fun hq => ?_).1
  rw [← length_forward l] at h
  rcases forward_blank l with hl | ⟨s, hl⟩
  · rw [hl] at hq
    cases hq
  · rw [hl, args_blank, List.length_cons] at h
    rw [hl, List.mem_cons] at hq
    have := size_lt goesOn (hq.resolve_left (by decide))
    omega

end Swinst.Argv
