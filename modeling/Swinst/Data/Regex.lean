import Mathlib.Data.List.Infix

/-! Regular expressions with named groups, as a backtracking engine matches them: from the first
character on, greedy repetitions and the left one of two alternatives first. -/

namespace Swinst

/-- A regular expression over the characters `α`, with groups that are named in `ι` -/
inductive Regex (α ι : Type)
  | lit (w : List α)
  /-- `[p]+` -/
  | many (p : α → Bool)
  /-- `(?:r)?` -/
  | opt (r : Regex α ι)
  | alt (r r' : Regex α ι)
  | seq (r r' : Regex α ι)
  | group (name : ι) (r : Regex α ι)

namespace Regex

structure Match (α ι : Type) where
  taken : List α
  groups : List (ι × List α) := []
  rest : List α

def Match.append (m m' : Match α ι) : Match α ι where
  taken := m.taken ++ m'.taken
  groups := m.groups ++ m'.groups
  rest := m'.rest

/-- `m.group(name)` -/
def Match.group [BEq ι] (m : Match α ι) (name : ι) : Option (List α) := m.groups.lookup name

/-- The ways to cut a word behind one or more characters in `p`, the longest first -/
def spans (p : α → Bool) : List α → List (List α × List α)
  | [] => []
  | a :: s => if p a then (spans p s).map (fun c => (a :: c.1, c.2)) ++ [([a], s)] else []

/-- The matches of `r` at the beginning of a word, in the order in which backtracking comes to them -/
def runs [BEq α] : Regex α ι → List α → List (Match α ι)
  | lit w, s => if w.isPrefixOf s then [{ taken := w, rest := s.drop w.length }] else []
  | many p, s => (spans p s).map fun c => { taken := c.1, rest := c.2 }
  | opt r, s => r.runs s ++ [{ taken := [], rest := s }]
  | alt r r', s => r.runs s ++ r'.runs s
  | seq r r', s => (r.runs s).flatMap fun m => (r'.runs m.rest).map m.append
  | group name r, s => (r.runs s).map fun m => { m with groups := (name, m.taken) :: m.groups }

/-- `r.match(s)` -/
def match? [BEq α] (r : Regex α ι) (s : List α) : Option (Match α ι) := (r.runs s).head?

attribute [local simp] runs

/-! ## Where a repetition can end -/

theorem spans_append {p : α → Bool} {w : List α} (hw : w ≠ []) (hp : ∀ a ∈ w, p a) (s : List α) :
    ∃ shorter, spans p (w ++ s) = (spans p s).map (fun c => (w ++ c.1, c.2)) ++ (w, s) :: shorter := by
  induction w with
  | nil => exact (hw rfl).elim
  | cons a w ih =>
    obtain ⟨ha, hp⟩ := List.forall_mem_cons.mp hp
    rw [List.cons_append, spans, if_pos ha]
    cases w with
    | nil => exact ⟨[], rfl⟩
    | cons b w =>
      obtain ⟨shorter, h⟩ := ih (List.cons_ne_nil b w) hp
      refine ⟨shorter.map (fun c => (a :: c.1, c.2)) ++ [([a], b :: w ++ s)], ?_⟩
      rw [h, List.map_append, List.map_map, List.map_cons, List.append_assoc]
      rfl

theorem mem_spans {p : α → Bool} {s v t : List α} (h : (v, t) ∈ spans p s) :
    s = v ++ t ∧ v ≠ [] ∧ ∀ a ∈ v, p a := by
  induction s generalizing v with
  | nil => cases h
  | cons a s ih =>
    rw [spans] at h
    split at h
    · next ha =>
      rcases List.mem_append.mp h with h | h
      · obtain ⟨⟨v, t⟩, hmem, heq⟩ := List.mem_map.mp h
        obtain ⟨rfl, rfl⟩ := Prod.mk.inj heq
        obtain ⟨rfl, -, hv⟩ := ih hmem
        exact ⟨rfl, List.cons_ne_nil _ _, List.forall_mem_cons.mpr ⟨ha, hv⟩⟩
      · obtain ⟨rfl, rfl⟩ := Prod.mk.inj (List.mem_singleton.mp h)
        exact ⟨rfl, List.cons_ne_nil _ _, by simpa using ha⟩
    · cases h

/-! ## The first match -/

variable [BEq α]

/-- `m` is the match that the engine finds. -/
def First (r : Regex α ι) (s : List α) (m : Match α ι) : Prop := ∃ later, r.runs s = m :: later

theorem First.match?_eq {r : Regex α ι} (h : First r s m) : r.match? s = some m := by
  obtain ⟨later, h⟩ := h
  rw [match?, h]
  rfl

/-- The engine goes back to `m` when none of the matches before it can go on. -/
theorem First.seq {r r' : Regex α ι} (h : r.runs s = before ++ m :: after)
    (hfail : ∀ b ∈ before, r'.runs b.rest = []) (h' : First r' m.rest m') :
    First (seq r r') s (m.append m') := by
  obtain ⟨later, h'⟩ := h'
  have hbefore : before.flatMap (fun m => (r'.runs m.rest).map m.append) = [] := by
    rw [List.flatMap_eq_nil_iff]
    intro b hb
    rw [hfail b hb, List.map_nil]
  rw [First, runs, h, List.flatMap_append, hbefore, List.nil_append, List.flatMap_cons, h']
  exact ⟨_, rfl⟩

/-- A repetition ends behind `w` when the expression behind it fails after every longer one. -/
theorem First.many_seq {r' : Regex α ι} (hw : w ≠ []) (hp : ∀ a ∈ w, p a)
    (hfail : ∀ v t, s = v ++ t → v ≠ [] → (∀ a ∈ v, p a) → r'.runs t = []) (h' : First r' s m) :
    First (.seq (.group name (.many p)) r') (w ++ s)
      { taken := w ++ m.taken, groups := (name, w) :: m.groups, rest := m.rest } := by
  obtain ⟨shorter, h⟩ := spans_append hw hp s
  have hruns : (group name (many p) : Regex α ι).runs (w ++ s) =
      (spans p s).map (fun c => { taken := w ++ c.1, groups := [(name, w ++ c.1)], rest := c.2 }) ++
        { taken := w, groups := [(name, w)], rest := s } ::
          shorter.map (fun c => { taken := c.1, groups := [(name, c.1)], rest := c.2 }) := by
    rw [runs, runs, h, List.map_map, List.map_append, List.map_map, List.map_cons]
    rfl
  refine First.seq hruns ?_ h'
  intro b hb
  obtain ⟨⟨v, t⟩, hmem, rfl⟩ := List.mem_map.mp hb
  obtain ⟨hs, hv, hall⟩ := mem_spans hmem
  exact hfail v t hs hv hall

theorem First.opt_seq {r r' : Regex α ι} (h : First (.seq r r') s m) : First (.seq (.opt r) r') s m := by
  obtain ⟨later, h⟩ := h
  rw [runs] at h
  rw [First, runs, runs, List.flatMap_append, h]
  exact ⟨_, rfl⟩

theorem First.skip_opt {r r' : Regex α ι} (hr : r.runs s = []) (h : First r' s m) :
    First (.seq (.opt r) r') s m := by
  have hopt : (opt r).runs s = [] ++ { taken := [], rest := s } :: [] := by simp [hr]
  exact First.seq hopt (fun _ hb => by cases hb) h

section
variable [LawfulBEq α]

theorem runs_lit (w s : List α) : (lit w : Regex α ι).runs (w ++ s) = [{ taken := w, rest := s }] := by
  rw [runs, if_pos (by simp), List.drop_left]

theorem runs_lit_eq_nil {w s : List α} (h : ∀ t, s ≠ w ++ t) : (lit w : Regex α ι).runs s = [] := by
  rw [runs, if_neg]
  rw [List.isPrefixOf_iff_prefix]
  rintro ⟨t, rfl⟩
  exact h t rfl

theorem First.lit (w s : List α) : First (.lit w : Regex α ι) (w ++ s) { taken := w, rest := s } :=
  ⟨[], runs_lit w s⟩

theorem First.lit_seq {r' : Regex α ι} (w : List α) (h : First r' s m) :
    First (.seq (.lit w) r') (w ++ s) { m with taken := w ++ m.taken } := by
  have hlit : (Regex.lit w : Regex α ι).runs (w ++ s) = [] ++ { taken := w, rest := s } :: [] := runs_lit w s
  exact First.seq hlit (fun _ hb => by cases hb) h

/-- Where a literal stands before it, an expression fails if it fails behind the literal. -/
theorem runs_lit_seq_eq_nil {r' : Regex α ι} {w s : List α} (h : ∀ t, s = w ++ t → r'.runs t = []) :
    (seq (lit w) r').runs s = [] := by
  rw [runs, List.flatMap_eq_nil_iff]
  intro m hm
  rw [runs] at hm
  split at hm
  · next hw =>
    obtain ⟨t, rfl⟩ := List.isPrefixOf_iff_prefix.mp hw
    rw [List.mem_singleton.mp hm, List.drop_left, h t rfl, List.map_nil]
  · cases hm

end

theorem runs_many_seq_eq_nil {r' : Regex α ι} {s : List α}
    (h : ∀ v t, s = v ++ t → v ≠ [] → (∀ a ∈ v, p a) → r'.runs t = []) :
    (seq (group name (many p)) r').runs s = [] := by
  rw [runs, List.flatMap_eq_nil_iff]
  intro m hm
  rw [runs, runs, List.map_map] at hm
  obtain ⟨⟨v, t⟩, hmem, rfl⟩ := List.mem_map.mp hm
  obtain ⟨hs, hv, hall⟩ := mem_spans hmem
  have hfail := h v t hs hv hall
  simp [hfail]

end Regex

end Swinst
