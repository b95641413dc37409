import Swinst.BootIni.Progress
import Swinst.BootIni.Undo
import Mathlib.Data.List.Count

/-! The `[boot loader]` header and its timeout after `modify_bootini`. -/

namespace Swinst.BootIni

/-! ## Before and after the header -/

theorem kept_progress (before : List Text) : kept (progress before).lines = kept before := by
  induction before using List.reverseRecOn with
  | nil => rfl
  | append_singleton before line ih =>
    rw [progress_append, Progress.next, kept_append, ← ih]
    dsimp only
    split
    · rw [kept_append]
    · next hline =>
      have ht : isTimeout line = true := by
        rw [Bool.or_eq_true, not_or, Bool.not_eq_true'] at hline
        simpa using hline.2
      have hdrop : kept [line] = [] := kept_cons_timeout ht
      split
      · rw [kept_append, hdrop]
        rfl
      · rw [kept_erase ht, kept_append]

theorem Reading.next_passOver {r : Reading} (line : Text) (hb : (r.next line).hasBootHead = true) :
    (r.next line).passOver = false := by
  rw [Reading.hasBootHead_next, Bool.or_eq_true] at hb
  rw [Reading.passOver_next]
  rcases hb with hb | hb
  · rw [hb, Bool.not_true, Bool.and_false]
  · have hline := (Bool.and_eq_true_iff.mp hb).2
    rw [not_isTimeout_of_isHead (isHead_of_isBootHead hline), Bool.and_false, Bool.false_and]

/-- After a header that was read no line is passed over. -/
theorem passOver_of_hasBootHead {before : List Text} (h : (reading before).hasBootHead = true) :
    (reading before).passOver = false := by
  rcases List.eq_nil_or_concat' before with rfl | ⟨before, line, rfl⟩
  · rfl
  · rw [reading_append] at h ⊢
    exact Reading.next_passOver line h

/-- A header that was read is a line that was not passed over. -/
theorem exists_header {before : List Text} (h : (reading before).hasBootHead = true) :
    ∃ b line a, before = b ++ line :: a ∧ isBootHead line ∧ (reading b).passOver = false := by
  induction before using List.reverseRecOn with
  | nil => cases h
  | append_singleton before line ih =>
    cases hb : (reading before).hasBootHead with
    | true =>
      obtain ⟨b, l, a, rfl, hl, hp⟩ := ih hb
      exact ⟨b, l, a ++ [line], by simp, hl, hp⟩
    | false =>
      refine ⟨before, line, [], rfl, ?_⟩
      rw [reading_append, Reading.hasBootHead_next, hb, Bool.false_or] at h
      obtain ⟨hpass, hline⟩ := Bool.and_eq_true_iff.mp h
      exact ⟨hline, by simpa using hpass⟩

theorem hasBootHead_eq_false {before : List Text} (h : ∀ line ∈ before, isBootHead line = false) :
    (reading before).hasBootHead = false := by
  cases hb : (reading before).hasBootHead with
  | false => rfl
  | true =>
    obtain ⟨b, line, a, rfl, hline, -⟩ := exists_header hb
    rw [h line (by simp)] at hline
    cases hline

/-- A line after the header, as the loop leaves it. -/
def retime (line : Text) : Text := if isTimeout line then timeoutLine else line

/-- What the loop has made of the lines from the header on. -/
theorem progress_header {before : List Text} (hp : (reading before).passOver = false)
    (hhead : isBootHead head) (y : List Text) (hy : ∀ line ∈ y, isBootHead line = false) :
    (progress (before ++ head :: y)).lines = (progress before).lines ++ head :: y.map retime ∧
      (reading (before ++ head :: y)).hasBootHead = true ∧
      (progress (before ++ head :: y)).bootLoaderPos = (progress before).lines.length ∧
      (progress (before ++ head :: y)).hasTimeout = ((progress before).hasTimeout || y.any isTimeout) := by
  induction y using List.reverseRecOn with
  | nil =>
    have hos : isOsHead head = false := by
      cases ho : isOsHead head with
      | false => rfl
      | true => rw [isBootHead_eq_false_of_isOsHead ho] at hhead; cases hhead
    have ht : isTimeout head = false := not_isTimeout_of_isHead (isHead_of_isBootHead hhead)
    rw [progress_append, reading_append]
    simp [Progress.next, Reading.next, reading_progress, hp, ht, hos, hhead]
  | append_singleton y line ih =>
    obtain ⟨hlines, hread, hpos, htimeout⟩ := ih fun l hl => hy l (List.mem_append_left _ hl)
    have hline : isBootHead line = false := hy line (by simp)
    have hpass := passOver_of_hasBootHead hread
    have hsplit : before ++ head :: (y ++ [line]) = (before ++ head :: y) ++ [line] := by simp
    rw [hsplit, progress_append, reading_append]
    refine ⟨?_, ?_, ?_, ?_⟩
    · simp only [Progress.next, reading_progress, hpass, hread, hlines, Bool.false_or, if_true]
      cases ht : isTimeout line <;> simp [retime, ht]
    · rw [Reading.hasBootHead_next, hread, Bool.true_or]
    · simp [Progress.next, reading_progress, hpass, hline, hpos]
    · simp [Progress.next, reading_progress, hpass, hread, htimeout, Bool.or_assoc]

/-! ## The timeout lines before the header -/

/-- Before the header the timeout lines that are left are those that were passed over. -/
theorem countP_progress {before : List Text} (hb : (reading before).hasBootHead = false) (line : Text) :
    (progress (before ++ [line])).lines.countP isTimeout =
      (progress before).lines.countP isTimeout +
        if (reading before).passOver && isTimeout line then 1 else 0 := by
  rw [progress_append, Progress.next, reading_progress]
  cases ht : isTimeout line with
  | false => simp [ht]
  | true =>
    cases hp : (reading before).passOver with
    | true => simp [ht]
    | false =>
      have hmem : line ∈ (progress before).lines ++ [line] := by simp
      simp [hb, List.countP_erase, ht, hmem]

theorem countP_progress_le {x y : List Text} (h : ∀ line ∈ x ++ y, isBootHead line = false) :
    (progress x).lines.countP isTimeout ≤ (progress (x ++ y)).lines.countP isTimeout := by
  induction y using List.reverseRecOn with
  | nil => rw [List.append_nil]
  | append_singleton y line ih =>
    have hb : (reading (x ++ y)).hasBootHead = false :=
      hasBootHead_eq_false fun l hl => h l (by rw [← List.append_assoc]; exact List.mem_append_left _ hl)
    rw [← List.append_assoc, countP_progress hb]
    exact (ih fun l hl => h l (by rw [← List.append_assoc]; exact List.mem_append_left _ hl)).trans
      (Nat.le_add_right _ _)

theorem passOver_append {before : List Text} (hb : (reading before).hasBootHead = false)
    (hp : (reading before).passOver = false) (line : Text) :
    (reading (before ++ [line])).passOver = isTimeout line := by
  rw [reading_append, Reading.passOver_next, hp, hb, Bool.not_false, Bool.true_and, Bool.and_true]

theorem passOver_append_of_passOver {before : List Text} (hp : (reading before).passOver = true) (line : Text) :
    (reading (before ++ [line])).passOver = false := by
  rw [reading_append, Reading.next, if_pos hp]

/-- No timeout line has a timeout line or the header directly behind it. -/
def Spaced (lines : List Text) : Prop :=
  ∀ u a b v, lines = u ++ a :: b :: v → isTimeout a → isTimeout b = false ∧ isBootHead b = false

/-- Then every timeout line before the header is read, and so is the header. -/
theorem spaced_iff {x : List Text} (hx : ∀ line ∈ x, isBootHead line = false) (hhead : isBootHead head) :
    Spaced (x ++ [head]) ↔
      (reading x).passOver = false ∧ ∀ line ∈ (progress x).lines, isTimeout line = false := by
  have hcount : (∀ line ∈ (progress x).lines, isTimeout line = false) ↔
      (progress x).lines.countP isTimeout = 0 := by
    rw [List.countP_eq_zero]
    simp only [Bool.not_eq_true]
  rw [hcount]
  constructor
  · intro hspaced
    -- a line that is passed over has a timeout line before it
    have hlast (before : List Text) : ∀ after, x = before ++ after →
        (progress before).lines.countP isTimeout = 0 ∧
          ((reading before).passOver = true → ∃ b t, before = b ++ [t] ∧ isTimeout t) := by
      induction before using List.reverseRecOn with
      | nil => exact fun _ _ => ⟨rfl, fun h => by cases h⟩
      | append_singleton before line ih =>
        intro after hsplit
        obtain ⟨hzero, hpass⟩ := ih (line :: after) (by simp [hsplit])
        have hb : (reading before).hasBootHead = false :=
          hasBootHead_eq_false fun l hl => hx l (by simp [hsplit, hl])
        cases hp : (reading before).passOver with
        | true =>
          obtain ⟨b, t, rfl, ht⟩ := hpass hp
          have hline := (hspaced b t line (after ++ [head]) (by simp [hsplit]) ht).1
          rw [countP_progress hb, hzero, hp, hline, passOver_append_of_passOver hp]
          exact ⟨rfl, fun h => by cases h⟩
        | false =>
          rw [countP_progress hb, hzero, hp, passOver_append hb hp]
          exact ⟨rfl, fun ht => ⟨before, line, rfl, ht⟩⟩
    obtain ⟨hzero, hpass⟩ := hlast x [] (List.append_nil x).symm
    refine ⟨?_, hzero⟩
    cases hp : (reading x).passOver with
    | false => rfl
    | true =>
      obtain ⟨b, t, rfl, ht⟩ := hpass hp
      have hhead' := (hspaced b t head [] (by simp) ht).2
      rw [hhead] at hhead'
      cases hhead'
  · rintro ⟨hp, hzero⟩ u a b v hsplit ha
    have hread (rest : List Text) (hrest : x = (u ++ [a]) ++ rest) :
        (reading (u ++ [a])).passOver = true := by
      have hu : (reading u).hasBootHead = false :=
        hasBootHead_eq_false fun l hl => hx l (by simp [hrest, hl])
      have hle := countP_progress_le (x := u ++ [a]) (y := rest) (hrest ▸ hx)
      rw [← hrest, hzero, countP_progress hu, ha] at hle
      cases hpu : (reading u).passOver with
      | true => simp [hpu] at hle
      | false => rw [passOver_append hu hpu, ha]
    rcases List.eq_nil_or_concat' v with rfl | ⟨v, w, rfl⟩
    · obtain ⟨hx', rfl⟩ : x = u ++ [a] ∧ head = b := by
        have hsplit : x ++ [head] = (u ++ [a]) ++ [b] := by simpa using hsplit
        obtain ⟨h₁, h₂⟩ := List.append_inj' hsplit rfl
        exact ⟨h₁, List.singleton_inj.mp h₂⟩
      have hpass := hread [] (by simpa using hx')
      rw [← hx', hp] at hpass
      cases hpass
    · obtain ⟨hx', -⟩ : x = (u ++ [a]) ++ b :: v ∧ head = w := by
        have hsplit : x ++ [head] = (u ++ a :: b :: v) ++ [w] := by simpa using hsplit
        obtain ⟨h₁, h₂⟩ := List.append_inj' hsplit rfl
        exact ⟨by simpa using h₁, List.singleton_inj.mp h₂⟩
      have hpass := hread (b :: v) hx'
      refine ⟨?_, hx b (by simp [hx'])⟩
      have hua : (reading (u ++ [a])).hasBootHead = false :=
        hasBootHead_eq_false fun l hl => hx l (hx' ▸ List.mem_append_left _ hl)
      have hle := countP_progress_le (x := u ++ [a] ++ [b]) (y := v) (by simpa [hx'] using hx)
      rw [List.append_assoc _ [b], List.singleton_append, ← hx', hzero, countP_progress hua, hpass] at hle
      cases hb : isTimeout b with
      | false => rfl
      | true => simp [hb] at hle

/-! ## The timeout lines of a section -/

/-- The timeout lines of the section that `lines` begin with -/
def timeouts (lines : List Text) : List Text := (lines.takeWhile (!isHead ·)).filter isTimeout

theorem timeouts_cons_isHead (h : isHead line) (lines : List Text) : timeouts (line :: lines) = [] := by
  rw [timeouts, List.takeWhile_cons_of_neg (by simp [h])]
  rfl

theorem timeouts_cons_isTimeout (h : isTimeout line) (lines : List Text) :
    timeouts (line :: lines) = line :: timeouts lines := by
  rw [timeouts, List.takeWhile_cons_of_pos (by simp [isHead_eq_false_of_isTimeout h]), List.filter_cons_of_pos h, timeouts]

theorem timeouts_cons (hh : isHead line = false) (ht : isTimeout line = false) (lines : List Text) :
    timeouts (line :: lines) = timeouts lines := by
  rw [timeouts, List.takeWhile_cons_of_pos (by simp [hh]), List.filter_cons_of_neg (by simp [ht]), timeouts]

theorem not_isHead_of_initial {line : Text} (h : initial line ≠ some '[') : isHead line = false := by
  cases hh : isHead line with
  | false => rfl
  | true => exact (h (isHead_iff.mp hh)).elim

theorem not_isHead_of_names {info : LoaderInfo} {line : Text} (h : names info.loaderPath line) :
    isHead line = false := not_isHead_of_initial (by rw [initial_of_names h]; decide)

/-- A line that ends the loop is of neither kind. -/
theorem plain_of_endsAt {info : LoaderInfo} (h : endsAt info.loaderPath before line) :
    isHead line = false ∧ isTimeout line = false := by
  simp only [endsAt, Bool.and_eq_true, Bool.or_eq_true] at h
  rcases h.2 with hn | hb
  · exact ⟨not_isHead_of_names hn, not_isTimeout_of_names hn⟩
  · have hnone := initial_of_isBlank hb
    refine ⟨not_isHead_of_initial (by rw [hnone]; decide), ?_⟩
    cases ht : isTimeout line with
    | false => rfl
    | true => rw [initial_of_isTimeout ht] at hnone; cases hnone

theorem timeouts_entered {info : LoaderInfo} {rest : List Text} (h : Stops info.loaderPath before rest) :
    timeouts (entered info rest) = timeouts rest := by
  cases rest with
  | nil => rfl
  | cons line after =>
    have hboot := names_bootLine info
    obtain ⟨hh, ht⟩ := plain_of_endsAt (h.2 line after rfl)
    rw [entered, timeouts_cons (not_isHead_of_names hboot) (not_isTimeout_of_names hboot),
      timeouts_cons hh ht]
    split
    · rfl
    · exact timeouts_cons hh ht after

/-- The loop keeps the number of the timeout lines of a section, -/
theorem length_timeouts_retime (y l l' : List Text) (h : timeouts l' = timeouts l) :
    (timeouts (y.map retime ++ l')).length = (timeouts (y ++ l)).length := by
  induction y with
  | nil => rw [List.map_nil, List.nil_append, List.nil_append, h]
  | cons line y ih =>
    rw [List.map_cons, List.cons_append, List.cons_append]
    cases ht : isTimeout line with
    | true =>
      rw [retime, if_pos ht, timeouts_cons_isTimeout (by decide), timeouts_cons_isTimeout ht,
        List.length_cons, List.length_cons, ih]
    | false =>
      have hline : retime line = line := if_neg (by simp [ht])
      rw [hline]
      cases hh : isHead line with
      | true => rw [timeouts_cons_isHead hh, timeouts_cons_isHead hh]
      | false => rw [timeouts_cons hh ht, timeouts_cons hh ht, ih]

/-- and rewrites the one that it reads. -/
theorem timeouts_retime {y l l' : List Text} (h : timeouts l' = timeouts l) (hy : y.any isTimeout)
    (hone : (timeouts (y ++ l)).length = 1) : timeouts (y.map retime ++ l') = [timeoutLine] := by
  induction y with
  | nil => cases hy
  | cons line y ih =>
    rw [List.cons_append] at hone
    rw [List.map_cons, List.cons_append]
    cases ht : isTimeout line with
    | true =>
      rw [timeouts_cons_isTimeout ht, List.length_cons, Nat.add_eq_right] at hone
      have hnil := (length_timeouts_retime y l l' h).trans hone
      rw [retime, if_pos ht, timeouts_cons_isTimeout (by decide), List.length_eq_zero_iff.mp hnil]
    | false =>
      have hline : retime line = line := if_neg (by simp [ht])
      rw [hline]
      cases hh : isHead line with
      | true =>
        rw [timeouts_cons_isHead hh] at hone
        cases hone
      | false =>
        rw [timeouts_cons hh ht] at hone ⊢
        rw [List.any_cons, ht, Bool.false_or] at hy
        exact ih hy hone

/-! ## One header -/

/-- A text is split in one way only at a line of which it has one kind. -/
theorem split_unique {p : Text → Bool} {x y x' y' : List Text} (hx : ∀ line ∈ x ++ y, p line = false)
    (hb : p b = true) (heq : x ++ a :: y = x' ++ b :: y') : x = x' ∧ a = b ∧ y = y' := by
  have hnot {line : Text} (h : line ∈ x ++ y) (hp : p line = true) : False := by
    rw [hx line h] at hp
    cases hp
  rcases List.append_eq_append_iff.mp heq with ⟨l, rfl, hl⟩ | ⟨l, rfl, hl⟩
  · cases l with
    | nil =>
      obtain ⟨rfl, rfl⟩ := List.cons.inj hl
      simp
    | cons c l =>
      obtain ⟨rfl, rfl⟩ := List.cons.inj hl
      exact (hnot (by simp) hb).elim
  · cases l with
    | nil =>
      obtain ⟨rfl, rfl⟩ := List.cons.inj hl
      simp
    | cons c l =>
      obtain ⟨rfl, rfl⟩ := List.cons.inj hl
      exact (hnot (by simp) hb).elim

/-- What the text that is written is to look like, where `y` are the lines behind the header of the text
before: one header, no timeout line before it, and one in its section when there was one at most. -/
def ProperHeader (y out : List Text) : Prop :=
  ∃ x head y', out = x ++ head :: y' ∧ isBootHead head ∧ (∀ line ∈ x ++ y', isBootHead line = false) ∧
    (∀ line ∈ x, isTimeout line = false) ∧ ((timeouts y).length ≤ 1 → timeouts y' = [timeoutLine])

/-- The loop does not end before the header, no timeout line before the header has another one or the
header directly behind it, and a timeout line behind the header is read exactly when the section of the
header has one. -/
structure WellRead (info : LoaderInfo) (x : List Text) (head : Text) (y : List Text) : Prop where
  reaches : RunsThrough info.loaderPath x
  spaced : Spaced (x ++ [head])
  timeout : (timeouts y).length ≤ 1 →
    ((∃ u t v, y = u ++ t :: v ∧ isTimeout t ∧ RunsThrough info.loaderPath (x ++ head :: u)) ↔
      (timeouts y).length = 1)

theorem properHeader_iff_of_split {x y y' : List Text} (hhead : isBootHead head)
    (hx : ∀ line ∈ x ++ y', isBootHead line = false) :
    ProperHeader y (x ++ head :: y') ↔
      (∀ line ∈ x, isTimeout line = false) ∧ ((timeouts y).length ≤ 1 → timeouts y' = [timeoutLine]) := by
  constructor
  · rintro ⟨u, h, v, heq, hh, -, htimeout, hsection⟩
    obtain ⟨rfl, rfl, rfl⟩ := split_unique hx hh heq
    exact ⟨htimeout, hsection⟩
  · rintro ⟨htimeout, hsection⟩
    exact ⟨x, head, y', rfl, hhead, hx, htimeout, hsection⟩

theorem Stops.behind {before rest a b : List Text} (h : Stops path before rest) (ha : RunsThrough path a)
    (heq : a ++ b = before ++ rest) : ∃ c, before = a ++ c ∧ b = c ++ rest := by
  rcases List.append_eq_append_iff.mp heq with ⟨l, rfl, rfl⟩ | ⟨l, rfl, rfl⟩
  · exact ⟨l, rfl, rfl⟩
  · cases l with
    | nil => exact ⟨[], by simp, by simp⟩
    | cons line l =>
      have hends := h.2 line (l ++ b) rfl
      rw [ha before line l rfl] at hends
      cases hends

theorem RunsThrough.of_append (h : RunsThrough path (a ++ b)) : RunsThrough path a := by
  rintro before line after rfl
  exact h before line (after ++ b) (by simp)

/-- The loop reads the header. -/
theorem WellRead.hasBootHead {info : LoaderInfo} {x y before rest : List Text} (h : WellRead info x head y)
    (hhead : isBootHead head) (hx : ∀ line ∈ x ++ y, isBootHead line = false)
    (hstops : Stops info.loaderPath before rest) (heq : x ++ head :: y = before ++ rest) :
    (reading before).hasBootHead = true := by
  have hx' : ∀ line ∈ x, isBootHead line = false := fun line hline => hx line (List.mem_append_left _ hline)
  obtain ⟨hp, -⟩ := (spaced_iff hx' hhead).mp h.spaced
  have hruns : RunsThrough info.loaderPath (x ++ [head]) :=
    h.reaches.append (endsAt_isHead (isHead_of_isBootHead hhead))
  obtain ⟨c, rfl, rfl⟩ := hstops.behind (b := y) hruns (by simpa using heq)
  have hc : ∀ line ∈ c, isBootHead line = false := fun line hline => hx line (by simp [hline])
  simpa using (progress_header hp hhead c hc).2.1

theorem mem_entered {info : LoaderInfo} {before rest : List Text} (h : Stops info.loaderPath before rest)
    (hline : line ∈ rest) (hhead : isHead line) : line ∈ entered info rest := by
  cases rest with
  | nil => cases hline
  | cons l after =>
    obtain ⟨hh, -⟩ := plain_of_endsAt (h.2 l after rfl)
    rcases List.mem_cons.mp hline with rfl | hline
    · rw [hh] at hhead
      cases hhead
    · rw [entered]
      split
      · exact List.mem_cons_of_mem _ hline
      · exact List.mem_cons_of_mem _ (List.mem_cons_of_mem _ hline)

/-- The loop keeps the headers. -/
theorem Scan.Left.mem {info : LoaderInfo} {s : Scan} {before rest : List Text} (h : s.Left info before rest)
    (hline : line ∈ before ++ rest) (hhead : isHead line) : line ∈ s.lines := by
  rw [h.lines]
  rcases List.mem_append.mp hline with hline | hline
  · have hkept : line ∈ kept before :=
      List.mem_filter.mpr ⟨hline, by simp [not_isTimeout_of_isHead hhead]⟩
    rw [← kept_progress] at hkept
    exact List.mem_append_left _ (List.mem_filter.mp hkept).1
  · exact List.mem_append_right _ (mem_entered h.stops hline hhead)

theorem isBootHead_entered {info : LoaderInfo} {rest : List Text}
    (h : ∀ line ∈ rest, isBootHead line = false) : ∀ line ∈ entered info rest, isBootHead line = false := by
  have hboot : isBootHead info.bootLine = false :=
    isBootHead_eq_false_of_isHead (not_isHead_of_names (names_bootLine info))
  cases rest with
  | nil => exact h
  | cons line after =>
    obtain ⟨hline, hafter⟩ := List.forall_mem_cons.mp h
    rw [entered]
    refine List.forall_mem_cons.mpr ⟨hboot, ?_⟩
    split
    · exact hafter
    · exact h

theorem isBootHead_progress {x : List Text} (h : ∀ line ∈ x, isBootHead line = false) :
    ∀ line ∈ (progress x).lines, isBootHead line = false := by
  intro line hline
  cases hb : isBootHead line with
  | false => rfl
  | true =>
    have hkept : line ∈ kept (progress x).lines :=
      List.mem_filter.mpr ⟨hline, by simp [not_isTimeout_of_isHead (isHead_of_isBootHead hb)]⟩
    rw [kept_progress] at hkept
    rw [h line (List.mem_filter.mp hkept).1] at hb
    cases hb

theorem isBootHead_retime {y : List Text} (h : ∀ line ∈ y, isBootHead line = false) :
    ∀ line ∈ y.map retime, isBootHead line = false := by
  rw [List.forall_mem_map]
  intro line hline
  rw [retime]
  split
  · decide
  · exact h line hline

theorem hasTimeout_progress {x : List Text} (h : ∀ line ∈ x, isBootHead line = false) :
    (progress x).hasTimeout = false := by
  induction x using List.reverseRecOn with
  | nil => rfl
  | append_singleton x line ih =>
    have hx : ∀ l ∈ x, isBootHead l = false := fun l hl => h l (List.mem_append_left _ hl)
    rw [progress_append, Progress.next, ih hx, reading_progress, hasBootHead_eq_false hx, Bool.and_false,
      Bool.or_false]

/-- A timeout line behind the header is read when it comes before the end of the loop. -/
theorem any_isTimeout_iff {info : LoaderInfo} {x a rest : List Text}
    (h : Stops info.loaderPath (x ++ head :: a) rest) :
    a.any isTimeout = true ↔
      ∃ u t v, a ++ rest = u ++ t :: v ∧ isTimeout t ∧ RunsThrough info.loaderPath (x ++ head :: u) := by
  constructor
  · intro hany
    obtain ⟨t, hmem, ht⟩ := List.any_eq_true.mp hany
    obtain ⟨u, v, rfl⟩ := List.append_of_mem hmem
    refine ⟨u, t, v ++ rest, by simp, ht, ?_⟩
    exact RunsThrough.of_append (b := t :: v) (by simpa using h.1)
  · rintro ⟨u, t, v, heq, ht, hruns⟩
    obtain ⟨c, hc, -⟩ := h.behind (hruns.append (endsAt_isTimeout ht)) (b := v) (by simp [heq])
    have ha : a = u ++ t :: c := by simpa using hc
    simp [ha, ht]

/-- Where the header is not read a second one is put in. -/
theorem Scan.Left.not_properHeader {info : LoaderInfo} {s : Scan} {before rest y : List Text} {head : Text}
    (h : s.Left info before rest) (hb : (reading before).hasBootHead = false) (hmem : head ∈ before ++ rest)
    (hhead : isBootHead head) :
    ¬ ProperHeader y s.head := by
  have hmem : head ∈ s.lines := h.mem hmem (isHead_of_isBootHead hhead)
  have hout : s.head = [] ++ bootHead :: timeoutLine :: s.lines := by
    rw [Scan.head, h.hasBootHead, hb]
    rfl
  rintro ⟨u, l, v, hsplit, hl, hone, -⟩
  rw [hout] at hsplit
  obtain ⟨-, -, rfl⟩ := split_unique (a := l) (b := bootHead) hone (by decide) hsplit.symm
  rw [hone head (by simp [hmem])] at hhead
  cases hhead

/-- Where the header is read, with the lines `a` behind it. -/
theorem wellRead_iff {info : LoaderInfo} {x a rest : List Text} (hhead : isBootHead head)
    (hx : ∀ line ∈ x, isBootHead line = false) (hp : (reading x).passOver = false)
    (hstops : Stops info.loaderPath (x ++ head :: a) rest) :
    WellRead info x head (a ++ rest) ↔
      (∀ line ∈ (progress x).lines, isTimeout line = false) ∧ ((timeouts (a ++ rest)).length ≤ 1 →
        (a.any isTimeout = true ↔ (timeouts (a ++ rest)).length = 1)) := by
  have hspaced := spaced_iff hx hhead
  rw [any_isTimeout_iff hstops]
  constructor
  · intro h
    exact ⟨(hspaced.mp h.spaced).2, h.timeout⟩
  · intro h
    exact ⟨hstops.1.of_append, hspaced.mpr ⟨hp, h.1⟩, h.2⟩

theorem properHeader_modifyLines_iff (info : LoaderInfo) {x y : List Text} (hhead : isBootHead head)
    (hx : ∀ line ∈ x ++ y, isBootHead line = false) :
    ProperHeader y (modifyLines info.bootLine info.loaderPath (x ++ head :: y)) ↔
      WellRead info x head y := by
  obtain ⟨before, rest, heq, hleft⟩ := loop_left_start info (x ++ head :: y)
  rw [modifyLines]
  generalize Scan.loop info.bootLine info.loaderPath (x ++ head :: y).length 0
    { lines := x ++ head :: y } = s at hleft
  cases hb : (reading before).hasBootHead with
  | false =>
    refine iff_of_false (hleft.not_properHeader hb (heq ▸ by simp) hhead) fun h => ?_
    rw [h.hasBootHead hhead hx hleft.stops heq] at hb
    cases hb
  | true =>
    obtain ⟨b, l, a, rfl, hl, hp⟩ := exists_header hb
    have heq : x ++ head :: y = b ++ l :: (a ++ rest) := by simpa using heq
    obtain ⟨rfl, rfl, rfl⟩ := split_unique hx hl heq
    obtain ⟨hx, ha, hrest⟩ : (∀ line ∈ x, isBootHead line = false) ∧ (∀ line ∈ a, isBootHead line = false) ∧
        ∀ line ∈ rest, isBootHead line = false := by
      simpa only [List.forall_mem_append] using hx
    obtain ⟨hlines, -, hpos, htimeout⟩ := progress_header hp hhead a ha
    rw [hasTimeout_progress hx, Bool.false_or] at htimeout
    have htimeouts := timeouts_entered hleft.stops
    have hlen := length_timeouts_retime a rest _ htimeouts
    have hafter : ∀ line ∈ (progress x).lines ++ (a.map retime ++ entered info rest),
        isBootHead line = false := by
      simp only [List.forall_mem_append]
      exact ⟨isBootHead_progress hx, isBootHead_retime ha, isBootHead_entered hrest⟩
    have hlines' : s.lines = (progress x).lines ++ head :: (a.map retime ++ entered info rest) := by
      rw [hleft.lines, hlines, List.append_assoc, List.cons_append]
    rw [wellRead_iff hhead hx hp hleft.stops, Scan.head, hleft.hasBootHead, hb, hleft.hasTimeout, htimeout]
    simp only [Bool.not_true, Bool.false_eq_true, if_false]
    cases hany : a.any isTimeout with
    | true =>
      simp only [Bool.not_true, Bool.false_eq_true, if_false, true_iff]
      rw [hlines', properHeader_iff_of_split hhead hafter]
      refine and_congr_right fun _ => forall_congr' fun _ => ⟨fun h => ?_, timeouts_retime htimeouts hany⟩
      rw [← hlen, h]
      rfl
    | false =>
      simp only [Bool.not_false, if_true, Bool.false_eq_true, false_iff]
      have hput : s.lines.insertIdx (s.bootLoaderPos + 1) timeoutLine =
          (progress x).lines ++ head :: timeoutLine :: (a.map retime ++ entered info rest) := by
        have h := insertIdx_length ((progress x).lines ++ [head]) (a.map retime ++ entered info rest)
          timeoutLine
        rw [hlines', hleft.bootLoaderPos, hpos]
        simpa using h
      have hafter' : ∀ line ∈ (progress x).lines ++ timeoutLine :: (a.map retime ++ entered info rest),
          isBootHead line = false := by
        rw [List.forall_mem_append] at hafter ⊢
        exact ⟨hafter.1, List.forall_mem_cons.mpr ⟨by decide, hafter.2⟩⟩
      rw [hput, properHeader_iff_of_split hhead hafter']
      refine and_congr_right fun _ => forall_congr' fun hle => ?_
      rw [timeouts_cons_isTimeout (by decide), List.cons_eq_cons, ← List.length_eq_zero_iff (l := timeouts _),
        hlen, eq_self_iff_true, true_and]
      constructor
      · intro hzero hone
        omega
      · intro hone
        omega

/-! ## The text -/

theorem Scan.mem_head {s : Scan} (h : line ∈ s.lines) : line ∈ s.head := by
  rw [Scan.head]
  split_ifs
  · exact List.mem_cons_of_mem _ (List.mem_cons_of_mem _ h)
  · rcases insertIdx_eq_or (s.bootLoaderPos + 1) timeoutLine with hput | ⟨a, b, hlines, hput⟩
    · rw [hput]
      exact h
    · rw [hlines, List.mem_append] at h
      rw [hput, List.mem_append]
      exact h.imp_right (List.mem_cons_of_mem _)
  · exact h

/-- The text that `modify_bootini` writes in place of one with one header. -/
theorem modifyBootini_properHeader_iff (info : LoaderInfo) (content : Text) {x y : List Text}
    (hlines : readLines content = some (x ++ head :: y)) (hhead : isBootHead head)
    (hx : ∀ line ∈ x ++ y, isBootHead line = false) :
    ∃ written, modifyBootini info content = some (Text.unlines written) ∧
      ('\n' ∉ info.distroName → (Text.unlines written).lines = written) ∧
      (ProperHeader y written ↔ WellRead info x head y) := by
  refine ⟨modifyLines info.bootLine info.loaderPath (x ++ head :: y),
    modifyBootini_of_readLines info hlines, ?_, properHeader_modifyLines_iff info hhead hx⟩
  intro hname
  have hcontent : content ≠ [] := by
    rintro rfl
    cases hlines
  obtain ⟨lines, hread, hn, -⟩ := readLines_eq hcontent
  obtain rfl := Option.some.inj (hread.symm.trans hlines)
  refine Text.lines_unlines ?_ (List.ne_nil_of_mem (a := head) ?_)
  · exact forall_mem_modifyLines (P := fun l => '\n' ∉ l) (mt info.newline_mem_bootLine.mp hname)
      (by decide) (by decide) hn
  · obtain ⟨before, rest, heq, hleft⟩ := loop_left_start info (x ++ head :: y)
    exact Scan.mem_head (hleft.mem (heq ▸ by simp) (isHead_of_isBootHead hhead))

private def headInfo : LoaderInfo := { runTask := none, flag := true, distroName := "StartOS".toList }

/-- The header of Windows XP and its timeout. -/
theorem modifyBootini_properHeader_xp :
    ∃ out, modifyBootini headInfo xpText = some out ∧
      ProperHeader ["timeout=30".toList, "[operating systems]".toList, "C:\\=\"XP\"".toList, []] out.lines := by
  have hread : readLines xpText = some ([] ++ "[boot loader]".toList :: ["timeout=30".toList,
      "[operating systems]".toList, "C:\\=\"XP\"".toList, []]) := by decide +kernel
  obtain ⟨written, hout, hwritten, hiff⟩ :=
    modifyBootini_properHeader_iff headInfo xpText hread (by decide) (by decide)
  refine ⟨_, hout, ?_⟩
  rw [hwritten (by decide), hiff]
  refine ⟨.nil, ?_, fun _ => iff_of_true ?_ (by decide)⟩
  · rintro u a b v heq
    have hlength := congrArg List.length heq
    simp only [List.nil_append, List.length_append, List.length_cons, List.length_nil] at hlength
    omega
  · exact ⟨[], _, _, rfl, by decide, RunsThrough.nil.append (by decide)⟩

theorem ProperHeader.countP {y out : List Text} (h : ProperHeader y out) : out.countP isBootHead = 1 := by
  obtain ⟨x, head, y', rfl, hhead, hx, -⟩ := h
  have hzero : (x ++ y').countP isBootHead = 0 :=
    List.countP_eq_zero.mpr fun line hline => by simp [hx line hline]
  rw [List.countP_append] at hzero
  rw [List.countP_append, List.countP_cons_of_pos hhead]
  omega

/-- The timeout line before the header is removed while the lines are counted, so that the header is passed
over and a second one is put in. -/
theorem second_header : ¬ ∀ (info : LoaderInfo) (content : Text) (x y : List Text) (head : Text),
    readLines content = some (x ++ head :: y) → isBootHead head →
      (∀ line ∈ x ++ y, isBootHead line = false) → '\n' ∉ info.distroName →
        ∃ out, modifyBootini info content = some out ∧ ProperHeader y out.lines := by
  intro h
  obtain ⟨out, hout, hproper⟩ := h headInfo
    "timeout=30\n[boot loader]\n[operating systems]\nC:\\=\"XP\"\n".toList
    ["timeout=30".toList] ["[operating systems]".toList, "C:\\=\"XP\"".toList, []] "[boot loader]".toList
    (by decide +kernel) (by decide) (by decide) (by decide)
  have hmodify : modifyBootini headInfo
      "timeout=30\n[boot loader]\n[operating systems]\nC:\\=\"XP\"\n".toList =
        some ("[boot loader]\ntimeout = 10\n[boot loader]\n[operating systems]\nC:\\=\"XP\"\n".toList ++
          "C:\\yldr.mbr = \"StartOS\"\n".toList) := by decide +kernel
  obtain rfl := Option.some.inj (hmodify.symm.trans hout)
  have hcount := hproper.countP
  revert hcount
  decide +kernel

end Swinst.BootIni
