import Swinst.BootIni.Entry

/-! The loop of `modify_bootini` as a recursion over the lines of the text. The loop counts places in
a list that it changes; here one line of the text after the other is read or passed over. -/

namespace Swinst.BootIni

theorem isHead_eq_false_of_isTimeout {line : Text} (h : isTimeout line) : isHead line = false := by
  cases hh : isHead line with
  | false => rfl
  | true =>
    rw [not_isTimeout_of_isHead hh] at h
    cases h

/-! ## What reading a line does -/

theorem Reading.passOver_next (r : Reading) (line : Text) :
    (r.next line).passOver = (!r.passOver && isTimeout line && !r.hasBootHead) := by
  unfold Reading.next
  split_ifs <;> simp_all [not_isTimeout_of_isHead, isHead_of_isOsHead, isHead_of_isBootHead]

theorem Reading.hasBootHead_next (r : Reading) (line : Text) :
    (r.next line).hasBootHead = (r.hasBootHead || !r.passOver && isBootHead line) := by
  unfold Reading.next
  split_ifs <;> simp_all [isBootHead_eq_false_of_isOsHead]

theorem Reading.isSection_next (r : Reading) (line : Text) :
    (r.next line).isSection =
      if !r.passOver && isHead line && !isBootHead line then isOsHead line else r.isSection := by
  unfold Reading.next
  split_ifs <;> simp_all [isHead_of_isOsHead, isBootHead_eq_false_of_isOsHead]

/-! ## The lines behind the loop -/

/-- What the loop has made of the lines before it. -/
structure Progress where
  lines : List Text := []
  reading : Reading := {}
  bootLoaderPos : Nat := 0
  hasTimeout : Bool := false

/-- A line that does not end the loop. -/
def Progress.next (p : Progress) (line : Text) : Progress where
  lines :=
    if p.reading.passOver || !isTimeout line then p.lines ++ [line]
    else if p.reading.hasBootHead then p.lines ++ [timeoutLine]
    else (p.lines ++ [line]).erase line
  reading := p.reading.next line
  bootLoaderPos := if !p.reading.passOver && isBootHead line then p.lines.length else p.bootLoaderPos
  hasTimeout := p.hasTimeout || !p.reading.passOver && isTimeout line && p.reading.hasBootHead

def progress (before : List Text) : Progress := before.foldl .next {}

theorem progress_append (before : List Text) (line : Text) :
    progress (before ++ [line]) = (progress before).next line := by simp [progress]

theorem reading_progress (before : List Text) : (progress before).reading = reading before := by
  induction before using List.reverseRecOn with
  | nil => rfl
  | append_singleton before line ih => rw [progress_append, reading_append, Progress.next, ih]

/-- Where the loop stands, with the lines `before` behind it. -/
structure Scan.Stands (info : LoaderInfo) (before ahead : List Text) (i : Nat) (s : Scan) : Prop where
  lines : s.lines = (progress before).lines ++ ahead
  index : i = (progress before).lines.length + (if (reading before).passOver then 1 else 0)
  hasBootHead : s.hasBootHead = (reading before).hasBootHead
  isSection : s.isSection = (reading before).isSection
  bootLoaderPos : s.bootLoaderPos = (progress before).bootLoaderPos
  hasTimeout : s.hasTimeout = (progress before).hasTimeout
  runs : RunsThrough info.loaderPath before

/-- The lines from the one on that ends the loop. -/
def entered (info : LoaderInfo) : List Text → List Text
  | [] => []
  | line :: after => info.bootLine :: if names info.loaderPath line then after else line :: after

/-- The loop comes to the end of the text or ends at the first of the lines `rest`. -/
def Stops (path : Text) (before rest : List Text) : Prop :=
  RunsThrough path before ∧ ∀ line after, rest = line :: after → endsAt path before line

/-- What the loop leaves. -/
structure Scan.Left (info : LoaderInfo) (before rest : List Text) (s : Scan) : Prop where
  stops : Stops info.loaderPath before rest
  lines : s.lines = (progress before).lines ++ entered info rest
  hasBootHead : s.hasBootHead = (reading before).hasBootHead
  bootLoaderPos : s.bootLoaderPos = (progress before).bootLoaderPos
  hasTimeout : s.hasTimeout = (progress before).hasTimeout

/-- A line that is passed over takes no turn. -/
theorem Scan.Stands.passOver {info : LoaderInfo} {s : Scan} (h : s.Stands info before (line :: ahead) i)
    (hp : (reading before).passOver = true) : s.Stands info (before ++ [line]) ahead i := by
  have hreading : reading (before ++ [line]) = { reading before with passOver := false } := by
    rw [reading_append, Reading.next, if_pos hp]
  have hprogress : progress (before ++ [line]) =
      { progress before with
        lines := (progress before).lines ++ [line]
        reading := { reading before with passOver := false } } := by
    rw [progress_append, Progress.next, reading_progress, ← reading_append, hreading, hp]
    simp
  constructor
  · rw [hprogress, h.lines, List.append_assoc]
    rfl
  · rw [hprogress, h.index, hreading, if_pos hp, List.length_append]
    rfl
  · rw [h.hasBootHead, hreading]
  · rw [h.isSection, hreading]
  · rw [h.bootLoaderPos, hprogress]
  · rw [h.hasTimeout, hprogress]
  · exact h.runs.append (by simp [endsAt, hp])

/-! ## The turns -/

section
variable {info : LoaderInfo} {s s' : Scan} (h : s.Stands info before (line :: ahead) i)
  (hp : (reading before).passOver = false)
include h hp

theorem Scan.Stands.index_eq : i = (progress before).lines.length := by
  rw [h.index, hp]
  rfl

theorem Scan.Stands.reading_eq :
    reading before = { passOver := false, hasBootHead := s.hasBootHead, isSection := s.isSection } := by
  rw [h.hasBootHead, h.isSection, ← hp]

/-- A line that stays as it is. -/
theorem Scan.Stands.keep (ht : isTimeout line = false) (he : endsAt info.loaderPath before line = false)
    (hlines : s'.lines = s.lines) (htimeout : s'.hasTimeout = s.hasTimeout)
    (hpos : s'.bootLoaderPos = if isBootHead line then i else s.bootLoaderPos)
    (hr : (reading before).next line =
      { passOver := false, hasBootHead := s'.hasBootHead, isSection := s'.isSection }) :
    s'.Stands info (before ++ [line]) ahead (i + 1) := by
  have hreading : reading (before ++ [line]) =
      { passOver := false, hasBootHead := s'.hasBootHead, isSection := s'.isSection } :=
    (reading_append ..).trans hr
  have hprogress : progress (before ++ [line]) =
      { lines := (progress before).lines ++ [line]
        reading := (reading before).next line
        bootLoaderPos := if isBootHead line then i else (progress before).bootLoaderPos
        hasTimeout := (progress before).hasTimeout } := by
    rw [progress_append, Progress.next, reading_progress, hp, ht, h.index_eq hp]
    simp
  constructor
  · rw [hlines, h.lines, hprogress, List.append_assoc]
    rfl
  · rw [hprogress, hreading, h.index_eq hp, List.length_append]
    rfl
  · rw [hreading]
  · rw [hreading]
  · rw [hpos, hprogress, h.bootLoaderPos]
  · rw [htimeout, hprogress, h.hasTimeout]
  · exact h.runs.append he

/-- A timeout line before the first header that is read. -/
theorem Scan.Stands.remove (ht : isTimeout line) (hh : isHead line = false) (hb : s.hasBootHead = false) :
    ({ s with lines := s.lines.erase line } : Scan).Stands info (before ++ [line]) ahead (i + 1) := by
  have ho := isOsHead_eq_false_of_isHead hh
  have hbh := isBootHead_eq_false_of_isHead hh
  have hb' : (reading before).hasBootHead = false := h.hasBootHead.symm.trans hb
  have hreading : reading (before ++ [line]) = { reading before with passOver := true } := by
    rw [reading_append]
    simp [Reading.next, hp, ho, hbh, hh, ht, hb']
  have hprogress : progress (before ++ [line]) =
      { progress before with
        lines := ((progress before).lines ++ [line]).erase line
        reading := { reading before with passOver := true } } := by
    rw [progress_append, Progress.next, reading_progress, ← reading_append, hreading]
    simp [hp, ht, hb', hbh]
  have hmem : line ∈ (progress before).lines ++ [line] := List.mem_append_right _ (List.mem_singleton.mpr rfl)
  constructor
  · have hsplit : s.lines = ((progress before).lines ++ [line]) ++ ahead := by
      rw [h.lines, List.append_assoc]
      rfl
    rw [hprogress]
    dsimp only
    rw [hsplit, List.erase_append_left _ hmem]
  · rw [hprogress, hreading]
    dsimp only
    rw [List.length_erase_of_mem hmem, h.index_eq hp, List.length_append]
    rfl
  · rw [hreading]
    exact h.hasBootHead
  · rw [hreading]
    exact h.isSection
  · rw [hprogress]
    exact h.bootLoaderPos
  · rw [hprogress]
    exact h.hasTimeout
  · exact h.runs.append (endsAt_isTimeout ht)

/-- A timeout line after a header that was read. -/
theorem Scan.Stands.rewrite (ht : isTimeout line) (hh : isHead line = false) (hb : s.hasBootHead = true) :
    ({ s with lines := s.lines.set i timeoutLine, hasTimeout := true } : Scan).Stands info
      (before ++ [line]) ahead (i + 1) := by
  have ho := isOsHead_eq_false_of_isHead hh
  have hbh := isBootHead_eq_false_of_isHead hh
  have hb' : (reading before).hasBootHead = true := h.hasBootHead.symm.trans hb
  have hreading : reading (before ++ [line]) = reading before := by
    rw [reading_append, h.reading_eq hp]
    simp [Reading.next, ho, hbh, hh, ht, hb]
  have hprogress : progress (before ++ [line]) =
      { progress before with
        lines := (progress before).lines ++ [timeoutLine]
        reading := reading before
        hasTimeout := true } := by
    rw [progress_append, Progress.next, reading_progress, ← reading_append, hreading]
    simp [hp, ht, hb', hbh]
  constructor
  · rw [hprogress]
    dsimp only
    rw [h.lines, h.index_eq hp, List.append_assoc]
    simp
  · rw [hprogress, hreading, h.index_eq hp, hp]
    simp
  · rw [hreading]
    exact h.hasBootHead
  · rw [hreading]
    exact h.isSection
  · rw [hprogress]
    exact h.bootLoaderPos
  · rw [hprogress]
  · exact h.runs.append (endsAt_isTimeout ht)

omit hp in
/-- A line that ends the loop. -/
theorem Scan.Stands.left (he : endsAt info.loaderPath before line)
    (hlines : s'.lines = (progress before).lines ++ entered info (line :: ahead))
    (hs : s' = { s with lines := s'.lines }) : s'.Left info before (line :: ahead) where
  stops := by
    refine ⟨h.runs, ?_⟩
    intro l after hl
    cases hl
    exact he
  lines := hlines
  hasBootHead := by rw [hs]; exact h.hasBootHead
  bootLoaderPos := by rw [hs]; exact h.bootLoaderPos
  hasTimeout := by rw [hs]; exact h.hasTimeout

/-- What a turn does. -/
theorem Scan.Stands.turn :
    (∃ s', s.turn info.bootLine info.loaderPath i line = .next s' ∧
        s'.Stands info (before ++ [line]) ahead (i + 1)) ∨
      ∃ s', s.turn info.bootLine info.loaderPath i line = .done s' ∧ s'.Left info before (line :: ahead) := by
  have hi := h.index_eq hp
  have hr := h.reading_eq hp
  unfold Scan.turn
  split
  · next ho =>
    have hh := isHead_of_isOsHead ho
    refine .inl ⟨_, rfl, h.keep hp (not_isTimeout_of_isHead hh) (endsAt_isHead hh) rfl rfl ?_ ?_⟩
    · simp [isBootHead_eq_false_of_isOsHead ho]
    · simp [hr, Reading.next, ho]
  split
  · next ho hb =>
    have hh := isHead_of_isBootHead hb
    refine .inl ⟨_, rfl, h.keep hp (not_isTimeout_of_isHead hh) (endsAt_isHead hh) rfl rfl ?_ ?_⟩
    · simp [hb]
    · simp [hr, Reading.next, ho, hb]
  split
  · next ho hb hh =>
    refine .inl ⟨_, rfl, h.keep hp (not_isTimeout_of_isHead hh) (endsAt_isHead hh) rfl rfl ?_ ?_⟩
    · simp [hb]
    · simp [hr, Reading.next, ho, hb, hh]
  split
  · next ho hb hh ht =>
    have hh : isHead line = false := by simpa using hh
    split
    · next hbh => exact .inl ⟨_, rfl, h.remove hp ht hh (by simpa using hbh)⟩
    · next hbh => exact .inl ⟨_, rfl, h.rewrite hp ht hh (by simpa using hbh)⟩
  split
  · next hn =>
    obtain ⟨hsec, hn⟩ := Bool.and_eq_true_iff.mp hn
    refine .inr ⟨_, rfl, h.left (by simp [endsAt, hr, hsec, hn]) ?_ rfl⟩
    simp [entered, hn, h.lines, hi]
  split
  · next hn hb =>
    obtain ⟨hsec, hb⟩ := Bool.and_eq_true_iff.mp hb
    have hn : names info.loaderPath line = false := by simpa [hsec] using hn
    refine .inr ⟨_, rfl, h.left (by simp [endsAt, hr, hsec, hb]) ?_ rfl⟩
    simp [entered, hn, h.lines, hi, insertIdx_length]
  · next ho hb hh ht hn hbl =>
    refine .inl ⟨_, rfl, h.keep hp (by simpa using ht) ?_ rfl rfl ?_ ?_⟩
    · simp_all [endsAt]
    · simp [hb]
    · simp [hr, Reading.next, ho, hb, hh, ht]

end

/-- The loop has read the lines up to the one where it ends. -/
theorem loop_left {info : LoaderInfo} {s : Scan} {fuel : Nat} (h : s.Stands info before ahead i)
    (hf : ahead.length ≤ fuel) :
    ∃ behind rest, before ++ ahead = behind ++ rest ∧
      (Scan.loop info.bootLine info.loaderPath fuel i s).Left info behind rest := by
  induction ahead generalizing before s i fuel with
  | nil =>
    have hlength : s.lines.length ≤ i := by
      rw [h.lines, h.index, List.append_nil]
      omega
    rw [loop_of_length_le hlength]
    refine ⟨before, [], rfl, ⟨h.runs, fun _ _ h => by cases h⟩, h.lines, h.hasBootHead, h.bootLoaderPos,
      h.hasTimeout⟩
  | cons line ahead ih =>
    have hsplit : before ++ line :: ahead = before ++ [line] ++ ahead := by simp
    cases hp : (reading before).passOver with
    | true =>
      rw [hsplit]
      exact ih (h.passOver hp) (Nat.le_of_succ_le hf)
    | false =>
      have hi : s.lines[i]? = some line := by rw [h.lines, h.index_eq hp]; simp
      obtain ⟨fuel, rfl⟩ : ∃ n, fuel = n + 1 := ⟨fuel - 1, by simp at hf; omega⟩
      simp only [Scan.loop, hi]
      rcases h.turn hp with ⟨s', hturn, h'⟩ | ⟨s', hturn, h'⟩
      · simp only [hturn]
        rw [hsplit]
        exact ih h' (Nat.le_of_succ_le_succ hf)
      · simp only [hturn]
        exact ⟨before, line :: ahead, rfl, h'⟩

theorem loop_left_start (info : LoaderInfo) (lines : List Text) :
    ∃ before rest, lines = before ++ rest ∧
      (Scan.loop info.bootLine info.loaderPath lines.length 0 { lines }).Left info before rest :=
  loop_left ⟨rfl, rfl, rfl, rfl, rfl, rfl, .nil⟩ (Nat.le_refl _)

/-- There is one place where the loop can end. -/
theorem Stops.unique (h : Stops path before rest) (h' : Stops path before' rest')
    (heq : before ++ rest = before' ++ rest') : before = before' ∧ rest = rest' := by
  rcases List.append_eq_append_iff.mp heq with ⟨l, rfl, rfl⟩ | ⟨l, rfl, rfl⟩
  · cases l with
    | nil => simp
    | cons x l =>
      have hends := h.2 x (l ++ rest') rfl
      rw [h'.1 before x l rfl] at hends
      cases hends
  · cases l with
    | nil => simp
    | cons x l =>
      have hends := h'.2 x (l ++ rest) rfl
      rw [h.1 before' x l rfl] at hends
      cases hends

end Swinst.BootIni
