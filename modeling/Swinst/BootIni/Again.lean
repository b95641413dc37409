import Swinst.BootIni.Header

/-! A second run of `modify_bootini` on the text that the first has written. -/

namespace Swinst.BootIni

/-! ## Lines that the loop leaves as they are -/

/-- The loop reads each of the lines, and changes none of them. -/
inductive Settled (info : LoaderInfo) : List Text → Prop
  | nil : Settled info []
  | plain : Settled info lines → isTimeout line = false → endsAt info.loaderPath lines line = false →
      Settled info (lines ++ [line])
  | timeout : Settled info lines → (reading lines).hasBootHead → Settled info (lines ++ [timeoutLine])

namespace Settled

theorem runsThrough {info : LoaderInfo} (h : Settled info lines) : RunsThrough info.loaderPath lines := by
  induction h with
  | nil => exact .nil
  | plain _ _ he ih => exact ih.append he
  | timeout _ _ ih => exact ih.append (endsAt_isTimeout (by decide))

theorem passOver {info : LoaderInfo} (h : Settled info lines) : (reading lines).passOver = false := by
  induction h with
  | nil => rfl
  | plain _ ht _ ih =>
    rw [reading_append, Reading.passOver_next, ht, Bool.and_false, Bool.false_and]
  | timeout _ hb ih => rw [reading_append, Reading.passOver_next, hb, Bool.not_true, Bool.and_false]

theorem progress_eq {info : LoaderInfo} (h : Settled info lines) :
    (progress lines).lines = lines ∧ (progress lines).hasTimeout = lines.any isTimeout := by
  induction h with
  | nil => exact ⟨rfl, rfl⟩
  | plain h ht _ ih =>
    rw [progress_append, Progress.next, reading_progress, h.passOver]
    simp [ht, ih]
  | timeout h hb ih =>
    have ht : isTimeout timeoutLine := by decide
    rw [progress_append, Progress.next, reading_progress, h.passOver]
    simp [ht, hb, ih]

end Settled

/-- Where the loop has read the header and a timeout line behind it, it only enters the boot line. -/
theorem Settled.modifyLines_eq {info : LoaderInfo} (h : Settled info before)
    (hb : (reading before).hasBootHead) (ht : before.any isTimeout)
    (hrest : ∀ line after, rest = line :: after → (reading before).isSection ∧ names info.loaderPath line) :
    modifyLines info.bootLine info.loaderPath (before ++ rest) = before ++ entered info rest := by
  have hstops : Stops info.loaderPath before rest := by
    refine ⟨h.runsThrough, fun line after heq => ?_⟩
    obtain ⟨hsec, hnames⟩ := hrest line after heq
    rw [endsAt, h.passOver, hsec, hnames]
    rfl
  obtain ⟨before', rest', heq, hleft⟩ := loop_left_start info (before ++ rest)
  obtain ⟨rfl, rfl⟩ := hstops.unique hleft.stops heq
  obtain ⟨hlines, htimeout⟩ := h.progress_eq
  rw [modifyLines, Scan.head, hleft.hasBootHead, hb, hleft.hasTimeout, htimeout, ht, hleft.lines, hlines]
  rfl

/-! ## The lines that the first run passes over -/

/-- A line that would do nothing if it were read. -/
structure Idle (path : Text) (r : Reading) (line : Text) : Prop where
  timeout : isTimeout line = false
  isSection : ({ r with passOver := false }.next line).isSection = r.isSection
  ends : (r.isSection && (names path line || isBlank line)) = false

/-- The lines that the loop passes over on its way are idle. -/
def Heeded (path : Text) (lines : List Text) : Prop :=
  ∀ before line after, lines = before ++ line :: after → RunsThrough path before →
    (reading before).passOver → Idle path (reading before) line

/-- The lines `lines` are what the first run makes of `before`, and the second run leaves them. -/
structure Settles (info : LoaderInfo) (before lines : List Text) : Prop where
  settled : Settled info lines
  isSection : (reading lines).isSection = (reading before).isSection
  hasBootHead : (reading before).hasBootHead → (reading lines).hasBootHead

theorem Reading.isSection_next_timeout (r : Reading) {line : Text} (h : isTimeout line) :
    (r.next line).isSection = r.isSection := by
  rw [Reading.isSection_next, isHead_eq_false_of_isTimeout h, Bool.and_false, Bool.false_and,
    if_neg Bool.false_ne_true]

/-- A header that was read stays read. -/
theorem Reading.hasBootHead_next_of (r : Reading) (line : Text) (h : r.hasBootHead) :
    (r.next line).hasBootHead := by
  rw [Reading.hasBootHead_next, h, Bool.true_or]

namespace Settles
variable {info : LoaderInfo} {before lines : List Text} {line : Text} (h : Settles info before lines)
include h

/-- A line that is read and is not a timeout -/
theorem keep (hp : (reading before).passOver = false) (ht : isTimeout line = false)
    (he : endsAt info.loaderPath before line = false) : Settles info (before ++ [line]) (lines ++ [line]) where
  settled := by
    refine h.settled.plain ht ?_
    rw [endsAt, hp] at he
    rw [endsAt, h.settled.passOver, h.isSection]
    exact he
  isSection := by
    rw [reading_append, reading_append]
    rw [Reading.isSection_next, Reading.isSection_next, h.settled.passOver, hp, h.isSection]
  hasBootHead := by
    intro hb
    rw [reading_append, Reading.hasBootHead_next, hp, Bool.or_eq_true] at hb
    rw [reading_append, Reading.hasBootHead_next, h.settled.passOver, Bool.or_eq_true]
    exact hb.imp_left h.hasBootHead

/-- A line that is passed over -/
theorem idle (hp : (reading before).passOver = true) (hi : Idle info.loaderPath (reading before) line) :
    Settles info (before ++ [line]) (lines ++ [line]) where
  settled := by
    refine h.settled.plain hi.timeout ?_
    rw [endsAt, h.isSection, Bool.and_assoc, hi.ends, Bool.and_false]
  isSection := by
    have hi := hi.isSection
    rw [Reading.isSection_next] at hi
    rw [reading_append, reading_append, Reading.isSection_next, Reading.isSection_next, h.settled.passOver,
      h.isSection, hp]
    exact hi
  hasBootHead := by
    intro hb
    rw [reading_append, Reading.next, if_pos hp] at hb
    rw [reading_append]
    exact Reading.hasBootHead_next_of _ line (h.hasBootHead hb)

/-- A timeout line that is removed -/
theorem remove (ht : isTimeout line) (hb : (reading before).hasBootHead = false) :
    Settles info (before ++ [line]) lines where
  settled := h.settled
  isSection := by rw [reading_append, Reading.isSection_next_timeout _ ht, h.isSection]
  hasBootHead := by
    intro hb'
    have hline : isBootHead line = false := isBootHead_eq_false_of_isHead (isHead_eq_false_of_isTimeout ht)
    rw [reading_append, Reading.hasBootHead_next, hb, hline, Bool.and_false] at hb'
    cases hb'

/-- A timeout line that is rewritten -/
theorem rewrite (ht : isTimeout line) (hb : (reading before).hasBootHead) :
    Settles info (before ++ [line]) (lines ++ [timeoutLine]) where
  settled := h.settled.timeout (h.hasBootHead hb)
  isSection := by
    rw [reading_append, reading_append, Reading.isSection_next_timeout _ ht,
      Reading.isSection_next_timeout _ (by decide)]
    exact h.isSection
  hasBootHead := by
    intro _
    rw [reading_append]
    exact Reading.hasBootHead_next_of _ _ (h.hasBootHead hb)

/-- A timeout line that is put in behind a header -/
theorem put (hb : (reading lines).hasBootHead) : Settles info before (lines ++ [timeoutLine]) where
  settled := h.settled.timeout hb
  isSection := by
    rw [reading_append, Reading.isSection_next_timeout _ (by decide)]
    exact h.isSection
  hasBootHead := by
    intro _
    rw [reading_append]
    exact Reading.hasBootHead_next_of _ _ hb

end Settles

theorem Heeded.of_append (h : Heeded path (a ++ b)) : Heeded path a := by
  rintro before line after rfl
  exact h before line (after ++ b) (by simp)

/-! ## The two runs -/

theorem settles_progress {info : LoaderInfo} {a before : List Text} (ha : Settles info [] a)
    (hruns : RunsThrough info.loaderPath before) (hheeded : Heeded info.loaderPath before) :
    Settles info before (a ++ (progress before).lines) ∧
      ((reading before).hasBootHead = false → ∀ l ∈ (progress before).lines, isTimeout l = false) := by
  induction before using List.reverseRecOn with
  | nil =>
    refine ⟨?_, fun _ _ h => by cases h⟩
    rw [progress, List.foldl_nil, List.append_nil]
    exact ha
  | append_singleton before line ih =>
    obtain ⟨h, hnone⟩ := ih hruns.of_append hheeded.of_append
    have hends := hruns before line [] rfl
    have hbefore (hb : (reading (before ++ [line])).hasBootHead = false) :
        (reading before).hasBootHead = false := by
      cases hb' : (reading before).hasBootHead with
      | false => rfl
      | true =>
        rw [reading_append, Reading.hasBootHead_next_of _ _ hb'] at hb
        cases hb
    have happend (ht : isTimeout line = false) (hb : (reading (before ++ [line])).hasBootHead = false) :
        ∀ l ∈ (progress before).lines ++ [line], isTimeout l = false := by
      intro l hl
      rcases List.mem_append.mp hl with hl | hl
      · exact hnone (hbefore hb) l hl
      · rwa [List.mem_singleton.mp hl]
    rw [progress_append, Progress.next, reading_progress]
    dsimp only
    cases hp : (reading before).passOver with
    | true =>
      have hi := hheeded before line [] rfl hruns.of_append hp
      rw [Bool.true_or, if_pos rfl, ← List.append_assoc]
      exact ⟨h.idle hp hi, happend hi.timeout⟩
    | false =>
      rw [Bool.false_or]
      cases ht : isTimeout line with
      | false =>
        rw [Bool.not_false, if_pos rfl, ← List.append_assoc]
        exact ⟨h.keep hp ht hends, happend ht⟩
      | true =>
        rw [Bool.not_true, if_neg Bool.false_ne_true]
        cases hb : (reading before).hasBootHead with
        | true =>
          rw [if_pos rfl, ← List.append_assoc]
          refine ⟨h.rewrite ht hb, fun hb' => ?_⟩
          rw [hbefore hb'] at hb
          cases hb
        | false =>
          have hmem : line ∉ (progress before).lines := by
            intro hmem
            rw [hnone hb line hmem] at ht
            cases ht
          rw [if_neg Bool.false_ne_true, List.erase_append_right _ hmem, List.erase_cons_head, List.append_nil]
          exact ⟨h.remove ht hb, fun _ => hnone hb⟩

/-- The line at which a header has been read, or a line behind it -/
theorem header_or_behind {before : List Text} (hb : (reading (before ++ [line])).hasBootHead) :
    (reading before).passOver = false ∧ (isBootHead line = false → (reading before).hasBootHead) := by
  have hpass : (reading before).passOver = false := by
    cases hp : (reading before).passOver with
    | false => rfl
    | true =>
      rw [reading_append, Reading.next, if_pos hp] at hb
      rw [passOver_of_hasBootHead hb] at hp
      cases hp
  refine ⟨hpass, fun hline => ?_⟩
  rwa [reading_append, Reading.hasBootHead_next, hline, Bool.and_false, Bool.or_false] at hb

/-- What a line does to the text when a header was read, or when it is one -/
theorem progress_behind {before : List Text} (hb : (reading (before ++ [line])).hasBootHead) :
    (isBootHead line = true ∧ (progress (before ++ [line])).lines = (progress before).lines ++ [line] ∧
      (progress (before ++ [line])).bootLoaderPos = (progress before).lines.length) ∨
    ((reading before).hasBootHead ∧
      (progress (before ++ [line])).lines =
        (progress before).lines ++ [if isTimeout line then timeoutLine else line] ∧
      (progress (before ++ [line])).bootLoaderPos = (progress before).bootLoaderPos) := by
  obtain ⟨hpass, hbehind⟩ := header_or_behind hb
  rw [progress_append, Progress.next, reading_progress, hpass]
  dsimp only
  rw [Bool.false_or, Bool.not_false, Bool.true_and]
  cases hbh : isBootHead line with
  | true =>
    have ht : isTimeout line = false := not_isTimeout_of_isHead (isHead_of_isBootHead hbh)
    exact .inl ⟨rfl, by simp [ht], by simp⟩
  | false =>
    have hb' := hbehind hbh
    refine .inr ⟨hb', ?_, by simp⟩
    cases isTimeout line <;> simp [hb']

/-- The timeout line that is put in behind the last header -/
theorem settles_put {info : LoaderInfo} (hruns : RunsThrough info.loaderPath before)
    (hheeded : Heeded info.loaderPath before) (hb : (reading before).hasBootHead) :
    ∃ u v, (progress before).lines = u ++ v ∧ (progress before).bootLoaderPos + 1 = u.length ∧
      Settles info before (u ++ timeoutLine :: v) := by
  induction before using List.reverseRecOn with
  | nil => cases hb
  | append_singleton before line ih =>
    have hends := hruns before line [] rfl
    have hpass := (header_or_behind hb).1
    rcases progress_behind hb with ⟨hbh, hlines, hpos⟩ | ⟨hb', hlines, hpos⟩
    · have ht : isTimeout line = false := not_isTimeout_of_isHead (isHead_of_isBootHead hbh)
      obtain ⟨h, -⟩ := settles_progress (a := []) ⟨.nil, rfl, id⟩ hruns.of_append hheeded.of_append
      have hkeep := h.keep hpass ht hends
      exact ⟨(progress before).lines ++ [line], [], by simp [hlines], by simp [hpos],
        hkeep.put (hkeep.hasBootHead hb)⟩
    · obtain ⟨u, v, hsplit, hlen, h⟩ := ih hruns.of_append hheeded.of_append hb'
      refine ⟨u, v ++ [if isTimeout line then timeoutLine else line], by simp [hlines, hsplit], by rw [hpos, hlen], ?_⟩
      cases ht : isTimeout line with
      | false => simpa using h.keep hpass ht hends
      | true => simpa using h.rewrite ht hb'

theorem hasBootHead_append {a : List Text} (h : (reading a).hasBootHead) (b : List Text) :
    (reading (a ++ b)).hasBootHead := by
  induction b using List.reverseRecOn with
  | nil => rwa [List.append_nil]
  | append_singleton b line ih =>
    rw [← List.append_assoc, reading_append]
    exact Reading.hasBootHead_next_of _ line ih

/-- A timeout line is rewritten behind a header that was read. -/
theorem any_isTimeout_progress {before : List Text} (h : (progress before).hasTimeout) :
    (reading before).hasBootHead ∧ (progress before).lines.any isTimeout := by
  induction before using List.reverseRecOn with
  | nil => cases h
  | append_singleton before line ih =>
    rw [progress_append, Progress.next, reading_progress, Bool.or_eq_true] at h
    have hb : (reading before).hasBootHead := by
      rcases h with h | h
      · exact (ih h).1
      · exact (Bool.and_eq_true_iff.mp h).2
    have hp := passOver_of_hasBootHead hb
    rw [reading_append, progress_append, Progress.next, reading_progress, hp, hb]
    refine ⟨Reading.hasBootHead_next_of _ line hb, ?_⟩
    rcases h with h | h
    · cases ht : isTimeout line <;> simp [(ih h).2]
    · have ht : isTimeout line := by simpa [hp, hb] using h
      have htimeout : isTimeout timeoutLine := by decide
      simp [ht, htimeout]

theorem progress_subset (before : List Text) : (progress before).lines ⊆ timeoutLine :: before := by
  induction before using List.reverseRecOn with
  | nil => exact List.nil_subset _
  | append_singleton before line ih =>
    have hlines : (progress before).lines ++ [line] ⊆ timeoutLine :: (before ++ [line]) :=
      List.append_subset.mpr ⟨fun l hl => List.cons_subset_cons _ (List.subset_append_left ..) (ih hl), by simp⟩
    rw [progress_append, Progress.next]
    dsimp only
    split_ifs
    · exact hlines
    · exact List.append_subset.mpr ⟨(List.append_subset.mp hlines).1, by simp⟩
    · exact fun l hl => hlines (List.mem_of_mem_erase hl)

/-- The lines that the first run makes. -/
theorem modifyLines_settles (info : LoaderInfo) {lines : List Text} (h : Heeded info.loaderPath lines) :
    ∃ before rest a, lines = before ++ rest ∧ Stops info.loaderPath before rest ∧
      modifyLines info.bootLine info.loaderPath lines = a ++ entered info rest ∧ Settles info before a ∧
      (reading a).hasBootHead ∧ a.any isTimeout ∧ a ⊆ bootHead :: timeoutLine :: before := by
  obtain ⟨before, rest, rfl, hleft⟩ := loop_left_start info lines
  have hheeded := h.of_append
  have htimeout : isTimeout timeoutLine := by decide
  have hsubset : (progress before).lines ⊆ bootHead :: timeoutLine :: before :=
    List.subset_cons_of_subset _ (progress_subset before)
  rw [modifyLines, Scan.head, hleft.hasBootHead, hleft.hasTimeout, hleft.bootLoaderPos, hleft.lines]
  cases hb : (reading before).hasBootHead with
  | false =>
    have hplain : Settled info [bootHead] :=
      Settled.nil.plain (by decide) (endsAt_isHead (isHead_of_isBootHead (by decide)))
    obtain ⟨ha, -⟩ := settles_progress (a := [bootHead, timeoutLine])
      ⟨hplain.timeout (by decide), by decide, by decide⟩ hleft.stops.1 hheeded
    exact ⟨before, rest, _, rfl, hleft.stops, rfl, ha, hasBootHead_append (by decide) _, by simp [htimeout],
      List.append_subset.mpr ⟨by simp, hsubset⟩⟩
  | true =>
    cases ht : (progress before).hasTimeout with
    | true =>
      obtain ⟨ha, -⟩ := settles_progress (a := []) ⟨.nil, rfl, id⟩ hleft.stops.1 hheeded
      exact ⟨before, rest, _, rfl, hleft.stops, rfl, ha, ha.hasBootHead hb, (any_isTimeout_progress ht).2,
        hsubset⟩
    | false =>
      obtain ⟨u, v, hlines, hpos, ha⟩ := settles_put hleft.stops.1 hheeded hb
      rw [hlines, List.append_subset] at hsubset
      refine ⟨before, rest, _, rfl, hleft.stops, ?_, ha, ha.hasBootHead hb, by simp [htimeout],
        List.append_subset.mpr ⟨hsubset.1, List.cons_subset.mpr ⟨by simp, hsubset.2⟩⟩⟩
      rw [hlines, hpos, List.append_assoc, insertIdx_length, List.append_assoc, List.cons_append]
      rfl

theorem Stops.isSection (h : Stops path before (line :: after)) : (reading before).isSection := by
  have hends := h.2 line after rfl
  simp only [endsAt, Bool.and_eq_true] at hends
  exact hends.1.2

/-- The second run leaves them. -/
theorem modifyLines_again (info : LoaderInfo) {lines : List Text} (h : Heeded info.loaderPath lines) :
    modifyLines info.bootLine info.loaderPath (modifyLines info.bootLine info.loaderPath lines) =
      modifyLines info.bootLine info.loaderPath lines := by
  obtain ⟨before, rest, a, -, hstops, hmade, ha, hb, ht, -⟩ := modifyLines_settles info h
  rw [hmade, ha.settled.modifyLines_eq hb ht]
  · cases rest with
    | nil => rfl
    | cons line after => simp only [entered, names_bootLine, if_true]
  · rintro line after heq
    cases rest with
    | nil => cases heq
    | cons old rest =>
      obtain ⟨rfl, -⟩ := List.cons.inj heq
      exact ⟨ha.isSection.trans hstops.isSection, names_bootLine info⟩

/-! ## The text -/

theorem getLast?_insertIdx {l : List α} (hi : i < l.length) (x : α) :
    (l.insertIdx i x).getLast? = l.getLast? := by
  rw [List.getLast?_eq_getElem?, List.getLast?_eq_getElem?,
    List.length_insertIdx_of_le_length (Nat.le_of_lt hi), Nat.add_sub_cancel, List.getElem?_insertIdx_of_gt hi]

theorem bootLoaderPos_lt {before : List Text} (hb : (reading before).hasBootHead) :
    (progress before).bootLoaderPos < (progress before).lines.length := by
  induction before using List.reverseRecOn with
  | nil => cases hb
  | append_singleton before line ih =>
    rcases progress_behind hb with ⟨-, hlines, hpos⟩ | ⟨hb', hlines, hpos⟩
    · rw [hlines, hpos, List.length_append, List.length_singleton]
      omega
    · have hlt := ih hb'
      rw [hlines, hpos, List.length_append]
      omega

theorem getLast?_entered {info : LoaderInfo} {line : Text} {after : List Text}
    (h : (line :: after).getLast? = some []) : (entered info (line :: after)).getLast? = some [] := by
  rw [entered]
  split
  · next hn =>
    cases after with
    | nil =>
      obtain rfl : line = [] := by simpa using h
      cases initial_of_names hn
    | cons l after => rwa [List.getLast?_cons_cons] at h ⊢
  · rwa [List.getLast?_cons_cons]

/-- The last line stays where it is. -/
theorem getLast?_modifyLines (info : LoaderInfo) {lines : List Text} (h : lines.getLast? = some []) :
    (modifyLines info.bootLine info.loaderPath lines).getLast? = some [] := by
  obtain ⟨before, rest, rfl, hleft⟩ := loop_left_start info lines
  obtain ⟨hlines, hlt⟩ : ((progress before).lines ++ entered info rest).getLast? = some [] ∧
      ((reading before).hasBootHead →
        (progress before).bootLoaderPos + 1 < ((progress before).lines ++ entered info rest).length) := by
    cases rest with
    | nil =>
      rw [List.append_nil] at h
      obtain ⟨b, rfl⟩ := List.getLast?_eq_some_iff.mp h
      have ht : isTimeout [] = false := by decide
      have hbh : isBootHead [] = false := by decide
      rw [progress_append, Progress.next, reading_progress, ht, hbh, entered]
      simp only [Bool.not_false, Bool.or_true, if_true, Bool.and_false, Bool.false_eq_true, if_false,
        List.append_nil, List.getLast?_concat, List.length_append, List.length_singleton, true_and]
      intro hb
      have hlt := bootLoaderPos_lt ((header_or_behind hb).2 hbh)
      omega
    | cons line after =>
      have hlast : (line :: after).getLast? = some [] := by
        rwa [List.getLast?_append_of_ne_nil _ (List.cons_ne_nil _ _)] at h
      constructor
      · rw [List.getLast?_append, getLast?_entered hlast]
        rfl
      · intro hb
        have hlt := bootLoaderPos_lt hb
        rw [entered, List.length_append, List.length_cons]
        omega
  rw [modifyLines, Scan.head, hleft.hasBootHead, hleft.hasTimeout, hleft.bootLoaderPos, hleft.lines]
  split_ifs with hb ht
  · rw [List.insertIdx_zero, List.insertIdx_succ_cons, List.insertIdx_zero, List.getLast?_cons, List.getLast?_cons, hlines]
    rfl
  · rw [getLast?_insertIdx (hlt (by simpa using hb)), hlines]
  · exact hlines

theorem getLast?_unlines {lines : List Text} (hne : lines ≠ []) :
    (Text.unlines (lines ++ [[]])).getLast? = some '\n' := by
  induction lines with
  | nil => exact (hne rfl).elim
  | cons line lines ih =>
    cases lines with
    | nil =>
      rw [List.singleton_append, unlines_cons, Text.unlines, List.intercalate_singleton, List.getLast?_concat]
    | cons line' lines =>
      have ih := ih (List.cons_ne_nil _ _)
      rw [List.cons_append] at ih
      rw [List.cons_append, List.cons_append, unlines_cons, List.getLast?_append, List.getLast?_cons, ih]
      rfl

theorem readLines_unlines {lines : List Text} (hn : ∀ line ∈ lines, '\n' ∉ line)
    (hlast : lines.getLast? = some []) (hne : lines ≠ [[]]) : readLines (Text.unlines lines) = some lines := by
  obtain ⟨front, rfl⟩ := List.getLast?_eq_some_iff.mp hlast
  have hfront : front ≠ [] := by
    rintro rfl
    exact hne rfl
  simp only [readLines, getLast?_unlines hfront, ne_eq, not_true_eq_false, if_false]
  rw [Text.lines_unlines hn (by simp)]

/-! ## The boot line in the text -/

theorem unlines_append (l : List Text) {l' : List Text} (hl : l ≠ []) (hl' : l' ≠ []) :
    Text.unlines (l ++ l') = Text.unlines l ++ '\n' :: Text.unlines l' := by
  obtain ⟨x, l', rfl⟩ := List.exists_cons_of_ne_nil hl'
  induction l with
  | nil => exact (hl rfl).elim
  | cons line l ih =>
    cases l with
    | nil => rw [List.singleton_append, unlines_cons, Text.unlines, Text.unlines, List.intercalate_singleton]
    | cons line' l =>
      rw [List.cons_append, List.cons_append, unlines_cons, unlines_cons, List.append_assoc, ← List.cons_append,
        ih (List.cons_ne_nil _ _)]
      rfl

/-- A line that holds several is read as these. -/
theorem unlines_lines (a r : List Text) (x : Text) :
    Text.unlines (a ++ (x.lines ++ r)) = Text.unlines (a ++ x :: r) := by
  have hx : Text.unlines (x.lines ++ r) = Text.unlines (x :: r) := by
    have hself : Text.unlines x.lines = x := List.intercalate_splitOn '\n'
    cases r with
    | nil => rw [List.append_nil, hself, Text.unlines, List.intercalate_singleton]
    | cons y r => rw [unlines_append _ x.lines_ne_nil (List.cons_ne_nil _ _), hself, unlines_cons]
  cases a with
  | nil => exact hx
  | cons y a =>
    rw [unlines_append _ (List.cons_ne_nil _ _) (List.append_ne_nil_of_left_ne_nil x.lines_ne_nil r), hx,
      unlines_append _ (List.cons_ne_nil _ _) (List.cons_ne_nil _ _)]

/-- More lines make a longer text. -/
theorem length_unlines_lt (a r : List Text) (x : Text) {more : List Text} (hmore : more ≠ []) :
    (Text.unlines (a ++ x :: r)).length < (Text.unlines (a ++ x :: (more ++ r))).length := by
  have hlength (ls : List Text) (hne : ls ≠ []) :
      (Text.unlines ls).length + 1 = (ls.map (·.length + 1)).sum := by
    induction ls with
    | nil => exact (hne rfl).elim
    | cons l ls ih =>
      cases ls with
      | nil => simp [Text.unlines]
      | cons l' ls =>
        have ih := ih (List.cons_ne_nil _ _)
        rw [unlines_cons, List.length_append, List.length_cons, List.map_cons, List.sum_cons]
        omega
  obtain ⟨y, more, rfl⟩ := List.exists_cons_of_ne_nil hmore
  have h₁ := hlength (a ++ x :: r) (by simp)
  have h₂ := hlength (a ++ x :: (y :: more ++ r)) (by simp)
  simp only [List.map_append, List.map_cons, List.cons_append, List.sum_append, List.sum_cons] at h₁ h₂ ⊢
  omega

/-- A text in front of a letter that it does not hold -/
theorem prefix_of_append_cons {path x y : List α} {c : α} (h : path <+: x ++ c :: y) (hc : c ∉ path) :
    path <+: x := by
  rcases List.prefix_or_prefix_of_prefix h (List.prefix_append x (c :: y)) with hpath | ⟨t, rfl⟩
  · exact hpath
  · cases t with
    | nil => rw [List.append_nil]
    | cons d t =>
      obtain ⟨rfl, -⟩ := List.cons_prefix_cons.mp ((List.prefix_append_right_inj x).mp h)
      exact (hc (List.mem_append_right _ List.mem_cons_self)).elim

/-- The first line of the boot line names the loader. -/
theorem names_bootLine_lines (info : LoaderInfo) (h : '\n' ∈ info.bootLine) :
    ∃ first more, info.bootLine.lines = first :: more ∧ more ≠ [] ∧ names info.loaderPath first := by
  obtain ⟨first, more, hlines⟩ := List.exists_cons_of_ne_nil info.bootLine.lines_ne_nil
  have hself : Text.unlines info.bootLine.lines = info.bootLine := List.intercalate_splitOn '\n'
  have hmore : more ≠ [] := by
    rintro rfl
    have hfirst : '\n' ∉ first := Text.not_mem_of_mem_lines (hlines ▸ List.mem_cons_self)
    rw [hlines, Text.unlines, List.intercalate_singleton] at hself
    exact hfirst (hself ▸ h)
  refine ⟨first, more, hlines, hmore, ?_⟩
  obtain ⟨second, more, rfl⟩ := List.exists_cons_of_ne_nil hmore
  have hprefix := info.loaderPath_prefix
  rw [← hself, hlines, unlines_cons, Text.lower_append] at hprefix
  rcases loaderPath_mem info with hpath | hpath <;> rw [hpath] at hprefix ⊢ <;>
    exact names_of_startsWith (by decide) (by decide)
      (Text.startsWith_iff.mpr (prefix_of_append_cons hprefix (by decide)))

/-! ## The two texts -/

/-- A boot line of several lines is put in again, and the rest of it stays. -/
theorem modifyLines_longer {info : LoaderInfo} (h : Settled info a) (hb : (reading a).hasBootHead)
    (ht : a.any isTimeout) (hsec : (reading a).isSection) (hname : '\n' ∈ info.bootLine) (r : List Text) :
    Text.unlines (modifyLines info.bootLine info.loaderPath (a ++ (info.bootLine.lines ++ r))) ≠
      Text.unlines (a ++ info.bootLine :: r) := by
  obtain ⟨first, more, hlines, hmore, hfirst⟩ := names_bootLine_lines info hname
  rw [hlines, List.cons_append, h.modifyLines_eq hb ht, entered, if_pos hfirst]
  · exact fun heq => (length_unlines_lt a r info.bootLine hmore).ne (congrArg List.length heq.symm)
  · rintro line after heq
    obtain ⟨rfl, -⟩ := List.cons.inj heq
    exact ⟨hsec, hfirst⟩

/-- Lines with a timeout line among them are not those of the empty text. -/
theorem append_ne_of_any_isTimeout {a : List Text} (ht : a.any isTimeout) (rest : List Text) :
    a ++ rest ≠ [[]] := by
  intro heq
  obtain ⟨t, hmem, ht⟩ := List.any_eq_true.mp ht
  have hblank : t ∈ [[]] := heq ▸ List.mem_append_left _ hmem
  rw [List.mem_singleton.mp hblank] at ht
  cases ht

/-- The lines that the first run makes in front of the boot line are single lines. -/
theorem newline_not_mem_of_subset {a before : List Text} (hsubset : a ⊆ bootHead :: timeoutLine :: before)
    (hn : ∀ line ∈ before, '\n' ∉ line) : ∀ line ∈ a, '\n' ∉ line := by
  intro line hline
  rcases List.mem_cons.mp (hsubset hline) with rfl | hline
  · decide
  rcases List.mem_cons.mp hline with rfl | hline
  · decide
  · exact hn line hline

theorem entered_cons (info : LoaderInfo) (line : Text) (after : List Text) :
    ∃ r, entered info (line :: after) = info.bootLine :: r ∧ r ⊆ line :: after := by
  refine ⟨_, rfl, ?_⟩
  split
  · exact List.subset_cons_self line after
  · exact List.Subset.refl _

/-- The text that holds a boot line of several lines is read as more lines than were written. -/
theorem readLines_several {a r : List Text} {x : Text} (ht : a.any isTimeout) (hx : '\n' ∈ x)
    (ha : ∀ line ∈ a, '\n' ∉ line) (hr : ∀ line ∈ r, '\n' ∉ line)
    (hlast : (a ++ x :: r).getLast? = some []) :
    readLines (Text.unlines (a ++ x :: r)) = some (a ++ (x.lines ++ r)) := by
  have hr' : r ≠ [] := by
    rintro rfl
    rw [List.getLast?_concat] at hlast
    rw [Option.some.inj hlast] at hx
    cases hx
  rw [← unlines_lines]
  refine readLines_unlines ?_ ?_ (append_ne_of_any_isTimeout ht _)
  · refine List.forall_mem_append.mpr ⟨ha, List.forall_mem_append.mpr ⟨?_, hr⟩⟩
    exact fun l hl => Text.not_mem_of_mem_lines hl
  · rw [← List.append_assoc, List.getLast?_append_of_ne_nil _ hr']
    rwa [List.append_cons, List.getLast?_append_of_ne_nil _ hr'] at hlast

/-- Where the lines passed over are idle, a second run of `modify_bootini` writes the text that the first has
written, except that a boot line of several lines is put in again. -/
theorem modifyBootini_again_iff (info : LoaderInfo) (content : Text) (h : content ≠ [])
    (hheeded : ∀ lines, readLines content = some lines → Heeded info.loaderPath lines) :
    (∃ out, modifyBootini info content = some out ∧ modifyBootini info out = some out) ↔
      ∀ lines, readLines content = some lines → RunsThrough info.loaderPath lines ∨ '\n' ∉ info.distroName := by
  obtain ⟨lines, hlines, hn, hlast, -⟩ := readLines_eq h
  have hheeded := hheeded lines hlines
  have hfirst := modifyBootini_of_readLines info hlines
  have hagain := modifyLines_again info hheeded
  have hgetLast := getLast?_modifyLines info hlast
  obtain ⟨before, rest, a, rfl, hstops, hmade, ha, hb, ht, hsubset⟩ := modifyLines_settles info hheeded
  obtain ⟨hbefore, hrest⟩ := List.forall_mem_append.mp hn
  have ha' := newline_not_mem_of_subset hsubset hbefore
  rw [hmade] at hfirst hagain hgetLast
  -- single lines are read back as they were written
  have hone (hentered : ∀ line ∈ entered info rest, '\n' ∉ line) :
      ∃ out, modifyBootini info content = some out ∧ modifyBootini info out = some out := by
    have hread := readLines_unlines (List.forall_mem_append.mpr ⟨ha', hentered⟩) hgetLast
      (append_ne_of_any_isTimeout ht _)
    exact ⟨_, hfirst, by rw [modifyBootini_of_readLines info hread, hagain]⟩
  cases rest with
  | nil =>
    refine iff_of_true (hone fun _ hline => by cases hline) fun lines' hlines' => .inl ?_
    obtain rfl := Option.some.inj (hlines.symm.trans hlines')
    rw [List.append_nil]
    exact hstops.1
  | cons line after =>
    obtain ⟨r, hentered, hr⟩ := entered_cons info line after
    rw [hentered] at hfirst hgetLast hone
    have hr' : ∀ line ∈ r, '\n' ∉ line := fun l hl => hrest l (hr hl)
    constructor
    · rintro ⟨out, hout, hsecond⟩ _ -
      refine .inr fun hname => ?_
      have hname := info.newline_mem_bootLine.mpr hname
      obtain rfl := Option.some.inj (hfirst.symm.trans hout)
      rw [modifyBootini_of_readLines info (readLines_several ht hname ha' hr' hgetLast)] at hsecond
      exact modifyLines_longer ha.settled hb ht (ha.isSection.trans hstops.isSection) hname r
        (Option.some.inj hsecond)
    · intro hall
      refine hone (List.forall_mem_cons.mpr ⟨?_, hr'⟩)
      refine mt info.newline_mem_bootLine.mp ((hall _ hlines).resolve_left fun hruns => ?_)
      have hends := hstops.2 line after rfl
      rw [hruns before line after rfl] at hends
      cases hends

private def againInfo : LoaderInfo := { runTask := none, flag := true, distroName := "StartOS".toList }

/-- No line of this text is passed over: its one timeout line stands behind the header. -/
theorem modifyBootini_again_xp :
    ∃ out, modifyBootini againInfo xpText = some out ∧ modifyBootini againInfo out = some out := by
  refine (modifyBootini_again_iff againInfo xpText (by decide) ?_).mpr fun _ _ => .inr (by decide)
  intro lines hlines before line after heq _ hp
  have hread : readLines xpText = some ("[boot loader]".toList :: ["timeout=30".toList,
      "[operating systems]".toList, "C:\\=\"XP\"".toList, []]) := by decide +kernel
  obtain rfl := Option.some.inj (hread.symm.trans hlines)
  cases before with
  | nil => cases hp
  | cons head before =>
    obtain ⟨rfl, -⟩ := List.cons.inj heq
    have hb := hasBootHead_append (a := ["[boot loader]".toList]) (by decide) before
    rw [List.singleton_append] at hb
    rw [passOver_of_hasBootHead hb] at hp
    cases hp

/-- The first run passes over the header of the section, and the second puts the boot line in. -/
theorem second_run_enters : ¬ ∀ (info : LoaderInfo) (content : Text), content ≠ [] → '\n' ∉ info.distroName →
    ∃ out, modifyBootini info content = some out ∧ modifyBootini info out = some out := by
  intro h
  obtain ⟨out, hout, hagain⟩ := h againInfo "timeout=30\n[operating systems]\nC:\\=\"XP\"\n".toList
    (by decide) (by decide)
  have hfirst : modifyBootini againInfo "timeout=30\n[operating systems]\nC:\\=\"XP\"\n".toList =
      some "[boot loader]\ntimeout = 10\n[operating systems]\nC:\\=\"XP\"\n".toList := by decide +kernel
  obtain rfl := Option.some.inj (hfirst.symm.trans hout)
  revert hagain
  decide +kernel

end Swinst.BootIni
