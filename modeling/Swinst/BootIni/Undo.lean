import Swinst.BootIni.Entry

/-! What `modify_bootini` leaves of `boot.ini`, and what is left after `undo_bootini`, which removes
lines by `remove_line_in_file` of `backends/common/utils.py`. -/

namespace Swinst.BootIni

/-! ## `undo_bootini` -/

/-- `f.readlines()`: the lines with their ends -/
def readlines : Text → List Text
  | [] => []
  | c :: s =>
    if c = '\n' then ['\n'] :: readlines s
    else
      match readlines s with
      | [] => [[c]]
      | line :: lines => (c :: line) :: lines

/-- `remove_line_in_file`, with `ignore_case`, on the content of the file -/
def removeLineInFile (rmLine content : Text) : Text :=
  ((readlines content).map fun line => if line.lower.startsWith rmLine.lower then [] else line).flatten

def undoBootini (content : Text) : Text :=
  removeLineInFile "c:\\yldrd.mbr".toList (removeLineInFile "c:\\yldr.mbr".toList content)

/-- The lines that `remove_line_in_file` keeps -/
def unnamed (rmLine line : Text) : Bool := !line.lower.startsWith rmLine.lower

theorem readlines_append_newline {line : Text} (h : '\n' ∉ line) (s : Text) :
    readlines (line ++ '\n' :: s) = (line ++ ['\n']) :: readlines s := by
  induction line with
  | nil => rfl
  | cons c line ih =>
    rw [List.mem_cons, not_or] at h
    rw [List.cons_append, readlines, if_neg (Ne.symm h.1), ih h.2]
    rfl

theorem readlines_of_not_mem {line : Text} (h : '\n' ∉ line) :
    readlines line = if line = [] then [] else [line] := by
  induction line with
  | nil => rfl
  | cons c line ih =>
    rw [List.mem_cons, not_or] at h
    rw [readlines, if_neg (Ne.symm h.1), ih h.2]
    cases line <;> rfl

theorem lower_startsWith_concat {line rmLine : Text} (h : '\n' ∉ rmLine.lower) :
    (line ++ ['\n']).lower.startsWith rmLine.lower = line.lower.startsWith rmLine.lower := by
  rw [Bool.eq_iff_iff, Text.startsWith_iff, Text.startsWith_iff, Text.lower_append]
  constructor
  · intro hstart
    rcases List.prefix_concat_iff.mp hstart with heq | hstart
    · rw [heq] at h
      exact (h (List.mem_append_right _ (List.mem_singleton.mpr rfl))).elim
    · exact hstart
  · exact fun hstart => hstart.trans (List.prefix_append _ _)

theorem unlines_cons (line line' : Text) (lines : List Text) :
    Text.unlines (line :: line' :: lines) = line ++ '\n' :: Text.unlines (line' :: lines) := by
  rw [Text.unlines, List.intercalate_cons_cons, List.append_assoc]
  rfl

/-- When the last line is kept, the lines that begin with the text go and the others stay. -/
theorem removeLineInFile_unlines {rmLine : Text} (hrm : '\n' ∉ rmLine.lower) {lines : List Text}
    (hn : ∀ line ∈ lines, '\n' ∉ line) (hlast : ∃ last, lines.getLast? = some last ∧ unnamed rmLine last) :
    removeLineInFile rmLine (Text.unlines lines) = Text.unlines (lines.filter (unnamed rmLine)) := by
  induction lines with
  | nil =>
    obtain ⟨_, h, -⟩ := hlast
    cases h
  | cons line lines ih =>
    have hline : '\n' ∉ line := hn line List.mem_cons_self
    cases lines with
    | nil =>
      obtain ⟨last, hlast, hkeep⟩ := hlast
      obtain rfl : line = last := Option.some.inj hlast
      rw [List.filter_cons_of_pos hkeep, List.filter_nil, Text.unlines, List.intercalate_singleton,
        removeLineInFile, readlines_of_not_mem hline]
      rw [unnamed, Bool.not_eq_true'] at hkeep
      split
      · next hnil => rw [hnil]; rfl
      · simp [hkeep]
    | cons line' lines =>
      have hrest := ih (fun l hl => hn l (List.mem_cons_of_mem _ hl)) hlast
      rw [removeLineInFile] at hrest
      rw [unlines_cons, removeLineInFile, readlines_append_newline hline, List.map_cons,
        List.flatten_cons, hrest, lower_startsWith_concat hrm]
      -- the last line stays, so that there is a line after this one
      obtain ⟨kept, rest, hkept⟩ : ∃ kept rest,
          (line' :: lines).filter (unnamed rmLine) = kept :: rest := by
        obtain ⟨last, hlast, hkeep⟩ := hlast
        rw [List.getLast?_cons_cons] at hlast
        apply List.exists_cons_of_ne_nil
        exact List.ne_nil_of_mem (List.mem_filter.mpr ⟨List.mem_of_getLast? hlast, hkeep⟩)
      cases hstart : line.lower.startsWith rmLine.lower with
      | true =>
        have hdrop : ¬ unnamed rmLine line = true := by simp [unnamed, hstart]
        rw [List.filter_cons_of_neg hdrop, if_pos rfl, List.nil_append]
      | false =>
        have hkeep : unnamed rmLine line = true := by simp [unnamed, hstart]
        rw [List.filter_cons_of_pos hkeep, hkept, unlines_cons, if_neg Bool.false_ne_true,
          List.append_assoc]
        rfl

/-! ## The edited lines -/

/-- `l'` comes from `l` by removing some timeout lines and rewriting others. -/
inductive Retimed : List Text → List Text → Prop where
  | nil : Retimed [] []
  | keep : Retimed l l' → Retimed (line :: l) (line :: l')
  | remove : isTimeout line → Retimed l l' → Retimed (line :: l) l'
  | rewrite : isTimeout line → Retimed l l' → Retimed (line :: l) (timeoutLine :: l')

namespace Retimed

theorem refl : ∀ l : List Text, Retimed l l
  | [] => .nil
  | _ :: l => .keep (refl l)

theorem trans (h : Retimed l l') (h' : Retimed l' l'') : Retimed l l'' := by
  induction h generalizing l'' with
  | nil => exact h'
  | remove ht _ ih => exact .remove ht (ih h')
  | keep _ ih =>
    cases h' with
    | keep h' => exact .keep (ih h')
    | remove ht h' => exact .remove ht (ih h')
    | rewrite ht h' => exact .rewrite ht (ih h')
  | rewrite ht _ ih =>
    cases h' with
    | keep h' => exact .rewrite ht (ih h')
    | remove _ h' => exact .remove ht (ih h')
    | rewrite _ h' => exact .rewrite ht (ih h')

theorem erase (ht : isTimeout line) (l : List Text) : Retimed l (l.erase line) := by
  induction l with
  | nil => exact .nil
  | cons x l ih =>
    rw [List.erase_cons]
    split
    · next hx => exact .remove (eq_of_beq hx ▸ ht) (refl l)
    · exact .keep ih

theorem set {l : List Text} (hi : l[i]? = some line) (ht : isTimeout line) :
    Retimed l (l.set i timeoutLine) := by
  induction l generalizing i with
  | nil => exact .nil
  | cons x l ih =>
    cases i with
    | zero =>
      obtain rfl : x = line := Option.some.inj hi
      exact .rewrite ht (refl l)
    | succ i => exact .keep (ih hi)

/-- The other lines stay, in their order. -/
theorem kept_eq (h : Retimed l l') : kept l' = kept l := by
  induction h with
  | nil => rfl
  | keep _ ih => rw [← List.singleton_append, kept_append, ih, ← kept_append, List.singleton_append]
  | remove ht _ ih => rw [ih, kept_cons_timeout ht]
  | rewrite ht _ ih => rw [kept_cons_timeout ht, kept_cons_timeout (by decide), ih]

/-- A property that no timeout line has is not gained. -/
theorem forall_mem {P : Text → Prop} (ht : P timeoutLine) (h : Retimed l l') (hl : ∀ x ∈ l, P x) :
    ∀ x ∈ l', P x := by
  induction h with
  | nil => exact hl
  | keep _ ih =>
    exact List.forall_mem_cons.mpr ⟨hl _ List.mem_cons_self, ih (List.forall_mem_cons.mp hl).2⟩
  | remove _ _ ih => exact ih (List.forall_mem_cons.mp hl).2
  | rewrite _ _ ih => exact List.forall_mem_cons.mpr ⟨ht, ih (List.forall_mem_cons.mp hl).2⟩

end Retimed

/-- `l'` is `l` with `x` put in before one of its lines. -/
def PutIn (x : Text) (l l' : List Text) : Prop := ∃ a line b, l = a ++ line :: b ∧ l' = a ++ x :: line :: b

theorem putIn_insertIdx {l : List Text} (hi : l[i]? = some line) : PutIn x l (l.insertIdx i x) := by
  obtain ⟨hlt, hget⟩ := List.getElem?_eq_some_iff.mp hi
  have hl : l = l.take i ++ line :: l.drop (i + 1) := by
    rw [← hget, List.getElem_cons_drop, List.take_append_drop]
  have hlen : (l.take i).length = i := by
    rw [List.length_take]
    omega
  refine ⟨l.take i, line, l.drop (i + 1), hl, ?_⟩
  have hput := insertIdx_length (l.take i) (line :: l.drop (i + 1)) x
  rwa [hlen, ← hl] at hput

/-- A turn at a line that does not name the loader. -/
theorem turn_frame {info : LoaderInfo} {s : Scan} (hi : s.lines[i]? = some line)
    (hfree : names info.loaderPath line = false) :
    (∃ s', s.turn info.bootLine info.loaderPath i line = .next s' ∧ Retimed s.lines s'.lines) ∨
      ∃ s', s.turn info.bootLine info.loaderPath i line = .done s' ∧
        PutIn info.bootLine s.lines s'.lines := by
  unfold Scan.turn
  split
  · exact .inl ⟨_, rfl, .refl _⟩
  split
  · exact .inl ⟨_, rfl, .refl _⟩
  split
  · exact .inl ⟨_, rfl, .refl _⟩
  split
  · next ht =>
    split
    · exact .inl ⟨_, rfl, .erase ht _⟩
    · exact .inl ⟨_, rfl, .set hi ht⟩
  split
  · next h =>
    rw [hfree, Bool.and_false] at h
    cases h
  split
  · exact .inr ⟨_, rfl, putIn_insertIdx hi⟩
  · exact .inl ⟨_, rfl, .refl _⟩

/-- What the loop makes of a text in which no line names the loader. -/
theorem loop_frame {info : LoaderInfo} {s : Scan}
    (hfree : ∀ line ∈ s.lines, names info.loaderPath line = false) (fuel i : Nat) :
    ∃ edited, Retimed s.lines edited ∧
      ((Scan.loop info.bootLine info.loaderPath fuel i s).lines = edited ∨
        PutIn info.bootLine edited (Scan.loop info.bootLine info.loaderPath fuel i s).lines) := by
  induction fuel generalizing s i with
  | zero => exact ⟨_, .refl _, .inl rfl⟩
  | succ fuel ih =>
    rw [Scan.loop]
    cases hi : s.lines[i]? with
    | none => exact ⟨_, .refl _, .inl rfl⟩
    | some line =>
      have hline : names info.loaderPath line = false := hfree line (List.mem_of_getElem? hi)
      rcases turn_frame hi hline with ⟨s', hturn, hretimed⟩ | ⟨s', hturn, hput⟩
      · simp only [hturn]
        have htimeout : names info.loaderPath timeoutLine = false := by
          cases h : names info.loaderPath timeoutLine with
          | false => rfl
          | true => exact absurd (initial_of_names h) (by decide)
        obtain ⟨edited, hedited, hloop⟩ := ih (hretimed.forall_mem htimeout hfree) (i + 1)
        exact ⟨edited, hretimed.trans hedited, hloop⟩
      · simp only [hturn]
        exact ⟨s.lines, .refl _, .inr hput⟩

/-- The frame of the edit: beyond the timeout lines, nothing but the boot line, the header and one
timeout line is put in. -/
def Framed (info : LoaderInfo) (lines out : List Text) : Prop :=
  ∃ edited entered, Retimed lines edited ∧
    (entered = edited ∨ PutIn info.bootLine edited entered) ∧
      (out = entered ∨ (∃ a b, entered = a ++ b ∧ out = a ++ timeoutLine :: b) ∨
        out = bootHead :: timeoutLine :: entered)

theorem insertIdx_eq_or {l : List Text} (i : Nat) (x : Text) :
    l.insertIdx i x = l ∨ ∃ a b, l = a ++ b ∧ l.insertIdx i x = a ++ x :: b := by
  rcases Nat.lt_or_ge l.length i with hi | hi
  · exact .inl (List.insertIdx_of_length_lt hi)
  · refine .inr ⟨l.take i, l.drop i, (List.take_append_drop i l).symm, ?_⟩
    have hput := insertIdx_length (l.take i) (l.drop i) x
    rwa [List.take_append_drop, List.length_take_of_le hi] at hput

theorem framed_modifyLines {info : LoaderInfo} {lines : List Text}
    (hfree : ∀ line ∈ lines, names info.loaderPath line = false) :
    Framed info lines (modifyLines info.bootLine info.loaderPath lines) := by
  obtain ⟨edited, hretimed, hloop⟩ := loop_frame (s := { lines }) hfree lines.length 0
  refine ⟨edited, _, hretimed, hloop, ?_⟩
  unfold modifyLines Scan.head
  split
  · exact .inr (.inr rfl)
  split
  · rcases insertIdx_eq_or (l := (Scan.loop info.bootLine info.loaderPath lines.length 0 { lines }).lines)
      ((Scan.loop info.bootLine info.loaderPath lines.length 0 { lines }).bootLoaderPos + 1)
      timeoutLine with h | h
    · exact .inl h
    · exact .inr (.inl h)
  · exact .inl rfl

/-! ## The lines after the undo -/

/-- Neither loader is named. -/
def free (line : Text) : Bool := !names "c:\\yldr.mbr".toList line && !names "c:\\yldrd.mbr".toList line

/-- Does `remove_line_in_file` keep the line, whichever loader it looks for? -/
def stays (line : Text) : Bool := unnamed "c:\\yldr.mbr".toList line && unnamed "c:\\yldrd.mbr".toList line

theorem toLower_of_isSpace {c : Char} (h : Text.isSpace c) : c.toLower = c := by
  simp only [Text.isSpace, Bool.or_eq_true, decide_eq_true_eq] at h
  rcases h with ((((rfl | rfl) | rfl) | rfl) | rfl) | rfl <;> rfl

theorem prefix_strip {a : Text} (ha : ∀ c ∈ a, Text.isSpace c = false) (hne : a ≠ []) (b : Text) :
    a <+: Text.strip (a ++ b) := by
  have hleft : Text.lstrip (a ++ b) = a ++ b := by
    obtain ⟨c, a, rfl⟩ := List.exists_cons_of_ne_nil hne
    exact List.dropWhile_cons_of_neg (by simp [ha c List.mem_cons_self])
  have hright : a.reverse.dropWhile Text.isSpace = a.reverse := by
    cases hr : a.reverse with
    | nil => rfl
    | cons c l =>
      have hc : c ∈ a := List.mem_reverse.mp (hr ▸ List.mem_cons_self)
      exact List.dropWhile_cons_of_neg (by simp [ha c hc])
  rw [Text.strip, hleft, Text.rstrip, List.reverse_append, List.dropWhile_append, hright]
  split
  · rw [List.reverse_reverse]
  · rw [List.reverse_append, List.reverse_reverse]
    exact List.prefix_append _ _

/-- A line that begins with the path of the loader names it. -/
theorem names_of_startsWith {path line : Text} (hpath : path.all (!Text.isSpace ·)) (hne : path ≠ [])
    (h : line.lower.startsWith path) : names path line := by
  obtain ⟨rest, hrest⟩ := Text.startsWith_iff.mp h
  obtain ⟨a, b, rfl, rfl, -⟩ := List.map_eq_append_iff.mp hrest.symm
  have ha : ∀ c ∈ a, Text.isSpace c = false := by
    intro c hc
    have hlower := List.all_eq_true.mp hpath c.toLower (List.mem_map_of_mem hc)
    cases hspace : Text.isSpace c with
    | false => rfl
    | true =>
      rw [toLower_of_isSpace hspace, hspace] at hlower
      cases hlower
  obtain ⟨tail, htail⟩ := prefix_strip ha (fun h => hne (by rw [h]; rfl)) b
  rw [names, ← htail, Text.lower_append, Text.startsWith_iff]
  exact List.prefix_append _ _

theorem unnamed_of_not_names {path line : Text} (hlower : path.lower = path)
    (hpath : path.all (!Text.isSpace ·)) (hne : path ≠ []) (h : names path line = false) :
    unnamed path line := by
  rw [unnamed, hlower, Bool.not_eq_true']
  cases hstart : line.lower.startsWith path with
  | false => rfl
  | true => rw [names_of_startsWith hpath hne hstart] at h; cases h

theorem stays_of_free {line : Text} (h : free line) : stays line := by
  simp only [free, Bool.and_eq_true, Bool.not_eq_true'] at h
  rw [stays, unnamed_of_not_names (by decide) (by decide) (by decide) h.1,
    unnamed_of_not_names (by decide) (by decide) (by decide) h.2]
  rfl

theorem loaderPath_mem (info : LoaderInfo) :
    info.loaderPath = "c:\\yldr.mbr".toList ∨ info.loaderPath = "c:\\yldrd.mbr".toList := by
  unfold LoaderInfo.loaderPath LoaderInfo.choose
  split
  · exact .inr rfl
  split
  · exact .inl rfl
  · exact .inr rfl

theorem not_names_of_free {info : LoaderInfo} {line : Text} (h : free line) :
    names info.loaderPath line = false := by
  simp only [free, Bool.and_eq_true, Bool.not_eq_true'] at h
  rcases loaderPath_mem info with hpath | hpath <;> rw [hpath]
  · exact h.1
  · exact h.2

/-- The boot line is found by one of the two searches. -/
theorem stays_bootLine (info : LoaderInfo) : stays info.bootLine = false := by
  have hstart : info.bootLine.lower.startsWith info.loaderPath = true :=
    Text.startsWith_iff.mpr info.loaderPath_prefix
  rcases loaderPath_mem info with hpath | hpath <;> rw [hpath] at hstart
  · have hlower : Text.lower "c:\\yldr.mbr".toList = "c:\\yldr.mbr".toList := by decide
    rw [stays, unnamed, hlower, hstart]
    rfl
  · have hlower : Text.lower "c:\\yldrd.mbr".toList = "c:\\yldrd.mbr".toList := by decide
    rw [stays, unnamed, unnamed, hlower, hstart]
    exact Bool.and_false _

theorem filter_stays_of_free {l : List Text} (h : ∀ line ∈ l, free line) : l.filter stays = l :=
  List.filter_eq_self.mpr fun line hline => stays_of_free (h line hline)

/-- What the undo is to leave: the lines other than timeouts, with one header more at most. -/
structure Undone (lines out : List Text) : Prop where
  kept : kept out = kept lines ∨ kept out = bootHead :: kept lines
  free : ∀ line ∈ out, free line

theorem filter_stays_putIn {info : LoaderInfo} {edited entered : List Text}
    (hfree : ∀ line ∈ edited, free line) (h : PutIn info.bootLine edited entered) :
    entered.filter stays = edited := by
  obtain ⟨a, line, b, rfl, rfl⟩ := h
  have hboot : ¬ stays info.bootLine = true := by
    rw [stays_bootLine]
    exact Bool.false_ne_true
  rw [List.filter_append, List.filter_cons_of_neg hboot, ← List.filter_append, filter_stays_of_free hfree]

theorem Framed.undone {info : LoaderInfo} {lines out : List Text} (h : Framed info lines out)
    (hfree : ∀ line ∈ lines, BootIni.free line) : Undone lines (out.filter stays) := by
  obtain ⟨edited, entered, hretimed, hentered, hout⟩ := h
  have hedited : ∀ line ∈ edited, BootIni.free line := hretimed.forall_mem (by decide) hfree
  have hstays : entered.filter stays = edited := by
    rcases hentered with rfl | hput
    · exact filter_stays_of_free hedited
    · exact filter_stays_putIn hedited hput
  have htimeout : stays timeoutLine = true := by decide
  have hhead : stays bootHead = true := by decide
  rcases hout with rfl | ⟨a, b, rfl, rfl⟩ | rfl
  · exact ⟨.inl (by rw [hstays, hretimed.kept_eq]), by rwa [hstays]⟩
  · rw [List.filter_append] at hstays
    rw [List.filter_append, List.filter_cons_of_pos htimeout]
    refine ⟨.inl ?_, ?_⟩
    · rw [kept_append, kept_cons_timeout (by decide), ← kept_append, hstays, hretimed.kept_eq]
    · have hmem : ∀ line, line ∈ a.filter stays ++ timeoutLine :: b.filter stays ↔
          line = timeoutLine ∨ line ∈ a.filter stays ++ b.filter stays := fun line => by
        simp only [List.mem_append, List.mem_cons]
        tauto
      intro line hline
      rcases (hmem line).mp hline with rfl | hline
      · decide
      · exact hedited line (hstays ▸ hline)
  · rw [List.filter_cons_of_pos hhead, List.filter_cons_of_pos htimeout, hstays]
    refine ⟨.inr ?_, ?_⟩
    · have hk : kept (bootHead :: timeoutLine :: edited) = bootHead :: kept edited := rfl
      rw [hk, hretimed.kept_eq]
    · exact List.forall_mem_cons.mpr ⟨by decide, List.forall_mem_cons.mpr ⟨by decide, hedited⟩⟩

/-- The boot line is put in before another line, so that the last line of the file is not it. -/
theorem Framed.stays_getLast {info : LoaderInfo} {lines out : List Text} (h : Framed info lines out)
    (hfree : ∀ line ∈ lines, BootIni.free line) (hblank : [] ∈ lines) :
    ∃ last, out.getLast? = some last ∧ stays last := by
  obtain ⟨edited, entered, hretimed, hentered, hout⟩ := h
  have hedited : ∀ line ∈ edited, BootIni.free line := hretimed.forall_mem (by decide) hfree
  have hne : edited ≠ [] := by
    rintro rfl
    have hmem : [] ∈ kept lines := List.mem_filter.mpr ⟨hblank, by decide⟩
    rw [← hretimed.kept_eq] at hmem
    cases hmem
  obtain ⟨last, hlast, hmem⟩ : ∃ last, entered.getLast? = some last ∧ last ∈ edited := by
    rcases hentered with rfl | ⟨a, line, b, rfl, rfl⟩
    · exact ⟨_, List.getLast?_eq_some_getLast hne, List.getLast_mem hne⟩
    · refine ⟨(line :: b).getLast (by simp), ?_, List.mem_append_right _ (List.getLast_mem _)⟩
      rw [List.getLast?_append_cons, List.getLast?_cons_cons, List.getLast?_eq_some_getLast (by simp)]
  have hstays : stays last := stays_of_free (hedited last hmem)
  rcases hout with rfl | ⟨a, b, rfl, rfl⟩ | rfl
  · exact ⟨last, hlast, hstays⟩
  · cases b with
    | nil => exact ⟨timeoutLine, by rw [List.getLast?_append_cons]; rfl, by decide⟩
    | cons line b =>
      rw [List.getLast?_append_cons] at hlast
      exact ⟨last, by rw [List.getLast?_append_cons, List.getLast?_cons_cons, hlast], hstays⟩
  · obtain ⟨line, rest, rfl⟩ := List.exists_cons_of_ne_nil (l := entered) (by rintro rfl; cases hlast)
    exact ⟨last, by rw [List.getLast?_cons_cons, List.getLast?_cons_cons, hlast], hstays⟩

theorem undoBootini_unlines {out : List Text} (hn : ∀ line ∈ out, '\n' ∉ line)
    (hlast : ∃ last, out.getLast? = some last ∧ stays last) :
    (undoBootini (Text.unlines out)).lines = out.filter stays := by
  obtain ⟨last, hlast, hstays⟩ := hlast
  obtain ⟨front, rfl⟩ := List.getLast?_eq_some_iff.mp hlast
  obtain ⟨h₁, h₂⟩ := Bool.and_eq_true_iff.mp hstays
  have hfilter {p : Text → Bool} (hp : p last = true) (l : List Text) :
      (l ++ [last]).filter p = l.filter p ++ [last] := by
    rw [List.filter_append, List.filter_cons_of_pos hp, List.filter_nil]
  have hsub (line : Text) (h : line ∈ (front ++ [last]).filter (unnamed "c:\\yldr.mbr".toList)) :
      '\n' ∉ line := hn line (List.mem_filter.mp h).1
  rw [undoBootini, removeLineInFile_unlines (by decide) hn ⟨last, hlast, h₁⟩,
    removeLineInFile_unlines (by decide) hsub ⟨last, by rw [hfilter h₁, List.getLast?_concat], h₂⟩,
    List.filter_filter]
  have hboth : (front ++ [last]).filter (fun line => unnamed "c:\\yldrd.mbr".toList line &&
      unnamed "c:\\yldr.mbr".toList line) = (front ++ [last]).filter stays := by
    apply List.filter_congr
    intro line _
    exact Bool.and_comm _ _
  rw [hboth, hfilter hstays]
  apply Text.lines_unlines
  · intro line hline
    rw [← hfilter hstays] at hline
    exact hn line (List.mem_filter.mp hline).1
  · simp

theorem readLines_eq {content : Text} (h : content ≠ []) :
    ∃ lines, readLines content = some lines ∧ (∀ line ∈ lines, '\n' ∉ line) ∧ lines.getLast? = some [] ∧
      ∀ line ∈ lines, line = [] ∨ line ∈ content.lines := by
  have hlast (s : Text) : Text.lines (s ++ ['\n']) = s.lines ++ [[]] := by
    rw [Text.lines, List.splitOn_append_cons_self]
    rfl
  obtain ⟨front, c, rfl⟩ := (List.eq_nil_or_concat' content).resolve_left h
  have hc : (front ++ [c]).getLast? = some c := List.getLast?_concat
  by_cases hnewline : c = '\n'
  · subst hnewline
    refine ⟨_, by rw [readLines, hc]; rfl, fun line => Text.not_mem_of_mem_lines, ?_, fun _ => .inr⟩
    rw [hlast, List.getLast?_concat]
  · refine ⟨Text.lines (front ++ [c] ++ ['\n']), ?_, fun line => Text.not_mem_of_mem_lines, ?_, ?_⟩
    · simp only [readLines, hc, ne_eq, hnewline, not_false_eq_true, if_true]
    · rw [hlast, List.getLast?_concat]
    · intro line hline
      rw [hlast, List.mem_append, List.mem_singleton] at hline
      exact hline.symm

/-- `modify_bootini` keeps the lines other than timeouts, and `undo_bootini` brings them back. -/
theorem modifyBootini_frame_undo (info : LoaderInfo) (content : Text) (h : content ≠ [])
    (hname : '\n' ∉ info.distroName) (hfree : ∀ line ∈ content.lines, free line) :
    ∃ lines out, readLines content = some lines ∧ modifyBootini info content = some out ∧
      Framed info lines out.lines ∧ Undone lines (undoBootini out).lines := by
  obtain ⟨lines, hlines, hn, hblank, hmem⟩ := readLines_eq h
  have hfree : ∀ line ∈ lines, free line := by
    intro line hline
    rcases hmem line hline with rfl | hline
    · decide
    · exact hfree line hline
  have hframed : Framed info lines (modifyLines info.bootLine info.loaderPath lines) :=
    framed_modifyLines fun line hline => not_names_of_free (hfree line hline)
  have hnew : ∀ line ∈ modifyLines info.bootLine info.loaderPath lines, '\n' ∉ line :=
    forall_mem_modifyLines (P := fun line => '\n' ∉ line) (mt info.newline_mem_bootLine.mp hname)
      (by decide) (by decide) hn
  have hlast := hframed.stays_getLast hfree (List.mem_of_getLast? hblank)
  refine ⟨lines, _, hlines, modifyBootini_of_readLines info hlines, ?_⟩
  have hne : modifyLines info.bootLine info.loaderPath lines ≠ [] := by
    obtain ⟨last, hlast, -⟩ := hlast
    intro hnil
    rw [hnil] at hlast
    cases hlast
  rw [Text.lines_unlines hnew hne, undoBootini_unlines hnew hlast]
  exact ⟨hframed, hframed.undone hfree⟩

/-- A `boot.ini` of Windows XP -/
def xpText : Text := "[boot loader]\ntimeout=30\n[operating systems]\nC:\\=\"XP\"\n".toList

private def namedInfo (distroName : String) : LoaderInfo where
  runTask := none
  flag := true
  distroName := distroName.toList

theorem modifyBootini_frame_undo_xp :
    ∃ lines out, readLines xpText = some lines ∧ modifyBootini (namedInfo "StartOS") xpText = some out ∧
      Framed (namedInfo "StartOS") lines out.lines ∧ Undone lines (undoBootini out).lines :=
  modifyBootini_frame_undo (namedInfo "StartOS") xpText (by decide) (by decide) (by decide +kernel)

/-- A name of two lines makes two lines of the boot line, and the undo finds the first only. -/
theorem two_line_name_stays : ¬ ∀ (info : LoaderInfo) (content : Text), content ≠ [] →
    (∀ line ∈ content.lines, free line) →
      ∃ lines out, readLines content = some lines ∧ modifyBootini info content = some out ∧
        Framed info lines out.lines ∧ Undone lines (undoBootini out).lines := by
  intro h
  obtain ⟨lines, out, hlines, hout, -, hundone⟩ :=
    h (namedInfo "Start\nOS") xpText (by decide) (by decide +kernel)
  have hread : readLines xpText = some ["[boot loader]".toList, "timeout=30".toList,
      "[operating systems]".toList, "C:\\=\"XP\"".toList, []] := by decide +kernel
  have hmodify : modifyBootini (namedInfo "Start\nOS") xpText =
      some ("[boot loader]\ntimeout = 10\n[operating systems]\nC:\\=\"XP\"\n".toList ++
        "C:\\yldr.mbr = \"Start\nOS\"\n".toList) := by decide +kernel
  obtain rfl := Option.some.inj (hread.symm.trans hlines)
  obtain rfl := Option.some.inj (hmodify.symm.trans hout)
  have hkept := hundone.kept
  revert hkept
  decide +kernel

end Swinst.BootIni
