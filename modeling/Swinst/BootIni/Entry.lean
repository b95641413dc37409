import Swinst.BootIni.Rewrite

/-! Where the loop of `modify_bootini` ends, and whether the boot line then stands in the section
of the operating systems. -/

namespace Swinst.BootIni

/-! ## The lines that the loop looks at -/

/-- What the loop knows when it comes to a line of the text. A timeout line before the first
`[boot loader]` header is removed; the line after it then moves into its place and is passed over.
A `[boot loader]` header does not end the section. -/
structure Reading where
  passOver : Bool := false
  hasBootHead : Bool := false
  isSection : Bool := false

def Reading.next (r : Reading) (line : Text) : Reading :=
  if r.passOver then { r with passOver := false }
  else if isOsHead line then { r with isSection := true }
  else if isBootHead line then { r with hasBootHead := true }
  else if isHead line then { r with isSection := false }
  else if isTimeout line then { r with passOver := !r.hasBootHead }
  else r

def reading (before : List Text) : Reading := before.foldl .next {}

theorem reading_append (before : List Text) (line : Text) :
    reading (before ++ [line]) = (reading before).next line := by simp [reading]

/-- Is `line`, after the lines `before`, one that the loop looks at, in what it takes for the
section of the operating systems, and is it blank or does it name the loader? -/
def endsAt (path : Text) (before : List Text) (line : Text) : Bool :=
  let r := reading before
  !r.passOver && r.isSection && (names path line || isBlank line)

/-- No line ends the loop. -/
def RunsThrough (path : Text) (lines : List Text) : Prop :=
  ∀ before line after, lines = before ++ line :: after → endsAt path before line = false

theorem RunsThrough.nil : RunsThrough path [] := by
  intro before line after h
  simp at h

theorem RunsThrough.append (h : RunsThrough path before) (hl : endsAt path before line = false) :
    RunsThrough path (before ++ [line]) := by
  intro b l a ha
  rcases List.eq_nil_or_concat' a with rfl | ⟨a, l', rfl⟩
  · obtain ⟨rfl, rfl⟩ : before = b ∧ line = l := by simpa using ha
    exact hl
  · rw [← List.cons_append, ← List.append_assoc] at ha
    exact h b l a (List.append_inj' ha rfl).1

/-! ## The outcome of the loop -/

/-- The lines that the loop neither removes nor replaces, the last one apart. -/
def kept (lines : List Text) : List Text := lines.filter (!isTimeout ·)

theorem kept_append (l l' : List Text) : kept (l ++ l') = kept l ++ kept l' := List.filter_append ..

theorem kept_cons_timeout (h : isTimeout line) : kept (line :: l) = kept l := by
  simp [kept, h]

theorem kept_erase (h : isTimeout line) (l : List Text) : kept (l.erase line) = kept l := by
  induction l with
  | nil => rfl
  | cons x l ih =>
    rw [List.erase_cons]
    split
    · next hx => rw [kept_cons_timeout (by simpa [eq_of_beq hx] using h)]
    · simpa [kept, List.filter_cons] using by split <;> simp_all [kept]

inductive Outcome (info : LoaderInfo) (lines : List Text) (s : Scan) : Prop where
  | ended {before line after done} : lines = before ++ line :: after →
    RunsThrough info.loaderPath before → endsAt info.loaderPath before line →
    kept done = kept before →
    s.lines = done ++ info.bootLine ::
      (if names info.loaderPath line then after else line :: after) → Outcome info lines s
  | through : RunsThrough info.loaderPath lines → kept s.lines = kept lines → Outcome info lines s

/-- Where the loop stands: `done` is what it made of `before`. -/
structure Scan.At (info : LoaderInfo) (before ahead done : List Text) (i : Nat) (s : Scan) :
    Prop where
  lines : s.lines = done ++ ahead
  length : done.length = i
  keeps : kept done = kept before
  reads : reading before =
    { passOver := false, hasBootHead := s.hasBootHead, isSection := s.isSection }
  runs : RunsThrough info.loaderPath before

/-- A line that the loop leaves as it is. -/
theorem Scan.At.keep {s s' : Scan} (h : s.At info before (line :: ahead) done i)
    (hl : s'.lines = s.lines) (he : endsAt info.loaderPath before line = false)
    (hr : (reading before).next line =
      { passOver := false, hasBootHead := s'.hasBootHead, isSection := s'.isSection }) :
    s'.At info (before ++ [line]) ahead (done ++ [line]) (i + 1) where
  lines := by simp [hl, h.lines]
  length := by simp [h.length]
  keeps := by simp [kept_append, h.keeps]
  reads := (reading_append ..).trans hr
  runs := h.runs.append he

theorem endsAt_eq_false (hb : initial line ≠ none) (hc : initial line ≠ some 'c') :
    endsAt (LoaderInfo.loaderPath info) before line = false := by
  have h₁ : isBlank line = false := by
    cases h : isBlank line with
    | false => rfl
    | true => exact (hb (initial_of_isBlank h)).elim
  have h₂ : names info.loaderPath line = false := by
    cases h : names info.loaderPath line with
    | false => rfl
    | true => exact (hc (initial_of_names h)).elim
  simp [endsAt, h₁, h₂]

theorem endsAt_isHead (h : isHead line) :
    endsAt (LoaderInfo.loaderPath info) before line = false := by
  rw [isHead_iff] at h
  exact endsAt_eq_false (by simp [h]) (by simp [h])

theorem endsAt_isTimeout (h : isTimeout line) :
    endsAt (LoaderInfo.loaderPath info) before line = false := by
  have h := initial_of_isTimeout h
  exact endsAt_eq_false (by simp [h]) (by simp [h])

/-- Where the loop stands after a turn that removed the timeout line `line`. -/
inductive Scan.Removed (info : LoaderInfo) (before ahead : List Text) (i : Nat) (s : Scan) :
    Prop where
  | next {line ahead' done} : ahead = line :: ahead' →
    s.At info (before ++ [line]) ahead' done i → Removed info before ahead i s
  | last : ahead = [] → s.lines.length ≤ i → RunsThrough info.loaderPath before →
    kept s.lines = kept before → Removed info before ahead i s

theorem Scan.At.remove {s : Scan} (h : s.At info before (line :: ahead) done i)
    (ht : isTimeout line) (hh : isHead line = false) (hb : s.hasBootHead = false) :
    Scan.Removed info (before ++ [line]) ahead (i + 1)
      { s with lines := s.lines.erase line } := by
  have hr : reading (before ++ [line]) = { passOver := true, isSection := s.isSection } := by
    have ho := isOsHead_eq_false_of_isHead hh
    have hbh := isBootHead_eq_false_of_isHead hh
    simp [reading_append, h.reads, Reading.next, hb, ho, hbh, hh, ht]
  have hk : kept (s.lines.erase line) = kept (before ++ [line] ++ ahead) := by
    rw [kept_erase ht, h.lines]
    simp [kept_append, kept_cons_timeout ht, h.keeps]
  have hs : ∃ done', s.lines.erase line = done' ++ ahead ∧ done'.length = i := by
    rw [h.lines]
    by_cases hm : line ∈ done
    · refine ⟨done.erase line ++ [line], ?_, ?_⟩
      · rw [List.erase_append_left _ hm, List.append_assoc, List.singleton_append]
      · have := List.length_pos_of_mem hm
        rw [List.length_append, List.length_erase_of_mem hm, ← h.length]
        simp
        omega
    · exact ⟨done, by rw [List.erase_append_right _ hm]; simp, h.length⟩
  have hend := h.runs.append (endsAt_isTimeout ht)
  obtain ⟨done', hd, hi⟩ := hs
  cases ahead with
  | nil => exact .last rfl (by simp [hd, hi]) hend (by simpa using hk)
  | cons next ahead =>
    refine @Scan.Removed.next _ _ _ _ _ _ _ (done' ++ [next]) rfl ⟨by simp [hd], by simp [hi], ?_, ?_, ?_⟩
    · simp only [hd, kept_append] at hk
      have hk' : kept (done' ++ [next]) ++ kept ahead =
          kept (before ++ [line] ++ [next]) ++ kept ahead := by
        simpa [← kept_append] using hk
      exact List.append_cancel_right hk'
    · rw [reading_append, hr]
      simp [Reading.next, hb]
    · exact hend.append (by simp [endsAt, hr])

/-- What a turn at `line` can do. -/
inductive Turned (info : LoaderInfo) (before : List Text) (line : Text) (ahead : List Text)
    (i : Nat) : Turn → Prop where
  | kept {s done} : s.At info (before ++ [line]) ahead done (i + 1) →
    Turned info before line ahead i (.next s)
  | removed {s} : s.Removed info (before ++ [line]) ahead (i + 1) →
    Turned info before line ahead i (.next s)
  | ended {s done} : endsAt info.loaderPath before line → kept done = kept before →
    s.lines = done ++ info.bootLine ::
      (if names info.loaderPath line then ahead else line :: ahead) →
    Turned info before line ahead i (.done s)

theorem insertIdx_length (l l' : List α) (x : α) :
    (l ++ l').insertIdx l.length x = l ++ x :: l' := by
  induction l with
  | nil => rfl
  | cons y l ih => simp [ih]

theorem Scan.At.turn {s : Scan} (h : s.At info before (line :: ahead) done i) :
    Turned info before line ahead i (s.turn info.bootLine info.loaderPath i line) := by
  have hset (x : Text) : s.lines.set i x = done ++ x :: ahead := by simp [h.lines, ← h.length]
  unfold Scan.turn
  split
  · next ho =>
    exact .kept (h.keep rfl (endsAt_isHead (isHead_of_isOsHead ho))
      (by simp [h.reads, Reading.next, ho]))
  split
  · next ho hb =>
    exact .kept (h.keep rfl (endsAt_isHead (isHead_of_isBootHead hb))
      (by simp [h.reads, Reading.next, ho, hb]))
  split
  · next ho hb hh =>
    exact .kept (h.keep rfl (endsAt_isHead hh) (by simp [h.reads, Reading.next, ho, hb, hh]))
  split
  · next ho hb hh ht =>
    split
    · next hbh => exact .removed (h.remove ht (by simpa using hh) (by simpa using hbh))
    · next hbh =>
      refine @Turned.kept _ _ _ _ _ _ (done ++ [timeoutLine]) ⟨?_, ?_, ?_, ?_, ?_⟩
      · simp [hset]
      · simp [h.length]
      · rw [kept_append, kept_append, h.keeps, kept_cons_timeout ht, kept_cons_timeout (by decide)]
      · simp_all [reading_append, h.reads, Reading.next]
      · exact h.runs.append (endsAt_isTimeout ht)
  split
  · next hn =>
    simp only [Bool.and_eq_true] at hn
    exact .ended (by simp [endsAt, h.reads, hn]) h.keeps (by simp [hset, hn])
  split
  · next hn hb =>
    simp only [Bool.and_eq_true] at hb
    refine .ended (by simp [endsAt, h.reads, hb]) h.keeps ?_
    have hn' : names info.loaderPath line = false := by simpa [hb] using hn
    simp [h.lines, ← h.length, hn', insertIdx_length]
  · next ho hb hh ht hn hbl =>
    exact .kept (h.keep rfl (by simp_all [endsAt, h.reads])
      (by simp [h.reads, Reading.next, ho, hb, hh, ht]))

theorem loop_of_length_le {s : Scan} (h : s.lines.length ≤ i) :
    Scan.loop bootLine oldLine fuel i s = s := by
  cases fuel with
  | zero => rfl
  | succ fuel => simp [Scan.loop, List.getElem?_eq_none h]

theorem loop_outcome {s : Scan} (h : s.At info before ahead done i) (hf : ahead.length ≤ fuel) :
    Outcome info (before ++ ahead) (Scan.loop info.bootLine info.loaderPath fuel i s) := by
  induction fuel generalizing s before ahead done i with
  | zero =>
    obtain rfl : ahead = [] := by simpa using hf
    exact .through (by simpa using h.runs) (by simpa [Scan.loop, h.lines] using h.keeps)
  | succ fuel ih =>
    cases ahead with
    | nil =>
      rw [loop_of_length_le (by simp [h.lines, h.length])]
      exact .through (by simpa using h.runs) (by simpa [h.lines] using h.keeps)
    | cons line ahead =>
      have hi : s.lines[i]? = some line := by simp [h.lines, ← h.length]
      have hf' : ahead.length ≤ fuel := by simpa using hf
      simp only [Scan.loop, hi]
      have ht := h.turn
      generalize s.turn info.bootLine info.loaderPath i line = t at ht
      cases ht with
      | kept h' => simpa using ih h' hf'
      | removed h' =>
        cases h' with
        | next ha h' =>
          subst ha
          simpa using ih h' (by simp at hf'; omega)
        | last ha hl hr hk =>
          subst ha
          simpa only [loop_of_length_le hl] using .through hr hk
      | ended he hk hl => exact .ended rfl h.runs he hk hl

/-! ## The boot line -/

/-- Does a line that follows `before` lie in the section `[operating systems]`? -/
def inSection (before : List Text) : Bool := ((before.filter isHead).getLast?).any isOsHead

/-- Exactly one line names the loader; it is the boot line and lies in the section
`[operating systems]`. -/
structure HasEntry (info : LoaderInfo) (lines : List Text) : Prop where
  unique : lines.filter (names info.loaderPath) = [info.bootLine]
  inSection : ∃ before after, lines = before ++ info.bootLine :: after ∧ inSection before

/-- The boot line goes to the right place: the line that ends the loop lies in the section
`[operating systems]` and no other line names the loader, or no line ends the loop but the text has
the boot line already. -/
inductive WellPlaced (info : LoaderInfo) (lines : List Text) : Prop where
  | ended {before line after} : lines = before ++ line :: after →
    RunsThrough info.loaderPath before → endsAt info.loaderPath before line →
    inSection before → (∀ l ∈ before ++ after, names info.loaderPath l = false) →
    WellPlaced info lines
  | through : RunsThrough info.loaderPath lines → HasEntry info lines → WellPlaced info lines

theorem filter_kept {p : Text → Bool} (hp : ∀ l, p l → isTimeout l = false) (lines : List Text) :
    (kept lines).filter p = lines.filter p := by
  rw [kept, List.filter_filter]
  refine List.filter_congr fun l _ => ?_
  cases h : p l with
  | false => rfl
  | true => simp [hp l h]

theorem not_isTimeout_of_names (h : names (LoaderInfo.loaderPath info) line) :
    isTimeout line = false := by
  cases ht : isTimeout line with
  | false => rfl
  | true => exact absurd ((initial_of_names h).symm.trans (initial_of_isTimeout ht)) (by decide)

theorem not_isTimeout_of_isHead (h : isHead line) : isTimeout line = false := by
  cases ht : isTimeout line with
  | false => rfl
  | true => exact absurd ((isHead_iff.mp h).symm.trans (initial_of_isTimeout ht)) (by decide)

theorem inSection_congr (h : kept l = kept l') : inSection l = inSection l' := by
  have hp : ∀ l, isHead l → isTimeout l = false := fun _ => not_isTimeout_of_isHead
  rw [inSection, inSection, ← filter_kept hp l, h, filter_kept hp]

theorem filter_names_congr (info : LoaderInfo) (h : kept l = kept l') :
    l.filter (names info.loaderPath) = l'.filter (names info.loaderPath) := by
  have hp : ∀ l, names info.loaderPath l → isTimeout l = false := fun _ => not_isTimeout_of_names
  rw [← filter_kept hp l, h, filter_kept hp]

theorem HasEntry.of_kept {info : LoaderInfo} (h : HasEntry info lines)
    (hk : kept lines = kept lines') : HasEntry info lines' := by
  obtain ⟨hu, before, after, rfl, hs⟩ := h
  refine ⟨(filter_names_congr info hk).symm.trans hu, ?_⟩
  have hb : isTimeout info.bootLine = false := not_isTimeout_of_names (names_bootLine info)
  rw [kept_append, kept, kept, List.filter_cons_of_pos (by simp [hb]), eq_comm] at hk
  obtain ⟨before', l, rfl, hb', hl⟩ := List.filter_eq_append_iff.mp hk
  obtain ⟨m, after', rfl, hm, -, -⟩ := List.filter_eq_cons_iff.mp hl
  refine ⟨before' ++ m, after', by simp, (inSection_congr ?_).trans hs⟩
  have : kept m = [] := by simpa [kept] using hm
  rw [kept_append, this, List.append_nil]
  exact hb'

theorem hasEntry_bootHead_cons {info : LoaderInfo} :
    HasEntry info (bootHead :: lines) ↔ HasEntry info lines := by
  have hn : names info.loaderPath bootHead = false := by
    cases h : names info.loaderPath bootHead with
    | false => rfl
    | true => exact absurd (initial_of_names h) (by decide)
  have hsec (before : List Text) : inSection (bootHead :: before) = inSection before := by
    rw [inSection, inSection, List.filter_cons_of_pos (by decide), List.getLast?_cons]
    cases (before.filter isHead).getLast? with
    | none => decide
    | some l => rfl
  constructor
  · rintro ⟨hu, before, after, hl, hs⟩
    rw [List.filter_cons_of_neg (by simp [hn])] at hu
    cases before with
    | nil =>
      simp only [List.nil_append, List.cons.injEq] at hl
      exact absurd (hl.1 ▸ names_bootLine info) (by simp [hn])
    | cons l before =>
      simp only [List.cons_append, List.cons.injEq] at hl
      obtain ⟨rfl, hl⟩ := hl
      exact ⟨hu, before, after, hl, (hsec _).symm.trans hs⟩
  · rintro ⟨hu, before, after, rfl, hs⟩
    exact ⟨by rwa [List.filter_cons_of_neg (by simp [hn])], bootHead :: before, after, rfl,
      (hsec _).trans hs⟩

theorem kept_insertIdx (h : isTimeout line) (i : Nat) (l : List Text) :
    kept (l.insertIdx i line) = kept l := by
  induction l generalizing i with
  | nil => cases i with
    | zero => exact kept_cons_timeout h
    | succ i => rfl
  | cons x l ih => cases i with
    | zero => exact kept_cons_timeout h
    | succ i =>
      rw [List.insertIdx_succ_cons, ← List.singleton_append, kept_append, ih, ← kept_append]
      rfl

theorem hasEntry_head {info : LoaderInfo} (s : Scan) :
    HasEntry info s.head ↔ HasEntry info s.lines := by
  unfold Scan.head
  split
  · refine Iff.trans ?_ hasEntry_bootHead_cons
    have hk : kept ((s.lines.insertIdx 0 bootHead).insertIdx 1 timeoutLine) =
        kept (bootHead :: s.lines) := kept_insertIdx (by decide) ..
    exact ⟨fun h => h.of_kept hk, fun h => h.of_kept hk.symm⟩
  split
  · have hk : kept (s.lines.insertIdx (s.bootLoaderPos + 1) timeoutLine) = kept s.lines :=
      kept_insertIdx (by decide) ..
    exact ⟨fun h => h.of_kept hk, fun h => h.of_kept hk.symm⟩
  · rfl

/-- At most one line ends the loop. -/
theorem RunsThrough.unique (h : RunsThrough path before) (h' : RunsThrough path before')
    (he : endsAt path before line) (he' : endsAt path before' line')
    (heq : before ++ line :: after = before' ++ line' :: after') :
    before = before' ∧ line = line' ∧ after = after' := by
  rcases List.append_eq_append_iff.mp heq with ⟨l, rfl, hl⟩ | ⟨l, rfl, hl⟩
  · cases l with
    | nil => simpa using hl
    | cons x l =>
      obtain ⟨rfl, -⟩ : line = x ∧ _ := by simpa using hl
      simp [h' _ _ _ rfl] at he
  · cases l with
    | nil => simpa [eq_comm] using hl
    | cons x l =>
      obtain ⟨rfl, -⟩ : line' = x ∧ _ := by simpa using hl
      simp [h _ _ _ rfl] at he'

theorem filter_eq_singleton_iff {p : α → Bool} {before after : List α} (hx : p x) :
    (before ++ x :: after).filter p = [x] ↔ ∀ y ∈ before ++ after, p y = false := by
  rw [List.filter_append, List.filter_cons_of_pos hx, List.append_eq_singleton_iff]
  simp [List.filter_eq_nil_iff, or_imp, forall_and]

theorem Outcome.hasEntry_iff {info : LoaderInfo} {s : Scan} (h : Outcome info lines s) :
    HasEntry info s.lines ↔ WellPlaced info lines := by
  have hboot := names_bootLine info
  cases h with
  | through hr hk =>
    refine ⟨fun he => .through hr (he.of_kept hk), fun hw => ?_⟩
    cases hw with
    | ended hl _ he => simp [hr _ _ _ hl] at he
    | through _ he => exact he.of_kept hk.symm
  | @ended before line after done hl hr hend hk hs =>
    have hrest : (∀ l ∈ done ++ (if names info.loaderPath line then after else line :: after),
        names info.loaderPath l = false) ↔
        ∀ l ∈ before ++ after, names info.loaderPath l = false := by
      have hf := filter_names_congr info hk
      have hd : (∀ l ∈ done, names info.loaderPath l = false) ↔
          ∀ l ∈ before, names info.loaderPath l = false := by
        simpa [List.filter_eq_nil_iff] using Iff.of_eq (congrArg (· = []) hf)
      have ha : (∀ l ∈ (if names info.loaderPath line then after else line :: after),
          names info.loaderPath l = false) ↔ ∀ l ∈ after, names info.loaderPath l = false := by
        split
        · rfl
        · next hn => simp [hn]
      simp only [List.mem_append, or_imp, forall_and, hd, ha]
    constructor
    · rintro ⟨hu, b, a, hba, hsec⟩
      have hu' := (filter_eq_singleton_iff hboot).mp (hs ▸ hu)
      refine .ended hl hr hend ?_ (hrest.mp hu')
      have hno (hm : info.bootLine ∈
          done ++ if names info.loaderPath line then after else line :: after) : False := by
        simp [hu' _ hm] at hboot
      obtain ⟨rfl, -⟩ := (List.append_cons_inj_of_notMem (fun hm => hno (List.mem_append_left _ hm))
        (fun hm => hno (List.mem_append_right _ hm))).mp (hs.symm.trans hba)
      exact (inSection_congr hk).symm.trans hsec
    · intro hw
      cases hw with
      | through hr' => simp [hr' _ _ _ hl] at hend
      | ended hl' hr' hend' hsec hno =>
        obtain ⟨rfl, rfl, rfl⟩ := hr.unique hr' hend hend' (hl.symm.trans hl')
        refine ⟨?_, done, _, hs, (inSection_congr hk).trans hsec⟩
        rw [hs]
        exact (filter_eq_singleton_iff hboot).mpr (hrest.mpr hno)

theorem forall_mem_insertIdx {P : α → Prop} {l : List α} (hx : P x) (h : ∀ y ∈ l, P y) :
    ∀ y ∈ l.insertIdx i x, P y := by
  intro y hy
  rcases Nat.lt_or_ge l.length i with hi | hi
  · rw [List.insertIdx_of_length_lt hi] at hy
    exact h y hy
  · rcases (List.mem_insertIdx hi).mp hy with rfl | hy
    · exact hx
    · exact h y hy

theorem forall_mem_set {P : α → Prop} {l : List α} (hx : P x) (h : ∀ y ∈ l, P y) :
    ∀ y ∈ l.set i x, P y := by
  intro y hy
  rcases List.mem_or_eq_of_mem_set hy with hy | rfl
  · exact h y hy
  · exact hx

def Turn.scan : Turn → Scan
  | .next s | .done s => s

theorem forall_mem_turn {P : Text → Prop} {s : Scan} (hb : P bootLine) (ht : P timeoutLine)
    (h : ∀ l ∈ s.lines, P l) : ∀ l ∈ (s.turn bootLine oldLine i line).scan.lines, P l := by
  unfold Scan.turn
  split
  · exact h
  split
  · exact h
  split
  · exact h
  split
  · split
    · exact fun l hl => h l (List.mem_of_mem_erase hl)
    · exact forall_mem_set ht h
  split
  · exact forall_mem_set hb h
  split
  · exact forall_mem_insertIdx hb h
  · exact h

/-- Every line of the result is one of the text or one of the three that `modify_bootini`
writes. -/
theorem forall_mem_loop {P : Text → Prop} {s : Scan} (hb : P bootLine) (ht : P timeoutLine)
    (h : ∀ l ∈ s.lines, P l) : ∀ l ∈ (Scan.loop bootLine oldLine fuel i s).lines, P l := by
  induction fuel generalizing i s with
  | zero => exact h
  | succ fuel ih =>
    unfold Scan.loop
    cases s.lines[i]? with
    | none => exact h
    | some line =>
      have hturn : ∀ l ∈ (s.turn bootLine oldLine i line).scan.lines, P l :=
        forall_mem_turn hb ht h
      cases hs : s.turn bootLine oldLine i line with
      | next s' =>
        simp only [hs] at hturn ⊢
        exact ih hturn
      | done s' =>
        simp only [hs] at hturn ⊢
        exact hturn

theorem forall_mem_modifyLines {P : Text → Prop} (hb : P bootLine) (hh : P bootHead)
    (ht : P timeoutLine) (h : ∀ l ∈ lines, P l) : ∀ l ∈ modifyLines bootLine oldLine lines, P l := by
  have hl : ∀ l ∈ (Scan.loop bootLine oldLine lines.length 0 { lines }).lines, P l :=
    forall_mem_loop hb ht h
  unfold modifyLines Scan.head
  split
  · exact forall_mem_insertIdx ht (forall_mem_insertIdx hh hl)
  split
  · exact forall_mem_insertIdx ht hl
  · exact hl

theorem HasEntry.mem {info : LoaderInfo} (h : HasEntry info lines) : info.bootLine ∈ lines := by
  obtain ⟨-, before, after, rfl, -⟩ := h
  simp

theorem hasEntry_lines_unlines {info : LoaderInfo} (h : ∀ l ∈ lines, '\n' ∉ l) :
    HasEntry info (Text.unlines lines).lines ↔ HasEntry info lines := by
  cases lines with
  | cons l lines => rw [Text.lines_unlines h (by simp)]
  | nil =>
    constructor
    · intro he
      obtain he : info.bootLine = [] := by simpa [Text.unlines, Text.lines] using he.mem
      simpa [he, initial, Text.strip, Text.lstrip, Text.rstrip, Text.lower] using
        initial_of_names (names_bootLine info)
    · exact fun he => absurd he.mem (by simp)

theorem modifyBootini_of_readLines (info : LoaderInfo) (h : readLines content = some lines) :
    modifyBootini info content =
      some (Text.unlines (modifyLines info.bootLine info.loaderPath lines)) := by
  rw [modifyBootini, h, info.oldLine_eq]
  rfl

/-- The text that `modify_bootini` writes has the boot entry exactly when the name is one line and
the boot line goes to the right place. -/
theorem modifyBootini_hasEntry_iff (info : LoaderInfo) (content : Text) (h : content ≠ []) :
    ∃ lines out, readLines content = some lines ∧ modifyBootini info content = some out ∧
      (HasEntry info out.lines ↔ '\n' ∉ info.distroName ∧ WellPlaced info lines) := by
  obtain ⟨lines, hlines, hn⟩ : ∃ lines, readLines content = some lines ∧ ∀ l ∈ lines, '\n' ∉ l := by
    unfold readLines
    cases hc : content.getLast? with
    | none => simp_all
    | some c => exact ⟨_, rfl, fun l hl => Text.not_mem_of_mem_lines hl⟩
  refine ⟨lines, _, hlines, modifyBootini_of_readLines info hlines, ?_⟩
  by_cases hname : '\n' ∈ info.distroName
  · refine ⟨fun he => ?_, fun hw => absurd hname hw.1⟩
    exact absurd (info.newline_mem_bootLine.mpr hname) (Text.not_mem_of_mem_lines he.mem)
  · have hat : ({ lines } : Scan).At info [] lines [] 0 := ⟨rfl, rfl, rfl, rfl, .nil⟩
    have hout : Outcome info lines
        (Scan.loop info.bootLine info.loaderPath lines.length 0 { lines }) :=
      loop_outcome hat (Nat.le_refl _)
    have hnew : ∀ l ∈ modifyLines info.bootLine info.loaderPath lines, '\n' ∉ l :=
      forall_mem_modifyLines (P := fun l => '\n' ∉ l) (mt info.newline_mem_bootLine.mp hname)
        (by decide) (by decide) hn
    rw [hasEntry_lines_unlines hnew, modifyLines, hasEntry_head, hout.hasEntry_iff]
    simp [hname]

private def loopInfo : LoaderInfo := { runTask := none, flag := true, distroName := "StartOS".toList }

/-- The final newline of the text is the blank line that the boot line goes before. -/
theorem modifyBootini_hasEntry_loop :
    ∃ out, modifyBootini loopInfo "[boot loader]\n[operating systems]\nC:\\=\"XP\"\n".toList = some out ∧
      HasEntry loopInfo out.lines := by
  obtain ⟨lines, out, hlines, hout, hiff⟩ := modifyBootini_hasEntry_iff loopInfo
    "[boot loader]\n[operating systems]\nC:\\=\"XP\"\n".toList (by decide)
  refine ⟨out, hout, hiff.mpr ⟨by decide, ?_⟩⟩
  have hread : readLines "[boot loader]\n[operating systems]\nC:\\=\"XP\"\n".toList =
      some (["[boot loader]".toList, "[operating systems]".toList, "C:\\=\"XP\"".toList] ++ [[]]) := by
    decide
  obtain rfl := Option.some.inj (hread.symm.trans hlines)
  refine .ended rfl ?_ (by decide) (by decide) (by decide)
  exact ((RunsThrough.nil.append (by decide)).append (by decide)).append (by decide)

/-- A timeout line before every `[boot loader]` header: while it is removed, the header of the
section moves into its place and is passed over, so that no boot line is written. -/
theorem modifyBootini_passedOver :
    ∃ content out, (Text.lines content).any isOsHead ∧ modifyBootini loopInfo content = some out ∧
      out.lines.filter (names loopInfo.loaderPath) = [] ∧ ¬ HasEntry loopInfo out.lines := by
  refine ⟨"timeout=30\n[operating systems]\nC:\\=\"XP\"\n".toList,
    "[boot loader]\ntimeout = 10\n[operating systems]\nC:\\=\"XP\"\n".toList,
    by decide, by decide, by decide, ?_⟩
  intro h
  exact absurd h.unique (by decide)

end Swinst.BootIni
