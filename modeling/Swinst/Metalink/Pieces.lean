import Mathlib.Data.List.Dedup
import Swinst.Metalink.Files

/-! The hashes of the pieces of a file: what one element `pieces` says of them, and what several of these
elements leave in `piece_hashes`. -/

namespace Swinst.Metalink

variable (u : Unicode)

/-- The numbers of the pieces with their hashes, in document order -/
def numbered (e : Xml.Element) : List (Text × Text) :=
  (below u ["hash"] e.children).filterMap fun hash =>
    (attr hash.attrs "piece").map fun piece => (piece, contentOf u hash)

/-- How many different numbers there are -/
def pieceCount (e : Xml.Element) : Nat := ((numbered u e).map (·.1)).dedup.length

/-- The hash of the piece `i`; of several the last one counts. -/
def pieceHash (e : Xml.Element) (i : Nat) : Option Text :=
  ((numbered u e).filter fun p => p.1 = Text.decimal i).getLast?.map (·.2)

/-- The hashes of the pieces `0`, …, `n - 1`, where there are `n` numbers; `none` if one is missing -/
def hashesOf (e : Xml.Element) : Option (List Text) := (List.range (pieceCount u e)).mapM (pieceHash u e)

/-- The type of the pieces of an element, the default of a file if it has none -/
def typeOf (e : Xml.Element) : Text := (attr e.attrs "type").getD "sha1".toList

def lengthOf (e : Xml.Element) : Int := (numberOf u "length" e).getD (-1)

/-- The piece hashes of a file are empty, or those of one of its elements `pieces`, from which the type and
the length come as well. -/
def FromOne (es : List Xml.Element) (f : MetalinkFile) : Prop :=
  f.pieceHashes = [] ∨ ∃ e ∈ es, hashesOf u e = some f.pieceHashes ∧ f.pieceType = typeOf e ∧
    f.pieceLength = lengthOf u e

/-! ## The dictionary -/

theorem lookup_cons_eq (d : Attributes) (k v k' : Text) :
    List.lookup k' ((k, v) :: d) = if k' = k then some v else d.lookup k' := by
  by_cases hk : k' = k
  · simp [hk]
  · have hne : (k' == k) = false := beq_eq_false_iff_ne.mpr hk
    rw [List.lookup_cons, hne, if_neg hk]

theorem lookup_filter_ne {d : Attributes} {k k' : Text} (hk : k' ≠ k) :
    (d.filter (·.1 ≠ k)).lookup k' = d.lookup k' := by
  induction d with
  | nil => rfl
  | cons p d ih =>
    rw [List.filter_cons, lookup_cons_eq]
    by_cases hp : p.1 = k
    · rw [if_neg (by simpa using hp), ih, if_neg (hp ▸ hk)]
    · rw [if_pos (by simpa using hp), lookup_cons_eq, ih]

theorem lookup_setItem (d : Attributes) (k v k' : Text) :
    (setItem d k v).lookup k' = if k' = k then some v else d.lookup k' := by
  rw [setItem, lookup_cons_eq]
  by_cases hk : k' = k
  · rw [if_pos hk, if_pos hk]
  · rw [if_neg hk, if_neg hk, lookup_filter_ne hk]

/-- A dictionary that was filled in some order holds the last value of each key. -/
theorem lookup_foldl_setItem (l : List (Text × Text)) (k : Text) :
    (l.foldl (fun d p => setItem d p.1 p.2) []).lookup k =
      (l.filter fun p => p.1 = k).getLast?.map (·.2) := by
  induction l using List.reverseRecOn with
  | nil => rfl
  | append_singleton l p ih =>
    rw [List.foldl_concat, lookup_setItem, ih, List.filter_append]
    by_cases hk : k = p.1
    · simp [hk]
    · have hk' : p.1 ≠ k := fun h => hk h.symm
      simp [hk, hk']

/-- Its keys are those that were set, each once. -/
theorem keys_foldl_setItem (l : List (Text × Text)) :
    ((l.foldl (fun d p => setItem d p.1 p.2) []).map (·.1)).Nodup ∧
      ∀ k, k ∈ (l.foldl (fun d p => setItem d p.1 p.2) []).map (·.1) ↔ k ∈ l.map (·.1) := by
  induction l using List.reverseRecOn with
  | nil => exact ⟨List.nodup_nil, fun _ => Iff.rfl⟩
  | append_singleton l p ih =>
    obtain ⟨hnodup, hmem⟩ := ih
    rw [List.foldl_concat]
    generalize l.foldl (fun d p => setItem d p.1 p.2) [] = d at hnodup hmem ⊢
    constructor
    · rw [setItem, List.map_cons, List.nodup_cons]
      refine ⟨fun hin => ?_, hnodup.sublist (List.filter_sublist.map _)⟩
      obtain ⟨q, hq, hqp⟩ := List.mem_map.mp hin
      simpa [hqp] using (List.mem_filter.mp hq).2
    · intro k
      have hset : k ∈ (setItem d p.1 p.2).map (·.1) ↔ k = p.1 ∨ k ∈ d.map (·.1) := by
        rw [setItem, List.map_cons, List.mem_cons]
        refine or_congr_right' fun hk => ?_
        simp only [List.mem_map, List.mem_filter]
        exact exists_congr fun q => and_congr_left fun hq => by simp [hq, hk]
      rw [hset, hmem, List.map_append, List.mem_append, List.map_singleton, List.mem_singleton, or_comm]

/-- `_pieces` at the end tag -/
def pieceDict (e : Xml.Element) : Attributes := (numbered u e).foldl (fun d p => setItem d p.1 p.2) []

theorem length_pieceDict (e : Xml.Element) : (pieceDict u e).length = pieceCount u e := by
  obtain ⟨hnodup, hmem⟩ := keys_foldl_setItem (numbered u e)
  have hperm : ((pieceDict u e).map (·.1)).Perm ((numbered u e).map (·.1)).dedup :=
    (List.perm_ext_iff_of_nodup hnodup (List.nodup_dedup _)).mpr fun k => by
      rw [List.mem_dedup]
      exact hmem k
  rw [pieceCount, ← hperm.length_eq, List.length_map]

/-! ## The end of an element -/

theorem addPieces_eq (pieces : Attributes) (is : List Nat) (pieceHashes : List Text) :
    addPieces pieces is pieceHashes =
      (is.mapM fun i : Nat => pieces.lookup (Text.decimal i)).elim [] (pieceHashes ++ ·) := by
  induction is generalizing pieceHashes with
  | nil => simp [addPieces]
  | cons i is ih =>
    rw [addPieces, List.mapM_cons]
    cases pieces.lookup (Text.decimal i) with
    | none => rfl
    | some piece =>
      dsimp only
      rw [ih]
      cases is.mapM fun i : Nat => pieces.lookup (Text.decimal i) with
      | none => rfl
      | some hashes => simp

/-- What the end tag of the element makes of `piece_hashes` -/
def addElement (pieceHashes : List Text) (e : Xml.Element) : List Text :=
  if (pieceDict u e).isEmpty then pieceHashes
  else addPieces (pieceDict u e) (List.range (pieceDict u e).length) pieceHashes

/-- The hashes are added, and without one of them all are gone. -/
theorem addElement_eq (pieceHashes : List Text) (e : Xml.Element) :
    addElement u pieceHashes e = (hashesOf u e).elim [] (pieceHashes ++ ·) := by
  have hlookup : (fun i : Nat => (pieceDict u e).lookup (Text.decimal i)) = pieceHash u e :=
    funext fun i => lookup_foldl_setItem (numbered u e) (Text.decimal i)
  rw [addElement, addPieces_eq, hlookup, length_pieceDict, hashesOf]
  split
  · next hempty =>
    rw [List.isEmpty_iff] at hempty
    rw [← length_pieceDict, hempty]
    simp
  · rfl

/-! ## Several elements -/

/-- A list to which some items add their own list, while others empty it -/
theorem foldl_reset {α β : Type} (f : α → Option (List β)) (as : List α) :
    as.foldl (fun acc a => (f a).elim [] (acc ++ ·)) [] =
      (as.rtakeWhile fun a => (f a).isSome).flatMap fun a => (f a).getD [] := by
  induction as using List.reverseRecOn with
  | nil => rfl
  | append_singleton as a ih =>
    rw [List.foldl_concat, ih]
    cases ha : f a with
    | none => rw [List.rtakeWhile_concat_neg _ _ _ (by simp [ha]), Option.elim_none, List.flatMap_nil]
    | some bs =>
      rw [List.rtakeWhile_concat_pos _ _ _ (by simp [ha]), List.flatMap_append, Option.elim_some]
      simp [ha]

/-- No piece is missing. -/
def isComplete (e : Xml.Element) : Bool := (hashesOf u e).isSome

/-- The elements whose hashes come together: those with hashes, after the last one in which a piece is
missing -/
def contributors (es : List Xml.Element) : List Xml.Element :=
  (es.rtakeWhile (isComplete u)).filter fun e => (hashesOf u e).getD [] ≠ []

/-- All their hashes -/
def contributed (es : List Xml.Element) : List Text :=
  (contributors u es).flatMap fun e => (hashesOf u e).getD []

/-- What a list of elements leaves in `piece_hashes` -/
def collected (es : List Xml.Element) : List Text := es.foldl (addElement u) []

theorem collected_eq (es : List Xml.Element) : collected u es = contributed u es := by
  have hfold : collected u es = es.foldl (fun acc e => (hashesOf u e).elim [] (acc ++ ·)) [] := by
    rw [collected]
    congr 1
    funext acc e
    exact addElement_eq u acc e
  rw [hfold, foldl_reset, contributed, contributors]
  change (es.rtakeWhile (isComplete u)).flatMap _ = _
  generalize es.rtakeWhile (isComplete u) = es
  induction es with
  | nil => rfl
  | cons e es ih =>
    rw [List.flatMap_cons, ih, List.filter_cons]
    split
    · rw [List.flatMap_cons]
    · next hnil =>
      have hnil : (hashesOf u e).getD [] = [] := by simpa using hnil
      rw [hnil, List.nil_append]

/-- The type and the length of the element are those of the file, for which the last ones count. -/
def Own (es : List Xml.Element) (e : Xml.Element) : Prop :=
  (es.filterMap fun e => attr e.attrs "type").getLastD "sha1".toList = typeOf e ∧
    (es.filterMap (numberOf u "length")).getLastD (-1) = lengthOf u e

/-- The hashes of no two elements come together, and the element that they come from also gives the type
and the length; or an element before one with a missing piece happens to have the same hashes. -/
def Unmixed (es : List Xml.Element) : Prop :=
  contributors u es = [] ∨ (∃ e, contributors u es = [e] ∧ Own u es e) ∨
    ∃ e ∈ es.rdropWhile (isComplete u), hashesOf u e = some (contributed u es) ∧ Own u es e

variable {u}

theorem mem_contributors {es : List Xml.Element} {e : Xml.Element} : e ∈ contributors u es ↔
    e ∈ es.rtakeWhile (isComplete u) ∧ (hashesOf u e).getD [] ≠ [] := by
  rw [contributors, List.mem_filter, decide_eq_true_eq]

theorem contributed_eq_nil_iff (es : List Xml.Element) : contributed u es = [] ↔ contributors u es = [] := by
  rw [contributed, List.flatMap_eq_nil_iff]
  constructor
  · intro h
    rw [List.eq_nil_iff_forall_not_mem]
    exact fun e he => (mem_contributors.mp he).2 (h e he)
  · intro h
    simp [h]

/-- An element whose hashes are all that come together is the only one that has any. -/
theorem eq_singleton_of_hashesOf {es : List Xml.Element} {e : Xml.Element} (he : e ∈ contributors u es)
    (hall : hashesOf u e = some (contributed u es)) : contributors u es = [e] := by
  have hempty {es' : List Xml.Element} (hsub : es' ⊆ contributors u es)
      (hnil : es'.flatMap (fun e => (hashesOf u e).getD []) = []) : es' = [] := by
    rw [List.flatMap_eq_nil_iff] at hnil
    rw [List.eq_nil_iff_forall_not_mem]
    exact fun e' he' => (mem_contributors.mp (hsub he')).2 (hnil e' he')
  obtain ⟨before, after, hsplit⟩ := List.append_of_mem he
  have hlen : (contributed u es).length =
      ((contributors u es).flatMap fun e => (hashesOf u e).getD []).length := rfl
  rw [hsplit, List.flatMap_append, List.flatMap_cons, hall, Option.getD_some, List.length_append,
    List.length_append] at hlen
  have hbefore : before = [] := hempty (by simp [hsplit]) (List.eq_nil_of_length_eq_zero (by omega))
  have hafter : after = [] := hempty (by simp [hsplit]) (List.eq_nil_of_length_eq_zero (by omega))
  rw [hsplit, hbefore, hafter, List.nil_append]

/-- A file with what its elements leave -/
theorem fromOne_iff {es : List Xml.Element} {f : MetalinkFile} (hhashes : f.pieceHashes = collected u es)
    (htype : f.pieceType = (es.filterMap fun e => attr e.attrs "type").getLastD "sha1".toList)
    (hlength : f.pieceLength = (es.filterMap (numberOf u "length")).getLastD (-1)) :
    FromOne u es f ↔ Unmixed u es := by
  rw [FromOne, hhashes, htype, hlength, collected_eq, contributed_eq_nil_iff, Unmixed]
  refine or_congr_right' fun hne => ?_
  constructor
  · rintro ⟨e, he, hall, hown⟩
    rw [← List.rdropWhile_append_rtakeWhile (p := isComplete u) (l := es), List.mem_append] at he
    rcases he with he | he
    · exact .inr ⟨e, he, hall, hown⟩
    · have hmem : e ∈ contributors u es := by
        refine mem_contributors.mpr ⟨he, ?_⟩
        rw [hall, Option.getD_some]
        exact mt (contributed_eq_nil_iff es).mp hne
      exact .inl ⟨e, eq_singleton_of_hashesOf hmem hall, hown⟩
  · rintro (⟨e, hone, hown⟩ | ⟨e, he, hall, hown⟩)
    · have hmem := mem_contributors.mp (hone ▸ List.mem_singleton_self e)
      have hcomplete : isComplete u e = true := List.mem_rtakeWhile_imp hmem.1
      obtain ⟨hashes, hhashes⟩ := Option.isSome_iff_exists.mp hcomplete
      refine ⟨e, (List.rtakeWhile_suffix _ _).subset hmem.1, ?_, hown⟩
      rw [contributed, hone, hhashes]
      simp [hhashes]
    · exact ⟨e, (List.rdropWhile_prefix _ _).subset he, hall, hown⟩

end Swinst.Metalink
