import Mathlib.Data.Finset.Insert
import Mathlib.Data.Finset.Lattice.Lemmas
import Swinst.Data.PyText

/-! The objects of a Python program, as far as they are dictionaries of objects and sets: dictionaries that are
nested to a depth, with sets in the innermost. A path is written innermost key first. -/

namespace Swinst

abbrev Address := Nat

inductive PyObject (κ η : Type) where
  | dict (entries : List (κ × Address))
  | set (elements : Finset η)

/-- The objects by their addresses; none is ever deleted. -/
abbrev PyHeap (κ η : Type) := List (PyObject κ η)

namespace PyHeap

variable {κ η : Type}

def dict? (heap : PyHeap κ η) (a : Address) : Except PyError (List (κ × Address)) :=
  match heap[a]? with
  | some (.dict entries) => .ok entries
  | _ => .error .attributeError

def set? (heap : PyHeap κ η) (a : Address) : Except PyError (Finset η) :=
  match heap[a]? with
  | some (.set elements) => .ok elements
  | _ => .error .attributeError

/-- `s.add(x)` -/
def add [DecidableEq η] (heap : PyHeap κ η) (s : Address) (x : η) : Except PyError (PyHeap κ η) := do
  return heap.set s (.set (insert x (← heap.set? s)))

/-- `s |= t` -/
def update [DecidableEq η] (heap : PyHeap κ η) (s t : Address) : Except PyError (PyHeap κ η) := do
  return heap.set s (.set ((← heap.set? s) ∪ (← heap.set? t)))

/-- The object that is made for a place in dictionaries of this depth -/
def newAt (depth : Nat) (path : List κ) : PyObject κ η := if path.length < depth then .dict [] else .set ∅

theorem dict?_eq {heap : PyHeap κ η} {a : Address} {entries : List (κ × Address)}
    (h : heap[a]? = some (.dict entries)) : heap.dict? a = .ok entries := by rw [dict?, h]

theorem set?_eq {heap : PyHeap κ η} {a : Address} {elements : Finset η}
    (h : heap[a]? = some (.set elements)) : heap.set? a = .ok elements := by rw [set?, h]

variable [DecidableEq κ]

/-- `d.get(key, default)` -/
def get (heap : PyHeap κ η) (d : Address) (key : κ) (default : Address) : Except PyError Address := do
  return ((← heap.dict? d).lookup key).getD default

/-- `d.setdefault(key, default)`, where `default` makes a new object -/
def setdefault (heap : PyHeap κ η) (d : Address) (key : κ) (default : PyObject κ η) :
    Except PyError (Address × PyHeap κ η) := do
  let new := heap.length
  let heap := heap ++ [default]
  let entries ← heap.dict? d
  match entries.lookup key with
  | some a => return (a, heap)
  | none => return (new, heap.set d (.dict ((key, new) :: entries)))

/-! ## Paths -/

def child (heap : PyHeap κ η) (d : Address) (key : κ) : Option Address :=
  match heap[d]? with
  | some (.dict entries) => entries.lookup key
  | _ => none

variable (heap : PyHeap κ η) (root : Address)

def addressAt : List κ → Option Address
  | [] => some root
  | key :: path => (addressAt path).bind (heap.child · key)

def contentAt (path : List κ) : Finset η :=
  match (heap.addressAt root path).bind (heap[·]?) with
  | some (.set elements) => elements
  | _ => ∅

/-- The dictionaries at the paths shorter than `depth`, and the sets at those of this length, are different
objects. -/
structure Nested (depth : Nat) : Prop where
  dicts : ∀ {path a}, heap.addressAt root path = some a → path.length < depth →
    ∃ entries, heap[a]? = some (.dict entries)
  sets : ∀ {path a}, heap.addressAt root path = some a → depth ≤ path.length →
    path.length = depth ∧ ∃ elements, heap[a]? = some (.set elements)
  inj : ∀ {path path' a}, heap.addressAt root path = some a → heap.addressAt root path' = some a → path = path'

variable {heap root} {heap' : PyHeap κ η} {depth : Nat} {path : List κ} {key : κ} {a : Address}

theorem child_eq {entries : List (κ × Address)} (h : heap[a]? = some (.dict entries)) :
    heap.child a key = entries.lookup key := by rw [child, h]

theorem child_congr (h : heap'[a]? = heap[a]?) : heap'.child a key = heap.child a key := by
  rw [child, child, h]

theorem contentAt_eq {elements : Finset η} (ha : heap.addressAt root path = some a)
    (h : heap[a]? = some (.set elements)) : heap.contentAt root path = elements := by
  rw [contentAt, ha, Option.bind_some, h]

theorem contentAt_of_dict {entries : List (κ × Address)} (ha : heap.addressAt root path = some a)
    (h : heap[a]? = some (.dict entries)) : heap.contentAt root path = ∅ := by
  rw [contentAt, ha, Option.bind_some, h]

theorem contentAt_of_none (ha : heap.addressAt root path = none) : heap.contentAt root path = ∅ := by
  rw [contentAt, ha, Option.bind_none]

/-- Where the dictionaries at the paths have the same entries, the paths are the same. -/
theorem addressAt_of_child
    (hchild : ∀ path a, heap.addressAt root path = some a → ∀ key, heap'.child a key = heap.child a key)
    (path : List κ) : heap'.addressAt root path = heap.addressAt root path := by
  induction path with
  | nil => rfl
  | cons key path ih =>
    rw [addressAt, addressAt, ih]
    cases ha : heap.addressAt root path with
    | none => rfl
    | some a => exact hchild path a ha key

section Same

variable (hsame : ∀ path a, heap.addressAt root path = some a → heap'[a]? = heap[a]?)

include hsame

theorem addressAt_congr (path : List κ) : heap'.addressAt root path = heap.addressAt root path :=
  addressAt_of_child (fun path a ha _ => child_congr (hsame path a ha)) path

theorem contentAt_congr (path : List κ) : heap'.contentAt root path = heap.contentAt root path := by
  rw [contentAt, contentAt, addressAt_congr hsame]
  cases ha : heap.addressAt root path with
  | none => rfl
  | some a => rw [Option.bind_some, Option.bind_some, hsame path a ha]

theorem Nested.congr (h : heap.Nested root depth) : heap'.Nested root depth where
  dicts ha hlt := by
    rw [addressAt_congr hsame] at ha
    rw [hsame _ _ ha]
    exact h.dicts ha hlt
  sets ha hge := by
    rw [addressAt_congr hsame] at ha
    rw [hsame _ _ ha]
    exact h.sets ha hge
  inj ha ha' := by
    rw [addressAt_congr hsame] at ha ha'
    exact h.inj ha ha'

end Same

namespace Nested

theorem lt_length (h : heap.Nested root depth) (ha : heap.addressAt root path = some a) : a < heap.length := by
  rcases Nat.lt_or_ge path.length depth with hlt | hge
  · obtain ⟨entries, hentries⟩ := h.dicts ha hlt
    exact (List.getElem?_eq_some_iff.mp hentries).1
  · obtain ⟨-, elements, helements⟩ := h.sets ha hge
    exact (List.getElem?_eq_some_iff.mp helements).1

theorem same_append (h : heap.Nested root depth) (objs : PyHeap κ η) (path : List κ) (a : Address)
    (ha : heap.addressAt root path = some a) : (heap ++ objs)[a]? = heap[a]? :=
  List.getElem?_append_left (h.lt_length ha)

/-! ## A new object -/

omit [DecidableEq κ] in
theorem newAt_eq (depth : Nat) (path : List κ) : (newAt depth path : PyObject κ η) = .dict [] ∨
    (newAt depth path : PyObject κ η) = .set ∅ := by
  rw [newAt]
  split
  · exact .inl rfl
  · exact .inr rfl

theorem child_newAt (h : heap[a]? = some (newAt depth path)) : heap.child a key = none := by
  rw [child, h]
  rcases newAt_eq (η := η) depth path with heq | heq
  · rw [heq]
    rfl
  · rw [heq]

theorem contentAt_newAt {p : List κ} (ha : heap.addressAt root p = some a)
    (h : heap[a]? = some (newAt depth path)) : heap.contentAt root p = ∅ := by
  rcases newAt_eq (η := η) depth path with heq | heq
  · exact contentAt_of_dict ha (heq ▸ h)
  · exact contentAt_eq ha (heq ▸ h)

section Init

variable (depth : Nat)

/-- One object has only the empty path. -/
theorem path_init (ha : addressAt ([newAt depth []] : PyHeap κ η) 0 path = some a) : path = [] ∧ a = 0 := by
  induction path generalizing a with
  | nil => exact ⟨rfl, (Option.some.inj ha).symm⟩
  | cons key path ih =>
    obtain ⟨b, hb, hchild⟩ := Option.bind_eq_some_iff.mp ha
    obtain ⟨rfl, rfl⟩ := ih hb
    have hroot : ([newAt depth []] : PyHeap κ η)[0]? = some (newAt depth []) := rfl
    rw [child_newAt hroot] at hchild
    cases hchild

theorem init : Nested ([newAt depth []] : PyHeap κ η) 0 depth := by
  have hroot : ([newAt depth []] : PyHeap κ η)[0]? = some (newAt depth []) := rfl
  constructor
  · intro path a ha hlt
    obtain ⟨rfl, rfl⟩ := path_init depth ha
    exact ⟨[], by rw [hroot, newAt, if_pos hlt]⟩
  · intro path a ha hge
    obtain ⟨rfl, rfl⟩ := path_init depth ha
    exact ⟨(Nat.le_zero.mp hge).symm, ∅, by rw [hroot, newAt, if_neg (Nat.not_lt.mpr hge)]⟩
  · intro path path' a ha ha'
    rw [(path_init depth ha).1, (path_init depth ha').1]

theorem contentAt_init (path : List κ) : contentAt ([newAt depth []] : PyHeap κ η) 0 path = ∅ := by
  cases ha : addressAt ([newAt depth []] : PyHeap κ η) 0 path with
  | none => exact contentAt_of_none ha
  | some a =>
    obtain ⟨-, rfl⟩ := path_init depth ha
    exact contentAt_newAt ha rfl

end Init

section Insert

/-- The heap in which a new object has been put into a dictionary -/
def inserted (heap : PyHeap κ η) (d : Address) (entries : List (κ × Address)) (key : κ) (obj : PyObject κ η) :
    PyHeap κ η := (heap ++ [obj]).set d (.dict ((key, heap.length) :: entries))

variable {obj : PyObject κ η} {entries : List (κ × Address)} {b : Address} {k : κ}

omit [DecidableEq κ] in
theorem getElem?_inserted (hb : b ≠ heap.length) (hba : b ≠ a) : (inserted heap a entries key obj)[b]? = heap[b]? := by
  rw [inserted, List.getElem?_set_ne hba.symm]
  rcases Nat.lt_or_ge b heap.length with hlt | hge
  · exact List.getElem?_append_left hlt
  · have hlen : (heap ++ [obj]).length ≤ b := by
      rw [List.length_append, List.length_singleton]
      exact Nat.lt_of_le_of_ne hge hb.symm
    rw [List.getElem?_eq_none hge, List.getElem?_eq_none hlen]

omit [DecidableEq κ] in
theorem getElem?_inserted_dict (ha : a < heap.length) :
    (inserted heap a entries key obj)[a]? = some (.dict ((key, heap.length) :: entries)) := by
  rw [inserted, List.getElem?_set_self]
  rw [List.length_append]
  exact ha.trans_le (Nat.le_add_right ..)

omit [DecidableEq κ] in
theorem getElem?_inserted_new (ha : a < heap.length) : (inserted heap a entries key obj)[heap.length]? = some obj := by
  rw [inserted, List.getElem?_set_ne ha.ne, List.getElem?_concat_length]

variable (h : heap.Nested root depth) (ha : heap.addressAt root path = some a)
  (hentries : heap[a]? = some (.dict entries)) (hnone : entries.lookup key = none)

include h ha hentries hnone

/-- There is one path more. -/
theorem addressAt_inserted (p : List κ) :
    (inserted heap a entries key (newAt depth (key :: path))).addressAt root p =
      if p = key :: path then some heap.length else heap.addressAt root p := by
  have hlt := h.lt_length ha
  have hno : heap.addressAt root (key :: path) = none := by
    rw [addressAt, ha, Option.bind_some, child_eq hentries, hnone]
  induction p with
  | nil => rfl
  | cons k p ih =>
    rw [addressAt, ih]
    by_cases hp : p = key :: path
    · subst hp
      rw [if_pos rfl, Option.bind_some, child_newAt (getElem?_inserted_new hlt), if_neg (by simp), addressAt, hno,
        Option.bind_none]
    · rw [if_neg hp, addressAt]
      cases hb : heap.addressAt root p with
      | none =>
        have hne : k :: p ≠ key :: path := by
          intro heq
          rw [(List.cons.inj heq).2, ha] at hb
          cases hb
        rw [if_neg hne, Option.bind_none, Option.bind_none]
      | some b =>
        rw [Option.bind_some, Option.bind_some]
        by_cases hba : b = a
        · subst hba
          obtain rfl := h.inj hb ha
          rw [child_eq (getElem?_inserted_dict hlt), child_eq hentries, List.lookup_cons]
          by_cases hk : k = key
          · subst hk
            simp
          · have hbeq : (k == key) = false := beq_eq_false_iff_ne.mpr hk
            simp [hbeq, hk]
        · have hne : k :: p ≠ key :: path := by
            intro heq
            obtain rfl := (List.cons.inj heq).2
            exact hba (Option.some.inj (hb.symm.trans ha))
          rw [if_neg hne, child_congr (getElem?_inserted (h.lt_length hb).ne hba)]

theorem nested_inserted (hlt : path.length < depth) :
    (inserted heap a entries key (newAt depth (key :: path))).Nested root depth := by
  have haddress := addressAt_inserted h ha hentries hnone
  have hnew : (inserted heap a entries key (newAt depth (key :: path)))[heap.length]? =
      some (newAt depth (key :: path)) := getElem?_inserted_new (h.lt_length ha)
  have hold : ∀ {p b}, heap.addressAt root p = some b → b ≠ a →
      (inserted heap a entries key (newAt depth (key :: path)))[b]? = heap[b]? :=
    fun hb hba => getElem?_inserted (h.lt_length hb).ne hba
  constructor
  · intro p b hb hp
    rw [haddress] at hb
    split at hb
    · next heq =>
      obtain rfl := Option.some.inj hb
      rw [hnew, newAt, ← heq, if_pos hp]
      exact ⟨_, rfl⟩
    · by_cases hba : b = a
      · subst hba
        exact ⟨_, getElem?_inserted_dict (h.lt_length ha)⟩
      · rw [hold hb hba]
        exact h.dicts hb hp
  · intro p b hb hp
    rw [haddress] at hb
    split at hb
    · next heq =>
      obtain rfl := Option.some.inj hb
      rw [hnew, newAt, ← heq, if_neg (Nat.not_lt.mpr hp)]
      refine ⟨?_, _, rfl⟩
      rw [heq, List.length_cons] at hp ⊢
      exact Nat.le_antisymm hlt hp
    · have hba : b ≠ a := by
        rintro rfl
        rw [h.inj hb ha] at hp
        exact (Nat.not_lt.mpr hp) hlt
      rw [hold hb hba]
      exact h.sets hb hp
  · intro p p' b hb hb'
    rw [haddress] at hb hb'
    split at hb
    · next heq =>
      split at hb'
      · next heq' => rw [heq, heq']
      · exact ((h.lt_length hb').ne (Option.some.inj hb).symm).elim
    · split at hb'
      · exact ((h.lt_length hb).ne (Option.some.inj hb').symm).elim
      · exact h.inj hb hb'

theorem contentAt_inserted (p : List κ) :
    (inserted heap a entries key (newAt depth (key :: path))).contentAt root p = heap.contentAt root p := by
  have haddress := addressAt_inserted h ha hentries hnone p
  by_cases hp : p = key :: path
  · subst hp
    have hno : heap.addressAt root (key :: path) = none := by
      rw [addressAt, ha, Option.bind_some, child_eq hentries, hnone]
    rw [if_pos rfl] at haddress
    rw [contentAt_newAt haddress (getElem?_inserted_new (h.lt_length ha)), contentAt_of_none hno]
  · rw [if_neg hp] at haddress
    cases hb : heap.addressAt root p with
    | none => rw [contentAt_of_none (haddress.trans hb), contentAt_of_none hb]
    | some b =>
      by_cases hba : b = a
      · subst hba
        rw [contentAt_of_dict (haddress.trans hb) (getElem?_inserted_dict (h.lt_length ha)),
          contentAt_of_dict hb hentries]
      · rw [contentAt, contentAt, haddress, hb, Option.bind_some, Option.bind_some,
          getElem?_inserted (h.lt_length hb).ne hba]

end Insert

/-- `setdefault` gives the object at the longer path, which is made if there is none. Nothing else changes. -/
theorem setdefault_spec (h : heap.Nested root depth) (ha : heap.addressAt root path = some a)
    (hlt : path.length < depth) (key : κ) :
    ∃ b heap', heap.setdefault a key (newAt depth (key :: path)) = .ok (b, heap') ∧ heap'.Nested root depth ∧
      heap'.addressAt root (key :: path) = some b ∧ ∀ p, heap'.contentAt root p = heap.contentAt root p := by
  obtain ⟨entries, hentries⟩ := h.dicts ha hlt
  have hsame := h.same_append [newAt depth (key :: path)]
  have hdict : (heap ++ [newAt depth (key :: path)]).dict? a = .ok entries :=
    dict?_eq ((hsame _ _ ha).trans hentries)
  cases hlookup : entries.lookup key with
  | some b =>
    refine ⟨b, heap ++ [newAt depth (key :: path)], ?_, h.congr hsame, ?_, contentAt_congr hsame⟩
    · simp only [setdefault, hdict, bind, Except.bind, hlookup]
      rfl
    · rw [addressAt_congr hsame, addressAt, ha, Option.bind_some, child_eq hentries, hlookup]
  | none =>
    refine ⟨heap.length, inserted heap a entries key (newAt depth (key :: path)), ?_,
      nested_inserted h ha hentries hlookup hlt, ?_, contentAt_inserted h ha hentries hlookup⟩
    · simp only [setdefault, hdict, bind, Except.bind, hlookup]
      rfl
    · rw [addressAt_inserted h ha hentries hlookup, if_pos rfl]

section Set

variable {elements elements' : Finset η} (h : heap.Nested root depth) (ha : heap.addressAt root path = some a)
  (helements : heap[a]? = some (.set elements))

include helements

/-- A set that has changed in place is where it was, and so is everything else. -/
theorem addressAt_set (p : List κ) : addressAt (heap.set a (.set elements')) root p = heap.addressAt root p := by
  refine addressAt_of_child (fun p b _ k => ?_) p
  by_cases hba : b = a
  · subst hba
    rw [child, child, List.getElem?_set_self (List.getElem?_eq_some_iff.mp helements).1, helements]
  · exact child_congr (List.getElem?_set_ne (Ne.symm hba))

include h ha

theorem nested_set (hge : depth ≤ path.length) : Nested (heap.set a (.set elements')) root depth := by
  have haddress (p : List κ) : addressAt (heap.set a (.set elements')) root p = heap.addressAt root p :=
    addressAt_set helements p
  constructor
  · intro p b hb hp
    rw [haddress] at hb
    have hba : b ≠ a := by
      rintro rfl
      rw [h.inj hb ha] at hp
      exact (Nat.not_lt.mpr hge) hp
    rw [List.getElem?_set_ne hba.symm]
    exact h.dicts hb hp
  · intro p b hb hp
    rw [haddress] at hb
    by_cases hba : b = a
    · subst hba
      exact ⟨(h.sets hb hp).1, _, List.getElem?_set_self (h.lt_length hb)⟩
    · rw [List.getElem?_set_ne (Ne.symm hba)]
      exact h.sets hb hp
  · intro p p' b hb hb'
    rw [haddress] at hb hb'
    exact h.inj hb hb'

theorem contentAt_set (p : List κ) : contentAt (heap.set a (.set elements')) root p =
    if p = path then elements' else heap.contentAt root p := by
  have haddress : addressAt (heap.set a (.set elements')) root p = heap.addressAt root p :=
    addressAt_set helements p
  by_cases hp : p = path
  · subst hp
    rw [if_pos rfl, contentAt_eq (haddress.trans ha) (List.getElem?_set_self (h.lt_length ha))]
  · rw [if_neg hp, contentAt, contentAt, haddress]
    cases hb : heap.addressAt root p with
    | none => rfl
    | some b =>
      have hab : a ≠ b := by
        rintro rfl
        exact hp (h.inj hb ha)
      rw [Option.bind_some, Option.bind_some, List.getElem?_set_ne hab]

end Set

/-- `add` puts an element into the set at a path. -/
theorem add_spec [DecidableEq η] (h : heap.Nested root depth) (ha : heap.addressAt root path = some a)
    (hge : depth ≤ path.length) (x : η) :
    ∃ heap', heap.add a x = .ok heap' ∧ heap'.Nested root depth ∧
      ∀ p, heap'.contentAt root p = if p = path then insert x (heap.contentAt root p) else heap.contentAt root p := by
  obtain ⟨-, elements, helements⟩ := h.sets ha hge
  refine ⟨heap.set a (.set (insert x elements)), ?_, nested_set h ha helements hge, fun p => ?_⟩
  · simp only [add, set?_eq helements, bind, Except.bind]
    rfl
  · rw [contentAt_set h ha helements]
    refine ite_congr rfl (fun hp => ?_) fun _ => rfl
    rw [hp, contentAt_eq ha helements]

/-- `get` gives the object at the longer path, or the default. It may be asked of another empty dictionary where
there is no object at the path. -/
theorem get_spec (h : heap.Nested root depth) {objs : PyHeap κ η} {na : Address}
    (hna : (heap ++ objs)[na]? = some (.dict [])) (hlt : path.length < depth) (key : κ) (default : Address) :
    (heap ++ objs).get ((heap.addressAt root path).getD na) key default =
      .ok ((heap.addressAt root (key :: path)).getD default) := by
  cases ha : heap.addressAt root path with
  | none =>
    rw [Option.getD_none, addressAt, ha, Option.bind_none, get, dict?_eq hna]
    rfl
  | some a =>
    obtain ⟨entries, hentries⟩ := h.dicts ha hlt
    rw [Option.getD_some, addressAt, ha, Option.bind_some, child_eq hentries, get,
      dict?_eq ((h.same_append objs _ _ ha).trans hentries)]
    rfl

end Nested

end PyHeap

end Swinst
