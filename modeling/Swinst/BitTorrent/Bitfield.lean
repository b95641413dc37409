import Swinst.BitTorrent.StorageWrapper

/-! `Bitfield` of `bittorrent/bitfield.py`: which pieces a peer has, and how that is written on the wire. -/

namespace Swinst.BitTorrent

/-- `_int_to_booleans`, with `k` turns to go -/
def booleansFrom : (k x : Nat) → List Bool
  | 0, _ => []
  | k + 1, x => decide (x &&& 0x80 ≠ 0) :: booleansFrom k (2 * x)

/-- `lookup_table` -/
def lookupTable (c : UInt8) : List Bool := booleansFrom 8 c.toNat

/-- `reverse_lookup_table` -/
def reverseLookupTable (bs : List Bool) : Except PyError UInt8 :=
  match (List.range 256).find? fun i => lookupTable (UInt8.ofNat i) = bs with
  | some i => .ok (UInt8.ofNat i)
  | none => .error (.exception "KeyError")

theorem length_booleansFrom (k x : Nat) : (booleansFrom k x).length = k := by
  induction k generalizing x with
  | zero => rfl
  | succ k ih => rw [booleansFrom, List.length_cons, ih]

@[simp] theorem length_lookupTable (c : UInt8) : (lookupTable c).length = 8 := length_booleansFrom 8 _

theorem length_flatMap_lookupTable (s : Bytes) : (s.flatMap lookupTable).length = s.length * 8 := by
  induction s with
  | nil => rfl
  | cons c s ih =>
    rw [List.flatMap_cons, List.length_append, ih, length_lookupTable, List.length_cons]
    omega

/-- The number that the bits stand for -/
def fromBits (bs : List Bool) : Nat := bs.foldl (fun k b => 2 * k + b.toNat) 0

theorem fromBits_lookupTable (c : UInt8) : fromBits (lookupTable c) = c.toNat := by
  have h : ∀ i : Fin 256, fromBits (booleansFrom 8 i) = i := by decide +kernel
  exact h ⟨c.toNat, c.toNat_lt⟩

theorem lookupTable_fromBits {bs : List Bool} (h : bs.length = 8) : lookupTable (UInt8.ofNat (fromBits bs)) = bs := by
  have hall : ∀ b₁ b₂ b₃ b₄ b₅ b₆ b₇ b₈ : Bool,
      booleansFrom 8 (fromBits [b₁, b₂, b₃, b₄, b₅, b₆, b₇, b₈] % 256) = [b₁, b₂, b₃, b₄, b₅, b₆, b₇, b₈] := by decide
  match bs, h with
  | [b₁, b₂, b₃, b₄, b₅, b₆, b₇, b₈], _ => exact hall b₁ b₂ b₃ b₄ b₅ b₆ b₇ b₈

theorem lookupTable_inj {c d : UInt8} (h : lookupTable c = lookupTable d) : c = d := by
  have := congrArg fromBits h
  rw [fromBits_lookupTable, fromBits_lookupTable] at this
  exact UInt8.toNat_inj.mp this

theorem reverseLookupTable_iff {bs : List Bool} {c : UInt8} : reverseLookupTable bs = .ok c ↔ lookupTable c = bs := by
  rw [reverseLookupTable]
  constructor
  · intro h
    split at h
    · next i hi =>
      obtain rfl := Except.ok.inj h
      simpa using List.find?_some hi
    · cases h
  · rintro rfl
    cases hfind : (List.range 256).find? fun i => lookupTable (UInt8.ofNat i) = lookupTable c with
    | none =>
      have := List.find?_eq_none.mp hfind c.toNat (List.mem_range.mpr c.toNat_lt)
      simp at this
    | some i =>
      have := List.find?_some hfind
      rw [decide_eq_true_eq] at this
      dsimp only
      rw [lookupTable_inj this]

theorem exists_reverseLookupTable {bs : List Bool} (h : bs.length = 8) : ∃ c, reverseLookupTable bs = .ok c :=
  ⟨_, reverseLookupTable_iff.mpr (lookupTable_fromBits h)⟩

structure Bitfield (n : Nat) where
  array : List Bool
  numfalse : Nat
  length_array : array.length = n
  numfalse_eq : numfalse = array.count false

namespace Bitfield

variable {n : Nat}

/-- `__init__` without a string -/
def empty (n : Nat) : Bitfield n where
  array := List.replicate n false
  numfalse := n
  length_array := List.length_replicate
  numfalse_eq := List.count_replicate_self.symm

/-- `__init__` with a string -/
def ofString (n : Nat) (s : Bytes) : Except PyError (Bitfield n) :=
  if h : n ≤ s.length * 8 ∧ s.length * 8 < n + 8 then
    let extra := s.length * 8 - n
    let r := s.flatMap lookupTable
    if r.drop (r.length - extra) = List.replicate extra false then
      .ok {
        array := r.take (r.length - extra)
        numfalse := (r.take (r.length - extra)).count false
        length_array := by
          rw [List.length_take, length_flatMap_lookupTable]
          omega
        numfalse_eq := rfl }
    else .error .valueError
  else .error .valueError

/-- `__getitem__` -/
def get (b : Bitfield n) (i : Fin n) : Bool :=
  have hi : i.val < b.array.length := b.length_array.symm ▸ i.isLt
  b.array[i.val]

/-- `__setitem__` -/
def set (b : Bitfield n) (i : Fin n) (val : Bool) : Bitfield n where
  array := b.array.set i val
  numfalse := b.numfalse + (b.get i).toNat - val.toNat
  length_array := List.length_set.trans b.length_array
  numfalse_eq := by
    have hlt : i.val < b.array.length := b.length_array.symm ▸ i.isLt
    have hpos : b.get i = false → 0 < b.array.count false := fun hi => by
      rw [List.count_pos_iff, ← hi]
      exact List.getElem_mem hlt
    rw [List.count_set hlt, ← b.numfalse_eq]
    have hget : b.array[i.val] = b.get i := rfl
    rw [hget, b.numfalse_eq]
    cases hi : b.get i with
    | true => cases val <;> simp
    | false =>
      have := hpos hi
      cases val <;> simp
      omega

/-- The string of `k` times eight bits and the others -/
def pack : (k : Nat) → List Bool → Except PyError Bytes
  | 0, bs =>
    if bs.isEmpty then .ok []
    else do
      let c ← reverseLookupTable (bs ++ List.replicate (8 - bs.length) false)
      return [c]
  | k + 1, bs => do
    let c ← reverseLookupTable (bs.take 8)
    let s ← pack k (bs.drop 8)
    return c :: s

def tostring (b : Bitfield n) : Except PyError Bytes := pack (b.array.length / 8) b.array

def complete (b : Bitfield n) : Bool := b.numfalse = 0

@[ext] theorem ext' {b b' : Bitfield n} (h : b.array = b'.array) : b = b' := by
  obtain ⟨array, numfalse, hlen, rfl⟩ := b
  obtain ⟨array', numfalse', hlen', rfl⟩ := b'
  obtain rfl : array = array' := h
  rfl

/-! ## The string of a bitfield -/

variable {b : Bitfield n} {bs : List Bool} {s : Bytes}

/-- These are the bits of the string, up to the last byte. -/
def Bits (s : Bytes) (bs : List Bool) : Prop := ∃ extra < 8, s.flatMap lookupTable = bs ++ List.replicate extra false

theorem Bits.length (h : Bits s bs) : ∃ extra < 8, s.length * 8 = bs.length + extra := by
  obtain ⟨extra, hlt, heq⟩ := h
  have := congrArg List.length heq
  rw [length_flatMap_lookupTable, List.length_append, List.length_replicate] at this
  exact ⟨extra, hlt, this⟩

theorem bits_cons {c : UInt8} (hlen : 8 ≤ bs.length) :
    Bits (c :: s) bs ↔ lookupTable c = bs.take 8 ∧ Bits s (bs.drop 8) := by
  have hsplit : ∀ extra, bs ++ List.replicate extra false = bs.take 8 ++ (bs.drop 8 ++ List.replicate extra false) := by
    intro extra
    rw [← List.append_assoc, List.take_append_drop]
  have htake : (lookupTable c).length = (bs.take 8).length := by
    rw [length_lookupTable, List.length_take_of_le hlen]
  constructor
  · rintro ⟨extra, hlt, heq⟩
    rw [List.flatMap_cons, hsplit] at heq
    obtain ⟨hc, hs⟩ := List.append_inj heq htake
    exact ⟨hc, extra, hlt, hs⟩
  · rintro ⟨hc, extra, hlt, hs⟩
    exact ⟨extra, hlt, by rw [List.flatMap_cons, hsplit, hc, hs]⟩

theorem pack_iff {k : Nat} (h : bs.length / 8 = k) : pack k bs = .ok s ↔ Bits s bs := by
  induction k generalizing bs s with
  | zero =>
    have hlen : bs.length < 8 := by omega
    rw [pack]
    split
    · next hempty =>
      rw [List.isEmpty_iff] at hempty
      subst hempty
      constructor
      · intro hok
        obtain rfl := Except.ok.inj hok
        exact ⟨0, by decide, rfl⟩
      · intro hbits
        obtain ⟨extra, hlt, hs⟩ := hbits.length
        rw [List.length_nil] at hs
        obtain rfl : s = [] := List.length_eq_zero_iff.mp (by omega)
        rfl
    · next hne =>
      rw [List.isEmpty_iff, ← List.length_eq_zero_iff] at hne
      constructor
      · intro hok
        obtain ⟨c, hc, hok⟩ := bind_eq_ok hok
        obtain rfl := Except.ok.inj hok
        refine ⟨8 - bs.length, by omega, ?_⟩
        rw [List.flatMap_singleton, reverseLookupTable_iff.mp hc]
      · intro hbits
        obtain ⟨extra, hlt, hs⟩ := hbits
        have hlen' := congrArg List.length hs
        rw [length_flatMap_lookupTable, List.length_append, List.length_replicate] at hlen'
        obtain ⟨c, rfl⟩ : ∃ c, s = [c] := List.length_eq_one_iff.mp (by omega)
        rw [List.length_singleton] at hlen'
        obtain rfl : extra = 8 - bs.length := by omega
        rw [List.flatMap_singleton] at hs
        rw [reverseLookupTable_iff.mpr hs, bind_ok]
        rfl
  | succ k ih =>
    have hlen : 8 ≤ bs.length := by omega
    have hrest : (bs.drop 8).length / 8 = k := by
      rw [List.length_drop]
      omega
    rw [pack]
    constructor
    · intro hok
      obtain ⟨c, hc, hok⟩ := bind_eq_ok hok
      obtain ⟨s', hs', hok⟩ := bind_eq_ok hok
      obtain rfl := Except.ok.inj hok
      exact (bits_cons hlen).mpr ⟨reverseLookupTable_iff.mp hc, (ih hrest).mp hs'⟩
    · intro hbits
      obtain ⟨extra, hlt, hs⟩ := hbits.length
      cases s with
      | nil =>
        rw [List.length_nil] at hs
        omega
      | cons c s =>
        obtain ⟨hc, hs'⟩ := (bits_cons hlen).mp hbits
        rw [reverseLookupTable_iff.mpr hc, bind_ok, (ih hrest).mpr hs', bind_ok]
        rfl

theorem exists_pack (k : Nat) (h : bs.length / 8 = k) : ∃ s, pack k bs = .ok s := by
  induction k generalizing bs with
  | zero =>
    rw [pack]
    split
    · exact ⟨[], rfl⟩
    · have hpadded : (bs ++ List.replicate (8 - bs.length) false).length = 8 := by
        rw [List.length_append, List.length_replicate]
        omega
      obtain ⟨c, hc⟩ := exists_reverseLookupTable hpadded
      exact ⟨[c], by rw [hc, bind_ok]; rfl⟩
  | succ k ih =>
    have htake : (bs.take 8).length = 8 := by
      rw [List.length_take]
      omega
    have hdrop : (bs.drop 8).length / 8 = k := by
      rw [List.length_drop]
      omega
    obtain ⟨c, hc⟩ := exists_reverseLookupTable htake
    obtain ⟨s, hs⟩ := ih hdrop
    exact ⟨c :: s, by rw [pack, hc, bind_ok, hs, bind_ok]; rfl⟩

theorem ofString_iff : ofString n s = .ok b ↔ Bits s b.array := by
  rw [ofString]
  constructor
  · intro hok
    split at hok
    · next hlen =>
      dsimp only at hok
      split at hok
      · next hdrop =>
        obtain rfl := Except.ok.inj hok
        refine ⟨s.length * 8 - n, by omega, ?_⟩
        dsimp only
        rw [← hdrop, List.take_append_drop]
      · cases hok
    · cases hok
  · rintro ⟨extra, hlt, hs⟩
    have hlen := congrArg List.length hs
    rw [List.length_append, List.length_replicate, length_flatMap_lookupTable, b.length_array] at hlen
    have hextra : s.length * 8 - n = extra := by omega
    have harray : (s.flatMap lookupTable).length - extra = b.array.length := by
      rw [length_flatMap_lookupTable, b.length_array]
      omega
    rw [dif_pos (by omega)]
    dsimp only
    rw [if_pos]
    · congr 1
      ext1
      dsimp only
      rw [hextra, harray, hs, List.take_left]
    · rw [hextra, harray, hs, List.drop_left]

/-- The bits from `n` on are clear if and only if none of them is set. -/
theorem drop_eq_replicate_iff {bits : List Bool} :
    bits.drop n = List.replicate (bits.length - n) false ↔ ¬ ∃ k, n ≤ k ∧ bits[k]? = some true := by
  rw [List.eq_replicate_iff, List.length_drop, and_iff_right rfl]
  constructor
  · rintro h ⟨k, hk, hbit⟩
    have hmem : true ∈ bits.drop n := by
      refine List.mem_iff_getElem?.mpr ⟨k - n, ?_⟩
      rw [List.getElem?_drop, Nat.add_sub_cancel' hk, hbit]
    cases h true hmem
  · intro h bit hmem
    obtain ⟨k, hk⟩ := List.mem_iff_getElem?.mp hmem
    rw [List.getElem?_drop] at hk
    cases bit with
    | false => rfl
    | true => exact (h ⟨n + k, Nat.le_add_right .., hk⟩).elim

/-- The strings that are read as no bitfield: those of another length, and those with a spare bit that is set. -/
theorem ofString_eq_error : ofString n s = .error .valueError ↔
    s.length ≠ (n + 7) / 8 ∨ ∃ k, n ≤ k ∧ (s.flatMap lookupTable)[k]? = some true := by
  have hlength := length_flatMap_lookupTable s
  rw [ofString]
  split
  · next hlen =>
    have hn : (s.flatMap lookupTable).length - (s.length * 8 - n) = n := by omega
    have hspare : s.length * 8 - n = (s.flatMap lookupTable).length - n := by omega
    dsimp only
    split
    · next hdrop =>
      rw [hn, hspare, drop_eq_replicate_iff] at hdrop
      refine iff_of_false (fun h => by cases h) (not_or.mpr ⟨?_, hdrop⟩)
      omega
    · next hdrop =>
      rw [hn, hspare, drop_eq_replicate_iff, not_not] at hdrop
      exact iff_of_true rfl (.inr hdrop)
  · next hlen => exact iff_of_true rfl (.inl (by omega))

/-- A bitfield has a string, only its own string is read as it, and those that are read as none are known. -/
theorem tostring_ofString (b : Bitfield n) :
    (∃ s, b.tostring = .ok s) ∧ (∀ s, b.tostring = .ok s ↔ ofString n s = .ok b) ∧
      ∀ s, ofString n s = .error .valueError ↔
        s.length ≠ (n + 7) / 8 ∨ ∃ k, n ≤ k ∧ (s.flatMap lookupTable)[k]? = some true := by
  refine ⟨exists_pack _ rfl, fun s => ?_, fun s => ofString_eq_error⟩
  rw [tostring, pack_iff rfl, ofString_iff]

@[simp] theorem get_empty (i : Fin n) : (empty n).get i = false := by simp [get, empty]

theorem get_set (b : Bitfield n) (i j : Fin n) (val : Bool) : (b.set i val).get j = if j = i then val else b.get j := by
  simp only [get, set, List.getElem_set, Fin.ext_iff, eq_comm]

/-- `numfalse` tells whether all are there. -/
theorem numfalse_eq_zero (b : Bitfield n) : b.numfalse = 0 ↔ ∀ i, b.get i = true := by
  rw [b.numfalse_eq, List.count_eq_zero]
  constructor
  · intro h i
    by_contra hi
    rw [Bool.not_eq_true] at hi
    exact h (hi ▸ List.getElem_mem _)
  · intro h hmem
    obtain ⟨k, hk, hget⟩ := List.mem_iff_getElem.mp hmem
    have := h ⟨k, b.length_array ▸ hk⟩
    rw [get, hget] at this
    cases this

end Bitfield

end Swinst.BitTorrent
