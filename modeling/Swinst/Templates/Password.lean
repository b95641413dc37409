import Swinst.Data.PyStr
import Mathlib.Data.List.GetD

/-! `md5_password` of `backends/common/utils.py`. -/

namespace Swinst.Templates

/-- The digests of md5, of any hash function with digests of this size. -/
abbrev Digest := Vector UInt8 16

/-- A digest as a byte string. -/
def digestText (d : Digest) : Text := d.toList.map fun byte => Char.ofNat byte.toNat

def saltChars : Text := "./abcdefghijklmnopqrstuvwxyzABCDEFGHIJKLMNOPQRSTUVWXYZ0123456789".toList

/-- `''.join([random.choice(salt_chars) for i in range(5)])` -/
structure Salt where
  chars : Text
  length : chars.length = 5
  plain : ∀ c ∈ chars, c ∈ saltChars

def plainSalt : Salt where
  chars := "abcde".toList
  length := rfl
  plain _ hc := (by decide +kernel : "abcde".toList ⊆ saltChars) hc

/-- `hash.update(s)`, on the bytes that the hash has been given so far -/
def md5Update (hash : Text) (s : PyStr) : Except PyError Text := do
  return hash ++ (← s.encode)

/-- The `while` loop over the bits of the length. -/
def md5Bits (password : PyStr) (i : Nat) (hash : Text) : Except PyError Text :=
  if h : i = 0 then .ok hash
  else do
    let hash ←
      if i % 2 = 1 then md5Update hash (.bytes ['\x00'])
      else
        match password.text.head? with
        | none => .error .indexError
        | some c => md5Update hash (password.map fun _ => [c])
    md5Bits password (i / 2) hash
termination_by i
decreasing_by omega

/-- One turn of the loop over `xrange(1000)`. -/
def nthHash (md5 : Text → Digest) (salt : Salt) (password : PyStr) (hash : Digest) (i : Nat) :
    Except PyError Digest := do
  let nth ← if i % 2 ≠ 0 then md5Update [] password else .ok (digestText hash)
  let nth := if i % 3 ≠ 0 then nth ++ salt.chars else nth
  let nth ← if i % 7 ≠ 0 then md5Update nth password else .ok nth
  let nth ← if i % 2 ≠ 0 then .ok (nth ++ digestText hash) else md5Update nth password
  return md5 nth

/-- a different base64 than the MIME one -/
def base64 : Text := "./0123456789ABCDEFGHIJKLMNOPQRSTUVWXYZabcdefghijklmnopqrstuvwxyz".toList

/-- The loop of `b64_three_char`. -/
def b64Chars : (n w : Nat) → Text
  | 0, _ => []
  | n + 1, w => base64.getD (w &&& 0x3f) '.' :: b64Chars n (w >>> 6)

def b64ThreeChar (char2 char1 char0 : UInt8) (n : Nat) : Text :=
  b64Chars n (char2.toNat <<< 16 ||| char1.toNat <<< 8 ||| char0.toNat)

def b64Digest (hash : Digest) : Text :=
  b64ThreeChar hash[0] hash[6] hash[12] 4 ++ b64ThreeChar hash[1] hash[7] hash[13] 4 ++
  b64ThreeChar hash[2] hash[8] hash[14] 4 ++ b64ThreeChar hash[3] hash[9] hash[15] 4 ++
  b64ThreeChar hash[4] hash[10] hash[5] 4 ++ b64ThreeChar 0 0 hash[11] 2

/-- `second_hash*q + second_hash[:r]`, as long as the password -/
def stretch (n : Nat) (s : Text) : Text :=
  (List.replicate (n / s.length) s).flatten ++ s.take (n % s.length)

/-- The second hash of `md5_password`. -/
def secondHash (md5 : Text → Digest) (salt : Salt) (password : PyStr) : Except PyError Text := do
  let second ← md5Update [] password
  let second ← md5Update (second ++ salt.chars) password
  return stretch password.text.length (digestText (md5 second))

/-- `md5_password` -/
def md5Password (md5 : Text → Digest) (salt : Salt) (password : PyStr) : Except PyError PyStr := do
  let hash ← md5Update [] password
  let second ← secondHash md5 salt password
  if second.length ≠ password.text.length then .error .assertionError
  else do
    let hash ← md5Bits password password.text.length (hash ++ "$1$".toList ++ salt.chars ++ second)
    let hash ← (List.range 1000).foldlM (nthHash md5 salt password) (md5 hash)
    return .bytes ("$1$".toList ++ salt.chars ++ "$".toList ++ b64Digest hash)

@[simp] theorem length_digestText (d : Digest) : (digestText d).length = 16 := by
  simp [digestText]

theorem length_stretch {s : Text} (hs : s.length = 16) (n : Nat) : (stretch n s).length = n := by
  rw [stretch, List.length_append, List.length_flatten, List.map_replicate,
    List.sum_replicate_nat, List.length_take, hs]
  omega

section ascii

variable {md5 : Text → Digest} {salt : Salt} {password : PyStr} {bytes : Text}

theorem md5Update_ok (h : password.encode = .ok bytes) (hash : Text) :
    md5Update hash password = .ok (hash ++ bytes) := by
  rw [md5Update, h]
  rfl

/-- A letter of a string that can be encoded. -/
theorem encode_head (h : password.encode = .ok bytes) {c : Char} (hc : c ∈ password.text) :
    (password.map fun _ => [c]).encode = .ok [c] := by
  cases password with
  | bytes s => rfl
  | unicode s =>
    have hs : s.isAscii = true := by
      by_contra hs
      rw [PyStr.encode, if_neg hs] at h
      cases h
    exact if_pos (Text.isAscii_of_subset (List.cons_subset.mpr ⟨hc, List.nil_subset _⟩) hs)

theorem md5Bits_ok (h : password.encode = .ok bytes) (i : Nat)
    (hne : i ≠ 0 → password.text ≠ []) (hash : Text) :
    ∃ r, md5Bits password i hash = .ok r := by
  induction i using Nat.strong_induction_on generalizing hash with
  | _ i ih =>
    rw [md5Bits]
    split
    · exact ⟨hash, rfl⟩
    · next hi =>
      have hlt : i / 2 < i := by omega
      have hnext (hash : Text) := ih (i / 2) hlt (fun _ => hne hi) hash
      split
      · exact hnext _
      · obtain ⟨c, s, hs⟩ := List.exists_cons_of_ne_nil (hne hi)
        have hc : (password.map fun _ => [c]).encode = .ok [c] :=
          encode_head h (by rw [hs]; exact List.mem_cons_self)
        rw [hs, List.head?_cons]
        simp only [md5Update_ok hc]
        exact hnext _

theorem nthHash_ok (h : password.encode = .ok bytes) (hash : Digest) (i : Nat) :
    ∃ r, nthHash md5 salt password hash i = .ok r := by
  simp only [nthHash, md5Update_ok h]
  split <;> split <;> split <;> exact ⟨_, rfl⟩

theorem rounds_ok (h : password.encode = .ok bytes) (is : List Nat) (hash : Digest) :
    ∃ r, is.foldlM (nthHash md5 salt password) hash = .ok r := by
  induction is generalizing hash with
  | nil => exact ⟨hash, rfl⟩
  | cons i is ih =>
    obtain ⟨next, hnext⟩ : ∃ r, nthHash md5 salt password hash i = .ok r := nthHash_ok h hash i
    obtain ⟨r, hr⟩ := ih next
    refine ⟨r, ?_⟩
    rw [List.foldlM_cons, hnext]
    exact hr

theorem isAscii_b64Chars (n w : Nat) : (b64Chars n w).isAscii := by
  have hbase : ∀ i, (base64.getD i '.').toNat < 128 := by
    intro i
    rcases Nat.lt_or_ge i base64.length with hi | hi
    · rw [List.getD_eq_getElem _ _ hi]
      exact Text.isAscii_iff.mp (by decide) _ (List.getElem_mem hi)
    · rw [List.getD_eq_default _ _ hi]
      decide
  induction n generalizing w with
  | zero => rfl
  | succ n ih =>
    rw [Text.isAscii_iff, b64Chars, List.forall_mem_cons]
    exact ⟨hbase _, Text.isAscii_iff.mp (ih _)⟩

/-- The assertion of `md5_password` holds. -/
theorem secondHash_ok (h : password.encode = .ok bytes) :
    ∃ second, secondHash md5 salt password = .ok second ∧
      second.length = password.text.length := by
  refine ⟨_, ?_, length_stretch (length_digestText (md5 ([] ++ bytes ++ salt.chars ++ bytes))) _⟩
  rw [secondHash, md5Update_ok h]
  simp only [bind, Except.bind, md5Update_ok h]
  rfl

theorem Salt.isAscii (salt : Salt) : salt.chars.isAscii :=
  Text.isAscii_of_subset (s := saltChars) (fun c hc => salt.plain c hc) (by decide)

theorem isAscii_b64Digest (hash : Digest) : (b64Digest hash).isAscii := by
  simp only [b64Digest, b64ThreeChar, Text.isAscii_append, isAscii_b64Chars, Bool.and_self]

/-- A password that can be encoded gets a hash in ASCII, and no exception. -/
theorem md5Password_ok (h : password.encode = .ok bytes) :
    ∃ s, md5Password md5 salt password = .ok (.bytes s) ∧ s.isAscii := by
  obtain ⟨second, hsecond, hlen⟩ : ∃ second, secondHash md5 salt password = .ok second ∧
      second.length = password.text.length := secondHash_ok h
  obtain ⟨hash, hbits⟩ := md5Bits_ok h password.text.length
    (fun hn => List.length_pos_iff.mp (Nat.pos_of_ne_zero hn))
    ([] ++ bytes ++ "$1$".toList ++ salt.chars ++ second)
  obtain ⟨digest, hrounds⟩ : ∃ r, (List.range 1000).foldlM (nthHash md5 salt password) (md5 hash) =
      .ok r := rounds_ok h _ _
  refine ⟨"$1$".toList ++ salt.chars ++ "$".toList ++ b64Digest digest, ?_, ?_⟩
  · rw [md5Password, md5Update_ok h, hsecond]
    simp only [bind, Except.bind, hlen, ne_eq, not_true_eq_false, if_false, hbits, hrounds]
    rfl
  · simp only [Text.isAscii_append, salt.isAscii, isAscii_b64Digest]
    decide

/-- A password that cannot be encoded ends `md5_password` at its first step. -/
theorem md5Password_error {e : PyError} (h : password.encode = .error e) :
    md5Password md5 salt password = .error e := by
  rw [md5Password, md5Update, h]
  rfl

end ascii

end Swinst.Templates
