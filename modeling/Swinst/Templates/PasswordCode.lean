import Mathlib.Tactic.IntervalCases
import Swinst.Templates.Password

/-! What `md5_password` returns: the salt, and the final digest in 22 characters. -/

namespace Swinst.Templates

/-- The digest that `md5_password` writes -/
def finalDigest (md5 : Text → Digest) (salt : Salt) (password : PyStr) : Except PyError Digest := do
  let hash ← md5Update [] password
  let second ← secondHash md5 salt password
  if second.length ≠ password.text.length then .error .assertionError
  else do
    let hash ← md5Bits password password.text.length (hash ++ "$1$".toList ++ salt.chars ++ second)
    (List.range 1000).foldlM (nthHash md5 salt password) (md5 hash)

/-! ## The characters -/

/-- The number that is written with these digits, the least significant first -/
def b64Value : Text → Nat
  | [] => 0
  | c :: s => base64.idxOf c + 64 * b64Value s

/-- The digest that has been cut into six groups, each of up to three bytes -/
def decodeDigest (s : Text) : Digest :=
  let group (k : Nat) := b64Value ((s.drop (4 * k)).take 4)
  let byte2 (k : Nat) := UInt8.ofNat (group k / 2 ^ 16)
  let byte1 (k : Nat) := UInt8.ofNat (group k / 2 ^ 8)
  let byte0 (k : Nat) := UInt8.ofNat (group k)
  #v[byte2 0, byte2 1, byte2 2, byte2 3, byte2 4, byte0 4, byte1 0, byte1 1, byte1 2, byte1 3, byte1 4, byte0 5,
    byte0 0, byte0 1, byte0 2, byte0 3]

theorem getD_base64 {i : Nat} (hi : i < 64) : base64.getD i '.' ∈ base64 ∧ base64.idxOf (base64.getD i '.') = i := by
  have hlt : i < base64.length := hi
  rw [List.getD_eq_getElem _ _ hlt]
  exact ⟨List.getElem_mem hlt, List.Nodup.idxOf_getElem (by decide) i hlt⟩

theorem and_0x3f (w : Nat) : w &&& 0x3f = w % 64 := Nat.and_two_pow_sub_one_eq_mod w 6

theorem length_b64Chars (n w : Nat) : (b64Chars n w).length = n := by
  induction n generalizing w with
  | zero => rfl
  | succ n ih => rw [b64Chars, List.length_cons, ih]

theorem mem_base64_of_mem_b64Chars (n w : Nat) : ∀ c ∈ b64Chars n w, c ∈ base64 := by
  induction n generalizing w with
  | zero => exact fun _ h => by cases h
  | succ n ih =>
    rw [b64Chars, List.forall_mem_cons, and_0x3f]
    exact ⟨(getD_base64 (Nat.mod_lt w (by decide))).1, ih _⟩

/-- No digit is lost. -/
theorem b64Value_b64Chars (n w : Nat) : b64Value (b64Chars n w) = w % 64 ^ n := by
  induction n generalizing w with
  | zero => rw [Nat.pow_zero, Nat.mod_one]; rfl
  | succ n ih =>
    have hpow : 64 ^ (n + 1) = 64 * 64 ^ n := Nat.pow_succ'
    rw [b64Chars, b64Value, ih, and_0x3f, (getD_base64 (Nat.mod_lt w (by decide))).2, Nat.shiftRight_eq_div_pow,
      hpow, Nat.mod_mul]

theorem three_bytes (char2 char1 char0 : UInt8) :
    char2.toNat <<< 16 ||| char1.toNat <<< 8 ||| char0.toNat =
      2 ^ 16 * char2.toNat + 2 ^ 8 * char1.toNat + char0.toNat := by
  have h1 := char1.toNat_lt
  have h0 := char0.toNat_lt
  have hlow : char1.toNat <<< 8 ||| char0.toNat < 2 ^ 16 := by
    rw [← Nat.shiftLeft_add_eq_or_of_lt h0, Nat.shiftLeft_eq]
    omega
  rw [Nat.or_assoc, ← Nat.shiftLeft_add_eq_or_of_lt hlow, ← Nat.shiftLeft_add_eq_or_of_lt h0, Nat.shiftLeft_eq,
    Nat.shiftLeft_eq]
  omega

theorem b64Value_b64ThreeChar (char2 char1 char0 : UInt8) : b64Value (b64ThreeChar char2 char1 char0 4) =
    2 ^ 16 * char2.toNat + 2 ^ 8 * char1.toNat + char0.toNat := by
  have := char2.toNat_lt
  have := char1.toNat_lt
  have := char0.toNat_lt
  rw [b64ThreeChar, b64Value_b64Chars, three_bytes, Nat.mod_eq_of_lt]
  omega

theorem length_b64Digest (hash : Digest) : (b64Digest hash).length = 22 := by
  simp only [b64Digest, b64ThreeChar, List.length_append, length_b64Chars]

theorem mem_base64_of_mem_b64Digest (hash : Digest) : ∀ c ∈ b64Digest hash, c ∈ base64 := by
  simp only [b64Digest, b64ThreeChar, List.forall_mem_append]
  have hmem := mem_base64_of_mem_b64Chars
  exact ⟨⟨⟨⟨⟨hmem _ _, hmem _ _⟩, hmem _ _⟩, hmem _ _⟩, hmem _ _⟩, hmem _ _⟩

theorem b64Value_b64TwoChar (char0 : UInt8) : b64Value (b64ThreeChar 0 0 char0 2) = char0.toNat := by
  have := char0.toNat_lt
  rw [b64ThreeChar, b64Value_b64Chars, three_bytes, Nat.mod_eq_of_lt]
  all_goals
    rw [UInt8.toNat_zero]
    omega

section Group

variable (char2 char1 char0 : UInt8)

theorem byte2_group : UInt8.ofNat ((2 ^ 16 * char2.toNat + 2 ^ 8 * char1.toNat + char0.toNat) / 2 ^ 16) = char2 := by
  have h1 := char1.toNat_lt
  have h0 := char0.toNat_lt
  have hdiv : (2 ^ 16 * char2.toNat + 2 ^ 8 * char1.toNat + char0.toNat) / 2 ^ 16 = char2.toNat := by omega
  rw [hdiv, UInt8.ofNat_toNat]

theorem byte1_group : UInt8.ofNat ((2 ^ 16 * char2.toNat + 2 ^ 8 * char1.toNat + char0.toNat) / 2 ^ 8) = char1 := by
  have h1 := char1.toNat_lt
  have h0 := char0.toNat_lt
  rw [← UInt8.toNat_inj, UInt8.toNat_ofNat']
  omega

theorem byte0_group : UInt8.ofNat (2 ^ 16 * char2.toNat + 2 ^ 8 * char1.toNat + char0.toNat) = char0 := by
  have h0 := char0.toNat_lt
  rw [← UInt8.toNat_inj, UInt8.toNat_ofNat']
  omega

end Group

/-- Each byte is written once: the digest is read back. -/
theorem decodeDigest_b64Digest (hash : Digest) : decodeDigest (b64Digest hash) = hash := by
  have hlength (char2 char1 char0 : UInt8) : (b64ThreeChar char2 char1 char0 4).length = 4 := length_b64Chars ..
  have htake (char2 char1 char0 : UInt8) (s : Text) :
      (b64ThreeChar char2 char1 char0 4 ++ s).take 4 = b64ThreeChar char2 char1 char0 4 :=
    List.take_left' (hlength ..)
  have hdrop (char2 char1 char0 : UInt8) (s : Text) (k : Nat) :
      (b64ThreeChar char2 char1 char0 4 ++ s).drop (4 * (k + 1)) = s.drop (4 * k) := by
    rw [Nat.mul_succ, Nat.add_comm, ← List.drop_drop, List.drop_left' (hlength ..)]
  have hlast : (b64ThreeChar 0 0 hash[11] 2).take 4 = b64ThreeChar 0 0 hash[11] 2 :=
    List.take_of_length_le (by rw [b64ThreeChar, length_b64Chars]; decide)
  have hbytes : decodeDigest (b64Digest hash) = #v[hash[0], hash[1], hash[2], hash[3], hash[4], hash[5], hash[6],
      hash[7], hash[8], hash[9], hash[10], hash[11], hash[12], hash[13], hash[14], hash[15]] := by
    simp only [b64Digest, decodeDigest, List.append_assoc, hdrop, htake, hlast, Nat.mul_zero, List.drop_zero,
      b64Value_b64ThreeChar, b64Value_b64TwoChar, byte2_group, byte1_group, byte0_group, UInt8.ofNat_toNat]
  rw [hbytes]
  ext i hi
  interval_cases i <;> rfl

/-! ## The password -/

variable {md5 : Text → Digest} {salt : Salt} {password : PyStr} {bytes : Text}

theorem md5Password_eq (md5 : Text → Digest) (salt : Salt) (password : PyStr) : md5Password md5 salt password =
    (finalDigest md5 salt password).map fun hash =>
      .bytes ("$1$".toList ++ salt.chars ++ "$".toList ++ b64Digest hash) := by
  rw [md5Password, finalDigest]
  cases md5Update [] password with
  | error e => rfl
  | ok hash =>
    cases secondHash md5 salt password with
    | error e => rfl
    | ok second =>
      simp only [bind, Except.bind]
      split
      · rfl
      cases md5Bits password password.text.length (hash ++ "$1$".toList ++ salt.chars ++ second) with
      | error e => rfl
      | ok hash =>
        dsimp only
        cases (List.range 1000).foldlM (nthHash md5 salt password) (md5 hash) <;> rfl

theorem finalDigest_ok (h : password.encode = .ok bytes) : ∃ hash, finalDigest md5 salt password = .ok hash := by
  obtain ⟨s, hs, -⟩ : ∃ s, md5Password md5 salt password = .ok (.bytes s) ∧ s.isAscii := md5Password_ok h
  rw [md5Password_eq] at hs
  cases hdigest : finalDigest md5 salt password with
  | error e => simp [hdigest, Except.map] at hs
  | ok hash => exact ⟨hash, rfl⟩

/-- The assertion never fails, and 22 characters of the alphabet tell the whole digest. They come behind the salt
if and only if the password can be encoded. -/
theorem md5Password_iff (md5 : Text → Digest) (salt : Salt) (password : PyStr) :
    md5Password md5 salt password ≠ .error .assertionError ∧
    (∀ hash, (b64Digest hash).length = 22 ∧ (∀ c ∈ b64Digest hash, c ∈ base64) ∧
      decodeDigest (b64Digest hash) = hash) ∧
    ((∃ hash, finalDigest md5 salt password = .ok hash ∧ md5Password md5 salt password =
        .ok (.bytes ("$1$".toList ++ salt.chars ++ "$".toList ++ b64Digest hash))) ↔
      ∃ bytes, password.encode = .ok bytes) := by
  refine ⟨?_, fun hash => ⟨length_b64Digest hash, mem_base64_of_mem_b64Digest hash, decodeDigest_b64Digest hash⟩, ?_⟩
  · cases hencode : password.encode with
    | error e =>
      rw [md5Password_error hencode]
      cases password with
      | bytes s => cases hencode
      | unicode s =>
        rw [PyStr.encode] at hencode
        split at hencode
        · cases hencode
        · cases hencode
          simp
    | ok bytes =>
      obtain ⟨s, hs, -⟩ : ∃ s, md5Password md5 salt password = .ok (.bytes s) ∧ s.isAscii := md5Password_ok hencode
      simp [hs]
  · constructor
    · rintro ⟨hash, -, hreturn⟩
      cases hencode : password.encode with
      | error e =>
        rw [md5Password_error hencode] at hreturn
        cases hreturn
      | ok bytes => exact ⟨bytes, rfl⟩
    · rintro ⟨bytes, hencode⟩
      obtain ⟨hash, hhash⟩ : ∃ hash, finalDigest md5 salt password = .ok hash := finalDigest_ok hencode
      refine ⟨hash, hhash, ?_⟩
      rw [md5Password_eq, hhash]
      rfl

/-- A password from the input field, which is a Unicode string -/
theorem md5Password_chinese : md5Password (fun _ => Vector.replicate 16 0) plainSalt (.unicode "密码".toList) =
    .error .unicodeEncodeError :=
  md5Password_error rfl

end Swinst.Templates
