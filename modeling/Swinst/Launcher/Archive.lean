import Mathlib.Algebra.GroupWithZero.Nat
import Swinst.Data.Scan

/-! Where the archive begins in a self-extracting executable: `unpack.c` and `pack.py` of
`pylauncher`. -/

namespace Swinst.Launcher

open Scan

/-- A file whose size `st_size` can hold, a signed integer of 32 bits. -/
structure File where
  bytes : List UInt8
  size_lt : bytes.length < 2 ^ 31

/-- `concatn` of `str.c`: `strncpy` stops at a zero byte. -/
def concatn (str1 str2 : List UInt8) (len2 : Nat) : List UInt8 :=
  str1 ++ (str2.take len2).takeWhile (· ≠ 0)

/-- `"@@@pylauncher@@@"`, the `SIGNATURE` of `pack.py` -/
def pylauncherMark : List UInt8 := "@@@pylauncher@@@".toList.map Char.toUInt8

def k7zSignature : List UInt8 := [0x37, 0x7A, 0xBC, 0xAF, 0x27, 0x1C]

def signature : List UInt8 := concatn pylauncherMark k7zSignature k7zSignature.length

/-- The loop of `seek_beginning_of_archive`: at most `k` more turns, from offset `i`, with what is in
the buffer. -/
def seekLoop (file : File) : (k i : Nat) → List UInt8 → Nat
  | 0, i, _ => i
  | k + 1, i, b =>
    if ((file.bytes.drop i).take signature.length).isEmpty then i
    else
      let b := read file.bytes signature.length i b
      if b.take signature.length = signature then i else seekLoop file k (i + 1) b

/-- `seek_beginning_of_archive`; `b` is what the buffer on the stack holds before. -/
def seekBeginningOfArchive (file : File) (b : List UInt8) : Nat :=
  (seekLoop file file.bytes.length 0 b + pylauncherMark.length) % 2 ^ 32

/-- What `unpack` opens: `g_offset` is added to the offsets of all later seeks. -/
def openedArchive (file : File) (b : List UInt8) : List UInt8 :=
  file.bytes.drop (seekBeginningOfArchive file b)

/-- `cat` of `pack.py`: the contents of the output file -/
def cat (infiles : List (List UInt8)) : List UInt8 := infiles.flatten

def makeSelfExtractingExe (header archive : List UInt8) : List UInt8 :=
  cat [header, pylauncherMark, archive]

/-- The buffer before the read at offset `i`. -/
def bufferBefore (file : File) (b : List UInt8) : Nat → List UInt8
  | 0 => b
  | i + 1 => buffer file.bytes signature.length b i

variable {file : File} {b : List UInt8} {i k : Nat}

theorem length_signature : signature.length = 22 := by decide

theorem signature_ends :
    signature[signature.length - 2]? ≠ signature[signature.length - 1]? := by decide

/-- `0x1C` is the last byte of the mark, and no other. -/
theorem signature_last (j : Nat) (hj : j + 1 < signature.length) :
    signature[j]? ≠ signature[signature.length - 1]? := by
  rw [length_signature] at hj
  have hall : ∀ j < 21, signature[j]? ≠ signature[signature.length - 1]? := by decide
  exact hall j (by omega)

theorem read_bufferBefore (file : File) (b : List UInt8) (i : Nat) :
    read file.bytes signature.length i (bufferBefore file b i) = buffer file.bytes signature.length b i := by
  cases i <;> rfl

/-- The loop stops at the first occurrence of the mark, or at the end of the file. -/
theorem seekLoop_spec (file : File) (b : List UInt8) (hfile : signature.length ≤ file.bytes.length) (hk : i + k = file.bytes.length) :
    i ≤ seekLoop file k i (bufferBefore file b i) ∧
      (∀ j, i ≤ j → j < seekLoop file k i (bufferBefore file b i) → ¬ OccursAt signature file.bytes j) ∧
      (seekLoop file k i (bufferBefore file b i) = file.bytes.length ∨
        OccursAt signature file.bytes (seekLoop file k i (bufferBefore file b i))) := by
  induction k generalizing i with
  | zero => exact ⟨le_rfl, fun j hj hlt => absurd hlt (Nat.not_lt.mpr hj), .inl hk⟩
  | succ k ih =>
    have hi : i < file.bytes.length := by omega
    have hread : ((file.bytes.drop i).take signature.length).isEmpty = false := by
      rw [length_signature, List.isEmpty_eq_false_iff_exists_mem]
      exact ⟨file.bytes[i], List.mem_of_getElem? (i := 0) (by simp [hi])⟩
    rw [seekLoop, hread, read_bufferBefore]
    simp only [Bool.false_eq_true, if_false]
    have hmatch := buffer_eq_iff (b := b) (by decide) hfile signature_ends hi
    split
    · next h => exact ⟨le_rfl, fun j hj hlt => absurd hlt (Nat.not_lt.mpr hj), .inr (hmatch.mp h)⟩
    · next h =>
      obtain ⟨hle, hnone, hend⟩ := ih (i := i + 1) (by omega)
      refine ⟨Nat.le_of_succ_le hle, fun j hj hlt => ?_, hend⟩
      rcases Nat.eq_or_lt_of_le hj with rfl | hj
      · exact fun ho => h (hmatch.mpr ho)
      · exact hnone j hj hlt

/-- The search ends at the first occurrence of the mark. -/
theorem seekLoop_first (h : OccursAt signature file.bytes i)
    (hfirst : ∀ j < i, ¬ OccursAt signature file.bytes j) : seekLoop file file.bytes.length 0 b = i := by
  have hle := h.add_le (by decide)
  obtain ⟨-, hnone, hend⟩ := seekLoop_spec file b (i := 0) (by omega) (Nat.zero_add _)
  dsimp only [bufferBefore] at hnone hend
  generalize seekLoop file file.bytes.length 0 b = r at hnone hend
  rcases Nat.lt_trichotomy r i with hlt | heq | hgt
  · rcases hend with rfl | hend
    · rw [length_signature] at hle
      omega
    · exact (hfirst r hlt hend).elim
  · exact heq
  · exact (hnone i (Nat.zero_le _) hgt h).elim

theorem seekLoop_none (hfile : signature.length ≤ file.bytes.length)
    (h : ∀ i, ¬ OccursAt signature file.bytes i) :
    seekLoop file file.bytes.length 0 b = file.bytes.length := by
  obtain ⟨-, -, hend⟩ := seekLoop_spec file b (i := 0) hfile (Nat.zero_add _)
  exact hend.resolve_right (h _)

/-- The size of a file leaves room for the 16 bytes of the mark in 32 bits. -/
theorem seekBeginningOfArchive_eq (h : seekLoop file file.bytes.length 0 b = i)
    (hi : i ≤ file.bytes.length) : seekBeginningOfArchive file b = i + 16 := by
  have hsize := file.size_lt
  have hmark : pylauncherMark.length = 16 := by decide
  rw [seekBeginningOfArchive, h, hmark, Nat.mod_eq_of_lt (by omega)]

/-- The executable is opened at its archive. -/
theorem openedArchive_eq {header tail : List UInt8} (hheader : ∀ i, ¬ OccursAt signature header i)
    (hfile : file.bytes = makeSelfExtractingExe header (k7zSignature ++ tail)) :
    openedArchive file b = k7zSignature ++ tail := by
  have hsig : file.bytes = header ++ (signature ++ tail) := by
    rw [hfile, makeSelfExtractingExe, cat, show signature = pylauncherMark ++ k7zSignature by decide]
    simp
  have hoccurs : OccursAt signature file.bytes header.length := hsig ▸ occursAt_append ..
  have hfirst : ∀ j < header.length, ¬ OccursAt signature file.bytes j := fun j hj ho =>
    hheader j ((hsig ▸ ho).in_header hj signature_last)
  rw [openedArchive, seekBeginningOfArchive_eq (seekLoop_first hoccurs hfirst)]
  · have hmark : header.length + 16 = (header ++ pylauncherMark).length := by
      rw [List.length_append]
      congr 1
    rw [hmark, hfile, makeSelfExtractingExe, cat]
    simp only [List.flatten_cons, List.flatten_nil, List.append_nil]
    rw [← List.append_assoc, List.drop_left]
  · have := hoccurs.add_le (by decide)
    omega

theorem seek_beginning_of_archive (b : List UInt8) :
    (∀ file : File, 22 ≤ file.bytes.length →
      (∀ i, OccursAt signature file.bytes i → (∀ j < i, ¬ OccursAt signature file.bytes j) →
        seekBeginningOfArchive file b = i + 16) ∧
      ((∀ i, ¬ OccursAt signature file.bytes i) →
        seekBeginningOfArchive file b = file.bytes.length + 16) ∧
      ∀ i < file.bytes.length, file.bytes.length < i + 22 →
        (buffer file.bytes signature.length b i).take signature.length ≠ signature) ∧
    ∀ (file : File) (header tail : List UInt8), (∀ i, ¬ OccursAt signature header i) →
      file.bytes = makeSelfExtractingExe header (k7zSignature ++ tail) →
        openedArchive file b = k7zSignature ++ tail := by
  refine ⟨fun file hfile => ⟨fun i hi hfirst => ?_, fun hnone => ?_, fun i hi hshort => ?_⟩,
    fun file header tail => openedArchive_eq⟩
  · have hle := hi.add_le (by decide)
    exact seekBeginningOfArchive_eq (seekLoop_first hi hfirst) (by omega)
  · exact seekBeginningOfArchive_eq (seekLoop_none hfile hnone) le_rfl
  · exact buffer_ne_of_short (by decide) hfile signature_ends hi hshort

private def smallExe : File where
  bytes := makeSelfExtractingExe [0x4D, 0x5A] (k7zSignature ++ [0])
  size_lt := by decide

private def zeros : File where
  bytes := List.replicate 22 0
  size_lt := by decide

theorem seek_beginning_of_archive_small :
    seekBeginningOfArchive smallExe [] = 2 + 16 ∧ openedArchive smallExe [] = k7zSignature ++ [0] ∧
      seekBeginningOfArchive zeros [] = 22 + 16 ∧
      (buffer zeros.bytes signature.length [] 1).take signature.length ≠ signature := by
  obtain ⟨hseek, hopen⟩ := seek_beginning_of_archive []
  have hzeros (i : Nat) : ¬ OccursAt signature zeros.bytes i := by
    intro h
    have hle := h.add_le (by decide)
    have hi : i = 0 := by
      rw [length_signature, show zeros.bytes.length = 22 by decide] at hle
      omega
    subst hi
    revert h
    decide
  have hheader (i : Nat) : ¬ OccursAt signature [0x4D, 0x5A] i := fun h => by
    have hle := h.add_le (by decide)
    rw [length_signature, List.length_cons, List.length_singleton] at hle
    omega
  refine ⟨(hseek smallExe (by decide)).1 2 (by decide) (by decide), ?_, ?_, ?_⟩
  · exact hopen smallExe [0x4D, 0x5A] [0] hheader rfl
  · exact (hseek zeros (by decide)).2.1 hzeros
  · exact (hseek zeros (by decide)).2.2 1 (by decide) (by decide)

end Swinst.Launcher
