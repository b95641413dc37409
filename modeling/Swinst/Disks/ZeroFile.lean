import Swinst.Disks.Sizes
import Mathlib.Algebra.BigOperators.Group.Finset.Basic
import Mathlib.Algebra.BigOperators.Intervals
import Mathlib.Algebra.Order.BigOperators.Group.Finset

/-! `zero_file` of `backends/win32/virtualdisk.py`, over every sequence of outcomes of `WriteFile`: when
its loop ends, and what it has then written. -/

namespace Swinst.Disks

/-- What one call of `WriteFile` returns, and how many bytes the system is ready to write. -/
structure WriteOutcome where
  result : Bool
  bytes : Nat

/-- An open file: its length, its bytes, its pointer, and where and how much each call of `WriteFile`
wrote so far. -/
structure FileHandle where
  size : Nat
  byte : Nat → UInt8
  pos : Nat
  writes : List (Nat × Nat)

/-- The bytes of `data` from the pointer on, which moves behind them. -/
def FileHandle.put (f : FileHandle) (data : List UInt8) : FileHandle where
  size := if data = [] then f.size else max f.size (f.pos + data.length)
  byte i := if f.pos ≤ i then data.getD (i - f.pos) (f.byte i) else f.byte i
  pos := f.pos + data.length
  writes := f.writes ++ [(f.pos, data.length)]

/-- `WriteFile(file_handle, write_buf, bytes_to_write, byref(n_bytes_written), NULL)`, with its result and
`n_bytes_written` -/
def FileHandle.writeFile (f : FileHandle) (outcomes : Nat → WriteOutcome) (writeBuf : List UInt8)
    (bytesToWrite : Nat) : Bool × Nat × FileHandle :=
  let outcome := outcomes f.writes.length
  let data := (writeBuf.take bytesToWrite).take outcome.bytes
  (outcome.result, data.length, f.put data)

def bufSize : Nat := 1000

/-- `"0" * buf_size` -/
def writeBuf : List UInt8 := List.replicate bufSize '0'.toUInt8

/-- The variables of `zero_file`, and how often it has logged a failure. -/
structure Zeroing where
  file : FileHandle
  bytesCleared : Nat
  logged : Nat

/-- The body of the loop of `zero_file` -/
def Zeroing.turn (outcomes : Nat → WriteOutcome) (clearBytes : Nat) (s : Zeroing) : Zeroing :=
  let bytesToWrite :=
    if bufSize > clearBytes - s.bytesCleared then clearBytes - s.bytesCleared else bufSize
  let (result, nBytesWritten, file) := s.file.writeFile outcomes writeBuf bytesToWrite
  let logged := if !result || nBytesWritten = 0 then s.logged + 1 else s.logged
  { file, bytesCleared := s.bytesCleared + nBytesWritten, logged }

/-- The loop of `zero_file`; `none` when it has not ended after `fuel` turns. -/
def Zeroing.loop (outcomes : Nat → WriteOutcome) (clearBytes : Nat) : Nat → Zeroing → Option Zeroing
  | 0, _ => none
  | fuel + 1, s =>
    if s.bytesCleared < clearBytes then loop outcomes clearBytes fuel (s.turn outcomes clearBytes)
    else some s

def zeroFile (outcomes : Nat → WriteOutcome) (fuel : Nat) (file : FileHandle) (clearBytes : Nat) :
    Option FileHandle :=
  (Zeroing.loop outcomes clearBytes fuel { file, bytesCleared := 0, logged := 0 }).map (·.file)

/-! ## When the loop ends -/

/-- The most that a call with outcome `o` can report to `zero_file`. -/
def WriteOutcome.reported (o : WriteOutcome) : Nat := min o.bytes bufSize

namespace Zeroing
variable {outcomes : Nat → WriteOutcome} {clearBytes : Nat}

theorem length_data (n m : Nat) : ((writeBuf.take n).take m).length = min m (min n bufSize) := by
  rw [List.length_take, List.length_take, writeBuf, List.length_replicate]

theorem bytesCleared_turn {s : Zeroing} (h : s.bytesCleared ≤ clearBytes) :
    (s.turn outcomes clearBytes).bytesCleared =
      min clearBytes (s.bytesCleared + (outcomes s.file.writes.length).reported) := by
  simp only [turn, FileHandle.writeFile, length_data, WriteOutcome.reported]
  split <;> omega

theorem length_writes_turn {s : Zeroing} :
    (s.turn outcomes clearBytes).file.writes.length = s.file.writes.length + 1 := by
  simp [turn, FileHandle.writeFile, FileHandle.put]

/-- What the next `n` calls report together. -/
def reportedFrom (outcomes : Nat → WriteOutcome) (k n : Nat) : Nat :=
  ∑ i ∈ Finset.range n, (outcomes (k + i)).reported

theorem reportedFrom_succ (k n : Nat) :
    reportedFrom outcomes k (n + 1) = (outcomes k).reported + reportedFrom outcomes (k + 1) n := by
  rw [reportedFrom, Finset.sum_range_succ', Nat.add_comm, Nat.add_zero, reportedFrom]
  congr 1
  apply Finset.sum_congr rfl
  intro i _
  rw [Nat.add_assoc, Nat.add_comm 1 i]

theorem loop_isSome_iff {s : Zeroing} (h : s.bytesCleared ≤ clearBytes) :
    (∃ fuel, (loop outcomes clearBytes fuel s).isSome) ↔
      ∃ n, clearBytes ≤ s.bytesCleared + reportedFrom outcomes s.file.writes.length n := by
  have hle (s : Zeroing) (h : s.bytesCleared ≤ clearBytes) :
      (s.turn outcomes clearBytes).bytesCleared ≤ clearBytes := by
    rw [bytesCleared_turn h]
    exact Nat.min_le_left _ _
  constructor
  · rintro ⟨fuel, hsome⟩
    induction fuel generalizing s with
    | zero => cases hsome
    | succ fuel ih =>
      rw [loop] at hsome
      split at hsome
      · obtain ⟨n, hn⟩ := ih (hle s h) hsome
        refine ⟨n + 1, ?_⟩
        rw [bytesCleared_turn h, length_writes_turn] at hn
        rw [reportedFrom_succ]
        omega
      · exact ⟨0, by omega⟩
  · rintro ⟨n, hn⟩
    induction n generalizing s with
    | zero =>
      have hdone : ¬ s.bytesCleared < clearBytes := Nat.not_lt.mpr hn
      exact ⟨1, by rw [loop, if_neg hdone]; rfl⟩
    | succ n ih =>
      by_cases hlt : s.bytesCleared < clearBytes
      · obtain ⟨fuel, hsome⟩ : ∃ fuel,
            (loop outcomes clearBytes fuel (s.turn outcomes clearBytes)).isSome := by
          apply ih (hle s h)
          rw [reportedFrom_succ] at hn
          rw [bytesCleared_turn h, length_writes_turn]
          omega
        exact ⟨fuel + 1, by rw [loop, if_pos hlt]; exact hsome⟩
      · exact ⟨1, by rw [loop, if_neg hlt]; rfl⟩

/-- More fuel changes nothing. -/
theorem loop_add {fuel : Nat} {s s' : Zeroing} (h : loop outcomes clearBytes fuel s = some s') (n : Nat) :
    loop outcomes clearBytes (fuel + n) s = some s' := by
  induction fuel generalizing s with
  | zero => cases h
  | succ fuel ih =>
    rw [Nat.add_right_comm, loop]
    rw [loop] at h
    split at h
    · rename_i hlt
      rw [if_pos hlt]
      exact ih h
    · rename_i hlt
      rw [if_neg hlt]
      exact h

end Zeroing

theorem zeroFile_add {outcomes : Nat → WriteOutcome} {fuel clearBytes : Nat} {f g : FileHandle}
    (h : zeroFile outcomes fuel f clearBytes = some g) (n : Nat) :
    zeroFile outcomes (fuel + n) f clearBytes = some g := by
  obtain ⟨s, hs, rfl⟩ := Option.map_eq_some_iff.mp h
  exact Option.map_eq_some_iff.mpr ⟨s, Zeroing.loop_add hs n, rfl⟩

/-- `zero_file` ends exactly when a finite number of calls report all the bytes together. -/
theorem zeroFile_terminates_iff (outcomes : Nat → WriteOutcome) (file : FileHandle) (clearBytes : Nat) :
    (∃ fuel, (zeroFile outcomes fuel file clearBytes).isSome) ↔
      ∃ n, clearBytes ≤ ∑ i ∈ Finset.range n, (outcomes (file.writes.length + i)).reported := by
  have h : (∃ fuel, (Zeroing.loop outcomes clearBytes fuel ⟨file, 0, 0⟩).isSome) ↔ _ :=
    Zeroing.loop_isSome_iff (Nat.zero_le clearBytes)
  simpa only [zeroFile, Option.isSome_map, Nat.zero_add, Zeroing.reportedFrom] using h

/-- The disk is full from the first call on. -/
theorem zeroFile_diskFull : ¬ ∀ (outcomes : Nat → WriteOutcome) (file : FileHandle) (clearBytes : Nat),
    ∃ fuel, (zeroFile outcomes fuel file clearBytes).isSome := by
  intro h
  obtain ⟨n, hn⟩ := (zeroFile_terminates_iff (fun _ => ⟨false, 0⟩) ⟨0, fun _ => 0, 0, []⟩ 1000000).mp
    (h _ _ _)
  simp [WriteOutcome.reported] at hn

/-- Calls that all write something are enough. -/
theorem zeroFile_terminates_of_pos {outcomes : Nat → WriteOutcome} (h : ∀ k, 0 < (outcomes k).bytes)
    (file : FileHandle) (clearBytes : Nat) :
    ∃ fuel, (zeroFile outcomes fuel file clearBytes).isSome := by
  refine (zeroFile_terminates_iff outcomes file clearBytes).mpr ⟨clearBytes, ?_⟩
  have hone (k : Nat) : 1 ≤ (outcomes k).reported := Nat.le_min.mpr ⟨h k, by decide⟩
  calc clearBytes = ∑ _i ∈ Finset.range clearBytes, 1 := by
        rw [← Finset.card_eq_sum_ones, Finset.card_range]
    _ ≤ _ := Finset.sum_le_sum fun i _ => hone (file.writes.length + i)

/-! ## What it leaves -/

/-- The file after `n` bytes `'0'` at the pointer, in one call of `WriteFile` or in several. -/
structure FileHandle.Filled (f g : FileHandle) (n : Nat) : Prop where
  pos : g.pos = f.pos + n
  size : g.size = if n = 0 then f.size else max f.size (f.pos + n)
  byte : ∀ i, g.byte i = if f.pos ≤ i ∧ i < f.pos + n then '0'.toUInt8 else f.byte i
  writes : ∀ w ∈ g.writes, w ∈ f.writes ∨ f.pos ≤ w.1 ∧ w.1 + w.2 ≤ f.pos + n

theorem FileHandle.Filled.refl (f : FileHandle) : f.Filled f 0 where
  pos := rfl
  size := rfl
  byte i := by rw [if_neg (by omega)]
  writes _ h := .inl h

theorem FileHandle.Filled.put {f g : FileHandle} {n m : Nat} (h : f.Filled g n) :
    f.Filled (g.put (List.replicate m '0'.toUInt8)) (n + m) where
  pos := by rw [FileHandle.put, h.pos, List.length_replicate, Nat.add_assoc]
  size := by
    simp only [FileHandle.put, h.pos, h.size, List.length_replicate, List.replicate_eq_nil_iff]
    split_ifs <;> omega
  byte i := by
    have hd (b : UInt8) : (List.replicate m '0'.toUInt8).getD (i - (f.pos + n)) b =
        if i - (f.pos + n) < m then '0'.toUInt8 else b := by
      rw [List.getD_eq_getElem?_getD, List.getElem?_replicate]
      split <;> rfl
    simp only [FileHandle.put, hd, h.pos, h.byte]
    split_ifs <;> first | rfl | omega
  writes w hw := by
    rcases List.mem_append.mp hw with hw | hw
    · rcases h.writes w hw with hw | ⟨hlo, hhi⟩
      · exact .inl hw
      · exact .inr ⟨hlo, by omega⟩
    · obtain rfl := List.mem_singleton.mp hw
      rw [h.pos, List.length_replicate]
      exact .inr ⟨by omega, by omega⟩

namespace Zeroing
variable {outcomes : Nat → WriteOutcome} {clearBytes : Nat}

theorem filled_turn {f : FileHandle} {s : Zeroing} (h : f.Filled s.file s.bytesCleared) :
    f.Filled (s.turn outcomes clearBytes).file (s.turn outcomes clearBytes).bytesCleared := by
  simp only [turn, FileHandle.writeFile, writeBuf, List.take_replicate, List.length_replicate]
  exact h.put

theorem filled_loop {f : FileHandle} {fuel : Nat} {s s' : Zeroing} (hs : s.bytesCleared ≤ clearBytes)
    (h : f.Filled s.file s.bytesCleared) (hloop : loop outcomes clearBytes fuel s = some s') :
    f.Filled s'.file clearBytes := by
  induction fuel generalizing s with
  | zero => cases hloop
  | succ fuel ih =>
    rw [loop] at hloop
    split at hloop
    · apply ih _ (filled_turn h) hloop
      rw [bytesCleared_turn hs]
      exact Nat.min_le_left _ _
    · cases hloop
      obtain rfl : s'.bytesCleared = clearBytes := by omega
      exact h

end Zeroing

theorem filled_zeroFile {outcomes : Nat → WriteOutcome} {fuel clearBytes : Nat} {f g : FileHandle}
    (h : zeroFile outcomes fuel f clearBytes = some g) : f.Filled g clearBytes := by
  obtain ⟨s, hs, rfl⟩ := Option.map_eq_some_iff.mp h
  exact Zeroing.filled_loop (Nat.zero_le _) (.refl f) hs

end Swinst.Disks
