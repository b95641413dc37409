import Swinst.Data.Argv

/-! The command lines of `pylauncher`. The self-extracting executable (`header.c`) starts a copy of
`pylauncher.exe`, which starts `pyrun.exe`, which runs the Python script; each puts the arguments it
has got behind the command of the next. -/

namespace Swinst.Launcher

open Argv

/-- `cmd` of `header.c`. The directory is named by `GetTempFileName` and the executable by
`GetModuleFileName`; `av` are the arguments after the name of the program. -/
def header (targetdir exefile : FileName) (av : List Text) : Text :=
  quote (targetdir.text ++ ".exe".toList) ++ ' ' :: (quote targetdir.text ++ ' ' ::
    (quote exefile.text ++ forward av))

/-- `cmd` of `pylauncher.c`; `none` when `av[1]` or `av[2]` is null. -/
def pylauncher : List Text → Option Text
  | _ :: targetdir :: exefile :: av =>
    some (quote (targetdir ++ "\\pyrun.exe".toList) ++ ' ' :: (quote targetdir ++ ' ' ::
      (quote exefile ++ forward av)))
  | _ => none

/-- `av` of `pyrun.c`, when the executable is started with `av`. What is done with it is not modelled:
`pyrun.c` puts it behind five arguments of its own into an array of 100, without a look at its
length, so that from the 96th forwarded argument on it writes beyond the array. -/
def pyrunArgs (goesOn : Bool) (targetdir exefile : FileName) (av : List Text) : Option (List Text) :=
  (pylauncher (argv goesOn (header targetdir exefile av))).map (argv goesOn)

variable {goesOn : Bool}

/-- Two quoted names are read back, and the rest is split. -/
theorem argv_command (targetdir exefile : FileName) (hp : '"' ∉ p) (av : List Text) :
    argv goesOn (quote p ++ ' ' :: (quote targetdir.text ++ ' ' :: (quote exefile.text ++ forward av))) =
      p :: targetdir.text :: exefile.text :: args goesOn (forward av) := by
  rw [argv, program_quote hp]
  dsimp only
  rw [args_quote targetdir (.inr ⟨_, rfl⟩), args_blank, args_quote exefile (forward_blank av)]

theorem pyrunArgs_eq (targetdir exefile : FileName) (av : List Text) :
    pyrunArgs goesOn targetdir exefile av =
      some ((targetdir.text ++ "\\pyrun.exe".toList) :: targetdir.text :: exefile.text ::
        args goesOn (forward (args goesOn (forward av)))) := by
  have hexe : '"' ∉ targetdir.text ++ ".exe".toList := by simp [targetdir.no_quote]
  have hpyrun : '"' ∉ targetdir.text ++ "\\pyrun.exe".toList := by simp [targetdir.no_quote]
  rw [pyrunArgs, header, argv_command targetdir exefile hexe, pylauncher, Option.map_some,
    argv_command targetdir exefile hpyrun]

/-- Neither program quotes the arguments it forwards: each would lose its quotes, and be split at its
blanks. -/
theorem pyrunArgs_iff (targetdir exefile : FileName) (av : List Text) :
    pyrunArgs goesOn targetdir exefile av =
        some ((targetdir.text ++ "\\pyrun.exe".toList) :: targetdir.text :: exefile.text :: av) ↔
      ∀ a ∈ av, Plain a := by
  rw [pyrunArgs_eq, Option.some.injEq, List.cons.injEq, List.cons.injEq, List.cons.injEq]
  simp only [true_and]
  constructor
  · intro h
    -- what has arrived is as long as what was sent, so no quote was lost on the first way
    have hsize : size av ≤ size (args goesOn (forward av)) := by
      have := size_args_forward goesOn (args goesOn (forward av))
      rwa [h] at this
    have hplain := plain_of_size hsize
    rw [args_forward hplain] at h
    rwa [h] at hplain
  · intro h
    rw [args_forward h, args_forward h]

private def tempDir : FileName := ⟨"C:\\Temp\\pyl1.tmp".toList, by decide, 'p', by decide⟩

private def wubiExe : FileName := ⟨"C:\\wubi.exe".toList, by decide, 'e', by decide⟩

private def isoArg : Text := "--isopath=C:\\my isos\\u.iso".toList

/-- The path of an image in a directory with a blank in its name arrives as two arguments, by either
rule. -/
theorem blank_splits_argument :
    (pyrunArgs true tempDir wubiExe [isoArg]).map (·.drop 3) =
        some ["--isopath=C:\\my".toList, "isos\\u.iso".toList] ∧
      (pyrunArgs false tempDir wubiExe [isoArg]).map (·.drop 3) ≠ some [isoArg] := by
  decide

end Swinst.Launcher
