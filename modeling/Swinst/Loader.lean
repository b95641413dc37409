import Swinst.Data.PyText

/-! Which of the two boot loaders is installed, and under which name it is shown. -/

namespace Swinst

/-- `info.run_task`, as the command line and the pages set it -/
inductive RunTask where
  | install | uninstall | cdMenu | cdBoot | showInfo | reboot
  deriving DecidableEq, Repr

/-- The fields of `info` that `modify_bootini` and `modify_bcd` choose the loader by. -/
structure LoaderInfo where
  runTask : Option RunTask
  flag : Bool
  distroName : Text

namespace LoaderInfo

/-- `if self.info.run_task == "cd_boot": … elif self.info.flag: … else: …`, where the first and the
last branch are the same -/
def choose (info : LoaderInfo) (yldr yldrd : α) : α :=
  if info.runTask = some .cdBoot then yldrd
  else if info.flag then yldr
  else yldrd

/-- `boot_line` of `modify_bootini` -/
def bootLine (info : LoaderInfo) : Text :=
  info.choose ("C:\\yldr.mbr = \"".toList ++ info.distroName ++ "\"".toList)
    ("C:\\yldrd.mbr = \"".toList ++ info.distroName ++ " LiveCD\"".toList)

/-- `boot_line[:boot_line.index("=")].strip().lower()` -/
def oldLine (info : LoaderInfo) : Text :=
  (Text.strip (info.bootLine.takeWhile (· ≠ '='))).lower

/-- The path of the loader in lower case. -/
def loaderPath (info : LoaderInfo) : Text :=
  info.choose "c:\\yldr.mbr".toList "c:\\yldrd.mbr".toList

theorem oldLine_eq (info : LoaderInfo) : info.oldLine = info.loaderPath := by
  unfold oldLine bootLine loaderPath choose
  split
  · rfl
  · split <;> rfl

/-- The line that `modify_bootini` writes begins with the path that it looks for. -/
theorem loaderPath_prefix (info : LoaderInfo) : info.loaderPath <+: info.bootLine.lower := by
  unfold loaderPath bootLine choose
  split
  · rw [List.append_assoc, Text.lower_append]
    exact ⟨_, rfl⟩
  · split <;> rw [List.append_assoc, Text.lower_append] <;> exact ⟨_, rfl⟩

theorem strip_bootLine (info : LoaderInfo) : info.bootLine.strip = info.bootLine := by
  have hhead : info.bootLine.head? = some 'C' := by
    unfold bootLine choose
    split
    · rfl
    · split <;> rfl
  have hlast : info.bootLine.getLast? = some '"' := by
    unfold bootLine choose
    split
    · rw [List.getLast?_append]
      rfl
    · split <;> rw [List.getLast?_append] <;> rfl
  apply Text.strip_eq_self
  · intro c hc
    obtain rfl : 'C' = c := by simpa [hhead] using hc
    rfl
  · intro c hc
    obtain rfl : '"' = c := by simpa [hlast] using hc
    rfl

theorem newline_mem_bootLine (info : LoaderInfo) :
    '\n' ∈ info.bootLine ↔ '\n' ∈ info.distroName := by
  unfold bootLine choose
  split
  · simp
  · split <;> simp

end LoaderInfo

end Swinst
