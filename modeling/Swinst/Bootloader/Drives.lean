import Swinst.Loader
import Swinst.TaskList.Program

/-! The drives of the machine, and the function that goes over them to write the boot entries. -/

namespace Swinst

open TaskList

/-- `Drive.type`; a drive of another type is not listed -/
inductive DriveType where
  | removable | hd | remote | cd | ram
  deriving DecidableEq, Repr

structure Drive where
  /-- the letter in upper case and a colon -/
  path : Text
  type : DriveType
  deriving DecidableEq

/-- `drive.type in ('removable', 'hd')` -/
def Drive.holdsLoader (drive : Drive) : Bool := drive.type = .removable || drive.type = .hd

/-- `info.bootloader`; other versions of Windows have none -/
inductive Bootloader where
  | vista | xp | win98
  deriving DecidableEq, Repr

namespace Bootloader

/-- `modify_bootloader`; each drive comes with what `modify_bootini` and `modify_bcd` will meet
there. -/
def modify (bootloader : Option Bootloader) (modifyBootini modifyBcd : Drive → α → Prog V E σ) :
    List (Drive × α) → Prog V E σ
  | [] => .ret none
  | (drive, a) :: drives =>
    if !drive.holdsLoader then modify bootloader modifyBootini modifyBcd drives
    else
      match bootloader with
      | some .xp => .subtask "modify_bootini" true (modifyBootini drive a) fun _ =>
        modify bootloader modifyBootini modifyBcd drives
      | some .vista => .subtask "modify_bcd" true (modifyBcd drive a) fun _ =>
        modify bootloader modifyBootini modifyBcd drives
      | _ => modify bootloader modifyBootini modifyBcd drives

/-- What `modify_bcd` keeps on every drive, the whole function keeps; a drive that is refused
because the one before failed changes nothing. -/
theorem modify_vista_keeps {P : σ → Prop} {modifyBootini modifyBcd : Drive → α → Prog V E σ}
    (drives : List (Drive × α))
    (h : ∀ d ∈ drives, ∀ w, P w → P ((modifyBcd d.1 d.2).eval true true w).world) :
    ∀ {active w}, P w →
      P ((modify (some .vista) modifyBootini modifyBcd drives).eval true active w).world := by
  induction drives with
  | nil => exact fun hw => hw
  | cons d drives ih =>
    intro active w hw
    have ih : ∀ {active w}, P w →
        P ((modify (some .vista) modifyBootini modifyBcd drives).eval true active w).world :=
      ih fun d hd => h d (List.mem_cons_of_mem _ hd)
    unfold modify
    split
    · exact ih hw
    · cases active with
      | true => exact ih (h d List.mem_cons_self w hw)
      | false =>
        rw [Prog.eval_subtask_refused]
        exact ih hw

end Bootloader

end Swinst
