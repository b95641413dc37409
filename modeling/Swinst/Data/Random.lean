import Mathlib.Data.List.Basic
import Mathlib.Data.List.Perm.Basic

/-! A source of random numbers, and what `random` makes of it. A statement for every source is one for whatever the
numbers are. -/

namespace Swinst

structure Random where
  draw : Nat → Nat
  used : Nat

namespace Random

variable {α : Type}

/-- A number below `n` -/
def below (g : Random) (n : Nat) : Nat × Random := (g.draw g.used % n, { g with used := g.used + 1 })

theorem below_lt (g : Random) {n : Nat} (h : 0 < n) : (g.below n).1 < n := Nat.mod_lt _ h

/-- `shuffle`, from the item `i` down -/
def shuffleFrom : (i : Nat) → List α → Random → List α × Random
  | 0, l, g => (l, g)
  | i + 1, l, g =>
    let (j, g) := g.below (i + 2)
    shuffleFrom i (l.swap (i + 1) j) g

def shuffle (l : List α) (g : Random) : List α × Random := shuffleFrom (l.length - 1) l g

theorem shuffleFrom_perm (i : Nat) (l : List α) (g : Random) : (shuffleFrom i l g).1.Perm l := by
  induction i generalizing l g with
  | zero => exact .refl l
  | succ i ih => exact (ih _ _).trans (List.swap_perm ..)

theorem shuffle_perm (l : List α) (g : Random) : (shuffle l g).1.Perm l := shuffleFrom_perm ..

/-- `choice`, of a list that is not empty -/
def choice (a : α) (as : List α) (g : Random) : α × Random :=
  let (i, g) := g.below (as.length + 1)
  ((a :: as).getD i a, g)

theorem choice_mem (a : α) (as : List α) (g : Random) : (choice a as g).1 ∈ a :: as := by
  have hlt : (g.below (as.length + 1)).1 < (a :: as).length := g.below_lt (Nat.succ_pos _)
  change (a :: as).getD (g.below (as.length + 1)).1 a ∈ a :: as
  rw [List.getD_eq_getElem?_getD, List.getElem?_eq_getElem hlt, Option.getD_some]
  exact List.getElem_mem hlt

end Random

end Swinst
