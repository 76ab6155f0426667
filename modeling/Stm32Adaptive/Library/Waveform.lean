import Mathlib.Data.Bool.Basic
import Mathlib.Data.List.Basic

/-!
# Levels and edges of a line

One party drives a line, another watches it.  To the one that drives it the line is
a list of stretches, each a level and the time it is held; two stretches that follow
each other may have the same level.  The one that watches it sees edges only, and
measures the time from each to the next.

`gapsFrom` is what the watcher measures and `endFrom` where it is left.  The last
stretch is not measured: no edge has ended it.  `gapsFrom_alternating` and
`gapsFrom_alternating_not` are the measurements of a line that changes at the end of
every stretch.
-/

namespace Stm32Adaptive
namespace Waveform

/-- The gaps between edges, for a watcher that has seen `level` for the time `elapsed`. -/
def gapsFrom (level : Bool) (elapsed : ℕ) : List (Bool × ℕ) → List ℕ
  | [] => []
  | (b, time) :: w =>
    if b = level then gapsFrom level (elapsed + time) w else elapsed :: gapsFrom b time w

/-- The level such a watcher sees at the end, and since when. -/
def endFrom (level : Bool) (elapsed : ℕ) : List (Bool × ℕ) → Bool × ℕ
  | [] => (level, elapsed)
  | (b, time) :: w => if b = level then endFrom level (elapsed + time) w else endFrom b time w

/-- A line that changes at the end of every stretch. -/
def alternating (level : Bool) : List ℕ → List (Bool × ℕ)
  | [] => []
  | time :: times => (level, time) :: alternating (!level) times

/-- **Every stretch but the last is measured**, and the wait before the line. -/
theorem gapsFrom_alternating_not (level : Bool) (elapsed : ℕ) (times : List ℕ) :
    gapsFrom level elapsed (alternating (!level) times) = (elapsed :: times).dropLast := by
  induction times generalizing level elapsed with
  | nil => rfl
  | cons time times ih =>
    have hne : (!level) ≠ level := Bool.not_ne_self level
    rw [alternating, gapsFrom, if_neg hne, ih (!level) time]
    rfl

/-- If the line begins at the level it has had, its first stretch is part of the wait. -/
theorem gapsFrom_alternating (level : Bool) (elapsed time : ℕ) (times : List ℕ) :
    gapsFrom level elapsed (alternating level (time :: times)) =
      ((elapsed + time) :: times).dropLast := by
  rw [alternating, gapsFrom, if_pos rfl, gapsFrom_alternating_not]

theorem endFrom_alternating_not (level : Bool) (elapsed : ℕ) (times : List ℕ) :
    endFrom level elapsed (alternating (!level) times) =
      (if times.length % 2 = 0 then level else !level,
        (elapsed :: times).getLast (List.cons_ne_nil _ _)) := by
  induction times generalizing level elapsed with
  | nil => rfl
  | cons time times ih =>
    have hne : (!level) ≠ level := Bool.not_ne_self level
    rw [alternating, endFrom, if_neg hne, ih (!level) time, Bool.not_not, List.length_cons,
      List.getLast_cons (List.cons_ne_nil time times)]
    rcases Nat.mod_two_eq_zero_or_one times.length with heven | hodd
    · rw [if_pos heven, if_neg (by omega)]
    · rw [if_neg (by omega), if_pos (by omega)]

theorem endFrom_alternating (level : Bool) (elapsed time : ℕ) (times : List ℕ) :
    endFrom level elapsed (alternating level (time :: times)) =
      (if times.length % 2 = 0 then level else !level,
        ((elapsed + time) :: times).getLast (List.cons_ne_nil _ _)) := by
  rw [alternating, endFrom, if_pos rfl, endFrom_alternating_not]

end Waveform
end Stm32Adaptive
