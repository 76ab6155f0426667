import Mathlib.Algebra.Group.Nat.Defs
import Mathlib.Algebra.Order.Group.Unbundled.Int
import Stm32Adaptive.PeriodPattern

/-!
# What the matcher accepts

`match_window` compares a sample with two bounds that it computes in integers:
the target and its tolerance scaled by 255, and divided by 255 again.  The
division rounds down, which is exact for the upper bound and lets the lower one
reach up to one tick below the tolerance.

The bounds first (`upperBound_iff`, `lowerBound_iff`): the products fit in an
`int`, so nothing wraps and the scaled comparison can be read back over the
integers.  Then the loop, `matchWindow_eq_true_iff`: its early exits do not
matter, because no period below the length is zero.  `matchWindow_iff` is both
together.
-/

namespace Stm32Adaptive
namespace PeriodPattern

/-! ## The bounds -/

/-- The values `match_window` computes on the way to its two bounds. -/
def boundTerms (target : UInt16) (tolerance : UInt8) : List ℤ :=
  [target.toNat * 255, target.toNat * tolerance.toNat,
    target.toNat * 255 - target.toNat * tolerance.toNat,
    target.toNat * 255 + target.toNat * tolerance.toNat]

theorem mul_tolerance_le (target : UInt16) (tolerance : UInt8) :
    target.toNat * tolerance.toNat ≤ target.toNat * 255 :=
  Nat.mul_le_mul_left _ (Nat.le_of_lt_succ tolerance.toNat_lt)

theorem target_mul_le (target : UInt16) : target.toNat * 255 ≤ 65535 * 255 :=
  Nat.mul_le_mul_right _ (Nat.le_pred_of_lt target.toNat_lt)

/-- None of them is negative or too large for an `int`. -/
theorem boundTerms_fit (target : UInt16) (tolerance : UInt8) :
    ∀ x ∈ boundTerms target tolerance, 0 ≤ x ∧ x < 2 ^ 31 := by
  have hle := mul_tolerance_le target tolerance
  have hmax := target_mul_le target
  intro x hx
  simp only [boundTerms, List.mem_cons, List.not_mem_nil, or_false] at hx
  rcases hx with rfl | rfl | rfl | rfl <;> omega

theorem toNat_ofInt_div {x : ℤ} (h0 : 0 ≤ x) (h : x < 2 ^ 32) :
    (UInt32.ofInt x / 255).toNat = x.toNat / 255 := by
  rw [UInt32.toNat_div, UInt32.ofInt, UInt32.toNat_ofNat', show (255 : UInt32).toNat = 255 from rfl]
  omega

/-- The upper bound is exact: it accepts what is no more than the tolerance above
the target. -/
theorem le_upperBound_iff (sample target : UInt16) (tolerance : UInt8) :
    sample.toUInt32 ≤ upperBound target tolerance ↔
      255 * ((sample.toNat : ℤ) - target.toNat) ≤ target.toNat * tolerance.toNat := by
  obtain ⟨h0, hmax⟩ := boundTerms_fit target tolerance
    (target.toNat * 255 + target.toNat * tolerance.toNat) (by simp [boundTerms])
  rw [UInt32.le_iff_toNat_le, UInt16.toNat_toUInt32, upperBound, toNat_ofInt_div h0 (by omega)]
  omega

/-- The lower bound is rounded down: it accepts what is less than one tick more
than the tolerance below the target. -/
theorem lowerBound_le_iff (sample target : UInt16) (tolerance : UInt8) :
    lowerBound target tolerance ≤ sample.toUInt32 ↔
      255 * ((target.toNat : ℤ) - sample.toNat) < target.toNat * tolerance.toNat + 255 := by
  obtain ⟨h0, hmax⟩ := boundTerms_fit target tolerance
    (target.toNat * 255 - target.toNat * tolerance.toNat) (by simp [boundTerms])
  rw [UInt32.le_iff_toNat_le, UInt16.toNat_toUInt32, lowerBound, toNat_ofInt_div h0 (by omega)]
  omega

/-! ## The loop -/

/-- The sample at a position is not zero and within the tolerance of the period
there, below the period up to less than one tick more. -/
def Accepts (p : PeriodPattern) (signalPattern : Window) (i : Fin 8) : Prop :=
  signalPattern i ≠ 0 ∧
    255 * (((signalPattern i).toNat : ℤ) - (p.periods i).toNat) ≤
      (p.periods i).toNat * p.toleranceMul255.toNat ∧
    255 * (((p.periods i).toNat : ℤ) - (signalPattern i).toNat) <
      (p.periods i).toNat * p.toleranceMul255.toNat + 255

/-- Over positions whose periods are not zero the loop asks for nothing but
acceptance at each. -/
theorem matchLoop_eq_true_iff {p : PeriodPattern} {w : Window} {l : List (Fin 8)}
    (hl : ∀ i ∈ l, p.periods i ≠ 0) :
    p.matchLoop w l = true ↔ ∀ i ∈ l, p.Accepts w i := by
  induction l with
  | nil => simp [matchLoop]
  | cons i l ih =>
    have htail := ih fun j hj => hl j (List.mem_cons_of_mem i hj)
    rw [List.forall_mem_cons, ← htail, matchLoop]
    simp only [if_neg (hl i List.mem_cons_self), lowerBound_le_iff, le_upperBound_iff, Accepts]
    by_cases hzero : w i = 0
    · rw [if_pos hzero]
      exact iff_of_false Bool.false_ne_true fun h => h.1.1 hzero
    · rw [if_neg hzero]
      split
      · rename_i hbounds
        exact ⟨fun h => ⟨⟨hzero, hbounds.2, hbounds.1⟩, h⟩, fun h => h.2⟩
      · rename_i hbounds
        exact iff_of_false Bool.false_ne_true fun h => hbounds ⟨h.1.2.2, h.1.2.1⟩

theorem mem_take_finRange {n : ℕ} {i : Fin 8} : i ∈ (List.finRange 8).take n ↔ i.val < n := by
  rw [List.mem_take_iff_getElem]
  constructor
  · rintro ⟨j, hj, rfl⟩
    rw [List.getElem_finRange]
    exact Nat.lt_of_lt_of_le hj (Nat.min_le_left _ _)
  · intro hi
    refine ⟨i.val, ?_, ?_⟩
    · rw [List.length_finRange]
      exact Nat.lt_min.mpr ⟨hi, i.isLt⟩
    · rw [List.getElem_finRange]
      rfl

/-- **The matcher accepts a window exactly if the pattern is not empty and each of
its periods accepts its sample.** -/
theorem matchWindow_eq_true_iff {p : PeriodPattern} {w : Window} :
    p.matchWindow w = true ↔
      1 ≤ p.getLength ∧ ∀ i : Fin 8, i.val < p.getLength → p.Accepts w i := by
  rw [matchWindow]
  by_cases hlen : p.getLength = 0
  · rw [if_pos hlen]
    exact iff_of_false Bool.false_ne_true fun h => absurd h.1 (by omega)
  · have hloop := @matchLoop_eq_true_iff p w ((List.finRange 8).take p.getLength)
      fun i hi => periods_ne_zero (mem_take_finRange.mp hi)
    simp only [mem_take_finRange] at hloop
    rw [if_neg hlen, hloop]
    exact ⟨fun h => ⟨by omega, h⟩, fun h => h.2⟩

/-- **The acceptance set of the matcher.**  A window is accepted exactly if the
pattern is not empty and, at every position below its length, the sample is not
zero, is no more than the tolerance above the period, and exceeds the tolerance
below it by less than one tick.  Nothing at or behind the length matters, and none
of the values the bounds are computed from is negative or too large for an
`int`. -/
theorem matchWindow_iff (p : PeriodPattern) (w : Window) :
    (p.matchWindow w = true ↔ 1 ≤ p.getLength ∧ ∀ i : Fin 8, i.val < p.getLength →
      w i ≠ 0 ∧
      255 * (((w i).toNat : ℤ) - (p.periods i).toNat) ≤
        (p.periods i).toNat * p.toleranceMul255.toNat ∧
      255 * (((p.periods i).toNat : ℤ) - (w i).toNat) <
        (p.periods i).toNat * p.toleranceMul255.toNat + 255) ∧
    (∀ (p' : PeriodPattern) (w' : Window), p'.getLength = p.getLength →
      p'.toleranceMul255 = p.toleranceMul255 →
      (∀ i : Fin 8, i.val < p.getLength → p'.periods i = p.periods i ∧ w' i = w i) →
      p'.matchWindow w' = p.matchWindow w) ∧
    ∀ (target : UInt16) (tolerance : UInt8), ∀ x ∈ boundTerms target tolerance,
      0 ≤ x ∧ x < 2 ^ 31 := by
  refine ⟨matchWindow_eq_true_iff, ?_, boundTerms_fit⟩
  intro p' w' hlen htolerance hsame
  rw [Bool.eq_iff_iff, matchWindow_eq_true_iff, matchWindow_eq_true_iff, hlen]
  refine and_congr_right fun _ => forall_congr' fun i => imp_congr_right fun hi => ?_
  obtain ⟨hperiod, hsample⟩ := hsame i hi
  rw [Accepts, Accepts, hperiod, hsample, htolerance]

/-- The tolerance of the host script, 30 percent: a pulse of 360 ticks may be up to
107 ticks too long and, with the rounding, 108 too short. -/
example : (upperBound 360 76, lowerBound 360 76) = (467, 252) := by decide

end PeriodPattern
end Stm32Adaptive
