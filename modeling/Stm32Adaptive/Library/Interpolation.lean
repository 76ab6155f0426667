import Mathlib.Algebra.Order.Ring.Int
import Mathlib.Tactic.Ring

/-!
# Fixed-point interpolation

Between two integers `s` and `t` there are `2 ^ k` parts, and the value at part `p`
is computed with one shift to the right:
`(s * (2 ^ k - p) + t * p) >>> k`.

The shift rounds down, and what it rounds is `s` plus a multiple of the difference
(`interpolate_eq_add`), so everything one expects of a ramp is still true: it starts
at `s` and ends at `t` exactly, it is monotone in `p`, and it stays between the two.
Rounding down favours one direction.  A rising ramp is at its target only in the
last part, a falling one as soon as less than one unit is left
(`interpolate_eq_target_iff`).
-/

namespace Stm32Adaptive
namespace Interpolation

/-! ## On the way from one value to another -/

section Toward

variable {α : Type*} [LE α] {s t u v : α}

/-- On the way from `s` to `t` one meets `u` and then `v`. -/
def Toward (s t u v : α) : Prop := (s ≤ u ∧ u ≤ v ∧ v ≤ t) ∨ (t ≤ v ∧ v ≤ u ∧ u ≤ s)

/-- The way can be seen through a map that reflects the order. -/
theorem Toward.of_map {β : Type*} [LE β] {f : α → β} (hf : ∀ {a b}, f a ≤ f b → a ≤ b)
    (h : Toward (f s) (f t) (f u) (f v)) : Toward s t u v := by
  rcases h with ⟨hsu, huv, hvt⟩ | ⟨htv, hvu, hus⟩
  · exact Or.inl ⟨hf hsu, hf huv, hf hvt⟩
  · exact Or.inr ⟨hf htv, hf hvu, hf hus⟩

end Toward

/-! ## The ramp -/

/-- The value at part `p` of `2 ^ k` between `s` and `t`. -/
def interpolate (k : ℕ) (s t p : ℤ) : ℤ := (s * (2 ^ k - p) + t * p) >>> k

variable {k : ℕ} {s t p q : ℤ}

theorem two_pow_pos (k : ℕ) : (0 : ℤ) < 2 ^ k := pow_pos (by decide) k

/-- The start and a part of the difference, rounded down. -/
theorem interpolate_eq_add (k : ℕ) (s t p : ℤ) :
    interpolate k s t p = s + (t - s) * p / 2 ^ k := by
  have hsum : s * (2 ^ k - p) + t * p = (t - s) * p + s * 2 ^ k := by ring
  rw [interpolate, Int.shiftRight_eq_div_pow, hsum, Nat.cast_pow, Nat.cast_ofNat,
    Int.add_mul_ediv_right _ _ (two_pow_pos k).ne', add_comm]

@[simp] theorem interpolate_zero (k : ℕ) (s t : ℤ) : interpolate k s t 0 = s := by
  rw [interpolate_eq_add, mul_zero, Int.zero_ediv, add_zero]

@[simp] theorem interpolate_two_pow (k : ℕ) (s t : ℤ) : interpolate k s t (2 ^ k) = t := by
  rw [interpolate_eq_add, Int.mul_ediv_cancel _ (two_pow_pos k).ne', add_sub_cancel]

theorem interpolate_mono (h : s ≤ t) (hpq : p ≤ q) :
    interpolate k s t p ≤ interpolate k s t q := by
  have hmul := mul_le_mul_of_nonneg_left hpq (sub_nonneg.mpr h)
  rw [interpolate_eq_add, interpolate_eq_add]
  exact add_le_add_right (Int.ediv_le_ediv (two_pow_pos k) hmul) s

theorem interpolate_anti (h : t ≤ s) (hpq : p ≤ q) :
    interpolate k s t q ≤ interpolate k s t p := by
  have hmul := mul_le_mul_of_nonpos_left hpq (sub_nonpos.mpr h)
  rw [interpolate_eq_add, interpolate_eq_add]
  exact add_le_add_right (Int.ediv_le_ediv (two_pow_pos k) hmul) s

/-- **The ramp goes from its start to its target**, without turning and without
leaving the interval between them. -/
theorem toward_interpolate (k : ℕ) (s t : ℤ) (hp : 0 ≤ p) (hpq : p ≤ q) (hq : q ≤ 2 ^ k) :
    Toward s t (interpolate k s t p) (interpolate k s t q) := by
  have hstart := interpolate_zero k s t
  have hend := interpolate_two_pow k s t
  rcases le_total s t with h | h
  · exact Or.inl ⟨hstart.ge.trans (interpolate_mono h hp), interpolate_mono h hpq,
      (interpolate_mono h hq).trans hend.le⟩
  · exact Or.inr ⟨hend.ge.trans (interpolate_anti h hq), interpolate_anti h hpq,
      (interpolate_anti h hp).trans hstart.le⟩

/-- **When the ramp is at its target**: what is left to go, in parts, is rounded
away exactly if it is not negative and less than one unit. -/
theorem interpolate_eq_target_iff :
    interpolate k s t p = t ↔ 0 ≤ (s - t) * (2 ^ k - p) ∧ (s - t) * (2 ^ k - p) < 2 ^ k := by
  have hpos := two_pow_pos k
  have hleft : (t - s) * p = (s - t) * (2 ^ k - p) + (t - s) * 2 ^ k := by ring
  have hvalue : interpolate k s t p = t + (s - t) * (2 ^ k - p) / 2 ^ k := by
    rw [interpolate_eq_add, hleft, Int.add_mul_ediv_right _ _ hpos.ne']
    ring
  rw [hvalue, add_eq_left]
  constructor
  · intro h
    have hdiv := Int.emod_add_mul_ediv ((s - t) * (2 ^ k - p)) (2 ^ k)
    rw [h, mul_zero, add_zero] at hdiv
    rw [← hdiv]
    exact ⟨Int.emod_nonneg _ hpos.ne', Int.emod_lt_of_pos _ hpos⟩
  · rintro ⟨h0, hlt⟩
    exact Int.ediv_eq_zero_of_lt h0 hlt

end Interpolation
end Stm32Adaptive
