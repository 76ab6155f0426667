import Mathlib.Data.Fintype.Basic
import Mathlib.Data.List.FinRange
import Stm32Adaptive.Library.FlashMemory

/-!
# Period patterns

The class `PeriodPattern`: up to eight pulse lengths, a tolerance, and a padding
byte, packed to eighteen bytes.  A pattern ends at its first zero period, which
is what `getLength` looks for; `matchWindow` compares that many received samples
with it.

The record is also what lies in flash, so its byte layout belongs here:
`byteAt` reads a record as eighteen bytes and `load` reads eighteen bytes as a
record.  `load_eq_iff` says that the two determine each other.
-/

namespace Stm32Adaptive

open FlashMemory

/-- The packed record `PeriodPattern`. -/
structure PeriodPattern where
  /-- `_padding`. -/
  padding : UInt8
  periods : Fin 8 → UInt16
  /-- `_tolerance_mul_255`. -/
  toleranceMul255 : UInt8
  deriving DecidableEq

/-- The eight samples `process_signals` compares with a pattern. -/
abbrev Window := Fin 8 → UInt16

namespace PeriodPattern

/-- `sizeof(PeriodPattern)`, packed. -/
def size : ℕ := 18

/-! ## Length and matching -/

/-- The index of the first zero period, and `PATTERN_MAX_N` if there is none. -/
def getLength (p : PeriodPattern) : ℕ := (List.finRange 8).findIdx fun i => p.periods i == 0

theorem getLength_le (p : PeriodPattern) : p.getLength ≤ 8 := by
  have h : p.getLength ≤ (List.finRange 8).length := List.findIdx_le_length
  rwa [List.length_finRange] at h

/-- The periods below the length are not zero. -/
theorem periods_ne_zero {p : PeriodPattern} {i : Fin 8} (h : i.val < p.getLength) :
    p.periods i ≠ 0 := by
  have hi := List.not_of_lt_findIdx h
  simpa using hi

/-- A pattern is empty exactly if its first period is zero. -/
theorem one_le_getLength_iff {p : PeriodPattern} : 1 ≤ p.getLength ↔ p.periods 0 ≠ 0 := by
  refine ⟨fun h => periods_ne_zero (i := 0) h, fun h => ?_⟩
  rw [getLength, List.finRange_succ, List.findIdx_cons, beq_false_of_ne h]
  exact Nat.le_add_left 1 _

/-- The bounds of `match_window`, in 32-bit arithmetic: the products are formed
as `int` and the sum is assigned to a `uint32_t` before the division. -/
def lowerBound (target : UInt16) (tolerance : UInt8) : UInt32 :=
  UInt32.ofInt ((target.toNat * 255 : ℤ) - target.toNat * tolerance.toNat) / 255

/-- The upper bound of `match_window`; see `lowerBound`. -/
def upperBound (target : UInt16) (tolerance : UInt8) : UInt32 :=
  UInt32.ofInt ((target.toNat * 255 : ℤ) + target.toNat * tolerance.toNat) / 255

/-- The loop of `match_window` over the remaining indices. -/
def matchLoop (p : PeriodPattern) (signalPattern : Window) : List (Fin 8) → Bool
  | [] => true
  | index :: rest =>
    let targetVal := p.periods index
    let signalPeriod := signalPattern index
    if targetVal = 0 then true
    else if signalPeriod = 0 then false
    else if lowerBound targetVal p.toleranceMul255 ≤ signalPeriod.toUInt32 ∧
        signalPeriod.toUInt32 ≤ upperBound targetVal p.toleranceMul255 then
      matchLoop p signalPattern rest
    else false

/-- Does the pattern match the front of the window? -/
def matchWindow (p : PeriodPattern) (signalPattern : Window) : Bool :=
  if p.getLength = 0 then false
  else matchLoop p signalPattern ((List.finRange 8).take p.getLength)

/-- A pattern that matches anything is not empty. -/
theorem getLength_pos_of_matchWindow {p : PeriodPattern} {w : Window}
    (h : p.matchWindow w = true) : 1 ≤ p.getLength := by
  unfold matchWindow at h
  split at h
  · exact absurd h (by simp)
  · omega

/-! ## The record in memory -/

/-- Byte `j` of the packed record: the padding, the eight periods with the low
byte first, the tolerance. -/
def byteAt (p : PeriodPattern) (j : ℕ) : UInt8 :=
  if j = 0 then p.padding
  else if h : j < 17 then
    if j % 2 = 1 then lo (p.periods ⟨(j - 1) / 2, by omega⟩)
    else hi (p.periods ⟨(j - 1) / 2, by omega⟩)
  else p.toleranceMul255

/-- The bytes of the packed record. -/
def toBytes (p : PeriodPattern) : List UInt8 := (List.range size).map p.byteAt

@[simp] theorem length_toBytes (p : PeriodPattern) : p.toBytes.length = size := by
  rw [toBytes, List.length_map, List.length_range]

theorem getD_toBytes (p : PeriodPattern) {j : ℕ} (hj : j < size) :
    p.toBytes.getD j 0 = p.byteAt j := by
  rw [toBytes, List.getD_eq_getElem _ _ (by rwa [List.length_map, List.length_range]),
    List.getElem_map, List.getElem_range]

/-- The record at address `addr`. -/
def load (m : Memory) (addr : ℕ) : PeriodPattern where
  padding := m addr
  periods i := ofBytes (m (addr + 1 + 2 * i.val)) (m (addr + 2 + 2 * i.val))
  toleranceMul255 := m (addr + 17)

@[simp] theorem byteAt_zero (p : PeriodPattern) : p.byteAt 0 = p.padding := rfl

theorem byteAt_lo (p : PeriodPattern) (i : Fin 8) :
    p.byteAt (1 + 2 * i.val) = lo (p.periods i) := by
  have hi := i.isLt
  have hidx : (1 + 2 * i.val - 1) / 2 = i.val := by omega
  rw [byteAt, if_neg (by omega), dif_pos (by omega), if_pos (by omega)]
  simp only [hidx]

theorem byteAt_hi (p : PeriodPattern) (i : Fin 8) :
    p.byteAt (2 + 2 * i.val) = hi (p.periods i) := by
  have hi := i.isLt
  have hidx : (2 + 2 * i.val - 1) / 2 = i.val := by omega
  rw [byteAt, if_neg (by omega), dif_pos (by omega), if_neg (by omega)]
  simp only [hidx]

/-- **A record is its eighteen bytes.**  What lies at an address is the record
`p` exactly when every byte there is the byte of `p`. -/
theorem load_eq_iff {m : Memory} {addr : ℕ} {p : PeriodPattern} :
    load m addr = p ↔ ∀ j < size, m (addr + j) = p.byteAt j := by
  constructor
  · rintro rfl j hj
    rw [size] at hj
    have hcases : j = 0 ∨ j = 17 ∨ (∃ i : Fin 8, j = 1 + 2 * i.val) ∨
        ∃ i : Fin 8, j = 2 + 2 * i.val := by
      by_cases hfirst : j = 0
      · exact Or.inl hfirst
      by_cases hlast : j = 17
      · exact Or.inr (Or.inl hlast)
      rcases Nat.mod_two_eq_zero_or_one j with heven | hodd
      · exact Or.inr (Or.inr (Or.inr ⟨⟨j / 2 - 1, by omega⟩, by simp only; omega⟩))
      · exact Or.inr (Or.inr (Or.inl ⟨⟨j / 2, by omega⟩, by simp only; omega⟩))
    rcases hcases with rfl | rfl | ⟨i, rfl⟩ | ⟨i, rfl⟩
    · rfl
    · rfl
    · rw [byteAt_lo, load, lo_ofBytes, Nat.add_assoc]
    · rw [byteAt_hi, load, hi_ofBytes, Nat.add_assoc]
  · intro h
    have hperiods : (load m addr).periods = p.periods := by
      ext i : 1
      have hi := i.isLt
      have h1 := h (1 + 2 * i.val) (by rw [size]; omega)
      have h2 := h (2 + 2 * i.val) (by rw [size]; omega)
      rw [byteAt_lo, ← Nat.add_assoc] at h1
      rw [byteAt_hi, ← Nat.add_assoc] at h2
      show ofBytes (m (addr + 1 + 2 * i.val)) (m (addr + 2 + 2 * i.val)) = p.periods i
      rw [h1, h2, ofBytes_lo_hi]
    have hpadding : m addr = p.padding := h 0 (by decide)
    have htolerance : m (addr + 17) = p.toleranceMul255 := h 17 (by decide)
    cases p
    simp only [load] at *
    rw [hpadding, htolerance, hperiods]

end PeriodPattern
end Stm32Adaptive
