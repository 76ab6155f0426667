import Stm32Adaptive.PeriodPattern

/-!
# The pattern page

`storage/flash.cpp`: the pattern table in the page `SIGNAL_PATTERNS_DATA`.  A
magic byte and a count stand in front, the packed records follow.  `savePatterns`
erases the page, writes the two header bytes and then the records;
`getPattern` hands out a pointer into the page, or a null pointer if the header,
the count or the record's padding byte says that there is nothing to hand out.

A save is modelled as the list of flash operations it issues, so that a save
that is cut off is a prefix of that list, and a pointer is an address, so that
"the result lies in the page" is a statement about `getPattern` itself.
-/

namespace Stm32Adaptive
namespace Flash

open FlashMemory

/-! ## The memory map of the linker script -/

/-- Origin of the flash memory. -/
def flashOrigin : ℕ := 0x8000000

/-- `_signal_pattern_data` and `_system_run_data`: each is one page. -/
def pageSize : ℕ := 1024

/-- `__SEC_SIGNAL_PATTERNS_DATA_START`. -/
def signalPatternsDataStart : ℕ := flashOrigin + (16 * 1024 - pageSize - pageSize)

/-- `__SEC_SYSTEM_RUN_DATA_START`. -/
def systemRunDataStart : ℕ := flashOrigin + (16 * 1024 - pageSize)

/-- `MBYTE`. -/
def mbyte : UInt8 := 0xAB

/-- The page after the pattern page is the one with the run data. -/
theorem systemRunDataStart_eq : systemRunDataStart = signalPatternsDataStart + pageSize := rfl

/-! ## Writing -/

/-- `erase_page`. -/
def erasePage (pageStartAddr : ℕ) : List Op := [.erasePage pageStartAddr]

/-- `write_to_flash`: program `numBytes / 2` half-words. -/
def writeToFlash (destination : ℕ) (src : List UInt8) (numBytes : ℕ) : List Op :=
  programBytes destination src (numBytes / 2)

/-- `savePatterns`: the operations it issues for the `n` records at `p`. -/
def savePatterns (p : List PeriodPattern) (n : ℕ) : List Op :=
  erasePage signalPatternsDataStart ++
    writeToFlash signalPatternsDataStart [mbyte, UInt8.ofNat n] 2 ++
    writeToFlash (signalPatternsDataStart + 2) (p.flatMap PeriodPattern.toBytes)
      (n * PeriodPattern.size)

/-- The flash after a list of operations. -/
def apply (ops : List Op) (flash : Memory) : Memory := applyAll pageSize ops flash

/-! ## Reading -/

/-- The address of record `n`. -/
def patternAddr (n : ℕ) : ℕ := signalPatternsDataStart + 2 + n * PeriodPattern.size

/-- `getPattern`: a pointer to record `n`, or the null pointer. -/
def getPattern (flash : Memory) (n : ℤ) : Option ℕ :=
  if flash signalPatternsDataStart ≠ mbyte then none
  else if (flash (signalPatternsDataStart + 1)).toNat ≤ n ∨ n < 0 then none
  else if flash (patternAddr n.toNat) ≠ 0 then none
  else some (patternAddr n.toNat)

/-- The record `getPattern` points to. -/
def storedPattern (flash : Memory) (n : ℤ) : Option PeriodPattern :=
  (getPattern flash n).map (PeriodPattern.load flash)

/-- A blank chip: every byte erased. -/
def blank : Memory := fun _ => erased

/-! ## What a lookup says -/

theorem getPattern_eq_some_iff {flash : Memory} {n : ℤ} {addr : ℕ} :
    getPattern flash n = some addr ↔
      flash signalPatternsDataStart = mbyte ∧ 0 ≤ n ∧
        n < (flash (signalPatternsDataStart + 1)).toNat ∧
        flash (patternAddr n.toNat) = 0 ∧ addr = patternAddr n.toNat := by
  unfold getPattern
  by_cases hmagic : flash signalPatternsDataStart = mbyte
  · rw [if_neg (not_not.mpr hmagic)]
    by_cases hrange : (flash (signalPatternsDataStart + 1)).toNat ≤ n ∨ n < 0
    · rw [if_pos hrange]
      constructor
      · intro h
        exact absurd h (by simp)
      · rintro ⟨-, h0, hn, -⟩
        omega
    · rw [if_neg hrange, not_or, not_le, not_lt] at *
      by_cases hpad : flash (patternAddr n.toNat) = 0
      · rw [if_neg (not_not.mpr hpad), Option.some.injEq]
        exact ⟨fun h => ⟨hmagic, hrange.2, hrange.1, hpad, h.symm⟩, fun h => h.2.2.2.2.symm⟩
      · rw [if_pos hpad]
        exact ⟨fun h => absurd h (by simp), fun h => absurd h.2.2.2.1 hpad⟩
  · rw [if_pos hmagic]
    exact ⟨fun h => absurd h (by simp), fun h => absurd h.1 hmagic⟩

theorem storedPattern_eq_some_iff {flash : Memory} {n : ℤ} {p : PeriodPattern} :
    storedPattern flash n = some p ↔
      flash signalPatternsDataStart = mbyte ∧ 0 ≤ n ∧
        n < (flash (signalPatternsDataStart + 1)).toNat ∧
        flash (patternAddr n.toNat) = 0 ∧ PeriodPattern.load flash (patternAddr n.toNat) = p := by
  rw [storedPattern, Option.map_eq_some_iff]
  constructor
  · rintro ⟨addr, h, hload⟩
    obtain ⟨hmagic, h0, hn, hpad, rfl⟩ := getPattern_eq_some_iff.mp h
    exact ⟨hmagic, h0, hn, hpad, hload⟩
  · rintro ⟨hmagic, h0, hn, hpad, hload⟩
    exact ⟨_, getPattern_eq_some_iff.mpr ⟨hmagic, h0, hn, hpad, rfl⟩, hload⟩

/-- The count is one byte, so no record has an index above 254. -/
theorem lt_of_getPattern {flash : Memory} {n : ℤ} {addr : ℕ} (h : getPattern flash n = some addr) :
    n < 255 := by
  have hcount := (flash (signalPatternsDataStart + 1)).toNat_lt
  obtain ⟨-, -, hn, -⟩ := getPattern_eq_some_iff.mp h
  omega

end Flash
end Stm32Adaptive
