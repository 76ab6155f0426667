import Mathlib.Data.Fin.VecNotation
import Stm32Adaptive.PatternPage

/-!
# A save that is cut off

After a power loss only a prefix of the operations of `savePatterns` has taken
effect.  `getPattern` judges a record by three marks --- the magic byte, the
count and the record's padding byte --- and all three are in place before the
record is: the header is the first half-word after the erase, and the padding
byte is in the first half-word of its record.

`storedPattern_of_take` says what is handed out in the meantime: the written
front of the record with erased bytes behind it.  So a cut is harmless exactly
when it falls between records, or when what is missing of the record it falls
into happens to be erased bytes anyway; this is `cutSafe_iff`.
-/

namespace Stm32Adaptive

open FlashMemory Flash

/-- After the first `k` operations of the save, every lookup gives nothing or the
record that was to be saved; with no operation done, what it gave before. -/
def CutSafe (flash : Memory) (ps : List PeriodPattern) (k : ℕ) : Prop :=
  if k = 0 then
    ∀ n : ℤ, getPattern (apply ((savePatterns ps ps.length).take k) flash) n =
        getPattern flash n ∧
      storedPattern (apply ((savePatterns ps ps.length).take k) flash) n = storedPattern flash n
  else
    ∀ n : ℤ, getPattern (apply ((savePatterns ps ps.length).take k) flash) n = none ∨
      0 ≤ n ∧ ∃ p, ps[n.toNat]? = some p ∧
        storedPattern (apply ((savePatterns ps ps.length).take k) flash) n = some p

/-- The record the cut falls into, if there is one, has only erased bytes behind
the cut. -/
def TornTailErased (ps : List PeriodPattern) (k : ℕ) : Prop :=
  ∀ p, ps[(k - 2) / 9]? = some p → (k - 2) % 9 ≠ 0 →
    ∀ j, 2 * ((k - 2) % 9) ≤ j → j < PeriodPattern.size → p.byteAt j = erased

variable {ps : List PeriodPattern}

/-- With no half-word written there is no header and no record. -/
theorem getPattern_of_erase (flash : Memory) (n : ℤ) :
    getPattern (apply ((savePatterns ps ps.length).take 1) flash) n = none := by
  by_contra hsome
  obtain ⟨addr, haddr⟩ := Option.ne_none_iff_exists'.mp hsome
  obtain ⟨hmagic, -⟩ := getPattern_eq_some_iff.mp haddr
  rw [savePatterns_eq, List.take_succ_cons, List.take_zero, Flash.apply, applyAll_cons,
    applyAll_nil, erasePage_apply, if_pos ⟨le_refl _, by decide⟩] at hmagic
  exact absurd hmagic (by decide)

/-- **What a cut-off save hands out**: a record counts as stored as soon as its
first half-word is written, and its bytes are those of the record up to the cut
and erased behind it. -/
theorem storedPattern_of_take (hfit : Fits ps.length) (hpad : ∀ p ∈ ps, p.padding = 0)
    (flash : Memory) {d i : ℕ} (hd : d ≤ 9 * ps.length) (hi : i < ps.length) (hid : 9 * i < d) :
    ∃ p, storedPattern (apply ((savePatterns ps ps.length).take (d + 2)) flash) i = some p ∧
      ∀ j < PeriodPattern.size, p.byteAt j =
        if PeriodPattern.size * i + j < 2 * d then ps[i].byteAt j else erased := by
  have hlookup := getPattern_of_take hfit hpad flash hd i
  rw [if_pos (by omega)] at hlookup
  refine ⟨_, by rw [storedPattern, hlookup, Option.map_some], ?_⟩
  intro j hj
  rw [← record_of_take hfit flash hi hj hd]
  exact ((PeriodPattern.load_eq_iff.mp rfl) j hj).symm

/-- The record handed out is the one to be saved exactly when what is missing of
it is erased bytes. -/
theorem load_of_take_iff (hfit : Fits ps.length) (flash : Memory) {d i : ℕ}
    (hd : d ≤ 9 * ps.length) (hi : i < ps.length) :
    PeriodPattern.load (apply ((savePatterns ps ps.length).take (d + 2)) flash) (patternAddr i) =
        ps[i] ↔
      ∀ j < PeriodPattern.size, 2 * d ≤ PeriodPattern.size * i + j → ps[i].byteAt j = erased := by
  rw [PeriodPattern.load_eq_iff]
  refine forall_congr' fun j => imp_congr_right fun hj => ?_
  rw [record_of_take hfit flash hi hj hd]
  by_cases hwritten : PeriodPattern.size * i + j < 2 * d
  · rw [if_pos hwritten]
    exact iff_of_true rfl fun h => absurd hwritten (by omega)
  · rw [if_neg hwritten]
    exact ⟨fun h _ => h.symm, fun h => (h (by omega)).symm⟩

/-- A cut among the records, record by record. -/
theorem cutSafe_of_take_iff (hfit : Fits ps.length) (hpad : ∀ p ∈ ps, p.padding = 0)
    (flash : Memory) {d : ℕ} (hd : d ≤ 9 * ps.length) :
    CutSafe flash ps (d + 2) ↔
      ∀ (i : ℕ) (hi : i < ps.length), 9 * i < d →
        ∀ j < PeriodPattern.size, 2 * d ≤ PeriodPattern.size * i + j →
          ps[i].byteAt j = erased := by
  rw [CutSafe, if_neg (by omega)]
  constructor
  · intro h i hi hid
    have hlookup := getPattern_of_take hfit hpad flash hd i
    rw [if_pos (by omega)] at hlookup
    rcases h i with hnone | ⟨-, p, hp, hstored⟩
    · rw [hnone] at hlookup
      exact absurd hlookup (by simp)
    · rw [Int.toNat_natCast, List.getElem?_eq_getElem hi, Option.some.injEq] at hp
      rw [storedPattern, hlookup, Option.map_some, Option.some.injEq, Int.toNat_natCast,
        ← hp] at hstored
      exact (load_of_take_iff hfit flash hd hi).mp hstored
  · intro h n
    have hlookup := getPattern_of_take hfit hpad flash hd n
    by_cases hn : 0 ≤ n ∧ n < ps.length ∧ 9 * n < d
    · rw [if_pos hn] at hlookup
      have hi : n.toNat < ps.length := by omega
      refine Or.inr ⟨hn.1, ps[n.toNat], List.getElem?_eq_getElem hi, ?_⟩
      rw [storedPattern, hlookup, Option.map_some, Option.some.injEq]
      exact (load_of_take_iff hfit flash hd hi).mpr (h _ hi (by omega))
    · rw [if_neg hn] at hlookup
      exact Or.inl hlookup

/-- The records begun by the cut are complete, but for the one it falls into. -/
theorem tornTailErased_iff {d : ℕ} :
    TornTailErased ps (d + 2) ↔
      ∀ (i : ℕ) (hi : i < ps.length), 9 * i < d →
        ∀ j < PeriodPattern.size, 2 * d ≤ PeriodPattern.size * i + j →
          ps[i].byteAt j = erased := by
  rw [TornTailErased, Nat.add_sub_cancel]
  constructor
  · intro h i hi hid j hj hle
    rw [PeriodPattern.size] at *
    have hdiv : d / 9 = i := by omega
    refine h ps[i] ?_ (by omega) j (by omega) hj
    rw [hdiv, List.getElem?_eq_getElem hi]
  · intro h p hp htorn j hle hj
    obtain ⟨hi, rfl⟩ := List.getElem?_eq_some_iff.mp hp
    rw [PeriodPattern.size] at *
    exact h _ hi (by omega) j hj (by omega)

/-- **When an interrupted save is harmless.**  For every page, every table that
fits and every number of operations that took effect, each lookup afterwards
gives nothing or a saved record if and only if the record the cut falls into, if
there is one, has only erased bytes behind the cut. -/
theorem cutSafe_iff (hfit : Fits ps.length) (hpad : ∀ p ∈ ps, p.padding = 0) (flash : Memory)
    (k : ℕ) : CutSafe flash ps k ↔ TornTailErased ps k := by
  rcases Nat.lt_or_ge k 2 with hk | hk
  · -- no header yet, so nothing is handed out
    refine iff_of_true ?_ fun p _ htorn => absurd (by omega) htorn
    rcases Nat.lt_or_ge k 1 with hk0 | hk1
    · obtain rfl : k = 0 := by omega
      exact fun n => ⟨rfl, rfl⟩
    · obtain rfl : k = 1 := by omega
      exact fun n => Or.inl (getPattern_of_erase flash n)
  obtain ⟨d, rfl⟩ : ∃ d, k = d + 2 := ⟨k - 2, by omega⟩
  rcases Nat.lt_or_ge (9 * ps.length) d with hd | hd
  · -- the save had finished
    have htake : (savePatterns ps ps.length).take (d + 2) =
        (savePatterns ps ps.length).take (9 * ps.length + 2) := by
      rw [take_savePatterns_of_le (by rw [halfWords]; omega), take_savePatterns_all]
    have hsafe := cutSafe_of_take_iff hfit hpad flash (le_refl (9 * ps.length))
    rw [CutSafe, if_neg (by omega), ← htake] at hsafe
    rw [CutSafe, if_neg (by omega), hsafe, tornTailErased_iff, PeriodPattern.size]
    exact iff_of_true (fun i hi _ j hj hle => absurd hle (by omega))
      fun i hi _ j hj hle => absurd hle (by omega)
  · rw [cutSafe_of_take_iff hfit hpad flash hd, tornTailErased_iff]

/-- The pattern of the host script's sync bit. -/
def syncPattern : PeriodPattern := ⟨0, ![360, 11160, 0, 0, 0, 0, 0, 0], 76⟩

/-- A save of two records, cut off in the second one. -/
theorem cutSafe_syncPattern_iff :
    CutSafe blank [syncPattern, syncPattern] 13 ↔
      TornTailErased [syncPattern, syncPattern] 13 :=
  cutSafe_iff (by decide) (by decide) blank 13

/-- **A torn record is served.**  After the erase, the header and the first
half-word of the record, pattern 0 is handed out, and its tolerance byte is the
erased one. -/
theorem not_cutSafe_syncPattern : ¬ CutSafe blank [syncPattern] 3 := by
  intro h
  rw [CutSafe, if_neg (by decide)] at h
  rcases h 0 with hnone | ⟨-, p, hp, hstored⟩
  · exact absurd hnone (by decide)
  · have htolerance : (storedPattern (apply ((savePatterns [syncPattern] 1).take 3) blank) 0).map
        PeriodPattern.toleranceMul255 = some 0xFF := by decide
    obtain rfl : syncPattern = p := Option.some.inj hp
    rw [show [syncPattern].length = 1 from rfl] at hstored
    rw [hstored] at htolerance
    exact absurd htolerance (by decide)

end Stm32Adaptive
