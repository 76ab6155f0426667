import Stm32Adaptive.Flash

/-!
# What a save leaves in the pattern page

A save of `n` records issues one page erase and `9 * n + 1` half-words: the
header, and nine for each record.  As one stretch of bytes these are
`tableBytes`.  `apply_take_savePatterns` reads every byte of the flash after any
number of these operations, so that a finished save, an interrupted one and the
bytes outside the page are all cases of one formula; the lookups follow from it.
-/

namespace Stm32Adaptive

open FlashMemory Flash

/-! ## The bytes of a table -/

/-- The bytes a table is saved as: magic byte, count, packed records. -/
def tableBytes (ps : List PeriodPattern) : List UInt8 :=
  [mbyte, UInt8.ofNat ps.length] ++ ps.flatMap PeriodPattern.toBytes

/-- Byte `j` of record `i` in the packed records. -/
theorem getD_flatMap_toBytes {ps : List PeriodPattern} {i j : ℕ} (hi : i < ps.length)
    (hj : j < PeriodPattern.size) :
    (ps.flatMap PeriodPattern.toBytes).getD (i * PeriodPattern.size + j) 0 = ps[i].byteAt j := by
  induction ps generalizing i with
  | nil => exact absurd hi (Nat.not_lt_zero i)
  | cons p ps ih =>
    have hlen := p.length_toBytes
    rw [List.flatMap_cons]
    cases i with
    | zero =>
      rw [Nat.zero_mul, Nat.zero_add, List.getD_append _ _ _ _ (by omega),
        PeriodPattern.getD_toBytes p hj]
      rfl
    | succ i =>
      have hidx : (i + 1) * PeriodPattern.size + j - p.toBytes.length =
          i * PeriodPattern.size + j := by
        rw [hlen, Nat.add_one_mul]
        omega
      rw [List.getD_append_right _ _ _ _ (by rw [hlen, Nat.add_one_mul]; omega), hidx,
        ih (Nat.lt_of_succ_lt_succ hi)]
      rfl

/-- Byte `j` of record `i` in the table. -/
theorem getD_tableBytes {ps : List PeriodPattern} {i j : ℕ} (hi : i < ps.length)
    (hj : j < PeriodPattern.size) :
    (tableBytes ps).getD (2 + i * PeriodPattern.size + j) 0 = ps[i].byteAt j := by
  have hlen : [mbyte, UInt8.ofNat ps.length].length = 2 := rfl
  have hidx : 2 + i * PeriodPattern.size + j - 2 = i * PeriodPattern.size + j := by omega
  rw [tableBytes, List.getD_append_right _ _ _ _ (by omega), hlen, hidx,
    getD_flatMap_toBytes hi hj]

/-! ## The operations of a save -/

/-- The number of half-words of a table with `n` records. -/
def halfWords (n : ℕ) : ℕ := 9 * n + 1

/-- **A save is one erase and one stretch of half-words.**  The header and the
records are written by two calls, but the second starts where the first stops. -/
theorem savePatterns_eq (ps : List PeriodPattern) :
    savePatterns ps ps.length = .erasePage signalPatternsDataStart ::
      programBytes signalPatternsDataStart (tableBytes ps) (halfWords ps.length) := by
  have hwords : ps.length * PeriodPattern.size / 2 = 9 * ps.length := by
    rw [PeriodPattern.size]
    omega
  have hsplit : halfWords ps.length = 1 + 9 * ps.length := Nat.add_comm _ _
  rw [savePatterns, writeToFlash, writeToFlash, hwords, hsplit, tableBytes,
    programBytes_append rfl]
  rfl

theorem length_savePatterns (ps : List PeriodPattern) :
    (savePatterns ps ps.length).length = halfWords ps.length + 1 := by
  rw [savePatterns_eq, List.length_cons, length_programBytes]

/-- A table fits in the page. -/
def Fits (n : ℕ) : Prop := 2 + PeriodPattern.size * n ≤ pageSize

instance (n : ℕ) : Decidable (Fits n) := inferInstanceAs (Decidable (_ ≤ _))

/-- A table fits if it has at most 56 records. -/
theorem fits_iff {n : ℕ} : Fits n ↔ n ≤ 56 := by
  rw [Fits, PeriodPattern.size, pageSize]
  omega

theorem Fits.le_255 {n : ℕ} (h : Fits n) : n ≤ 255 := (fits_iff.mp h).trans (by decide)

theorem fits_iff_halfWords {n : ℕ} : Fits n ↔ 2 * halfWords n ≤ pageSize := by
  rw [Fits, PeriodPattern.size, pageSize, halfWords]
  omega

/-- **The flash after the erase and `k` half-words of a save.** -/
theorem apply_take_savePatterns {ps : List PeriodPattern} (hfit : Fits ps.length)
    (flash : Memory) (k x : ℕ) :
    apply ((savePatterns ps ps.length).take (k + 1)) flash x =
      if signalPatternsDataStart ≤ x ∧
          x < signalPatternsDataStart + 2 * min k (halfWords ps.length) then
        (tableBytes ps).getD (x - signalPatternsDataStart) 0
      else if signalPatternsDataStart ≤ x ∧ x < signalPatternsDataStart + pageSize then erased
      else flash x := by
  have hwords := fits_iff_halfWords.mp hfit
  rw [savePatterns_eq, List.take_succ_cons, take_programBytes, Flash.apply,
    applyAll_erase_programBytes]
  omega

/-- The header after at least one half-word: the magic byte. -/
theorem magic_of_take {ps : List PeriodPattern} (hfit : Fits ps.length) (flash : Memory) (k : ℕ) :
    apply ((savePatterns ps ps.length).take (k + 2)) flash signalPatternsDataStart = mbyte := by
  have hwords : 1 ≤ halfWords ps.length := Nat.le_add_left _ _
  rw [apply_take_savePatterns hfit, if_pos (by omega), Nat.sub_self]
  rfl

/-- The header after at least one half-word: the count. -/
theorem count_of_take {ps : List PeriodPattern} (hfit : Fits ps.length) (flash : Memory) (k : ℕ) :
    (apply ((savePatterns ps ps.length).take (k + 2)) flash
      (signalPatternsDataStart + 1)).toNat = ps.length := by
  have hwords : 1 ≤ halfWords ps.length := Nat.le_add_left _ _
  have hn := fits_iff.mp hfit
  rw [apply_take_savePatterns hfit, if_pos (by omega), Nat.add_sub_cancel_left]
  show (UInt8.ofNat ps.length).toNat = ps.length
  rw [UInt8.toNat_ofNat']
  omega

/-- Byte `j` of record `i` after the header and `k` half-words of the records:
the byte of the record if it has been written, an erased byte if not. -/
theorem record_of_take {ps : List PeriodPattern} (hfit : Fits ps.length) (flash : Memory)
    {i j k : ℕ} (hi : i < ps.length) (hj : j < PeriodPattern.size) (hk : k ≤ 9 * ps.length) :
    apply ((savePatterns ps ps.length).take (k + 2)) flash (patternAddr i + j) =
      if PeriodPattern.size * i + j < 2 * k then ps[i].byteAt j else erased := by
  have hn := fits_iff.mp hfit
  have hbyte := getD_tableBytes hi hj
  have haddr : patternAddr i + j - signalPatternsDataStart = 2 + i * PeriodPattern.size + j := by
    rw [patternAddr]
    omega
  rw [apply_take_savePatterns hfit, haddr, hbyte, patternAddr, halfWords, pageSize]
  rw [PeriodPattern.size] at *
  by_cases hwritten : 18 * i + j < 2 * k
  · rw [if_pos (by omega), if_pos hwritten]
  · rw [if_neg (by omega), if_pos (by omega), if_neg hwritten]

/-! ## Lookups after a save -/

theorem take_savePatterns_of_le {ps : List PeriodPattern} {k : ℕ}
    (hk : halfWords ps.length + 1 ≤ k) :
    (savePatterns ps ps.length).take k = savePatterns ps ps.length :=
  List.take_of_length_le (by rw [length_savePatterns]; exact hk)

/-- **A lookup while a save is under way.**  After the header and `k` half-words
of the records, exactly the records of which something has been written are
handed out, provided the padding bytes are zero. -/
theorem getPattern_of_take {ps : List PeriodPattern} (hfit : Fits ps.length)
    (hpad : ∀ p ∈ ps, p.padding = 0) (flash : Memory) {k : ℕ} (hk : k ≤ 9 * ps.length) (n : ℤ) :
    getPattern (apply ((savePatterns ps ps.length).take (k + 2)) flash) n =
      if 0 ≤ n ∧ n < ps.length ∧ 9 * n < k then some (patternAddr n.toNat) else none := by
  have hpadding : ∀ i : ℕ, i < ps.length →
      (apply ((savePatterns ps ps.length).take (k + 2)) flash (patternAddr i) = 0 ↔
        9 * i < k) := by
    intro i hi
    have hbyte := record_of_take hfit flash hi (j := 0) (by decide) hk
    simp only [Nat.add_zero, PeriodPattern.byteAt_zero, hpad _ (List.getElem_mem hi)] at hbyte
    rw [hbyte, PeriodPattern.size]
    by_cases hwritten : 18 * i < 2 * k
    · rw [if_pos hwritten]
      exact iff_of_true rfl (by omega)
    · rw [if_neg hwritten]
      exact iff_of_false (by decide) (by omega)
  split
  · rename_i h
    refine getPattern_eq_some_iff.mpr ⟨magic_of_take hfit flash k, h.1, ?_, ?_, rfl⟩
    · rw [count_of_take hfit]
      exact h.2.1
    · exact (hpadding _ (by omega)).mpr (by omega)
  · rename_i h
    by_contra hsome
    obtain ⟨addr, haddr⟩ := Option.ne_none_iff_exists'.mp hsome
    obtain ⟨-, h0, hlt, hzero, -⟩ := getPattern_eq_some_iff.mp haddr
    rw [count_of_take hfit] at hlt
    have := (hpadding n.toNat (by omega)).mp hzero
    omega

/-- With all its half-words a save is finished. -/
theorem take_savePatterns_all (ps : List PeriodPattern) :
    (savePatterns ps ps.length).take (9 * ps.length + 2) = savePatterns ps ps.length :=
  take_savePatterns_of_le (le_refl _)

/-- After a finished save exactly the records of the table are handed out. -/
theorem getPattern_savePatterns {ps : List PeriodPattern} (hfit : Fits ps.length)
    (hpad : ∀ p ∈ ps, p.padding = 0) (flash : Memory) (n : ℤ) :
    getPattern (apply (savePatterns ps ps.length) flash) n =
      if 0 ≤ n ∧ n < ps.length then some (patternAddr n.toNat) else none := by
  have hlookup := getPattern_of_take hfit hpad flash (le_refl _) n
  rw [take_savePatterns_all] at hlookup
  rw [hlookup]
  exact if_congr (by omega) rfl rfl

/-- After a finished save there is nothing outside the table. -/
theorem getPattern_savePatterns_eq_none {ps : List PeriodPattern} (hfit : Fits ps.length)
    (hpad : ∀ p ∈ ps, p.padding = 0) (flash : Memory) {n : ℤ} (hn : n < 0 ∨ ps.length ≤ n) :
    getPattern (apply (savePatterns ps ps.length) flash) n = none := by
  rw [getPattern_savePatterns hfit hpad, if_neg (by omega)]

/-! ## Tables of any length -/

/-- The bytes of the page after a save, whether the table fits in it or not. -/
theorem page_savePatterns (ps : List PeriodPattern) (flash : Memory) {x : ℕ}
    (hx : signalPatternsDataStart ≤ x) (hx' : x < signalPatternsDataStart + pageSize) :
    apply (savePatterns ps ps.length) flash x =
      if x < signalPatternsDataStart + 2 * halfWords ps.length then
        (tableBytes ps).getD (x - signalPatternsDataStart) 0
      else erased := by
  rw [savePatterns_eq, Flash.apply, applyAll_erase_programBytes_of_mem _ _ (by decide) hx hx']

/-- The magic byte after a finished save. -/
theorem magic_savePatterns (ps : List PeriodPattern) (flash : Memory) :
    apply (savePatterns ps ps.length) flash signalPatternsDataStart = mbyte := by
  rw [page_savePatterns ps flash (le_refl _) (by decide), halfWords, if_pos (by omega),
    Nat.sub_self]
  rfl

/-- The count in the header after a finished save. -/
theorem count_savePatterns {ps : List PeriodPattern} (hcount : ps.length ≤ 255) (flash : Memory) :
    (apply (savePatterns ps ps.length) flash (signalPatternsDataStart + 1)).toNat = ps.length := by
  rw [page_savePatterns ps flash (by omega) (by decide), halfWords, if_pos (by omega),
    Nat.add_sub_cancel_left]
  show (UInt8.ofNat ps.length).toNat = ps.length
  rw [UInt8.toNat_ofNat']
  omega

/-- Byte `j` of record `i` after a finished save, if the record lies in the page. -/
theorem record_savePatterns (ps : List PeriodPattern) (flash : Memory) {i j : ℕ}
    (hi : i < ps.length) (hpage : i < 56) (hj : j < PeriodPattern.size) :
    apply (savePatterns ps ps.length) flash (patternAddr i + j) = ps[i].byteAt j := by
  have hrecord := getD_tableBytes hi hj
  have haddr : patternAddr i + j - signalPatternsDataStart =
      2 + i * PeriodPattern.size + j := by
    rw [patternAddr]
    omega
  rw [page_savePatterns, haddr, hrecord, if_pos]
  all_goals rw [patternAddr]
  all_goals rw [PeriodPattern.size] at *
  · rw [halfWords]
    omega
  · omega
  · rw [pageSize]
    omega

/-- **The records inside the page are stored**, even if the table does not fit. -/
theorem storedPattern_savePatterns_of_lt {ps : List PeriodPattern} (hcount : ps.length ≤ 255)
    (hpad : ∀ p ∈ ps, p.padding = 0) (flash : Memory) {i : ℕ} (hi : i < 56) :
    storedPattern (apply (savePatterns ps ps.length) flash) i = ps[i]? := by
  have hn := count_savePatterns hcount flash
  rcases Nat.lt_or_ge i ps.length with hlt | hge
  · have hbyte := fun j => @record_savePatterns ps flash i j hlt hi
    rw [List.getElem?_eq_getElem hlt]
    refine storedPattern_eq_some_iff.mpr
      ⟨magic_savePatterns ps flash, by omega, by rw [hn]; omega, ?_, ?_⟩
    · have hpadding := hbyte 0 (by decide)
      rwa [Nat.add_zero, PeriodPattern.byteAt_zero, hpad _ (List.getElem_mem hlt)] at hpadding
    · exact PeriodPattern.load_eq_iff.mpr hbyte
  · rw [List.getElem?_eq_none hge]
    by_contra hsome
    obtain ⟨q, hq⟩ := Option.ne_none_iff_exists'.mp hsome
    obtain ⟨-, -, hlt, -⟩ := storedPattern_eq_some_iff.mp hq
    rw [hn] at hlt
    omega

/-- **A finished save stores the table**, if it fits. -/
theorem storedPattern_savePatterns {ps : List PeriodPattern} (hfit : Fits ps.length)
    (hpad : ∀ p ∈ ps, p.padding = 0) (flash : Memory) (i : ℕ) (hi : i < ps.length) :
    storedPattern (apply (savePatterns ps ps.length) flash) i = some ps[i] := by
  rw [storedPattern_savePatterns_of_lt hfit.le_255 hpad flash (hi.trans_le (fits_iff.mp hfit)),
    List.getElem?_eq_getElem hi]

/-! ## Padded tables -/

/-- Every record below the count has its padding byte zero, as `savePatterns`
leaves them. -/
def Padded (flash : Memory) : Prop :=
  flash signalPatternsDataStart = mbyte →
    ∀ n < (flash (signalPatternsDataStart + 1)).toNat, flash (patternAddr n) = 0

/-- In a padded table the first null pointer is the end of the table. -/
theorem Padded.storedPattern_eq_none {flash : Memory} (hpad : Padded flash) {i j : ℕ}
    (hi : storedPattern flash i = none) (hij : i ≤ j) : storedPattern flash j = none := by
  by_contra hj
  obtain ⟨q, hq⟩ := Option.ne_none_iff_exists'.mp hj
  obtain ⟨hmagic, -, hlt, -, -⟩ := storedPattern_eq_some_iff.mp hq
  have hi' : storedPattern flash i = some (PeriodPattern.load flash (patternAddr i)) := by
    refine storedPattern_eq_some_iff.mpr ⟨hmagic, by omega, by omega, ?_, rfl⟩
    rw [Int.toNat_natCast]
    exact hpad hmagic i (by omega)
  rw [hi] at hi'
  exact absurd hi' (by simp)

/-- What `savePatterns` stores is padded. -/
theorem padded_savePatterns {ps : List PeriodPattern} (hfit : Fits ps.length)
    (hpad : ∀ p ∈ ps, p.padding = 0) (flash : Memory) :
    Padded (apply (savePatterns ps ps.length) flash) := by
  intro _ n hn
  rw [count_savePatterns hfit.le_255] at hn
  obtain ⟨-, -, -, hzero, -⟩ :=
    storedPattern_eq_some_iff.mp (storedPattern_savePatterns hfit hpad flash n hn)
  rwa [Int.toNat_natCast] at hzero

end Stm32Adaptive
