import Mathlib.Data.Fin.VecNotation
import Stm32Adaptive.PatternPage
import Stm32Adaptive.Sender

/-!
# What the sender sends

The values loaded into the auto-reload register during one `send_434` are the
first one, loaded by hand, and then one for each interrupt.  `Placed` is the
state between two interrupts: it says which pattern of the list is being sent and
how many of its periods have been loaded; `Cursor` says besides that the timer
counts.  One interrupt moves the place one period on, into the next pattern, or off
the end of the list, and in each case the periods still to come (`Cursor.rest`) lose
their head.  By induction the interrupts load exactly these,
`waitWhileSending_of_cursor`.

The period loaded by hand is a different matter.  It is taken from stored pattern
0, whatever index stands first in the list, so the whole sequence is right
exactly when the two agree on their first period: `send434_loads_iff`.
-/

namespace Stm32Adaptive

open FlashMemory Flash Sender

/-! ## The periods to be sent -/

/-- The periods to be sent for one index. -/
def sentPeriods (flash : Memory) (index : UInt8) : List UInt16 :=
  match storedPattern flash index.toNat with
  | none => []
  | some p => p.activePeriods

/-- Every index of the list stands for a stored pattern that is not empty. -/
def AllStored (flash : Memory) (indices : List UInt8) : Prop :=
  ∀ index ∈ indices, ∃ p, storedPattern flash index.toNat = some p ∧ 1 ≤ p.getLength

theorem sentPeriods_of_stored {flash : Memory} {index : UInt8} {p : PeriodPattern}
    (h : storedPattern flash index.toNat = some p) : sentPeriods flash index = p.activePeriods := by
  rw [sentPeriods, h]

theorem PeriodPattern.drop_activePeriods {p : PeriodPattern} {b : ℕ} (hb : b < p.getLength) :
    p.activePeriods.drop b =
      p.periods ⟨b, Nat.lt_of_lt_of_le hb p.getLength_le⟩ :: p.activePeriods.drop (b + 1) := by
  rw [List.drop_eq_getElem_cons (by rwa [length_activePeriods])]
  simp [activePeriods]

theorem PeriodPattern.drop_activePeriods_eq_nil {p : PeriodPattern} {b : ℕ}
    (hb : p.getLength ≤ b) : p.activePeriods.drop b = [] :=
  List.drop_eq_nil_of_le (by rwa [length_activePeriods])

/-- A list of at most 255 indices stands for at most `maxInterrupts` periods. -/
theorem length_flatMap_sentPeriods_le (flash : Memory) (indices : List UInt8) :
    (indices.flatMap (sentPeriods flash)).length ≤ 8 * indices.length := by
  induction indices with
  | nil => exact Nat.le_refl 0
  | cons index indices ih =>
    have hhead : (sentPeriods flash index).length ≤ 8 := by
      unfold sentPeriods
      split
      · exact Nat.zero_le 8
      · rename_i p _
        rw [p.length_activePeriods]
        exact p.getLength_le
    rw [List.flatMap_cons, List.length_append, List.length_cons]
    omega

/-! ## The cursor between two interrupts -/

/-- Between two interrupts: `b` periods of the pattern `p` at position `a` of the
list have been loaded, the last of them not zero. -/
structure Cursor (flash : Memory) (indices : List UInt8) (a b : ℕ) (p : PeriodPattern)
    (s : Sender) : Prop where
  sending : s.sending = true
  arr_ne_zero : s.arr ≠ 0
  patternIndices : s.patternIndices = indices
  arrayLength : s.indicesArrayLength.toNat = indices.length
  indicesIndex : s.currentPatternIndicesIndex.toNat = a
  periodIndex : s.currentPatternPeriodIndex.toNat = b
  pattern : indices[a]?.bind (fun index => storedPattern flash index.toNat) = some p
  one_le : 1 ≤ b
  le_length : b ≤ p.getLength

/-- The same without the register: where the two cursors are. -/
structure Placed (flash : Memory) (indices : List UInt8) (a b : ℕ) (p : PeriodPattern)
    (s : Sender) : Prop where
  sending : s.sending = true
  patternIndices : s.patternIndices = indices
  arrayLength : s.indicesArrayLength.toNat = indices.length
  indicesIndex : s.currentPatternIndicesIndex.toNat = a
  periodIndex : s.currentPatternPeriodIndex.toNat = b
  pattern : indices[a]?.bind (fun index => storedPattern flash index.toNat) = some p
  one_le : 1 ≤ b
  le_length : b ≤ p.getLength

/-- The periods still to be loaded. -/
def Cursor.rest (flash : Memory) (indices : List UInt8) (a b : ℕ) (p : PeriodPattern) :
    List UInt16 :=
  p.activePeriods.drop b ++ (indices.drop (a + 1)).flatMap (sentPeriods flash)

section Cursors

variable {flash : Memory} {indices : List UInt8} {a b : ℕ} {p : PeriodPattern} {s : Sender}

theorem Cursor.placed (h : Cursor flash indices a b p s) : Placed flash indices a b p s :=
  ⟨h.sending, h.patternIndices, h.arrayLength, h.indicesIndex, h.periodIndex, h.pattern, h.one_le,
    h.le_length⟩

namespace Placed

theorem cursor (h : Placed flash indices a b p s) (harr : s.arr ≠ 0) :
    Cursor flash indices a b p s :=
  ⟨h.sending, harr, h.patternIndices, h.arrayLength, h.indicesIndex, h.periodIndex, h.pattern,
    h.one_le, h.le_length⟩

theorem lt_length (h : Placed flash indices a b p s) : a < indices.length := by
  obtain ⟨index, hindex, -⟩ := Option.bind_eq_some_iff.mp h.pattern
  exact (List.getElem?_eq_some_iff.mp hindex).choose

theorem currentPattern_eq (h : Placed flash indices a b p s) :
    s.currentPattern flash = some p := by
  rw [currentPattern, h.patternIndices, h.indicesIndex, h.pattern]

/-- What an interrupt does inside a pattern. -/
theorem irq_inside (h : Placed flash indices a b p s) (hb : b < p.getLength) :
    s.tim14IrqHandler flash true = s.loadPeriod p := by
  rw [tim14IrqHandler, if_pos rfl, h.currentPattern_eq, Option.bind_some,
    if_neg (by rw [h.periodIndex]; omega)]

/-- What an interrupt does behind the last period of a pattern. -/
theorem irq_behind (h : Placed flash indices a b p s) (hb : p.getLength ≤ b) :
    s.tim14IrqHandler flash true = s.nextPattern flash := by
  rw [tim14IrqHandler, if_pos rfl, h.currentPattern_eq, Option.bind_some,
    if_pos (by rw [h.periodIndex]; exact hb)]

/-- The next position does not wrap around. -/
theorem indicesIndex_succ (h : Placed flash indices a b p s) (hlen : indices.length ≤ 255) :
    (s.currentPatternIndicesIndex + 1).toNat = a + 1 := by
  have ha := h.lt_length
  rw [UInt8.toNat_add, h.indicesIndex, UInt8.toNat_one]
  omega

/-- Whether the list goes on is what the handler's comparison says. -/
theorem length_le_iff (h : Placed flash indices a b p s) (hlen : indices.length ≤ 255) :
    s.advance.indicesArrayLength ≤ s.advance.currentPatternIndicesIndex ↔
      indices.length ≤ a + 1 := by
  rw [UInt8.le_iff_toNat_le, show s.advance.currentPatternIndicesIndex.toNat = a + 1 from
    h.indicesIndex_succ hlen, show s.advance.indicesArrayLength.toNat = indices.length from
    h.arrayLength]

/-- The pattern the handler goes on with. -/
theorem currentPattern_advance (h : Placed flash indices a b p s) (hlen : indices.length ≤ 255)
    (ha : a + 1 < indices.length) :
    s.advance.currentPattern flash = storedPattern flash indices[a + 1].toNat := by
  rw [currentPattern, show s.advance.currentPatternIndicesIndex.toNat = a + 1 from
    h.indicesIndex_succ hlen, show s.advance.patternIndices = indices from h.patternIndices,
    List.getElem?_eq_getElem ha, Option.bind_some]

/-- Inside a pattern an interrupt loads the next period. -/
theorem step_inside (h : Placed flash indices a b p s) (hb : b < p.getLength) :
    ∃ s', s.tim14IrqHandler flash true = some s' ∧ Placed flash indices a (b + 1) p s' ∧
      s'.arr = p.periods ⟨b, Nat.lt_of_lt_of_le hb p.getLength_le⟩ ∧
      s'.arrLoads = s.arrLoads ++ [s'.arr] ∧ s'.pa0 = !s.pa0 := by
  have hle := p.getLength_le
  have hidx : s.currentPatternPeriodIndex.toNat < 8 := by rw [h.periodIndex]; omega
  obtain ⟨s', hload, hsend, harr, hind, hlength, hpos, hper, hloads⟩ := loadPeriod_eq_some hidx p
  have hfin : (⟨s.currentPatternPeriodIndex.toNat, hidx⟩ : Fin 8) =
      ⟨b, Nat.lt_of_lt_of_le hb hle⟩ := Fin.ext h.periodIndex
  refine ⟨s', by rw [h.irq_inside hb, hload], ⟨hsend.trans h.sending,
    hind.trans h.patternIndices, by rw [hlength, h.arrayLength], by rw [hpos, h.indicesIndex], ?_,
    h.pattern, by omega, hb⟩, by rw [harr, hfin], by rw [hloads, harr], pa0_of_loadPeriod hload⟩
  rw [hper, UInt8.toNat_add, h.periodIndex, UInt8.toNat_one]
  omega

/-- Behind the last period of a pattern an interrupt loads the first period of the
next one, which may be empty. -/
theorem load_next (h : Placed flash indices a b p s) (hlen : indices.length ≤ 255)
    (hb : p.getLength ≤ b) (ha : a + 1 < indices.length) {q : PeriodPattern}
    (hq : storedPattern flash indices[a + 1].toNat = some q) :
    ∃ s', s.tim14IrqHandler flash true = some s' ∧ s'.sending = true ∧ s'.arr = q.periods 0 ∧
      s'.arrLoads = s.arrLoads ++ [s'.arr] ∧ s'.pa0 = (!s.pa0) ∧
      (1 ≤ q.getLength → Placed flash indices (a + 1) 1 q s') := by
  have hnext : s.nextPattern flash = s.advance.loadPeriod q := by
    rw [nextPattern, if_neg (by rw [h.length_le_iff hlen]; omega),
      h.currentPattern_advance hlen ha, hq, Option.bind_some]
  have hzero : s.advance.currentPatternPeriodIndex.toNat < 8 := Nat.zero_lt_succ 7
  obtain ⟨s', hload, hsend, harr, hind, hlength, hpos, hper, hloads⟩ := loadPeriod_eq_some hzero q
  have hpattern : indices[a + 1]?.bind (fun index => storedPattern flash index.toNat) = some q := by
    rw [List.getElem?_eq_getElem ha, Option.bind_some, hq]
  refine ⟨s', by rw [h.irq_behind hb, hnext, hload], hsend.trans h.sending, harr,
    by rw [hloads, harr]; rfl, pa0_of_loadPeriod (s := s.advance) hload, fun hone => ?_⟩
  exact ⟨hsend.trans h.sending, hind.trans h.patternIndices, by rw [hlength]; exact h.arrayLength,
    by rw [hpos]; exact h.indicesIndex_succ hlen, by rw [hper]; rfl, hpattern, le_refl 1, hone⟩

/-- Behind the last period of the last pattern an interrupt stops the sender. -/
theorem step_last (h : Placed flash indices a b p s) (hlen : indices.length ≤ 255)
    (hb : p.getLength ≤ b) (ha : indices.length = a + 1) :
    ∃ s', s.tim14IrqHandler flash true = some s' ∧ s'.sending = false ∧
      s'.arrLoads = s.arrLoads ∧ s'.pa0 = s.pa0 := by
  rw [h.irq_behind hb]
  exact ⟨_, if_pos ((h.length_le_iff hlen).mpr (by omega)), rfl, rfl, rfl⟩

/-- **One interrupt.**  Either nothing is left and the sender stops, or the head of
what is left is loaded, the pin is toggled, and the cursors are placed behind it. -/
theorem step (h : Placed flash indices a b p s) (hall : AllStored flash indices)
    (hlen : indices.length ≤ 255) :
    (Cursor.rest flash indices a b p = [] ∧ ∃ s', s.tim14IrqHandler flash true = some s' ∧
      s'.sending = false ∧ s'.arrLoads = s.arrLoads ∧ s'.pa0 = s.pa0) ∨
    ∃ s' a' b' p', s.tim14IrqHandler flash true = some s' ∧ Placed flash indices a' b' p' s' ∧
      Cursor.rest flash indices a b p = s'.arr :: Cursor.rest flash indices a' b' p' ∧
      s'.arr ≠ 0 ∧ s'.arrLoads = s.arrLoads ++ [s'.arr] ∧ s'.pa0 = !s.pa0 := by
  have ha := h.lt_length
  rcases Nat.lt_or_ge b p.getLength with hb | hb
  · obtain ⟨s', hirq, hs', harr, hloads, hpin⟩ := h.step_inside hb
    refine Or.inr ⟨s', a, b + 1, p, hirq, hs', ?_, ?_, hloads, hpin⟩
    · rw [Cursor.rest, PeriodPattern.drop_activePeriods hb, List.cons_append, Cursor.rest, harr]
    · rw [harr]
      exact PeriodPattern.periods_ne_zero hb
  rcases Nat.lt_or_ge (a + 1) indices.length with hnext | hend
  · obtain ⟨q, hq, hone⟩ := hall _ (List.getElem_mem hnext)
    obtain ⟨s', hirq, -, harr, hloads, hpin, hs'⟩ := h.load_next hlen hb hnext hq
    have hactive := PeriodPattern.drop_activePeriods hone
    rw [List.drop_zero] at hactive
    refine Or.inr ⟨s', a + 1, 1, q, hirq, hs' hone, ?_, ?_, hloads, hpin⟩
    · rw [Cursor.rest, PeriodPattern.drop_activePeriods_eq_nil hb, List.nil_append,
        List.drop_eq_getElem_cons hnext, List.flatMap_cons, sentPeriods_of_stored hq, hactive,
        List.cons_append, Cursor.rest, harr]
      rfl
    · rw [harr]
      exact PeriodPattern.periods_ne_zero (i := 0) hone
  · refine Or.inl ⟨?_, h.step_last hlen hb (by omega)⟩
    rw [Cursor.rest, PeriodPattern.drop_activePeriods_eq_nil hb, List.drop_eq_nil_of_le (by omega)]
    rfl

end Placed

end Cursors

theorem waitWhileSending_of_done {s : Sender} (h : s.sending = false) (flash : Memory) (n : ℕ) :
    s.waitWhileSending flash n = some s := by
  cases n <;> simp [waitWhileSending, h]

theorem waitWhileSending_succ {flash : Memory} {s s' : Sender} {n : ℕ} (hsend : s.sending = true)
    (harr : s.arr ≠ 0) (hirq : s.tim14IrqHandler flash true = some s') :
    s.waitWhileSending flash (n + 1) = s'.waitWhileSending flash n := by
  rw [waitWhileSending, if_pos hsend, if_neg harr, hirq, Option.bind_some]

/-- **The interrupts load what is left to be sent, and then stop the sender.** -/
theorem waitWhileSending_of_cursor {flash : Memory} {indices : List UInt8}
    (hall : AllStored flash indices) (hlen : indices.length ≤ 255) {n a b : ℕ} {p : PeriodPattern}
    {s : Sender} (h : Cursor flash indices a b p s)
    (hn : (Cursor.rest flash indices a b p).length + 1 ≤ n) :
    ∃ s', s.waitWhileSending flash n = some s' ∧ s'.sending = false ∧
      s'.arrLoads = s.arrLoads ++ Cursor.rest flash indices a b p := by
  induction n generalizing a b p s with
  | zero => exact absurd hn (by omega)
  | succ n ih =>
    rcases h.placed.step hall hlen with
      ⟨hrest, t, hirq, hdone, hloads, -⟩ | ⟨t, a', b', p', hirq, ht, hrest, harr, hloads, -⟩
    · refine ⟨t, ?_, hdone, ?_⟩
      · rw [waitWhileSending_succ h.sending h.arr_ne_zero hirq, waitWhileSending_of_done hdone]
      · rw [hloads, hrest, List.append_nil]
    · rw [hrest, List.length_cons] at hn
      obtain ⟨s', hwait, hdone, hall'⟩ := ih (ht.cursor harr) (by omega)
      refine ⟨s', ?_, hdone, ?_⟩
      · rw [waitWhileSending_succ h.sending h.arr_ne_zero hirq, hwait]
      · rw [hall', hloads, hrest, List.append_assoc, List.singleton_append]

/-! ## The whole transmission -/

section Transmission

variable {flash : Memory} {indices : List UInt8}

/-- The periods of a list are the first period of its first pattern and then what
the cursor has left to load. -/
theorem flatMap_sentPeriods_eq {q : PeriodPattern} (hne : indices ≠ [])
    (hq : storedPattern flash (indices.head hne).toNat = some q) (hone : 1 ≤ q.getLength) :
    indices.flatMap (sentPeriods flash) = q.periods 0 :: Cursor.rest flash indices 0 1 q := by
  obtain ⟨index, rest, rfl⟩ := List.exists_cons_of_ne_nil hne
  have hactive := PeriodPattern.drop_activePeriods hone
  rw [List.drop_zero] at hactive
  rw [List.head_cons] at hq
  rw [List.flatMap_cons, sentPeriods_of_stored hq, hactive, List.cons_append]
  rfl

/-- The cursors of the state `send_434` sets up are behind the first period of the
first pattern. -/
theorem placed_of_sendStart {q : PeriodPattern} (hne : indices ≠ []) (hlen : indices.length ≤ 255)
    (hq : storedPattern flash (indices.head hne).toNat = some q) (hone : 1 ≤ q.getLength)
    {s t : Sender} (h : s.sendStart flash indices (UInt8.ofNat indices.length) = some t) :
    Placed flash indices 0 1 q t := by
  have hcount : (UInt8.ofNat indices.length).toNat = indices.length := by
    rw [UInt8.toNat_ofNat']
    omega
  have hpattern : indices[0]?.bind (fun index => storedPattern flash index.toNat) = some q := by
    obtain ⟨index, rest, rfl⟩ := List.exists_cons_of_ne_nil hne
    exact hq
  obtain ⟨first, -, rfl⟩ := Option.map_eq_some_iff.mp h
  refine ⟨rfl, ?_, hcount, rfl, rfl, hpattern, le_refl 1, hone⟩
  show indices.take (UInt8.ofNat indices.length).toNat = indices
  rw [hcount, List.take_length]

/-- The state `send_434` sets up: the cursor is behind the first period of the
first pattern, but the register holds the first period of stored pattern 0. -/
theorem sendStart_eq_some {first q : PeriodPattern} (hne : indices ≠ [])
    (hlen : indices.length ≤ 255) (hfirst : storedPattern flash 0 = some first)
    (hq : storedPattern flash (indices.head hne).toNat = some q) (hone : 1 ≤ q.getLength)
    (s : Sender) :
    ∃ t, s.sendStart flash indices (UInt8.ofNat indices.length) = some t ∧ t.sending = true ∧
      t.arr = first.periods 0 ∧ t.arrLoads = s.arrLoads ++ [first.periods 0] ∧
      (first.periods 0 ≠ 0 → Cursor flash indices 0 1 q t) := by
  have hstart : ∃ t, s.sendStart flash indices (UInt8.ofNat indices.length) = some t ∧
      t.sending = true ∧ t.arr = first.periods 0 ∧
      t.arrLoads = s.arrLoads ++ [first.periods 0] :=
    ⟨_, by rw [sendStart]; exact congrArg (Option.map _) hfirst, rfl, rfl, rfl⟩
  obtain ⟨t, ht, hsend, harr, hloads⟩ := hstart
  refine ⟨t, ht, hsend, harr, hloads, fun hzero => ?_⟩
  exact (placed_of_sendStart hne hlen hq hone ht).cursor (by rwa [harr])

/-- The transmission loads the first period of stored pattern 0 and then what the
cursor has left; a zero first period hangs it. -/
theorem send434_eq_some_iff {first q : PeriodPattern} (hne : indices ≠ [])
    (hlen : indices.length ≤ 255) (hall : AllStored flash indices)
    (hfirst : storedPattern flash 0 = some first)
    (hq : storedPattern flash (indices.head hne).toNat = some q) (ic : Ic) (s : Sender)
    (loads : List UInt16) :
    (∃ ic' s', send434 flash indices (UInt8.ofNat indices.length) ic s = some (ic', s') ∧
        s'.arrLoads = s.arrLoads ++ loads) ↔
      first.periods 0 ≠ 0 ∧ loads = first.periods 0 :: Cursor.rest flash indices 0 1 q := by
  obtain ⟨q', hq', hone⟩ := hall _ (List.head_mem hne)
  obtain rfl := Option.some.inj (hq'.symm.trans hq)
  obtain ⟨t, hstart, hsend, harr, hloads, hcursor⟩ := sendStart_eq_some hne hlen hfirst hq hone s
  by_cases hzero : first.periods 0 = 0
  · -- the timer does not count, so the wait does not end
    refine iff_of_false ?_ fun h => h.1 hzero
    rintro ⟨ic', s', hsent, -⟩
    rw [send434, hstart, Option.bind_some, maxInterrupts, waitWhileSending, if_pos hsend,
      if_pos (harr.trans hzero)] at hsent
    exact absurd hsent (by simp)
  · have hbound := length_flatMap_sentPeriods_le flash indices
    rw [flatMap_sentPeriods_eq hne hq hone, List.length_cons] at hbound
    obtain ⟨u, hwait, -, hrest⟩ :=
      waitWhileSending_of_cursor hall hlen (hcursor hzero) (n := maxInterrupts)
        (by rw [maxInterrupts]; omega)
    rw [hloads, List.append_assoc, List.singleton_append] at hrest
    constructor
    · rintro ⟨ic', s', hsent, hs'⟩
      rw [send434, hstart, Option.bind_some, hwait, Option.map_some, Option.some.injEq] at hsent
      obtain ⟨-, rfl⟩ := Prod.mk.inj hsent
      exact ⟨hzero, List.append_cancel_left (hs'.symm.trans hrest)⟩
    · rintro ⟨-, rfl⟩
      refine ⟨ic.disableIc.enableIc, { u with patternIndices := [], indicesArrayLength := 0 }, ?_,
        hrest⟩
      rw [send434, hstart, Option.bind_some, hwait, Option.map_some]

/-- **When the sender sends what it was asked to.**  For every store and every
list of at most 255 indices of stored patterns that are not empty, `send_434`
comes back and has loaded the periods of the listed patterns, in order, if and
only if stored pattern 0 exists and has the same first period as the first
pattern of the list. -/
theorem send434_loads_iff (hne : indices ≠ []) (hlen : indices.length ≤ 255)
    (hall : AllStored flash indices) (ic : Ic) (s : Sender) :
    (∃ ic' s', send434 flash indices (UInt8.ofNat indices.length) ic s = some (ic', s') ∧
        s'.arrLoads = s.arrLoads ++ indices.flatMap (sentPeriods flash)) ↔
      ∃ first q, storedPattern flash 0 = some first ∧
        storedPattern flash (indices.head hne).toNat = some q ∧
        first.periods 0 = q.periods 0 := by
  obtain ⟨q, hq, hone⟩ := hall _ (List.head_mem hne)
  cases hfirst : storedPattern flash 0 with
  | none =>
    refine iff_of_false ?_ (by rintro ⟨first, q', h, -⟩; exact absurd h (by simp))
    rintro ⟨ic', s', hsent, -⟩
    have hstart : s.sendStart flash indices (UInt8.ofNat indices.length) = none := by
      rw [sendStart]
      exact congrArg (Option.map _) hfirst
    rw [send434, hstart] at hsent
    exact absurd hsent (by simp)
  | some first =>
    rw [send434_eq_some_iff hne hlen hall hfirst hq, flatMap_sentPeriods_eq hne hq hone]
    constructor
    · rintro ⟨-, hloads⟩
      exact ⟨first, q, rfl, hq, (List.cons.inj hloads).1.symm⟩
    · rintro ⟨first', q', h, hq', heq⟩
      obtain rfl := Option.some.inj h
      obtain rfl := Option.some.inj (hq.symm.trans hq')
      refine ⟨?_, by rw [heq]⟩
      rw [heq]
      exact PeriodPattern.periods_ne_zero (i := 0) hone

end Transmission

/-- Two patterns with different first periods. -/
def twoPatterns : List PeriodPattern :=
  [⟨0, ![360, 1080, 0, 0, 0, 0, 0, 0], 76⟩, ⟨0, ![500, 700, 0, 0, 0, 0, 0, 0], 76⟩]

/-- A chip with these two patterns stored. -/
def twoPatternsFlash : Memory := Flash.apply (savePatterns twoPatterns 2) blank

/-- Sending pattern 1 and then pattern 0. -/
theorem send434_loads_iff_twoPatterns :
    (∃ ic' s', send434 twoPatternsFlash [1, 0] 2 Ic.initial Sender.initial = some (ic', s') ∧
        s'.arrLoads = Sender.initial.arrLoads ++ [1, 0].flatMap (sentPeriods twoPatternsFlash)) ↔
      ∃ first q, storedPattern twoPatternsFlash 0 = some first ∧
        storedPattern twoPatternsFlash 1 = some q ∧ first.periods 0 = q.periods 0 := by
  refine send434_loads_iff (List.cons_ne_nil 1 [0]) (by decide) ?_ _ _
  intro index hindex
  have hfit : Fits twoPatterns.length := by decide
  have hpad : ∀ p ∈ twoPatterns, p.padding = 0 := by decide
  rcases List.mem_pair.mp hindex with rfl | rfl
  · exact ⟨_, storedPattern_savePatterns hfit hpad blank 1 (by decide), by decide⟩
  · exact ⟨_, storedPattern_savePatterns hfit hpad blank 0 (by decide), by decide⟩

/-- **The first value sent belongs to the wrong pattern.**  Asked to send pattern
1 alone, the sender begins with the first period of pattern 0. -/
theorem not_send434_loads_twoPatterns :
    ¬ ∃ ic' s', send434 twoPatternsFlash [1] 1 Ic.initial Sender.initial = some (ic', s') ∧
      s'.arrLoads = Sender.initial.arrLoads ++ [1].flatMap (sentPeriods twoPatternsFlash) := by
  rintro ⟨ic', s', hsent, hloads⟩
  have hrun : (send434 twoPatternsFlash [1] 1 Ic.initial Sender.initial).map
      (fun r => r.2.arrLoads) = some [0, 360, 700] := by decide
  have hasked : [1].flatMap (sentPeriods twoPatternsFlash) = [500, 700] := by decide
  rw [hsent, Option.map_some, Option.some.injEq, hloads, hasked] at hrun
  exact absurd hrun (by decide)

end Stm32Adaptive
