import Mathlib.Algebra.GroupWithZero.Nat
import Stm32Adaptive.Library.Runs
import Stm32Adaptive.SenderRun

/-!
# Counting the sender's interrupts

Whether a timer keeps raising update interrupts depends on what is loaded into it;
what the handler does with them does not.  Here the interrupts are given, one after
the other, and the question is how many the handler takes.

By `Placed.step` each interrupt uses up one of the periods that are left, until
none is.  So the one that stops the sender is the one whose number is the number of
all periods: the first period was loaded by hand, each later one took an interrupt,
and one more found nothing left.  `send434_interrupts` adds what happens on the way:
where the two arrays are read, how far the cursors get, and how often the pin is
toggled.

Where the arrays are read is a list of positions, and the handler does not write it
down.  What it loads does: `arrLoads_of_tim14IrqHandler` says that the values loaded
are those at the positions in `periodReads`.  For the list of indices,
`tim14IrqHandler_withIndices` says that another list which agrees at the positions in
`indexReads` makes no difference, and `indexReads_lt_of_tim14IrqHandler` that a list
which ends before one of them does.
-/

namespace Stm32Adaptive

open FlashMemory Flash Sender

/-! ## What is counted -/

/-- The number of periods sent for one index. -/
def sentLength (flash : Memory) (index : UInt8) : ℕ :=
  match storedPattern flash index.toNat with
  | none => 0
  | some p => p.getLength

/-- The state after some update interrupts. -/
def afterInterrupts (flash : Memory) (s : Sender) (interrupts : ℕ) : Option Sender :=
  Runs.run (fun s (_ : Unit) => s.tim14IrqHandler flash true) s (List.replicate interrupts ())

/-- The positions at which an interrupt reads `_pattern_indices`: that of the current
pattern, and behind its last period that of the next one, if the list goes on. -/
def indexReads (flash : Memory) (s : Sender) : List ℕ :=
  s.currentPatternIndicesIndex.toNat ::
    match s.currentPattern flash with
    | none => []
    | some currentPeriod =>
      if currentPeriod.getLength ≤ s.currentPatternPeriodIndex.toNat ∧
          ¬ s.advance.indicesArrayLength ≤ s.advance.currentPatternIndicesIndex then
        [s.advance.currentPatternIndicesIndex.toNat]
      else []

/-- The patterns of which an interrupt loads a period, with the position of this
period. -/
def periodReads (flash : Memory) (s : Sender) : List (PeriodPattern × ℕ) :=
  match s.currentPattern flash with
  | none => []
  | some currentPeriod =>
    if currentPeriod.getLength ≤ s.currentPatternPeriodIndex.toNat then
      if s.advance.indicesArrayLength ≤ s.advance.currentPatternIndicesIndex then []
      else
        match s.advance.currentPattern flash with
        | none => []
        | some nextPeriod => [(nextPeriod, s.advance.currentPatternPeriodIndex.toNat)]
    else [(currentPeriod, s.currentPatternPeriodIndex.toNat)]

/-- The value at such a position. -/
def periodRead (read : PeriodPattern × ℕ) : UInt16 :=
  read.1.periods ⟨read.2 % 8, Nat.mod_lt read.2 (by decide)⟩

/-- The sender with another list of indices in the place of its own. -/
def Sender.withIndices (s : Sender) (indices : List UInt8) : Sender :=
  { s with patternIndices := indices }

/-- The number of interrupts that change the pin. -/
def pinToggles (flash : Memory) (s : Sender) (interrupts : ℕ) : ℕ :=
  (List.range interrupts).countP fun k =>
    (afterInterrupts flash s (k + 1)).map Sender.pa0 ≠ (afterInterrupts flash s k).map Sender.pa0

variable {flash : Memory} {indices : List UInt8} {a b : ℕ} {p : PeriodPattern} {s t u : Sender}

theorem length_sentPeriods (flash : Memory) (index : UInt8) :
    (sentPeriods flash index).length = sentLength flash index := by
  unfold sentPeriods sentLength
  cases storedPattern flash index.toNat with
  | none => rfl
  | some p => exact p.length_activePeriods

theorem afterInterrupts_succ {k : ℕ} (h : afterInterrupts flash s k = some u) :
    afterInterrupts flash s (k + 1) = u.tim14IrqHandler flash true := by
  rw [afterInterrupts, List.replicate_succ', Runs.run_concat_of_run h]

/-! ## What an interrupt reads -/

/-- Loading a period loads the value at the period cursor. -/
theorem arrLoads_of_loadPeriod (h : s.loadPeriod p = some t) :
    t.arrLoads = s.arrLoads ++ [periodRead (p, s.currentPatternPeriodIndex.toNat)] := by
  unfold loadPeriod at h
  split at h
  · rename_i hlt
    have hcursor : periodRead (p, s.currentPatternPeriodIndex.toNat) =
        p.periods ⟨s.currentPatternPeriodIndex.toNat, hlt⟩ :=
      congrArg p.periods (Fin.ext (Nat.mod_eq_of_lt hlt))
    rw [← Option.some.inj h, hcursor]
    rfl
  · exact absurd h.symm (Option.some_ne_none t)

/-- **What an interrupt loads** are the periods at the positions it reads. -/
theorem arrLoads_of_tim14IrqHandler (h : s.tim14IrqHandler flash true = some t) :
    t.arrLoads = s.arrLoads ++ (periodReads flash s).map periodRead := by
  rw [tim14IrqHandler, if_pos rfl] at h
  obtain ⟨currentPeriod, hcurrent, h⟩ := Option.bind_eq_some_iff.mp h
  simp only [periodReads, hcurrent]
  split at h
  · rename_i hbehind
    rw [if_pos hbehind]
    unfold nextPattern at h
    split at h
    · rename_i hdone
      rw [if_pos hdone, ← Option.some.inj h, List.map_nil, List.append_nil]
      rfl
    · rename_i hmore
      obtain ⟨nextPeriod, hnext, h⟩ := Option.bind_eq_some_iff.mp h
      rw [if_neg hmore, hnext]
      exact arrLoads_of_loadPeriod h
  · rename_i hinside
    rw [if_neg hinside]
    exact arrLoads_of_loadPeriod h

theorem loadPeriod_withIndices (s : Sender) (p : PeriodPattern) (others : List UInt8) :
    (s.withIndices others).loadPeriod p = (s.loadPeriod p).map (·.withIndices others) := by
  by_cases h : s.currentPatternPeriodIndex.toNat < 8
  · rw [loadPeriod, loadPeriod, dif_pos h,
      dif_pos (show (s.withIndices others).currentPatternPeriodIndex.toNat < 8 from h)]
    rfl
  · rw [loadPeriod, loadPeriod, dif_neg h,
      dif_neg (show ¬ (s.withIndices others).currentPatternPeriodIndex.toNat < 8 from h)]
    rfl

theorem currentPattern_withIndices {others : List UInt8}
    (h : others[s.currentPatternIndicesIndex.toNat]? =
      s.patternIndices[s.currentPatternIndicesIndex.toNat]?) :
    (s.withIndices others).currentPattern flash = s.currentPattern flash := by
  rw [currentPattern, currentPattern, ← h]
  rfl

/-- **Which indices an interrupt depends on**: lists that agree at the positions it reads
make no difference. -/
theorem tim14IrqHandler_withIndices {others : List UInt8}
    (h : ∀ position ∈ indexReads flash s, others[position]? = s.patternIndices[position]?) :
    (s.withIndices others).tim14IrqHandler flash true =
      (s.tim14IrqHandler flash true).map (·.withIndices others) := by
  have hcurrent : (s.withIndices others).currentPattern flash = s.currentPattern flash :=
    currentPattern_withIndices (h _ List.mem_cons_self)
  rw [tim14IrqHandler, tim14IrqHandler, if_pos rfl, if_pos rfl, hcurrent]
  cases hp : s.currentPattern flash with
  | none => rfl
  | some currentPeriod =>
    simp only [indexReads, hp] at h
    rw [Option.bind_some, Option.bind_some]
    by_cases hbehind : currentPeriod.getLength ≤ s.currentPatternPeriodIndex.toNat
    · rw [if_pos hbehind, if_pos (show currentPeriod.getLength ≤
        (s.withIndices others).currentPatternPeriodIndex.toNat from hbehind)]
      by_cases hdone : s.advance.indicesArrayLength ≤ s.advance.currentPatternIndicesIndex
      · rw [nextPattern, nextPattern, if_pos hdone, if_pos (show
          (s.withIndices others).advance.indicesArrayLength ≤
            (s.withIndices others).advance.currentPatternIndicesIndex from hdone)]
        rfl
      · rw [if_pos ⟨hbehind, hdone⟩] at h
        have hnext : (s.withIndices others).advance.currentPattern flash =
            s.advance.currentPattern flash :=
          currentPattern_withIndices (s := s.advance) (h _ (by simp))
        rw [nextPattern, nextPattern, if_neg hdone, if_neg (show ¬
          (s.withIndices others).advance.indicesArrayLength ≤
            (s.withIndices others).advance.currentPatternIndicesIndex from hdone), hnext]
        cases s.advance.currentPattern flash with
        | none => rfl
        | some nextPeriod => exact loadPeriod_withIndices s.advance nextPeriod others
    · rw [if_neg hbehind, if_neg (show ¬ currentPeriod.getLength ≤
        (s.withIndices others).currentPatternPeriodIndex.toNat from hbehind)]
      exact loadPeriod_withIndices s currentPeriod others

/-- An interrupt that is handled has found an index at each position it reads. -/
theorem indexReads_lt_of_tim14IrqHandler (h : s.tim14IrqHandler flash true = some t) :
    ∀ position ∈ indexReads flash s, position < s.patternIndices.length := by
  have hlt : ∀ {r : Sender} {p : PeriodPattern}, r.currentPattern flash = some p →
      r.currentPatternIndicesIndex.toNat < r.patternIndices.length := by
    intro r p hp
    obtain ⟨index, hindex, -⟩ := Option.bind_eq_some_iff.mp hp
    exact (List.getElem?_eq_some_iff.mp hindex).choose
  rw [tim14IrqHandler, if_pos rfl] at h
  obtain ⟨currentPeriod, hcurrent, h⟩ := Option.bind_eq_some_iff.mp h
  simp only [indexReads, hcurrent]
  rw [List.forall_mem_cons]
  refine ⟨hlt hcurrent, fun position hposition => ?_⟩
  split at hposition
  · rename_i hmore
    rw [if_pos hmore.1, nextPattern, if_neg hmore.2] at h
    obtain ⟨nextPeriod, hnext, -⟩ := Option.bind_eq_some_iff.mp h
    rw [List.mem_singleton.mp hposition]
    exact hlt (r := s.advance) hnext
  · exact absurd hposition List.not_mem_nil

/-! ## At one interrupt -/

/-- The handler loads periods below the length of their pattern. -/
theorem Placed.periodReads_lt (h : Placed flash indices a b p s) (hall : AllStored flash indices)
    (hlen : indices.length ≤ 255) :
    ∀ read ∈ periodReads flash s, read.2 < read.1.getLength := by
  intro read hread
  simp only [periodReads, h.currentPattern_eq] at hread
  split at hread
  · split at hread
    · exact absurd hread List.not_mem_nil
    · rename_i hmore
      rw [h.length_le_iff hlen, not_le] at hmore
      obtain ⟨q, hq, hone⟩ := hall _ (List.getElem_mem hmore)
      rw [h.currentPattern_advance hlen hmore, hq] at hread
      rw [List.mem_singleton.mp hread]
      exact hone
  · rename_i hinside
    rw [List.mem_singleton.mp hread]
    exact not_le.mp hinside

/-- Neither cursor is at the end of its range. -/
theorem Placed.cursors_lt (h : Placed flash indices a b p s) (hlen : indices.length ≤ 255) :
    s.currentPatternIndicesIndex.toNat < 255 ∧ s.currentPatternPeriodIndex.toNat < 255 := by
  have ha := h.lt_length
  have hb := h.le_length
  have hp := p.getLength_le
  rw [h.indicesIndex, h.periodIndex]
  omega

/-! ## Interrupt after interrupt -/

/-- **While something is left the sender goes on**, and each interrupt so far has
toggled the pin. -/
theorem Placed.exists_afterInterrupts (h : Placed flash indices a b p s)
    (hall : AllStored flash indices) (hlen : indices.length ≤ 255) {k : ℕ}
    (hk : k ≤ (Cursor.rest flash indices a b p).length) :
    ∃ u a' b' p', afterInterrupts flash s k = some u ∧ Placed flash indices a' b' p' u ∧
      (Cursor.rest flash indices a' b' p').length + k = (Cursor.rest flash indices a b p).length ∧
      pinToggles flash s k = k := by
  induction k with
  | zero => exact ⟨s, a, b, p, rfl, h, rfl, rfl⟩
  | succ k ih =>
    obtain ⟨u, a', b', p', hu, hplaced, hleft, htoggles⟩ := ih (by omega)
    rcases hplaced.step hall hlen with ⟨hnil, -⟩ | ⟨v, a'', b'', p'', hirq, hv, hrest, -, -, hpin⟩
    · rw [hnil, List.length_nil] at hleft
      omega
    · have hnext : afterInterrupts flash s (k + 1) = some v := by
        rw [afterInterrupts_succ hu, hirq]
      refine ⟨v, a'', b'', p'', hnext, hv, ?_, ?_⟩
      · rw [hrest, List.length_cons] at hleft
        omega
      · have hchanged : v.pa0 ≠ u.pa0 := by
          rw [hpin]
          exact Bool.not_ne_self _
        rw [pinToggles, List.range_succ, List.countP_append, List.countP_singleton, ← pinToggles,
          htoggles, hnext, hu]
        simp [hchanged]

/-- The interrupt that finds nothing left stops the sender and leaves the pin. -/
theorem Placed.stops (h : Placed flash indices a b p s) (hall : AllStored flash indices)
    (hlen : indices.length ≤ 255) :
    ∃ u, afterInterrupts flash s ((Cursor.rest flash indices a b p).length + 1) = some u ∧
      u.sending = false ∧
      pinToggles flash s ((Cursor.rest flash indices a b p).length + 1) =
        (Cursor.rest flash indices a b p).length := by
  obtain ⟨u, a', b', p', hu, hplaced, hleft, htoggles⟩ :=
    h.exists_afterInterrupts hall hlen (le_refl _)
  rcases hplaced.step hall hlen with ⟨-, v, hirq, hdone, -, hpin⟩ |
    ⟨v, a'', b'', p'', -, -, hrest, -⟩
  · have hnext := afterInterrupts_succ hu
    rw [hirq] at hnext
    refine ⟨v, hnext, hdone, ?_⟩
    rw [pinToggles, List.range_succ, List.countP_append, List.countP_singleton, ← pinToggles,
      htoggles, hnext, hu]
    simp [hpin]
  · rw [hrest, List.length_cons] at hleft
    omega

/-- The number of periods sent for a list. -/
def totalPeriods (flash : Memory) (indices : List UInt8) : ℕ :=
  (indices.map (sentLength flash)).sum

/-- What the cursor has left at the start are all periods but the first. -/
theorem length_rest_succ {q : PeriodPattern} (hne : indices ≠ [])
    (hq : storedPattern flash (indices.head hne).toNat = some q) (hone : 1 ≤ q.getLength) :
    (Cursor.rest flash indices 0 1 q).length + 1 = totalPeriods flash indices := by
  have hlength := congrArg List.length (flatMap_sentPeriods_eq hne hq hone)
  rw [List.length_flatMap, List.length_cons] at hlength
  rw [← hlength, totalPeriods]
  exact congrArg List.sum (List.map_congr_left fun index _ => length_sentPeriods flash index)

/-- **Counting the sender's interrupts.**  Let `t` be the state `send_434` sets up for
at most 255 indices of stored patterns that are not empty.  The sender stops at the
interrupt whose number is the number of all their periods, and not before.  Until
then an interrupt reads `_pattern_indices` inside the list, as what it does depends on
these positions only; what it loads are periods below the length of their pattern; and
neither cursor is at the end of its range.  The pin is toggled at all of these
interrupts but the last. -/
theorem send434_interrupts (hne : indices ≠ []) (hlen : indices.length ≤ 255)
    (hall : AllStored flash indices)
    (hstart : s.sendStart flash indices (UInt8.ofNat indices.length) = some t) :
    (∀ k ≤ totalPeriods flash indices, ∃ u, afterInterrupts flash t k = some u ∧
      (u.sending = true ↔ k < totalPeriods flash indices)) ∧
    (∀ k < totalPeriods flash indices, ∀ u, afterInterrupts flash t k = some u →
      u.patternIndices = indices ∧
      (∀ position ∈ indexReads flash u, position < indices.length) ∧
      (∀ others : List UInt8,
        (∀ position ∈ indexReads flash u, others[position]? = indices[position]?) →
        (u.withIndices others).tim14IrqHandler flash true =
          (u.tim14IrqHandler flash true).map (·.withIndices others)) ∧
      (∀ read ∈ periodReads flash u, read.2 < read.1.getLength) ∧
      (∀ v, afterInterrupts flash t (k + 1) = some v →
        v.arrLoads = u.arrLoads ++ (periodReads flash u).map periodRead) ∧
      u.currentPatternIndicesIndex.toNat < 255 ∧ u.currentPatternPeriodIndex.toNat < 255) ∧
    pinToggles flash t (totalPeriods flash indices) = totalPeriods flash indices - 1 := by
  obtain ⟨q, hq, hone⟩ := hall _ (List.head_mem hne)
  have hplaced := placed_of_sendStart hne hlen hq hone hstart
  have htotal := length_rest_succ hne hq hone
  obtain ⟨v, hv, hdone, htoggles⟩ := hplaced.stops hall hlen
  rw [htotal] at hv htoggles
  have hstops : ∀ k ≤ totalPeriods flash indices, ∃ u, afterInterrupts flash t k = some u ∧
      (u.sending = true ↔ k < totalPeriods flash indices) := by
    intro k hk
    rcases Nat.lt_or_eq_of_le hk with hlt | rfl
    · obtain ⟨u, a, b, p, hu, hat, -, -⟩ := hplaced.exists_afterInterrupts hall hlen
        (show k ≤ _ by omega)
      exact ⟨u, hu, iff_of_true hat.sending hlt⟩
    · exact ⟨v, hv, by rw [hdone]; exact iff_of_false Bool.false_ne_true (lt_irrefl _)⟩
  refine ⟨hstops, ?_, by omega⟩
  intro k hk u hu
  obtain ⟨u', a, b, p, hu', hat, -, -⟩ := hplaced.exists_afterInterrupts hall hlen
    (show k ≤ _ by omega)
  obtain rfl := Option.some.inj (hu'.symm.trans hu)
  obtain ⟨next, hnext, -⟩ := hstops (k + 1) hk
  rw [afterInterrupts_succ hu] at hnext
  have hindices := hat.patternIndices
  refine ⟨hindices, ?_, ?_, hat.periodReads_lt hall hlen, ?_, hat.cursors_lt hlen⟩
  · rw [← hindices]
    exact indexReads_lt_of_tim14IrqHandler hnext
  · intro others hothers
    rw [← hindices] at hothers
    exact tim14IrqHandler_withIndices hothers
  · intro w hw
    rw [afterInterrupts_succ hu] at hw
    exact arrLoads_of_tim14IrqHandler hw

/-- Two patterns of two periods each take four interrupts and toggle the pin three
times. -/
theorem send434_interrupts_twoPatterns :
    ∃ t, Sender.initial.sendStart twoPatternsFlash [1, 0] 2 = some t ∧
      (∃ u, afterInterrupts twoPatternsFlash t 4 = some u ∧ u.sending = false) ∧
      pinToggles twoPatternsFlash t 4 = 3 := by
  have hfit : Fits twoPatterns.length := by decide
  have hpad : ∀ p ∈ twoPatterns, p.padding = 0 := by decide
  have h0 : storedPattern twoPatternsFlash (0 : ℕ) = some _ :=
    storedPattern_savePatterns hfit hpad blank 0 (by decide)
  have h1 : storedPattern twoPatternsFlash (1 : ℕ) = some _ :=
    storedPattern_savePatterns hfit hpad blank 1 (by decide)
  have hall : AllStored twoPatternsFlash [1, 0] := by
    intro index hindex
    rcases List.mem_pair.mp hindex with rfl | rfl
    · exact ⟨_, h1, by decide⟩
    · exact ⟨_, h0, by decide⟩
  obtain ⟨t, ht, -⟩ := sendStart_eq_some (List.cons_ne_nil 1 [0]) (by decide) h0 h1 (by decide)
    Sender.initial
  have htotal : totalPeriods twoPatternsFlash [1, 0] = 4 := by decide
  obtain ⟨hstops, -, htoggles⟩ :=
    send434_interrupts (List.cons_ne_nil 1 [0]) (by decide) hall ht
  rw [htotal] at hstops htoggles
  obtain ⟨u, hu, hsending⟩ := hstops 4 le_rfl
  exact ⟨t, ht, ⟨u, hu, Bool.eq_false_iff.mpr fun h => lt_irrefl 4 (hsending.mp h)⟩, htoggles⟩

end Stm32Adaptive
