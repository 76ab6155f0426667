import Stm32Adaptive.FlashDiscipline
import Stm32Adaptive.MatchWindow

/-!
# Which tables can be sent

The command `C_TEST` sends a fixed list of indices, whatever is stored.  Neither
`send_434` nor the interrupt handler looks whether `getPattern` returned a null
pointer, and a pattern that begins with a zero stops the timer for good, since a
timer with an auto-reload value of zero does not count.

So a transmission that comes back has found every pattern of its list stored and not
empty: the first one, because its first period is loaded by hand, and each later one
at the interrupt that goes on to it (`stored_of_waitWhileSending`).  The converse is
the run of `SenderRun`.  The list begins with pattern 0 and has only 0, 1 and 2 in
it, and what is stored there is what the last upload began with; this is
`testCompletes_iff`.
-/

namespace Stm32Adaptive

open FlashMemory Flash Sender

/-! ## What a transmission that comes back has found -/

section Necessity

variable {flash : Memory} {indices : List UInt8} {a b : ℕ} {p : PeriodPattern} {s s' : Sender}

/-- A sender whose timer does not count is not waited for to the end. -/
theorem waitWhileSending_of_stuck (hsend : s.sending = true) (harr : s.arr = 0) (flash : Memory)
    (n : ℕ) : s.waitWhileSending flash n = none := by
  cases n <;> simp [waitWhileSending, hsend, harr]

/-- After the wait the sender has stopped. -/
theorem sending_of_waitWhileSending {n : ℕ} (h : s.waitWhileSending flash n = some s') :
    s'.sending = false := by
  induction n generalizing s with
  | zero =>
    rw [waitWhileSending] at h
    split at h
    · exact absurd h (by simp)
    · rename_i hsend
      rw [← Option.some.inj h]
      exact Bool.eq_false_iff.mpr hsend
  | succ n ih =>
    rw [waitWhileSending] at h
    split at h
    · split at h
      · exact absurd h (by simp)
      · obtain ⟨u, -, hwait⟩ := Option.bind_eq_some_iff.mp h
        exact ih hwait
    · rename_i hsend
      rw [← Option.some.inj h]
      exact Bool.eq_false_iff.mpr hsend

/-- **If the wait ends, what the list goes on with is stored and not empty.** -/
theorem stored_of_waitWhileSending (hlen : indices.length ≤ 255) {n : ℕ}
    (h : Placed flash indices a b p s) (harr : s.arr ≠ 0)
    (hwait : s.waitWhileSending flash n = some s') : AllStored flash (indices.drop (a + 1)) := by
  induction n generalizing a b p s with
  | zero =>
    rw [waitWhileSending, if_pos h.sending] at hwait
    exact absurd hwait (by simp)
  | succ n ih =>
    rcases Nat.lt_or_ge b p.getLength with hb | hb
    · obtain ⟨t, hirq, ht, hload, -⟩ := h.step_inside hb
      rw [waitWhileSending_succ h.sending harr hirq] at hwait
      exact ih ht (by rw [hload]; exact PeriodPattern.periods_ne_zero hb) hwait
    rcases Nat.lt_or_ge (a + 1) indices.length with hnext | hend
    · cases hq : storedPattern flash indices[a + 1].toNat with
      | none =>
        -- the null pointer is dereferenced
        rw [waitWhileSending, if_pos h.sending, if_neg harr, h.irq_behind hb, nextPattern,
          if_neg (by rw [h.length_le_iff hlen]; omega), h.currentPattern_advance hlen hnext, hq]
          at hwait
        exact absurd hwait (by simp)
      | some q =>
        obtain ⟨t, hirq, hsend, hload, -, -, ht⟩ := h.load_next hlen hb hnext hq
        rw [waitWhileSending_succ h.sending harr hirq] at hwait
        by_cases hzero : q.periods 0 = 0
        · rw [waitWhileSending_of_stuck hsend (hload.trans hzero)] at hwait
          exact absurd hwait (by simp)
        · have hone := PeriodPattern.one_le_getLength_iff.mpr hzero
          have hrest := ih (ht hone) (by rwa [hload]) hwait
          rw [List.drop_eq_getElem_cons hnext]
          exact List.forall_mem_cons.mpr ⟨⟨q, hq, hone⟩, hrest⟩
    · rw [List.drop_eq_nil_of_le (by omega)]
      exact fun index hindex => absurd hindex List.not_mem_nil

/-- **Which lists can be sent.**  A list that begins with pattern 0 is sent exactly
if all its patterns are stored and none of them is empty. -/
theorem send434_isSome_iff {rest : List UInt8} (hlen : (0 :: rest).length ≤ 255) (ic : Ic)
    (s : Sender) :
    (∃ r, send434 flash (0 :: rest) (UInt8.ofNat (0 :: rest).length) ic s = some r) ↔
      AllStored flash (0 :: rest) := by
  have hne : (0 : UInt8) :: rest ≠ [] := List.cons_ne_nil 0 rest
  constructor
  · rintro ⟨r, hr⟩
    obtain ⟨u, hu, -⟩ := Option.map_eq_some_iff.mp hr
    obtain ⟨t, ht, hwait⟩ := Option.bind_eq_some_iff.mp hu
    obtain ⟨first, hfirst, htfirst⟩ := Option.map_eq_some_iff.mp ht
    have harr : t.arr = first.periods 0 := by
      rw [← htfirst]
      rfl
    have hsend : t.sending = true := by
      rw [← htfirst]
    have hzero : first.periods 0 ≠ 0 := by
      intro hzero
      rw [waitWhileSending_of_stuck hsend (harr.trans hzero)] at hwait
      exact absurd hwait (by simp)
    have hone := PeriodPattern.one_le_getLength_iff.mpr hzero
    have hplaced := placed_of_sendStart hne hlen hfirst hone ht
    have hrest := stored_of_waitWhileSending hlen hplaced (by rwa [harr]) hwait
    exact List.forall_mem_cons.mpr ⟨⟨first, hfirst, hone⟩, hrest⟩
  · intro hall
    obtain ⟨first, hfirst, hone⟩ := hall 0 List.mem_cons_self
    obtain ⟨ic', s', hsent, -⟩ := (send434_eq_some_iff hne hlen hall hfirst hfirst ic s _).mpr
      ⟨PeriodPattern.periods_ne_zero (i := 0) hone, rfl⟩
    exact ⟨_, hsent⟩

theorem ne_zero_of_mem_sentPeriods {index : UInt8} {v : UInt16}
    (h : v ∈ sentPeriods flash index) : v ≠ 0 := by
  unfold sentPeriods at h
  split at h
  · exact absurd h List.not_mem_nil
  · obtain ⟨i, hi, rfl⟩ := List.mem_map.mp h
    exact PeriodPattern.periods_ne_zero (PeriodPattern.mem_take_finRange.mp hi)

end Necessity

/-! ## What is stored after some uploads -/

namespace Mcu

/-- Every upload goes through. -/
theorem exists_run_upload (m : Mcu) (frames : List SetupPayload) :
    ∃ m', Runs.run upload m frames = some m' := by
  obtain ⟨m', hm', -⟩ := Runs.exists_run (I := fun _ => True)
    (fun m frame _ => ⟨_, upload_eq m frame, trivial⟩) trivial frames
  exact ⟨m', hm'⟩

/-- The patterns of the last upload are stored, those that lie in the page; before
the first upload a blank page stores nothing. -/
theorem storedPattern_of_run_upload {m m' : Mcu} {frames : List SetupPayload}
    (hblank : m.flash signalPatternsDataStart = erased)
    (hrun : Runs.run upload m frames = some m') {i : ℕ} (hi : i < 56) :
    storedPattern m'.flash i =
      frames.getLast?.bind fun frame => frame.records[i]?.map SetupRecord.pattern := by
  rcases List.eq_nil_or_concat frames with rfl | ⟨pre, frame, rfl⟩
  · obtain rfl := Option.some.inj hrun
    by_contra hsome
    obtain ⟨p, hp⟩ := Option.ne_none_iff_exists'.mp hsome
    obtain ⟨hmagic, -⟩ := storedPattern_eq_some_iff.mp hp
    rw [hblank] at hmagic
    exact absurd hmagic (by decide)
  · obtain ⟨u, hu⟩ := m.exists_run_upload pre
    rw [List.concat_eq_append, Runs.run_concat_of_run hu, upload_eq] at hrun
    have hpad : ∀ p ∈ framePatterns frame, p.padding = 0 := by
      intro p hp
      obtain ⟨record, -, rfl⟩ := List.mem_map.mp hp
      rfl
    have hcount : (framePatterns frame).length ≤ 255 := by
      rw [length_framePatterns]
      exact frame.length_le
    rw [← Option.some.inj hrun, List.concat_eq_append, List.getLast?_concat, Option.bind_some]
    exact (storedPattern_savePatterns_of_lt hcount hpad u.flash hi).trans
      (List.getElem?_map ..)

/-! ## The test transmission -/

/-- The command `C_TEST` completes: the call comes back, which it does not if a null
pointer is dereferenced or the timer stops counting, the sender has stopped, and no
value loaded into the auto-reload register was zero. -/
def TestCompletes (m : Mcu) : Prop :=
  ∃ m' loads, (m.feed [cTest]).handleUsart = some m' ∧ m'.sender.sending = false ∧
    m'.sender.arrLoads = m.sender.arrLoads ++ loads ∧ ∀ v ∈ loads, v ≠ 0

/-- The test transmission completes exactly if the first three patterns are stored
and none of them is empty. -/
theorem testCompletes_iff_stored (m : Mcu) :
    m.TestCompletes ↔
      ∀ i : ℕ, i < 3 → ∃ p, storedPattern m.flash i = some p ∧ 1 ≤ p.getLength := by
  obtain ⟨rest, hrest, hlen⟩ := testSignal_eq_cons m.toggle
  have hcall : (m.feed [cTest]).handleUsart =
      (send434 m.flash (0 :: rest) (UInt8.ofNat (0 :: rest).length) m.ic m.sender).map fun r =>
        { m.feed [] with ic := r.1, sender := r.2 } := by
    rw [← hrest]
    rfl
  rw [← allStored_testSignal_iff m.flash m.toggle, hrest, TestCompletes, hcall]
  constructor
  · rintro ⟨m', loads, hm', -⟩
    obtain ⟨r, hr, -⟩ := Option.map_eq_some_iff.mp hm'
    exact (send434_isSome_iff hlen m.ic m.sender).mp ⟨r, hr⟩
  · intro hall
    obtain ⟨first, hfirst, hone⟩ := hall 0 List.mem_cons_self
    have hne : (0 : UInt8) :: rest ≠ [] := List.cons_ne_nil 0 rest
    obtain ⟨ic', s', hsent, hloads⟩ :=
      (send434_eq_some_iff hne hlen hall hfirst hfirst m.ic m.sender _).mpr
        ⟨PeriodPattern.periods_ne_zero (i := 0) hone, rfl⟩
    rw [← flatMap_sentPeriods_eq hne hfirst hone] at hloads
    refine ⟨_, _, by rw [hsent, Option.map_some], ?_, hloads, ?_⟩
    · obtain ⟨u, hu, heq⟩ := Option.map_eq_some_iff.mp hsent
      obtain ⟨t, -, hwait⟩ := Option.bind_eq_some_iff.mp hu
      have hstopped := sending_of_waitWhileSending hwait
      rw [← (Prod.mk.inj heq).2]
      exact hstopped
    · intro v hv
      obtain ⟨index, -, hv⟩ := List.mem_flatMap.mp hv
      exact ne_zero_of_mem_sentPeriods hv

/-- **Which tables can be sent.**  After any uploads to a chip with a blank page,
`C_TEST` completes if and only if there has been an upload and the last one has at
least three records, the first three of which have a first period that is not
zero. -/
theorem testCompletes_iff (m : Mcu) (hblank : ∀ x, signalPatternsDataStart ≤ x →
    x < signalPatternsDataStart + pageSize → m.flash x = erased) (frames : List SetupPayload) :
    ∃ m', Runs.run upload m frames = some m' ∧ (m'.TestCompletes ↔
      ∃ frame, frames.getLast? = some frame ∧ ∀ i < 3, ∃ record,
        frame.records[i]? = some record ∧ record.pattern.periods 0 ≠ 0) := by
  obtain ⟨m', hm'⟩ := m.exists_run_upload frames
  have hmagic := hblank signalPatternsDataStart (le_refl _) (by decide)
  have hstored : ∀ i : ℕ, i < 56 → storedPattern m'.flash i = frames.getLast?.bind fun frame =>
      frame.records[i]?.map SetupRecord.pattern :=
    fun i hi => storedPattern_of_run_upload hmagic hm' hi
  refine ⟨m', hm', ?_⟩
  rw [testCompletes_iff_stored]
  constructor
  · intro h
    obtain ⟨p, hp, -⟩ := h 0 (by decide)
    rw [hstored 0 (by decide)] at hp
    obtain ⟨frame, hframe, -⟩ := Option.bind_eq_some_iff.mp hp
    refine ⟨frame, hframe, ?_⟩
    intro i hi
    obtain ⟨p, hp, hone⟩ := h i hi
    rw [hstored i (by omega), hframe, Option.bind_some, Option.map_eq_some_iff] at hp
    obtain ⟨record, hrecord, rfl⟩ := hp
    exact ⟨record, hrecord, PeriodPattern.one_le_getLength_iff.mp hone⟩
  · rintro ⟨frame, hframe, hrecords⟩ i hi
    obtain ⟨record, hrecord, hperiod⟩ := hrecords i hi
    refine ⟨record.pattern, ?_, PeriodPattern.one_le_getLength_iff.mpr hperiod⟩
    rw [hstored i (by omega), hframe, Option.bind_some, hrecord, Option.map_some]

/-- After the upload of three records the test signal is sent. -/
theorem testCompletes_iff_threeRecords :
    ∃ m', Runs.run upload (initial blank) [threeRecords] = some m' ∧ m'.TestCompletes := by
  obtain ⟨m', hm', hiff⟩ := testCompletes_iff (initial blank) (fun _ _ _ => rfl) [threeRecords]
  refine ⟨m', hm', hiff.mpr ⟨threeRecords, rfl, ?_⟩⟩
  intro i hi
  rcases (by omega : i = 0 ∨ i = 1 ∨ i = 2) with rfl | rfl | rfl <;> exact ⟨_, rfl, by decide⟩

/-- Three records, the second of which begins with a zero. -/
def emptySecond : SetupPayload where
  records := threeRecords.records.set 1 fun _ => 0
  length_le := by decide

/-- **A blank chip crashes, an empty pattern stalls the chip**: in both cases the test
transmission does not complete. -/
theorem not_testCompletes_emptySecond :
    ¬ (initial blank).TestCompletes ∧
    ∃ m', Runs.run upload (initial blank) [emptySecond] = some m' ∧ ¬ m'.TestCompletes := by
  constructor
  · rw [testCompletes_iff_stored]
    intro h
    obtain ⟨p, hp, -⟩ := h 0 (by decide)
    have hnull : storedPattern (initial blank).flash (0 : ℕ) = none := by decide
    exact absurd (hnull.symm.trans hp) (Option.some_ne_none p).symm
  · obtain ⟨m', hm'⟩ := (initial blank).exists_run_upload [emptySecond]
    refine ⟨m', hm', ?_⟩
    rw [testCompletes_iff_stored]
    intro h
    obtain ⟨p, hp, hone⟩ := h 1 (by decide)
    have hstored := storedPattern_of_run_upload rfl hm' (i := 1) (by decide)
    obtain rfl := Option.some.inj (hp.symm.trans hstored)
    exact absurd hone (by decide)

end Mcu

end Stm32Adaptive
