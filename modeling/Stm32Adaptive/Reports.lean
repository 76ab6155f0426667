import Stm32Adaptive.MatchWindow
import Stm32Adaptive.Receiver

/-!
# Which patterns are reported

A pattern needs as many samples as it is long, but `process_signals` asks for a
full window of eight before it looks at any pattern, and `getWindow` says no if
there are fewer.  So a pattern at the front of the queue is reported as soon as
the queue holds eight samples, whatever the others are, and not before: the end
of a message stays in the queue until something else is received.

`processSignals_reports` is both halves.
-/

namespace Stm32Adaptive

open FlashMemory Flash Ic

/-- The samples at the front of a queue match the pattern: it is not empty, there
are as many of them as it is long, and it accepts each. -/
def PeriodPattern.MatchesFront (p : PeriodPattern) (queue : List UInt16) : Prop :=
  1 ≤ p.getLength ∧ p.getLength ≤ queue.length ∧
    ∀ i : Fin 8, i.val < p.getLength → p.Accepts (frontWindow queue) i

theorem PeriodPattern.MatchesFront.matchWindow {p : PeriodPattern} {queue : List UInt16}
    (h : p.MatchesFront queue) : p.matchWindow (frontWindow queue) = true :=
  matchWindow_eq_true_iff.mpr ⟨h.1, h.2.2⟩

/-- A call of `process_signals` that gets past its checks reports something if any
stored pattern matches. -/
theorem processSignals_of_matchWindow {flash : Memory} (hpad : Padded flash) {systick : UInt64}
    {ic : Ic} (helig : Eligible systick ic) {i : ℕ} {p : PeriodPattern}
    (hstored : storedPattern flash i = some p)
    (hmatch : p.matchWindow (frontWindow ic.signalBuffer.queue) = true) :
    ∃ (j : ℕ) (ic' : Ic), processSignals flash systick ic = some ((j : ℤ), ic') := by
  obtain ⟨result, ic', hcall, hgreedy, -⟩ := processSignals_greedy hpad systick ic
  rw [GreedyCall, if_pos helig] at hgreedy
  rcases hgreedy with ⟨j, q, -, -, -, rfl, -⟩ | ⟨hnone, -⟩
  · exact ⟨j, ic', hcall⟩
  · rw [hnone i p hstored] at hmatch
    exact absurd hmatch (by decide)

/-- **Which patterns are reported.**  Let capture have been quiet for a second and
let the front of the queue match a stored pattern.  If eight samples are queued, a
call of `process_signals` returns an index; if there are fewer, it returns -1 and
changes nothing. -/
theorem processSignals_reports {flash : Memory} (hpad : Padded flash) {systick : UInt64} {ic : Ic}
    (hquiet : ic.lastTimeInterrupted.toNat + 1000 ≤ systick.toNat) {i : ℕ} {p : PeriodPattern}
    (hstored : storedPattern flash i = some p)
    (hmatch : p.MatchesFront ic.signalBuffer.queue) :
    ∃ result ic', processSignals flash systick ic = some (result, ic') ∧
      (8 ≤ ic.signalBuffer.queue.length → result ≠ -1) ∧
      (ic.signalBuffer.queue.length < 8 → result = -1 ∧ ic' = ic) := by
  have hdelay : delayElapsed systick ic := by
    have hmax := systick.toNat_lt
    rw [delayElapsed, UInt64.lt_iff_toNat_lt, UInt64.toNat_add,
      show (1000 : UInt64).toNat = 1000 from rfl]
    omega
  rcases Nat.lt_or_ge ic.signalBuffer.queue.length 8 with hshort | hfull
  · refine ⟨-1, ic, ?_, fun h => absurd h (by omega), fun _ => ⟨rfl, rfl⟩⟩
    rw [processSignals, SignalBuffer.getWindow_eq_none hshort]
  · obtain ⟨j, ic', hcall⟩ := processSignals_of_matchWindow hpad ⟨hfull, hdelay⟩ hstored
      hmatch.matchWindow
    exact ⟨j, ic', hcall, fun _ => by omega, fun h => absurd h (by omega)⟩

/-- The pattern of `twoPulsesFlash`. -/
def twoPulses : PeriodPattern := ⟨0, ![360, 1080, 0, 0, 0, 0, 0, 0], 76⟩

/-- The capture with some samples queued, the last of them at time zero. -/
def queued (samples : List UInt16) (h : samples.length ≤ signalBufferSize) : Ic :=
  { Ic.initial with signalBuffer := ⟨samples, h⟩ }

theorem storedPattern_twoPulsesFlash : storedPattern twoPulsesFlash (0 : ℕ) = some twoPulses :=
  @storedPattern_savePatterns [twoPulses] (by decide) (by decide) blank 0 (by decide)

theorem padded_twoPulsesFlash : Padded twoPulsesFlash :=
  @padded_savePatterns [twoPulses] (by decide) (by decide) blank

theorem twoPulses_matchesFront {samples : List UInt16} (h : 2 ≤ samples.length)
    (h0 : samples.getD 0 0 = 360) (h1 : samples.getD 1 0 = 1080) :
    twoPulses.MatchesFront samples := by
  have hlen : twoPulses.getLength = 2 := by decide
  refine ⟨by decide, by rwa [hlen], ?_⟩
  rw [hlen]
  intro i hi
  have hcases : i = 0 ∨ i = 1 := by omega
  rcases hcases with rfl | rfl
  · simp only [PeriodPattern.Accepts, frontWindow]
    rw [show ((0 : Fin 8) : ℕ) = 0 from rfl, h0]
    decide
  · simp only [PeriodPattern.Accepts, frontWindow]
    rw [show ((1 : Fin 8) : ℕ) = 1 from rfl, h1]
    decide

/-- With six more samples behind the two, the pattern is reported. -/
theorem processSignals_reports_eightSamples :
    ∃ result ic', processSignals twoPulsesFlash 1000
        (queued [360, 1080, 500, 500, 500, 500, 500, 500] (by decide)) = some (result, ic') ∧
      result ≠ -1 := by
  obtain ⟨result, ic', hcall, hreported, -⟩ := processSignals_reports padded_twoPulsesFlash
    (show (queued [360, 1080, 500, 500, 500, 500, 500, 500] (by decide)).lastTimeInterrupted.toNat +
      1000 ≤ (1000 : UInt64).toNat by decide)
    storedPattern_twoPulsesFlash (twoPulses_matchesFront (by decide) rfl rfl)
  exact ⟨result, ic', hcall, hreported (by decide)⟩

/-- **A pattern at the end of a message is not reported.**  The two samples of the
pattern are queued and a second has passed, but there are no six more. -/
theorem not_reported_twoSamples :
    Padded twoPulsesFlash ∧ storedPattern twoPulsesFlash (0 : ℕ) = some twoPulses ∧
    twoPulses.MatchesFront [360, 1080] ∧
    (queued [360, 1080] (by decide)).lastTimeInterrupted.toNat + 1000 ≤ (1000 : UInt64).toNat ∧
    processSignals twoPulsesFlash 1000 (queued [360, 1080] (by decide)) =
      some (-1, queued [360, 1080] (by decide)) := by
  refine ⟨padded_twoPulsesFlash, storedPattern_twoPulsesFlash,
    twoPulses_matchesFront (by decide) rfl rfl, by decide, ?_⟩
  rw [processSignals, SignalBuffer.getWindow_eq_none (by decide)]

end Stm32Adaptive
