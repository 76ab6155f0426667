import Stm32Adaptive.Flash
import Stm32Adaptive.SignalBuffer

/-!
# Input capture

`input_capture.cpp`: the interrupt handler `TIM3_IRQHandler`, which turns timer
captures into pulse lengths and queues them, and `process_signals`, which the
main loop calls to match the front of the queue with the stored patterns.

The timer's registers are what the handler reads: the status flags and the
capture register.  The handler's shared state --- the overflow counter, the
queue, the time of the last accepted pulse and the interrupt's enable bit in the
NVIC --- is `Ic`.  Times are 64-bit millisecond counts and the overflow counter
is a 32-bit word, both with the machine's wrap-around.
-/

namespace Stm32Adaptive

open FlashMemory Flash

/-- The registers of `TIM3` the handler reads: three flags of `SR`, and `CCR1`. -/
structure Tim3 where
  /-- Update flag: the counter has overflowed. -/
  uif : Bool
  /-- Capture flag: an edge has been captured. -/
  cc1if : Bool
  /-- Overcapture flag: a capture came while `cc1if` was still set. -/
  cc1of : Bool
  /-- The captured counter value. -/
  ccr1 : UInt16
  deriving DecidableEq

/-- The state of the input capture. -/
structure Ic where
  /-- Is `TIM3_IRQn` enabled in the NVIC? -/
  enabled : Bool
  signalBuffer : SignalBuffer
  lastTimeInterrupted : UInt64
  overflowCounter : UInt32
  deriving DecidableEq

namespace Ic

/-- After reset and `init_ic`: the interrupt is configured but not enabled. -/
def initial : Ic := ⟨false, SignalBuffer.empty, 0, 0⟩

/-- `disable_ic`. -/
def disableIc (ic : Ic) : Ic := { ic with enabled := false }

/-- `enable_ic`. -/
def enableIc (ic : Ic) : Ic := { ic with enabled := true }

@[simp] theorem signalBuffer_disableIc (ic : Ic) :
    ic.disableIc.signalBuffer = ic.signalBuffer := rfl

/-! ## The interrupt handler -/

/-- The branch of the handler that keeps a pulse: queue it and note the time. -/
def acceptPeriod (ic : Ic) (systick : UInt64) (period : UInt16) : Ic :=
  { ic with signalBuffer := ic.signalBuffer.push period, lastTimeInterrupted := systick }

/-- The period of a capture, in 32-bit arithmetic: `CCR1 + (overflow_counter << 16)`. -/
def period (ccr1 : UInt16) (overflowCounter : UInt32) : UInt32 :=
  ccr1.toUInt32 + (overflowCounter <<< 16)

/-- What the handler pushes for a capture, if it does not skip it. -/
def capturedPeriod (ccr1 : UInt16) (overflowCounter : UInt32) : Option UInt16 :=
  if 65535 ≤ period ccr1 overflowCounter ∨ period ccr1 overflowCounter < 200 then none
  else some (period ccr1 overflowCounter).toUInt16

/-- The capture branch of the handler. -/
def handleCapture (systick : UInt64) (ccr1 : UInt16) (ic : Ic) : Ic :=
  match capturedPeriod ccr1 ic.overflowCounter with
  | none => { ic with overflowCounter := 0 }
  | some p => ({ ic with overflowCounter := 0 } : Ic).acceptPeriod systick p

/-- `TIM3_IRQHandler`: read and clear the flags, serve the capture, then count
the overflow.  The overcapture flag only toggles the on-board LED. -/
def tim3IrqHandler (systick : UInt64) (tim3 : Tim3) (ic : Ic) : Tim3 × Ic :=
  let ic := if tim3.cc1if then handleCapture systick tim3.ccr1 ic else ic
  let ic := if tim3.uif then { ic with overflowCounter := ic.overflowCounter + 1 } else ic
  ({ tim3 with uif := false, cc1if := false, cc1of := false }, ic)

theorem enabled_handleCapture (systick : UInt64) (ccr1 : UInt16) (ic : Ic) :
    (handleCapture systick ccr1 ic).enabled = ic.enabled := by
  unfold handleCapture
  split <;> rfl

/-- The handler leaves its own enable bit alone. -/
theorem enabled_tim3IrqHandler (systick : UInt64) (tim3 : Tim3) (ic : Ic) :
    (tim3IrqHandler systick tim3 ic).2.enabled = ic.enabled := by
  unfold tim3IrqHandler
  simp only
  split <;> split <;> simp [enabled_handleCapture]

/-! ## Matching -/

/-- What the loop over the stored patterns ends with. -/
inductive Scan where
  | hit (index : ℕ) (pattern : PeriodPattern)
  | miss
  deriving DecidableEq

/-- The loop of `process_signals`, which stops at the first null pointer.  The
first argument bounds the iterations; `none` says that it was too small. -/
def scanPatterns (flash : Memory) (window : Window) : ℕ → ℕ → Option Scan
  | 0, _ => none
  | fuel + 1, index =>
    match storedPattern flash index with
    | none => some .miss
    | some pattern =>
      if pattern.matchWindow window then some (.hit index pattern)
      else scanPatterns flash window fuel (index + 1)

/-- The count in the page header is one byte, so 256 iterations are enough. -/
def scanFuel : ℕ := 256

/-- Has capture been quiet for the second that `process_signals` waits? -/
def delayElapsed (systick : UInt64) (ic : Ic) : Prop := ¬ systick < ic.lastTimeInterrupted + 1000

instance (systick : UInt64) (ic : Ic) : Decidable (delayElapsed systick ic) :=
  inferInstanceAs (Decidable (¬ _ < _))

/-- `process_signals`: its return value and the state it leaves.  `none` is
undefined behaviour in one of the calls. -/
def processSignals (flash : Memory) (systick : UInt64) (ic : Ic) : Option (ℤ × Ic) :=
  match ic.signalBuffer.getWindow 8 with
  | none => some (-1, ic)
  | some window =>
    if ¬ delayElapsed systick ic then some (-1, ic)
    else
      let ic := ic.disableIc
      match scanPatterns flash window scanFuel 0 with
      | none => none
      | some (.hit index pattern) =>
        -- this exit returns without `enable_ic`
        (ic.signalBuffer.shiftReadHead pattern.getLength).map fun signalBuffer =>
          (index, { ic with signalBuffer := signalBuffer })
      | some .miss =>
        (ic.signalBuffer.shiftReadHead 1).map fun signalBuffer =>
          (-1, ({ ic with signalBuffer := signalBuffer } : Ic).enableIc)

/-! ## What a call can do -/

/-- The window at the front of a queue. -/
def frontWindow (queue : List UInt16) : Window := fun i => queue.getD i.val 0

/-- A call gets past the full-window check and the delay. -/
def Eligible (systick : UInt64) (ic : Ic) : Prop :=
  8 ≤ ic.signalBuffer.queue.length ∧ delayElapsed systick ic

instance (systick : UInt64) (ic : Ic) : Decidable (Eligible systick ic) :=
  inferInstanceAs (Decidable (_ ∧ _))

/-- No stored pattern below `bound` is missing, and none of them matches. -/
def NoMatchBelow (flash : Memory) (window : Window) (bound : ℕ) : Prop :=
  ∀ j < bound, ∃ q, storedPattern flash j = some q ∧ q.matchWindow window = false

/-- **The loop over the patterns.**  It ends, because the pointer at 255 is null,
and it ends at the first index whose pattern is missing or matches. -/
theorem scanPatterns_cases {flash : Memory} {window : Window} {fuel index : ℕ}
    (hfuel : 256 ≤ fuel + index) (hbelow : NoMatchBelow flash window index) :
    (∃ i p, scanPatterns flash window fuel index = some (.hit i p) ∧
      storedPattern flash i = some p ∧ p.matchWindow window = true ∧
        NoMatchBelow flash window i) ∨
    (∃ i : ℕ, scanPatterns flash window fuel index = some .miss ∧
      storedPattern flash i = none ∧ NoMatchBelow flash window i) := by
  induction fuel generalizing index with
  | zero =>
    obtain ⟨q, hq, -⟩ := hbelow 255 (by omega)
    obtain ⟨addr, haddr, -⟩ := Option.map_eq_some_iff.mp hq
    exact absurd (lt_of_getPattern haddr) (by decide)
  | succ fuel ih =>
    rw [scanPatterns]
    cases hstored : storedPattern flash index with
    | none => exact Or.inr ⟨index, rfl, hstored, hbelow⟩
    | some p =>
      by_cases hmatch : p.matchWindow window = true
      · exact Or.inl ⟨index, p, if_pos hmatch, hstored, hmatch, hbelow⟩
      · simp only [if_neg hmatch]
        refine ih (by omega) fun j hj => ?_
        rcases Nat.lt_succ_iff_lt_or_eq.mp hj with hlt | rfl
        · exact hbelow j hlt
        · exact ⟨p, hstored, Bool.eq_false_iff.mpr hmatch⟩

/-- **The four exits of `process_signals`**, the first two taken together: a call
that is not eligible changes nothing, a match drops the pattern's length and
leaves the interrupt disabled, a miss drops one sample and leaves it enabled. -/
theorem processSignals_cases (flash : Memory) (systick : UInt64) (ic : Ic) :
    (¬ Eligible systick ic ∧ processSignals flash systick ic = some (-1, ic)) ∨
    (Eligible systick ic ∧ ∃ (i : ℕ) (p : PeriodPattern) (b : SignalBuffer),
      storedPattern flash i = some p ∧
      p.matchWindow (frontWindow ic.signalBuffer.queue) = true ∧
      NoMatchBelow flash (frontWindow ic.signalBuffer.queue) i ∧
      b.queue = ic.signalBuffer.queue.drop p.getLength ∧
      processSignals flash systick ic =
        some ((i : ℤ), { ic with enabled := false, signalBuffer := b })) ∨
    (Eligible systick ic ∧ ∃ (i : ℕ) (b : SignalBuffer),
      storedPattern flash i = none ∧
      NoMatchBelow flash (frontWindow ic.signalBuffer.queue) i ∧
      b.queue = ic.signalBuffer.queue.drop 1 ∧
      processSignals flash systick ic =
        some (-1, { ic with enabled := true, signalBuffer := b })) := by
  by_cases hlen : 8 ≤ ic.signalBuffer.queue.length
  swap
  · refine Or.inl ⟨fun h => hlen h.1, ?_⟩
    rw [processSignals, SignalBuffer.getWindow_eq_none (by omega)]
  have hwindow : ic.signalBuffer.getWindow 8 = some (frontWindow ic.signalBuffer.queue) :=
    SignalBuffer.getWindow_eq_some hlen
  by_cases hdelay : delayElapsed systick ic
  swap
  · refine Or.inl ⟨fun h => hdelay h.2, ?_⟩
    rw [processSignals, hwindow]
    simp only [if_pos hdelay]
  refine Or.inr ?_
  rcases @scanPatterns_cases flash (frontWindow ic.signalBuffer.queue) scanFuel 0 (le_refl 256)
    (fun j hj => absurd hj (Nat.not_lt_zero j)) with
    ⟨i, p, hscan, hstored, hmatch, hbelow⟩ | ⟨i, hscan, hstored, hbelow⟩
  · have hle := p.getLength_le
    obtain ⟨b, hshift, hdrop⟩ :=
      @SignalBuffer.shiftReadHead_eq_some ic.signalBuffer p.getLength (by omega)
    refine Or.inl ⟨⟨hlen, hdelay⟩, i, p, b, hstored, hmatch, hbelow, hdrop, ?_⟩
    rw [processSignals, hwindow]
    simp only [if_neg (not_not.mpr hdelay), hscan, signalBuffer_disableIc, hshift, Option.map_some]
    rfl
  · obtain ⟨b, hshift, hdrop⟩ :=
      @SignalBuffer.shiftReadHead_eq_some ic.signalBuffer 1 (by omega)
    refine Or.inr ⟨⟨hlen, hdelay⟩, i, b, hstored, hbelow, hdrop, ?_⟩
    rw [processSignals, hwindow]
    simp only [if_neg (not_not.mpr hdelay), hscan, signalBuffer_disableIc, hshift, Option.map_some]
    rfl

end Ic
end Stm32Adaptive
