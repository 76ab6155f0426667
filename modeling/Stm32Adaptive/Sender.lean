import Stm32Adaptive.InputCapture

/-!
# The sender

`sender.cpp`: `send_434` loads a first period into the auto-reload register of
`TIM14`, starts the timer and waits; `TIM14_IRQHandler` loads the later ones, one
for each update interrupt, and stops the timer behind the last.  The two share
two 8-bit cursors, one into the list of pattern indices and one into the current
pattern.

The busy wait is a bounded iteration of the handler.  A timer whose auto-reload
value is zero does not count, so it raises no further interrupt and the wait
never ends; that, a null pointer and a read outside an array are `none`.

`setup` is called by `main` before the loop and guarded by a static flag, so the
call in `send_434` returns at once.
-/

namespace Stm32Adaptive

open FlashMemory Flash

/-- The periods of a pattern that are sent: those below its length. -/
def PeriodPattern.activePeriods (p : PeriodPattern) : List UInt16 :=
  ((List.finRange 8).take p.getLength).map p.periods

theorem PeriodPattern.length_activePeriods (p : PeriodPattern) :
    p.activePeriods.length = p.getLength := by
  rw [activePeriods, List.length_map, List.length_take, List.length_finRange]
  exact Nat.min_eq_left p.getLength_le

/-- The state of the sender, with the registers it drives. -/
structure Sender where
  /-- `_sending`. -/
  sending : Bool
  /-- `_pattern_indices`; the null pointer is the empty list. -/
  patternIndices : List UInt8
  indicesArrayLength : UInt8
  currentPatternIndicesIndex : UInt8
  currentPatternPeriodIndex : UInt8
  /-- The counter enable bit of `TIM14`. -/
  tim14Enabled : Bool
  /-- The auto-reload register of `TIM14`. -/
  arr : UInt16
  /-- The output pin `PA0`. -/
  pa0 : Bool
  /-- History: the values loaded into the auto-reload register. -/
  arrLoads : List UInt16
  deriving DecidableEq

namespace Sender

/-- After `setup`, which loads zero into the register. -/
def initial : Sender := ⟨false, [], 0, 0, 0, false, 0, false, [0]⟩

/-- Load a value into `TIM14->ARR`. -/
def loadArr (s : Sender) (value : UInt16) : Sender :=
  { s with arr := value, arrLoads := s.arrLoads ++ [value] }

/-- The end of the handler: toggle the pin and load the current period. -/
def loadPeriod (s : Sender) (currentPeriod : PeriodPattern) : Option Sender :=
  if h : s.currentPatternPeriodIndex.toNat < 8 then
    some { ({ s with pa0 := !s.pa0 } : Sender).loadArr
        (currentPeriod.periods ⟨s.currentPatternPeriodIndex.toNat, h⟩) with
      currentPatternPeriodIndex := s.currentPatternPeriodIndex + 1 }
  else none

/-- What loading a period changes: the pin, the register and the period cursor. -/
theorem loadPeriod_eq_some {s : Sender} (h : s.currentPatternPeriodIndex.toNat < 8)
    (p : PeriodPattern) :
    ∃ s', s.loadPeriod p = some s' ∧ s'.sending = s.sending ∧
      s'.arr = p.periods ⟨s.currentPatternPeriodIndex.toNat, h⟩ ∧
      s'.patternIndices = s.patternIndices ∧
      s'.indicesArrayLength = s.indicesArrayLength ∧
      s'.currentPatternIndicesIndex = s.currentPatternIndicesIndex ∧
      s'.currentPatternPeriodIndex = s.currentPatternPeriodIndex + 1 ∧
      s'.arrLoads = s.arrLoads ++ [p.periods ⟨s.currentPatternPeriodIndex.toNat, h⟩] :=
  ⟨_, dif_pos h, rfl, rfl, rfl, rfl, rfl, rfl, rfl⟩

/-- Loading a period toggles the pin. -/
theorem pa0_of_loadPeriod {s s' : Sender} {p : PeriodPattern} (h : s.loadPeriod p = some s') :
    s'.pa0 = !s.pa0 := by
  unfold loadPeriod at h
  split at h
  · rw [← Option.some.inj h]
    rfl
  · exact absurd h.symm (Option.some_ne_none s')

/-- The pattern at the current position of the index list. -/
def currentPattern (flash : Memory) (s : Sender) : Option PeriodPattern :=
  s.patternIndices[s.currentPatternIndicesIndex.toNat]?.bind fun index =>
    storedPattern flash index.toNat

/-- Move the cursors to the beginning of the next pattern of the list. -/
def advance (s : Sender) : Sender := { s with
  currentPatternPeriodIndex := 0
  currentPatternIndicesIndex := s.currentPatternIndicesIndex + 1 }

/-- The branch of the handler behind the last period of a pattern. -/
def nextPattern (flash : Memory) (s : Sender) : Option Sender :=
  if s.advance.indicesArrayLength ≤ s.advance.currentPatternIndicesIndex then
    some { s.advance with tim14Enabled := false, sending := false }
  else (s.advance.currentPattern flash).bind s.advance.loadPeriod

/-- `TIM14_IRQHandler`, with the update flag of the status register. -/
def tim14IrqHandler (flash : Memory) (uif : Bool) (s : Sender) : Option Sender :=
  if uif then
    (s.currentPattern flash).bind fun currentPeriod =>
      if currentPeriod.getLength ≤ s.currentPatternPeriodIndex.toNat then s.nextPattern flash
      else s.loadPeriod currentPeriod
  else some s

/-- The wait of `send_434`: update interrupts, at most the given number of them,
until `_sending` is false. -/
def waitWhileSending (flash : Memory) : ℕ → Sender → Option Sender
  | 0, s => if s.sending then none else some s
  | interrupts + 1, s =>
    if s.sending then
      if s.arr = 0 then none
      else (s.tim14IrqHandler flash true).bind (waitWhileSending flash interrupts)
    else some s

/-- No list of at most 255 patterns takes more interrupts. -/
def maxInterrupts : ℕ := 8 * 255

/-- `send_434` up to the wait. -/
def sendStart (flash : Memory) (patternIndices : List UInt8) (length : UInt8) (s : Sender) :
    Option Sender :=
  let s := { s with
    patternIndices := patternIndices.take length.toNat
    indicesArrayLength := length
    currentPatternIndicesIndex := 0
    currentPatternPeriodIndex := 1 }
  -- `getPattern` is asked for the position in the list, not for the index stored there
  (storedPattern flash s.currentPatternIndicesIndex.toNat).map fun first =>
    { s.loadArr (first.periods 0) with sending := true, pa0 := true, tim14Enabled := true }

/-- `send_434`. -/
def send434 (flash : Memory) (patternIndices : List UInt8) (length : UInt8) (ic : Ic)
    (s : Sender) : Option (Ic × Sender) :=
  let ic := ic.disableIc
  ((s.sendStart flash patternIndices length).bind (waitWhileSending flash maxInterrupts)).map
    fun s => (ic.enableIc, { s with patternIndices := [], indicesArrayLength := 0 })

/-! ## What a completed transmission leaves behind -/

/-- **A transmission that returns leaves the capture interrupt enabled**, whatever
it was before, and nothing else of the capture changed. -/
theorem ic_of_send434 {flash : Memory} {patternIndices : List UInt8} {length : UInt8} {ic ic' : Ic}
    {s s' : Sender} (h : send434 flash patternIndices length ic s = some (ic', s')) :
    ic' = ic.enableIc := by
  rw [send434, Option.map_eq_some_iff] at h
  obtain ⟨t, -, ht⟩ := h
  exact (congrArg Prod.fst ht).symm

end Sender
end Stm32Adaptive
