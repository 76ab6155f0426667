import Stm32Adaptive.Interface

/-!
# The firmware between two operations

`main` calls three operations in turn: `process` of the LED strip, `handle_usart`
and `process_signals`.  Between them interrupts come: a byte on the serial line, a
capture, the start of an LED frame; and time passes.  `Mcu.step` is one such event,
taken whole, so that a list of events is a run of the firmware at the granularity
of its operations.

A capture interrupt is only served while it is enabled, and then finds whatever
flags and captured value the timer has.
-/

namespace Stm32Adaptive

/-- What happens between two operations of the main loop, and these operations. -/
inductive FirmwareEvent where
  /-- `USART1_IRQHandler` queues a byte. -/
  | receive (c : UInt8)
  /-- The clock advances. -/
  | clock (ms : UInt64)
  /-- `TIM3_IRQHandler` is due, with these registers. -/
  | capture (tim3 : Tim3)
  /-- An LED frame starts. -/
  | frameStart
  /-- `WS2815::process`. -/
  | ledProcess
  | handleUsart
  | processSignals

namespace Mcu

/-- One event; `none` is undefined behaviour or an operation that does not come
back. -/
def step (m : Mcu) : FirmwareEvent → Option Mcu
  | .receive c => some { m with inputQueue := m.inputQueue ++ [c] }
  | .clock ms => some { m with systick := m.systick + ms }
  | .capture tim3 =>
    some (if m.ic.enabled then { m with ic := (Ic.tim3IrqHandler m.systick tim3 m.ic).2 } else m)
  | .frameStart => some { m with ws2815 := m.ws2815.getDmaPointer.2 }
  | .ledProcess => (m.ws2815.process m.systick).map fun ws2815 => { m with ws2815 := ws2815 }
  | .handleUsart => m.handleUsart
  | .processSignals =>
    (Ic.processSignals m.flash m.systick m.ic).map fun r => { m with ic := r.2 }

end Mcu
end Stm32Adaptive
