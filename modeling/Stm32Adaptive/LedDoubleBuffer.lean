import Stm32Adaptive.Ws28xx

/-!
# The LED double buffer under interrupts

The main loop calls `set_dma_timings_for_color` again and again; the interrupt
handler that starts a frame calls `get_dma_pointer`, and it may do so between any
two steps of the main loop.  A call is 26 steps: the target is chosen, 24 values
are stored, the flag is raised.

`pointerOk_iff` says when every pointer the handler gets is good.  A buffer is
good if it is not the one being written, holds the complete encoding of a colour,
and, between two calls, holds the colour of the last one.  All of them are good
exactly when the handler never comes before the first call has been completed,
and inside a call only finds `new_color` down.

The second condition is the one that fails.  A call that begins while the flag of
the call before is still up chooses the same target, because the selector is
unchanged; an interrupt then swaps this target to the front
(`not_pointerOk_secondCall`).
-/

namespace Stm32Adaptive

open DoubleBuffer Ws28xx

/-- The main loop with its calls, and what the interrupt handler shares with it. -/
structure LedThread where
  ws2815 : WS2815
  /-- Where the main loop is. -/
  pc : Pc Color
  /-- The colours of the calls that have not begun. -/
  pending : List Color
  /-- The colour of the last call that has been completed. -/
  completed : Option Color

namespace LedThread

/-- Who moves: the main loop, or the interrupt handler with its call of
`get_dma_pointer`. -/
inductive Tick where
  | main
  | dmaInterrupt
  deriving DecidableEq

/-- After reset, with the calls the main loop is going to make. -/
def initial (colors : List Color) : LedThread := ⟨WS2815.initial, .idle, colors, none⟩

/-- One step of `set_dma_timings_for_color`. -/
def mainStep (s : LedThread) : LedThread :=
  match s.pc with
  | .idle =>
    match s.pending with
    | [] => s
    | color :: rest =>
      { s with
        ws2815 := { s.ws2815 with currentColorAllLeds := color }
        pc := .writing color s.ws2815.target 0
        pending := rest }
  | .writing color target done =>
    if done < 24 then
      { s with
        ws2815 := s.ws2815.setDmaBuffer target
          (storeTiming color (done / 8) (done % 8) (s.ws2815.dmaBuffer target))
        pc := .writing color target (done + 1) }
    else { s with
      ws2815 := { s.ws2815 with newColor := true }
      pc := .idle
      completed := some color }

/-- One step of the main loop or the interrupt handler. -/
def step (s : LedThread) : Tick → Option LedThread
  | .main => some s.mainStep
  | .dmaInterrupt => some { s with ws2815 := s.ws2815.getDmaPointer.2 }

/-- The pointer the interrupt handler gets in a state. -/
def pointer (s : LedThread) : Bool := s.ws2815.getDmaPointer.1

/-- What the pointer points to. -/
def pointee (s : LedThread) : DmaBuffer := s.ws2815.getDmaPointer.2.dmaBuffer s.pointer

/-- A call of `get_dma_pointer` does not return the buffer that a call in progress
is writing, what it returns is the complete encoding of a colour, and between two
calls it is the colour of the last one. -/
def PointerOk (s : LedThread) (t : Tick) : Prop :=
  t = .dmaInterrupt →
    (∀ color target done, s.pc = .writing color target done → s.pointer ≠ target) ∧
    (∃ color, s.pointee = encode color) ∧
    (s.pc = .idle → ∀ color, s.completed = some color → s.pointee = encode color)

/-- A call of `get_dma_pointer` comes after the first completed call, and inside a
call only while `new_color` is down. -/
def Settled (s : LedThread) (t : Tick) : Prop :=
  t = .dmaInterrupt → s.completed ≠ none ∧ (s.pc ≠ .idle → s.ws2815.newColor = false)

/-! ## Whole calls -/

theorem setDmaBuffer_setDmaBuffer (w : WS2815) (isBuffer1 : Bool) (x y : DmaBuffer) :
    (w.setDmaBuffer isBuffer1 x).setDmaBuffer isBuffer1 y = w.setDmaBuffer isBuffer1 y := by
  cases isBuffer1 <;> rfl

theorem setDmaBuffer_self (w : WS2815) (isBuffer1 : Bool) :
    w.setDmaBuffer isBuffer1 (w.dmaBuffer isBuffer1) = w := by
  cases isBuffer1 <;> rfl

/-- Inside a call: the target has been chosen and `m` values have been stored. -/
theorem run_stores {s : LedThread} {color : Color} {rest : List Color} (hpc : s.pc = .idle)
    (hpending : s.pending = color :: rest) {m : ℕ} (hm : m ≤ 24) :
    Runs.run step s (List.replicate (m + 1) .main) = some { s with
      ws2815 := ({ s.ws2815 with currentColorAllLeds := color } : WS2815).setDmaBuffer
        s.ws2815.target (colorEncoder.partly color m (s.ws2815.dmaBuffer s.ws2815.target))
      pc := .writing color s.ws2815.target m
      pending := rest } := by
  induction m with
  | zero =>
    refine congrArg some ?_
    rw [mainStep, hpc]
    simp only [hpending]
    have hself := setDmaBuffer_self ({ s.ws2815 with currentColorAllLeds := color } : WS2815)
      s.ws2815.target
    exact congrArg (LedThread.mk · (.writing color s.ws2815.target 0) rest s.completed) hself.symm
  | succ m ih =>
    rw [List.replicate_succ', Runs.run_concat_of_run (ih (by omega)), Encoder.partly_succ]
    simp only [step, mainStep, if_pos (Nat.lt_of_succ_le hm), setDmaBuffer_setDmaBuffer,
      WS2815.dmaBuffer_setDmaBuffer, Function.update_self]
    rfl

/-- **A call is 26 steps of the main loop**: if no interrupt comes between, they
do what `set_dma_timings_for_color` does. -/
theorem run_call {s : LedThread} {color : Color} {rest : List Color} (hpc : s.pc = .idle)
    (hpending : s.pending = color :: rest) :
    Runs.run step s (List.replicate 26 .main) = some { s with
      ws2815 := s.ws2815.setDmaTimingsForColor color
      pending := rest
      completed := some color } := by
  rw [List.replicate_succ', Runs.run_concat_of_run (run_stores hpc hpending le_rfl)]
  simp only [step, mainStep, if_neg (lt_irrefl 24), hpc]
  rfl

/-! ## The thread as a double buffer -/

/-- The abstract state: the buffers, and where the writer is. -/
def abs (s : LedThread) : State Color DmaBuffer :=
  ⟨s.ws2815.buffers, s.pc, s.pending, s.completed⟩

/-- The main loop writes, the interrupt handler reads. -/
def absTick : Tick → DoubleBuffer.Tick
  | .main => .writer
  | .dmaInterrupt => .reader

theorem abs_mainStep (s : LedThread) :
    s.mainStep.abs = DoubleBuffer.move colorEncoder s.abs .writer := by
  obtain ⟨ws2815, pc, pending, completed⟩ := s
  cases pc with
  | idle =>
    cases pending with
    | nil => rfl
    | cons color rest =>
      simp only [mainStep, abs, WS2815.target_eq]
      rfl
  | writing color target done =>
    simp only [mainStep, abs, DoubleBuffer.move]
    by_cases hmore : done < 24
    · rw [if_pos hmore, if_pos (show done < colorEncoder.stores from hmore)]
      simp only [WS2815.buffers_setDmaBuffer]
      rfl
    · rw [if_neg hmore, if_neg (show ¬ done < colorEncoder.stores from hmore)]
      rfl

/-- **The thread is a double buffer, step for step.** -/
theorem step_abs (s : LedThread) (t : Tick) :
    DoubleBuffer.step colorEncoder s.abs (absTick t) = (s.step t).map abs := by
  cases t with
  | main => exact congrArg some s.abs_mainStep.symm
  | dmaInterrupt =>
    refine congrArg some ?_
    simp only [absTick, move, abs, WS2815.getDmaPointer, WS2815.buffers_swapBuffers]

theorem pointer_eq (s : LedThread) : s.pointer = s.abs.buffers.take.front := by
  rw [abs, ← WS2815.buffers_swapBuffers]
  rfl

theorem pointee_eq (s : LedThread) : s.pointee = s.abs.buffers.take.shown := by
  rw [abs, ← WS2815.buffers_swapBuffers]
  rfl

theorem pointerOk_iff_readerOk (s : LedThread) (t : Tick) :
    s.PointerOk t ↔ ReaderOk colorEncoder s.abs (absTick t) := by
  unfold PointerOk ReaderOk
  rw [pointer_eq, pointee_eq]
  cases t <;> simp [absTick, abs, colorEncoder]

theorem settled_iff (s : LedThread) (t : Tick) :
    s.Settled t ↔ DoubleBuffer.Settled s.abs (absTick t) := by
  unfold Settled DoubleBuffer.Settled
  cases t <;> simp [absTick, abs, WS2815.buffers]

/-- The buffers start as zeros, which encode no colour. -/
theorem inv_initial (colors : List Color) : Inv colorEncoder (initial colors).abs where
  target _ _ _ h := absurd h.symm (Pc.writing_ne_idle _ _ _)
  before _ := by
    refine ⟨rfl, ?_⟩
    intro color h
    have hzero : encode color 0 = 0 := congrFun h 0
    unfold encode at hzero
    split at hzero <;> exact absurd hzero (by decide)
  clean _ h := absurd h.symm (Option.some_ne_none _)
  dirty _ h := absurd h.symm (Option.some_ne_none _)

/-- **The double buffer under interrupts.**  For any calls and any interleaving,
every pointer the interrupt handler gets is good if and only if it asks for each
of them after the first completed call and, inside a call, while `new_color` is
down. -/
theorem pointerOk_iff (colors : List Color) (ticks : List Tick) :
    Runs.Along step PointerOk (initial colors) ticks ↔
      Runs.Along step Settled (initial colors) ticks := by
  have hok : PointerOk = fun s t => ReaderOk colorEncoder s.abs (absTick t) :=
    funext₂ fun s t => propext (s.pointerOk_iff_readerOk t)
  have hset : Settled = fun s t => DoubleBuffer.Settled s.abs (absTick t) :=
    funext₂ fun s t => propext (s.settled_iff t)
  rw [hok, hset, ← Runs.along_map abs absTick step_abs, ← Runs.along_map abs absTick step_abs]
  exact along_readerOk_iff (inv_initial colors) _

/-- **A swap inside the second call.**  One call is complete, the next has stored
its first value, and the interrupt comes: it gets the buffer being written.  When
the second call has finished, the next pointer leads back to the other buffer,
which was never written. -/
theorem not_pointerOk_secondCall :
    ¬ Runs.Along step PointerOk (initial [⟨255, 0, 0⟩, ⟨0, 255, 0⟩])
        (List.replicate 28 .main ++ [.dmaInterrupt]) ∧
    ∃ s, Runs.run step (initial [⟨255, 0, 0⟩, ⟨0, 255, 0⟩])
        (List.replicate 28 .main ++ .dmaInterrupt :: List.replicate 24 .main) = some s ∧
      s.pc = .idle ∧ s.completed = some ⟨0, 255, 0⟩ ∧ s.pointee ≠ encode ⟨0, 255, 0⟩ := by
  constructor
  · intro h
    have hlast := Runs.along_iff_forall_append.mp h (List.replicate 28 .main) .dmaInterrupt []
      rfl _ rfl rfl
    exact hlast.1 _ _ _ rfl rfl
  · exact ⟨_, rfl, rfl, rfl, fun h => absurd (congrFun h 0) (by decide)⟩

end LedThread
end Stm32Adaptive
