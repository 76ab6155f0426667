import Mathlib.Data.Fintype.Basic
import Mathlib.Data.Nat.Bitwise
import Stm32Adaptive.Library.DoubleBuffer

/-!
# The LED strip

`ws28xx.cpp`: a colour is turned into 24 timing values, one for each bit on the
wire, in one of two buffers of the class `WS2815`.  The main loop writes the
buffer that is not selected and raises `new_color`; the interrupt handler that
starts a frame calls `get_dma_pointer`, which swaps the two if the flag is up.

`getDmaPointer` and `setDmaTimingsForColor` are the two operations of a double
buffer (`buffers_getDmaPointer`, `buffers_setDmaTimingsForColor`), the second one
in 24 stores (`colorEncoder`).  The encoding can be read back:
`decodeColor_encode`.

The rest is the fade engine: `process`, called by the main loop, paints the
colour between two others that the clock asks for.  The clock does not advance
inside a call.
-/

namespace Stm32Adaptive

open DoubleBuffer

/-- `ws2815::Color`. -/
@[ext] structure Color where
  r : UInt8
  g : UInt8
  b : UInt8
  deriving DecidableEq

namespace Ws28xx

/-- `F_CPU`, as `platformio.ini` sets it. -/
def fCpu : ℕ := 48000000

/-- `CODE_0_CCR`, the timing value of a zero bit. -/
def code0Ccr : UInt8 := UInt8.ofNat (2 * (fCpu / 8000000))

/-- `CODE_1_CCR`, the timing value of a one bit. -/
def code1Ccr : UInt8 := UInt8.ofNat (9 * (fCpu / 8000000))

theorem code1Ccr_ne_code0Ccr : code1Ccr ≠ code0Ccr := by decide

/-! ## Colours and timing values -/

/-- `math::lerp`, with `percent` from 0 to 1024. -/
def lerp (start target percent : ℤ) : ℤ :=
  (start * (1024 - percent) + target * percent) >>> (10 : ℕ)

/-- `Color::lerp`. -/
def lerpColor (a b : Color) (percent : ℤ) : Color where
  r := UInt8.ofInt (lerp a.r.toNat b.r.toNat percent)
  g := UInt8.ofInt (lerp a.g.toNat b.g.toNat percent)
  b := UInt8.ofInt (lerp a.b.toNat b.b.toNat percent)

/-- One of the two buffers the DMA reads. -/
abbrev DmaBuffer := Fin 24 → UInt8

/-- The array `grb` of `set_dma_timings_for_color`. -/
def grb (color : Color) : List UInt8 := [color.g, color.r, color.b]

/-- The body of the two loops of `set_dma_timings_for_color`. -/
def storeTiming (color : Color) (byte i : ℕ) (target : DmaBuffer) : DmaBuffer := fun j =>
  if j.val = (7 - i) + 8 * byte then
    if ((grb color).getD byte 0).toNat &&& (1 <<< i) ≠ 0 then code1Ccr else code0Ccr
  else target j

/-- The loops of `set_dma_timings_for_color`: 24 stores, the lowest bit of a byte
first and at the highest position. -/
def storeTimings (color : Color) (target : DmaBuffer) : DmaBuffer :=
  (List.range 24).foldl (fun target k => storeTiming color (k / 8) (k % 8) target) target

/-- The timing values of a colour: green, red, blue, the highest bit first. -/
def encode (color : Color) : DmaBuffer := fun j =>
  if ((grb color).getD (j.val / 8) 0).toNat.testBit (7 - j.val % 8) then code1Ccr else code0Ccr

/-- Read 24 timing values back, if each of them is one of the two codes. -/
def decodeColor (values : DmaBuffer) : Option Color :=
  if ∀ j, values j = code1Ccr ∨ values j = code0Ccr then
    let byte (n : Fin 3) : UInt8 := UInt8.ofNat <| Nat.ofBits fun i : Fin 8 =>
      decide (values ⟨(7 - i.val) + 8 * n.val, by omega⟩ = code1Ccr)
    some { g := byte 0, r := byte 1, b := byte 2 }
  else none

theorem encode_eq_code1Ccr_iff (color : Color) (j : Fin 24) :
    encode color j = code1Ccr ↔
      ((grb color).getD (j.val / 8) 0).toNat.testBit (7 - j.val % 8) = true := by
  rw [encode]
  cases ((grb color).getD (j.val / 8) 0).toNat.testBit (7 - j.val % 8) with
  | true => simp
  | false => simpa using code1Ccr_ne_code0Ccr.symm

/-- **A colour can be read off its timing values.** -/
theorem decodeColor_encode (color : Color) : decodeColor (encode color) = some color := by
  have hcodes : ∀ j, encode color j = code1Ccr ∨ encode color j = code0Ccr := by
    intro j
    rw [encode]
    split
    · exact Or.inl rfl
    · exact Or.inr rfl
  have hbyte : ∀ (n : Fin 3) (v : UInt8), (grb color).getD n.val 0 = v →
      UInt8.ofNat (Nat.ofBits fun i : Fin 8 =>
        decide (encode color ⟨(7 - i.val) + 8 * n.val, by omega⟩ = code1Ccr)) = v := by
    rintro n v rfl
    have hbit : (fun i : Fin 8 =>
        decide (encode color ⟨(7 - i.val) + 8 * n.val, by omega⟩ = code1Ccr)) =
          fun i : Fin 8 => ((grb color).getD n.val 0).toNat.testBit i := by
      ext i : 1
      have hdiv : ((7 - i.val) + 8 * n.val) / 8 = n.val := by omega
      have hmod : 7 - ((7 - i.val) + 8 * n.val) % 8 = i.val := by omega
      simp only [encode_eq_code1Ccr_iff, hdiv, hmod, Bool.decide_eq_true]
    rw [hbit, Nat.ofBits_testBit, Nat.mod_eq_of_lt (UInt8.toNat_lt _), UInt8.ofNat_toNat]
  rw [decodeColor, if_pos hcodes]
  exact congrArg some (Color.ext (hbyte 1 _ rfl) (hbyte 0 _ rfl) (hbyte 2 _ rfl))

/-- A buffer after the first `m` stores: a position is new if the store that
goes there, whose number is the position with the bits of each byte reversed, has
been done. -/
theorem storeTimings_take (color : Color) (target : DmaBuffer) (m : ℕ) (hm : m ≤ 24) (j : Fin 24) :
    (List.range m).foldl (fun target k => storeTiming color (k / 8) (k % 8) target) target j =
      if (7 - j.val % 8) + 8 * (j.val / 8) < m then encode color j else target j := by
  induction m with
  | zero => rfl
  | succ m ih =>
    rw [List.range_succ, List.foldl_append, List.foldl_cons, List.foldl_nil, storeTiming,
      ih (by omega)]
    by_cases hj : j.val = (7 - m % 8) + 8 * (m / 8)
    · have hdiv : j.val / 8 = m / 8 := by omega
      have hmod : 7 - j.val % 8 = m % 8 := by omega
      have hnew : 7 - j.val % 8 + 8 * (j.val / 8) < m + 1 := by omega
      rw [if_pos hj, if_pos hnew, encode, hdiv, hmod, Nat.one_shiftLeft, Nat.and_two_pow]
      cases ((grb color).getD (m / 8) 0).toNat.testBit (m % 8) <;> simp
    · rw [if_neg hj]
      exact if_congr (by omega) rfl rfl

/-- The 24 stores make any buffer the encoding of the colour. -/
theorem storeTimings_eq_encode (color : Color) (target : DmaBuffer) :
    storeTimings color target = encode color :=
  funext fun j => (storeTimings_take color target 24 le_rfl j).trans (if_pos (by omega))

/-- Writing a colour, as a write in 24 single stores. -/
def colorEncoder : Encoder Color DmaBuffer where
  stores := 24
  store color k := storeTiming color (k / 8) (k % 8)
  encode := encode
  complete := storeTimings_eq_encode

/-! ## The class -/

/-- `WS2815::_commands`. -/
inductive Command where
  | idle
  | toColor
  | fadeToColor
  | fadeBetweenColors
  deriving DecidableEq

/-- `WS2815`. -/
structure WS2815 where
  currentCmd : Command
  newColor : Bool
  selectedBuffer1 : Bool
  /-- `_current_color_dma_buffer_1`. -/
  dmaBuffer1 : DmaBuffer
  /-- `_current_color_dma_buffer_2`. -/
  dmaBuffer2 : DmaBuffer
  currentColorAllLeds : Color
  commandStartSystick : UInt64
  fadeTime : UInt64
  fadeStartColor : Color
  fadeTargetColor : Color
  currentColorA : Bool
  fadeBetweenColorA : Color
  fadeBetweenColorB : Color
  deriving DecidableEq

namespace WS2815

/-- The initial values of the fields. -/
def initial : WS2815 where
  currentCmd := .idle
  newColor := false
  selectedBuffer1 := true
  dmaBuffer1 := fun _ => 0
  dmaBuffer2 := fun _ => 0
  currentColorAllLeds := ⟨0, 0, 0⟩
  commandStartSystick := 0
  fadeTime := 1000
  fadeStartColor := ⟨0, 0, 0⟩
  fadeTargetColor := ⟨0, 0, 0⟩
  currentColorA := true
  fadeBetweenColorA := ⟨0, 0, 0⟩
  fadeBetweenColorB := ⟨0, 0, 0⟩

/-- The buffer a pointer points to; a pointer is the value of `selected_buffer_1`
that selects its buffer. -/
def dmaBuffer (w : WS2815) (isBuffer1 : Bool) : DmaBuffer :=
  if isBuffer1 then w.dmaBuffer1 else w.dmaBuffer2

/-- Write through a pointer. -/
def setDmaBuffer (w : WS2815) (isBuffer1 : Bool) (values : DmaBuffer) : WS2815 :=
  if isBuffer1 then { w with dmaBuffer1 := values } else { w with dmaBuffer2 := values }

/-- `target` of `set_dma_timings_for_color`. -/
def target (w : WS2815) : Bool := if w.selectedBuffer1 then false else true

/-- `set_dma_timings_for_color`. -/
def setDmaTimingsForColor (color : Color) (w : WS2815) : WS2815 :=
  let w := { w with currentColorAllLeds := color }
  let w := w.setDmaBuffer w.target (storeTimings w.currentColorAllLeds (w.dmaBuffer w.target))
  { w with newColor := true }

/-- The swap of `get_dma_pointer`. -/
def swapBuffers (w : WS2815) : WS2815 :=
  if w.newColor then { w with selectedBuffer1 := !w.selectedBuffer1, newColor := false } else w

/-- `get_dma_pointer`. -/
def getDmaPointer (w : WS2815) : Bool × WS2815 := (w.swapBuffers.selectedBuffer1, w.swapBuffers)

/-- The two buffers with selector and flag, as a double buffer. -/
def buffers (w : WS2815) : Buffers DmaBuffer := ⟨w.selectedBuffer1, w.newColor, w.dmaBuffer⟩

theorem target_eq (w : WS2815) : w.target = !w.buffers.front := by
  unfold target buffers
  cases w.selectedBuffer1 <;> rfl

theorem dmaBuffer_setDmaBuffer (w : WS2815) (isBuffer1 : Bool) (values : DmaBuffer) :
    (w.setDmaBuffer isBuffer1 values).dmaBuffer =
      Function.update w.dmaBuffer isBuffer1 values := by
  ext b : 1
  cases isBuffer1 <;> cases b <;> rfl

/-- Writing a buffer changes that buffer and nothing else. -/
theorem buffers_setDmaBuffer (w : WS2815) (isBuffer1 : Bool) (values : DmaBuffer) :
    (w.setDmaBuffer isBuffer1 values).buffers = w.buffers.update isBuffer1 values := by
  rw [Buffers.update, buffers, dmaBuffer_setDmaBuffer]
  cases isBuffer1 <;> rfl

/-- `get_dma_pointer` is the reader's operation, and returns what is then in front. -/
theorem buffers_swapBuffers (w : WS2815) : w.swapBuffers.buffers = w.buffers.take := by
  obtain ⟨cmd, fresh⟩ := w
  cases fresh <;> rfl

/-- **`set_dma_timings_for_color` is the writer's operation**, and it publishes the
encoding of the colour. -/
theorem buffers_setDmaTimingsForColor (color : Color) (w : WS2815) :
    (w.setDmaTimingsForColor color).buffers = w.buffers.publish (encode color) := by
  obtain ⟨cmd, fresh, front⟩ := w
  rw [setDmaTimingsForColor, storeTimings_eq_encode]
  cases front <;> simp only [Buffers.publish, Buffers.update, buffers, target, setDmaBuffer] <;>
    refine congrArg _ (funext fun b => ?_) <;> cases b <;> rfl

/-! ## The fade engine -/

/-- The colours at the ends of the next leg of a fade between two colours. -/
def nextLeg (w : WS2815) (systick : UInt64) : WS2815 :=
  let w := { w with commandStartSystick := systick }
  let w := if w.currentColorA then
      { w with fadeStartColor := w.fadeBetweenColorA, fadeTargetColor := w.fadeBetweenColorB }
    else
      { w with fadeStartColor := w.fadeBetweenColorB, fadeTargetColor := w.fadeBetweenColorA }
  { w with currentColorA := !w.currentColorA }

/-- `process`.  Dividing by a `fade_time` of zero is undefined. -/
def process (systick : UInt64) (w : WS2815) : Option WS2815 :=
  match w.currentCmd with
  | .idle | .toColor => some w
  | .fadeBetweenColors | .fadeToColor =>
    let msSinceStartShifted := (systick - w.commandStartSystick) <<< 10
    if w.fadeTime = 0 then none
    else
      let percent := msSinceStartShifted / w.fadeTime
      if 1025 ≤ percent then
        if w.currentCmd = .fadeBetweenColors then some (w.nextLeg systick)
        else some { w with currentCmd := .idle }
      else
        some (w.setDmaTimingsForColor
          (lerpColor w.fadeStartColor w.fadeTargetColor percent.toNat))

/-- `to_color`. -/
def toColor (c : Color) (w : WS2815) : WS2815 :=
  { w.setDmaTimingsForColor c with currentCmd := .toColor }

/-- `fade_between_colors`, with the type of its parameter `fade_time`. -/
def fadeBetweenColors (a b : Color) (fadeTime : UInt32) (systick : UInt64) (w : WS2815) : WS2815 :=
  { w with
    fadeBetweenColorA := a
    fadeBetweenColorB := b
    commandStartSystick := systick
    fadeStartColor := w.currentColorAllLeds
    fadeTime := fadeTime.toUInt64
    fadeTargetColor := a
    currentColorA := true
    currentCmd := .fadeBetweenColors }

/-- `fade_to_color`. -/
def fadeToColor (c : Color) (fadeTime : UInt32) (systick : UInt64) (w : WS2815) : WS2815 :=
  { w with
    fadeTime := fadeTime.toUInt64
    fadeStartColor := w.currentColorAllLeds
    fadeTargetColor := c
    commandStartSystick := systick
    currentCmd := .fadeToColor }

/-- `test`, with its static counter, which the target's `int` wraps; a negative
remainder selects no case. -/
def test (systick : UInt64) (counter : Int32) (w : WS2815) : Int32 × WS2815 :=
  let r : Color := ⟨0xFF, 0x00, 0x00⟩
  let g : Color := ⟨0x00, 0xFF, 0x00⟩
  let b : Color := ⟨0x00, 0x00, 0xFF⟩
  let lila := lerpColor b r 512
  let w :=
    if counter % 4 = 0 then w.fadeBetweenColors r g 500 systick
    else if counter % 4 = 1 then w.fadeToColor g 1000 systick
    else if counter % 4 = 2 then w.fadeToColor b 1000 systick
    else if counter % 4 = 3 then w.fadeToColor lila 1000 systick
    else w
  (counter + 1, w)

end WS2815
end Ws28xx
end Stm32Adaptive
