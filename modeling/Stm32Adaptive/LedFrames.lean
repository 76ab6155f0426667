import Stm32Adaptive.Ws28xx

/-!
# The frames on the LED strip

`DMA1_Channel1_IRQHandler` is called when a transfer of the DMA channel is
complete.  The channel is circular, so a transfer is repeated until the handler
reprograms it, and the handler counts: after `LED_MAX_INDEX` transfers of an LED
word it programs the reset signal, and after the reset signal it begins the next
frame with the buffer that `get_dma_pointer` returns.

Two facts about a run carry the main result.  `phase_after` says what the channel
is programmed to as a function of the number of completed transfers;
`holds_after` is the invariant of the double buffer, which is kept because here
calls and interrupts come whole.  `frame_structure` puts them together.
-/

namespace Stm32Adaptive

open DoubleBuffer Ws28xx

/-- What `CMAR` points to: the constant `ZERO`, or one of the two buffers. -/
inductive DmaSource where
  | zero
  | buffer (isBuffer1 : Bool)
  deriving DecidableEq

/-- The fields of `DMA1_Channel1` that are changed at run time. -/
structure DmaChannel1 where
  /-- Channel enable. -/
  en : Bool
  /-- Memory increment. -/
  minc : Bool
  /-- Number of values in a transfer. -/
  cndtr : ℕ
  /-- Memory address. -/
  cmar : DmaSource
  deriving DecidableEq

/-- The strip: its buffers, the DMA channel, and the static index of the interrupt
handler. -/
structure Leds where
  ws2815 : WS2815
  dma : DmaChannel1
  ledIndex : ℕ

namespace Leds

/-- `LED_MAX_INDEX`, the number of LEDs. -/
def ledMaxIndex : ℕ := 150

/-- `LED_INDEX_RESET_SIGNAL`. -/
def ledIndexResetSignal : ℕ := ledMaxIndex

/-- `LED_INDEX_DONE`. -/
def ledIndexDone : ℕ := ledIndexResetSignal + 1

/-- `DMA_TRANSFERS_PER_LED`. -/
def dmaTransfersPerLed : ℕ := 24

/-- `DMA_TRANSFERS_RES_SIG`. -/
def dmaTransfersResSig : ℕ := 180

/-- After `setup_dma`. -/
def initial : Leds where
  ws2815 := WS2815.initial
  dma := { en := true, minc := true, cndtr := dmaTransfersResSig, cmar := .zero }
  ledIndex := 0

/-- `DMA1_Channel1_IRQHandler`, with two flags of `DMA1->ISR`. -/
def dma1Channel1IrqHandler (teif1 tcif1 : Bool) (s : Leds) : Leds :=
  if teif1 then s
  else if tcif1 then
    let s :=
      if ledIndexResetSignal ≤ s.ledIndex then
        let s := { s with dma := { s.dma with en := false } }
        let s :=
          if s.ledIndex = ledIndexResetSignal then
            { s with dma := { s.dma with
              minc := false, cndtr := dmaTransfersResSig, cmar := .zero } }
          else if ledIndexDone ≤ s.ledIndex then
            let dmaPointer := s.ws2815.getDmaPointer
            { s with
              ledIndex := 0
              dma := { s.dma with
                minc := true, cndtr := dmaTransfersPerLed, cmar := .buffer dmaPointer.1 }
              ws2815 := dmaPointer.2 }
          else s
        { s with dma := { s.dma with en := true } }
      else s
    { s with ledIndex := s.ledIndex + 1 }
  else s

/-- The values of the transfer in progress, where the memory it reads is known:
an address that is incremented past the constant is not. -/
def transfer (s : Leds) : Option (List UInt8) :=
  if s.dma.en then
    match s.dma.cmar, s.dma.minc with
    | .zero, false => some (List.replicate s.dma.cndtr 0)
    | .zero, true => if s.dma.cndtr ≤ 1 then some (List.replicate s.dma.cndtr 0) else none
    | .buffer isBuffer1, false =>
      some (List.replicate s.dma.cndtr (s.ws2815.dmaBuffer isBuffer1 0))
    | .buffer isBuffer1, true =>
      if s.dma.cndtr ≤ 24 then
        some ((List.ofFn (s.ws2815.dmaBuffer isBuffer1)).take s.dma.cndtr)
      else none
  else none

/-! ## Runs -/

/-- What happens on the strip: the main loop sets a colour, or a transfer is
complete. -/
inductive Event where
  | setColor (color : Color)
  | transferComplete
  deriving DecidableEq

/-- One event, whole. -/
def step (s : Leds) : Event → Leds
  | .setColor color => { s with ws2815 := s.ws2815.setDmaTimingsForColor color }
  | .transferComplete => s.dma1Channel1IrqHandler false true

/-- The state a run leads to. -/
def after (es : List Event) : Leds := es.foldl step initial

/-- The number of completed transfers in a run. -/
def completions (es : List Event) : ℕ := es.count .transferComplete

/-- The colour of the last call in a run, if there is one. -/
def lastColor (es : List Event) : Option Color :=
  es.foldl (fun last e => match e with
    | .setColor color => some color
    | .transferComplete => last) none

theorem after_concat (es : List Event) (e : Event) : after (es ++ [e]) = (after es).step e := by
  rw [after, List.foldl_append]
  rfl

theorem completions_append (es fs : List Event) :
    completions (es ++ fs) = completions es + completions fs :=
  List.count_append

theorem completions_concat_setColor (es : List Event) (color : Color) :
    completions (es ++ [.setColor color]) = completions es := by
  rw [completions_append]
  rfl

theorem completions_concat_transferComplete (es : List Event) :
    completions (es ++ [.transferComplete]) = completions es + 1 := by
  rw [completions_append]
  rfl

theorem lastColor_concat_setColor (es : List Event) (color : Color) :
    lastColor (es ++ [.setColor color]) = some color := by
  rw [lastColor, List.foldl_append]
  rfl

theorem lastColor_concat_transferComplete (es : List Event) :
    lastColor (es ++ [.transferComplete]) = lastColor es := by
  rw [lastColor, List.foldl_append]
  rfl

/-! ## The three branches of the handler -/

/-- The channel while it sends the reset signal. -/
def resetSignal : DmaChannel1 := ⟨true, false, dmaTransfersResSig, .zero⟩

/-- The channel while it sends the words of a frame. -/
def ledWord (isBuffer1 : Bool) : DmaChannel1 := ⟨true, true, dmaTransfersPerLed, .buffer isBuffer1⟩

theorem step_of_lt {s : Leds} (h : s.ledIndex < 150) :
    s.step .transferComplete = { s with ledIndex := s.ledIndex + 1 } := by
  simp only [step, dma1Channel1IrqHandler, if_neg (show ¬ ledIndexResetSignal ≤ s.ledIndex from
    not_le.mpr h), Bool.false_eq_true, if_false, if_true]

theorem step_of_eq {s : Leds} (h : s.ledIndex = 150) :
    s.step .transferComplete = { s with dma := resetSignal, ledIndex := 151 } := by
  simp only [step, dma1Channel1IrqHandler, h]
  rfl

theorem step_of_eq_done {s : Leds} (h : s.ledIndex = 151) :
    s.step .transferComplete =
      ⟨s.ws2815.swapBuffers, ledWord s.ws2815.swapBuffers.selectedBuffer1, 1⟩ := by
  simp only [step, dma1Channel1IrqHandler, h]
  rfl

theorem selectedBuffer1_setDmaTimingsForColor (w : WS2815) (color : Color) :
    (w.setDmaTimingsForColor color).selectedBuffer1 = w.selectedBuffer1 :=
  congrArg Buffers.front (w.buffers_setDmaTimingsForColor color)

/-! ## The phase of a run -/

/-- Index and channel after `n` completed transfers. -/
structure Phase (n : ℕ) (s : Leds) : Prop where
  ledIndex : s.ledIndex = if n ≤ 150 then n else (n - 1) % 151 + 1
  dma : 150 < n →
    s.dma = if s.ledIndex = 151 then resetSignal else ledWord s.ws2815.selectedBuffer1

theorem Phase.setColor {n : ℕ} {s : Leds} (h : Phase n s) (color : Color) :
    Phase n (s.step (.setColor color)) where
  ledIndex := h.ledIndex
  dma hn := by
    rw [step, selectedBuffer1_setDmaTimingsForColor]
    exact h.dma hn

theorem Phase.transferComplete {n : ℕ} {s : Leds} (h : Phase n s) :
    Phase (n + 1) (s.step .transferComplete) := by
  have hidx := h.ledIndex
  rcases lt_trichotomy s.ledIndex 150 with hlt | heq | hgt
  · rw [step_of_lt hlt]
    refine ⟨?_, ?_⟩
    · simp only
      split at hidx <;> split <;> omega
    · intro hn
      have hn' : 150 < n := by
        split at hidx <;> omega
      have hdma := h.dma hn'
      rw [if_neg (by omega)] at hdma
      simp only
      rw [if_neg (by omega), hdma]
  · rw [step_of_eq heq]
    refine ⟨?_, fun _ => rfl⟩
    simp only
    split at hidx <;> split <;> omega
  · have hdone : s.ledIndex = 151 := by
      split at hidx <;> omega
    rw [step_of_eq_done hdone]
    refine ⟨?_, fun _ => rfl⟩
    simp only
    split at hidx <;> split <;> omega

theorem phase_after (es : List Event) : Phase (completions es) (after es) := by
  induction es using List.reverseRecOn with
  | nil => exact ⟨rfl, fun h => absurd h (by decide)⟩
  | append_singleton es e ih =>
    rw [after_concat]
    cases e with
    | setColor color =>
      rw [completions_concat_setColor]
      exact ih.setColor color
    | transferComplete =>
      rw [completions_concat_transferComplete]
      exact ih.transferComplete

/-! ## The buffers in a run -/

/-- The interrupt handler either leaves the buffers alone or takes over. -/
theorem buffers_transferComplete (s : Leds) :
    (s.step .transferComplete).ws2815.buffers = s.ws2815.buffers ∨
      (s.step .transferComplete).ws2815.buffers = s.ws2815.buffers.take := by
  by_cases hindex : ledIndexResetSignal ≤ s.ledIndex
  · by_cases hreset : s.ledIndex = ledIndexResetSignal
    · exact Or.inl (by rw [step_of_eq hreset])
    · refine Or.inr ?_
      have hdone : ledIndexDone ≤ s.ledIndex := lt_of_le_of_ne hindex (Ne.symm hreset)
      simp only [step, dma1Channel1IrqHandler, if_pos hindex, if_neg hreset, if_pos hdone,
        Bool.false_eq_true, if_false, if_true]
      exact s.ws2815.buffers_swapBuffers
  · exact Or.inl (by rw [step_of_lt (not_le.mp hindex)])

/-- **The last colour is where it should be**: in front if `new_color` is down,
behind if it is up. -/
theorem holds_after (es : List Event) :
    (after es).ws2815.buffers.Holds ((lastColor es).map encode) := by
  induction es using List.reverseRecOn with
  | nil => exact Buffers.holds_none _
  | append_singleton es e ih =>
    rw [after_concat]
    cases e with
    | setColor color =>
      rw [lastColor_concat_setColor, step, WS2815.buffers_setDmaTimingsForColor]
      exact Buffers.holds_publish _ _
    | transferComplete =>
      rw [lastColor_concat_transferComplete]
      rcases (after es).buffers_transferComplete with h | h
      · rwa [h]
      · rw [h]
        exact ih.take

/-! ## Frames -/

/-- The state at the start of a frame, when the handler has been called for the
reset signal. -/
def frameStart (pre : List Event) : Leds := after (pre ++ [.transferComplete])

/-- The state inside a frame. -/
def within (pre mid : List Event) : Leds := after (pre ++ .transferComplete :: mid)

variable {pre mid : List Event} {f : ℕ}

theorem within_nil : within pre [] = frameStart pre := rfl

theorem within_concat (e : Event) : within pre (mid ++ [e]) = (within pre mid).step e := by
  rw [within, within, ← List.cons_append, ← List.append_assoc, after_concat]

/-- Inside frame `f` the index is one more than the number of words sent. -/
theorem phase_within (hpre : completions pre = 151 * (f + 1)) (hmid : completions mid ≤ 150) :
    (within pre mid).ledIndex = completions mid + 1 ∧
      (within pre mid).dma = if completions mid = 150 then resetSignal
        else ledWord (within pre mid).ws2815.selectedBuffer1 := by
  have hphase := phase_after (pre ++ .transferComplete :: mid)
  have hcount : completions (pre ++ .transferComplete :: mid) =
      151 * (f + 1) + 1 + completions mid := by
    rw [completions_append, hpre, completions, List.count_cons_self, completions]
    omega
  rw [hcount] at hphase
  have hindex : (within pre mid).ledIndex = completions mid + 1 := by
    rw [within, hphase.ledIndex]
    split <;> omega
  refine ⟨hindex, ?_⟩
  have hdma := hphase.dma (by omega)
  rw [← within, hindex] at hdma
  rw [hdma]
  exact if_congr (by omega) rfl rfl

/-- **The front is left alone for a whole frame.**  The handler does not swap
before the reset signal has been sent, and the main loop writes behind. -/
theorem front_within (hpre : completions pre = 151 * (f + 1)) (hmid : completions mid ≤ 150) :
    (within pre mid).ws2815.buffers.front = (frameStart pre).ws2815.buffers.front ∧
      (within pre mid).ws2815.buffers.shown = (frameStart pre).ws2815.buffers.shown := by
  induction mid using List.reverseRecOn with
  | nil => exact ⟨rfl, rfl⟩
  | append_singleton mid e ih =>
    rw [within_concat]
    cases e with
    | setColor color =>
      rw [completions_concat_setColor] at hmid
      rw [step, WS2815.buffers_setDmaTimingsForColor, Buffers.shown_publish]
      exact ih hmid
    | transferComplete =>
      rw [completions_concat_transferComplete] at hmid
      have hindex := (phase_within hpre (by omega : completions mid ≤ 150)).1
      have hsame : ((within pre mid).step .transferComplete).ws2815 = (within pre mid).ws2815 := by
        rcases Nat.lt_or_ge (within pre mid).ledIndex 150 with hlt | hge
        · rw [step_of_lt hlt]
        · rw [step_of_eq (by omega)]
      rw [hsame]
      exact ih (by omega)

theorem transfer_of_resetSignal {s : Leds} (h : s.dma = resetSignal) :
    s.transfer = some (List.replicate 180 0) := by
  rw [transfer, h]
  rfl

theorem transfer_of_ledWord {s : Leds} {isBuffer1 : Bool} (h : s.dma = ledWord isBuffer1) :
    s.transfer = some (List.ofFn (s.ws2815.dmaBuffer isBuffer1)) := by
  rw [transfer, h]
  refine congrArg some (List.take_of_length_le ?_)
  rw [List.length_ofFn]
  rfl

/-- **The LED frames.**  Let `pre` be a run that ends with the transfer of a reset
signal in progress, the one before frame `f`, and `c` the last colour set in it.
That transfer is `DMA_TRANSFERS_RES_SIG` zeros.  When it is complete the channel
is switched to one of the two buffers, which holds the timing values of `c`; and
with whatever happens next, for `LED_MAX_INDEX` transfers this buffer is
unchanged and each transfer reads all of it.  The transfer after these is the
next reset signal. -/
theorem frame_structure (pre mid : List Event) (f : ℕ) (c : Color)
    (hpre : completions pre = 151 * (f + 1)) (hcolor : lastColor pre = some c)
    (hmid : completions mid ≤ ledMaxIndex) :
    (after pre).transfer = some (List.replicate dmaTransfersResSig 0) ∧
    (∃ isBuffer1, (frameStart pre).dma.cmar = .buffer isBuffer1 ∧
      decodeColor ((frameStart pre).ws2815.dmaBuffer isBuffer1) = some c ∧
      (within pre mid).ws2815.dmaBuffer isBuffer1 = (frameStart pre).ws2815.dmaBuffer isBuffer1 ∧
      (completions mid < ledMaxIndex → (within pre mid).transfer =
        some (List.ofFn ((frameStart pre).ws2815.dmaBuffer isBuffer1)))) ∧
    (completions mid = ledMaxIndex →
      (within pre mid).transfer = some (List.replicate dmaTransfersResSig 0)) := by
  obtain ⟨hfront, hshown⟩ := front_within hpre hmid
  have hstart := (@phase_within pre [] f hpre (Nat.zero_le _)).2
  rw [if_neg (show completions [] ≠ 150 by decide), within_nil] at hstart
  have hdma := (phase_within hpre hmid).2
  have hphase := phase_after pre
  have hdone : (after pre).ledIndex = 151 := by
    rw [hphase.ledIndex, hpre]
    split <;> omega
  refine ⟨transfer_of_resetSignal ?_, ⟨(frameStart pre).ws2815.selectedBuffer1, ?_, ?_, ?_, ?_⟩, ?_⟩
  · rw [hphase.dma (by omega), if_pos hdone]
  · rw [hstart]
    rfl
  · -- what is in front after the swap is the last colour
    have hlast := (holds_after pre).shown_take (congrArg (Option.map encode) hcolor)
    rw [← WS2815.buffers_swapBuffers] at hlast
    have hframe : (frameStart pre).ws2815 = (after pre).ws2815.swapBuffers := by
      rw [frameStart, after_concat, step_of_eq_done hdone]
    rw [hframe]
    exact (congrArg decodeColor hlast).trans (decodeColor_encode c)
  · have hkept : (within pre mid).ws2815.dmaBuffer (within pre mid).ws2815.selectedBuffer1 =
        (frameStart pre).ws2815.dmaBuffer (frameStart pre).ws2815.selectedBuffer1 := hshown
    rwa [show (within pre mid).ws2815.selectedBuffer1 =
      (frameStart pre).ws2815.selectedBuffer1 from hfront] at hkept
  · intro hlt
    rw [if_neg (show completions mid ≠ 150 from hlt.ne)] at hdma
    rw [transfer_of_ledWord hdma]
    exact congrArg (fun b => some (List.ofFn b)) hshown
  · intro heq
    exact transfer_of_resetSignal (hdma.trans (if_pos heq))

/-- A run to the reset signal before the first frame, with one colour set. -/
def firstReset : List Event := .setColor ⟨255, 0, 0⟩ :: List.replicate 151 .transferComplete

/-- The first frame shows red, and setting blue while it is sent does not change
that. -/
theorem frame_structure_firstReset :
    ∃ isBuffer1,
      decodeColor ((frameStart firstReset).ws2815.dmaBuffer isBuffer1) = some ⟨255, 0, 0⟩ ∧
      (within firstReset [.setColor ⟨0, 0, 255⟩, .transferComplete]).transfer =
        some (List.ofFn ((frameStart firstReset).ws2815.dmaBuffer isBuffer1)) := by
  have hcompletions : completions firstReset = 151 * (0 + 1) := by
    rw [completions, firstReset, List.count_cons_of_ne (by decide), List.count_replicate_self]
  obtain ⟨-, ⟨isBuffer1, -, hdecode, -, htransfer⟩, -⟩ :=
    frame_structure firstReset [.setColor ⟨0, 0, 255⟩, .transferComplete] 0 ⟨255, 0, 0⟩
      hcompletions rfl (by decide)
  exact ⟨isBuffer1, hdecode, htransfer (by decide)⟩

end Leds
end Stm32Adaptive
