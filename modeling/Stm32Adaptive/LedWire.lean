import Stm32Adaptive.FadeMonotone
import Stm32Adaptive.LedDoubleBuffer
import Stm32Adaptive.LedFrames

/-!
# What the LED strip is sent

`LedDoubleBuffer` lets the interrupt come between the single stores of a call and
asks what pointer it gets; `LedFrames` takes calls whole and follows the transfers.
Here both are in one system, and the DMA channel moves one value at a time: main loop
with the fade engine, clock, channel and interrupt handler, in any interleaving.  The
subject is the sequence of values that reach `TIM17->CCR1`, the duty cycles on the wire
to the strip.

Its shape does not depend on the main loop (`Phase`).  The first 27180 values are
unknown, because the channel begins with a transfer that runs past the constant `ZERO`;
then come a reset signal and frames of 3780 values.  Two results say what the frames
are.

* `wire_frames`: if no frame starts inside a call while `new_color` is up, every frame
  is the colour of the last call that was completed when it began, on every LED.
* `wire_torn`: a frame that does start there takes each value from the call in
  progress or from what this call overwrites, and only from the call once the call has
  come to its end.

The handler is served before the next request, which is 72 cycles of the processor
later.
-/

namespace Stm32Adaptive

open DoubleBuffer Ws28xx Runs

/-- The strip with the main loop and the clock, at single stores and single
requests. -/
structure LedWire extends Leds where
  systick : UInt64
  /-- Where the main loop is in `set_dma_timings_for_color`. -/
  pc : Pc Color
  /-- The colour that `process` is about to paint. -/
  pending : List Color
  /-- The colour of the last call that has been completed. -/
  completed : Option Color
  /-- The number of values of the transfer in progress that have been moved. -/
  position : ℕ
  /-- The values moved to `TIM17->CCR1`, where they are known. -/
  wire : List (Option UInt8)

/-- What happens next. -/
inductive WireEvent where
  | fadeToColor (c : Color) (fadeTime : UInt32)
  | fadeBetweenColors (a b : Color) (fadeTime : UInt32)
  | process
  /-- One step of `set_dma_timings_for_color`. -/
  | store
  /-- `SysTick_Handler`. -/
  | sysTick
  /-- `TIM17` asks the channel for a value. -/
  | dmaRequest
  deriving DecidableEq

/-- The colour that a call of `process` paints, if it paints one. -/
def Ws28xx.WS2815.paints (systick : UInt64) (w : WS2815) : Option Color :=
  if w.Fading ∧ w.percent systick < 1025 then some (w.colorAt (w.percent systick).toNat) else none

namespace LedWire

/-- After reset. -/
def initial : LedWire where
  toLeds := Leds.initial
  systick := 0
  pc := .idle
  pending := []
  completed := none
  position := 0
  wire := []

/-- The main loop is in no call. -/
def AtRest (s : LedWire) : Prop := s.pc = .idle ∧ s.pending = []

instance (s : LedWire) : Decidable s.AtRest :=
  match h : s.pc with
  | .idle => decidable_of_iff (s.pending = []) ⟨fun hp => ⟨h, hp⟩, fun hs => hs.2⟩
  | .writing _ _ _ => isFalse fun hs => Pc.writing_ne_idle _ _ _ (h.symm.trans hs.1)

/-- The main loop and what it shares with the interrupt handler. -/
def thread (s : LedWire) : LedThread := ⟨s.ws2815, s.pc, s.pending, s.completed⟩

/-- One step of `set_dma_timings_for_color`. -/
def store (s : LedWire) : LedWire :=
  let thread := s.thread.mainStep
  { s with
    ws2815 := thread.ws2815
    pc := thread.pc
    pending := thread.pending
    completed := thread.completed }

/-- The value the channel moves next. -/
def value (s : LedWire) : Option UInt8 := s.toLeds.transfer.bind fun values => values[s.position]?

/-- A request: a value is moved, and after the last value of a transfer the interrupt
handler is called. -/
def dmaRequest (s : LedWire) : LedWire :=
  let wire := s.wire ++ [s.value]
  if s.position + 1 < s.dma.cndtr then { s with position := s.position + 1, wire := wire }
  else { s with
    toLeds := s.toLeds.dma1Channel1IrqHandler false true
    position := 0
    wire := wire }

/-- One event.  The main loop is in one function at a time, and a call of `process`
that paints goes on with the steps of `set_dma_timings_for_color`. -/
def step (s : LedWire) : WireEvent → Option LedWire
  | .fadeToColor c fadeTime =>
    if s.AtRest then some { s with ws2815 := s.ws2815.fadeToColor c fadeTime s.systick } else none
  | .fadeBetweenColors a b fadeTime =>
    if s.AtRest then some { s with ws2815 := s.ws2815.fadeBetweenColors a b fadeTime s.systick }
    else none
  | .process =>
    if s.AtRest then
      (s.ws2815.process s.systick).map fun w =>
        match s.ws2815.paints s.systick with
        | some color => { s with pending := [color] }
        | none => { s with ws2815 := w }
    else none
  | .store => some s.store
  | .sysTick => some { s with systick := s.systick + 1 }
  | .dmaRequest => some s.dmaRequest

/-- The next request starts a frame. -/
def StartsFrame (s : LedWire) : Prop := s.dma.cndtr ≤ s.position + 1 ∧ s.ledIndex = 151

/-- A frame starts after the first completed call, and inside a call only while
`new_color` is down. -/
def Settled (s : LedWire) (e : WireEvent) : Prop :=
  e = .dmaRequest → s.StartsFrame →
    s.completed ≠ none ∧ (s.pc ≠ .idle → s.ws2815.newColor = false)

/-- The values of a frame that shows a buffer: its values for every LED, and the reset
signal. -/
def frame (x : DmaBuffer) : List UInt8 :=
  (List.replicate Leds.ledMaxIndex (List.ofFn x)).flatten ++
    List.replicate Leds.dmaTransfersResSig 0

/-- The values of frame `f`, as far as they have been moved. -/
def frameOn (wire : List (Option UInt8)) (f : ℕ) : List (Option UInt8) :=
  (wire.drop (27360 + 3780 * f)).take 3780

variable {s t : LedWire}

/-! ## The main loop and the strip -/

/-- A call of `process` paints at once what the call with its steps paints. -/
theorem process_of_paints {w w' : WS2815} {systick : UInt64} {color : Color}
    (hpaints : w.paints systick = some color) (hw : w.process systick = some w') :
    w' = w.setDmaTimingsForColor color := by
  rw [WS2815.paints, Option.ite_none_right_eq_some] at hpaints
  obtain ⟨⟨hfading, hlt⟩, hcolor⟩ := hpaints
  rw [WS2815.process_of_fading hfading] at hw
  by_cases hzero : w.fadeTime = 0
  · rw [if_pos hzero] at hw
    exact absurd hw (Option.some_ne_none _).symm
  · rw [if_neg hzero, if_neg (UInt64.not_le.mpr hlt), Option.some.injEq] at hw
    rw [← hw, ← Option.some.inj hcolor]

theorem run_stores {th : LedThread} {n : ℕ}
    (h : run LedThread.step s.thread (List.replicate n .main) = some th) :
    run step s (List.replicate n .store) = some { s with
      ws2815 := th.ws2815
      pc := th.pc
      pending := th.pending
      completed := th.completed } := by
  induction n generalizing s with
  | zero =>
    obtain rfl := Option.some.inj h
    rfl
  | succ n ih =>
    rw [List.replicate_succ, run_cons] at h ⊢
    exact ih (s := s.store) h

/-- **A call of `process` that paints is its decision and 26 steps.** -/
theorem run_process (hrest : s.AtRest) {color : Color} {w : WS2815}
    (hpaints : s.ws2815.paints s.systick = some color)
    (hw : s.ws2815.process s.systick = some w) :
    run step s (.process :: List.replicate 26 .store) =
      some { s with ws2815 := w, completed := some color } := by
  have hdecide : step s .process = some { s with pending := [color] } := by
    rw [step, if_pos hrest, hw, Option.map_some, hpaints]
  have hcall := run_stores (s := { s with pending := [color] })
    (LedThread.run_call (s := LedWire.thread { s with pending := [color] }) hrest.1 rfl)
  rw [run_cons_of_step hdecide, hcall, process_of_paints hpaints hw]
  obtain ⟨leds, systick, pc, pending, completed, position, wire⟩ := s
  obtain rfl : pending = [] := hrest.2
  rfl

theorem dmaRequest_of_lt (h : s.position + 1 < s.dma.cndtr) :
    s.dmaRequest = { s with position := s.position + 1, wire := s.wire ++ [s.value] } :=
  if_pos h

theorem dmaRequest_of_le (h : s.dma.cndtr ≤ s.position + 1) :
    s.dmaRequest = { s with
      toLeds := s.toLeds.step .transferComplete
      position := 0
      wire := s.wire ++ [s.value] } :=
  if_neg (not_lt.mpr h)

/-- The events that leave the strip alone: commands, decisions and the clock. -/
structure SameStrip (s t : LedWire) : Prop where
  dma : t.dma = s.dma
  ledIndex : t.ledIndex = s.ledIndex
  position : t.position = s.position
  wire : t.wire = s.wire
  buffers : t.ws2815.buffers = s.ws2815.buffers
  pc : t.pc = s.pc
  completed : t.completed = s.completed

/-- A call of `process` that paints nothing leaves the display alone. -/
theorem process_of_not_paints {w w' : WS2815} {systick : UInt64}
    (hpaints : w.paints systick = none) (hw : w.process systick = some w') :
    w'.buffers = w.buffers ∧ w'.currentColorAllLeds = w.currentColorAllLeds := by
  rcases WS2815.process_cases hw with ⟨-, rfl⟩ | ⟨-, -, rfl⟩ | ⟨-, -, rfl⟩ | ⟨hfading, hle, -⟩
  · exact ⟨rfl, rfl⟩
  · exact ⟨rfl, rfl⟩
  · rw [WS2815.nextLeg_eq]
    exact ⟨rfl, rfl⟩
  · have hlt : w.percent systick < 1025 := UInt64.lt_iff_toNat_lt.mpr (Nat.lt_succ_of_le hle)
    rw [WS2815.paints, if_pos ⟨hfading, hlt⟩] at hpaints
    exact absurd hpaints (Option.some_ne_none _)

/-- A call of `process` begins in no other call; it decides what to paint, or paints
nothing. -/
theorem step_process_cases (h : step s .process = some t) :
    s.AtRest ∧ ∃ w, s.ws2815.process s.systick = some w ∧
      ((∃ color, w = s.ws2815.setDmaTimingsForColor color ∧ t = { s with pending := [color] }) ∨
        (w.buffers = s.ws2815.buffers ∧
          w.currentColorAllLeds = s.ws2815.currentColorAllLeds ∧ t = { s with ws2815 := w })) := by
  obtain ⟨hrest, hmap⟩ := Option.ite_none_right_eq_some.mp h
  obtain ⟨w, hw, rfl⟩ := Option.map_eq_some_iff.mp hmap
  refine ⟨hrest, w, hw, ?_⟩
  cases hpaints : s.ws2815.paints s.systick with
  | some color => exact Or.inl ⟨color, process_of_paints hpaints hw, rfl⟩
  | none =>
    obtain ⟨hbuffers, hcolor⟩ := process_of_not_paints hpaints hw
    exact Or.inr ⟨hbuffers, hcolor, rfl⟩

theorem sameStrip_of_step {e : WireEvent} (h : step s e = some t) (hstore : e ≠ .store)
    (hrequest : e ≠ .dmaRequest) : SameStrip s t := by
  cases e with
  | fadeToColor c fadeTime =>
    obtain ⟨-, hsome⟩ := Option.ite_none_right_eq_some.mp h
    obtain rfl := Option.some.inj hsome
    exact ⟨rfl, rfl, rfl, rfl, rfl, rfl, rfl⟩
  | fadeBetweenColors a b fadeTime =>
    obtain ⟨-, hsome⟩ := Option.ite_none_right_eq_some.mp h
    obtain rfl := Option.some.inj hsome
    exact ⟨rfl, rfl, rfl, rfl, rfl, rfl, rfl⟩
  | process =>
    obtain ⟨-, w, -, ⟨color, -, rfl⟩ | ⟨hbuffers, -, rfl⟩⟩ := step_process_cases h
    · exact ⟨rfl, rfl, rfl, rfl, rfl, rfl, rfl⟩
    · exact ⟨rfl, rfl, rfl, rfl, hbuffers, rfl, rfl⟩
  | store => exact absurd rfl hstore
  | sysTick =>
    obtain rfl := Option.some.inj h
    exact ⟨rfl, rfl, rfl, rfl, rfl, rfl, rfl⟩
  | dmaRequest => exact absurd rfl hrequest

/-- Only requests move values. -/
theorem wire_of_ne {e : WireEvent} (h : step s e = some t) (hrequest : e ≠ .dmaRequest) :
    t.wire = s.wire := by
  by_cases hstore : e = .store
  · subst hstore
    obtain rfl := Option.some.inj h
    rfl
  · exact (sameStrip_of_step h hstore hrequest).wire

/-- The channel looks at the selector only. -/
theorem front_store (s : LedWire) : s.store.ws2815.selectedBuffer1 = s.ws2815.selectedBuffer1 :=
  (congrArg (fun a => a.buffers.front) s.thread.abs_mainStep).trans
    (front_move_writer colorEncoder s.thread.abs)

/-! ## The phase of a run -/

/-- **What the channel is doing, from the number of values moved.**  Frame `r` comes
after reset signal `r`. -/
inductive Phase (s : LedWire) : Prop where
  /-- A transfer that runs past `ZERO`, with `i` of them complete. -/
  | unknown (i p : ℕ) (hi : i ≤ 150) (hp : p < 180) (hlength : s.wire.length = 180 * i + p)
    (hposition : s.position = p) (hindex : s.ledIndex = i) (hdma : s.dma = Leds.initial.dma)
  /-- Reset signal `r`. -/
  | reset (r p : ℕ) (hp : p < 180) (hlength : s.wire.length = 27180 + 3780 * r + p)
    (hposition : s.position = p) (hindex : s.ledIndex = 151) (hdma : s.dma = Leds.resetSignal)
  /-- The word of LED `i` in frame `r`. -/
  | word (r i p : ℕ) (hi : i < 150) (hp : p < 24)
    (hlength : s.wire.length = 27360 + 3780 * r + 24 * i + p) (hposition : s.position = p)
    (hindex : s.ledIndex = i + 1) (hdma : s.dma = Leds.ledWord s.ws2815.selectedBuffer1)

theorem phase_initial : Phase initial :=
  .unknown 0 0 (Nat.zero_le _) (by decide) rfl rfl rfl rfl

theorem Phase.of_eq (h : Phase s) (hdma : t.dma = s.dma) (hindex : t.ledIndex = s.ledIndex)
    (hposition : t.position = s.position) (hwire : t.wire = s.wire)
    (hfront : t.ws2815.selectedBuffer1 = s.ws2815.selectedBuffer1) : Phase t := by
  cases h with
  | unknown i p hi hp hl hpos hidx hd =>
    exact .unknown i p hi hp (hwire ▸ hl) (hposition.trans hpos) (hindex.trans hidx)
      (hdma.trans hd)
  | reset r p hp hl hpos hidx hd =>
    exact .reset r p hp (hwire ▸ hl) (hposition.trans hpos) (hindex.trans hidx) (hdma.trans hd)
  | word r i p hi hp hl hpos hidx hd =>
    exact .word r i p hi hp (hwire ▸ hl) (hposition.trans hpos) (hindex.trans hidx)
      (hfront ▸ hdma.trans hd)

theorem length_dmaRequest (s : LedWire) : s.dmaRequest.wire.length = s.wire.length + 1 := by
  unfold dmaRequest
  split <;> exact List.length_append

theorem Phase.dmaRequest (h : Phase s) : Phase s.dmaRequest := by
  cases h with
  | unknown i p hi hp hl hpos hidx hd =>
    have hcndtr : s.dma.cndtr = 180 := by rw [hd]; rfl
    by_cases hmore : p + 1 < 180
    · rw [dmaRequest_of_lt (by omega)]
      exact .unknown i (p + 1) hi hmore (by simp [hl, Nat.add_assoc]) (by simp [hpos]) hidx hd
    · rw [dmaRequest_of_le (by omega)]
      rcases Nat.lt_or_ge i 150 with hlt | hge
      · rw [Leds.step_of_lt (by omega)]
        exact .unknown (i + 1) 0 (by omega) (by omega)
          (by rw [List.length_append, hl, List.length_singleton]; omega) rfl (by simp [hidx]) hd
      · rw [Leds.step_of_eq (by omega)]
        exact .reset 0 0 (by omega)
          (by rw [List.length_append, hl, List.length_singleton]; omega) rfl rfl rfl
  | reset r p hp hl hpos hidx hd =>
    have hcndtr : s.dma.cndtr = 180 := by rw [hd]; rfl
    by_cases hmore : p + 1 < 180
    · rw [dmaRequest_of_lt (by omega)]
      exact .reset r (p + 1) hmore (by simp [hl, Nat.add_assoc]) (by simp [hpos]) hidx hd
    · rw [dmaRequest_of_le (by omega), Leds.step_of_eq_done hidx]
      exact .word r 0 0 (by omega) (by omega)
        (by rw [List.length_append, hl, List.length_singleton]; omega) rfl rfl rfl
  | word r i p hi hp hl hpos hidx hd =>
    have hcndtr : s.dma.cndtr = 24 := by rw [hd]; rfl
    by_cases hmore : p + 1 < 24
    · rw [dmaRequest_of_lt (by omega)]
      exact .word r i (p + 1) hi hmore (by simp [hl, Nat.add_assoc]) (by simp [hpos]) hidx hd
    · rw [dmaRequest_of_le (by omega)]
      rcases Nat.lt_or_ge (i + 1) 150 with hlt | hge
      · rw [Leds.step_of_lt (by omega)]
        exact .word r (i + 1) 0 hlt (by omega)
          (by rw [List.length_append, hl, List.length_singleton]; omega) rfl (by simp [hidx]) hd
      · rw [Leds.step_of_eq (by omega)]
        exact .reset (r + 1) 0 (by omega)
          (by rw [List.length_append, hl, List.length_singleton]; omega) rfl rfl rfl

theorem Phase.step (h : Phase s) {e : WireEvent} (hstep : step s e = some t) : Phase t := by
  by_cases hstore : e = .store
  · subst hstore
    obtain rfl := Option.some.inj hstep
    exact h.of_eq rfl rfl rfl rfl s.front_store
  by_cases hrequest : e = .dmaRequest
  · subst hrequest
    obtain rfl := Option.some.inj hstep
    exact h.dmaRequest
  have hsame := sameStrip_of_step hstep hstore hrequest
  exact h.of_eq hsame.dma hsame.ledIndex hsame.position hsame.wire
    (congrArg Buffers.front hsame.buffers)

/-! ## The values of a frame -/

/-- The buffer in front. -/
def shown (s : LedWire) : DmaBuffer := s.ws2815.buffers.shown

/-- From the value numbered `n` on, the values of frame `f` are as `P` says for their
position in the word, and those of its reset signal are zero. -/
def FrameValues (P : Fin 24 → UInt8 → Prop) (f n : ℕ) (wire : List (Option UInt8)) : Prop :=
  ∀ j < 3780, n ≤ 27360 + 3780 * f + j → 27360 + 3780 * f + j < wire.length →
    ∃ v, wire[27360 + 3780 * f + j]? = some (some v) ∧
      if j < 3600 then P ⟨j % 24, Nat.mod_lt _ (by decide)⟩ v else v = 0

theorem getElem?_flatten_replicate {α : Type*} (l : List α) {m i p : ℕ} (hi : i < m)
    (hp : p < l.length) : (List.replicate m l).flatten[l.length * i + p]? = l[p]? := by
  induction m generalizing i with
  | zero => exact absurd hi (Nat.not_lt_zero i)
  | succ m ih =>
    rw [List.replicate_succ, List.flatten_cons]
    cases i with
    | zero => rw [Nat.mul_zero, Nat.zero_add, List.getElem?_append_left hp]
    | succ i =>
      rw [List.getElem?_append_right (by rw [Nat.mul_succ]; omega), Nat.mul_succ,
        show l.length * i + l.length + p - l.length = l.length * i + p by omega,
        ih (Nat.lt_of_succ_lt_succ hi)]

theorem length_flatten_replicate {α : Type*} (l : List α) (m : ℕ) :
    (List.replicate m l).flatten.length = m * l.length := by
  induction m with
  | zero => rw [List.replicate_zero, List.flatten_nil, Nat.zero_mul, List.length_nil]
  | succ m ih =>
    rw [List.replicate_succ, List.flatten_cons, List.length_append, ih, Nat.succ_mul, Nat.add_comm]

theorem length_words (x : DmaBuffer) :
    (List.replicate Leds.ledMaxIndex (List.ofFn x)).flatten.length = 3600 := by
  rw [length_flatten_replicate, List.length_ofFn]
  rfl

/-- The values of a frame, one by one. -/
theorem getElem?_frame (x : DmaBuffer) {j : ℕ} (hj : j < 3780) :
    (frame x)[j]? = some (if j < 3600 then x ⟨j % 24, Nat.mod_lt _ (by decide)⟩ else 0) := by
  rw [frame]
  by_cases hword : j < 3600
  · have hsplit : j = (List.ofFn x).length * (j / 24) + j % 24 := by
      rw [List.length_ofFn]
      omega
    have hmod : j % 24 < (List.ofFn x).length := by
      rw [List.length_ofFn]
      omega
    have hdiv : j / 24 < Leds.ledMaxIndex := by
      rw [Leds.ledMaxIndex]
      omega
    rw [if_pos hword, List.getElem?_append_left (by rw [length_words]; exact hword)]
    conv_lhs => rw [hsplit]
    rw [getElem?_flatten_replicate _ hdiv hmod, List.getElem?_eq_getElem hmod, List.getElem_ofFn]
  · rw [if_neg hword, List.getElem?_append_right (by rw [length_words]; omega), length_words,
      List.getElem?_replicate, if_pos (by rw [Leds.dmaTransfersResSig]; omega)]

/-- A frame whose values are those of one buffer is the frame of this buffer. -/
theorem frameOn_of_frameValues {x : DmaBuffer} {f : ℕ} {wire : List (Option UInt8)}
    (h : FrameValues (fun i v => v = x i) f (27360 + 3780 * f) wire)
    (hlength : 27360 + 3780 * (f + 1) ≤ wire.length) :
    frameOn wire f = (frame x).map some := by
  refine List.ext_getElem? fun j => ?_
  rw [frameOn, List.getElem?_take, List.getElem?_drop, List.getElem?_map]
  by_cases hj : j < 3780
  · obtain ⟨v, hv, hx⟩ := h j hj (by omega) (by omega)
    rw [if_pos hj, hv, getElem?_frame x hj, Option.map_some, Option.some.injEq, Option.some.injEq]
    by_cases hword : j < 3600
    · rw [if_pos hword] at hx ⊢
      exact hx
    · rw [if_neg hword] at hx ⊢
      exact hx
  · have hlen : (frame x).length = 3780 := by
      rw [frame, List.length_append, length_words, List.length_replicate]
      rfl
    rw [if_neg hj, List.getElem?_eq_none (by omega)]
    rfl

/-- What the channel moves inside a frame. -/
theorem value_of_phase (h : Phase s) {f j : ℕ} (hj : j < 3780)
    (hlength : s.wire.length = 27360 + 3780 * f + j) :
    s.value = some (if j < 3600 then s.shown ⟨j % 24, Nat.mod_lt _ (by decide)⟩ else 0) := by
  cases h with
  | unknown i p hi hp hl => omega
  | reset r p hp hl hpos hidx hd =>
    rw [if_neg (by omega), value, Leds.transfer_of_resetSignal hd, hpos, Option.bind_some,
      List.getElem?_replicate, if_pos hp]
  | word r i p hi hp hl hpos hidx hd =>
    -- the frame is the same, and so is the position in it
    obtain ⟨m, hm⟩ : ∃ m, m = 24 * i + p := ⟨_, rfl⟩
    have hsame : j = m := by omega
    have hword : j < 3600 := by omega
    have hmod : j % 24 = p := by omega
    rw [if_pos hword, value, Leds.transfer_of_ledWord hd, hpos, Option.bind_some,
      List.getElem?_eq_getElem (by rw [List.length_ofFn]; exact hp), List.getElem_ofFn]
    simp only [hmod]
    rfl

/-! ## The double buffer -/

/-- Writer and reader with their buffers. -/
def double (s : LedWire) : State Color DmaBuffer := s.thread.abs

theorem wire_dmaRequest (s : LedWire) : s.dmaRequest.wire = s.wire ++ [s.value] := by
  unfold dmaRequest
  split <;> rfl

theorem dmaRequest_of_startsFrame (h : s.StartsFrame) :
    s.dmaRequest = { s with
      ws2815 := s.ws2815.swapBuffers
      dma := Leds.ledWord s.ws2815.swapBuffers.selectedBuffer1
      ledIndex := 1
      position := 0
      wire := s.wire ++ [s.value] } := by
  rw [dmaRequest_of_le h.1, Leds.step_of_eq_done h.2]

theorem thread_dmaRequest_of_not_startsFrame (hphase : Phase s) (h : ¬ s.StartsFrame) :
    s.dmaRequest.thread = s.thread := by
  rcases Nat.lt_or_ge (s.position + 1) s.dma.cndtr with hlt | hge
  · rw [dmaRequest_of_lt hlt]
    rfl
  · have hindex : s.ledIndex ≤ 150 := by
      have hne : s.ledIndex ≠ 151 := fun heq => h ⟨hge, heq⟩
      cases hphase <;> omega
    rw [dmaRequest_of_le hge]
    rcases Nat.lt_or_eq_of_le hindex with hlt | heq
    · rw [Leds.step_of_lt hlt]
      rfl
    · rw [Leds.step_of_eq heq]
      rfl

/-- **What an event is for the double buffer**: nothing, except perhaps that a colour is
going to be painted; a move of the writer; or, at the start of a frame, a move of the
reader. -/
theorem double_of_step (hphase : Phase s) {e : WireEvent} (h : step s e = some t) :
    ((e = .dmaRequest → ¬ s.StartsFrame) ∧
      ∃ pending, t.double = { s.double with pending := pending }) ∨
    (e = .store ∧ t.double = move colorEncoder s.double .writer) ∨
    (e = .dmaRequest ∧ s.StartsFrame ∧ t.double = move colorEncoder s.double .reader) := by
  by_cases hstore : e = .store
  · subst hstore
    obtain rfl := Option.some.inj h
    exact Or.inr (Or.inl ⟨rfl, s.thread.abs_mainStep⟩)
  by_cases hrequest : e = .dmaRequest
  · subst hrequest
    obtain rfl := Option.some.inj h
    by_cases hstart : s.StartsFrame
    · refine Or.inr (Or.inr ⟨rfl, hstart, ?_⟩)
      rw [dmaRequest_of_startsFrame hstart]
      exact congrArg (State.mk · s.pc s.pending s.completed) s.ws2815.buffers_swapBuffers
    · have hthread := thread_dmaRequest_of_not_startsFrame hphase hstart
      exact Or.inl ⟨fun _ => hstart, s.pending, congrArg LedThread.abs hthread⟩
  · have hsame := sameStrip_of_step h hstore hrequest
    refine Or.inl ⟨fun heq => absurd heq hrequest, t.pending, ?_⟩
    rw [double, LedThread.abs, thread, hsame.buffers, hsame.pc, hsame.completed]
    rfl

/-- Frames start where they should. -/
theorem Phase.length_of_startsFrame (h : Phase s) (hstart : s.StartsFrame) :
    ∃ r, s.wire.length + 1 = 27360 + 3780 * r := by
  obtain ⟨hlast, hindex⟩ := hstart
  cases h with
  | unknown i p hi => omega
  | reset r p hp hl hpos hidx hd =>
    rw [hd, show Leds.resetSignal.cndtr = 180 from rfl] at hlast
    exact ⟨r, by omega⟩
  | word r i p hi hp hl hpos hidx => omega

/-- The next request starts frame `f`. -/
theorem Phase.startsFrame (h : Phase s) {f : ℕ} (hlength : s.wire.length + 1 = 27360 + 3780 * f) :
    s.StartsFrame := by
  cases h with
  | unknown i p hi hp hl => omega
  | reset r p hp hl hpos hidx hd =>
    refine ⟨?_, hidx⟩
    rw [hd, show Leds.resetSignal.cndtr = 180 from rfl]
    omega
  | word r i p hi hp hl =>
    obtain ⟨m, hm⟩ : ∃ m, m = 24 * i + p := ⟨_, rfl⟩
    omega

/-- No frame starts inside another one. -/
theorem Phase.not_startsFrame (h : Phase s) {f : ℕ} (hlow : 27360 + 3780 * f ≤ s.wire.length)
    (hhigh : s.wire.length + 1 < 27360 + 3780 * (f + 1)) : ¬ s.StartsFrame := by
  intro hstart
  obtain ⟨r, hr⟩ := h.length_of_startsFrame hstart
  omega

theorem FrameValues.concat {P : Fin 24 → UInt8 → Prop} {f n : ℕ} {wire : List (Option UInt8)}
    (h : FrameValues P f n wire) {v : UInt8}
    (hv : ∀ j < 3780, wire.length = 27360 + 3780 * f + j →
      if j < 3600 then P ⟨j % 24, Nat.mod_lt _ (by decide)⟩ v else v = 0) :
    FrameValues P f n (wire ++ [some v]) := by
  intro j hj hlow hhigh
  rw [List.length_append, List.length_singleton] at hhigh
  rcases Nat.lt_or_eq_of_le (Nat.le_of_lt_succ hhigh) with hold | hnew
  · rw [List.getElem?_append_left hold]
    exact h j hj hlow hold
  · rw [hnew, List.getElem?_concat_length]
    exact ⟨v, rfl, hv j hj hnew.symm⟩

/-- **The run lemma for frames.**  Let `Q` bound the front by `P`, and let every event
that does not start a frame preserve it.  If `Q` holds inside a frame, it holds to the
end of the frame, and the rest of the frame is bounded by `P`. -/
theorem frameValues_of_run {P : Fin 24 → UInt8 → Prop} {Q : LedWire → Prop} {f : ℕ}
    {es : List WireEvent} (hP : ∀ s, Q s → ∀ i, P i (s.shown i))
    (hQ : ∀ s e t, Phase s → Q s → (e = .dmaRequest → ¬ s.StartsFrame) →
      step s e = some t → Q t)
    (hphase : Phase s) (hs : Q s) (hlow : 27360 + 3780 * f ≤ s.wire.length)
    (hrun : run step s es = some t) :
    FrameValues P f s.wire.length t.wire ∧
      (t.wire.length < 27360 + 3780 * (f + 1) → Q t) := by
  have hinv : Phase t ∧ s.wire.length ≤ t.wire.length ∧ FrameValues P f s.wire.length t.wire ∧
      (t.wire.length < 27360 + 3780 * (f + 1) → Q t) := by
    refine inv_of_run (I := fun u => Phase u ∧ s.wire.length ≤ u.wire.length ∧
      FrameValues P f s.wire.length u.wire ∧ (u.wire.length < 27360 + 3780 * (f + 1) → Q u))
      (fun u e v hu hstep => ?_)
      ⟨hphase, le_rfl, fun j _ hge hlt => absurd hge (not_le.mpr hlt), fun _ => hs⟩ hrun
    obtain ⟨hu, hle, hvalues, hQu⟩ := hu
    refine ⟨hu.step hstep, ?_⟩
    by_cases hrequest : e = .dmaRequest
    · subst hrequest
      obtain rfl := Option.some.inj hstep
      rw [length_dmaRequest, wire_dmaRequest]
      refine ⟨by omega, ?_, fun hlt => ?_⟩
      · by_cases hinside : u.wire.length < 27360 + 3780 * (f + 1)
        · obtain ⟨j, hj⟩ := Nat.exists_eq_add_of_le (hlow.trans hle)
          rw [value_of_phase hu (by omega) hj]
          refine hvalues.concat fun j' hj' heq => ?_
          obtain rfl : j' = j := by omega
          split
          · exact hP u (hQu hinside) _
          · rfl
        · intro j hj hge hlt
          have hold : 27360 + 3780 * f + j < u.wire.length := by omega
          rw [List.getElem?_append_left hold]
          exact hvalues j hj hge hold
      · exact hQ u .dmaRequest _ hu (hQu (by omega))
          (fun _ => hu.not_startsFrame (by omega) hlt) rfl
    · rw [wire_of_ne hstep hrequest]
      exact ⟨hle, hvalues, fun hlt => hQ u e v hu (hQu hlt) (fun heq => absurd heq hrequest) hstep⟩
  exact hinv.2.2

/-! ## Frames -/

/-- Every number of values between was reached with a request. -/
theorem exists_request {s₀ : LedWire} {es : List WireEvent} (hrun : run step s₀ es = some t)
    {n : ℕ} (hlow : s₀.wire.length ≤ n) (hn : n < t.wire.length) :
    ∃ pre post s, es = pre ++ .dmaRequest :: post ∧ run step s₀ pre = some s ∧
      s.wire.length = n := by
  induction es using List.reverseRecOn generalizing t with
  | nil =>
    obtain rfl := Option.some.inj hrun
    exact absurd hn (not_lt.mpr hlow)
  | append_singleton es e ih =>
    rw [run_append, Option.bind_eq_some_iff] at hrun
    obtain ⟨u, hu, hlast⟩ := hrun
    have hstep : step u e = some t := by
      rw [run_cons, Option.bind_eq_some_iff] at hlast
      obtain ⟨v, hv, hnil⟩ := hlast
      exact hv.trans hnil
    by_cases hold : n < u.wire.length
    · obtain ⟨pre, post, s, rfl, hpre, hlength⟩ := ih hu hold
      exact ⟨pre, post ++ [e], s, by rw [List.append_assoc, List.cons_append], hpre, hlength⟩
    · by_cases hrequest : e = .dmaRequest
      · subst hrequest
        obtain rfl := Option.some.inj hstep
        rw [length_dmaRequest] at hn
        exact ⟨es, [], u, rfl, hu, by omega⟩
      · exact absurd (wire_of_ne hstep hrequest ▸ hn) hold

theorem phase_of_run (h : Phase s) {es : List WireEvent} (hrun : run step s es = some t) :
    Phase t :=
  inv_of_run (I := Phase) (fun _ _ _ h hstep => h.step hstep) h hrun

theorem length_le_of_run {es : List WireEvent} (hrun : run step s es = some t) :
    s.wire.length ≤ t.wire.length := by
  refine inv_of_run (I := fun u => s.wire.length ≤ u.wire.length) (fun u e v hu hstep => ?_)
    le_rfl hrun
  by_cases hrequest : e = .dmaRequest
  · subst hrequest
    obtain rfl := Option.some.inj hstep
    rw [length_dmaRequest]
    exact hu.trans (Nat.le_succ _)
  · rwa [wire_of_ne hstep hrequest]

theorem writes_of_run {es : List WireEvent} (hrun : run step initial es = some t) :
    Writes colorEncoder t.double := by
  have hinv : Phase t ∧ Writes colorEncoder t.double := by
    refine inv_of_run (I := fun s => Phase s ∧ Writes colorEncoder s.double)
      (fun s e u h hstep => ⟨h.1.step hstep, ?_⟩)
      ⟨phase_initial, fun _ _ _ hw => absurd hw.symm (Pc.writing_ne_idle _ _ _)⟩ hrun
    rcases double_of_step h.1 hstep with ⟨-, pending, hd⟩ | ⟨-, hd⟩ | ⟨-, -, hd⟩
    · rw [hd]
      exact h.2
    · rw [hd]
      exact h.2.move .writer
    · rw [hd]
      exact h.2.move .reader
  exact hinv.2

/-- **A frame that starts clear is whole**: all of it shows the buffer in front. -/
theorem frameValues_of_clear {es : List WireEvent} {f : ℕ} (hphase : Phase s)
    (hclear : Clear s.double) (hlow : 27360 + 3780 * f ≤ s.wire.length)
    (hrun : run step s es = some t) :
    FrameValues (fun i v => v = s.shown i) f s.wire.length t.wire := by
  refine (frameValues_of_run (Q := fun u => Clear u.double ∧ u.shown = s.shown)
    (fun u hu i => by rw [hu.2]) (fun u e v hu hQ hnot hstep => ?_) hphase ⟨hclear, rfl⟩ hlow
    hrun).1
  have hbuffers : ∀ u : LedWire, u.shown = u.double.buffers.shown := fun _ => rfl
  rcases double_of_step hu hstep with ⟨-, pending, hd⟩ | ⟨-, hd⟩ | ⟨he, hstart, -⟩
  · rw [hbuffers v, hd]
    exact hQ
  · rw [hbuffers v, hd, hQ.1.writer.2]
    exact ⟨hQ.1.writer.1, hQ.2⟩
  · exact absurd hstart (hnot he)

/-- A call that paints `color` into the front, which was `x`: it is still at it, or it
has come to its end and nothing writes the front any more. -/
def Overwrites (color : Color) (x : DmaBuffer) (d : State Color DmaBuffer) : Prop :=
  (Clear d ∧ d.buffers.shown = encode color) ∨
    (Writes colorEncoder d ∧ (∃ done, d.pc = .writing color d.buffers.front done) ∧
      ∀ i, d.buffers.shown i = x i ∨ d.buffers.shown i = encode color i)

theorem Overwrites.writer {color : Color} {x : DmaBuffer} {d : State Color DmaBuffer}
    (h : Overwrites color x d) : Overwrites color x (move colorEncoder d .writer) := by
  rcases h with ⟨hclear, hshown⟩ | ⟨hwrites, ⟨done, hpc⟩, hvalues⟩
  · exact Or.inl ⟨hclear.writer.1, hclear.writer.2.trans hshown⟩
  · obtain ⟨hdone, y, hy⟩ := hwrites color _ done hpc
    replace hy : d.buffers.shown = colorEncoder.partly color done y := hy
    rcases move_writer_cases colorEncoder d with ⟨hidle, -⟩ |
      ⟨a, target, n, hwriting, hmore, hbuffers, hpc', -⟩ |
      ⟨a, target, n, hwriting, hall, hbuffers, hidle, -⟩
    · exact absurd (hpc.symm.trans hidle) (Pc.writing_ne_idle _ _ _)
    · -- one more store
      obtain ⟨rfl, rfl, rfl⟩ := Pc.writing.inj (hwriting.symm.trans hpc)
      refine Or.inr ⟨hwrites.move .writer, ⟨n + 1, ?_⟩, fun i => ?_⟩
      · rw [hpc', front_move_writer]
      · have hshown : (move colorEncoder d .writer).buffers.shown =
            colorEncoder.partly a (n + 1) y := by
          rw [Buffers.shown, front_move_writer, hbuffers, colorEncoder.partly_succ, ← hy]
          exact Function.update_self _ _ _
        have hnew := storeTimings_take a y (n + 1) hmore i
        have hold := storeTimings_take a y n hdone i
        rw [hshown]
        by_cases hstored : 7 - i.val % 8 + 8 * (i.val / 8) < n + 1
        · exact Or.inr (hnew.trans (if_pos hstored))
        · rw [if_neg hstored] at hnew
          rw [if_neg (by omega)] at hold
          have hsame : colorEncoder.partly a (n + 1) y i = d.buffers.shown i := by
            rw [hy]
            exact hnew.trans hold.symm
          rw [hsame]
          exact hvalues i
    · -- the last store has been done
      obtain ⟨rfl, -, rfl⟩ := Pc.writing.inj (hwriting.symm.trans hpc)
      refine Or.inl ⟨fun _ _ _ hw => absurd (hw.symm.trans hidle) (Pc.writing_ne_idle _ _ _), ?_⟩
      obtain rfl : n = colorEncoder.stores := le_antisymm hdone hall
      rw [hbuffers]
      exact hy.trans (colorEncoder.complete a y)

/-- An event that does not start a frame. -/
theorem Overwrites.step {color : Color} {x : DmaBuffer} {e : WireEvent} (hphase : Phase s)
    (h : Overwrites color x s.double) (hnot : e = .dmaRequest → ¬ s.StartsFrame)
    (hstep : step s e = some t) : Overwrites color x t.double := by
  rcases double_of_step hphase hstep with ⟨-, pending, hd⟩ | ⟨-, hd⟩ | ⟨he, hstart, -⟩
  · rw [hd]
    exact h
  · rw [hd]
    exact h.writer
  · exact absurd hstart (hnot he)

/-- Requests alone, before the first frame: the main loop is where it was. -/
theorem run_requests_of_lt (hphase : Phase s) {n : ℕ} (hearly : s.wire.length + n < 27360) :
    ∃ t, run step s (List.replicate n .dmaRequest) = some t ∧
      t.wire.length = s.wire.length + n ∧ t.thread = s.thread := by
  induction n with
  | zero => exact ⟨s, rfl, rfl, rfl⟩
  | succ n ih =>
    obtain ⟨t, hrun, hlength, hthread⟩ := ih (by omega)
    have ht := phase_of_run hphase hrun
    have hnot : ¬ t.StartsFrame := by
      intro hstart
      obtain ⟨r, hr⟩ := ht.length_of_startsFrame hstart
      omega
    refine ⟨t.dmaRequest, ?_, ?_, ?_⟩
    · rw [List.replicate_succ', run_concat_of_run hrun]
      rfl
    · rw [length_dmaRequest, hlength, Nat.add_assoc]
    · rw [thread_dmaRequest_of_not_startsFrame ht hnot, hthread]

/-- A request is no step of the main loop. -/
theorem pc_dmaRequest (s : LedWire) :
    s.dmaRequest.pc = s.pc ∧ s.dmaRequest.completed = s.completed := by
  unfold dmaRequest
  split <;> exact ⟨rfl, rfl⟩

theorem run_requests (s : LedWire) (n : ℕ) :
    ∃ t, run step s (List.replicate n .dmaRequest) = some t ∧
      t.wire.length = s.wire.length + n ∧ t.pc = s.pc ∧ t.completed = s.completed := by
  induction n with
  | zero => exact ⟨s, rfl, rfl, rfl, rfl⟩
  | succ n ih =>
    obtain ⟨t, hrun, hlength, hpc, hcompleted⟩ := ih
    refine ⟨t.dmaRequest, ?_, ?_, t.pc_dmaRequest.1.trans hpc, t.pc_dmaRequest.2.trans hcompleted⟩
    · rw [List.replicate_succ', run_concat_of_run hrun]
      rfl
    · rw [length_dmaRequest, hlength, Nat.add_assoc]

/-- **How a frame can be torn.**  Let a request start frame `f`, at any point of any run.
If no call in progress writes the buffer that is now in front, the frame shows this
buffer.  If a call does, each value of the frame is one of the buffer as the frame found
it or one of the colour of this call; and the values that are moved after the call has
come to its end are those of the colour. -/
theorem wire_torn {pre post : List WireEvent} {f : ℕ} (hpre : run step initial pre = some s)
    (hstart : s.wire.length + 1 = 27360 + 3780 * f)
    (hrun : run step s.dmaRequest post = some t) :
    (Clear s.dmaRequest.double →
      FrameValues (fun i v => v = s.dmaRequest.shown i) f (27360 + 3780 * f) t.wire) ∧
    ∀ color done, s.dmaRequest.pc = .writing color s.dmaRequest.ws2815.selectedBuffer1 done →
      FrameValues (fun i v => v = s.dmaRequest.shown i ∨ v = encode color i) f
        (27360 + 3780 * f) t.wire ∧
      ∀ mid rest u, post = mid ++ rest → run step s.dmaRequest mid = some u → u.pc = .idle →
        FrameValues (fun i v => v = encode color i) f u.wire.length t.wire := by
  have hbegun : run step initial (pre ++ [.dmaRequest]) = some s.dmaRequest :=
    run_concat_of_run hpre
  have hphase := phase_of_run phase_initial hbegun
  have hlength : s.dmaRequest.wire.length = 27360 + 3780 * f := by
    rw [length_dmaRequest, hstart]
  rw [← hlength]
  refine ⟨fun hclear => frameValues_of_clear hphase hclear hlength.ge hrun,
    fun color done hpc => ?_⟩
  have hover : Overwrites color s.dmaRequest.shown s.dmaRequest.double :=
    Or.inr ⟨writes_of_run hbegun, ⟨done, hpc⟩, fun _ => Or.inl rfl⟩
  have hwithin : ∀ {es v}, run step s.dmaRequest es = some v →
      FrameValues (fun i v => v = s.dmaRequest.shown i ∨ v = encode color i) f
        s.dmaRequest.wire.length v.wire ∧
      (v.wire.length < 27360 + 3780 * (f + 1) →
        Overwrites color s.dmaRequest.shown v.double) := by
    intro es v hv
    refine frameValues_of_run (Q := fun u => Overwrites color s.dmaRequest.shown u.double)
      (fun u hu i => ?_) (fun u e v hu hQ hnot hstep => hQ.step hu hnot hstep) hphase hover
      hlength.ge hv
    rcases hu with ⟨-, hshown⟩ | ⟨-, -, hvalues⟩
    · exact Or.inr (congrFun hshown i)
    · exact hvalues i
  refine ⟨(hwithin hrun).1, fun mid rest u hpost hmid hidle => ?_⟩
  subst hpost
  rw [run_append_of_run hmid] at hrun
  by_cases hinside : u.wire.length < 27360 + 3780 * (f + 1)
  · rcases (hwithin hmid).2 hinside with ⟨hclear, hshown⟩ | ⟨-, ⟨done', hwriting⟩, -⟩
    · have hvalues := frameValues_of_clear (phase_of_run hphase hmid) hclear
        (hlength.ge.trans (length_le_of_run hmid)) hrun
      rwa [show u.shown = encode color from hshown] at hvalues
    · exact absurd (hwriting.symm.trans hidle) (Pc.writing_ne_idle _ _ _)
  · intro j hj hge _
    omega

/-- A fade to white in two milliseconds.  Grey is painted after the first; of the call
that paints white, nine stores are done. -/
def whiteHalfStored : List WireEvent :=
  [.fadeToColor ⟨255, 255, 255⟩ 2, .sysTick, .process] ++ List.replicate 26 .store ++
    [.sysTick, .process] ++ List.replicate 10 .store

/-- The first frame starts there, and is torn between grey and white. -/
theorem wire_torn_whiteHalfStored :
    ∃ s t, run step initial (whiteHalfStored ++ List.replicate 27359 .dmaRequest) = some s ∧
      run step s.dmaRequest (List.replicate 3780 .dmaRequest) = some t ∧
      FrameValues (fun i v => v = s.dmaRequest.shown i ∨ v = encode ⟨255, 255, 255⟩ i) 0 27360
        t.wire := by
  obtain ⟨s₀, hs₀⟩ : ∃ s₀, run step initial whiteHalfStored = some s₀ := ⟨_, rfl⟩
  have hfacts : s₀.wire = [] ∧ s₀.pc = .writing ⟨255, 255, 255⟩ false 9 ∧
      s₀.ws2815.swapBuffers.selectedBuffer1 = false := by
    obtain rfl := Option.some.inj hs₀
    exact ⟨rfl, rfl, rfl⟩
  obtain ⟨hwire, hpc, hselected⟩ := hfacts
  have hphase := phase_of_run phase_initial hs₀
  obtain ⟨s, hs, hlength, hthread⟩ := run_requests_of_lt (n := 27359) hphase
    (by rw [hwire]; decide)
  obtain ⟨t, ht, -⟩ := run_requests s.dmaRequest 3780
  have hrun : run step initial (whiteHalfStored ++ List.replicate 27359 .dmaRequest) = some s := by
    rw [run_append_of_run hs₀, hs]
  have hstart : s.wire.length + 1 = 27360 + 3780 * 0 := by
    rw [hlength, hwire]
    rfl
  have htorn : s.dmaRequest.pc =
      .writing ⟨255, 255, 255⟩ s.dmaRequest.ws2815.selectedBuffer1 9 := by
    have hpc' : s.pc = s₀.pc := congrArg LedThread.pc hthread
    have hws2815 : s.ws2815 = s₀.ws2815 := congrArg LedThread.ws2815 hthread
    rw [dmaRequest_of_startsFrame ((phase_of_run hphase hs).startsFrame hstart)]
    simp only [hpc', hws2815, hpc, hselected]
  exact ⟨s, t, hrun, ht, ((wire_torn hrun hstart ht).2 _ _ htorn).1⟩

/-! ## Settled runs -/

/-- The invariant of the double buffer, along a run in which frames start at settled
moments. -/
theorem inv_of_settled {es : List WireEvent} (hsettled : Along step Settled initial es)
    (hrun : run step initial es = some t) : Inv colorEncoder t.double := by
  have hinv : Phase t ∧ Inv colorEncoder t.double := by
    refine inv_of_run_of_along (I := fun s => Phase s ∧ Inv colorEncoder s.double)
      (fun s e u h hset hstep => ⟨h.1.step hstep, ?_⟩)
      ⟨phase_initial, LedThread.inv_initial []⟩ hsettled hrun
    rcases double_of_step h.1 hstep with ⟨-, pending, hd⟩ | ⟨-, hd⟩ | ⟨rfl, hstart, hd⟩
    · rw [hd]
      exact ⟨h.2.target, h.2.before, h.2.clean, h.2.dirty⟩
    · rw [hd]
      exact h.2.writer
    · rw [hd]
      exact h.2.reader fun _ => hset rfl hstart
  exact hinv.2

/-- A frame that starts at a settled moment is the colour of the last call completed. -/
theorem frameOn_of_settled {pre post : List WireEvent} {f : ℕ}
    (hsettled : Along step Settled initial (pre ++ .dmaRequest :: post))
    (hpre : run step initial pre = some s) (hs : s.wire.length + 1 = 27360 + 3780 * f)
    (hrun : run step s.dmaRequest post = some t)
    (hlength : 27360 + 3780 * (f + 1) ≤ t.wire.length) :
    ∃ c, s.completed = some c ∧ frameOn t.wire f = (frame (encode c)).map some := by
  have hbegun : run step initial (pre ++ [.dmaRequest]) = some s.dmaRequest :=
    run_concat_of_run hpre
  have hstart := (phase_of_run phase_initial hpre).startsFrame hs
  have hset := along_iff_forall_append.mp hsettled pre .dmaRequest post rfl s hpre rfl hstart
  obtain ⟨c, hc⟩ := Option.ne_none_iff_exists'.mp hset.1
  refine ⟨c, hc, ?_⟩
  rw [List.append_cons] at hsettled
  have hinv := inv_of_settled (along_append.mp hsettled).1 hbegun
  have hshown : s.dmaRequest.shown = encode c := by
    refine hinv.clean c ?_ ?_
    · rw [dmaRequest_of_startsFrame hstart]
      exact hc
    · rw [dmaRequest_of_startsFrame hstart]
      exact (congrArg Buffers.fresh s.ws2815.buffers_swapBuffers).trans (Buffers.fresh_take _)
  have hbegin : s.dmaRequest.wire.length = 27360 + 3780 * f := by
    rw [length_dmaRequest, hs]
  have hvalues := frameValues_of_clear (phase_of_run phase_initial hbegun)
    (fun a target done hpc => (hinv.target a target done hpc).1) hbegin.ge hrun
  rw [hshown, hbegin] at hvalues
  exact frameOn_of_frameValues hvalues hlength

/-- Between two calls every moment is settled. -/
theorem settled_requests (hpc : s.pc = .idle) (hcompleted : s.completed ≠ none) (n : ℕ) :
    Along step Settled s (List.replicate n .dmaRequest) := by
  induction n generalizing s with
  | zero => exact along_nil
  | succ n ih =>
    refine along_cons.mpr ⟨fun _ _ => ⟨hcompleted, fun hne => absurd hpc hne⟩, fun t ht => ?_⟩
    obtain rfl := Option.some.inj ht
    refine ih (s.pc_dmaRequest.1.trans hpc) ?_
    rwa [s.pc_dmaRequest.2]

/-- Without requests too. -/
theorem settled_of_forall_ne {es : List WireEvent} (h : ∀ e ∈ es, e ≠ .dmaRequest) (s : LedWire) :
    Along step Settled s es :=
  along_iff_forall_append.mpr fun _ e _ heq _ _ hrequest =>
    absurd hrequest (h e (heq ▸ List.mem_append_right _ List.mem_cons_self))

/-- A fade to white in a millisecond, with the call that paints it. -/
def whitePainted : List WireEvent :=
  [.fadeToColor ⟨255, 255, 255⟩ 1, .sysTick, .process] ++ List.replicate 26 .store

theorem settled_whitePainted (n : ℕ) :
    Along step Settled initial (whitePainted ++ List.replicate n .dmaRequest) := by
  refine along_append.mpr ⟨settled_of_forall_ne (by decide) initial, fun t ht => ?_⟩
  have hrest : t.pc = .idle ∧ t.completed ≠ none := by
    obtain rfl := Option.some.inj ht
    exact ⟨rfl, Option.some_ne_none _⟩
  exact settled_requests hrest.1 hrest.2 n

/-- **The frames on the wire.**  Let no frame of a run start before a call has been
completed, or inside a call while `new_color` is up.  Then every frame that has been sent
is one colour for all LEDs, the colour of the last call that was completed when the frame
started; whatever single steps of the main loop come between its 3780 values. -/
theorem wire_frames {es : List WireEvent} (hrun : run step initial es = some t)
    (hsettled : Along step Settled initial es) {f : ℕ}
    (hlength : 27360 + 3780 * (f + 1) ≤ t.wire.length) :
    ∃ pre post s c, es = pre ++ .dmaRequest :: post ∧ run step initial pre = some s ∧
      s.wire.length + 1 = 27360 + 3780 * f ∧ s.completed = some c ∧
      frameOn t.wire f = (frame (encode c)).map some := by
  obtain ⟨pre, post, s, rfl, hpre, hs⟩ := exists_request hrun (Nat.zero_le _)
    (show 27359 + 3780 * f < t.wire.length by omega)
  have hlength' : s.wire.length + 1 = 27360 + 3780 * f := by omega
  rw [run_append_of_run hpre, run_cons] at hrun
  obtain ⟨c, hc, hframe⟩ := frameOn_of_settled hsettled hpre hlength' hrun hlength
  exact ⟨pre, post, s, c, rfl, hpre, hlength', hc, hframe⟩

/-- The first frame after a fade to white is one colour. -/
theorem wire_frames_whitePainted :
    ∃ t c, run step initial (whitePainted ++ List.replicate 31140 .dmaRequest) = some t ∧
      frameOn t.wire 0 = (frame (encode c)).map some := by
  obtain ⟨s, hs⟩ : ∃ s, run step initial whitePainted = some s := ⟨_, rfl⟩
  obtain ⟨t, ht, hlength, -⟩ := run_requests s 31140
  have hrun : run step initial (whitePainted ++ List.replicate 31140 .dmaRequest) = some t := by
    rw [run_append_of_run hs, ht]
  obtain ⟨-, -, -, c, -, -, -, -, hframe⟩ := wire_frames hrun (settled_whitePainted 31140)
    (f := 0) (by rw [hlength]; omega)
  exact ⟨t, c, hrun, hframe⟩

end LedWire
end Stm32Adaptive
