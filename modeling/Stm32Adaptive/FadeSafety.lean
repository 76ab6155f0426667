import Stm32Adaptive.FadeEngine
import Stm32Adaptive.FadeFrame
import Stm32Adaptive.Firmware

/-!
# What a received text can do to the fade engine

The command `C_FADE_TO_COLOR` gives the results of `strtok` to `strtol` without looking
at them, and the fade time it reads to `fade_to_color`, which stores it; the next call
of `process` divides by it.  So there are two ways to an undefined operation: a text
with fewer than four tokens, and a time of zero.  The second is among the times the
source documents as allowed.

`FadeSession` remembers whether the last fade that was set up has the time zero.  That
this is so exactly as long as such a fade is in progress is the invariant
(`ZeroTimeRight`): a fade of time zero does not end by itself.  `along_fadeSafe_iff` is
the result for every run of the firmware.
-/

namespace Stm32Adaptive

open FlashMemory Runs Ws28xx Ws28xx.WS2815

/-! ## Runs with the last fade time -/

/-- The firmware, with what is to be known of the last fade. -/
structure FadeSession where
  mcu : Mcu
  /-- History: the last fade that was set up has the time zero. -/
  zeroTime : Bool

namespace FadeSession

/-- After reset. -/
def initial (flash : Memory) : FadeSession := ⟨Mcu.initial flash, false⟩

/-- The counter of `test` selects one of its fades. -/
def SelectsFade (counter : Int32) : Prop :=
  counter % 4 = 0 ∨ counter % 4 = 1 ∨ counter % 4 = 2 ∨ counter % 4 = 3

instance (counter : Int32) : Decidable (SelectsFade counter) :=
  inferInstanceAs (Decidable (_ ∨ _ ∨ _ ∨ _))

/-- A call of `handle_usart` may set a fade up: with the time of its text, or, for
`C_DEV_TEST`, with one of the times of `test`. -/
def zeroTimeAfter (s : FadeSession) : FirmwareEvent → Bool
  | .handleUsart =>
    match s.mcu.inputQueue with
    | [] => s.zeroTime
    | c :: queue =>
      if c = Mcu.cFadeToColor then
        match (Mcu.fadeLine queue).bind Mcu.parseFade with
        | none => s.zeroTime
        | some (_, fadeTime) => fadeTime = 0
      else if c = Mcu.cDevTest then
        if SelectsFade s.mcu.testCounter then false else s.zeroTime
      else s.zeroTime
  | _ => s.zeroTime

/-- One event. -/
def step (s : FadeSession) (e : FirmwareEvent) : Option FadeSession :=
  (s.mcu.step e).map fun mcu => ⟨mcu, s.zeroTimeAfter e⟩

/-- **No undefined operation**: when a fade command reads its text, no call of `strtol`
gets a null pointer, and when `process` divides, the divisor is not zero. -/
def FadeSafe (s : FadeSession) : FirmwareEvent → Prop
  | .handleUsart => ∀ queue line, s.mcu.inputQueue = Mcu.cFadeToColor :: queue →
    Mcu.fadeLine queue = some line → Mcu.parseFade line ≠ none
  | .ledProcess => s.mcu.ws2815.Fading → s.mcu.ws2815.fadeTime ≠ 0
  | _ => True

/-- A fade command finds a text of four tokens, and `process` is not called after a fade
of time zero has been set up. -/
def WellFormed (s : FadeSession) : FirmwareEvent → Prop
  | .handleUsart => ∀ queue line, s.mcu.inputQueue = Mcu.cFadeToColor :: queue →
    Mcu.fadeLine queue = some line → 4 ≤ (CString.tokens Mcu.blankChar line).length
  | .ledProcess => s.zeroTime = false
  | _ => True

/-! ## What an event does to the fade -/

/-- A fade of time zero is in progress. -/
def ZeroFade (w : WS2815) : Prop := w.Fading ∧ w.fadeTime = 0

theorem zeroFade_iff_of_sameFade {w w' : WS2815} (h : SameFade w w') :
    ZeroFade w' ↔ ZeroFade w := by
  obtain ⟨_, _, _, _, _, rfl⟩ := h
  rfl

theorem zeroFade_fadeToColor_iff (w : WS2815) (c : Color) (fadeTime : UInt32) (systick : UInt64) :
    ZeroFade (w.fadeToColor c fadeTime systick) ↔ fadeTime = 0 := by
  constructor
  · rintro ⟨-, hzero⟩
    by_contra hne
    exact toUInt64_ne_zero hne hzero
  · rintro rfl
    exact ⟨Or.inl rfl, rfl⟩

/-- The fades of `test` take time. -/
theorem zeroFade_test_iff (systick : UInt64) (counter : Int32) (w : WS2815) :
    ZeroFade (w.test systick counter).2 ↔ ¬ SelectsFade counter ∧ ZeroFade w := by
  have htime : ∀ fadeTime : UInt32, fadeTime ≠ 0 → ∀ w : WS2815,
      w.fadeTime = fadeTime.toUInt64 → ¬ ZeroFade w := fun fadeTime hne w hw hzero =>
    toUInt64_ne_zero hne (hw.symm.trans hzero.2)
  unfold test SelectsFade
  simp only
  split_ifs with h0 h1 h2 h3
  · exact iff_of_false (htime 500 (by decide) _ rfl) fun h => h.1 (Or.inl h0)
  · exact iff_of_false (htime 1000 (by decide) _ rfl) fun h => h.1 (Or.inr (Or.inl h1))
  · exact iff_of_false (htime 1000 (by decide) _ rfl) fun h => h.1 (Or.inr (Or.inr (Or.inl h2)))
  · exact iff_of_false (htime 1000 (by decide) _ rfl) fun h => h.1 (Or.inr (Or.inr (Or.inr h3)))
  · simp [h0, h1, h2, h3]

variable {s t : FadeSession} {e : FirmwareEvent}

/-- **The invariant**: the last fade that was set up has the time zero exactly as long as
a fade of time zero is in progress. -/
def ZeroTimeRight (s : FadeSession) : Prop := s.zeroTime = true ↔ ZeroFade s.mcu.ws2815

theorem zeroTimeRight_initial (flash : Memory) : ZeroTimeRight (initial flash) :=
  iff_of_false Bool.false_ne_true fun h => absurd h.1 (show ¬ WS2815.initial.Fading by decide)

/-- The other commands leave the fade alone. -/
theorem zeroTimeAfter_of_ne {c : UInt8} {queue : List UInt8}
    (hqueue : s.mcu.inputQueue = c :: queue) (hfade : c ≠ Mcu.cFadeToColor)
    (hdev : c ≠ Mcu.cDevTest) :
    s.zeroTimeAfter .handleUsart = s.zeroTime := by
  simp only [zeroTimeAfter, hqueue, if_neg hfade, if_neg hdev]

/-- **Commands keep the invariant.** -/
theorem ZeroTimeRight.handleUsart (h : ZeroTimeRight s) {mcu : Mcu}
    (hcall : s.mcu.handleUsart = some mcu) :
    ZeroTimeRight ⟨mcu, s.zeroTimeAfter .handleUsart⟩ := by
  rcases Mcu.handleUsart_cases hcall with ⟨hqueue, rfl⟩ | ⟨c, queue, hqueue, hcommand⟩
  · have hsame : s.zeroTimeAfter .handleUsart = s.zeroTime := by
      simp only [zeroTimeAfter, hqueue]
    rw [hsame]
    exact h
  have hother : c ≠ Mcu.cFadeToColor → c ≠ Mcu.cDevTest → mcu.ws2815 = s.mcu.ws2815 →
      ZeroTimeRight ⟨mcu, s.zeroTimeAfter .handleUsart⟩ := by
    intro hfade hdev hws
    rw [ZeroTimeRight, zeroTimeAfter_of_ne hqueue hfade hdev, hws]
    exact h
  rcases hcommand with ⟨rfl, _, _, _, -, rfl⟩ | ⟨rfl, rfl⟩ | ⟨rfl, rfl⟩ | ⟨rfl, rfl⟩ |
    ⟨rfl, _, _, -, rfl⟩ | ⟨rfl, line, color, fadeTime, rest, hline, hparse, rfl⟩ | ⟨hnone, rfl⟩
  · exact hother (by decide) (by decide) rfl
  · exact hother (by decide) (by decide) rfl
  · exact hother (by decide) (by decide) rfl
  · have hafter : s.zeroTimeAfter .handleUsart =
        if SelectsFade s.mcu.testCounter then false else s.zeroTime := by
      simp only [zeroTimeAfter, hqueue]
      rfl
    have htest := zeroFade_test_iff s.mcu.systick s.mcu.testCounter s.mcu.ws2815
    rw [ZeroTimeRight, hafter]
    refine Iff.trans ?_ htest.symm
    by_cases hselects : SelectsFade s.mcu.testCounter
    · simp [hselects]
    · rw [if_neg hselects]
      exact h.trans (and_iff_right hselects).symm
  · exact hother (by decide) (by decide) rfl
  · have hafter : s.zeroTimeAfter .handleUsart = decide (fadeTime = 0) := by
      simp only [zeroTimeAfter, hqueue, if_true, hline, Option.bind_some, hparse]
    rw [ZeroTimeRight, hafter, decide_eq_true_iff]
    exact (zeroFade_fadeToColor_iff s.mcu.ws2815 color fadeTime s.mcu.systick).symm
  · simp only [List.mem_cons, not_or] at hnone
    exact hother hnone.2.2.2.2.2.1 hnone.2.2.2.1 rfl

/-- A call of `process` neither begins nor ends a fade of time zero, if it does not find
one. -/
theorem not_zeroFade_process {w w' : WS2815} {systick : UInt64} (h : ¬ ZeroFade w)
    (hw : w.process systick = some w') : ¬ ZeroFade w' := by
  rcases process_cases hw with ⟨-, rfl⟩ | ⟨-, -, rfl⟩ | ⟨hcmd, -, rfl⟩ | ⟨-, -, rfl⟩
  · exact h
  · exact fun hzero => absurd hzero.1 (by simp [Fading])
  · intro hzero
    refine h ⟨Or.inr hcmd, ?_⟩
    rw [← hzero.2, nextLeg_eq]
  · exact mt (zeroFade_iff_of_sameFade (sameFade_setDmaTimingsForColor _ w)).mp h

/-- **Every event keeps the invariant**, if `process` is not called on a fade of time
zero. -/
theorem ZeroTimeRight.step (h : ZeroTimeRight s) (hwell : WellFormed s e)
    (hstep : step s e = some t) : ZeroTimeRight t := by
  obtain ⟨mcu, hmcu, rfl⟩ := Option.map_eq_some_iff.mp hstep
  cases e with
  | receive | clock =>
    obtain rfl := Option.some.inj hmcu
    exact h
  | capture tim3 =>
    obtain rfl := Option.some.inj hmcu
    split <;> exact h
  | frameStart =>
    obtain rfl := Option.some.inj hmcu
    have hsame := zeroFade_iff_of_sameFade (sameFade_swapBuffers s.mcu.ws2815)
    exact h.trans hsame.symm
  | ledProcess =>
    obtain ⟨w, hw, rfl⟩ := Option.map_eq_some_iff.mp hmcu
    have hno : ¬ ZeroFade s.mcu.ws2815 := fun hzero =>
      absurd (hwell.symm.trans (h.mpr hzero)) Bool.false_ne_true
    exact iff_of_false (fun hzero => absurd (hwell.symm.trans hzero) Bool.false_ne_true)
      (not_zeroFade_process hno hw)
  | handleUsart => exact h.handleUsart hmcu
  | processSignals =>
    obtain ⟨r, -, rfl⟩ := Option.map_eq_some_iff.mp hmcu
    exact h

theorem ZeroTimeRight.fadeSafe_iff (h : ZeroTimeRight s) (e : FirmwareEvent) :
    FadeSafe s e ↔ WellFormed s e := by
  cases e with
  | handleUsart =>
    exact forall₄_congr fun queue line _ _ => Mcu.parseFade_ne_none_iff line
  | ledProcess =>
    have hzero : ¬ ZeroFade s.mcu.ws2815 ↔ s.zeroTime = false := by
      rw [← Bool.not_eq_true]
      exact (not_congr h).symm
    exact not_and.symm.trans hzero
  | receive | clock | capture | frameStart | processSignals => exact Iff.rfl

/-- **The fade engine and the received text.**  In any run of the firmware no operation of
the fade is undefined if and only if every fade command finds a text of at least four
tokens and `process` is never called while the last fade that was set up has the time
zero. -/
theorem along_fadeSafe_iff (flash : Memory) (es : List FirmwareEvent) :
    Along step FadeSafe (initial flash) es ↔ Along step WellFormed (initial flash) es :=
  along_iff_along (I := ZeroTimeRight) (χ := fun _ _ => True) (fun _ e h _ => h.fadeSafe_iff e)
    (fun _ _ _ h _ hwell hstep => h.step hwell hstep) (zeroTimeRight_initial flash) along_true

/-- The fade command has been received. -/
def received (frame : List UInt8) : List FirmwareEvent := frame.map .receive

/-- The documented command with the time 00000. -/
def zeroTimeFrame : List UInt8 := Mcu.fadeFrame (fun _ => (true, true)) ⟨255, 255, 255⟩ 0

/-- A command whose text is a single token. -/
def oneTokenFrame : List UInt8 := Mcu.cFadeToColor :: List.replicate 20 120

theorem run_zeroTimeFrame :
    (run step (initial Flash.blank) (received zeroTimeFrame ++ [.handleUsart])).map
      (fun s => (decide s.mcu.ws2815.Fading, s.mcu.ws2815.fadeTime)) = some (true, 0) := by decide

theorem run_oneTokenFrame :
    (run step (initial Flash.blank) (received oneTokenFrame)).map (fun s => s.mcu.inputQueue) =
      some oneTokenFrame := by decide

/-- **A documented time divides by zero, and a text of one token is a null pointer.** -/
theorem not_fadeSafe_zeroTimeFrame :
    ¬ Along step FadeSafe (initial Flash.blank)
      (received zeroTimeFrame ++ [.handleUsart] ++ [.ledProcess]) ∧
    ¬ Along step FadeSafe (initial Flash.blank) (received oneTokenFrame ++ [.handleUsart]) := by
  constructor
  · intro h
    obtain ⟨s, hrun, hs⟩ := Option.map_eq_some_iff.mp run_zeroTimeFrame
    obtain ⟨hfading, hzero⟩ := Prod.mk.inj hs
    exact along_iff_forall_append.mp h _ .ledProcess [] rfl s hrun (of_decide_eq_true hfading) hzero
  · intro h
    obtain ⟨s, hrun, hqueue⟩ := Option.map_eq_some_iff.mp run_oneTokenFrame
    have hline : (Mcu.fadeLine (List.replicate 20 120)).map Mcu.parseFade = some none := by decide
    obtain ⟨line, hread, hparse⟩ := Option.map_eq_some_iff.mp hline
    exact along_iff_forall_append.mp h _ .handleUsart [] rfl s hrun _ line hqueue hread hparse

end FadeSession
end Stm32Adaptive
