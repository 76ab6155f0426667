import Stm32Adaptive.FadeRun

/-!
# Where a fade ends

`process` paints while the progress is at most 1024, and from 1025 on it ends the
fade without painting.  So the colour a fade ends with is the one painted at the last
call before, and this is the target only if what was left then rounds away: at a
progress of 1024 exactly, or a little earlier in channels that fall.  With a fade
time of a second there is one clock value in a thousand at which 1024 is the
progress.

Between two calls the colour is determined (`OnCourse`), as long as every leg has
arrived at its target; a leg that has not leaves the next one starting from a colour
that is not displayed.  `along_endsOnTarget_iff` is the result for every run.
-/

namespace Stm32Adaptive

open DoubleBuffer Runs Ws28xx Ws28xx.WS2815

namespace FadeHistory

/-- **The fade in progress ends on its target**: at the call that ends it the colour
is the target, and so are the timing values encoded last, if there are any. -/
def EndsOnTarget (s : FadeHistory) (e : FadeEvent) : Prop :=
  ∀ systick t, e = .process systick → step s e = some t → Completes s.ws2815 t.ws2815 →
    t.ws2815.currentColorAllLeds = s.ws2815.fadeTargetColor ∧
      (t.painted = true → t.ws2815.buffers.Holds (some (encode s.ws2815.fadeTargetColor)))

/-- The progress at the last call of `process` in the fade or leg in progress, and zero
if there has been none. -/
def progress (s : FadeHistory) : ℕ :=
  match s.lastCall with
  | none => 0
  | some systick => (s.ws2815.percent systick).toNat

/-- At a call that comes too late to paint, what was left at the call before rounds
away in every channel. -/
def Arrived (s : FadeHistory) (e : FadeEvent) : Prop :=
  ∀ systick, e = .process systick → s.ws2815.Fading → 1025 ≤ s.ws2815.percent systick →
    ColorRoundsAway s.ws2815.fadeStartColor s.ws2815.fadeTargetColor s.progress

/-! ## Between two calls -/

/-- **The invariant.**  The colour is the one the last call asked for, the timing values
encoded last are those of the colour, and the target of a fade between two colours is
the one whose turn it is. -/
structure OnCourse (s : FadeHistory) : Prop where
  progress_le : s.progress ≤ 1024
  color : s.ws2815.Fading → s.ws2815.currentColorAllLeds = s.ws2815.colorAt s.progress
  holds : s.painted = true → s.ws2815.buffers.Holds (some (encode s.ws2815.currentColorAllLeds))
  target : s.ws2815.currentCmd = .fadeBetweenColors → s.ws2815.fadeTargetColor =
    if s.ws2815.currentColorA then s.ws2815.fadeBetweenColorA else s.ws2815.fadeBetweenColorB

variable {s t : FadeHistory} {systick : UInt64}

theorem onCourse_initial : OnCourse initial where
  progress_le := Nat.zero_le _
  color h := absurd h (by decide)
  holds h := absurd h (by decide)
  target h := absurd h (by decide)

/-- What a fade shows before any call is its start. -/
theorem colorAt_zero (w : WS2815) : w.colorAt (0 : ℕ) = w.fadeStartColor := lerpColor_zero _ _

/-- While the invariant holds, a fade has arrived exactly if its colour is the target. -/
theorem OnCourse.color_eq_target_iff (h : OnCourse s) (hfading : s.ws2815.Fading) :
    s.ws2815.currentColorAllLeds = s.ws2815.fadeTargetColor ↔
      ColorRoundsAway s.ws2815.fadeStartColor s.ws2815.fadeTargetColor s.progress := by
  rw [h.color hfading]
  exact lerpColor_eq_target_iff _ _ h.progress_le

/-- A call that ends a fade changes neither the colour nor the buffers. -/
theorem step_process_of_late (hfading : s.ws2815.Fading) (hlate : 1025 ≤ s.ws2815.percent systick)
    (h : step s (.process systick) = some t) :
    Completes s.ws2815 t.ws2815 ∧
      t.ws2815.currentColorAllLeds = s.ws2815.currentColorAllLeds ∧
      t.ws2815.buffers = s.ws2815.buffers ∧ t.painted = s.painted := by
  rcases step_process_cases h with ⟨hno, -⟩ | ⟨hcmd, -, rfl⟩ | ⟨hcmd, -, rfl⟩ | ⟨-, hle, -⟩
  · exact absurd hfading hno
  · exact ⟨completes_idle hcmd, rfl, rfl, rfl⟩
  · have hdone := completes_nextLeg hcmd systick
    rw [nextLeg_eq] at hdone ⊢
    exact ⟨hdone, rfl, rfl, rfl⟩
  · rw [UInt64.le_iff_toNat_le] at hlate
    exact absurd (hlate.trans hle) (by decide)

/-- Only a call that is too late completes anything. -/
theorem late_of_completes (h : step s (.process systick) = some t)
    (hdone : Completes s.ws2815 t.ws2815) :
    s.ws2815.Fading ∧ 1025 ≤ s.ws2815.percent systick := by
  rcases step_process_cases h with ⟨hno, rfl⟩ | ⟨hcmd, hlate, -⟩ | ⟨hcmd, hlate, -⟩ | ⟨-, -, rfl⟩
  · exact absurd hdone (not_completes_of_not_fading hno)
  · exact ⟨Or.inl hcmd, hlate⟩
  · exact ⟨Or.inr hcmd, hlate⟩
  · exact absurd hdone (not_completes_setDmaTimingsForColor _)

/-- **Where the invariant holds, a fade ends on its target exactly if it has arrived.** -/
theorem OnCourse.endsOnTarget_iff (h : OnCourse s) (e : FadeEvent) :
    EndsOnTarget s e ↔ Arrived s e := by
  constructor
  · rintro hends systick rfl hfading hlate
    have hzero : s.ws2815.fadeTime ≠ 0 := by
      intro hzero
      rw [percent, hzero, UInt64.div_zero] at hlate
      exact absurd hlate (by decide)
    obtain ⟨w, hw⟩ := exists_process hzero systick
    have hstep : step s (.process systick) = some (s.afterProcess systick w) := by
      rw [step, hw, Option.map_some]
    obtain ⟨hdone, hcolor, -, -⟩ := step_process_of_late hfading hlate hstep
    rw [← h.color_eq_target_iff hfading, ← hcolor]
    exact (hends systick _ rfl hstep hdone).1
  · rintro harrived systick t rfl hstep hdone
    obtain ⟨hfading, hlate⟩ := late_of_completes hstep hdone
    obtain ⟨-, hcolor, hbuffers, hpainted⟩ := step_process_of_late hfading hlate hstep
    have htarget := (h.color_eq_target_iff hfading).mpr (harrived systick rfl hfading hlate)
    refine ⟨hcolor.trans htarget, fun hp => ?_⟩
    rw [hbuffers, ← htarget]
    exact h.holds (hpainted.symm.trans hp)

/-! ## What every event preserves -/

theorem progress_eq_of_sameFade (hw : SameFade s.ws2815 t.ws2815)
    (hlast : t.lastCall = s.lastCall) : t.progress = s.progress := by
  rw [progress, progress, hlast, hw.percent_eq]

/-- What concerns the display keeps the invariant if the colour is that of the progress. -/
theorem OnCourse.of_sameFade (h : OnCourse s) (hw : SameFade s.ws2815 t.ws2815)
    (hle : t.progress ≤ 1024)
    (hcolor : s.ws2815.Fading → t.ws2815.currentColorAllLeds = s.ws2815.colorAt t.progress)
    (hholds : t.painted = true →
      t.ws2815.buffers.Holds (some (encode t.ws2815.currentColorAllLeds))) : OnCourse t := by
  refine ⟨hle, fun hfading => ?_, hholds, ?_⟩
  · rw [hw.colorAt_eq]
    exact hcolor (hw.fading_iff.mp hfading)
  · obtain ⟨_, _, _, _, _, heq⟩ := hw
    rw [heq]
    exact h.target

/-- The next leg starts from the target of the leg in progress. -/
theorem fadeStartColor_nextLeg (h : OnCourse s) (hcmd : s.ws2815.currentCmd = .fadeBetweenColors)
    (systick : UInt64) : (s.ws2815.nextLeg systick).fadeStartColor = s.ws2815.fadeTargetColor := by
  rw [h.target hcmd, nextLeg_eq]

theorem target_nextLeg (w : WS2815) (systick : UInt64) :
    (w.nextLeg systick).fadeTargetColor = if (w.nextLeg systick).currentColorA then
      (w.nextLeg systick).fadeBetweenColorA else (w.nextLeg systick).fadeBetweenColorB := by
  rw [nextLeg_eq]
  cases w.currentColorA <;> rfl

/-- A call of `process` keeps the invariant, if no leg ends short of its target. -/
theorem OnCourse.process (h : OnCourse s) (harrived : Arrived s (.process systick))
    (hstep : step s (.process systick) = some t) : OnCourse t := by
  rcases step_process_cases hstep with ⟨-, rfl⟩ | ⟨-, -, rfl⟩ | ⟨hcmd, hlate, rfl⟩ | ⟨-, hle, rfl⟩
  · exact h
  · exact ⟨Nat.zero_le _, fun hfading => absurd hfading (by simp [Fading]), h.holds,
      fun hcmd => absurd hcmd (by simp)⟩
  · have hfading : s.ws2815.Fading := Or.inr hcmd
    obtain ⟨-, hcolor, hbuffers, -⟩ := step_process_of_late hfading hlate hstep
    refine ⟨Nat.zero_le _, fun _ => ?_, fun hp => ?_, fun _ => target_nextLeg _ _⟩
    · refine Eq.trans ?_ (colorAt_zero _).symm
      rw [fadeStartColor_nextLeg h hcmd]
      exact hcolor.trans ((h.color_eq_target_iff hfading).mpr (harrived systick rfl hfading hlate))
    · rw [hbuffers, hcolor]
      exact h.holds hp
  · have hsame := sameFade_setDmaTimingsForColor
      (s.ws2815.colorAt (s.ws2815.percent systick).toNat) s.ws2815
    have hnow := currentColorAllLeds_setDmaTimingsForColor
      (s.ws2815.colorAt (s.ws2815.percent systick).toNat) s.ws2815
    refine h.of_sameFade hsame ?_ (fun _ => ?_) (fun _ => ?_)
    · simp only [progress, hsame.percent_eq]
      exact hle
    · simp only [progress, hsame.percent_eq]
      exact hnow
    · simp only [hnow, buffers_setDmaTimingsForColor]
      exact Buffers.holds_publish _ _

/-- The reader's operation moves the timing values with the colour. -/
theorem OnCourse.frameStart (h : OnCourse s) :
    OnCourse { s with ws2815 := s.ws2815.swapBuffers } := by
  have hsame := sameFade_swapBuffers s.ws2815
  have hnow := currentColorAllLeds_swapBuffers s.ws2815
  have hprogress : progress { s with ws2815 := s.ws2815.swapBuffers } = s.progress :=
    progress_eq_of_sameFade hsame rfl
  refine h.of_sameFade hsame (hprogress.trans_le h.progress_le) (fun hfading => ?_) fun hp => ?_
  · rw [hprogress]
    exact hnow.trans (h.color hfading)
  · simp only [buffers_swapBuffers, hnow]
    exact (h.holds hp).take

theorem percent_toColor (c : Color) (w : WS2815) : (w.toColor c).percent = w.percent :=
  (sameFade_setDmaTimingsForColor c w).percent_eq

theorem buffers_toColor (c : Color) (w : WS2815) :
    (w.toColor c).buffers = w.buffers.publish (encode c) :=
  buffers_setDmaTimingsForColor c w

theorem currentColorAllLeds_toColor (c : Color) (w : WS2815) :
    (w.toColor c).currentColorAllLeds = c := currentColorAllLeds_setDmaTimingsForColor c w

/-- **Every event keeps the invariant**, if no leg ends short of its target. -/
theorem OnCourse.step (h : OnCourse s) {e : FadeEvent} (harrived : Arrived s e)
    (hstep : s.step e = some t) : OnCourse t := by
  cases e with
  | process systick => exact h.process harrived hstep
  | fadeBetweenColors a b fadeTime systick =>
    obtain rfl := Option.some.inj hstep
    exact ⟨Nat.zero_le _, fun _ => (colorAt_zero (s.ws2815.fadeBetweenColors a b _ _)).symm,
      h.holds, fun _ => rfl⟩
  | fadeToColor c fadeTime systick =>
    obtain rfl := Option.some.inj hstep
    exact ⟨Nat.zero_le _, fun _ => (colorAt_zero (s.ws2815.fadeToColor c _ _)).symm, h.holds,
      fun hcmd => absurd hcmd (by simp [WS2815.fadeToColor])⟩
  | toColor c =>
    obtain rfl := Option.some.inj hstep
    refine ⟨?_, fun hfading => absurd hfading (by simp [Fading, WS2815.toColor]), fun _ => ?_,
      fun hcmd => absurd hcmd (by simp [WS2815.toColor])⟩
    · simp only [progress, percent_toColor]
      exact h.progress_le
    · simp only [buffers_toColor, currentColorAllLeds_toColor]
      exact Buffers.holds_publish _ _
  | frameStart =>
    obtain rfl := Option.some.inj hstep
    exact h.frameStart

/-- **Where fades end.**  In any run, every fade and every leg ends on its target if and
only if each has arrived there, up to rounding, at the last call of `process` that still
paints. -/
theorem along_endsOnTarget_iff (es : List FadeEvent) :
    Along step EndsOnTarget initial es ↔ Along step Arrived initial es :=
  along_iff_along (I := OnCourse) (χ := fun _ _ => True) (fun _ e h _ => h.endsOnTarget_iff e)
    (fun _ _ _ h _ harrived hstep => h.step harrived hstep) onCourse_initial along_true

/-- Black to white in a second, with a call a millisecond before the end and one a
millisecond after it. -/
def whiteFade : List FadeEvent :=
  [.fadeToColor ⟨255, 255, 255⟩ 1000 0, .process 0, .process 999, .process 1001]

/-- The colour at the call that ends the fade, and the target. -/
theorem run_whiteFade :
    ((run step initial (whiteFade.take 3)).bind fun s => (step s (.process 1001)).map fun t =>
      (decide (Completes s.ws2815 t.ws2815), t.ws2815.currentColorAllLeds,
        s.ws2815.fadeTargetColor)) = some (true, ⟨254, 254, 254⟩, ⟨255, 255, 255⟩) := by decide

/-- **The last unit is missing.**  The fade to white ends one short of white. -/
theorem not_endsOnTarget_whiteFade : ¬ Along step EndsOnTarget initial whiteFade := by
  intro h
  obtain ⟨s, hs, hlast⟩ := Option.bind_eq_some_iff.mp run_whiteFade
  obtain ⟨t, ht, heq⟩ := Option.map_eq_some_iff.mp hlast
  rw [Prod.mk.injEq, Prod.mk.injEq, decide_eq_true_iff] at heq
  obtain ⟨hdone, hcolor, htarget⟩ := heq
  have hends := along_iff_forall_append.mp h (whiteFade.take 3) (.process 1001) [] rfl s hs
  have hwhite := (hends 1001 t rfl ht hdone).1
  rw [hcolor, htarget] at hwhite
  exact absurd hwhite (by decide)

end FadeHistory
end Stm32Adaptive
