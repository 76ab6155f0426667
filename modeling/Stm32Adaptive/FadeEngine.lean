import Stm32Adaptive.Library.Interpolation
import Stm32Adaptive.Ws28xx

/-!
# One call of the fade engine

What `process` of the LED strip can do, said once (`WS2815.process_cases`): nothing,
if no fade is in progress; paint the colour the clock asks for, if the progress is
at most 1024; and otherwise end the fade, or go on to the next leg, without
painting.

The colour that is painted is an interpolation in each channel.  The narrowing to a
byte loses nothing (`toNat_lerpColor`), so a painted colour goes from the start to
the target with the progress (`toward_lerpColor`), and it is the target exactly if
what is left rounds away (`lerpColor_eq_target_iff`).
-/

namespace Stm32Adaptive

open DoubleBuffer Interpolation

namespace Ws28xx

/-! ## Colours between two colours -/

theorem lerp_eq_interpolate (start target percent : ℤ) :
    lerp start target percent = interpolate 10 start target percent := rfl

/-- An interpolation between bytes is a byte. -/
theorem toNat_ofInt_lerp (s t : UInt8) {p : ℤ} (hp : 0 ≤ p) (hp' : p ≤ 1024) :
    ((UInt8.ofInt (lerp s.toNat t.toNat p)).toNat : ℤ) =
      interpolate 10 (s.toNat : ℤ) (t.toNat : ℤ) p := by
  have hs := s.toNat_lt
  have ht := t.toNat_lt
  have hrange : 0 ≤ interpolate 10 (s.toNat : ℤ) (t.toNat : ℤ) p ∧
      interpolate 10 (s.toNat : ℤ) (t.toNat : ℤ) p < 256 := by
    rcases toward_interpolate 10 (s.toNat : ℤ) (t.toNat : ℤ) hp le_rfl hp' with h | h <;> omega
  rw [lerp_eq_interpolate, UInt8.ofInt, UInt8.toNat_ofNat']
  omega

theorem ofInt_lerp_zero (s t : UInt8) : UInt8.ofInt (lerp s.toNat t.toNat 0) = s := by
  have h := toNat_ofInt_lerp s t le_rfl (by decide)
  rw [interpolate_zero, Int.natCast_inj] at h
  exact UInt8.toNat_inj.mp h

theorem ofInt_lerp_1024 (s t : UInt8) : UInt8.ofInt (lerp s.toNat t.toNat 1024) = t := by
  have h := toNat_ofInt_lerp s t (p := 2 ^ 10) (by decide) le_rfl
  rw [interpolate_two_pow, Int.natCast_inj] at h
  exact UInt8.toNat_inj.mp h

@[simp] theorem lerpColor_zero (a b : Color) : lerpColor a b 0 = a :=
  Color.ext (ofInt_lerp_zero _ _) (ofInt_lerp_zero _ _) (ofInt_lerp_zero _ _)

@[simp] theorem lerpColor_1024 (a b : Color) : lerpColor a b 1024 = b :=
  Color.ext (ofInt_lerp_1024 _ _) (ofInt_lerp_1024 _ _) (ofInt_lerp_1024 _ _)

/-- In every channel, on the way from one colour to another one meets `u` and then `v`. -/
def TowardColor (start target u v : Color) : Prop :=
  Toward start.r target.r u.r v.r ∧ Toward start.g target.g u.g v.g ∧
    Toward start.b target.b u.b v.b

theorem toward_ofInt_lerp (s t : UInt8) {p q : ℤ} (hp : 0 ≤ p) (hpq : p ≤ q) (hq : q ≤ 1024) :
    Toward s t (UInt8.ofInt (lerp s.toNat t.toNat p)) (UInt8.ofInt (lerp s.toNat t.toNat q)) := by
  have hreflect : ∀ {a b : UInt8}, (a.toNat : ℤ) ≤ (b.toNat : ℤ) → a ≤ b := fun h =>
    UInt8.le_iff_toNat_le.mpr (Int.ofNat_le.mp h)
  refine Toward.of_map (f := fun c : UInt8 => (c.toNat : ℤ)) hreflect ?_
  simp only [toNat_ofInt_lerp s t hp (hpq.trans hq), toNat_ofInt_lerp s t (hp.trans hpq) hq]
  exact toward_interpolate 10 _ _ hp hpq hq

/-- **With the progress the colour goes from the start to the target.** -/
theorem toward_lerpColor (a b : Color) {p q : ℤ} (hp : 0 ≤ p) (hpq : p ≤ q) (hq : q ≤ 1024) :
    TowardColor a b (lerpColor a b p) (lerpColor a b q) :=
  ⟨toward_ofInt_lerp _ _ hp hpq hq, toward_ofInt_lerp _ _ hp hpq hq,
    toward_ofInt_lerp _ _ hp hpq hq⟩

/-- What is left of a channel at a progress of `p` rounds away: it is not negative,
so the channel does not rise, and it is less than one unit. -/
def RoundsAway (s t : UInt8) (p : ℕ) : Prop :=
  0 ≤ ((s.toNat : ℤ) - t.toNat) * (1024 - p) ∧ ((s.toNat : ℤ) - t.toNat) * (1024 - p) < 1024

theorem ofInt_lerp_eq_target_iff (s t : UInt8) {p : ℕ} (hp : p ≤ 1024) :
    UInt8.ofInt (lerp s.toNat t.toNat p) = t ↔ RoundsAway s t p := by
  have hvalue := toNat_ofInt_lerp s t (Int.natCast_nonneg p) (Int.ofNat_le.mpr hp)
  rw [← UInt8.toNat_inj, ← Int.natCast_inj, hvalue]
  exact interpolate_eq_target_iff

/-- What is left rounds away in every channel. -/
def ColorRoundsAway (a b : Color) (p : ℕ) : Prop :=
  RoundsAway a.r b.r p ∧ RoundsAway a.g b.g p ∧ RoundsAway a.b b.b p

/-- **When a painted colour is the target.** -/
theorem lerpColor_eq_target_iff (a b : Color) {p : ℕ} (hp : p ≤ 1024) :
    lerpColor a b p = b ↔ ColorRoundsAway a b p := by
  rw [Color.ext_iff]
  exact and_congr (ofInt_lerp_eq_target_iff _ _ hp)
    (and_congr (ofInt_lerp_eq_target_iff _ _ hp) (ofInt_lerp_eq_target_iff _ _ hp))

/-! ## What `process` can do -/

theorem toUInt64_ne_zero {n : UInt32} (h : n ≠ 0) : n.toUInt64 ≠ 0 := by
  intro hzero
  refine h (UInt32.toNat_inj.mp ?_)
  rw [← UInt32.toNat_toUInt64, hzero]
  rfl

namespace WS2815

/-- A fade is in progress. -/
def Fading (w : WS2815) : Prop := w.currentCmd = .fadeToColor ∨ w.currentCmd = .fadeBetweenColors

instance (w : WS2815) : Decidable w.Fading := inferInstanceAs (Decidable (_ ∨ _))

/-- The progress of a fade at a clock value, 1024 standing for the whole of it. -/
def percent (w : WS2815) (systick : UInt64) : UInt64 :=
  ((systick - w.commandStartSystick) <<< 10) / w.fadeTime

/-- The colour a fade shows at a progress. -/
def colorAt (w : WS2815) (p : ℤ) : Color := lerpColor w.fadeStartColor w.fadeTargetColor p

variable {w w' : WS2815} {systick : UInt64}

theorem process_of_not_fading (h : ¬ w.Fading) (systick : UInt64) :
    w.process systick = some w := by
  unfold process
  cases hcmd : w.currentCmd with
  | idle | toColor => rfl
  | fadeToColor => exact absurd (Or.inl hcmd) h
  | fadeBetweenColors => exact absurd (Or.inr hcmd) h

/-- The branches of a call while a fade is in progress. -/
theorem process_of_fading (h : w.Fading) (systick : UInt64) :
    w.process systick =
      if w.fadeTime = 0 then none
      else if 1025 ≤ w.percent systick then
        if w.currentCmd = .fadeBetweenColors then some (w.nextLeg systick)
        else some { w with currentCmd := .idle }
      else some (w.setDmaTimingsForColor (w.colorAt (w.percent systick).toNat)) := by
  unfold process
  rcases h with hcmd | hcmd <;> rw [hcmd] <;> rfl

/-- The call divides by the fade time. -/
theorem process_eq_none_iff : w.process systick = none ↔ w.Fading ∧ w.fadeTime = 0 := by
  by_cases h : w.Fading
  · rw [process_of_fading h]
    by_cases hzero : w.fadeTime = 0
    · simp [h, hzero]
    · rw [if_neg hzero]
      refine iff_of_false ?_ fun hand => hzero hand.2
      split_ifs <;> simp
  · rw [process_of_not_fading h]
    exact iff_of_false (Option.some_ne_none w) fun hand => h hand.1

theorem exists_process (h : w.fadeTime ≠ 0) (systick : UInt64) :
    ∃ w', w.process systick = some w' :=
  Option.ne_none_iff_exists'.mp fun hnone => h (process_eq_none_iff.mp hnone).2

/-- The two branches for the next leg, as one state. -/
theorem nextLeg_eq (w : WS2815) (systick : UInt64) :
    w.nextLeg systick = { w with
      commandStartSystick := systick
      fadeStartColor := if w.currentColorA then w.fadeBetweenColorA else w.fadeBetweenColorB
      fadeTargetColor := if w.currentColorA then w.fadeBetweenColorB else w.fadeBetweenColorA
      currentColorA := !w.currentColorA } := by
  unfold nextLeg
  cases w.currentColorA <;> rfl

/-- **What one call does**: nothing, end a fade, begin a leg, or paint. -/
theorem process_cases (h : w.process systick = some w') :
    (¬ w.Fading ∧ w' = w) ∨
    (w.currentCmd = .fadeToColor ∧ 1025 ≤ w.percent systick ∧
      w' = { w with currentCmd := .idle }) ∨
    (w.currentCmd = .fadeBetweenColors ∧ 1025 ≤ w.percent systick ∧ w' = w.nextLeg systick) ∨
    (w.Fading ∧ (w.percent systick).toNat ≤ 1024 ∧
      w' = w.setDmaTimingsForColor (w.colorAt (w.percent systick).toNat)) := by
  by_cases hfading : w.Fading
  · rw [process_of_fading hfading] at h
    split_ifs at h with hzero hdone hcmd
    · exact Or.inr (Or.inr (Or.inl ⟨hcmd, hdone, (Option.some.inj h).symm⟩))
    · refine Or.inr (Or.inl ⟨?_, hdone, (Option.some.inj h).symm⟩)
      exact hfading.resolve_right hcmd
    · refine Or.inr (Or.inr (Or.inr ⟨hfading, ?_, (Option.some.inj h).symm⟩))
      rw [UInt64.le_iff_toNat_le] at hdone
      exact Nat.le_of_lt_succ (not_le.mp hdone)
  · rw [process_of_not_fading hfading] at h
    exact Or.inl ⟨hfading, (Option.some.inj h).symm⟩

/-! ## What belongs to the display -/

/-- The two states differ in what is displayed and in the buffers, and not in the fade. -/
def SameFade (w w' : WS2815) : Prop :=
  ∃ color fresh selected buffer1 buffer2, w' =
    { w with
      currentColorAllLeds := color
      newColor := fresh
      selectedBuffer1 := selected
      dmaBuffer1 := buffer1
      dmaBuffer2 := buffer2 }

theorem SameFade.fading_iff (h : SameFade w w') : w'.Fading ↔ w.Fading := by
  obtain ⟨_, _, _, _, _, rfl⟩ := h
  rfl

theorem SameFade.colorAt_eq (h : SameFade w w') : w'.colorAt = w.colorAt := by
  obtain ⟨_, _, _, _, _, rfl⟩ := h
  rfl

theorem SameFade.percent_eq (h : SameFade w w') : w'.percent = w.percent := by
  obtain ⟨_, _, _, _, _, rfl⟩ := h
  rfl

theorem sameFade_setDmaTimingsForColor (color : Color) (w : WS2815) :
    SameFade w (w.setDmaTimingsForColor color) := by
  unfold setDmaTimingsForColor setDmaBuffer target
  cases w.selectedBuffer1 <;> exact ⟨_, _, _, _, _, rfl⟩

theorem sameFade_swapBuffers (w : WS2815) : SameFade w w.swapBuffers := by
  unfold swapBuffers
  split <;> exact ⟨_, _, _, _, _, rfl⟩

theorem currentColorAllLeds_setDmaTimingsForColor (color : Color) (w : WS2815) :
    (w.setDmaTimingsForColor color).currentColorAllLeds = color := by
  unfold setDmaTimingsForColor setDmaBuffer target
  cases w.selectedBuffer1 <;> rfl

theorem currentColorAllLeds_swapBuffers (w : WS2815) :
    w.swapBuffers.currentColorAllLeds = w.currentColorAllLeds := by
  unfold swapBuffers
  split <;> rfl

end WS2815
end Ws28xx
end Stm32Adaptive
