import Stm32Adaptive.FadeEngine
import Stm32Adaptive.Library.Runs

/-!
# A fade is a ramp

The progress of a fade is a number of parts of 1024, computed from the elapsed time
with one shift and one division of 64-bit values.  As long as the shift loses nothing
it is monotone in the clock (`toNat_percent`, `parts_mono`), and the colour is monotone
in the progress.  So along calls of `process` at later and later times the colour goes
from the one displayed at the command towards the target, and once the fade has ended
it stays (`Ramp`, `fadeToColor_ramp`).

That the fade gets to the target is not part of this: it does if a call comes when the
progress is 1024, for example exactly after the fade time.
-/

namespace Stm32Adaptive

open Interpolation Runs

namespace Ws28xx
namespace WS2815

/-- The progress at the clock value `t`, for a fade from `origin` on. -/
def parts (origin : UInt64) (fadeTime : UInt32) (t : UInt64) : ℕ :=
  (t.toNat - origin.toNat) * 1024 / fadeTime.toNat

variable {origin now t : UInt64} {fadeTime : UInt32}

theorem parts_mono (h : now ≤ t) : parts origin fadeTime now ≤ parts origin fadeTime t := by
  have hnat := UInt64.le_iff_toNat_le.mp h
  exact Nat.div_le_div_right (Nat.mul_le_mul_right 1024 (Nat.sub_le_sub_right hnat _))

theorem parts_fadeTime (h : fadeTime ≠ 0) (ht : t.toNat = origin.toNat + fadeTime.toNat) :
    parts origin fadeTime t = 1024 := by
  have hpos : 0 < fadeTime.toNat := by
    refine Nat.pos_of_ne_zero fun hzero => h (UInt32.toNat_inj.mp ?_)
    rw [hzero]
    rfl
  rw [parts, ht, Nat.add_sub_cancel_left, Nat.mul_div_cancel_left _ hpos]

/-- The shift loses nothing for 2 ^ 54 milliseconds. -/
theorem toNat_percent {w : WS2815} (horigin : w.commandStartSystick = origin)
    (htime : w.fadeTime = fadeTime.toUInt64) (hle : origin ≤ t)
    (helapsed : t.toNat - origin.toNat < 2 ^ 54) :
    (w.percent t).toNat = parts origin fadeTime t := by
  have hsub := UInt64.toNat_sub_of_le _ _ hle
  have hshift : (t.toNat - origin.toNat) <<< 10 = (t.toNat - origin.toNat) * 1024 := by
    rw [Nat.shiftLeft_eq]
  rw [percent, horigin, htime, UInt64.toNat_div, UInt64.toNat_shiftLeft, hsub,
    UInt32.toNat_toUInt64, show (10 : UInt64).toNat % 64 = 10 from rfl, hshift, parts,
    Nat.mod_eq_of_lt (by omega)]

/-! ## The ramp -/

/-- **The invariant of a fade**, after a call at `now`: its fields are those of the
command, the colour is that of some progress `p` the clock has reached, and the fade is
over only if the clock is past the end. -/
structure Ramp (start target : Color) (fadeTime : UInt32) (origin now : UInt64) (p : ℕ)
    (w : WS2815) : Prop where
  start_eq : w.fadeStartColor = start
  target_eq : w.fadeTargetColor = target
  origin_eq : w.commandStartSystick = origin
  time_eq : w.fadeTime = fadeTime.toUInt64
  color_eq : w.currentColorAllLeds = lerpColor start target p
  le_1024 : p ≤ 1024
  le_parts : p ≤ parts origin fadeTime now
  running : w.currentCmd = .fadeToColor ∨
    (w.currentCmd = .idle ∧ 1025 ≤ parts origin fadeTime now)

variable {start target : Color} {p : ℕ} {w : WS2815}

/-- The command begins a ramp at the colour displayed. -/
theorem ramp_fadeToColor (w : WS2815) (c : Color) (fadeTime : UInt32) (origin : UInt64) :
    Ramp w.currentColorAllLeds c fadeTime origin origin 0 (w.fadeToColor c fadeTime origin) where
  start_eq := rfl
  target_eq := rfl
  origin_eq := rfl
  time_eq := rfl
  color_eq := (lerpColor_zero _ _).symm
  le_1024 := Nat.zero_le _
  le_parts := Nat.zero_le _
  running := Or.inl rfl

/-- **One call.**  The colour stays that of a progress which does not decrease; it is
the progress of the clock if this is at most 1024; and a fade that is over changes
nothing. -/
theorem Ramp.process (h : Ramp start target fadeTime origin now p w) (hT : fadeTime ≠ 0)
    (hnow : now ≤ t) (hle : origin ≤ t) (helapsed : t.toNat - origin.toNat < 2 ^ 54) :
    ∃ q w', w.process t = some w' ∧ Ramp start target fadeTime origin t q w' ∧ p ≤ q ∧
      (parts origin fadeTime t ≤ 1024 → q = parts origin fadeTime t) ∧
      (w.currentCmd = .idle → w' = w) := by
  have hmono : parts origin fadeTime now ≤ parts origin fadeTime t := parts_mono hnow
  have hpercent := toNat_percent h.origin_eq h.time_eq hle helapsed
  have hreached := h.le_parts.trans hmono
  rcases h.running with hcmd | ⟨hcmd, hover⟩
  · have hzero : w.fadeTime ≠ 0 := by
      rw [h.time_eq]
      exact toUInt64_ne_zero hT
    have hbetween : w.currentCmd ≠ .fadeBetweenColors := by
      rw [hcmd]
      decide
    have hlate : 1025 ≤ w.percent t ↔ 1025 ≤ parts origin fadeTime t := by
      rw [UInt64.le_iff_toNat_le, hpercent]
      rfl
    have hrun := process_of_fading (Or.inl hcmd) t
    rw [if_neg hzero, if_neg hbetween, hpercent] at hrun
    by_cases hend : 1025 ≤ parts origin fadeTime t
    · -- the fade is over, and nothing is painted
      refine ⟨p, _, hrun.trans (if_pos (hlate.mpr hend)), ?_, le_rfl, fun hle => ?_,
        fun hidle => ?_⟩
      · exact ⟨h.start_eq, h.target_eq, h.origin_eq, h.time_eq, h.color_eq, h.le_1024, hreached,
          Or.inr ⟨rfl, hend⟩⟩
      · omega
      · exact absurd (hcmd.symm.trans hidle) (by decide)
    · refine ⟨parts origin fadeTime t, _, hrun.trans (if_neg (mt hlate.mp hend)), ?_, hreached,
        fun _ => rfl, fun hidle => absurd (hcmd.symm.trans hidle) (by decide)⟩
      have hnow := currentColorAllLeds_setDmaTimingsForColor
        (w.colorAt (parts origin fadeTime t)) w
      obtain ⟨_, _, _, _, _, hsame⟩ := sameFade_setDmaTimingsForColor
        (w.colorAt (parts origin fadeTime t)) w
      have hcolor : w.colorAt (parts origin fadeTime t) =
          lerpColor start target (parts origin fadeTime t) := by
        rw [colorAt, h.start_eq, h.target_eq]
      rw [hcolor] at hnow hsame ⊢
      refine ⟨?_, ?_, ?_, ?_, hnow, by omega, le_rfl, Or.inl ?_⟩ <;> rw [hsame]
      · exact h.start_eq
      · exact h.target_eq
      · exact h.origin_eq
      · exact h.time_eq
      · exact hcmd
  · have hfading : ¬ w.Fading := by
      rw [Fading, hcmd]
      decide
    have hover' := hover.trans hmono
    refine ⟨p, w, process_of_not_fading hfading t, ?_, le_rfl, fun hle => ?_, fun _ => rfl⟩
    · exact ⟨h.start_eq, h.target_eq, h.origin_eq, h.time_eq, h.color_eq, h.le_1024, hreached,
        Or.inr ⟨hcmd, hover'⟩⟩
    · omega

/-! ## Runs -/

/-- Calls of `process` at some clock values. -/
def processAt (w : WS2815) (clocks : List UInt64) : Option WS2815 :=
  run (fun w systick => w.process systick) w clocks

/-- **A run of calls**: the progress does not decrease, and a fade that is over changes
nothing. -/
theorem Ramp.processAt (h : Ramp start target fadeTime origin now p w) (hT : fadeTime ≠ 0)
    (hle : origin ≤ now) {clocks : List UInt64} (hsorted : (now :: clocks).Pairwise (· ≤ ·))
    (helapsed : ∀ t ∈ clocks, t.toNat - origin.toNat < 2 ^ 54) :
    ∃ q w', w.processAt clocks = some w' ∧
      Ramp start target fadeTime origin ((now :: clocks).getLast (List.cons_ne_nil _ _)) q w' ∧
      p ≤ q ∧ (w.currentCmd = .idle → w' = w) := by
  induction clocks generalizing now p w with
  | nil => exact ⟨p, w, rfl, h, le_rfl, fun _ => rfl⟩
  | cons t clocks ih =>
    rw [List.pairwise_cons] at hsorted
    rw [List.forall_mem_cons] at helapsed
    have hnow := hsorted.1 t List.mem_cons_self
    have hle' : origin ≤ t := UInt64.le_trans hle hnow
    obtain ⟨q, u, hu, hramp, hpq, -, hidle⟩ := h.process hT hnow hle' helapsed.1
    obtain ⟨r, v, hv, hend, hqr, hstay⟩ := ih hramp hle' hsorted.2 helapsed.2
    refine ⟨r, v, (run_cons_of_step hu).trans hv, ?_, hpq.trans hqr, fun hcmd => ?_⟩
    · rw [List.getLast_cons (List.cons_ne_nil _ _)]
      exact hend
    · obtain rfl := hidle hcmd
      exact hstay hcmd

/-- A single call at a progress of at most 1024 shows the colour of this progress. -/
theorem Ramp.processAt_singleton (h : Ramp start target fadeTime origin now p w)
    (hT : fadeTime ≠ 0) (hnow : now ≤ t) (hle : origin ≤ t)
    (helapsed : t.toNat - origin.toNat < 2 ^ 54) (hparts : parts origin fadeTime t ≤ 1024)
    {v : WS2815} (hv : w.processAt [t] = some v) :
    v.currentColorAllLeds = lerpColor start target (parts origin fadeTime t) := by
  obtain ⟨q, v', hv', hramp, -, hq, -⟩ := h.process hT hnow hle helapsed
  obtain rfl := Option.some.inj ((run_cons_of_step hv').symm.trans hv)
  rw [hramp.color_eq, hq hparts]

/-- **A fade is a ramp.**  Let `process` be called at later and later times after
`fade_to_color`, first at those of `pre` and then at those of `mid`.  In every channel
the colour after `pre` and the colour after `pre` and `mid` lie in this order on the way
from the colour displayed at the command to the target; and if the fade is over after
`pre`, it does not change any more.  A last call at the time of the command leaves the
displayed colour, and a last call exactly after the fade time shows the target. -/
theorem fadeToColor_ramp (w : WS2815) (c : Color) {fadeTime : UInt32} (hT : 1 ≤ fadeTime.toNat)
    (origin : UInt64) (pre mid : List UInt64)
    (hsorted : (origin :: (pre ++ mid)).Pairwise (· ≤ ·))
    (helapsed : ∀ t ∈ pre ++ mid, t.toNat - origin.toNat < 2 ^ 54) :
    ∃ u v, (w.fadeToColor c fadeTime origin).processAt pre = some u ∧
      u.processAt mid = some v ∧
      TowardColor w.currentColorAllLeds c u.currentColorAllLeds v.currentColorAllLeds ∧
      (u.currentCmd = .idle → v.currentColorAllLeds = u.currentColorAllLeds) ∧
      (mid = [origin] → v.currentColorAllLeds = w.currentColorAllLeds) ∧
      (∀ t, mid = [t] → t.toNat = origin.toNat + fadeTime.toNat →
        v.currentColorAllLeds = c) := by
  have hne : fadeTime ≠ 0 := by
    rintro rfl
    exact absurd hT (by decide)
  rw [← List.cons_append] at hsorted
  obtain ⟨hpre, hmid, hacross⟩ := List.pairwise_append.mp hsorted
  obtain ⟨p, u, hu, hramp, -, -⟩ := (ramp_fadeToColor w c fadeTime origin).processAt hne
    UInt64.le_rfl hpre fun t ht => helapsed t (List.mem_append_left mid ht)
  have hlast := List.getLast_mem (List.cons_ne_nil origin pre)
  have horigin : origin ≤ (origin :: pre).getLast (List.cons_ne_nil _ _) := by
    rcases List.mem_cons.mp hlast with heq | hmem
    · rw [heq]
      exact UInt64.le_rfl
    · exact List.rel_of_pairwise_cons hpre hmem
  obtain ⟨q, v, hv, hend, hpq, hstay⟩ := hramp.processAt hne horigin
    (List.pairwise_cons.mpr ⟨fun t ht => hacross _ hlast t ht, hmid⟩)
    fun t ht => helapsed t (List.mem_append_right pre ht)
  refine ⟨u, v, hu, hv, ?_, fun hidle => by rw [hstay hidle], fun hone => ?_, fun t hone ht => ?_⟩
  · rw [hramp.color_eq, hend.color_eq]
    exact toward_lerpColor _ _ (Int.natCast_nonneg p) (Int.ofNat_le.mpr hpq)
      (Int.ofNat_le.mpr hend.le_1024)
  · subst hone
    have hmem := List.mem_singleton_self origin
    have hzero : parts origin fadeTime origin = 0 := by
      rw [parts, Nat.sub_self, Nat.zero_mul, Nat.zero_div]
    rw [hramp.processAt_singleton hne (hacross _ hlast _ hmem) UInt64.le_rfl
      (helapsed _ (List.mem_append_right pre hmem)) (by omega) hv, hzero]
    exact lerpColor_zero _ _
  · subst hone
    have hmem := List.mem_singleton_self t
    have hall := parts_fadeTime hne ht
    have hle := hacross _ List.mem_cons_self _ hmem
    rw [hramp.processAt_singleton hne (hacross _ hlast _ hmem) hle
      (helapsed _ (List.mem_append_right pre hmem)) hall.le hv, hall]
    exact lerpColor_1024 _ _

/-- A fade of a second from black to white, with a call at its end. -/
theorem fadeToColor_ramp_white :
    ∃ u v, (initial.fadeToColor ⟨255, 255, 255⟩ 1000 0).processAt [0, 400] = some u ∧
      u.processAt [1000] = some v ∧ v.currentColorAllLeds = ⟨255, 255, 255⟩ := by
  obtain ⟨u, v, hu, hv, -, -, -, hwhite⟩ := fadeToColor_ramp initial ⟨255, 255, 255⟩
    (show 1 ≤ (1000 : UInt32).toNat by decide) 0 [0, 400] [1000] (by decide) (by simp)
  exact ⟨u, v, hu, hv, hwhite 1000 rfl (by decide)⟩

end WS2815
end Ws28xx
end Stm32Adaptive
