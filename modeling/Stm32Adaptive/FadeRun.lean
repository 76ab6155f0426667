import Mathlib.Data.List.Chain
import Stm32Adaptive.FadeEngine
import Stm32Adaptive.Library.Runs

/-!
# Runs of the fade engine

Commands set a fade up, calls of `process` carry it on, and frames start in
between.  A fade between two colours is a sequence of legs, but the code keeps only
the leg in progress, spread over a flag, four colours and a clock value, and the
first leg is set up by the command while all others are set up by `process`.

`FadeHistory` keeps the legs themselves: each is read off the fields
(`WS2815.leg`) when it begins.  The invariant is `Alternates`: the targets are the
two colours in turn, each leg begins where the one before it was going, and the
fields are those of the last leg.  `fade_alternates` is the result for every run.
-/

namespace Stm32Adaptive

open Runs Ws28xx Ws28xx.WS2815

/-! ## Legs -/

/-- A fade to one colour, or a leg of a fade between two. -/
structure Leg where
  start : Color
  target : Color
  /-- The clock value it counts from. -/
  origin : UInt64
  /-- History: the clock at the call that began it. -/
  began : UInt64
  deriving DecidableEq

/-- The leg in progress, read off the fields. -/
def Ws28xx.WS2815.leg (w : WS2815) (began : UInt64) : Leg :=
  ⟨w.fadeStartColor, w.fadeTargetColor, w.commandStartSystick, began⟩

/-- What happens to the fade engine, with the clock when it reads it. -/
inductive FadeEvent where
  | fadeBetweenColors (a b : Color) (fadeTime : UInt32) (systick : UInt64)
  | fadeToColor (c : Color) (fadeTime : UInt32) (systick : UInt64)
  | toColor (c : Color)
  | process (systick : UInt64)
  | frameStart

/-- A fade takes at least a millisecond. -/
def FadeEvent.TakesTime : FadeEvent → Prop
  | .fadeBetweenColors _ _ fadeTime _ | .fadeToColor _ fadeTime _ => fadeTime ≠ 0
  | .toColor _ | .process _ | .frameStart => True

/-- The fade engine with its past. -/
structure FadeHistory where
  ws2815 : WS2815
  /-- History: the colours of the last call of `fade_between_colors`. -/
  between : Option (Color × Color)
  /-- History: the colour displayed when it was called. -/
  displayed : Color
  /-- History: the legs since then. -/
  legs : List Leg
  /-- History: the clock at the last call of `process` in the fade or leg in
  progress. -/
  lastCall : Option UInt64
  /-- History: some colour has been encoded. -/
  painted : Bool

/-- A call of `process` ends a fade to a colour, or goes on to another leg. -/
def Completes (w w' : WS2815) : Prop :=
  (w.currentCmd = .fadeToColor ∧ w'.currentCmd = .idle) ∨
    (w.currentCmd = .fadeBetweenColors ∧ w'.currentColorA ≠ w.currentColorA)

instance (w w' : WS2815) : Decidable (Completes w w') := inferInstanceAs (Decidable (_ ∨ _))

namespace FadeHistory

/-- After reset. -/
def initial : FadeHistory := ⟨WS2815.initial, none, ⟨0, 0, 0⟩, [], none, false⟩

/-- The history after a call of `process` that has left `w`. -/
def afterProcess (systick : UInt64) (s : FadeHistory) (w : WS2815) : FadeHistory :=
  if Completes s.ws2815 w then
    { s with
      ws2815 := w
      legs := if s.ws2815.currentCmd = .fadeBetweenColors then s.legs ++ [w.leg systick]
        else s.legs
      lastCall := none }
  else if s.ws2815.Fading then { s with ws2815 := w, lastCall := some systick, painted := true }
  else { s with ws2815 := w }

/-- One event. -/
def step (s : FadeHistory) : FadeEvent → Option FadeHistory
  | .fadeBetweenColors a b fadeTime systick =>
    let w := s.ws2815.fadeBetweenColors a b fadeTime systick
    some { s with
      ws2815 := w
      between := some (a, b)
      displayed := s.ws2815.currentColorAllLeds
      legs := [w.leg systick]
      lastCall := none }
  | .fadeToColor c fadeTime systick =>
    some { s with ws2815 := s.ws2815.fadeToColor c fadeTime systick, lastCall := none }
  | .toColor c => some { s with ws2815 := s.ws2815.toColor c, painted := true }
  | .process systick => (s.ws2815.process systick).map fun w => s.afterProcess systick w
  | .frameStart => some { s with ws2815 := s.ws2815.getDmaPointer.2 }

variable {s t : FadeHistory} {systick : UInt64}

/-! ## What a call of `process` adds to the history -/

theorem completes_idle {w : WS2815} (h : w.currentCmd = .fadeToColor) :
    Completes w { w with currentCmd := .idle } := Or.inl ⟨h, rfl⟩

theorem completes_nextLeg {w : WS2815} (h : w.currentCmd = .fadeBetweenColors)
    (systick : UInt64) : Completes w (w.nextLeg systick) := by
  rw [nextLeg_eq]
  exact Or.inr ⟨h, Bool.not_ne_self _⟩

theorem not_completes_of_not_fading {w : WS2815} (h : ¬ w.Fading) : ¬ Completes w w := by
  rintro (⟨hcmd, -⟩ | ⟨-, hturn⟩)
  · exact h (Or.inl hcmd)
  · exact hturn rfl

/-- Painting completes nothing. -/
theorem not_completes_setDmaTimingsForColor {w : WS2815} (color : Color) :
    ¬ Completes w (w.setDmaTimingsForColor color) := by
  obtain ⟨_, _, _, _, _, hw⟩ := sameFade_setDmaTimingsForColor color w
  rw [hw]
  rintro (⟨hcmd, hidle⟩ | ⟨-, hturn⟩)
  · exact absurd (hcmd.symm.trans hidle) (by decide)
  · exact hturn rfl

/-- The four things a call can do, with their history. -/
theorem step_process_cases (h : s.step (.process systick) = some t) :
    (¬ s.ws2815.Fading ∧ t = s) ∨
    (s.ws2815.currentCmd = .fadeToColor ∧ 1025 ≤ s.ws2815.percent systick ∧
      t = { s with ws2815 := { s.ws2815 with currentCmd := .idle }, lastCall := none }) ∨
    (s.ws2815.currentCmd = .fadeBetweenColors ∧ 1025 ≤ s.ws2815.percent systick ∧
      t = { s with
        ws2815 := s.ws2815.nextLeg systick
        legs := s.legs ++ [(s.ws2815.nextLeg systick).leg systick]
        lastCall := none }) ∨
    (s.ws2815.Fading ∧ (s.ws2815.percent systick).toNat ≤ 1024 ∧
      t = { s with
        ws2815 := s.ws2815.setDmaTimingsForColor
          (s.ws2815.colorAt (s.ws2815.percent systick).toNat)
        lastCall := some systick
        painted := true }) := by
  obtain ⟨w, hw, rfl⟩ := Option.map_eq_some_iff.mp h
  rcases process_cases hw with ⟨hfading, rfl⟩ | ⟨hcmd, hdone, rfl⟩ | ⟨hcmd, hdone, rfl⟩ |
    ⟨hfading, hle, rfl⟩
  · rw [afterProcess, if_neg (not_completes_of_not_fading hfading), if_neg hfading]
    exact Or.inl ⟨hfading, rfl⟩
  · rw [afterProcess, if_pos (completes_idle hcmd), if_neg (by rw [hcmd]; decide)]
    exact Or.inr (Or.inl ⟨hcmd, hdone, rfl⟩)
  · rw [afterProcess, if_pos (completes_nextLeg hcmd systick), if_pos hcmd]
    exact Or.inr (Or.inr (Or.inl ⟨hcmd, hdone, rfl⟩))
  · rw [afterProcess, if_neg (not_completes_setDmaTimingsForColor _), if_pos hfading]
    exact Or.inr (Or.inr (Or.inr ⟨hfading, hle, rfl⟩))

/-! ## Alternation -/

/-- **The fade between `a` and `b` alternates.**  The stored colours and the target
are those of the command; the targets of the legs are the two colours in turn, and
the flag says whose turn it is; the first leg starts from what was displayed, each
other one from the target of the leg before it; each counts from the call that began
it; and the fields are those of the last one. -/
structure Alternates (s : FadeHistory) (a b : Color) : Prop where
  between : s.between = some (a, b)
  colorA : s.ws2815.fadeBetweenColorA = a
  colorB : s.ws2815.fadeBetweenColorB = b
  target : s.ws2815.fadeTargetColor = if s.ws2815.currentColorA then a else b
  targets : s.legs.map Leg.target =
    (List.range s.legs.length).map fun i => if i % 2 = 0 then a else b
  turn : s.ws2815.currentColorA = decide (s.legs.length % 2 = 1)
  first : s.legs.head?.map Leg.start = some s.displayed
  chain : s.legs.IsChain fun leg next => next.start = leg.target
  origin : ∀ leg ∈ s.legs, leg.origin = leg.began
  last : ∃ leg, s.legs.getLast? = some leg ∧ leg = s.ws2815.leg leg.began

variable {a b : Color}

/-- The command begins the first leg. -/
theorem alternates_fadeBetweenColors (s : FadeHistory) (a b : Color) (fadeTime : UInt32)
    (systick : UInt64) {lastCall : Option UInt64} {painted : Bool} :
    Alternates ⟨s.ws2815.fadeBetweenColors a b fadeTime systick, some (a, b),
      s.ws2815.currentColorAllLeds,
      [(s.ws2815.fadeBetweenColors a b fadeTime systick).leg systick], lastCall, painted⟩ a b where
  between := rfl
  colorA := rfl
  colorB := rfl
  target := rfl
  targets := rfl
  turn := rfl
  first := rfl
  chain := List.isChain_singleton _
  origin := List.forall_mem_singleton.mpr rfl
  last := ⟨_, rfl, rfl⟩

/-- The display has no part in it. -/
theorem Alternates.display (h : Alternates s a b) {w : WS2815} (hw : SameFade s.ws2815 w)
    {lastCall : Option UInt64} {painted : Bool} :
    Alternates ⟨w, s.between, s.displayed, s.legs, lastCall, painted⟩ a b := by
  obtain ⟨_, _, _, _, _, rfl⟩ := hw
  exact ⟨h.between, h.colorA, h.colorB, h.target, h.targets, h.turn, h.first, h.chain, h.origin,
    h.last⟩

/-- The leg after the one in progress. -/
theorem leg_nextLeg (h : Alternates s a b) (systick : UInt64) :
    (s.ws2815.nextLeg systick).leg systick = ⟨s.ws2815.fadeTargetColor,
      if s.ws2815.currentColorA then b else a, systick, systick⟩ := by
  rw [h.target, ← h.colorA, ← h.colorB, nextLeg_eq]
  rfl

/-- **The next leg keeps the alternation.** -/
theorem Alternates.nextLeg (h : Alternates s a b) (systick : UInt64) {lastCall : Option UInt64}
    {painted : Bool} :
    Alternates ⟨s.ws2815.nextLeg systick, s.between, s.displayed,
      s.legs ++ [(s.ws2815.nextLeg systick).leg systick], lastCall, painted⟩ a b := by
  obtain ⟨leg, hlast, hleg⟩ := h.last
  have hnext := leg_nextLeg h systick
  have htarget := congrArg Leg.target hnext
  have hturn : (s.ws2815.nextLeg systick).currentColorA = !s.ws2815.currentColorA := by
    rw [nextLeg_eq]
  refine ⟨h.between, ?_, ?_, ?_, ?_, ?_, ?_, ?_, ?_, ?_⟩
  · rw [nextLeg_eq]
    exact h.colorA
  · rw [nextLeg_eq]
    exact h.colorB
  · refine htarget.trans ?_
    rw [hturn]
    cases s.ws2815.currentColorA <;> rfl
  · rw [List.map_append, h.targets, List.length_append, List.length_singleton, List.range_succ,
      List.map_append, List.map_singleton, List.map_singleton, htarget, h.turn]
    refine congrArg (fun c => _ ++ [c]) ?_
    rcases Nat.mod_two_eq_zero_or_one s.legs.length with heven | hodd
    · simp [heven]
    · simp [hodd]
  · rw [hturn, h.turn, List.length_append, List.length_singleton]
    rcases Nat.mod_two_eq_zero_or_one s.legs.length with heven | hodd
    · simp [Nat.add_mod, heven]
    · simp [Nat.add_mod, hodd]
  · have hne : s.legs ≠ [] := by
      rintro hnil
      rw [hnil] at hlast
      exact absurd hlast (by simp)
    rw [List.head?_append_of_ne_nil _ hne]
    exact h.first
  · refine h.chain.append (List.isChain_singleton _) ?_
    intro x hx y hy
    obtain rfl := Option.some.inj (hlast.symm.trans hx)
    obtain rfl := Option.some.inj hy
    rw [hnext, hleg]
    rfl
  · intro x hx
    rcases List.mem_append.mp hx with hx | hx
    · exact h.origin x hx
    · rw [List.mem_singleton.mp hx, hnext]
  · refine ⟨_, List.getLast?_concat, ?_⟩
    rw [hnext]
    exact hnext.symm

/-- What holds in every reachable state: a fade takes time, and a fade between two
colours alternates. -/
structure Steady (s : FadeHistory) : Prop where
  fadeTime : s.ws2815.fadeTime ≠ 0
  alternates : s.ws2815.currentCmd = .fadeBetweenColors → ∃ a b, s.Alternates a b

theorem steady_initial : Steady initial := ⟨by decide, fun h => absurd h (by decide)⟩

theorem Steady.display (h : Steady s) {w : WS2815} (hw : SameFade s.ws2815 w)
    {lastCall : Option UInt64} {painted : Bool} :
    Steady ⟨w, s.between, s.displayed, s.legs, lastCall, painted⟩ := by
  obtain ⟨_, _, _, _, _, heq⟩ := id hw
  refine ⟨by rw [heq]; exact h.fadeTime, fun hcmd => ?_⟩
  obtain ⟨a, b, hab⟩ := h.alternates (by rw [heq] at hcmd; exact hcmd)
  exact ⟨a, b, hab.display hw⟩

/-- **Every event is possible and keeps the invariant.** -/
theorem Steady.exists_step (h : Steady s) {e : FadeEvent} (he : e.TakesTime) :
    ∃ t, step s e = some t ∧ Steady t := by
  cases e with
  | fadeBetweenColors a b fadeTime systick =>
    exact ⟨_, rfl, toUInt64_ne_zero he, fun _ => ⟨a, b, s.alternates_fadeBetweenColors a b _ _⟩⟩
  | fadeToColor c fadeTime systick =>
    exact ⟨_, rfl, toUInt64_ne_zero he, fun hcmd => absurd hcmd (by simp [WS2815.fadeToColor])⟩
  | toColor c =>
    have hpaint : Steady ⟨s.ws2815.setDmaTimingsForColor c, s.between, s.displayed, s.legs,
        s.lastCall, true⟩ := h.display (sameFade_setDmaTimingsForColor c s.ws2815)
    exact ⟨_, rfl, hpaint.fadeTime, fun hcmd => absurd hcmd (by simp [WS2815.toColor])⟩
  | frameStart => exact ⟨_, rfl, h.display (sameFade_swapBuffers s.ws2815)⟩
  | process systick =>
    obtain ⟨w, hw⟩ := exists_process h.fadeTime systick
    have hstep : step s (.process systick) = some (s.afterProcess systick w) := by
      rw [step, hw, Option.map_some]
    refine ⟨_, hstep, ?_⟩
    rcases step_process_cases hstep with ⟨-, heq⟩ | ⟨-, -, heq⟩ | ⟨hcmd, -, heq⟩ | ⟨-, -, heq⟩
    · rw [heq]
      exact h
    · rw [heq]
      exact ⟨h.fadeTime, fun hcmd => absurd hcmd (by simp)⟩
    · rw [heq]
      obtain ⟨a, b, hab⟩ := h.alternates hcmd
      refine ⟨?_, fun _ => ⟨a, b, hab.nextLeg systick⟩⟩
      rw [nextLeg_eq]
      exact h.fadeTime
    · rw [heq]
      exact h.display (sameFade_setDmaTimingsForColor _ _)

/-- After a call of `process` the leg in progress is the same, or it is the next. -/
def SameOrNextLeg (a b : Color) (systick : UInt64) (w w' : WS2815) : Prop :=
  (w'.leg = w.leg ∧ w'.currentColorA = w.currentColorA) ∨
    (w'.leg systick = ⟨w.fadeTargetColor, if w.currentColorA then b else a, systick, systick⟩ ∧
      w'.currentColorA = !w.currentColorA)

theorem Alternates.sameOrNextLeg (h : Alternates s a b) {w : WS2815}
    (hw : s.ws2815.process systick = some w) : SameOrNextLeg a b systick s.ws2815 w := by
  rcases process_cases hw with ⟨-, rfl⟩ | ⟨-, -, rfl⟩ | ⟨-, -, rfl⟩ | ⟨-, -, rfl⟩
  · exact Or.inl ⟨rfl, rfl⟩
  · exact Or.inl ⟨rfl, rfl⟩
  · exact Or.inr ⟨leg_nextLeg h systick, by rw [nextLeg_eq]⟩
  · obtain ⟨_, _, _, _, _, heq⟩ := sameFade_setDmaTimingsForColor
      (s.ws2815.colorAt (s.ws2815.percent systick).toNat) s.ws2815
    rw [heq]
    exact Or.inl ⟨rfl, rfl⟩

/-- **Fades between two colours alternate.**  Every run whose fades take time exists,
and whenever it has led to a fade between two colours, the target is one of the two,
as the flag says; the legs since the command alternate; and a call of `process`
advances by one leg at most, however late it comes. -/
theorem fade_alternates (es : List FadeEvent) (htime : ∀ e ∈ es, e.TakesTime) :
    ∃ s, run step initial es = some s ∧ (s.ws2815.currentCmd = .fadeBetweenColors →
      ∃ a b, s.Alternates a b ∧ ∀ systick, ∃ w, s.ws2815.process systick = some w ∧
        SameOrNextLeg a b systick s.ws2815 w) := by
  obtain ⟨s, hrun, hs⟩ := exists_run_of_forall_mem (Q := FadeEvent.TakesTime)
    (fun s e h he => h.exists_step he) steady_initial htime
  refine ⟨s, hrun, fun hcmd => ?_⟩
  obtain ⟨a, b, hab⟩ := hs.alternates hcmd
  refine ⟨a, b, hab, fun systick => ?_⟩
  obtain ⟨w, hw⟩ := exists_process hs.fadeTime systick
  exact ⟨w, hw, hab.sameOrNextLeg hw⟩

/-- Blue, then red and green with one late call for each leg. -/
def lateCalls : List FadeEvent :=
  [.toColor ⟨0, 0, 255⟩, .fadeBetweenColors ⟨255, 0, 0⟩ ⟨0, 255, 0⟩ 500 0, .process 9000,
    .frameStart, .process 20000]

/-- Three legs have begun. -/
theorem fade_alternates_lateCalls :
    ∃ s, run step initial lateCalls = some s ∧ ∃ a b, s.Alternates a b ∧ s.legs.length = 3 := by
  obtain ⟨s, hrun, hs⟩ := fade_alternates lateCalls (by simp [lateCalls, FadeEvent.TakesTime])
  have hend : (run step initial lateCalls).map (fun s => (s.ws2815.currentCmd, s.legs.length)) =
      some (.fadeBetweenColors, 3) := by decide
  rw [hrun, Option.map_some, Option.some.injEq, Prod.mk.injEq] at hend
  obtain ⟨a, b, hab, -⟩ := hs hend.1
  exact ⟨s, hrun, a, b, hab, hend.2⟩

end FadeHistory
end Stm32Adaptive
