import Mathlib.Data.Fin.VecNotation
import Stm32Adaptive.Firmware

/-!
# Who turns the capture on and off

The user does, with the commands `C_START` and `C_HALT`; but two operations turn
the capture interrupt off for as long as they work.  `send_434` turns it on again
when it is done, whether or not it was on before.  `process_signals` does so too
if no pattern matches, and does not turn it on again at all if one does.

`enabled_eq_wanted_iff` says exactly when the interrupt follows the commands all
the same: each test signal finds it enabled, each match finds it disabled, and
each miss finds it enabled.
-/

namespace Stm32Adaptive

open FlashMemory Flash Ic Runs

/-- The firmware, with what the user has asked for last. -/
structure Session where
  mcu : Mcu
  /-- History: the last of `C_START` and `C_HALT` that was executed was `C_START`. -/
  wanted : Bool

namespace Session

/-- After reset. -/
def initial (flash : Memory) : Session := ⟨Mcu.initial flash, false⟩

/-- What the user has asked for after an event: a call of `handle_usart` may execute
one of the two commands. -/
def wantedAfter (s : Session) : FirmwareEvent → Bool
  | .handleUsart =>
    match s.mcu.inputQueue.head? with
    | none => s.wanted
    | some c => if c = Mcu.cStart then true else if c = Mcu.cHalt then false else s.wanted
  | _ => s.wanted

/-- One event. -/
def step (s : Session) (e : FirmwareEvent) : Option Session :=
  (s.mcu.step e).map fun mcu => ⟨mcu, s.wantedAfter e⟩

/-- **The capture interrupt is enabled exactly when the user wants it.** -/
def FollowsUser (s : Session) : Prop := s.mcu.ic.enabled = s.wanted

/-- A stored pattern matches the front of the queue, and none is missing before it. -/
def HasMatch (flash : Memory) (ic : Ic) : Prop :=
  ∃ (i : ℕ) (p : PeriodPattern), storedPattern flash i = some p ∧
    p.matchWindow (frontWindow ic.signalBuffer.queue) = true ∧
    NoMatchBelow flash (frontWindow ic.signalBuffer.queue) i

/-- The event finds the interrupt in the state it is going to leave it in: a test
signal finds it enabled; a call of `process_signals` that gets past its checks
finds it disabled if a pattern matches, and enabled if none does. -/
def FindsAsLeft (s : Session) : FirmwareEvent → Prop
  | .handleUsart => s.mcu.inputQueue.head? = some Mcu.cTest → s.mcu.ic.enabled = true
  | .processSignals => Eligible s.mcu.systick s.mcu.ic →
    (HasMatch s.mcu.flash s.mcu.ic → s.mcu.ic.enabled = false) ∧
      (¬ HasMatch s.mcu.flash s.mcu.ic → s.mcu.ic.enabled = true)
  | _ => True

/-! ## What an event does to the interrupt -/

/-- The commands that concern the interrupt are the user's two, and the test
signal, which leaves it enabled. -/
theorem enabled_handleUsart {m m' : Mcu} (h : m.handleUsart = some m') :
    m'.ic.enabled = match m.inputQueue.head? with
      | none => m.ic.enabled
      | some c => if c = Mcu.cStart then true else if c = Mcu.cHalt then false
        else if c = Mcu.cTest then true else m.ic.enabled := by
  rcases Mcu.handleUsart_cases h with ⟨hqueue, rfl⟩ | ⟨c, queue, hqueue, hcommand⟩
  · rw [hqueue]
    rfl
  rw [hqueue]
  rcases hcommand with ⟨rfl, _, _, _, -, rfl⟩ | ⟨rfl, rfl⟩ | ⟨rfl, rfl⟩ | ⟨rfl, rfl⟩ |
    ⟨rfl, ic, sender, hsent, rfl⟩ | ⟨rfl, _, _, _, _, -, -, rfl⟩ | ⟨hother, rfl⟩
  · rfl
  · rfl
  · rfl
  · rfl
  · exact congrArg Ic.enabled (Sender.ic_of_send434 hsent)
  · rfl
  · simp only [List.mem_cons, not_or] at hother
    obtain ⟨-, hstart, hhalt, -, htest, -⟩ := hother
    simp only [List.head?_cons, if_neg hstart, if_neg hhalt, if_neg htest]
    rfl

/-- A call that is not eligible leaves the interrupt as it is; a match leaves it
disabled, a miss enabled. -/
theorem enabled_processSignals {flash : Memory} {systick : UInt64} {ic : Ic} {r : ℤ × Ic}
    (h : Ic.processSignals flash systick ic = some r) :
    (¬ Eligible systick ic ∧ r.2.enabled = ic.enabled) ∨
    (Eligible systick ic ∧ HasMatch flash ic ∧ r.2.enabled = false) ∨
    (Eligible systick ic ∧ ¬ HasMatch flash ic ∧ r.2.enabled = true) := by
  rcases processSignals_cases flash systick ic with
    ⟨helig, hcall⟩ | ⟨helig, i, p, b, hstored, hmatch, hbelow, -, hcall⟩ |
    ⟨helig, i, b, hnull, hbelow, -, hcall⟩
  · rw [← Option.some.inj (hcall.symm.trans h)]
    exact Or.inl ⟨helig, rfl⟩
  · rw [← Option.some.inj (hcall.symm.trans h)]
    exact Or.inr (Or.inl ⟨helig, ⟨i, p, hstored, hmatch, hbelow⟩, rfl⟩)
  · rw [← Option.some.inj (hcall.symm.trans h)]
    refine Or.inr (Or.inr ⟨helig, ?_, rfl⟩)
    rintro ⟨j, q, hq, hmatch, hprev⟩
    rcases Nat.lt_trichotomy i j with hlt | rfl | hgt
    · obtain ⟨q', hq', -⟩ := hprev i hlt
      exact absurd (hnull.symm.trans hq') (Option.some_ne_none q').symm
    · exact absurd (hnull.symm.trans hq) (Option.some_ne_none q).symm
    · obtain ⟨q', hq', hno⟩ := hbelow j hgt
      rw [Option.some.inj (hq.symm.trans hq'), hno] at hmatch
      exact Bool.false_ne_true hmatch

/-- **One event.**  Where the interrupt follows the user, it still does after an
event exactly if the event finds it as it leaves it. -/
theorem followsUser_step_iff {s s' : Session} {e : FirmwareEvent} (h : s.FollowsUser)
    (hstep : s.step e = some s') : s'.FollowsUser ↔ s.FindsAsLeft e := by
  obtain ⟨m', hm', rfl⟩ := Option.map_eq_some_iff.mp hstep
  unfold FollowsUser at h ⊢
  cases e with
  | receive c | clock ms | frameStart =>
    rw [← Option.some.inj hm']
    exact iff_of_true h trivial
  | ledProcess =>
    obtain ⟨w, -, rfl⟩ := Option.map_eq_some_iff.mp hm'
    exact iff_of_true h trivial
  | capture tim3 =>
    rw [← Option.some.inj hm']
    refine iff_of_true ?_ trivial
    split
    · exact (enabled_tim3IrqHandler _ _ _).trans h
    · exact h
  | handleUsart =>
    have hwanted : s.wantedAfter .handleUsart = match s.mcu.inputQueue.head? with
      | none => s.wanted
      | some c => if c = Mcu.cStart then true else if c = Mcu.cHalt then false else s.wanted := rfl
    rw [enabled_handleUsart hm', hwanted, FindsAsLeft]
    cases s.mcu.inputQueue.head? with
    | none => exact iff_of_true h nofun
    | some c =>
      simp only [Option.some.injEq, h]
      by_cases hstart : c = Mcu.cStart
      · rw [if_pos hstart, if_pos hstart]
        exact iff_of_true rfl fun htest => absurd (hstart.symm.trans htest) (by decide)
      by_cases hhalt : c = Mcu.cHalt
      · rw [if_neg hstart, if_neg hstart, if_pos hhalt, if_pos hhalt]
        exact iff_of_true rfl fun htest => absurd (hhalt.symm.trans htest) (by decide)
      rw [if_neg hstart, if_neg hstart, if_neg hhalt, if_neg hhalt]
      by_cases htest : c = Mcu.cTest
      · rw [if_pos htest]
        exact ⟨fun heq _ => heq.symm, fun heq => (heq htest).symm⟩
      · rw [if_neg htest]
        exact iff_of_true rfl fun hc => absurd hc htest
  | processSignals =>
    obtain ⟨r, hr, rfl⟩ := Option.map_eq_some_iff.mp hm'
    rw [FindsAsLeft, show s.wantedAfter .processSignals = s.wanted from rfl]
    rcases enabled_processSignals hr with ⟨helig, hen⟩ | ⟨helig, hmatch, hen⟩ |
      ⟨helig, hmatch, hen⟩
    · exact iff_of_true (hen.trans h) fun he => absurd he helig
    · simp only [hen, helig, hmatch, true_implies, not_true_eq_false, false_implies, and_true, h]
      exact eq_comm
    · simp only [hen, helig, hmatch, true_implies, not_false_eq_true, false_implies, true_and, h]
      exact eq_comm

/-! ## Runs -/

/-- **When the capture follows the user.**  In a run from reset, with any flash
content, the capture interrupt is enabled in every state between two operations if
and only if the last of the user's two commands was `C_START`, exactly when every
operation of the run finds the interrupt as it leaves it. -/
theorem enabled_eq_wanted_iff (flash : Memory) (es : List FirmwareEvent) (t : Session)
    (hrun : run step (initial flash) es = some t) :
    (∀ pre post, es = pre ++ post → ∀ s, run step (initial flash) pre = some s →
      s.mcu.ic.enabled = s.wanted) ↔ Along step FindsAsLeft (initial flash) es := by
  have hstart : FollowsUser (initial flash) := rfl
  refine (along_step_iff_forall_append hstart).symm.trans ?_
  refine along_iff_along (I := FollowsUser) (fun s e hs hex => ?_)
    (fun s e s' hs _ hfinds hstep => (followsUser_step_iff hs hstep).mpr hfinds) hstart
    (along_exists_of_run hrun)
  obtain ⟨s', hs'⟩ := hex
  constructor
  · exact fun h => (followsUser_step_iff hs hs').mp (h s' hs')
  · intro h u hu
    exact (followsUser_step_iff hs hu).mpr h

/-- Start the capture, receive eight pulses of 300 ticks, and process them after a
second of silence. -/
def matchRun : List FirmwareEvent :=
  [.receive Mcu.cStart, .handleUsart] ++ List.replicate 8 (.capture ⟨false, true, false, 300⟩) ++
    [.clock 1000, .processSignals]

/-- The same, but with the capture halted before the processing. -/
def missRun : List FirmwareEvent :=
  [.receive Mcu.cStart, .handleUsart] ++ List.replicate 8 (.capture ⟨false, true, false, 300⟩) ++
    [.receive Mcu.cHalt, .handleUsart, .clock 1000, .processSignals]

/-- A chip that knows one pattern, a single pulse of 300 ticks. -/
def onePulseFlash : Memory :=
  Flash.apply (savePatterns [⟨0, ![300, 0, 0, 0, 0, 0, 0, 0], 76⟩] 1) blank

theorem run_matchRun :
    (run step (initial onePulseFlash) matchRun).map (fun s => (s.mcu.ic.enabled, s.wanted)) =
      some (false, true) := by decide

theorem run_missRun :
    (run step (initial blank) missRun).map (fun s => (s.mcu.ic.enabled, s.wanted)) =
      some (true, false) := by decide

/-- The condition decides the run with the match. -/
theorem enabled_eq_wanted_iff_matchRun :
    (∀ pre post, matchRun = pre ++ post → ∀ s, run step (initial onePulseFlash) pre = some s →
      s.mcu.ic.enabled = s.wanted) ↔ Along step FindsAsLeft (initial onePulseFlash) matchRun := by
  obtain ⟨t, ht, -⟩ := Option.map_eq_some_iff.mp run_matchRun
  exact enabled_eq_wanted_iff onePulseFlash matchRun t ht

/-- A run that ends with the interrupt against the user's wish. -/
theorem not_enabled_eq_wanted_of_end {flash : Memory} {es : List FirmwareEvent}
    {enabled wanted : Bool}
    (hrun : (run step (initial flash) es).map (fun s => (s.mcu.ic.enabled, s.wanted)) =
      some (enabled, wanted)) (hne : enabled ≠ wanted) :
    ¬ ∀ pre post, es = pre ++ post → ∀ s, run step (initial flash) pre = some s →
      s.mcu.ic.enabled = s.wanted := by
  intro h
  obtain ⟨s, hs, heq⟩ := Option.map_eq_some_iff.mp hrun
  obtain ⟨rfl, rfl⟩ := Prod.mk.inj heq
  exact hne (h es [] (List.append_nil _).symm s hs)

/-- **A match turns the capture off, a miss turns it on**, whatever the user has
asked for. -/
theorem not_enabled_eq_wanted_matchRun :
    ¬ (∀ pre post, matchRun = pre ++ post → ∀ s, run step (initial onePulseFlash) pre = some s →
      s.mcu.ic.enabled = s.wanted) ∧
    ¬ (∀ pre post, missRun = pre ++ post → ∀ s, run step (initial blank) pre = some s →
      s.mcu.ic.enabled = s.wanted) :=
  ⟨not_enabled_eq_wanted_of_end run_matchRun Bool.false_ne_true,
    not_enabled_eq_wanted_of_end run_missRun Bool.false_ne_true.symm⟩

end Session
end Stm32Adaptive
