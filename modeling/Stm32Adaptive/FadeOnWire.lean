import Stm32Adaptive.LedWire

/-!
# A fade, seen from the strip

`FadeMonotone` follows the colours that calls of `process` paint, `LedWire` the frames
that reach the strip.  Between the two are the single stores of the calls and the buffer
swaps of the interrupt handler, and many calls that no frame shows.  Here they are
connected: in a fade to a colour the frames themselves are a ramp (`fade_on_wire`).

The invariant is `OnRamp`.  The fade engine is at progress `p` of the ramp, in the state it
is in when the call in progress has painted its colour, and the colour painted completely
is that of a progress `q` which lags behind until the call has come to its end.
-/

namespace Stm32Adaptive

open DoubleBuffer Ws28xx Runs

namespace Ws28xx
namespace WS2815

variable {start target : Color} {fadeTime : UInt32} {origin now t : UInt64} {p : ℕ}
  {w w' : WS2815}

/-- A ramp is in the fade and in the colour displayed. -/
theorem Ramp.of_sameFade (h : Ramp start target fadeTime origin now p w) (hw : SameFade w w')
    (hcolor : w'.currentColorAllLeds = w.currentColorAllLeds) :
    Ramp start target fadeTime origin now p w' := by
  obtain ⟨color, _, _, _, _, rfl⟩ := hw
  obtain rfl : color = w.currentColorAllLeds := hcolor
  exact ⟨h.start_eq, h.target_eq, h.origin_eq, h.time_eq, h.color_eq, h.le_1024, h.le_parts,
    h.running⟩

/-- Time passes. -/
theorem Ramp.mono (h : Ramp start target fadeTime origin now p w) (hle : now ≤ t) :
    Ramp start target fadeTime origin t p w :=
  ⟨h.start_eq, h.target_eq, h.origin_eq, h.time_eq, h.color_eq, h.le_1024,
    h.le_parts.trans (parts_mono hle),
    h.running.imp_right fun hover => ⟨hover.1, hover.2.trans (parts_mono hle)⟩⟩

theorem sameFade_setDmaBuffer (w : WS2815) (isBuffer1 : Bool) (values : DmaBuffer) :
    SameFade w (w.setDmaBuffer isBuffer1 values) := by
  cases isBuffer1 <;> exact ⟨_, _, _, _, _, rfl⟩

theorem currentColorAllLeds_setDmaBuffer (w : WS2815) (isBuffer1 : Bool) (values : DmaBuffer) :
    (w.setDmaBuffer isBuffer1 values).currentColorAllLeds = w.currentColorAllLeds := by
  cases isBuffer1 <;> rfl

end WS2815
end Ws28xx

/-- A command, as opposed to what carries a fade on. -/
def WireEvent.IsCommand : WireEvent → Prop
  | .fadeToColor _ _ | .fadeBetweenColors _ _ _ => True
  | .process | .store | .sysTick | .dmaRequest => False

instance : DecidablePred WireEvent.IsCommand
  | .fadeToColor _ _ | .fadeBetweenColors _ _ _ => isTrue trivial
  | .process | .store | .sysTick | .dmaRequest => isFalse id

namespace LedWire

open WS2815

variable {s t : LedWire}

/-! ## Single stores -/

theorem store_of_idle (hpc : s.pc = .idle) (hpending : s.pending = []) : s.store = s := by
  obtain ⟨leds, systick, pc, pending, completed, position, wire⟩ := s
  obtain rfl : pc = .idle := hpc
  obtain rfl : pending = [] := hpending
  rfl

theorem store_of_pending {color : Color} {rest : List Color} (hpc : s.pc = .idle)
    (hpending : s.pending = color :: rest) :
    s.store = { s with
      ws2815 := { s.ws2815 with currentColorAllLeds := color }
      pc := .writing color s.ws2815.target 0
      pending := rest } := by
  obtain ⟨leds, systick, pc, pending, completed, position, wire⟩ := s
  obtain rfl : pc = .idle := hpc
  obtain rfl : pending = color :: rest := hpending
  rfl

theorem store_of_lt {color : Color} {target : Bool} {done : ℕ}
    (hpc : s.pc = .writing color target done) (hmore : done < 24) :
    s.store = { s with
      ws2815 := s.ws2815.setDmaBuffer target
        (storeTiming color (done / 8) (done % 8) (s.ws2815.dmaBuffer target))
      pc := .writing color target (done + 1) } := by
  obtain ⟨leds, systick, pc, pending, completed, position, wire⟩ := s
  obtain rfl : pc = .writing color target done := hpc
  simp only [store, thread, LedThread.mainStep, if_pos hmore]

theorem store_of_le {color : Color} {target : Bool} {done : ℕ}
    (hpc : s.pc = .writing color target done) (hall : 24 ≤ done) :
    s.store = { s with
      ws2815 := { s.ws2815 with newColor := true }
      pc := .idle
      completed := some color } := by
  obtain ⟨leds, systick, pc, pending, completed, position, wire⟩ := s
  obtain rfl : pc = .writing color target done := hpc
  simp only [store, thread, LedThread.mainStep, if_neg (not_lt.mpr hall)]

theorem systick_dmaRequest (s : LedWire) : s.dmaRequest.systick = s.systick := by
  unfold dmaRequest
  split <;> rfl

/-! ## The invariant of a fade -/

/-- The colour of the call in progress, or of the one about to begin. -/
def coming (s : LedWire) : Option Color :=
  match s.pc with
  | .idle => s.pending.head?
  | .writing color _ _ => some color

/-- The fade engine when the colour that is coming has been painted. -/
def ahead (s : LedWire) : WS2815 :=
  { s.ws2815 with currentColorAllLeds := s.coming.getD s.ws2815.currentColorAllLeds }

/-- **The invariant of a fade on the strip.** -/
structure OnRamp (start target : Color) (fadeTime : UInt32) (origin : UInt64) (p q : ℕ)
    (s : LedWire) : Prop where
  ramp : Ramp start target fadeTime origin s.systick p s.ahead
  origin_le : origin ≤ s.systick
  le : q ≤ p
  completed : ∀ c, s.completed = some c → c = lerpColor start target q
  caught_up : s.coming = none → q = p
  /-- A call in progress is the last one, and its colour is the current one. -/
  writing : ∀ color target done, s.pc = .writing color target done →
    s.pending = [] ∧ s.ws2815.currentColorAllLeds = color
  /-- At most one call is about to begin. -/
  pending : s.pending.length ≤ 1

variable {start target : Color} {fadeTime : UInt32} {origin : UInt64} {p q : ℕ}

/-- What changes neither the main loop's place nor the fade nor the colours. -/
theorem OnRamp.congr (h : OnRamp start target fadeTime origin p q s) (hpc : t.pc = s.pc)
    (hpending : t.pending = s.pending) (hcompleted : t.completed = s.completed)
    (hsystick : s.systick ≤ t.systick) (hfade : SameFade s.ws2815 t.ws2815)
    (hcolor : t.ws2815.currentColorAllLeds = s.ws2815.currentColorAllLeds) :
    OnRamp start target fadeTime origin p q t := by
  have hcoming : t.coming = s.coming := by
    rw [coming, coming, hpc, hpending]
  refine ⟨?_, UInt64.le_trans h.origin_le hsystick, h.le, hcompleted ▸ h.completed,
    hcoming ▸ h.caught_up, ?_, hpending ▸ h.pending⟩
  · refine (h.ramp.mono hsystick).of_sameFade ?_ ?_
    · obtain ⟨_, _, _, _, _, heq⟩ := hfade
      rw [ahead, ahead, heq]
      exact ⟨_, _, _, _, _, rfl⟩
    · rw [ahead, ahead, hcoming, hcolor]
  · rw [hpc, hpending, hcolor]
    exact h.writing

/-- **One step of a call.**  When the call has come to its end, what is painted has caught
up with the fade. -/
theorem OnRamp.store (h : OnRamp start target fadeTime origin p q s) :
    ∃ q', q ≤ q' ∧ OnRamp start target fadeTime origin p q' s.store := by
  cases hpc : s.pc with
  | idle =>
    cases hpending : s.pending with
    | nil =>
      rw [store_of_idle hpc hpending]
      exact ⟨q, le_rfl, h⟩
    | cons color rest =>
      obtain rfl : rest = [] := by
        have hone := h.pending
        rw [hpending, List.length_cons] at hone
        exact List.eq_nil_of_length_eq_zero (by omega)
      have hramp := h.ramp
      have hcoming : s.coming = some color := by
        rw [coming, hpc, hpending]
        rfl
      rw [ahead, hcoming] at hramp
      rw [store_of_pending hpc hpending]
      refine ⟨q, le_rfl, hramp, h.origin_le, h.le, h.completed, ?_, ?_, Nat.zero_le _⟩
      · exact fun hnone => absurd hnone (Option.some_ne_none color)
      · intro c target' done hw
        obtain ⟨rfl, -, -⟩ := Pc.writing.inj hw
        exact ⟨rfl, rfl⟩
  | writing color target' done =>
    obtain ⟨hpending, hcolor⟩ := h.writing color target' done hpc
    have hcoming : s.coming = some color := by
      rw [coming, hpc]
    rcases Nat.lt_or_ge done 24 with hmore | hall
    · -- a value is stored
      have hsame := sameFade_setDmaBuffer s.ws2815 target'
        (storeTiming color (done / 8) (done % 8) (s.ws2815.dmaBuffer target'))
      have hcurrent := currentColorAllLeds_setDmaBuffer s.ws2815 target'
        (storeTiming color (done / 8) (done % 8) (s.ws2815.dmaBuffer target'))
      rw [store_of_lt hpc hmore]
      refine ⟨q, le_rfl, ?_, h.origin_le, h.le, h.completed, ?_, ?_, h.pending⟩
      · refine h.ramp.of_sameFade ?_ ?_
        · obtain ⟨_, _, _, _, _, heq⟩ := hsame
          rw [ahead, ahead, heq]
          exact ⟨_, _, _, _, _, rfl⟩
        · rw [ahead, ahead, hcoming]
          rfl
      · exact fun hnone => absurd hnone (Option.some_ne_none color)
      · intro c target'' done' hw
        obtain ⟨rfl, -, -⟩ := Pc.writing.inj hw
        exact ⟨hpending, hcurrent.trans hcolor⟩
    · -- the call comes to its end
      rw [store_of_le hpc hall]
      have hramp := h.ramp
      rw [ahead, hcoming] at hramp
      refine ⟨p, h.le, ?_, h.origin_le, le_rfl, ?_, fun _ => rfl, ?_, h.pending⟩
      · refine hramp.of_sameFade ⟨_, _, _, _, _, rfl⟩ ?_
        rw [ahead, coming]
        simp only [hpending, List.head?_nil]
        exact hcolor
      · intro c hc
        obtain rfl := Option.some.inj hc
        exact hramp.color_eq
      · exact fun _ _ _ hw => absurd hw.symm (Pc.writing_ne_idle _ _ _)

theorem AtRest.coming_eq_none (h : s.AtRest) : s.coming = none := by
  rw [coming, h.1, h.2]
  rfl

/-- **A call of `process`.**  The fade goes on, and what has been painted completely does
not change. -/
theorem OnRamp.process (h : OnRamp start target fadeTime origin p q s) (hT : fadeTime ≠ 0)
    (helapsed : s.systick.toNat < 2 ^ 54) (hstep : step s .process = some t) :
    ∃ p' q', q ≤ q' ∧ OnRamp start target fadeTime origin p' q' t := by
  obtain ⟨hrest, w, hw, hcases⟩ := step_process_cases hstep
  have hcoming := hrest.coming_eq_none
  have hahead : s.ahead = s.ws2815 := by
    rw [ahead, hcoming]
    rfl
  have hramp := h.ramp
  rw [hahead] at hramp
  obtain ⟨r, w', hw', hramp', hpr, -, -⟩ := hramp.process hT UInt64.le_rfl h.origin_le
    (lt_of_le_of_lt (Nat.sub_le _ _) helapsed)
  obtain rfl := Option.some.inj (hw.symm.trans hw')
  have hidle : ∀ color target' done, s.pc ≠ .writing color target' done := by
    rw [hrest.1]
    exact fun _ _ _ hw => absurd hw.symm (Pc.writing_ne_idle _ _ _)
  rcases hcases with ⟨color, rfl, rfl⟩ | ⟨-, hcolor, rfl⟩
  · -- the colour is decided
    have hnew : LedWire.coming { s with pending := [color] } = some color := by
      rw [coming]
      simp only [hrest.1, List.head?_cons]
    refine ⟨r, q, le_rfl, ?_, h.origin_le, h.le.trans hpr, h.completed, ?_,
      fun c target' done hwriting => absurd hwriting (hidle c target' done), le_rfl⟩
    · refine hramp'.of_sameFade ?_ ?_
      · obtain ⟨_, _, _, _, _, heq⟩ := sameFade_setDmaTimingsForColor color s.ws2815
        rw [heq]
        exact ⟨_, _, _, _, _, rfl⟩
      · rw [currentColorAllLeds_setDmaTimingsForColor, ahead, hnew]
        rfl
    · rw [hnew]
      exact fun hnone => absurd hnone (Option.some_ne_none color)
  · -- nothing is painted
    have hnew : LedWire.ahead { s with ws2815 := w } = w := by
      have hsame : LedWire.coming { s with ws2815 := w } = none := hcoming
      rw [ahead, hsame]
      rfl
    refine ⟨r, r, h.le.trans hpr, ?_, h.origin_le, le_rfl, fun c hc => ?_, fun _ => rfl,
      fun c target' done hwriting => absurd hwriting (hidle c target' done), h.pending⟩
    · rw [hnew]
      exact hramp'
    · rw [h.completed c hc, h.caught_up hcoming, ← hramp.color_eq, ← hcolor, hramp'.color_eq]

/-- **One event of a fade.** -/
theorem OnRamp.step {e : WireEvent} (hphase : Phase s)
    (h : OnRamp start target fadeTime origin p q s) (hT : fadeTime ≠ 0) (he : ¬ e.IsCommand)
    (htime : s.systick.toNat + [e].count .sysTick < 2 ^ 54)
    (hstep : LedWire.step s e = some t) :
    ∃ p' q', q ≤ q' ∧ OnRamp start target fadeTime origin p' q' t := by
  cases e with
  | fadeToColor c fadeTime => exact absurd trivial he
  | fadeBetweenColors a b fadeTime => exact absurd trivial he
  | process => exact h.process hT (lt_of_le_of_lt (Nat.le_add_right _ _) htime) hstep
  | store =>
    obtain rfl := Option.some.inj hstep
    obtain ⟨q', hle, hstore⟩ := h.store
    exact ⟨p, q', hle, hstore⟩
  | sysTick =>
    obtain rfl := Option.some.inj hstep
    have hle : s.systick ≤ s.systick + 1 := by
      rw [List.count_singleton_self] at htime
      rw [UInt64.le_iff_toNat_le, UInt64.toNat_add, show (1 : UInt64).toNat = 1 from rfl,
        Nat.mod_eq_of_lt (by omega)]
      omega
    exact ⟨p, q, le_rfl, h.congr rfl rfl rfl hle ⟨_, _, _, _, _, rfl⟩ rfl⟩
  | dmaRequest =>
    obtain rfl := Option.some.inj hstep
    refine ⟨p, q, le_rfl, ?_⟩
    by_cases hstart : s.StartsFrame
    · rw [dmaRequest_of_startsFrame hstart]
      exact h.congr rfl rfl rfl UInt64.le_rfl (sameFade_swapBuffers _)
        (currentColorAllLeds_swapBuffers _)
    · have hthread := thread_dmaRequest_of_not_startsFrame hphase hstart
      have hws2815 : s.dmaRequest.ws2815 = s.ws2815 := congrArg LedThread.ws2815 hthread
      refine h.congr (congrArg LedThread.pc hthread) (congrArg LedThread.pending hthread)
        (congrArg LedThread.completed hthread) ?_ ?_ ?_
      · rw [systick_dmaRequest]
        exact UInt64.le_rfl
      · rw [hws2815]
        exact ⟨_, _, _, _, _, rfl⟩
      · rw [hws2815]

/-! ## Runs -/

/-- The clock counts the calls of `SysTick_Handler`. -/
theorem systick_of_step {e : WireEvent} (htime : s.systick.toNat + [e].count .sysTick < 2 ^ 54)
    (hstep : step s e = some t) : t.systick.toNat = s.systick.toNat + [e].count .sysTick := by
  cases e with
  | fadeToColor c fadeTime =>
    obtain ⟨-, hsome⟩ := Option.ite_none_right_eq_some.mp hstep
    obtain rfl := Option.some.inj hsome
    rfl
  | fadeBetweenColors a b fadeTime =>
    obtain ⟨-, hsome⟩ := Option.ite_none_right_eq_some.mp hstep
    obtain rfl := Option.some.inj hsome
    rfl
  | process =>
    obtain ⟨-, w, -, ⟨color, -, rfl⟩ | ⟨-, -, rfl⟩⟩ := step_process_cases hstep <;> rfl
  | store =>
    obtain rfl := Option.some.inj hstep
    rfl
  | sysTick =>
    obtain rfl := Option.some.inj hstep
    rw [List.count_singleton_self] at htime ⊢
    rw [UInt64.toNat_add, show (1 : UInt64).toNat = 1 from rfl, Nat.mod_eq_of_lt (by omega)]
  | dmaRequest =>
    obtain rfl := Option.some.inj hstep
    rw [systick_dmaRequest]
    rfl

theorem systick_of_run {es : List WireEvent}
    (htime : s.systick.toNat + es.count .sysTick < 2 ^ 54) (hrun : run step s es = some t) :
    t.systick.toNat = s.systick.toNat + es.count .sysTick := by
  induction es generalizing s with
  | nil =>
    obtain rfl := Option.some.inj hrun
    rfl
  | cons e es ih =>
    rw [run_cons, Option.bind_eq_some_iff] at hrun
    obtain ⟨u, hu, hrest⟩ := hrun
    rw [← List.singleton_append, List.count_append] at htime ⊢
    have hclock := systick_of_step (by omega) hu
    rw [ih (by omega) hrest, hclock, Nat.add_assoc]

/-- **A run of a fade**: what has been painted completely does not go back. -/
theorem OnRamp.of_run {es : List WireEvent} (hphase : Phase s)
    (h : OnRamp start target fadeTime origin p q s) (hT : fadeTime ≠ 0)
    (hes : ∀ e ∈ es, ¬ e.IsCommand) (htime : s.systick.toNat + es.count .sysTick < 2 ^ 54)
    (hrun : run LedWire.step s es = some t) :
    ∃ p' q', q ≤ q' ∧ OnRamp start target fadeTime origin p' q' t := by
  induction es generalizing s p q with
  | nil =>
    obtain rfl := Option.some.inj hrun
    exact ⟨p, q, le_rfl, h⟩
  | cons e es ih =>
    rw [run_cons, Option.bind_eq_some_iff] at hrun
    obtain ⟨u, hu, hrest⟩ := hrun
    rw [List.forall_mem_cons] at hes
    rw [← List.singleton_append, List.count_append] at htime
    have hclock := systick_of_step (by omega) hu
    obtain ⟨p', q', hq, hnext⟩ := h.step hphase hT hes.1 (by omega) hu
    obtain ⟨p'', q'', hq', hend⟩ := ih (hphase.step hu) hnext hes.2 (by omega) hrest
    exact ⟨p'', q'', hq.trans hq', hend⟩

/-- The current colour is that of the call in progress, or of the last one. -/
structure Current (s : LedWire) : Prop where
  writing : ∀ color target done, s.pc = .writing color target done →
    s.ws2815.currentColorAllLeds = color
  idle : s.pc = .idle → ∀ c, s.completed = some c → s.ws2815.currentColorAllLeds = c

theorem current_initial : Current initial :=
  ⟨fun _ _ _ h => absurd h.symm (Pc.writing_ne_idle _ _ _),
    fun _ _ h => absurd h.symm (Option.some_ne_none _)⟩

theorem Current.congr (h : Current s) (hpc : t.pc = s.pc) (hcompleted : t.completed = s.completed)
    (hcolor : t.ws2815.currentColorAllLeds = s.ws2815.currentColorAllLeds) : Current t := by
  refine ⟨?_, ?_⟩
  · rw [hpc, hcolor]
    exact h.writing
  · rw [hpc, hcompleted, hcolor]
    exact h.idle

theorem Current.store (h : Current s) : Current s.store := by
  cases hpc : s.pc with
  | idle =>
    cases hpending : s.pending with
    | nil => rwa [store_of_idle hpc hpending]
    | cons color rest =>
      rw [store_of_pending hpc hpending]
      refine ⟨fun c target done hw => (Pc.writing.inj hw).1, fun hidle => ?_⟩
      exact absurd hidle (Pc.writing_ne_idle _ _ _)
  | writing color target done =>
    have hcolor := h.writing color target done hpc
    rcases Nat.lt_or_ge done 24 with hmore | hall
    · rw [store_of_lt hpc hmore]
      refine ⟨fun c target' done' hw => ?_, fun hidle => absurd hidle (Pc.writing_ne_idle _ _ _)⟩
      obtain ⟨rfl, -, -⟩ := Pc.writing.inj hw
      exact (currentColorAllLeds_setDmaBuffer _ _ _).trans hcolor
    · rw [store_of_le hpc hall]
      exact ⟨fun _ _ _ hw => absurd hw.symm (Pc.writing_ne_idle _ _ _),
        fun _ c hc => hcolor.trans (Option.some.inj hc)⟩

theorem Current.step {e : WireEvent} (hphase : Phase s) (h : Current s)
    (hstep : LedWire.step s e = some t) : Current t := by
  cases e with
  | fadeToColor c fadeTime =>
    obtain ⟨-, hsome⟩ := Option.ite_none_right_eq_some.mp hstep
    obtain rfl := Option.some.inj hsome
    exact h.congr rfl rfl rfl
  | fadeBetweenColors a b fadeTime =>
    obtain ⟨-, hsome⟩ := Option.ite_none_right_eq_some.mp hstep
    obtain rfl := Option.some.inj hsome
    exact h.congr rfl rfl rfl
  | process =>
    obtain ⟨-, w, -, ⟨color, -, rfl⟩ | ⟨-, hcolor, rfl⟩⟩ := step_process_cases hstep
    · exact h.congr rfl rfl rfl
    · exact h.congr rfl rfl hcolor
  | store =>
    obtain rfl := Option.some.inj hstep
    exact h.store
  | sysTick =>
    obtain rfl := Option.some.inj hstep
    exact h.congr rfl rfl rfl
  | dmaRequest =>
    obtain rfl := Option.some.inj hstep
    by_cases hstart : s.StartsFrame
    · rw [dmaRequest_of_startsFrame hstart]
      exact h.congr rfl rfl (currentColorAllLeds_swapBuffers _)
    · have hthread := thread_dmaRequest_of_not_startsFrame hphase hstart
      exact h.congr (congrArg LedThread.pc hthread) (congrArg LedThread.completed hthread)
        (congrArg (fun th => th.ws2815.currentColorAllLeds) hthread)

theorem current_of_run {es : List WireEvent} (hrun : run step initial es = some t) : Current t := by
  have hinv : Phase t ∧ Current t :=
    inv_of_run (I := fun s => Phase s ∧ Current s)
      (fun s e u h hstep => ⟨h.1.step hstep, h.2.step h.1 hstep⟩)
      ⟨phase_initial, current_initial⟩ hrun
  exact hinv.2

/-- The command begins a ramp at the colour displayed. -/
theorem onRamp_fadeToColor (h : Current s) (hrest : s.AtRest) (c : Color) (fadeTime : UInt32) :
    OnRamp s.ws2815.currentColorAllLeds c fadeTime s.systick 0 0
      { s with ws2815 := s.ws2815.fadeToColor c fadeTime s.systick } where
  ramp := by
    have hcoming : LedWire.coming
        { s with ws2815 := s.ws2815.fadeToColor c fadeTime s.systick } = none :=
      hrest.coming_eq_none
    rw [ahead, hcoming]
    exact ramp_fadeToColor s.ws2815 c fadeTime s.systick
  origin_le := UInt64.le_rfl
  le := le_rfl
  completed x hx := (h.idle hrest.1 x hx).symm.trans (lerpColor_zero _ _).symm
  caught_up _ := rfl
  writing _ _ _ hw := absurd (hw.symm.trans hrest.1) (Pc.writing_ne_idle _ _ _)
  pending := by
    rw [show s.pending = [] from hrest.2]
    exact Nat.zero_le 1

/-- **A fade on the strip is a ramp.**  Let a run go on with a fade to a colour and no other
command, and let its frames start at settled moments.  Of any two frames that start after
the command and have been sent, each is one colour for all LEDs, and in every channel the
two lie in their order on the way from the colour displayed at the command to the
target. -/
theorem fade_on_wire {pre mid : List WireEvent} {c : Color} {fadeTime : UInt32}
    (hT : fadeTime ≠ 0) (hmid : ∀ e ∈ mid, ¬ e.IsCommand)
    (htime : (pre ++ mid).count .sysTick < 2 ^ 54) (hpre : run step initial pre = some s)
    (hrun : run step initial (pre ++ .fadeToColor c fadeTime :: mid) = some t)
    (hsettled : Along step Settled initial (pre ++ .fadeToColor c fadeTime :: mid)) {f f' : ℕ}
    (hf : s.wire.length < 27360 + 3780 * f) (hff' : f < f')
    (hlength : 27360 + 3780 * (f' + 1) ≤ t.wire.length) :
    ∃ u v, frameOn t.wire f = (frame (encode u)).map some ∧
      frameOn t.wire f' = (frame (encode v)).map some ∧
      TowardColor s.ws2815.currentColorAllLeds c u v := by
  -- the command, and the starts of the two frames
  rw [run_append_of_run hpre, run_cons, Option.bind_eq_some_iff] at hrun
  obtain ⟨u₀, hcommand, hrun⟩ := hrun
  have hbegun : run step initial (pre ++ [.fadeToColor c fadeTime]) = some u₀ :=
    (run_concat_of_run hpre).trans hcommand
  obtain ⟨hrest, hsome⟩ := Option.ite_none_right_eq_some.mp hcommand
  have hramp := onRamp_fadeToColor (current_of_run hpre) hrest c fadeTime
  rw [Option.some.inj hsome] at hramp
  have hwire : u₀.wire = s.wire := wire_of_ne hcommand nofun
  obtain ⟨mid₁, rest, s₁, rfl, hmid₁, hs₁⟩ := exists_request hrun
    (show u₀.wire.length ≤ 27359 + 3780 * f by rw [hwire]; omega)
    (show 27359 + 3780 * f < t.wire.length by omega)
  have hrequest : ∀ u : LedWire, LedWire.step u .dmaRequest = some u.dmaRequest := fun _ => rfl
  rw [run_append_of_run hmid₁, run_cons_of_step (hrequest s₁)] at hrun
  obtain ⟨mid₂, post, s₂, rfl, hmid₂, hs₂⟩ := exists_request hrun
    (show s₁.dmaRequest.wire.length ≤ 27359 + 3780 * f' by rw [length_dmaRequest, hs₁]; omega)
    (show 27359 + 3780 * f' < t.wire.length by omega)
  -- the clock at these moments
  have hskip : ∀ es : List WireEvent,
      (WireEvent.dmaRequest :: es).count .sysTick = es.count .sysTick := fun es =>
    List.count_cons_of_ne (by decide)
  rw [List.count_append, List.count_append, hskip, List.count_append, hskip] at htime
  rw [List.forall_mem_append, List.forall_mem_cons, List.forall_mem_append] at hmid
  have hzero : initial.systick.toNat = 0 := rfl
  have hclock : s.systick.toNat = _ := systick_of_run (by omega) hpre
  have hclock₀ : u₀.systick = s.systick := by rw [← Option.some.inj hsome]
  have hclock₁ := systick_of_run (s := u₀) (by rw [hclock₀]; omega) hmid₁
  -- the colours painted completely at these moments
  have hphase₀ := phase_of_run phase_initial hbegun
  obtain ⟨p₁, q₁, -, hramp₁⟩ := hramp.of_run hphase₀ hT hmid.1
    (by rw [hclock₀]; omega) hmid₁
  have hmid₂' : run step s₁ (.dmaRequest :: mid₂) = some s₂ := hmid₂
  obtain ⟨p₂, q₂, hle, hramp₂⟩ := hramp₁.of_run (phase_of_run hphase₀ hmid₁) hT
    (List.forall_mem_cons.mpr ⟨hmid.2.1, hmid.2.2.1⟩)
    (by rw [hclock₁, hclock₀, hskip]; omega) hmid₂'
  -- the frames
  have hpre₁ : run step initial (pre ++ .fadeToColor c fadeTime :: mid₁) = some s₁ := by
    rw [List.append_cons, run_append_of_run hbegun, hmid₁]
  have hpre₂ : run step initial ((pre ++ .fadeToColor c fadeTime :: mid₁) ++
      .dmaRequest :: mid₂) = some s₂ := by
    rw [run_append_of_run hpre₁, hmid₂']
  have hset₁ : Along step Settled initial ((pre ++ .fadeToColor c fadeTime :: mid₁) ++
      .dmaRequest :: (mid₂ ++ .dmaRequest :: post)) := by
    rwa [List.append_assoc]
  have hset₂ : Along step Settled initial (((pre ++ .fadeToColor c fadeTime :: mid₁) ++
      .dmaRequest :: mid₂) ++ .dmaRequest :: post) := by
    rwa [List.append_assoc]
  have hsent : 27360 + 3780 * (f + 1) ≤ 27360 + 3780 * (f' + 1) :=
    Nat.add_le_add_left (Nat.mul_le_mul_left _ (Nat.succ_le_succ hff'.le)) _
  obtain ⟨u, hu, hframe⟩ := frameOn_of_settled hset₁ hpre₁
    (show s₁.wire.length + 1 = 27360 + 3780 * f by omega) hrun (hsent.trans hlength)
  rw [run_append_of_run hmid₂] at hrun
  obtain ⟨v, hv, hframe'⟩ := frameOn_of_settled hset₂ hpre₂
    (show s₂.wire.length + 1 = 27360 + 3780 * f' by omega) hrun hlength
  refine ⟨u, v, hframe, hframe', ?_⟩
  rw [hramp₁.completed u hu, hramp₂.completed v hv]
  exact toward_lerpColor _ _ (Int.natCast_nonneg q₁) (Int.ofNat_le.mpr hle)
    (Int.ofNat_le.mpr (hramp₂.le.trans hramp₂.ramp.le_1024))

/-! ## Two frames -/

/-- A fade to white in two milliseconds, up to the grey that is painted after the
first. -/
def greyPainted : List WireEvent :=
  [.fadeToColor ⟨255, 255, 255⟩ 2, .sysTick, .process] ++ List.replicate 26 .store

/-- White is painted after the second. -/
def whiteAfterGrey : List WireEvent :=
  .sysTick :: .process :: List.replicate 26 .store

/-- The first frame has started when white is painted; then the rest of it is sent, and
another one. -/
def twoFrames : List WireEvent :=
  (greyPainted ++ List.replicate 27359 .dmaRequest) ++ .dmaRequest ::
    ((whiteAfterGrey ++ List.replicate 3779 .dmaRequest) ++ .dmaRequest ::
      List.replicate 3780 .dmaRequest)

/-- What has been painted completely when the two frames start. -/
theorem exists_run_twoFrames :
    ∃ s₁ s₂, run step initial (greyPainted ++ List.replicate 27359 .dmaRequest) = some s₁ ∧
      s₁.wire.length + 1 = 27360 ∧ s₁.pc = .idle ∧ s₁.completed = some ⟨127, 127, 127⟩ ∧
      run step s₁.dmaRequest whiteAfterGrey = some s₂ ∧
      s₂.wire.length = 27360 ∧ s₂.pc = .idle ∧ s₂.completed = some ⟨255, 255, 255⟩ := by
  obtain ⟨s₀, hs₀⟩ : ∃ s₀, run step initial greyPainted = some s₀ := ⟨_, rfl⟩
  have hphase := phase_of_run phase_initial hs₀
  have hfacts : s₀.wire = [] ∧ s₀.AtRest ∧ s₀.completed = some ⟨127, 127, 127⟩ ∧
      s₀.ws2815.swapBuffers.paints 2 = some ⟨255, 255, 255⟩ ∧
      ∃ w, s₀.ws2815.swapBuffers.process 2 = some w := by
    obtain rfl := Option.some.inj hs₀
    exact ⟨rfl, ⟨rfl, rfl⟩, rfl, rfl, _, rfl⟩
  obtain ⟨hwire, hrest, hcompleted, hpaints, w, hw⟩ := hfacts
  obtain ⟨s₁, hs₁, hlength, hthread⟩ := run_requests_of_lt (n := 27359) hphase
    (by rw [hwire]; decide)
  have hbegin : s₁.wire.length + 1 = 27360 := by
    rw [hlength, hwire]
    rfl
  have hrun : run step initial (greyPainted ++ List.replicate 27359 .dmaRequest) = some s₁ := by
    rw [run_append_of_run hs₀, hs₁]
  have hstart := dmaRequest_of_startsFrame ((phase_of_run hphase hs₁).startsFrame
    (show s₁.wire.length + 1 = 27360 + 3780 * 0 from hbegin))
  -- the next tick of the clock is the second
  have hclock : s₁.systick + 1 = 2 := by
    have hcount : List.count WireEvent.sysTick
        (greyPainted ++ List.replicate 27359 .dmaRequest) = 1 := by
      rw [List.count_append, List.count_replicate, if_neg (by decide)]
      rfl
    have htime := systick_of_run (by rw [hcount]; decide) hrun
    rw [hcount] at htime
    exact congrArg (· + 1) (UInt64.toNat_inj.mp htime : s₁.systick = 1)
  have hws2815 : s₁.dmaRequest.ws2815 = s₀.ws2815.swapBuffers := by
    rw [hstart]
    exact congrArg (fun th => th.ws2815.swapBuffers) hthread
  have hrest₁ : s₁.dmaRequest.AtRest := by
    rw [hstart]
    exact ⟨(congrArg LedThread.pc hthread).trans hrest.1,
      (congrArg LedThread.pending hthread).trans hrest.2⟩
  have hpaint := run_process (s := { s₁.dmaRequest with systick := 2 }) hrest₁
    (by rw [← hpaints]; exact congrArg (WS2815.paints 2) hws2815)
    (by rw [← hw]; exact congrArg (WS2815.process 2) hws2815)
  refine ⟨s₁, { s₁.dmaRequest with
    systick := 2
    ws2815 := w
    completed := some ⟨255, 255, 255⟩ }, hrun, hbegin,
    (congrArg LedThread.pc hthread).trans hrest.1,
    (congrArg LedThread.completed hthread).trans hcompleted, ?_, ?_, hrest₁.1, rfl⟩
  · have htick : step s₁.dmaRequest .sysTick = some { s₁.dmaRequest with systick := 2 } := by
      rw [← hclock, ← s₁.systick_dmaRequest]
      rfl
    rw [whiteAfterGrey, run_cons_of_step htick, hpaint]
  · exact (length_dmaRequest s₁).trans hbegin

/-- Both frames start between two calls. -/
theorem settled_twoFrames : Along step Settled initial twoFrames := by
  obtain ⟨s₁, s₂, hs₁, -, hpc₁, hcompleted₁, hs₂, -, hpc₂, hcompleted₂⟩ := exists_run_twoFrames
  have hbetween : ∀ {s : LedWire} {c : Color} (n : ℕ), s.pc = .idle → s.completed = some c →
      Along step Settled s (List.replicate n .dmaRequest) := fun n hpc hcompleted =>
    settled_requests hpc (by rw [hcompleted]; exact Option.some_ne_none _) n
  refine along_append.mpr ⟨along_append.mpr ⟨settled_of_forall_ne (by decide) initial, ?_⟩, ?_⟩
  · intro s₀ hs₀
    have hrest : s₀.pc = .idle ∧ s₀.completed = some ⟨127, 127, 127⟩ := by
      obtain rfl := Option.some.inj hs₀
      exact ⟨rfl, rfl⟩
    exact hbetween 27359 hrest.1 hrest.2
  · intro s hs
    obtain rfl := Option.some.inj (hs₁.symm.trans hs)
    refine along_cons.mpr ⟨(hbetween 1 hpc₁ hcompleted₁).1, fun u hu => ?_⟩
    obtain rfl := Option.some.inj hu
    have hafter : ∀ u, run step s₁.dmaRequest whiteAfterGrey = some u →
        u.pc = .idle ∧ u.completed = some ⟨255, 255, 255⟩ := by
      intro u hu
      obtain rfl := Option.some.inj (hs₂.symm.trans hu)
      exact ⟨hpc₂, hcompleted₂⟩
    have hrest : List.replicate 7560 WireEvent.dmaRequest =
        List.replicate 3779 .dmaRequest ++ .dmaRequest :: List.replicate 3780 .dmaRequest := by
      rw [← List.replicate_succ, List.replicate_append_replicate]
    rw [List.append_assoc, ← hrest]
    refine along_append.mpr ⟨settled_of_forall_ne (by decide) _, fun u hu => ?_⟩
    exact hbetween 7560 (hafter u hu).1 (hafter u hu).2

/-- A grey frame and a white one, on the way from black to white. -/
theorem fade_on_wire_twoFrames :
    ∃ t u v, run step initial twoFrames = some t ∧
      frameOn t.wire 0 = (frame (encode u)).map some ∧
      frameOn t.wire 1 = (frame (encode v)).map some ∧
      TowardColor ⟨0, 0, 0⟩ ⟨255, 255, 255⟩ u v ∧ u ≠ v := by
  obtain ⟨s₁, s₂, hs₁, hlength₁, -, hcompleted₁, hs₂, hlength₂, -, hcompleted₂⟩ :=
    exists_run_twoFrames
  obtain ⟨s₃, hs₃, hlength₃, -, hcompleted₃⟩ := run_requests s₂ 3779
  obtain ⟨t, ht, hlength, -⟩ := run_requests s₃.dmaRequest 3780
  have hrequest : ∀ s : LedWire, LedWire.step s .dmaRequest = some s.dmaRequest := fun _ => rfl
  -- the run, cut where the two frames start
  have hpost : run step s₁.dmaRequest (whiteAfterGrey ++ List.replicate 3779 .dmaRequest) =
      some s₃ := by
    rw [run_append_of_run hs₂, hs₃]
  have hrest : run step s₁.dmaRequest ((whiteAfterGrey ++ List.replicate 3779 .dmaRequest) ++
      .dmaRequest :: List.replicate 3780 .dmaRequest) = some t := by
    rw [run_append_of_run hpost, run_cons_of_step (hrequest s₃), ht]
  have hrun : run step initial twoFrames = some t := by
    rw [twoFrames, run_append_of_run hs₁, run_cons_of_step (hrequest s₁), hrest]
  have hlength' : t.wire.length = 34920 := by
    rw [hlength, length_dmaRequest, hlength₃, hlength₂]
  have hbegin : s₃.wire.length + 1 = 27360 + 3780 * 1 := by
    rw [hlength₃, hlength₂]
  have hpre : run step initial ((greyPainted ++ List.replicate 27359 .dmaRequest) ++ .dmaRequest ::
      (whiteAfterGrey ++ List.replicate 3779 .dmaRequest)) = some s₃ := by
    rw [run_append_of_run hs₁, run_cons_of_step (hrequest s₁), hpost]
  -- the colours that had been painted completely
  obtain ⟨c₁, hc₁, hgrey⟩ := frameOn_of_settled (f := 0) settled_twoFrames hs₁ hlength₁ hrest
    (by rw [hlength']; decide)
  have hcut : Along step Settled initial (((greyPainted ++ List.replicate 27359 .dmaRequest) ++
      .dmaRequest :: (whiteAfterGrey ++ List.replicate 3779 .dmaRequest)) ++
      .dmaRequest :: List.replicate 3780 .dmaRequest) := by
    rw [List.append_assoc]
    exact settled_twoFrames
  obtain ⟨c₂, hc₂, hwhite⟩ := frameOn_of_settled (f := 1) hcut hpre hbegin ht
    (by rw [hlength'])
  obtain rfl := Option.some.inj (hcompleted₁.symm.trans hc₁)
  obtain rfl := Option.some.inj (hcompleted₂.symm.trans (hcompleted₃.symm.trans hc₂))
  have hdiffer : (frame (encode ⟨127, 127, 127⟩)).map some ≠
      (frame (encode ⟨255, 255, 255⟩)).map some := by
    decide +kernel
  -- the command is the first event
  have hrequests : ∀ n, ∀ e ∈ List.replicate n WireEvent.dmaRequest, ¬ e.IsCommand := by
    intro n e he
    obtain rfl := List.eq_of_mem_replicate he
    exact id
  have htail : twoFrames.tail = (greyPainted.tail ++ List.replicate 27359 .dmaRequest) ++
      .dmaRequest :: ((whiteAfterGrey ++ List.replicate 3779 .dmaRequest) ++ .dmaRequest ::
        List.replicate 3780 .dmaRequest) := rfl
  have hmid : ∀ e ∈ twoFrames.tail, ¬ e.IsCommand := by
    simp only [htail, List.forall_mem_append, List.forall_mem_cons]
    exact ⟨⟨by decide, hrequests 27359⟩, id, ⟨by decide, hrequests 3779⟩, id, hrequests 3780⟩
  have htime : ([] ++ twoFrames.tail).count WireEvent.sysTick < 2 ^ 54 := by
    simp only [List.nil_append, htail, List.count_append, List.count_cons, List.count_replicate]
    decide
  obtain ⟨u, v, hu, hv, htoward⟩ := fade_on_wire (f := 0) (c := ⟨255, 255, 255⟩)
    (show (2 : UInt32) ≠ 0 by decide) hmid htime run_nil hrun settled_twoFrames (by decide)
    Nat.zero_lt_one (by rw [hlength'])
  refine ⟨t, u, v, hrun, hu, hv, htoward, fun heq => hdiffer ?_⟩
  rw [← hgrey, ← hwhite, hu, hv, heq]

end LedWire
end Stm32Adaptive
