import Stm32Adaptive.Interleaving
import Stm32Adaptive.TestTransmission

/-!
# What is true of every state of the firmware

The flash belongs to two programs: below the pattern page is the code, and the page is
rewritten by a command from the line, with a length from the line.  Nothing in
`savePatterns` compares addresses.  That the code survives rests on where the page is
and on the length being one byte.

`Mcu.Sound` collects what holds between any two steps of the main loop, with interrupts
inside commands as well (`fine_sound`): the flash is what the saves have made of it, one
after the other; each save writes a table of at most 255 records with zero padding; no
byte below the pattern page has ever changed, and none above it unless a table was
longer than 56 records; the transmitter is at rest, with its timer off and no list left;
and the flag that chooses the test signal has never changed.
-/

namespace Stm32Adaptive

open FlashMemory Flash Framing Runs

/-! ## What a reader returns -/

/-- What is true of each value that a reader returns is true of a list of them. -/
theorem Framing.times_spec {α β : Type} {P : α → Prop} {r : Reader β α}
    (hr : ∀ l a l', r.run l = some (a, l') → P a) {n : ℕ} {l l' : List β} {as : List α}
    (h : (times r n).run l = some (as, l')) : as.length = n ∧ ∀ a ∈ as, P a := by
  induction n generalizing l l' as with
  | zero =>
    obtain ⟨rfl, -⟩ := Prod.mk.inj (Option.some.inj h)
    exact ⟨rfl, nofun⟩
  | succ n ih =>
    obtain ⟨⟨a, l₁⟩, ha, h⟩ := Option.bind_eq_some_iff.mp h
    obtain ⟨⟨as', l₂⟩, has, h⟩ := Option.bind_eq_some_iff.mp h
    obtain ⟨rfl, -⟩ := Prod.mk.inj (Option.some.inj h)
    obtain ⟨hlen, hall⟩ := ih has
    exact ⟨congrArg Nat.succ hlen, List.forall_mem_cons.mpr ⟨hr l a l₁ ha, hall⟩⟩

namespace Mcu

theorem padding_readPeriods {is : List (Fin 8)} {tmp p : PeriodPattern} {l l' : List UInt8}
    (h : (readPeriods is tmp).run l = some (p, l')) : p.padding = tmp.padding := by
  induction is generalizing tmp l with
  | nil =>
    obtain ⟨rfl, -⟩ := Prod.mk.inj (Option.some.inj h)
    rfl
  | cons i is ih =>
    obtain ⟨⟨upper, l₁⟩, -, h⟩ := Option.bind_eq_some_iff.mp h
    obtain ⟨⟨lower, l₂⟩, -, h⟩ := Option.bind_eq_some_iff.mp h
    have hpadding := ih h
    exact hpadding

theorem padding_readPattern (l : List UInt8) (p : PeriodPattern) (l' : List UInt8)
    (h : readPattern.run l = some (p, l')) : p.padding = 0 := by
  obtain ⟨⟨tmp, l₁⟩, htmp, h⟩ := Option.bind_eq_some_iff.mp h
  obtain ⟨⟨tolerance, l₂⟩, -, h⟩ := Option.bind_eq_some_iff.mp h
  obtain ⟨rfl, -⟩ := Prod.mk.inj (Option.some.inj h)
  exact padding_readPeriods htmp

/-- **The table of a command `C_SETUP`** has as many records as its first byte says. -/
theorem readPatterns_spec {n : ℕ} {tmp : List PeriodPattern} {l l' : List UInt8}
    (h : readPatterns.run l = some ((n, tmp), l')) :
    n = tmp.length ∧ tmp.length ≤ 255 ∧ ∀ p ∈ tmp, p.padding = 0 := by
  obtain ⟨⟨c, l₁⟩, -, h⟩ := Option.bind_eq_some_iff.mp h
  obtain ⟨⟨ps, l₂⟩, hps, h⟩ := Option.bind_eq_some_iff.mp h
  obtain ⟨hn, -⟩ := Prod.mk.inj (Option.some.inj h)
  obtain ⟨rfl, rfl⟩ := Prod.mk.inj hn
  obtain ⟨hlen, hpad⟩ := Framing.times_spec padding_readPattern hps
  have hc := c.toNat_lt
  exact ⟨hlen.symm, by omega, hpad⟩

end Mcu

/-! ## What a save writes -/

/-- **A save leaves the rest of the flash alone**, and the rest begins right after its
page unless the table is longer. -/
theorem Flash.apply_savePatterns_of_outside (ps : List PeriodPattern) (flash : Memory) {x : ℕ}
    (hx : x < signalPatternsDataStart ∨ signalPatternsDataStart + pageSize ≤ x ∧
      signalPatternsDataStart + 2 * halfWords ps.length ≤ x) :
    Flash.apply (savePatterns ps ps.length) flash x = flash x := by
  rw [savePatterns_eq, Flash.apply, applyAll_cons,
    applyAll_eq_of_programmed (erasePage_notMem_programBytes _ _ _), erasePage_apply,
    if_neg (by omega)]
  intro a ha
  rw [programmed_programBytes, List.mem_map] at ha
  obtain ⟨k, hk, rfl⟩ := ha
  rw [List.mem_range] at hk
  omega

/-! ## The transmitter at rest -/

namespace Sender

/-- The timer runs exactly while a list is being sent. -/
def TimerRuns (s : Sender) : Prop := s.tim14Enabled = s.sending

/-- A load keeps the timer as it is. -/
theorem timerRuns_loadPeriod {s s' : Sender} {p : PeriodPattern} (h : s.TimerRuns)
    (hload : s.loadPeriod p = some s') : s'.TimerRuns := by
  unfold loadPeriod at hload
  split at hload
  · rw [← Option.some.inj hload]
    exact h
  · exact absurd hload.symm (Option.some_ne_none s')

theorem timerRuns_tim14IrqHandler {flash : Memory} {uif : Bool} {s s' : Sender} (h : s.TimerRuns)
    (hirq : s.tim14IrqHandler flash uif = some s') : s'.TimerRuns := by
  unfold tim14IrqHandler at hirq
  split at hirq
  · obtain ⟨current, -, hirq⟩ := Option.bind_eq_some_iff.mp hirq
    split at hirq
    · unfold nextPattern at hirq
      split at hirq
      · rw [← Option.some.inj hirq]
        rfl
      · obtain ⟨next, -, hload⟩ := Option.bind_eq_some_iff.mp hirq
        exact timerRuns_loadPeriod (s := s.advance) h hload
    · exact timerRuns_loadPeriod h hirq
  · exact Option.some.inj hirq ▸ h

/-- Behind the wait nothing is being sent, and the timer is off. -/
theorem atRest_waitWhileSending {flash : Memory} {n : ℕ} {s s' : Sender} (h : s.TimerRuns)
    (hwait : s.waitWhileSending flash n = some s') :
    s'.sending = false ∧ s'.tim14Enabled = false := by
  have hsend := sending_of_waitWhileSending hwait
  have hruns : s'.TimerRuns := by
    clear hsend
    induction n generalizing s with
    | zero =>
      rw [waitWhileSending] at hwait
      split at hwait
      · exact absurd hwait.symm (Option.some_ne_none s')
      · exact Option.some.inj hwait ▸ h
    | succ n ih =>
      rw [waitWhileSending] at hwait
      split at hwait
      · split at hwait
        · exact absurd hwait.symm (Option.some_ne_none s')
        · obtain ⟨t, ht, hwait⟩ := Option.bind_eq_some_iff.mp hwait
          exact ih (timerRuns_tim14IrqHandler h ht) hwait
      · exact Option.some.inj hwait ▸ h
  exact ⟨hsend, hruns.trans hsend⟩

/-- The transmitter is at rest: no list, nothing being sent, timer off. -/
structure AtRest (s : Sender) : Prop where
  sending_eq : s.sending = false
  timer_eq : s.tim14Enabled = false
  patternIndices_eq : s.patternIndices = []
  length_eq : s.indicesArrayLength = 0

/-- **`send_434` leaves the transmitter at rest.** -/
theorem atRest_send434 {flash : Memory} {patternIndices : List UInt8} {length : UInt8} {ic ic' : Ic}
    {s s' : Sender} (h : send434 flash patternIndices length ic s = some (ic', s')) :
    s'.AtRest := by
  obtain ⟨t, ht, hs'⟩ := Option.map_eq_some_iff.mp h
  obtain ⟨start, hstart, hwait⟩ := Option.bind_eq_some_iff.mp ht
  obtain ⟨first, -, rfl⟩ := Option.map_eq_some_iff.mp hstart
  obtain ⟨-, rfl⟩ := Prod.mk.inj hs'
  obtain ⟨hsend, htimer⟩ := atRest_waitWhileSending (by exact rfl) hwait
  exact ⟨hsend, htimer, rfl, rfl⟩

end Sender

/-! ## The invariant -/

namespace Mcu

/-- A save that the command `C_SETUP` may have made. -/
def IsSave (ops : List Op) (ps : List PeriodPattern) : Prop :=
  ops = Flash.savePatterns ps ps.length ∧ ps.length ≤ 255 ∧ ∀ p ∈ ps, p.padding = 0

/-- What holds between two steps, after a start with this flash. -/
structure Sound (flash : Memory) (m : Mcu) : Prop where
  flash_eq : m.flash = flashAfter flash m.saves m.saves.length
  saves : ∀ ops ∈ m.saves, ∃ ps, IsSave ops ps
  code : ∀ x < signalPatternsDataStart, m.flash x = flash x
  behind : (∀ ops ∈ m.saves, ∃ ps, IsSave ops ps ∧ ps.length ≤ 56) →
    ∀ x, signalPatternsDataStart + pageSize ≤ x → m.flash x = flash x
  atRest : m.sender.AtRest
  toggle_eq : m.toggle = false

theorem sound_initial (flash : Memory) : Sound flash (initial flash) :=
  ⟨rfl, nofun, fun _ _ => rfl, fun _ _ _ => rfl, ⟨rfl, rfl, rfl, rfl⟩, rfl⟩

variable {flash : Memory} {m m' : Mcu}

/-- The same flash, saves, sender and flag. -/
theorem Sound.congr (h : Sound flash m) (hflash : m'.flash = m.flash) (hsaves : m'.saves = m.saves)
    (hsender : m'.sender.AtRest) (htoggle : m'.toggle = m.toggle) : Sound flash m' where
  flash_eq := by rw [hflash, hsaves, h.flash_eq]
  saves := hsaves ▸ h.saves
  code x hx := by rw [hflash, h.code x hx]
  behind hall x hx := by rw [hflash, h.behind (hsaves ▸ hall) x hx]
  atRest := hsender
  toggle_eq := htoggle.trans h.toggle_eq

/-- One more save. -/
theorem Sound.savePatterns (h : Sound flash m) {ps : List PeriodPattern} (hlen : ps.length ≤ 255)
    (hpad : ∀ p ∈ ps, p.padding = 0) : Sound flash (m.savePatterns ps ps.length) := by
  have hsave : IsSave (Flash.savePatterns ps ps.length) ps := ⟨rfl, hlen, hpad⟩
  refine ⟨?_, ?_, ?_, ?_, h.atRest, h.toggle_eq⟩
  · show Flash.apply _ m.flash = flashAfter flash (m.saves ++ [_]) (m.saves ++ [_]).length
    rw [List.length_append, List.length_singleton, flashAfter_concat, ← h.flash_eq]
  · intro ops hops
    rcases List.mem_append.mp hops with hops | hops
    · exact h.saves ops hops
    · exact ⟨ps, List.mem_singleton.mp hops ▸ hsave⟩
  · intro x hx
    show Flash.apply _ m.flash x = flash x
    rw [apply_savePatterns_of_outside ps m.flash (Or.inl hx), h.code x hx]
  · intro hall x hx
    have hfit : ps.length ≤ 56 := by
      obtain ⟨qs, ⟨heq, -, -⟩, hqs⟩ := hall (Flash.savePatterns ps ps.length)
        (List.mem_append_right _ (List.mem_singleton_self _))
      have hops := congrArg List.length heq
      rw [length_savePatterns, length_savePatterns, halfWords, halfWords] at hops
      omega
    have hwords := fits_iff_halfWords.mp (fits_iff.mpr hfit)
    show Flash.apply _ m.flash x = flash x
    rw [apply_savePatterns_of_outside ps m.flash (Or.inr ⟨hx, by omega⟩)]
    exact h.behind (fun ops hops => hall ops (List.mem_append_left _ hops)) x hx

/-- **A command keeps the invariant.** -/
theorem Sound.handleUsart (h : Sound flash m) (hcall : m.handleUsart = some m') :
    Sound flash m' := by
  rcases handleUsart_cases hcall with ⟨-, rfl⟩ | ⟨c, queue, -, hcommand⟩
  · exact h
  rcases hcommand with ⟨-, n, tmp, rest, hread, rfl⟩ | ⟨-, rfl⟩ | ⟨-, rfl⟩ | ⟨-, rfl⟩ |
    ⟨-, ic, sender, hsent, rfl⟩ | ⟨-, _, _, _, _, -, -, rfl⟩ | ⟨-, rfl⟩
  case inl =>
    obtain ⟨rfl, hlen, hpad⟩ := readPatterns_spec hread
    exact Sound.savePatterns (m := m.feed rest) (h.congr rfl rfl h.atRest rfl) hlen hpad
  case inr.inr.inr.inr.inr.inl =>
    exact h.congr rfl rfl (Sender.atRest_send434 hsent) rfl
  all_goals exact h.congr rfl rfl h.atRest rfl

end Mcu

namespace MainLoop

variable {flash : Memory} {s s' : MainLoop}

/-- **One event keeps the invariant.** -/
theorem sound_step (h : Mcu.Sound flash s.mcu) {e : MainEvent} (hstep : s.step e = some s') :
    Mcu.Sound flash s'.mcu := by
  cases e with
  | interrupt i =>
    obtain ⟨mcu, hmcu, rfl⟩ := Option.map_eq_some_iff.mp hstep
    cases i with
    | receive c | sysTick | frameStart =>
      obtain rfl := Option.some.inj hmcu
      exact h.congr rfl rfl h.atRest rfl
    | capture tim3 =>
      obtain rfl := Option.some.inj hmcu
      split <;> exact h.congr rfl rfl h.atRest rfl
  | call =>
    cases hnext : s.nextCall with
    | process =>
      simp only [MainLoop.step, hnext] at hstep
      obtain ⟨mcu, hmcu, rfl⟩ := Option.map_eq_some_iff.mp hstep
      obtain ⟨w, -, rfl⟩ := Option.map_eq_some_iff.mp hmcu
      exact h.congr rfl rfl h.atRest rfl
    | handleUsart =>
      simp only [MainLoop.step, hnext] at hstep
      obtain ⟨mcu, hmcu, rfl⟩ := Option.map_eq_some_iff.mp hstep
      exact h.handleUsart hmcu
    | processSignals =>
      simp only [MainLoop.step, hnext] at hstep
      obtain ⟨r, hr, rfl⟩ := Option.map_eq_some_iff.mp hstep
      exact h.congr rfl rfl h.atRest rfl

end MainLoop

/-- The states of the fine loop and of the loop that simulates it differ in the input
queue only. -/
theorem FineLoop.Simulates.mcu_eq {u : MainLoop} {s : FineLoop} (h : FineLoop.Simulates u s) :
    u.mcu = s.loop.mcu.feed u.mcu.inputQueue := by
  obtain ⟨loop, stage⟩ := s
  cases stage with
  | none =>
    obtain rfl : u = loop := h
    rfl
  | some p => exact congrArg MainLoop.mcu h.delayed.eq_feed

/-- **Every state of the firmware is sound**: in every run from reset, with any flash
content and any bytes on the line, and with interrupts between any two reads of a
command. -/
theorem fine_sound (flash : Memory) (es : List FineEvent) (s : FineLoop)
    (hrun : run FineLoop.step (FineLoop.initial flash) es = some s) :
    Mcu.Sound flash s.loop.mcu := by
  have hstart : FineLoop.Simulates (MainLoop.initial flash) (FineLoop.initial flash) := rfl
  obtain ⟨es', u, hu, hsim, -⟩ := hstart.run hrun
  have hsound : Mcu.Sound flash u.mcu :=
    inv_of_run (I := fun u => Mcu.Sound flash u.mcu)
      (fun u e u' h hstep => MainLoop.sound_step h hstep) (Mcu.sound_initial flash) hu
  rw [hsim.mcu_eq] at hsound
  exact hsound.congr rfl rfl hsound.atRest rfl

/-- After the slow upload too: the flash is what its save has made of it, and the code is
as it was. -/
theorem fine_sound_slowUpload :
    ∃ s, run FineLoop.step (FineLoop.initial blank) slowUpload = some s ∧
      s.loop.mcu.flash = Flash.apply syncSave blank ∧
      ∀ x < signalPatternsDataStart, s.loop.mcu.flash x = blank x := by
  have hrun : (run FineLoop.step (FineLoop.initial blank) slowUpload).map
      (fun s => s.loop.mcu.saves) = some [syncSave] := by decide +kernel
  obtain ⟨s, hs, hsaves⟩ := Option.map_eq_some_iff.mp hrun
  have hsound := fine_sound blank slowUpload s hs
  refine ⟨s, hs, ?_, hsound.code⟩
  rw [hsound.flash_eq, hsaves]
  rfl

end Stm32Adaptive
