import Stm32Adaptive.CapturePeriods
import Stm32Adaptive.Decoding
import Stm32Adaptive.Firmware

/-!
# The main loop

`main` turns round forever: `process` of the LED strip, `handle_usart`,
`process_signals`; and what the last of them finds goes to `found_indices`, unless it
is `-1`.  Between two calls any interrupts may come, in any number and order.

This file says what can be read off `found_indices`.  Whatever commands are executed
in the meantime --- the table of patterns may be replaced while samples of an old
transmission are still queued --- every sample that was queued is either in the queue
or belongs to exactly one call that took it; the samples of a call are cut off by the
first matching pattern of the table as it was at that time, or else there is one of
them; and `found_indices` lists the results of the calls that found something, none of
them changed by the conversion to a byte (`main_accounts`).

If no table is written during the run and the stored one is separate, the list is what
was sent (`main_decodes`).
-/

namespace Stm32Adaptive

open FlashMemory Flash Ic Runs

/-- The three calls in the loop of `main`. -/
inductive MainCall where
  | process
  | handleUsart
  | processSignals
  deriving DecidableEq

/-- The interrupts that are served between two calls. -/
inductive Interrupt where
  /-- `USART1_IRQHandler` queues a byte. -/
  | receive (c : UInt8)
  /-- `SysTick_Handler`. -/
  | sysTick
  /-- `TIM3_IRQHandler`, if it is enabled. -/
  | capture (tim3 : Tim3)
  /-- The DMA of the LED strip starts a frame. -/
  | frameStart

/-- What the interrupt does to the firmware. -/
def Interrupt.event : Interrupt → FirmwareEvent
  | .receive c => .receive c
  | .sysTick => .clock 1
  | .capture tim3 => .capture tim3
  | .frameStart => .frameStart

/-- An interrupt, or the next call of the loop. -/
inductive MainEvent where
  | interrupt (i : Interrupt)
  | call

/-- History: what one call of `process_signals` took off the queue. -/
structure Segment where
  /-- The flash during the call. -/
  flash : Memory
  /-- What the call returned. -/
  result : ℤ
  samples : List UInt16

/-- The state of `main`. -/
structure MainLoop where
  mcu : Mcu
  /-- The call that comes next. -/
  nextCall : MainCall
  /-- `interface::found_indices`. -/
  foundIndices : List UInt8
  /-- History: the samples that have been queued. -/
  accepted : List UInt16
  /-- History: the calls that looked at a full window, after the delay. -/
  segments : List Segment

namespace MainLoop

/-- The queue of samples. -/
abbrev queue (s : MainLoop) : List UInt16 := s.mcu.ic.signalBuffer.queue

/-- Before the first round. -/
def initial (flash : Memory) : MainLoop := ⟨Mcu.initial flash, .process, [], [], []⟩

/-- The end of the loop body: `found_indices` is a queue of bytes. -/
def afterSignals (s : MainLoop) (found : ℤ) (ic : Ic) : MainLoop :=
  let taken := s.queue.take (s.queue.length - ic.signalBuffer.queue.length)
  { s with
    mcu := { s.mcu with ic := ic }
    nextCall := .process
    foundIndices := if found ≠ -1 then s.foundIndices ++ [UInt8.ofInt found] else s.foundIndices
    segments :=
      if Eligible s.mcu.systick s.mcu.ic then s.segments ++ [⟨s.mcu.flash, found, taken⟩]
      else s.segments }

/-- One event; `none` is undefined behaviour or a call that does not come back. -/
def step (s : MainLoop) : MainEvent → Option MainLoop
  | .interrupt i => (s.mcu.step i.event).map fun mcu =>
    { s with
      mcu := mcu
      accepted := s.accepted ++ mcu.ic.signalBuffer.queue.drop s.queue.length }
  | .call =>
    match s.nextCall with
    | .process => (s.mcu.step .ledProcess).map fun mcu =>
      { s with mcu := mcu, nextCall := .handleUsart }
    | .handleUsart => s.mcu.handleUsart.map fun mcu =>
      { s with mcu := mcu, nextCall := .processSignals }
    | .processSignals =>
      (Ic.processSignals s.mcu.flash s.mcu.systick s.mcu.ic).map fun r => s.afterSignals r.1 r.2

end MainLoop

/-! ## Segments cut off one after the other -/

/-- The call cut its samples off the front of these. -/
def Segment.CutFrom (seg : Segment) (samples : List UInt16) : Prop :=
  (∃ (i : ℕ) (p : PeriodPattern), seg.result = i ∧ storedPattern seg.flash i = some p ∧
    p.matchWindow (frontWindow samples) = true ∧ NoMatchBelow seg.flash (frontWindow samples) i ∧
    seg.samples = samples.take p.getLength) ∨
  (∃ i : ℕ, seg.result = -1 ∧ storedPattern seg.flash i = none ∧
    NoMatchBelow seg.flash (frontWindow samples) i ∧ seg.samples = samples.take 1)

/-- Each segment was cut off a full window, where the one before it ended. -/
def CutInOrder : List Segment → List UInt16 → Prop
  | [], _ => True
  | seg :: segs, samples =>
    8 ≤ samples.length ∧ seg.CutFrom samples ∧ CutInOrder segs (samples.drop seg.samples.length)

theorem Segment.CutFrom.length_le {seg : Segment} {samples : List UInt16}
    (h : seg.CutFrom samples) : seg.samples.length ≤ 8 := by
  rcases h with ⟨_, p, -, -, -, -, hsamples⟩ | ⟨_, -, -, -, hsamples⟩
  · rw [hsamples]
    exact (List.length_take_le _ _).trans p.getLength_le
  · rw [hsamples]
    exact (List.length_take_le _ _).trans (by decide)

/-- What comes later does not change the cut. -/
theorem Segment.CutFrom.append {seg : Segment} {samples : List UInt16} (h : seg.CutFrom samples)
    (hlen : 8 ≤ samples.length) (m : List UInt16) : seg.CutFrom (samples ++ m) := by
  rcases h with ⟨i, p, hresult, hstored, hmatch, hbelow, hsamples⟩ |
    ⟨i, hresult, hnull, hbelow, hsamples⟩
  · have hle := p.getLength_le
    refine Or.inl ⟨i, p, hresult, hstored, ?_, ?_, ?_⟩
    · rwa [frontWindow_append hlen]
    · rwa [frontWindow_append hlen]
    · rw [hsamples, List.take_append_of_le_length (by omega)]
  · refine Or.inr ⟨i, hresult, hnull, ?_, ?_⟩
    · rwa [frontWindow_append hlen]
    · rw [hsamples, List.take_append_of_le_length (by omega)]

theorem CutInOrder.append {segs : List Segment} {samples : List UInt16}
    (h : CutInOrder segs samples) (m : List UInt16) : CutInOrder segs (samples ++ m) := by
  induction segs generalizing samples with
  | nil => trivial
  | cons seg segs ih =>
    obtain ⟨hlen, hcut, hrest⟩ := h
    have hle := hcut.length_le
    refine ⟨?_, hcut.append hlen m, ?_⟩
    · rw [List.length_append]
      omega
    · rw [List.drop_append_of_le_length (hle.trans hlen)]
      exact ih hrest

/-- One more segment, cut off what the others have left. -/
theorem CutInOrder.concat {segs : List Segment} {samples queue : List UInt16}
    (h : CutInOrder segs samples) (hqueue : samples = (segs.map Segment.samples).flatten ++ queue)
    {seg : Segment} (hlen : 8 ≤ queue.length) (hcut : seg.CutFrom queue) :
    CutInOrder (segs ++ [seg]) samples := by
  induction segs generalizing samples with
  | nil =>
    rw [List.map_nil, List.flatten_nil, List.nil_append] at hqueue
    exact hqueue ▸ ⟨hlen, hcut, trivial⟩
  | cons s segs ih =>
    obtain ⟨hfull, hfirst, hrest⟩ := h
    refine ⟨hfull, hfirst, ih hrest ?_⟩
    rw [hqueue, List.map_cons, List.flatten_cons, List.append_assoc, List.drop_left]

/-! ## What the other operations leave alone -/

namespace Mcu

/-- A command does not touch the queued samples. -/
theorem signalBuffer_handleUsart {m m' : Mcu} (h : m.handleUsart = some m') :
    m'.ic.signalBuffer = m.ic.signalBuffer := by
  rcases handleUsart_cases h with ⟨-, rfl⟩ | ⟨c, queue, -, hcommand⟩
  · rfl
  rcases hcommand with ⟨-, _, _, _, -, rfl⟩ | ⟨-, rfl⟩ | ⟨-, rfl⟩ | ⟨-, rfl⟩ |
    ⟨-, ic, sender, hsent, rfl⟩ | ⟨-, _, _, _, _, -, -, rfl⟩ | ⟨-, rfl⟩
  case inr.inr.inr.inr.inr.inl =>
    show ic.signalBuffer = _
    rw [Sender.ic_of_send434 hsent]
    rfl
  all_goals rfl

/-- A command writes to the flash only by a call of `savePatterns`. -/
theorem flash_handleUsart {m m' : Mcu} (h : m.handleUsart = some m') :
    (m'.flash = m.flash ∧ m'.saves = m.saves) ∨
      ∃ ops, m'.flash = Flash.apply ops m.flash ∧ m'.saves = m.saves ++ [ops] := by
  rcases handleUsart_cases h with ⟨-, rfl⟩ | ⟨c, queue, -, hcommand⟩
  · exact Or.inl ⟨rfl, rfl⟩
  rcases hcommand with ⟨-, n, tmp, _, -, rfl⟩ | ⟨-, rfl⟩ | ⟨-, rfl⟩ | ⟨-, rfl⟩ |
    ⟨-, _, _, -, rfl⟩ | ⟨-, _, _, _, _, -, -, rfl⟩ | ⟨-, rfl⟩
  case inl => exact Or.inr ⟨Flash.savePatterns tmp n, rfl, rfl⟩
  all_goals exact Or.inl ⟨rfl, rfl⟩

/-- The flash after the first `k` saves of the list. -/
def flashAfter (flash : Memory) (saves : List (List Op)) (k : ℕ) : Memory :=
  (saves.take k).foldl (fun flash ops => Flash.apply ops flash) flash

theorem flashAfter_append {saves : List (List Op)} {k : ℕ} (hk : k ≤ saves.length)
    (flash : Memory) (more : List (List Op)) :
    flashAfter flash (saves ++ more) k = flashAfter flash saves k := by
  rw [flashAfter, flashAfter, List.take_append_of_le_length hk]

theorem flashAfter_concat (flash : Memory) (saves : List (List Op)) (ops : List Op) :
    flashAfter flash (saves ++ [ops]) (saves.length + 1) =
      Flash.apply ops (flashAfter flash saves saves.length) := by
  have hlen : saves.length + 1 = (saves ++ [ops]).length := by rw [List.length_append]; rfl
  rw [flashAfter, flashAfter, hlen, List.take_length, List.take_length, List.foldl_concat]

end Mcu

/-- A capture queues at most one sample, at the end, and it is a pulse. -/
theorem queue_tim3IrqHandler (systick : UInt64) (tim3 : Tim3) (ic : Ic) :
    ∃ new, (Ic.tim3IrqHandler systick tim3 ic).2.signalBuffer.queue =
      ic.signalBuffer.queue ++ new ∧ ∀ v ∈ new, CaptureLine.IsPulse v.toNat := by
  have hcapture : ∃ new, (Ic.handleCapture systick tim3.ccr1 ic).signalBuffer.queue =
      ic.signalBuffer.queue ++ new ∧ ∀ v ∈ new, CaptureLine.IsPulse v.toNat := by
    rw [Ic.handleCapture, CaptureLine.capturedPeriod_eq]
    split_ifs with hpulse
    · rcases Nat.lt_or_ge ic.signalBuffer.queue.length signalBufferSize with hroom | hfull
      · refine ⟨[tim3.ccr1], SignalBuffer.queue_push_of_lt hroom _, ?_⟩
        intro v hv
        rw [List.mem_singleton.mp hv]
        exact hpulse.2
      · refine ⟨[], ?_, nofun⟩
        show (ic.signalBuffer.push tim3.ccr1).queue = _
        rw [SignalBuffer.push_of_full hfull, List.append_nil]
    · exact ⟨[], (List.append_nil _).symm, nofun⟩
  unfold Ic.tim3IrqHandler
  cases tim3.cc1if with
  | true =>
    obtain ⟨new, hnew, hpulse⟩ := hcapture
    refine ⟨new, ?_, hpulse⟩
    cases tim3.uif <;> simpa only [if_true, Bool.false_eq_true, if_false] using hnew
  | false =>
    refine ⟨[], ?_, nofun⟩
    cases tim3.uif <;> simp only [Bool.false_eq_true, if_false, if_true, List.append_nil]

namespace MainLoop

/-! ## Runs -/

/-- An interrupt queues samples at the end, and all of them are pulses; the flash is not
written. -/
theorem step_interrupt {s s' : MainLoop} {i : Interrupt} (h : s.step (.interrupt i) = some s') :
    ∃ mcu new, s' = { s with mcu := mcu, accepted := s.accepted ++ new } ∧
      s'.queue = s.queue ++ new ∧ mcu.flash = s.mcu.flash ∧ mcu.saves = s.mcu.saves ∧
      ∀ v ∈ new, CaptureLine.IsPulse v.toNat := by
  obtain ⟨mcu, hmcu, rfl⟩ := Option.map_eq_some_iff.mp h
  have hnew : ∃ new, mcu.ic.signalBuffer.queue = s.queue ++ new ∧ mcu.flash = s.mcu.flash ∧
      mcu.saves = s.mcu.saves ∧ ∀ v ∈ new, CaptureLine.IsPulse v.toNat := by
    cases i with
    | receive c | sysTick | frameStart =>
      obtain rfl := Option.some.inj hmcu
      exact ⟨[], (List.append_nil _).symm, rfl, rfl, nofun⟩
    | capture tim3 =>
      obtain rfl := Option.some.inj hmcu
      by_cases henabled : s.mcu.ic.enabled = true
      · obtain ⟨new, hqueue, hpulse⟩ := queue_tim3IrqHandler s.mcu.systick tim3 s.mcu.ic
        rw [if_pos henabled]
        exact ⟨new, hqueue, rfl, rfl, hpulse⟩
      · rw [if_neg henabled]
        exact ⟨[], (List.append_nil _).symm, rfl, rfl, nofun⟩
  obtain ⟨new, hqueue, hflash, hsaves, hpulse⟩ := hnew
  refine ⟨mcu, new, ?_, hqueue, hflash, hsaves, hpulse⟩
  rw [hqueue, List.drop_left]

/-- **What a call of `process_signals` takes**: nothing, if it is not eligible, and else
a segment that it cuts off the queue. -/
theorem afterSignals_cases {s : MainLoop} {r : ℤ × Ic}
    (h : Ic.processSignals s.mcu.flash s.mcu.systick s.mcu.ic = some r) :
    (r.1 = -1 ∧ (s.afterSignals r.1 r.2).segments = s.segments ∧
      (s.afterSignals r.1 r.2).queue = s.queue) ∨
    (8 ≤ s.queue.length ∧ ∃ seg : Segment, seg.flash = s.mcu.flash ∧ seg.result = r.1 ∧
      seg.CutFrom s.queue ∧ (s.afterSignals r.1 r.2).segments = s.segments ++ [seg] ∧
      s.queue = seg.samples ++ (s.afterSignals r.1 r.2).queue) := by
  have htake : ∀ {n : ℕ} {b : SignalBuffer}, n ≤ s.queue.length → b.queue = s.queue.drop n →
      s.queue.take (s.queue.length - b.queue.length) = s.queue.take n := by
    intro n b hn hb
    rw [hb, List.length_drop, Nat.sub_sub_self hn]
  rcases processSignals_cases s.mcu.flash s.mcu.systick s.mcu.ic with
    ⟨helig, hcall⟩ | ⟨helig, i, p, b, hstored, hmatch, hbelow, hqueue, hcall⟩ |
    ⟨helig, i, b, hnull, hbelow, hqueue, hcall⟩
  · obtain rfl := Option.some.inj (hcall.symm.trans h)
    exact Or.inl ⟨rfl, if_neg helig, rfl⟩
  · obtain rfl := Option.some.inj (hcall.symm.trans h)
    have hle : p.getLength ≤ s.queue.length := p.getLength_le.trans helig.1
    refine Or.inr ⟨helig.1, ⟨s.mcu.flash, i, s.queue.take p.getLength⟩, rfl, rfl,
      Or.inl ⟨i, p, rfl, hstored, hmatch, hbelow, rfl⟩, ?_, ?_⟩
    · simp only [afterSignals, if_pos helig, htake hle hqueue]
    · show s.queue = _ ++ b.queue
      rw [hqueue, List.take_append_drop]
  · obtain rfl := Option.some.inj (hcall.symm.trans h)
    have hle : 1 ≤ s.queue.length := Nat.le_trans (by decide) helig.1
    refine Or.inr ⟨helig.1, ⟨s.mcu.flash, -1, s.queue.take 1⟩, rfl, rfl,
      Or.inr ⟨i, rfl, hnull, hbelow, rfl⟩, ?_, ?_⟩
    · simp only [afterSignals, if_pos helig, htake hle hqueue]
    · show s.queue = _ ++ b.queue
      rw [hqueue, List.take_append_drop]

/-- The books of the loop, from a flash it started with. -/
structure Accounts (flash : Memory) (s : MainLoop) : Prop where
  /-- Every sample that was queued belongs to one segment, or is still there. -/
  accepted_eq : s.accepted = (s.segments.map Segment.samples).flatten ++ s.queue
  pulse : ∀ v ∈ s.accepted, CaptureLine.IsPulse v.toNat
  cuts : CutInOrder s.segments s.accepted
  /-- What was found, as numbers. -/
  found_eq : s.foundIndices.map (fun i => (i.toNat : ℤ)) =
    (s.segments.map Segment.result).filter (· ≠ -1)
  flash_eq : s.mcu.flash = Mcu.flashAfter flash s.mcu.saves s.mcu.saves.length
  /-- Each segment was cut with a table that was stored at some time. -/
  table : ∀ seg ∈ s.segments, ∃ k ≤ s.mcu.saves.length,
    seg.flash = Mcu.flashAfter flash s.mcu.saves k

theorem accounts_initial (flash : Memory) : Accounts flash (initial flash) where
  accepted_eq := rfl
  pulse := nofun
  cuts := trivial
  found_eq := rfl
  flash_eq := rfl
  table := nofun

variable {flash : Memory} {s s' : MainLoop}

theorem Accounts.interrupt (h : Accounts flash s) {i : Interrupt}
    (hstep : s.step (.interrupt i) = some s') : Accounts flash s' := by
  obtain ⟨mcu, new, rfl, hqueue, hflash, hsaves, hpulse⟩ := step_interrupt hstep
  constructor
  · show s.accepted ++ new = _ ++ mcu.ic.signalBuffer.queue
    rw [show mcu.ic.signalBuffer.queue = s.queue ++ new from hqueue, h.accepted_eq,
      List.append_assoc]
  · intro v hv
    rcases List.mem_append.mp hv with hv | hv
    · exact h.pulse v hv
    · exact hpulse v hv
  · exact h.cuts.append new
  · exact h.found_eq
  · show mcu.flash = Mcu.flashAfter flash mcu.saves mcu.saves.length
    rw [hflash, hsaves]
    exact h.flash_eq
  · show ∀ seg ∈ s.segments, ∃ k ≤ mcu.saves.length, _ = Mcu.flashAfter flash mcu.saves k
    rw [hsaves]
    exact h.table

/-- A call that leaves the queue alone, and either the flash or makes one save. -/
theorem Accounts.call (h : Accounts flash s) {mcu : Mcu} (nextCall : MainCall)
    (hqueue : mcu.ic.signalBuffer = s.mcu.ic.signalBuffer)
    (hflash : (mcu.flash = s.mcu.flash ∧ mcu.saves = s.mcu.saves) ∨
      ∃ ops, mcu.flash = Flash.apply ops s.mcu.flash ∧ mcu.saves = s.mcu.saves ++ [ops]) :
    Accounts flash { s with mcu := mcu, nextCall := nextCall } := by
  refine ⟨?_, h.pulse, h.cuts, h.found_eq, ?_, ?_⟩
  · show s.accepted = _ ++ mcu.ic.signalBuffer.queue
    rw [hqueue]
    exact h.accepted_eq
  · show mcu.flash = Mcu.flashAfter flash mcu.saves mcu.saves.length
    rcases hflash with ⟨hflash, hsaves⟩ | ⟨ops, hflash, hsaves⟩
    · rw [hflash, hsaves]
      exact h.flash_eq
    · rw [hflash, hsaves, List.length_append, List.length_singleton, Mcu.flashAfter_concat,
        ← h.flash_eq]
  · intro seg hseg
    obtain ⟨k, hk, htable⟩ := h.table seg hseg
    refine ⟨k, ?_, ?_⟩
    · rcases hflash with ⟨-, hsaves⟩ | ⟨ops, -, hsaves⟩
      · exact hsaves ▸ hk
      · show k ≤ mcu.saves.length
        rw [hsaves, List.length_append]
        exact Nat.le_add_right_of_le hk
    · show seg.flash = Mcu.flashAfter flash mcu.saves k
      rcases hflash with ⟨-, hsaves⟩ | ⟨ops, -, hsaves⟩
      · rw [hsaves]
        exact htable
      · rw [hsaves, Mcu.flashAfter_append hk]
        exact htable

/-- An index fits in a byte: the number of records does. -/
theorem toNat_ofInt_of_cutFrom {seg : Segment} {samples : List UInt16} (h : seg.CutFrom samples)
    (hfound : seg.result ≠ -1) : ((UInt8.ofInt seg.result).toNat : ℤ) = seg.result := by
  rcases h with ⟨i, p, hresult, hstored, -⟩ | ⟨_, hresult, -⟩
  · obtain ⟨addr, haddr, -⟩ := Option.map_eq_some_iff.mp hstored
    have hlt := lt_of_getPattern haddr
    rw [hresult, UInt8.ofInt, UInt8.toNat_ofNat']
    omega
  · exact absurd hresult hfound

theorem Accounts.processSignals (h : Accounts flash s) {r : ℤ × Ic}
    (hcall : Ic.processSignals s.mcu.flash s.mcu.systick s.mcu.ic = some r) :
    Accounts flash (s.afterSignals r.1 r.2) := by
  rcases afterSignals_cases hcall with
    ⟨hresult, hsegments, hqueue⟩ | ⟨hlen, seg, hflash, hresult, hcut, hsegments, hqueue⟩
  · refine ⟨?_, h.pulse, ?_, ?_, h.flash_eq, ?_⟩
    · rw [hsegments, hqueue]
      exact h.accepted_eq
    · rw [hsegments]
      exact h.cuts
    · rw [hsegments]
      show (if r.1 ≠ -1 then s.foundIndices ++ [UInt8.ofInt r.1] else s.foundIndices).map _ = _
      rw [if_neg (not_not.mpr hresult)]
      exact h.found_eq
    · rw [hsegments]
      exact h.table
  · refine ⟨?_, h.pulse, ?_, ?_, h.flash_eq, ?_⟩
    · show s.accepted = _
      rw [hsegments, h.accepted_eq, hqueue, List.map_append, List.flatten_append,
        List.map_singleton, List.flatten_singleton, List.append_assoc]
    · rw [hsegments]
      exact h.cuts.concat h.accepted_eq hlen hcut
    · rw [hsegments, List.map_append, List.filter_append, ← h.found_eq, List.map_singleton]
      show (if r.1 ≠ -1 then s.foundIndices ++ [UInt8.ofInt r.1] else s.foundIndices).map _ = _
      rw [← hresult]
      by_cases hfound : seg.result = -1
      · simp [hfound]
      · simp [hfound, toNat_ofInt_of_cutFrom hcut hfound]
    · rw [hsegments]
      intro t ht
      rcases List.mem_append.mp ht with ht | ht
      · exact h.table t ht
      · rw [List.mem_singleton.mp ht, hflash]
        exact ⟨_, le_refl _, h.flash_eq⟩

theorem Accounts.step (h : Accounts flash s) {e : MainEvent} (hstep : s.step e = some s') :
    Accounts flash s' := by
  cases e with
  | interrupt i => exact h.interrupt hstep
  | call =>
    cases hnext : s.nextCall with
    | process =>
      simp only [MainLoop.step, hnext] at hstep
      obtain ⟨mcu, hmcu, rfl⟩ := Option.map_eq_some_iff.mp hstep
      obtain ⟨w, -, rfl⟩ := Option.map_eq_some_iff.mp hmcu
      exact h.call .handleUsart rfl (Or.inl ⟨rfl, rfl⟩)
    | handleUsart =>
      simp only [MainLoop.step, hnext] at hstep
      obtain ⟨mcu, hmcu, rfl⟩ := Option.map_eq_some_iff.mp hstep
      exact h.call .processSignals (Mcu.signalBuffer_handleUsart hmcu) (Mcu.flash_handleUsart hmcu)
    | processSignals =>
      simp only [MainLoop.step, hnext] at hstep
      obtain ⟨r, hr, rfl⟩ := Option.map_eq_some_iff.mp hstep
      exact h.processSignals hr

end MainLoop

/-- **The books of the main loop.**  In every run of `main` from reset, with any flash
content, any commands and any interrupts: the samples that were queued are those of
the segments, in order, and then those still in the queue; all of them are lengths of
pulses; each segment was cut by the first matching pattern of the table stored at that
time, or is one sample if none matched; and `found_indices` holds the indices found, in
order. -/
theorem main_accounts (flash : Memory) (es : List MainEvent) (s : MainLoop)
    (hrun : run MainLoop.step (MainLoop.initial flash) es = some s) :
    s.accepted = (s.segments.map Segment.samples).flatten ++ s.queue ∧
    (∀ v ∈ s.accepted, 200 ≤ v.toNat ∧ v.toNat < 65535) ∧
    CutInOrder s.segments s.accepted ∧
    (∀ seg ∈ s.segments, ∃ k ≤ s.mcu.saves.length,
      seg.flash = Mcu.flashAfter flash s.mcu.saves k) ∧
    s.foundIndices.map (fun i => (i.toNat : ℤ)) =
      (s.segments.map Segment.result).filter (· ≠ -1) := by
  have h : MainLoop.Accounts flash s :=
    inv_of_run (fun s e s' hs hstep => MainLoop.Accounts.step hs hstep)
      (MainLoop.accounts_initial flash) hrun
  exact ⟨h.accepted_eq, h.pulse, h.cuts, h.table, h.found_eq⟩

/-- The host starts the capture, the message comes with some noise, and the loop goes
round for a second of silence and twice more. -/
def noisyRun : List MainEvent :=
  [.interrupt (.receive Mcu.cStart), .call, .call, .call] ++
    (noisyMessage.map Prod.snd).flatten.map
      (fun v => .interrupt (.capture ⟨false, true, false, v⟩)) ++
    List.replicate 1000 (.interrupt .sysTick) ++ List.replicate 6 .call

theorem run_noisyRun :
    ∃ s, run MainLoop.step (MainLoop.initial syncZeroOneFlash) noisyRun = some s ∧
      s.accepted = (noisyMessage.map Prod.snd).flatten ∧ s.mcu.saves = [] ∧
      s.foundIndices = [0, 2] := by
  have hrun : (run MainLoop.step (MainLoop.initial syncZeroOneFlash) noisyRun).map
      (fun s => (s.accepted, s.mcu.saves.length, s.foundIndices)) =
      some ((noisyMessage.map Prod.snd).flatten, 0, [0, 2]) := by decide +kernel
  obtain ⟨s, hs, hstate⟩ := Option.map_eq_some_iff.mp hrun
  exact ⟨s, hs, congrArg Prod.fst hstate,
    List.length_eq_zero_iff.mp (congrArg (fun state => state.2.1) hstate),
    congrArg (fun state => state.2.2) hstate⟩

/-- The samples of the sync bit and the one make two segments. -/
theorem main_accounts_noisyRun :
    ∃ s, run MainLoop.step (MainLoop.initial syncZeroOneFlash) noisyRun = some s ∧
      CutInOrder s.segments s.accepted ∧
      [0, 2] = (s.segments.map Segment.result).filter (· ≠ -1) := by
  obtain ⟨s, hs, -, -, hfound⟩ := run_noisyRun
  obtain ⟨-, -, hcuts, -, hresults⟩ := main_accounts syncZeroOneFlash noisyRun s hs
  rw [hfound] at hresults
  exact ⟨s, hs, hcuts, hresults⟩

/-! ## What is found is what was sent -/

/-- **A segment of a padded table is a token of the receiver.** -/
theorem Segment.CutFrom.cutFront_eq {seg : Segment} {samples : List UInt16}
    (h : seg.CutFrom samples) (hpad : Padded seg.flash) :
    (cutFront seg.flash samples).1 = seg.result ∧
      samples.take (cutFront seg.flash samples).2 = seg.samples := by
  have hno : ∀ {i j : ℕ}, NoMatchBelow seg.flash (frontWindow samples) i → j < i →
      ¬ matchesAt seg.flash (frontWindow samples) j = true := by
    intro i j hbelow hj hmatch
    obtain ⟨p, hp, hmatch⟩ := matchesAt_eq_true_iff.mp hmatch
    obtain ⟨q, hq, hqmatch⟩ := hbelow j hj
    rw [Option.some.inj (hq.symm.trans hp), hmatch] at hqmatch
    exact absurd hqmatch Bool.false_ne_true.symm
  rcases h with ⟨i, p, hresult, hstored, hmatch, hbelow, hsamples⟩ |
    ⟨i, hresult, hnull, hbelow, hsamples⟩
  · have hi : i < 256 := by
      obtain ⟨addr, haddr, -⟩ := Option.map_eq_some_iff.mp hstored
      have := lt_of_getPattern haddr
      omega
    have hfind : (List.range 256).find? (matchesAt seg.flash (frontWindow samples)) = some i :=
      List.find?_range_eq_some.mpr ⟨matchesAt_eq_true_iff.mpr ⟨p, hstored, hmatch⟩,
        List.mem_range.mpr hi, fun j hj => by simpa using hno hbelow hj⟩
    simp only [cutFront, hfind, storedLength, hstored, hresult, hsamples, and_self]
  · have hfind : (List.range 256).find? (matchesAt seg.flash (frontWindow samples)) = none := by
      rw [List.find?_eq_none]
      intro j _ hj
      rcases Nat.lt_or_ge j i with hlt | hge
      · exact hno hbelow hlt hj
      · obtain ⟨p, hp, -⟩ := matchesAt_eq_true_iff.mp hj
        rw [hpad.storedPattern_eq_none hnull hge] at hp
        exact absurd hp.symm (Option.some_ne_none p)
    simp only [cutFront, hfind, hresult, hsamples, and_self]

/-- The segments as the receiver writes them. -/
def tokensOf (segs : List Segment) : List (ℤ × List UInt16) :=
  segs.map fun seg => (seg.result, seg.samples)

/-- With one padded table, the segments are the first tokens. -/
theorem CutInOrder.prefix_tokens {flash : Memory} (hpad : Padded flash) {segs : List Segment}
    {samples : List UInt16} (h : CutInOrder segs samples)
    (hflash : ∀ seg ∈ segs, seg.flash = flash) :
    tokensOf segs <+: ((receiverTokeniser flash).tokens samples).1 := by
  induction segs generalizing samples with
  | nil => exact List.nil_prefix
  | cons seg segs ih =>
    obtain ⟨hlen, hcut, hrest⟩ := h
    obtain ⟨hseg, hsegs⟩ := List.forall_mem_cons.mp hflash
    subst hseg
    obtain ⟨hresult, hsamples⟩ := hcut.cutFront_eq hpad
    have hle : (cutFront seg.flash samples).2 ≤ samples.length :=
      (one_le_cutFront seg.flash samples).2.trans hlen
    have hcount : (cutFront seg.flash samples).2 = seg.samples.length := by
      rw [← hsamples, List.length_take, Nat.min_eq_left hle]
    rw [GreedyTokeniser.tokens_of_window_le hlen]
    show (seg.result, seg.samples) :: tokensOf segs <+:
      ((cutFront seg.flash samples).1, samples.take (cutFront seg.flash samples).2) :: _
    rw [hresult, hsamples]
    refine (List.prefix_cons_inj _).mpr ?_
    rw [show ((receiverTokeniser seg.flash).cut samples).2 = seg.samples.length from hcount]
    exact ih hrest hsegs

/-- The indices of a message have all been found. -/
theorem found_words (message : List (ℕ × List UInt16)) :
    ((words message).map Prod.fst).filter (· ≠ -1) =
      message.map fun word => (word.1 : ℤ) := by
  rw [words, List.map_map, List.filter_eq_self.mpr]
  · rfl
  · intro v hv
    obtain ⟨word, -, rfl⟩ := List.mem_map.mp hv
    simp only [Function.comp_apply, ne_eq, decide_not, Bool.not_eq_true', decide_eq_false_iff_not]
    omega

/-- **`found_indices` is the message.**  In a run of `main` during which no table is
stored, let the stored table be separate, and let the samples that were queued be those
of a message, each pattern within its tolerances; the message may break off.  Then
`found_indices` holds the first indices of the message, and the queue the samples of the
rest. -/
theorem main_decodes {flash : Memory} {ps : List PeriodPattern} (hstores : Stores flash ps)
    (hsep : ps.Pairwise PeriodPattern.Separate) {es : List MainEvent} {s : MainLoop}
    (hrun : run MainLoop.step (MainLoop.initial flash) es = some s) (hsaves : s.mcu.saves = [])
    {message : List (ℕ × List UInt16)} (hmessage : ReceivedAs ps message)
    (haccepted : s.accepted <+: (message.map Prod.snd).flatten) :
    ∃ m, s.foundIndices.map UInt8.toNat = (message.take m).map Prod.fst ∧
      s.accepted = ((message.take m).map Prod.snd).flatten ++ s.queue := by
  have h : MainLoop.Accounts flash s :=
    inv_of_run (fun s e s' hs hstep => MainLoop.Accounts.step hs hstep)
      (MainLoop.accounts_initial flash) hrun
  have hflash : ∀ seg ∈ s.segments, seg.flash = flash := by
    intro seg hseg
    obtain ⟨k, -, htable⟩ := h.table seg hseg
    rw [htable, hsaves, Mcu.flashAfter, List.take_nil, List.foldl_nil]
  obtain ⟨m, hm⟩ := exists_eq_words_take hstores hsep hmessage haccepted
    (h.cuts.prefix_tokens hstores.padded hflash)
  have hresults : s.segments.map Segment.result = (words (message.take m)).map Prod.fst := by
    rw [← hm, tokensOf, List.map_map]
    rfl
  have hsamples : s.segments.map Segment.samples = (message.take m).map Prod.snd := by
    rw [← samples_words, ← hm, tokensOf, List.map_map]
    rfl
  refine ⟨m, ?_, hsamples ▸ h.accepted_eq⟩
  have hfound := h.found_eq
  rw [hresults, found_words] at hfound
  have hinj : Function.Injective (Nat.cast : ℕ → ℤ) := fun _ _ heq => Int.ofNat_inj.mp heq
  apply List.map_injective_iff.mpr hinj
  rw [List.map_map, List.map_map]
  exact hfound

/-- The sync bit and the one are found; the zero is too short for the window. -/
theorem main_decodes_noisyRun :
    ∃ s, run MainLoop.step (MainLoop.initial syncZeroOneFlash) noisyRun = some s ∧
      ∃ m, s.foundIndices.map UInt8.toNat = (noisyMessage.take m).map Prod.fst ∧
        s.accepted = ((noisyMessage.take m).map Prod.snd).flatten ++ s.queue := by
  obtain ⟨s, hs, haccepted, hsaves, -⟩ := run_noisyRun
  exact ⟨s, hs, main_decodes stores_syncZeroOneFlash pairwise_separate_syncZeroOne hs hsaves
    receivedAs_noisyMessage (haccepted ▸ List.prefix_rfl)⟩

end Stm32Adaptive
