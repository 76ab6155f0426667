import Stm32Adaptive.CapturePeriods
import Stm32Adaptive.Decoding
import Stm32Adaptive.RadioLine

/-!
# From chip to chip

One chip sends a message, another one with the same table listens.  In between are
the sender's interrupts, the edges of the line, the capture timer and its interrupt
handler, the signal buffer and the main loop of the receiver; each has its own file,
and here they are put together.

A period of `v` ticks is on the line for `v + 1`.  A table is receivable if this is a
pulse for the capture handler and within the tolerance of each of its patterns, and
it is separate if no two of its patterns can be taken for each other.  For such a
table `radio_link` says that what the main loop of the receiver finds are the
indices that were sent, from the first on, in order and with none between, until fewer
than eight samples are left.
-/

namespace Stm32Adaptive

open FlashMemory Flash Ic Runs CaptureLine

/-! ## What is heard of a pattern -/

namespace PeriodPattern

/-- On the line each period of the pattern is a pulse, and one that the pattern
accepts. -/
def Receivable (p : PeriodPattern) : Prop :=
  1 ≤ p.getLength ∧ ∀ i : Fin 8, i.val < p.getLength →
    199 ≤ (p.periods i).toNat ∧ (p.periods i).toNat < 65534 ∧
      255 ≤ (p.periods i).toNat * p.toleranceMul255.toNat

instance (p : PeriodPattern) : Decidable p.Receivable := inferInstanceAs (Decidable (_ ∧ _))

/-- The samples of the pattern, if it is captured from the line. -/
def heard (p : PeriodPattern) : List UInt16 := p.activePeriods.map fun value => value + 1

variable {p : PeriodPattern}

theorem mem_activePeriods_iff {value : UInt16} :
    value ∈ p.activePeriods ↔ ∃ i : Fin 8, i.val < p.getLength ∧ p.periods i = value := by
  simp only [activePeriods, List.mem_map, mem_take_finRange]

theorem toNat_add_one {value : UInt16} (h : value.toNat < 65534) :
    (value + 1).toNat = value.toNat + 1 := by
  rw [UInt16.toNat_add, UInt16.toNat_one]
  omega

theorem frontWindow_heard {i : Fin 8} (hi : i.val < p.getLength) :
    frontWindow p.heard i = p.periods i + 1 := by
  have hlen : i.val < p.heard.length := by
    rwa [heard, List.length_map, length_activePeriods]
  rw [frontWindow, List.getD_eq_getElem _ _ hlen]
  simp [heard, activePeriods]

/-- **A receivable pattern is received from the line.** -/
theorem Receivable.receives (h : p.Receivable) : p.Receives p.heard where
  length_eq := by rw [heard, List.length_map, length_activePeriods]
  matches_front := by
    refine matchWindow_eq_true_iff.mpr ⟨h.1, fun i hi => ?_⟩
    obtain ⟨-, hmax, htolerance⟩ := h.2 i hi
    have hsucc := toNat_add_one hmax
    rw [Accepts, frontWindow_heard hi, hsucc]
    refine ⟨fun hzero => ?_, ?_, ?_⟩
    · rw [hzero, UInt16.toNat_zero] at hsucc
      omega
    · push_cast
      omega
    · push_cast
      omega

end PeriodPattern

/-! ## What is captured of a message -/

/-- The pulses of the line are the loaded values, each one tick longer. -/
theorem pulses_ticks {values : List UInt16}
    (h : ∀ value ∈ values, 199 ≤ value.toNat ∧ value.toNat < 65534) :
    pulses (ticks values) = values.map fun value => value + 1 := by
  induction values with
  | nil => rfl
  | cons value values ih =>
    rw [List.forall_mem_cons] at h
    have hpulse : IsPulse (value.toNat + 1) := by
      unfold IsPulse
      omega
    have hvalue : UInt16.ofNat (value.toNat + 1) = value + 1 := by
      apply UInt16.toNat_inj.mp
      rw [UInt16.toNat_ofNat', PeriodPattern.toNat_add_one h.1.2]
      omega
    have hsplit : ticks (value :: values) = [value.toNat + 1] ++ ticks values := rfl
    rw [hsplit, pulses_append, pulses_singleton, if_pos hpulse, hvalue, ih h.2]
    rfl

/-- No samples are taken out while the line is being captured. -/
def NoConsume (ticks : List CaptureTick) : Prop := ∀ amount, .consume amount ∉ ticks

/-- What is in the buffer has been pushed. -/
theorem queue_irqTick {s : CaptureLine} (hroom : s.ic.signalBuffer.queue.length < signalBufferSize)
    (systick : UInt64) (h : s.ic.signalBuffer.queue = s.pushed) :
    (s.irqTick systick).ic.signalBuffer.queue = (s.irqTick systick).pushed := by
  rw [pushed_irqTick hroom, ← h]
  unfold irqTick Ic.tim3IrqHandler
  cases s.tim3.cc1if <;> cases s.tim3.uif <;> simp [queue_handleCapture hroom]

theorem queue_eq_pushed {s s' : CaptureLine} {ticks : List CaptureTick} (hkeep : NoConsume ticks)
    (hroom : Along CaptureLine.step HasRoom s ticks) (h : s.ic.signalBuffer.queue = s.pushed)
    (hrun : run CaptureLine.step s ticks = some s') :
    s'.ic.signalBuffer.queue = s'.pushed := by
  induction ticks generalizing s with
  | nil =>
    obtain rfl := Option.some.inj hrun
    exact h
  | cons t ticks ih =>
    obtain ⟨u, hu, hrest⟩ := Option.bind_eq_some_iff.mp hrun
    refine ih (fun amount hmem => hkeep amount (List.mem_cons_of_mem t hmem)) (hroom.2 u hu) ?_
      hrest
    cases t with
    | timer =>
      rcases timerTick_cases hu with ⟨-, rfl⟩ | ⟨_, _, _, _, _, rfl⟩ | ⟨_, _, _, _, _, rfl⟩ <;>
        exact h
    | irq systick =>
      obtain rfl := Option.some.inj hu
      exact queue_irqTick (hroom.1 systick rfl) systick h
    | consume amount => exact absurd List.mem_cons_self (hkeep amount)

/-- **The buffer holds the pulses of the line**, when all of them have been served in
time. -/
theorem queue_of_capture {gaps : List ℕ} {ticks : List CaptureTick} {s : CaptureLine}
    (hkeep : NoConsume ticks) (hroom : Along CaptureLine.step HasRoom (initial gaps) ticks)
    (hright : Along CaptureLine.step CountsRight (initial gaps) ticks)
    (hrun : run CaptureLine.step (initial gaps) ticks = some s) (hgaps : s.gaps = [])
    (hpending : s.pending = none) : s.ic.signalBuffer.queue = pulses gaps := by
  have hserves : Along CaptureLine.step ServesTrue (initial gaps) ticks ↔
      Along CaptureLine.step CountsRight (initial gaps) ticks :=
    along_iff_along (fun _ _ hs hχ => servesTrue_iff hs hχ)
      (fun _ _ _ hs _ _ hstep => hs.step hstep) (countInv_initial gaps) hroom
  have hacc : Accounted gaps s :=
    inv_of_run_of_along (fun _ _ _ hs htrue hstep => hs.step htrue hstep)
      ⟨countInv_initial gaps, rfl, rfl⟩ (hserves.mpr hright) hrun
  have hall := hacc.gaps_eq
  rw [hgaps, hpending, Option.toList_none, List.append_nil, List.append_nil] at hall
  rw [queue_eq_pushed hkeep hroom rfl hrun, hacc.pushed_eq, hall]

/-! ## The link -/

namespace Receiver

/-- A receiver with samples in the buffer and nothing behind it. -/
def resume (ic : Ic) (systick : UInt64) : Receiver := ⟨ic, systick, ic.signalBuffer.queue, [], []⟩

theorem tokenised_resume (flash : Memory) (ic : Ic) (systick : UInt64) :
    Tokenised flash (resume ic systick) :=
  ⟨GreedyTokeniser.Tokenises.start, rfl⟩

end Receiver

variable {ps : List PeriodPattern} {flash flash' : Memory} {indices : List UInt8}

/-- Every index stands for a pattern of the table. -/
def Listed (ps : List PeriodPattern) (indices : List UInt8) : Prop :=
  ∀ index ∈ indices, index.toNat < ps.length

/-- A message as it is heard. -/
def heardAs (flash : Memory) (indices : List UInt8) : List (ℕ × List UInt16) :=
  indices.map fun index => (index.toNat, (sentPeriods flash index).map fun value => value + 1)

theorem samples_heardAs (flash : Memory) (indices : List UInt8) :
    ((heardAs flash indices).map Prod.snd).flatten =
      (indices.flatMap (sentPeriods flash)).map fun value => value + 1 := by
  rw [heardAs, List.map_map, List.map_flatMap, List.flatMap_def]
  rfl

theorem Stores.sentPeriods_eq (h : Stores flash ps) {index : UInt8}
    (hindex : index.toNat < ps.length) :
    sentPeriods flash index = ps[index.toNat].activePeriods :=
  sentPeriods_of_stored ((h.stored index.toNat).trans (List.getElem?_eq_getElem hindex))

section Table

variable (hstores : Stores flash ps) (hreceivable : ∀ p ∈ ps, p.Receivable)
  (hlisted : Listed ps indices)

include hstores hreceivable hlisted

theorem receivedAs_heardAs : ReceivedAs ps (heardAs flash indices) := by
  intro word hword
  obtain ⟨index, hindex, rfl⟩ := List.mem_map.mp hword
  have hlt := hlisted index hindex
  refine ⟨_, List.getElem?_eq_getElem hlt, ?_⟩
  simp only [hstores.sentPeriods_eq hlt]
  exact (hreceivable _ (List.getElem_mem hlt)).receives

theorem allStored_of_listed : AllStored flash indices := by
  intro index hindex
  have hlt := hlisted index hindex
  exact ⟨_, (hstores.stored index.toNat).trans (List.getElem?_eq_getElem hlt),
    (hreceivable _ (List.getElem_mem hlt)).1⟩

/-- Every period of the message is a pulse on the line. -/
theorem mem_sentPeriods_bounds {value : UInt16}
    (hvalue : value ∈ indices.flatMap (sentPeriods flash)) :
    199 ≤ value.toNat ∧ value.toNat < 65534 := by
  obtain ⟨index, hindex, hmem⟩ := List.mem_flatMap.mp hvalue
  have hlt := hlisted index hindex
  rw [hstores.sentPeriods_eq hlt] at hmem
  obtain ⟨i, hi, rfl⟩ := PeriodPattern.mem_activePeriods_iff.mp hmem
  obtain ⟨hmin, hmax, -⟩ := (hreceivable _ (List.getElem_mem hlt)).2 i hi
  exact ⟨hmin, hmax⟩

end Table

/-- The edges of one message behind a silence that is no pulse: its pulses are the
periods of the message but the last. -/
theorem pulses_message {wait : ℕ} {values : List UInt16} (hwait : 65535 ≤ wait)
    (h : ∀ value ∈ values, 199 ≤ value.toNat ∧ value.toNat < 65534) :
    pulses (wait :: (ticks values).dropLast) = (values.map fun value => value + 1).dropLast := by
  have hsilence : ¬ IsPulse wait := by
    unfold IsPulse
    omega
  have hlast : (ticks values).dropLast = ticks values.dropLast := by
    rw [ticks, ticks, List.map_dropLast]
  have hsplit : wait :: ticks values.dropLast = [wait] ++ ticks values.dropLast := rfl
  rw [hlast, hsplit, pulses_append, pulses_singleton, if_neg hsilence, List.nil_append,
    pulses_ticks fun value hvalue => h value (List.mem_of_mem_dropLast hvalue), List.map_dropLast]

/-- The gaps of one message, from a low pin. -/
theorem gaps_message {first : PeriodPattern} (hsendable : Sendable flash indices)
    (hfirst : storedPattern flash 0 = some first) (hzero : first.periods 0 ≠ 0) {air : Air}
    (hlow : air.sender.pa0 = false) (hlevel : air.level = false) (hnew : air.gaps = [])
    (quiet : ℕ) :
    ∃ air', Air.step flash air ⟨quiet, indices⟩ = some air' ∧
      air'.gaps = (air.elapsed + quiet) ::
        (ticks (loads (first.periods 0) flash indices)).dropLast := by
  obtain ⟨air', hstep, -, heq⟩ := Air.exists_step (m := ⟨quiet, indices⟩) hsendable hfirst hzero
    (hlevel.trans hlow.symm)
  have hgaps := heq []
  simp only [Air.messageGaps, List.append_nil, hnew, hlevel, List.nil_append] at hgaps
  exact ⟨air', hstep, hgaps⟩

/-- **From chip to chip.**  Let two chips have the same table, receivable and separate;
let one of them, its pin low, send a list of indices whose first pattern begins with the
period that stored pattern 0 begins with; and let the other one, with an empty buffer,
capture the line, behind a silence of at least 65535 ticks, in any schedule in which its
handler finds room and the right counts.  When it has served all edges, calls of
`process_signals` made after the delay return the indices that were sent, from the first
on and in order, until fewer than eight samples are left; the last period is the only
one that has not been captured. -/
theorem radio_link (hsender : Stores flash ps) (hreceiver : Stores flash' ps)
    (hseparate : ps.Pairwise PeriodPattern.Separate) (hreceivable : ∀ p ∈ ps, p.Receivable)
    (hne : indices ≠ []) (hlen : indices.length ≤ 255) (hlisted : Listed ps indices)
    (hfirst : ∀ p q, ps[0]? = some p → ps[(indices.head hne).toNat]? = some q →
      p.periods 0 = q.periods 0)
    {air : Air} (hlow : air.sender.pa0 = false) (hlevel : air.level = false) (hnew : air.gaps = [])
    {quiet : ℕ} (hquiet : 65535 ≤ air.elapsed + quiet) :
    ∃ air', Air.step flash air ⟨quiet, indices⟩ = some air' ∧
      ∀ {ticks : List CaptureTick} {s : CaptureLine}, NoConsume ticks →
        Along CaptureLine.step HasRoom (CaptureLine.initial air'.gaps) ticks →
        Along CaptureLine.step CountsRight (CaptureLine.initial air'.gaps) ticks →
        run CaptureLine.step (CaptureLine.initial air'.gaps) ticks = some s →
        s.gaps = [] → s.pending = none →
        ∀ (systick : UInt64) (es : List ReceiverEvent), (∀ v, .push v ∉ es) →
          Along (Receiver.step flash') Receiver.QuietCalls (Receiver.resume s.ic systick) es →
          s.ic.signalBuffer.queue.length ≤ es.count .processSignals →
          ∃ r k, run (Receiver.step flash') (Receiver.resume s.ic systick) es = some r ∧
            r.segments.map Prod.fst = (indices.take k).map (fun index => (index.toNat : ℤ)) ∧
            r.queue.length < 8 ∧
            ((indices.take k).flatMap (sentPeriods flash)).length + r.queue.length + 1 =
              (indices.flatMap (sentPeriods flash)).length := by
  have hsendable : Sendable flash indices :=
    ⟨hne, hlen, allStored_of_listed hsender hreceivable hlisted⟩
  have hhead := hlisted _ (List.head_mem hne)
  have hpos : 0 < ps.length := Nat.zero_lt_of_lt hhead
  have hstored := fun (i : ℕ) (hi : i < ps.length) =>
    (hsender.stored i).trans (List.getElem?_eq_getElem hi)
  obtain ⟨air', hstep, hgaps⟩ := gaps_message hsendable (hstored 0 hpos)
    (PeriodPattern.one_le_getLength_iff.mp (hreceivable _ (List.getElem_mem hpos)).1)
    hlow hlevel hnew quiet
  refine ⟨air', hstep, ?_⟩
  intro ticks s hkeep hroom hright hrun hserved hpending systick es hpush hcalls hcount
  -- what is loaded is what was asked for, because the first periods agree
  have hloads : loads (ps[0].periods 0) flash indices = indices.flatMap (sentPeriods flash) := by
    have hq := hstored _ hhead
    have hone := (hreceivable _ (List.getElem_mem hhead)).1
    rw [loads, flatMap_sentPeriods_eq hne hq hone, List.tail_cons,
      hfirst _ _ (List.getElem?_eq_getElem hpos) (List.getElem?_eq_getElem hhead)]
  -- what is in the buffer is the message as it is heard, without its end
  have hqueue : s.ic.signalBuffer.queue =
      (((heardAs flash indices).map Prod.snd).flatten).dropLast := by
    rw [queue_of_capture hkeep hroom hright hrun hserved hpending, hgaps, hloads, samples_heardAs,
      pulses_message hquiet fun value hvalue =>
        mem_sentPeriods_bounds hsender hreceivable hlisted hvalue]
  obtain ⟨r, hrun', hinv⟩ := exists_run (Receiver.exists_step hreceiver.padded)
    (Receiver.tokenised_resume flash' s.ic systick) es
  obtain ⟨haccepted, hshort⟩ :=
    Receiver.length_queue_of_run hreceiver.padded hpush hcalls hrun'
  have haccepted' : r.accepted = (((heardAs flash indices).map Prod.snd).flatten).dropLast :=
    haccepted.trans hqueue
  obtain ⟨k, hk⟩ := hinv.segments_eq hreceiver hseparate
    (receivedAs_heardAs hsender hreceivable hlisted)
    (haccepted' ▸ List.dropLast_prefix _)
  have htake : (heardAs flash indices).take k = heardAs flash (indices.take k) := List.map_take.symm
  rw [htake] at hk
  refine ⟨r, k, hrun', ?_, ?_, ?_⟩
  · rw [hk, words, heardAs, List.map_map, List.map_map]
    rfl
  · have hcount' : (Receiver.resume s.ic systick).queue.length ≤ es.count .processSignals := hcount
    omega
  · -- nothing is lost on the way
    have hsplit := congrArg List.length hinv.tokenises.flatten_append
    rw [hk, samples_words, samples_heardAs, haccepted', samples_heardAs, List.length_append,
      List.length_dropLast, List.length_map, List.length_map] at hsplit
    have hone : 1 ≤ (indices.flatMap (sentPeriods flash)).length :=
      List.length_pos_of_ne_nil hsendable.flatMap_ne_nil
    omega

/-! ## A message -/

/-- Without overflows no count can be wrong. -/
structure NoOverflow (s : CaptureLine) : Prop where
  uif : s.tim3.uif = false
  carry : s.carry = false
  lateOverflow : s.lateOverflow = false
  gaps : ∀ gap ∈ s.gaps, gap < 65536
  pending : ∀ gap, s.pending = some gap → gap < 65536

theorem NoOverflow.step {s s' : CaptureLine} {t : CaptureTick} (h : NoOverflow s)
    (hstep : s.step t = some s') : NoOverflow s' := by
  cases t with
  | timer =>
    rcases timerTick_cases hstep with ⟨-, rfl⟩ | ⟨gap, rest, hgaps, hmore, -, rfl⟩ |
      ⟨gap, rest, hgaps, -, -, rfl⟩
    · exact h
    · have hgap := h.gaps gap (hgaps ▸ List.mem_cons_self)
      omega
    · refine ⟨h.uif, h.carry, h.uif, ?_, ?_⟩
      · exact fun g hg => h.gaps g (hgaps ▸ List.mem_cons_of_mem gap hg)
      · intro g hg
        obtain rfl := Option.some.inj hg
        exact h.gaps gap (hgaps ▸ List.mem_cons_self)
  | irq systick =>
    obtain rfl := Option.some.inj hstep
    refine ⟨rfl, ?_, rfl, h.gaps, fun g hg => absurd hg.symm (Option.some_ne_none g)⟩
    simp only [irqTick, h.lateOverflow, h.carry, ite_self]
  | consume amount =>
    obtain ⟨b, -, rfl⟩ := Option.map_eq_some_iff.mp hstep
    exact ⟨h.uif, h.carry, h.lateOverflow, h.gaps, h.pending⟩

/-- **Short gaps are always counted right.** -/
theorem along_countsRight_of_lt {gaps : List ℕ} (h : ∀ gap ∈ gaps, gap < 65536)
    (ticks : List CaptureTick) : Along CaptureLine.step CountsRight (initial gaps) ticks := by
  have hiff : Along CaptureLine.step CountsRight (initial gaps) ticks ↔
      Along CaptureLine.step (fun _ _ => True) (initial gaps) ticks := by
    refine along_iff_along (fun s _ hs _ => iff_of_true ?_ trivial)
      (fun _ _ _ hs _ _ hstep => hs.step hstep)
      (⟨rfl, rfl, rfl, h, fun g hg => absurd hg.symm (Option.some_ne_none g)⟩ :
        NoOverflow (initial gaps)) along_true
    intro systick _ gap hpending _
    rw [if_pos (Nat.div_eq_of_lt (hs.pending gap hpending))]
    exact hs.carry
  exact hiff.mpr along_true

/-- Once the delay has elapsed it stays so. -/
theorem along_quietCalls {r : Receiver} (hpad : Padded flash) (h : delayElapsed r.systick r.ic)
    (n : ℕ) :
    Along (Receiver.step flash) Receiver.QuietCalls r (List.replicate n .processSignals) := by
  induction n generalizing r with
  | zero => exact along_nil
  | succ n ih =>
    refine along_cons.mpr ⟨fun _ => h, fun r' hr' => ih ?_⟩
    obtain ⟨r₁, hr₁, hsystick, -, hlast, -⟩ := Receiver.step_processSignals hpad r
    obtain rfl := Option.some.inj (hr'.symm.trans hr₁)
    rw [delayElapsed, hsystick, hlast]
    exact h

/-- A sync bit, a one and a zero cross the air; the first is found by the first call. -/
theorem radio_link_syncOneZero :
    ∃ air' s r k, Air.step syncZeroOneFlash Air.initial ⟨65535, [0, 2, 1]⟩ = some air' ∧
      run CaptureLine.step (CaptureLine.initial air'.gaps)
        (List.replicate 10 [.timer, .irq 0]).flatten = some s ∧
      run (Receiver.step syncZeroOneFlash) (Receiver.resume s.ic 1000)
        (List.replicate 9 .processSignals) = some r ∧
      r.segments.map Prod.fst = (([0, 2, 1] : List UInt8).take k).map fun i => (i.toNat : ℤ) := by
  have hstores := stores_syncZeroOneFlash
  have hlisted : Listed syncZeroOne [0, 2, 1] := by
    intro index hindex
    simp only [List.mem_cons, List.not_mem_nil, or_false] at hindex
    rcases hindex with rfl | rfl | rfl <;> decide
  obtain ⟨air', hstep, hlink⟩ := radio_link hstores hstores pairwise_separate_syncZeroOne
    (by decide) (List.cons_ne_nil 0 [2, 1]) (by decide) hlisted
    (fun p q hp hq => by rw [Option.some.inj (hp.symm.trans hq)])
    (show Air.initial.sender.pa0 = false from rfl) rfl rfl
    (show 65535 ≤ Air.initial.elapsed + 65535 from le_refl _)
  have hgaps : (Air.step syncZeroOneFlash Air.initial ⟨65535, [0, 2, 1]⟩).map Air.gaps =
      some [65535, 361, 11161, 361, 1081, 1081, 361, 361, 1081, 361] := by decide +kernel
  rw [hstep] at hgaps
  obtain hgaps := Option.some.inj hgaps
  rw [hgaps] at hlink
  have hcapture : (run CaptureLine.step
      (CaptureLine.initial [65535, 361, 11161, 361, 1081, 1081, 361, 361, 1081, 361])
      (List.replicate 10 [.timer, .irq 0]).flatten).map (fun s =>
        (s.gaps, s.pending, s.ic.lastTimeInterrupted, s.ic.signalBuffer.queue.length)) =
      some ([], none, 0, 9) := by decide +kernel
  obtain ⟨s, hs, heq⟩ := Option.map_eq_some_iff.mp hcapture
  simp only [Prod.mk.injEq] at heq
  obtain ⟨hserved, hpending, hlast, hlength⟩ := heq
  have hquiet : delayElapsed 1000 s.ic := by
    rw [delayElapsed, hlast]
    decide
  obtain ⟨r, k, hr, hk, -⟩ := hlink (by simp [NoConsume]) (along_hasRoom (by decide))
    (along_countsRight_of_lt (by decide) _) hs hserved hpending 1000
    (List.replicate 9 .processSignals) (by simp)
    (along_quietCalls hstores.padded hquiet 9) (by rw [hlength]; decide)
  exact ⟨air', s, r, k, hstep, by rw [hgaps, hs], hr, hk⟩

end Stm32Adaptive
