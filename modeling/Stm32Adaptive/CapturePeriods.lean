import Mathlib.Algebra.Group.Nat.Defs
import Stm32Adaptive.InputCapture
import Stm32Adaptive.Library.Runs

/-!
# Captured periods

`TIM3` counts to 65535, raises a flag when it overflows, and at an edge copies its
value to `CCR1` and starts again.  The interrupt handler rebuilds the time since
the last edge from the captured value and the overflows it has counted.

The two flags may be pending together in one call.  The handler serves the capture
first and counts the overflow afterwards, so an overflow that came before the edge
is credited to the next gap: this one is taken for shorter than it was and the next
one for longer.  And the count is shifted by 16 in a 32-bit word, so only its lower
half is left.

`capturesTrue_iff` says that nothing else goes wrong: what is pushed are the true
gaps exactly when each gap whose captured value could be a pulse has no overflow
carried into it, if it had none itself, and else keeps a count that the shift does
not lose.
-/

namespace Stm32Adaptive

open Runs

/-- The timer with the edges to come, the handler's state, and the history of a
run. -/
structure CaptureLine where
  tim3 : Tim3
  ic : Ic
  /-- The gaps between the edges to come; the timer is counting in the first one. -/
  gaps : List ℕ
  /-- The overflows there have been in the first gap. -/
  overflows : ℕ
  /-- History: the gap whose capture is pending. -/
  pending : Option ℕ
  /-- History: the pending overflow belongs to this gap, not to the next. -/
  lateOverflow : Bool
  /-- History: an overflow of an earlier gap has been counted for this one. -/
  carry : Bool
  /-- History: what has been pushed. -/
  pushed : List UInt16
  /-- History: the gaps whose captures have been served. -/
  served : List ℕ

/-- Who moves: the timer, to its next overflow or edge; the interrupt handler, at
some time; or the main loop, which takes samples out of the buffer. -/
inductive CaptureTick where
  | timer
  | irq (systick : UInt64)
  | consume (amount : ℕ)

namespace CaptureLine

/-- Before the first gap. -/
def initial (gaps : List ℕ) : CaptureLine where
  tim3 := ⟨false, false, false, 0⟩
  ic := Ic.initial
  gaps := gaps
  overflows := 0
  pending := none
  lateOverflow := false
  carry := false
  pushed := []
  served := []

/-- The timer goes on to its next overflow or edge.  A schedule in which it raises
a flag that is still up is not considered. -/
def timerTick (s : CaptureLine) : Option CaptureLine :=
  match s.gaps with
  | [] => some s
  | gap :: rest =>
    if s.overflows < gap / 65536 then
      if s.tim3.uif then none
      else some { s with tim3 := { s.tim3 with uif := true }, overflows := s.overflows + 1 }
    else if s.tim3.cc1if then none
    else some { s with
      tim3 := { s.tim3 with cc1if := true, ccr1 := UInt16.ofNat (gap % 65536) }
      gaps := rest
      overflows := 0
      pending := some gap
      lateOverflow := s.tim3.uif }

/-- A call of the interrupt handler.  What it has pushed is what the queue has
grown by. -/
def irqTick (systick : UInt64) (s : CaptureLine) : CaptureLine :=
  let r := Ic.tim3IrqHandler systick s.tim3 s.ic
  { s with
    tim3 := r.1
    ic := r.2
    pending := none
    lateOverflow := false
    carry := if s.pending.isSome then s.lateOverflow else s.carry
    pushed := s.pushed ++ r.2.signalBuffer.queue.drop s.ic.signalBuffer.queue.length
    served := s.served ++ s.pending.toList }

/-- One step. -/
def step (s : CaptureLine) : CaptureTick → Option CaptureLine
  | .timer => s.timerTick
  | .irq systick => some (s.irqTick systick)
  | .consume amount => (s.ic.signalBuffer.shiftReadHead amount).map fun signalBuffer =>
    { s with ic := { s.ic with signalBuffer := signalBuffer } }

/-- **What the timer can do**: nothing, if there are no more edges; overflow, which
finds the flag down; or go through an edge, which finds the other flag down. -/
theorem timerTick_cases {s s' : CaptureLine} (h : s.timerTick = some s') :
    (s.gaps = [] ∧ s' = s) ∨
    (∃ gap rest, s.gaps = gap :: rest ∧ s.overflows < gap / 65536 ∧ s.tim3.uif = false ∧
      s' = { s with tim3 := { s.tim3 with uif := true }, overflows := s.overflows + 1 }) ∨
    (∃ gap rest, s.gaps = gap :: rest ∧ gap / 65536 ≤ s.overflows ∧ s.tim3.cc1if = false ∧
      s' = { s with
        tim3 := { s.tim3 with cc1if := true, ccr1 := UInt16.ofNat (gap % 65536) }
        gaps := rest
        overflows := 0
        pending := some gap
        lateOverflow := s.tim3.uif }) := by
  unfold timerTick at h
  split at h
  · exact Or.inl ⟨‹_›, (Option.some.inj h).symm⟩
  rename_i gap rest hgaps
  split at h
  · split at h
    · exact absurd h (Option.some_ne_none _).symm
    · exact Or.inr (Or.inl ⟨gap, rest, hgaps, ‹_›, Bool.eq_false_iff.mpr ‹_›,
        (Option.some.inj h).symm⟩)
  · split at h
    · exact absurd h (Option.some_ne_none _).symm
    · exact Or.inr (Or.inr ⟨gap, rest, hgaps, not_lt.mp ‹_›, Bool.eq_false_iff.mpr ‹_›,
        (Option.some.inj h).symm⟩)

/-! ## What should be pushed, and what is -/

/-- The gaps that are pulses. -/
def IsPulse (gap : ℕ) : Prop := 200 ≤ gap ∧ gap < 65535

instance (gap : ℕ) : Decidable (IsPulse gap) := inferInstanceAs (Decidable (_ ∧ _))

/-- The pulses among some gaps, unchanged and in order. -/
def pulses (gaps : List ℕ) : List UInt16 := (gaps.filter fun gap => IsPulse gap).map UInt16.ofNat

theorem pulses_append (gaps gaps' : List ℕ) :
    pulses (gaps ++ gaps') = pulses gaps ++ pulses gaps' := by
  rw [pulses, List.filter_append, List.map_append]
  rfl

/-- The handler serves the pending gap as it should: it is pushed if it is a pulse,
and nothing else is. -/
def ServesTrue (s : CaptureLine) (t : CaptureTick) : Prop :=
  ∀ systick, t = .irq systick →
    (s.irqTick systick).pushed = s.pushed ++ pulses s.pending.toList

/-- The buffer has room whenever the handler is called. -/
def HasRoom (s : CaptureLine) (t : CaptureTick) : Prop :=
  ∀ systick, t = .irq systick → s.ic.signalBuffer.queue.length < signalBufferSize

/-- The handler finds the right count: if the captured value of the pending gap
could be a pulse, then either the gap had no overflow and none is carried into it,
or it had some, and those counted for it are no multiple of 65536. -/
def CountsRight (s : CaptureLine) (t : CaptureTick) : Prop :=
  ∀ systick, t = .irq systick → ∀ gap, s.pending = some gap → IsPulse (gap % 65536) →
    if gap / 65536 = 0 then s.carry = false
    else (gap / 65536 + s.carry.toNat - s.lateOverflow.toNat) % 65536 ≠ 0

instance (s : CaptureLine) : ∀ t, Decidable (CountsRight s t)
  | .timer => isTrue fun _ h => nomatch h
  | .consume _ => isTrue fun _ h => nomatch h
  | .irq systick => decidable_of_iff
      (∀ gap ∈ s.pending, IsPulse (gap % 65536) →
        if gap / 65536 = 0 then s.carry = false
        else (gap / 65536 + s.carry.toNat - s.lateOverflow.toNat) % 65536 ≠ 0)
      ⟨fun h _ _ => h, fun h => h systick rfl⟩

/-! ## One call of the handler -/

/-- The period is the captured value and the lower half of the count. -/
theorem toNat_period (ccr1 : UInt16) (overflowCounter : UInt32) :
    (Ic.period ccr1 overflowCounter).toNat =
      ccr1.toNat + 65536 * (overflowCounter.toNat % 65536) := by
  have hccr := ccr1.toNat_lt
  simp only [Ic.period, UInt32.toNat_add, UInt32.toNat_shiftLeft, UInt16.toNat_toUInt32,
    Nat.shiftLeft_eq, UInt32.reduceToNat, Nat.reduceMod, Nat.reducePow]
  omega

/-- **What the handler accepts**: a captured value that is a pulse, if the lower
half of the count is zero. -/
theorem capturedPeriod_eq (ccr1 : UInt16) (overflowCounter : UInt32) :
    Ic.capturedPeriod ccr1 overflowCounter =
      if overflowCounter.toNat % 65536 = 0 ∧ IsPulse ccr1.toNat then some ccr1 else none := by
  have hccr := ccr1.toNat_lt
  have hperiod := toNat_period ccr1 overflowCounter
  have hskip : (65535 ≤ Ic.period ccr1 overflowCounter ∨ Ic.period ccr1 overflowCounter < 200) ↔
      ¬(overflowCounter.toNat % 65536 = 0 ∧ IsPulse ccr1.toNat) := by
    rw [UInt32.le_iff_toNat_le, UInt32.lt_iff_toNat_lt, hperiod, IsPulse]
    simp only [UInt32.reduceToNat]
    omega
  rw [Ic.capturedPeriod]
  by_cases hpulse : overflowCounter.toNat % 65536 = 0 ∧ IsPulse ccr1.toNat
  · rw [if_neg (mt hskip.mp (not_not.mpr hpulse)), if_pos hpulse, Option.some.injEq]
    apply UInt16.toNat_inj.mp
    rw [UInt32.toNat_toUInt16, hperiod, hpulse.1]
    omega
  · rw [if_pos (hskip.mpr hpulse), if_neg hpulse]

theorem queue_handleCapture {ic : Ic} (hroom : ic.signalBuffer.queue.length < signalBufferSize)
    (systick : UInt64) (ccr1 : UInt16) :
    (Ic.handleCapture systick ccr1 ic).signalBuffer.queue =
      ic.signalBuffer.queue ++ (Ic.capturedPeriod ccr1 ic.overflowCounter).toList := by
  unfold Ic.handleCapture
  split
  · rename_i h
    rw [h]
    exact (List.append_nil _).symm
  · rename_i p h
    rw [h]
    exact SignalBuffer.queue_push_of_lt hroom p

theorem overflowCounter_handleCapture (systick : UInt64) (ccr1 : UInt16) (ic : Ic) :
    (Ic.handleCapture systick ccr1 ic).overflowCounter = 0 := by
  unfold Ic.handleCapture
  split <;> rfl

/-- What a call pushes. -/
theorem pushed_irqTick {s : CaptureLine}
    (hroom : s.ic.signalBuffer.queue.length < signalBufferSize) (systick : UInt64) :
    (s.irqTick systick).pushed = s.pushed ++
      if s.tim3.cc1if then (Ic.capturedPeriod s.tim3.ccr1 s.ic.overflowCounter).toList else [] := by
  unfold irqTick Ic.tim3IrqHandler
  cases s.tim3.cc1if <;> cases s.tim3.uif <;>
    simp [queue_handleCapture hroom, List.drop_left']

/-- The count after a call: it starts again at a capture, and then a pending overflow
is counted. -/
theorem overflowCounter_irqTick (s : CaptureLine) (systick : UInt64) :
    (s.irqTick systick).ic.overflowCounter.toNat =
      ((if s.tim3.cc1if then 0 else s.ic.overflowCounter.toNat) + s.tim3.uif.toNat) % 2 ^ 32 := by
  unfold irqTick Ic.tim3IrqHandler
  cases s.tim3.cc1if <;> cases s.tim3.uif <;>
    simp [overflowCounter_handleCapture, UInt32.toNat_add]

/-! ## The count in a run -/

/-- **The invariant of the count.**  While no capture is pending, it is the number
of overflows there have been in this gap, without the one that is pending and with
the one that was carried in.  While one is pending, it is the same number for the
whole of the pending gap, and an overflow that is pending with it is either late or
the first of the next gap. -/
structure CountInv (s : CaptureLine) : Prop where
  overflows_le : ∀ gap rest, s.gaps = gap :: rest → s.overflows ≤ gap / 65536
  cc1if : s.tim3.cc1if = s.pending.isSome
  counting : s.pending = none → s.lateOverflow = false ∧ s.tim3.uif.toNat ≤ s.overflows ∧
    s.ic.overflowCounter.toNat = (s.carry.toNat + s.overflows - s.tim3.uif.toNat) % 2 ^ 32
  waiting : ∀ gap, s.pending = some gap → s.tim3.ccr1.toNat = gap % 65536 ∧
    s.lateOverflow.toNat ≤ gap / 65536 ∧ s.overflows + s.lateOverflow.toNat = s.tim3.uif.toNat ∧
    s.ic.overflowCounter.toNat = (s.carry.toNat + gap / 65536 - s.lateOverflow.toNat) % 2 ^ 32

theorem countInv_initial (gaps : List ℕ) : CountInv (initial gaps) where
  overflows_le _ _ _ := Nat.zero_le _
  cc1if := rfl
  counting _ := ⟨rfl, le_rfl, rfl⟩
  waiting _ h := absurd h.symm (Option.some_ne_none _)

theorem CountInv.pending_eq_none {s : CaptureLine} (h : CountInv s)
    (hcc1if : s.tim3.cc1if = false) : s.pending = none := by
  rw [h.cc1if, Option.isSome_eq_false_iff, Option.isNone_iff_eq_none] at hcc1if
  exact hcc1if

theorem CountInv.timerTick {s s' : CaptureLine} (h : CountInv s) (hstep : s.timerTick = some s') :
    CountInv s' := by
  rcases timerTick_cases hstep with ⟨-, rfl⟩ | ⟨gap, rest, hgaps, hmore, huif, rfl⟩ |
    ⟨gap, rest, hgaps, hlast, hcc1if, rfl⟩
  · exact h
  · refine ⟨?_, h.cc1if, ?_, ?_⟩
    · intro gap' rest' heq
      obtain ⟨rfl, -⟩ := List.cons.inj (hgaps.symm.trans heq)
      exact hmore
    · intro hnone
      obtain ⟨hlate, -, hcounter⟩ := h.counting hnone
      rw [huif, Bool.toNat_false, Nat.sub_zero] at hcounter
      refine ⟨hlate, by simp, ?_⟩
      rw [hcounter]
      simp only [Bool.toNat_true]
      congr 1
    · intro g hg
      obtain ⟨hccr, hlate, huifs, hcounter⟩ := h.waiting g hg
      rw [huif, Bool.toNat_false] at huifs
      refine ⟨hccr, hlate, ?_, hcounter⟩
      simp only [Bool.toNat_true]
      omega
  · obtain ⟨-, huif, hcounter⟩ := h.counting (h.pending_eq_none hcc1if)
    have hall : s.overflows = gap / 65536 := le_antisymm (h.overflows_le gap rest hgaps) hlast
    refine ⟨fun _ _ _ => Nat.zero_le _, rfl, fun hsome => absurd hsome (Option.some_ne_none _),
      fun g hg => ?_⟩
    obtain rfl := Option.some.inj hg
    refine ⟨?_, by rw [← hall]; exact huif, Nat.zero_add _, by rw [← hall]; exact hcounter⟩
    rw [UInt16.toNat_ofNat']
    omega

theorem CountInv.irqTick {s : CaptureLine} (h : CountInv s) (systick : UInt64) :
    CountInv (s.irqTick systick) := by
  have hcounter := s.overflowCounter_irqTick systick
  have huif : (s.irqTick systick).tim3.uif = false := rfl
  refine ⟨h.overflows_le, rfl, fun _ => ⟨rfl, Nat.zero_le _, ?_⟩,
    fun _ hg => absurd hg.symm (Option.some_ne_none _)⟩
  rw [hcounter, huif, Bool.toNat_false, Nat.sub_zero, h.cc1if]
  cases hpending : s.pending with
  | none =>
    obtain ⟨-, hle, hcount⟩ := h.counting hpending
    simp only [CaptureLine.irqTick, hpending, Option.isSome_none, Bool.false_eq_true, if_false]
    omega
  | some gap =>
    obtain ⟨-, -, huifs, -⟩ := h.waiting gap hpending
    simp only [CaptureLine.irqTick, hpending, Option.isSome_some, if_true]
    omega

theorem CountInv.step {s s' : CaptureLine} {t : CaptureTick} (h : CountInv s)
    (hstep : s.step t = some s') : CountInv s' := by
  cases t with
  | timer => exact h.timerTick hstep
  | irq systick =>
    obtain rfl := Option.some.inj hstep
    exact h.irqTick systick
  | consume amount =>
    obtain ⟨b, -, rfl⟩ := Option.map_eq_some_iff.mp hstep
    exact ⟨h.overflows_le, h.cc1if, h.counting, h.waiting⟩

/-! ## When the true gap is pushed -/

theorem pulses_singleton (gap : ℕ) :
    pulses [gap] = if IsPulse gap then [UInt16.ofNat gap] else [] := by
  rw [pulses]
  split <;> simp [*]

/-- With the right captured value, what is accepted is the true gap exactly when
the count tells a gap without overflows from one with some. -/
theorem capturedPeriod_eq_pulses_iff {ccr1 : UInt16} {overflowCounter : UInt32} {gap : ℕ}
    (hccr : ccr1.toNat = gap % 65536) :
    (Ic.capturedPeriod ccr1 overflowCounter).toList = pulses [gap] ↔
      (IsPulse (gap % 65536) → (gap / 65536 = 0 ↔ overflowCounter.toNat % 65536 = 0)) := by
  rw [capturedPeriod_eq, hccr, pulses_singleton]
  by_cases hpulse : IsPulse (gap % 65536)
  · have htrue : IsPulse gap ↔ gap / 65536 = 0 := by
      unfold IsPulse at hpulse ⊢
      omega
    simp only [hpulse, and_true, true_implies, htrue]
    by_cases hgap : gap / 65536 = 0
    · have hvalue : ccr1 = UInt16.ofNat gap := by
        apply UInt16.toNat_inj.mp
        rw [UInt16.toNat_ofNat', hccr]
      by_cases hcount : overflowCounter.toNat % 65536 = 0 <;> simp [hgap, hcount, hvalue]
    · by_cases hcount : overflowCounter.toNat % 65536 = 0 <;> simp [hgap, hcount]
  · have hfalse : ¬ IsPulse gap := by
      unfold IsPulse at hpulse ⊢
      omega
    simp [hpulse, hfalse]

/-- Where the count is what it should be, the handler serves a gap as it should
exactly when it finds the right count. -/
theorem servesTrue_iff {s : CaptureLine} {t : CaptureTick} (h : CountInv s) (hroom : s.HasRoom t) :
    s.ServesTrue t ↔ s.CountsRight t := by
  refine forall_congr' fun systick => forall_congr' fun ht => ?_
  rw [pushed_irqTick (hroom systick ht), List.append_cancel_left_eq, h.cc1if]
  cases hpending : s.pending with
  | none => simp [pulses]
  | some gap =>
    obtain ⟨hccr, hlate, -, hcounter⟩ := h.waiting gap hpending
    rw [Option.isSome_some, if_pos rfl, Option.toList_some, capturedPeriod_eq_pulses_iff hccr,
      hcounter]
    have hcase : (gap / 65536 = 0 ↔
        (s.carry.toNat + gap / 65536 - s.lateOverflow.toNat) % 2 ^ 32 % 65536 = 0) ↔
        if gap / 65536 = 0 then s.carry = false
        else (gap / 65536 + s.carry.toNat - s.lateOverflow.toNat) % 65536 ≠ 0 := by
      by_cases hgap : gap / 65536 = 0
      · have hnone : s.lateOverflow.toNat = 0 := by omega
        rw [if_pos hgap, hgap, hnone]
        cases s.carry <;> simp
      · rw [if_neg hgap, Nat.add_comm]
        omega
    rw [hcase]
    constructor
    · rintro himp g hg hpulse
      obtain rfl := Option.some.inj hg
      exact himp hpulse
    · exact fun hall hpulse => hall gap rfl hpulse

/-! ## Whole runs -/

/-- The history of a run accounts for all gaps, and what has been pushed are the
pulses among those served. -/
structure Accounted (gaps : List ℕ) (s : CaptureLine) : Prop where
  count : CountInv s
  gaps_eq : s.served ++ s.pending.toList ++ s.gaps = gaps
  pushed_eq : s.pushed = pulses s.served

theorem Accounted.step {gaps : List ℕ} {s s' : CaptureLine} {t : CaptureTick}
    (h : Accounted gaps s) (htrue : s.ServesTrue t) (hstep : s.step t = some s') :
    Accounted gaps s' := by
  have hcount := h.count.step hstep
  cases t with
  | timer =>
    rcases timerTick_cases hstep with ⟨-, rfl⟩ | ⟨gap, rest, hgaps, -, -, rfl⟩ |
      ⟨gap, rest, hgaps, -, hcc1if, rfl⟩
    · exact h
    · exact ⟨hcount, h.gaps_eq, h.pushed_eq⟩
    · -- the gap moves from those to come to the one that is pending
      refine ⟨hcount, ?_, h.pushed_eq⟩
      have hgaps_eq := h.gaps_eq
      rw [h.count.pending_eq_none hcc1if, hgaps, Option.toList_none, List.append_nil] at hgaps_eq
      rw [← hgaps_eq, Option.toList_some, List.append_assoc, List.singleton_append]
  | irq systick =>
    obtain rfl := Option.some.inj hstep
    refine ⟨hcount, ?_, ?_⟩
    · show s.served ++ s.pending.toList ++ [] ++ s.gaps = gaps
      rw [List.append_nil, h.gaps_eq]
    · rw [htrue systick rfl, h.pushed_eq]
      exact (pulses_append _ _).symm
  | consume amount =>
    obtain ⟨b, -, rfl⟩ := Option.map_eq_some_iff.mp hstep
    exact ⟨hcount, h.gaps_eq, h.pushed_eq⟩

/-- **The captured periods are the true ones**, in a run: at every call of the
handler the gap it serves is pushed if it is a pulse, and nothing else is; and when
all gaps have been served, the pulses among them have been pushed, unchanged and
in order. -/
def CapturesTrue (gaps : List ℕ) (ticks : List CaptureTick) : Prop :=
  Along step ServesTrue (initial gaps) ticks ∧
    ∀ s, run step (initial gaps) ticks = some s → s.gaps = [] → s.pending = none →
      s.pushed = pulses gaps

/-- **When the captured periods are the true ones.**  For all gaps and every
schedule in which a flag is served before it is raised again and the buffer has
room: exactly if the handler finds the right count at each of its calls. -/
theorem capturesTrue_iff (gaps : List ℕ) (ticks : List CaptureTick)
    (hroom : Along step HasRoom (initial gaps) ticks) :
    CapturesTrue gaps ticks ↔ Along step CountsRight (initial gaps) ticks := by
  have hiff : Along step ServesTrue (initial gaps) ticks ↔
      Along step CountsRight (initial gaps) ticks :=
    along_iff_along (fun s t hs hχ => servesTrue_iff hs hχ)
      (fun s t s' hs _ _ hstep => hs.step hstep) (countInv_initial gaps) hroom
  refine ⟨fun h => hiff.mp h.1, fun h => ⟨hiff.mpr h, fun s hs hgaps hpending => ?_⟩⟩
  have hacc : Accounted gaps s :=
    inv_of_run_of_along (fun _ _ _ hs htrue hstep => hs.step htrue hstep)
      ⟨countInv_initial gaps, rfl, rfl⟩ (hiff.mpr h) hs
  have hall := hacc.gaps_eq
  rw [hgaps, hpending, Option.toList_none, List.append_nil, List.append_nil] at hall
  rw [hacc.pushed_eq, hall]

/-! ## Two runs -/

/-- A call of the handler takes at most one place in the buffer. -/
theorem length_queue_irqTick_le (s : CaptureLine) (systick : UInt64) :
    (s.irqTick systick).ic.signalBuffer.queue.length ≤ s.ic.signalBuffer.queue.length + 1 := by
  have hcapture : (Ic.handleCapture systick s.tim3.ccr1 s.ic).signalBuffer.queue.length ≤
      s.ic.signalBuffer.queue.length + 1 := by
    unfold Ic.handleCapture Ic.acceptPeriod SignalBuffer.push
    split
    · exact Nat.le_succ _
    · simp only
      split <;> simp
  unfold irqTick Ic.tim3IrqHandler
  cases s.tim3.cc1if <;> cases s.tim3.uif <;> simp [hcapture]

/-- There is room in every run that is shorter than the buffer. -/
theorem along_hasRoom {s : CaptureLine} {ticks : List CaptureTick}
    (h : s.ic.signalBuffer.queue.length + ticks.length ≤ signalBufferSize) :
    Along step HasRoom s ticks := by
  induction ticks generalizing s with
  | nil => exact along_nil
  | cons t ticks ih =>
    rw [List.length_cons] at h
    refine ⟨fun _ _ => by omega, fun s' hs' => ih ?_⟩
    have hgrow : s'.ic.signalBuffer.queue.length ≤ s.ic.signalBuffer.queue.length + 1 := by
      cases t with
      | timer =>
        rcases timerTick_cases hs' with ⟨-, rfl⟩ | ⟨_, _, _, _, _, rfl⟩ | ⟨_, _, _, _, _, rfl⟩ <;>
          exact Nat.le_succ _
      | irq systick =>
        obtain rfl := Option.some.inj hs'
        exact s.length_queue_irqTick_le systick
      | consume amount =>
        obtain ⟨b, hb, rfl⟩ := Option.map_eq_some_iff.mp hs'
        simp only [SignalBuffer.queue_shiftReadHead hb, List.length_drop]
        omega
    omega

/-- Two pulses, and between them a gap of 65836 ticks: its overflow is served before its
edge comes. -/
def servedInTime : List CaptureTick :=
  [.timer, .irq 0, .timer, .irq 0, .timer, .irq 0, .timer, .irq 0]

/-- The long gap is told from a pulse of 300 ticks, and the one behind it is pushed. -/
theorem capturesTrue_iff_overflowBetween :
    CapturesTrue [300, 65836, 400] servedInTime ∧
      (run step (initial [300, 65836, 400]) servedInTime).map
        (fun s => (s.gaps, s.pending, s.pushed)) = some ([], none, [300, 400]) :=
  ⟨(capturesTrue_iff [300, 65836, 400] servedInTime (along_hasRoom (by decide))).mpr (by decide),
    by decide⟩

/-- **An overflow counted too late.**  A gap of 65836 ticks is an overflow and then
a captured value of 300; if one call serves both, 300 is pushed, and the pulse of
400 ticks that follows is taken for a longer gap and lost. -/
theorem not_capturesTrue_lateOverflow :
    Along step HasRoom (initial [65836, 400]) [.timer, .timer, .irq 0, .timer, .irq 0] ∧
    (run step (initial [65836, 400]) [.timer, .timer, .irq 0, .timer, .irq 0]).map
      (fun s => (s.gaps, s.pending, s.pushed)) = some ([], none, [300]) ∧
    ¬ CapturesTrue [65836, 400] [.timer, .timer, .irq 0, .timer, .irq 0] := by
  have hrun : (run step (initial [65836, 400]) [.timer, .timer, .irq 0, .timer, .irq 0]).map
      (fun s => (s.gaps, s.pending, s.pushed)) = some ([], none, [300]) := by decide
  refine ⟨along_hasRoom (by decide), hrun, fun h => ?_⟩
  obtain ⟨s, hs, heq⟩ := Option.map_eq_some_iff.mp hrun
  obtain ⟨hgaps, hrest⟩ := Prod.mk.inj heq
  obtain ⟨hpending, hpushed⟩ := Prod.mk.inj hrest
  have htrue := h.2 s hs hgaps hpending
  rw [hpushed] at htrue
  exact absurd htrue (by decide)

end CaptureLine
end Stm32Adaptive
