import Mathlib.Algebra.GroupWithZero.Nat
import Mathlib.Data.Fin.VecNotation
import Stm32Adaptive.Library.Runs
import Stm32Adaptive.Library.Waveform
import Stm32Adaptive.SenderRun

/-!
# Messages on the line

`send_434` drives the pin `PA0`; a receiver only sees its edges.  The pin is raised
when the first period is loaded, changed by every interrupt that loads another one,
and left alone by the interrupt that stops the sender.  So the line shows every
period but the last as the time between two edges, and the last one runs on into the
silence behind the message (`waitWaveform_of_cursor`).

Two things come in between.  The pin is raised, not toggled, at the start: a message
with an odd number of periods leaves it high, and then the next message begins without
an edge, and its first period is lost in the silence before it.  And the first period
that is loaded is that of stored pattern 0, whatever the message begins with.
`gaps_eq_heardWhole_iff` says that there is nothing else: the periods of the messages of
a run are heard exactly if all messages but the last have an even number of periods and
each begins with the period that stored pattern 0 begins with.
-/

namespace Stm32Adaptive

open FlashMemory Flash Runs Sender Waveform

/-! ## The line during a transmission -/

/-- The times for which the timer counts: from zero up to the loaded value. -/
def ticks (loads : List UInt16) : List ℕ := loads.map fun value => value.toNat + 1

namespace Sender

/-- The stretches of the pin during the wait of `send_434`. -/
def waitWaveform (flash : Memory) : ℕ → Sender → List (Bool × ℕ)
  | 0, _ => []
  | interrupts + 1, s =>
    if s.sending then
      if s.arr = 0 then []
      else (s.pa0, s.arr.toNat + 1) ::
        match s.tim14IrqHandler flash true with
        | none => []
        | some s' => waitWaveform flash interrupts s'
    else []

/-- The stretches of the pin during `send_434`. -/
def sendWaveform (flash : Memory) (patternIndices : List UInt8) (length : UInt8) (s : Sender) :
    List (Bool × ℕ) :=
  match s.sendStart flash patternIndices length with
  | none => []
  | some t => t.waitWaveform flash maxInterrupts

end Sender

variable {flash : Memory} {indices : List UInt8} {a b n : ℕ} {p first : PeriodPattern} {s : Sender}

theorem waitWaveform_of_done (h : s.sending = false) (flash : Memory) (n : ℕ) :
    s.waitWaveform flash n = [] := by
  cases n <;> simp [waitWaveform, h]

theorem waitWaveform_succ {s' : Sender} (hsend : s.sending = true) (harr : s.arr ≠ 0)
    (hirq : s.tim14IrqHandler flash true = some s') (n : ℕ) :
    s.waitWaveform flash (n + 1) = (s.pa0, s.arr.toNat + 1) :: s'.waitWaveform flash n := by
  rw [waitWaveform, if_pos hsend, if_neg harr, hirq]

/-- **The line alternates.**  Each period is a stretch of its own, and the pin is left
as it was during the last. -/
theorem waitWaveform_of_cursor (hall : AllStored flash indices) (hlen : indices.length ≤ 255)
    (h : Cursor flash indices a b p s) (hn : (Cursor.rest flash indices a b p).length + 1 ≤ n) :
    s.waitWaveform flash n =
        alternating s.pa0 (ticks (s.arr :: Cursor.rest flash indices a b p)) ∧
      ∃ s', s.waitWhileSending flash n = some s' ∧ s'.pa0 =
        if (Cursor.rest flash indices a b p).length % 2 = 0 then s.pa0 else !s.pa0 := by
  induction n generalizing a b p s with
  | zero => exact absurd hn (by omega)
  | succ n ih =>
    rcases h.placed.step hall hlen with
      ⟨hrest, t, hirq, hdone, -, hpin⟩ | ⟨t, a', b', p', hirq, ht, hrest, harr, -, hpin⟩
    · rw [waitWaveform_succ h.sending h.arr_ne_zero hirq, waitWaveform_of_done hdone, hrest,
        waitWhileSending_succ h.sending h.arr_ne_zero hirq]
      exact ⟨rfl, t, waitWhileSending_of_done hdone flash n, hpin⟩
    · rw [hrest, List.length_cons] at hn
      obtain ⟨hline, s', hwait, hlevel⟩ := ih (ht.cursor harr) (by omega)
      rw [waitWaveform_succ h.sending h.arr_ne_zero hirq, hline, hrest,
        waitWhileSending_succ h.sending h.arr_ne_zero hirq, hpin]
      refine ⟨rfl, s', hwait, ?_⟩
      rw [hlevel, hpin, Bool.not_not, List.length_cons]
      rcases Nat.mod_two_eq_zero_or_one (Cursor.rest flash indices a' b' p').length with h0 | h1
      · rw [if_pos h0, if_neg (by omega)]
      · rw [if_neg (by omega), if_pos (by omega)]

/-! ## What a message is -/

/-- A list of indices that can be sent. -/
structure Sendable (flash : Memory) (indices : List UInt8) : Prop where
  ne_nil : indices ≠ []
  length_le : indices.length ≤ 255
  stored : AllStored flash indices

/-- The values loaded for a list of indices: the first one is taken from stored pattern
0, the others belong to the list. -/
def loads (first : UInt16) (flash : Memory) (indices : List UInt8) : List UInt16 :=
  first :: (indices.flatMap (sentPeriods flash)).tail

/-- A message has a period. -/
theorem Sendable.flatMap_ne_nil (h : Sendable flash indices) :
    indices.flatMap (sentPeriods flash) ≠ [] := by
  obtain ⟨q, hq, hone⟩ := h.stored _ (List.head_mem h.ne_nil)
  rw [flatMap_sentPeriods_eq h.ne_nil hq hone]
  exact List.cons_ne_nil _ _

theorem length_loads (hne : indices.flatMap (sentPeriods flash) ≠ []) (first : UInt16) :
    (loads first flash indices).length = (indices.flatMap (sentPeriods flash)).length := by
  rw [loads, List.length_cons, List.length_tail]
  exact Nat.succ_pred_eq_of_pos (List.length_pos_of_ne_nil hne)

/-- **A transmission on the line**: the pin goes up, and changes at the end of every
period but the last. -/
theorem Sendable.send434 (h : Sendable flash indices) (hfirst : storedPattern flash 0 = some first)
    (hzero : first.periods 0 ≠ 0) (ic : Ic) (s : Sender) :
    s.sendWaveform flash indices (UInt8.ofNat indices.length) =
        alternating true (ticks (loads (first.periods 0) flash indices)) ∧
      ∃ ic' s', Sender.send434 flash indices (UInt8.ofNat indices.length) ic s = some (ic', s') ∧
        s'.pa0 = decide ((loads (first.periods 0) flash indices).length % 2 = 1) := by
  obtain ⟨q, hq, hone⟩ := h.stored _ (List.head_mem h.ne_nil)
  obtain ⟨t, hstart, -, harr, -, hcursor⟩ := sendStart_eq_some h.ne_nil h.length_le hfirst hq hone s
  have hbound := length_flatMap_sentPeriods_le flash indices
  have hlen := h.length_le
  rw [flatMap_sentPeriods_eq h.ne_nil hq hone, List.length_cons] at hbound
  have hpin : t.pa0 = true := by
    obtain ⟨_, -, rfl⟩ := Option.map_eq_some_iff.mp hstart
    rfl
  obtain ⟨hline, u, hwait, hlevel⟩ := waitWaveform_of_cursor h.stored h.length_le (hcursor hzero)
    (n := maxInterrupts) (by rw [maxInterrupts]; omega)
  rw [harr, hpin] at hline
  have hloads : loads (first.periods 0) flash indices =
      first.periods 0 :: Cursor.rest flash indices 0 1 q := by
    rw [loads, flatMap_sentPeriods_eq h.ne_nil hq hone, List.tail_cons]
  rw [hloads]
  refine ⟨?_, ic.disableIc.enableIc, { u with patternIndices := [], indicesArrayLength := 0 },
    ?_, ?_⟩
  · rw [sendWaveform, hstart]
    exact hline
  · rw [Sender.send434, hstart, Option.bind_some, hwait, Option.map_some]
  · show u.pa0 = _
    rw [hlevel, hpin, List.length_cons]
    rcases Nat.mod_two_eq_zero_or_one (Cursor.rest flash indices 0 1 q).length with h0 | h1
    · rw [if_pos h0, decide_eq_true (by omega)]
    · rw [if_neg (by omega), decide_eq_false (by omega), Bool.not_true]

/-! ## Runs -/

/-- A message, and the time for which the pin is left alone before it. -/
structure Message where
  quiet : ℕ
  indices : List UInt8
  deriving DecidableEq

namespace Message

/-- The periods of a message. -/
def periods (flash : Memory) (m : Message) : List UInt16 := m.indices.flatMap (sentPeriods flash)

/-- The first period of the message is the given one, if it is heard at all: the only
period of a message runs on into the silence. -/
def BeginsWith (first : UInt16) (flash : Memory) (m : Message) : Prop :=
  2 ≤ (m.periods flash).length → (m.periods flash).head? = some first

end Message

/-- The sender, and a watcher of its pin. -/
structure Air where
  ic : Ic
  sender : Sender
  /-- The level the watcher sees. -/
  level : Bool
  /-- The time since the last edge. -/
  elapsed : ℕ
  /-- History: the times between edges. -/
  gaps : List ℕ
  deriving DecidableEq

namespace Air

/-- A silence and a transmission. -/
def step (flash : Memory) (air : Air) (m : Message) : Option Air :=
  let length := UInt8.ofNat m.indices.length
  let w := (air.sender.pa0, m.quiet) :: air.sender.sendWaveform flash m.indices length
  let seen := endFrom air.level air.elapsed w
  (Sender.send434 flash m.indices length air.ic air.sender).map fun r =>
    ⟨r.1, r.2, seen.1, seen.2, air.gaps ++ gapsFrom air.level air.elapsed w⟩

/-- The stretches that come to an end with an edge, and the one in progress: the wait
is followed by an edge, if the pin is low, and by the first stretch of the message
otherwise. -/
def stretches (level : Bool) (wait : ℕ) : List ℕ → List ℕ
  | [] => [wait]
  | time :: times => if level then (wait + time) :: times else wait :: time :: times

/-- What a watcher measures during some messages. -/
def messageGaps (first : UInt16) (flash : Memory) : Bool → ℕ → List Message → List ℕ
  | _, _, [] => []
  | level, elapsed, m :: ms =>
    let times := ticks (loads first flash m.indices)
    let seen := stretches level (elapsed + m.quiet) times
    seen.dropLast ++
      messageGaps first flash (decide (times.length % 2 = 1)) (seen.getLastD 0) ms

/-- What a watcher should measure: for each message the silence before it, into which
the last period of the message before runs on, and then its periods but the last, each
one tick longer. -/
def heardWhole (flash : Memory) : ℕ → List Message → List ℕ
  | _, [] => []
  | elapsed, m :: ms =>
    let times := ticks (m.periods flash)
    (elapsed + m.quiet) :: times.dropLast ++ heardWhole flash (times.getLastD 0) ms

variable {ms : List Message} {m : Message} {air : Air}

theorem length_ticks (loads : List UInt16) : (ticks loads).length = loads.length :=
  List.length_map _

/-- The message part of a line, seen by a watcher that agrees with the pin. -/
theorem gapsFrom_message (level : Bool) (elapsed quiet : ℕ) (value : UInt16)
    (values : List UInt16) :
    let w := (level, quiet) :: alternating true (ticks (value :: values))
    let seen := stretches level (elapsed + quiet) (ticks (value :: values))
    gapsFrom level elapsed w = seen.dropLast ∧
      endFrom level elapsed w = (decide ((value :: values).length % 2 = 1), seen.getLastD 0) := by
  have hcount : (ticks values).length = values.length := length_ticks values
  have hparity : (if (ticks values).length % 2 = 0 then true else !true) =
      decide ((value :: values).length % 2 = 1) := by
    rw [hcount, List.length_cons]
    rcases Nat.mod_two_eq_zero_or_one values.length with h0 | h1
    · rw [if_pos h0, decide_eq_true (by omega)]
    · rw [if_neg (by omega), decide_eq_false (by omega), Bool.not_true]
  simp only [gapsFrom, endFrom, if_true]
  cases level with
  | true =>
    refine ⟨gapsFrom_alternating true _ _ _, (endFrom_alternating true _ _ _).trans ?_⟩
    exact congrArg₂ Prod.mk hparity rfl
  | false =>
    refine ⟨gapsFrom_alternating_not false _ _, (endFrom_alternating_not false _ _).trans ?_⟩
    refine congrArg₂ Prod.mk ?_ rfl
    show (if (ticks (value :: values)).length % 2 = 0 then false else !false) = _
    rw [length_ticks]
    rcases Nat.mod_two_eq_zero_or_one (value :: values).length with h0 | h1
    · rw [if_pos h0, decide_eq_false (by omega)]
    · rw [if_neg (by omega), decide_eq_true (by omega), Bool.not_false]

/-- One message: what the watcher measures, and that it agrees with the pin again. -/
theorem exists_step {first : PeriodPattern} (hm : Sendable flash m.indices)
    (hfirst : storedPattern flash 0 = some first) (hzero : first.periods 0 ≠ 0)
    (hpin : air.level = air.sender.pa0) :
    ∃ air', step flash air m = some air' ∧ air'.level = air'.sender.pa0 ∧
      ∀ ms, air'.gaps ++ messageGaps (first.periods 0) flash air'.level air'.elapsed ms =
        air.gaps ++ messageGaps (first.periods 0) flash air.level air.elapsed (m :: ms) := by
  obtain ⟨hline, ic', s', hsent, hafter⟩ := hm.send434 hfirst hzero air.ic air.sender
  obtain ⟨hgaps, hend⟩ := gapsFrom_message air.level air.elapsed m.quiet (first.periods 0)
    (m.indices.flatMap (sentPeriods flash)).tail
  rw [loads] at hline
  refine ⟨_, by rw [step, hsent, Option.map_some], ?_, fun ms => ?_⟩
  · simp only
    rw [hline, ← hpin, hend, hafter]
    rfl
  · simp only
    rw [hline, ← hpin, hgaps, hend, messageGaps, List.append_assoc, length_ticks]
    rfl

/-- **What a watcher measures during a run.** -/
theorem exists_run_eq {first : PeriodPattern} (hfirst : storedPattern flash 0 = some first)
    (hzero : first.periods 0 ≠ 0) (hms : ∀ m ∈ ms, Sendable flash m.indices)
    (hpin : air.level = air.sender.pa0) :
    ∃ air', run (step flash) air ms = some air' ∧
      air'.gaps = air.gaps ++ messageGaps (first.periods 0) flash air.level air.elapsed ms := by
  induction ms generalizing air with
  | nil => exact ⟨air, rfl, (List.append_nil _).symm⟩
  | cons m ms ih =>
    rw [List.forall_mem_cons] at hms
    obtain ⟨next, hnext, hpin', heq⟩ := exists_step hms.1 hfirst hzero hpin
    obtain ⟨air', hrun, hgaps⟩ := ih hms.2 hpin'
    exact ⟨air', by rw [run_cons_of_step hnext, hrun], hgaps.trans (heq ms)⟩

/-! ## Messages that are heard whole -/

theorem length_stretches (level : Bool) (wait : ℕ) {times : List ℕ} (hne : times ≠ []) :
    (stretches level wait times).length + level.toNat = times.length + 1 := by
  obtain ⟨time, times, rfl⟩ := List.exists_cons_of_ne_nil hne
  cases level <;> rfl

/-- A watcher measures at most as many gaps as values are loaded, and one less if the
pin is high at the start. -/
theorem length_messageGaps_le (first : UInt16) (level : Bool) (elapsed : ℕ)
    (ms : List Message) :
    (messageGaps first flash level elapsed ms).length + (if ms = [] then 0 else level.toNat) ≤
      (ms.map fun m => (loads first flash m.indices).length).sum := by
  induction ms generalizing level elapsed with
  | nil => exact Nat.le_refl 0
  | cons m ms ih =>
    have hne : ticks (loads first flash m.indices) ≠ [] := List.cons_ne_nil _ _
    have hlength := length_stretches level (elapsed + m.quiet) hne
    have hrest := ih (decide ((ticks (loads first flash m.indices)).length % 2 = 1))
      ((stretches level (elapsed + m.quiet) (ticks (loads first flash m.indices))).getLastD 0)
    have hlevel := level.toNat_le
    have hone : 1 ≤ (loads first flash m.indices).length := Nat.le_add_left 1 _
    rw [length_ticks] at hlength
    rw [messageGaps, List.length_append, List.length_dropLast, if_neg (List.cons_ne_nil m ms),
      List.map_cons, List.sum_cons]
    omega

theorem length_heardWhole (hms : ∀ m ∈ ms, m.periods flash ≠ []) (elapsed : ℕ) :
    (heardWhole flash elapsed ms).length = (ms.map fun m => (m.periods flash).length).sum := by
  induction ms generalizing elapsed with
  | nil => rfl
  | cons m ms ih =>
    rw [List.forall_mem_cons] at hms
    have hpos := List.length_pos_of_ne_nil hms.1
    rw [heardWhole, List.length_append, List.length_cons, List.length_dropLast, length_ticks,
      ih hms.2, List.map_cons, List.sum_cons]
    omega

/-- A first period that is heard is heard as what it is. -/
theorem dropLast_ticks_cons_eq_iff (a b : UInt16) (values : List UInt16) :
    (ticks (a :: values)).dropLast = (ticks (b :: values)).dropLast ↔ (values ≠ [] → b = a) := by
  cases values with
  | nil => exact iff_of_true rfl fun h => absurd rfl h
  | cons value values =>
    have hdrop : ∀ v : UInt16, (ticks (v :: value :: values)).dropLast =
        (v.toNat + 1) :: (ticks (value :: values)).dropLast := fun _ => rfl
    rw [hdrop, hdrop, List.cons.injEq, and_iff_left rfl, Nat.add_right_cancel_iff,
      UInt16.toNat_inj, forall_prop_of_true (List.cons_ne_nil value values), eq_comm]

/-- Behind the first period nothing differs. -/
theorem getLastD_ticks_cons (a b : UInt16) {values : List UInt16} (hne : values ≠ []) :
    (ticks (a :: values)).getLastD 0 = (ticks (b :: values)).getLastD 0 := by
  obtain ⟨value, values, rfl⟩ := List.exists_cons_of_ne_nil hne
  rfl

/-- A message and what is loaded for it differ in the first period at most. -/
theorem exists_periods_eq (hm : m.periods flash ≠ []) (first : UInt16) :
    ∃ value values, m.periods flash = value :: values ∧
      loads first flash m.indices = first :: values := by
  obtain ⟨value, values, hvalues⟩ := List.exists_cons_of_ne_nil hm
  refine ⟨value, values, hvalues, ?_⟩
  rw [loads, ← Message.periods, hvalues, List.tail_cons]

/-- One message from a low pin: the gaps up to its last edge are the right ones exactly
if the first period is. -/
theorem dropLast_stretches_eq_iff (first : UInt16) (hm : m.periods flash ≠ []) (wait : ℕ) :
    (stretches false wait (ticks (loads first flash m.indices))).dropLast =
        wait :: (ticks (m.periods flash)).dropLast ↔ m.BeginsWith first flash := by
  obtain ⟨value, values, hvalues, hloads⟩ := exists_periods_eq hm first
  have hsplit : (stretches false wait (ticks (first :: values))).dropLast =
      wait :: (ticks (first :: values)).dropLast := rfl
  rw [hloads, Message.BeginsWith, hvalues, hsplit, List.cons.injEq, and_iff_right rfl,
    dropLast_ticks_cons_eq_iff, List.length_cons, List.head?_cons, Option.some.injEq]
  exact imp_congr_left ⟨fun h => Nat.succ_le_succ (List.length_pos_of_ne_nil h),
    fun h => List.ne_nil_of_length_pos (Nat.le_of_succ_le_succ h)⟩

/-- Its gaps are as many as they should be. -/
theorem length_dropLast_stretches (first : UInt16) (hm : m.periods flash ≠ []) (wait : ℕ) :
    (stretches false wait (ticks (loads first flash m.indices))).dropLast.length =
      (wait :: (ticks (m.periods flash)).dropLast).length := by
  obtain ⟨value, values, hvalues, hloads⟩ := exists_periods_eq hm first
  rw [hloads, hvalues]
  simp [stretches, ticks]

/-- The period that runs on into the silence is the right one, if it is not the first. -/
theorem getLastD_stretches (first : UInt16) (hm : m.periods flash ≠ []) {wait : ℕ}
    (heven : (m.periods flash).length % 2 = 0) :
    (stretches false wait (ticks (loads first flash m.indices))).getLastD 0 =
      (ticks (m.periods flash)).getLastD 0 := by
  obtain ⟨value, values, hvalues, hloads⟩ := exists_periods_eq hm first
  have hne : values ≠ [] := by
    rintro rfl
    rw [hvalues, List.length_singleton] at heven
    omega
  rw [hloads, hvalues, ← getLastD_ticks_cons first value hne]
  rfl

/-- Seen from a low pin, the messages are heard whole exactly if only the last one may
have an odd number of periods and each begins as it should. -/
theorem messageGaps_eq_heardWhole_iff (first : UInt16) (hms : ∀ m ∈ ms, m.periods flash ≠ [])
    (elapsed : ℕ) :
    messageGaps first flash false elapsed ms = heardWhole flash elapsed ms ↔
      (∀ m ∈ ms.dropLast, (m.periods flash).length % 2 = 0) ∧
        ∀ m ∈ ms, m.BeginsWith first flash := by
  induction ms generalizing elapsed with
  | nil => simp [messageGaps, heardWhole]
  | cons m ms ih =>
    rw [List.forall_mem_cons] at hms
    have hbegin := dropLast_stretches_eq_iff first hms.1 (elapsed + m.quiet)
    rw [List.forall_mem_cons, messageGaps, heardWhole]
    cases ms with
    | nil =>
      rw [messageGaps, heardWhole, List.append_nil, List.append_nil, hbegin]
      simp
    | cons m' ms =>
      rw [List.dropLast_cons_of_ne_nil (List.cons_ne_nil m' ms), List.forall_mem_cons]
      have hlength : (ticks (loads first flash m.indices)).length = (m.periods flash).length :=
        (length_ticks _).trans (length_loads hms.1 first)
      have hcut := length_dropLast_stretches first hms.1 (elapsed + m.quiet)
      rcases Nat.mod_two_eq_zero_or_one (m.periods flash).length with h0 | h1
      · -- the two measurements are cut at the same place, and go on from the same wait
        rw [getLastD_stretches first hms.1 h0, hlength, h0, decide_eq_false Nat.zero_ne_one]
        refine ⟨fun heq => ?_, fun ⟨⟨_, heven⟩, hfirst, hrest⟩ => ?_⟩
        · obtain ⟨hhead, htail⟩ := List.append_inj heq hcut
          obtain ⟨heven, hrest⟩ := (ih hms.2 _).mp htail
          exact ⟨⟨rfl, heven⟩, hbegin.mp hhead, hrest⟩
        · rw [hbegin.mpr hfirst, (ih hms.2 _).mpr ⟨heven, hrest⟩]
      · -- the pin stays high, and a gap is missing
        refine iff_of_false (fun heq => ?_) fun h => by omega
        rw [hlength, h1, decide_eq_true rfl] at heq
        have hless := @length_messageGaps_le flash first true
          ((stretches false (elapsed + m.quiet) (ticks (loads first flash m.indices))).getLastD 0)
          (m' :: ms)
        have hsum : ((m' :: ms).map fun m => (loads first flash m.indices).length) =
            (m' :: ms).map fun m => (m.periods flash).length :=
          List.map_congr_left fun m hm => length_loads (hms.2 m hm) first
        rw [hsum, ← length_heardWhole hms.2 ((ticks (m.periods flash)).getLastD 0),
          (List.append_inj heq hcut).2, if_neg (List.cons_ne_nil m' ms)] at hless
        exact absurd hless (Nat.not_succ_le_self _)

/-- **When messages are heard whole.**  Let a run begin with the pin low.  Then the
messages are sent, and a watcher measures each silence and every period but the last of
each message, one tick longer, if and only if every message that is followed by another
one has an even number of periods, and every message of more than one period begins with
the period that stored pattern 0 begins with. -/
theorem gaps_eq_heardWhole_iff {first : PeriodPattern} (hfirst : storedPattern flash 0 = some first)
    (hzero : first.periods 0 ≠ 0) (hms : ∀ m ∈ ms, Sendable flash m.indices)
    (hlow : air.sender.pa0 = false) (hlevel : air.level = false) :
    ∃ air', run (step flash) air ms = some air' ∧
      (air'.gaps = air.gaps ++ heardWhole flash air.elapsed ms ↔
        (∀ m ∈ ms.dropLast, (m.periods flash).length % 2 = 0) ∧
          ∀ m ∈ ms, m.BeginsWith (first.periods 0) flash) := by
  obtain ⟨air', hrun, hgaps⟩ := exists_run_eq hfirst hzero hms (hlevel.trans hlow.symm)
  refine ⟨air', hrun, ?_⟩
  rw [hgaps, List.append_cancel_left_eq, hlevel]
  exact messageGaps_eq_heardWhole_iff _ (fun m hm => (hms m hm).flatMap_ne_nil) _

/-- The sender after reset, and a watcher that has just come. -/
def initial : Air := ⟨Ic.initial, Sender.initial, false, 0, []⟩

/-- A pattern of two periods and one of three, which begins differently. -/
def oddAndEven : List PeriodPattern :=
  [⟨0, ![360, 1080, 0, 0, 0, 0, 0, 0], 76⟩, ⟨0, ![500, 700, 900, 0, 0, 0, 0, 0], 76⟩]

/-- A chip with these two patterns stored. -/
def oddAndEvenFlash : Memory := Flash.apply (savePatterns oddAndEven oddAndEven.length) blank

/-- The pattern of three periods is sent, and then the other one. -/
def oddThenEven : List Message := [⟨5000, [1]⟩, ⟨5000, [0]⟩]

/-- The first message is heard with the first period of the second one, whose own is
missing. -/
theorem gaps_eq_heardWhole_iff_oddThenEven :
    heardWhole oddAndEvenFlash initial.elapsed oddThenEven = [5000, 501, 701, 5901, 361] ∧
    ∃ air', run (step oddAndEvenFlash) initial oddThenEven = some air' ∧
      air'.gaps = [5000, 361, 701, 6262] ∧
      (air'.gaps = initial.gaps ++ heardWhole oddAndEvenFlash initial.elapsed oddThenEven ↔
        (∀ m ∈ oddThenEven.dropLast, (m.periods oddAndEvenFlash).length % 2 = 0) ∧
          ∀ m ∈ oddThenEven, m.BeginsWith (oddAndEven[0].periods 0) oddAndEvenFlash) := by
  have hfit : Fits oddAndEven.length := by decide
  have hpad : ∀ p ∈ oddAndEven, p.padding = 0 := by decide
  have hstored : ∀ (i : ℕ) (hi : i < oddAndEven.length),
      storedPattern oddAndEvenFlash i = some oddAndEven[i] :=
    storedPattern_savePatterns hfit hpad blank
  have hall : ∀ m ∈ oddThenEven, Sendable oddAndEvenFlash m.indices := by
    intro m hm
    rcases List.mem_pair.mp hm with rfl | rfl
    · refine ⟨List.cons_ne_nil 1 [], by decide, fun index hindex => ?_⟩
      obtain rfl := List.mem_singleton.mp hindex
      exact ⟨_, hstored 1 (by decide), by decide⟩
    · refine ⟨List.cons_ne_nil 0 [], by decide, fun index hindex => ?_⟩
      obtain rfl := List.mem_singleton.mp hindex
      exact ⟨_, hstored 0 (by decide), by decide⟩
  obtain ⟨air', hrun, hiff⟩ :=
    gaps_eq_heardWhole_iff (hstored 0 (by decide)) (by decide) hall
      (show initial.sender.pa0 = initial.level from rfl) rfl
  have hgaps : (run (step oddAndEvenFlash) initial oddThenEven).map Air.gaps =
      some [5000, 361, 701, 6262] := by decide +kernel
  rw [hrun] at hgaps
  exact ⟨by decide +kernel, air', hrun, Option.some.inj hgaps, hiff⟩

/-- Messages that begin with the pattern stored first are heard whole, the last one also
with an odd number of periods. -/
example : (run (step oddAndEvenFlash) initial [⟨5000, [0, 0]⟩, ⟨5000, [0, 1]⟩]).map Air.gaps =
    some (heardWhole oddAndEvenFlash 0 [⟨5000, [0, 0]⟩, ⟨5000, [0, 1]⟩]) := by decide +kernel

end Air
end Stm32Adaptive
