import Mathlib.Data.Fin.VecNotation
import Stm32Adaptive.InputCapture
import Stm32Adaptive.PatternPage
import Stm32Adaptive.Library.GreedyTokeniser
import Stm32Adaptive.Library.Runs

/-!
# The receiver as a greedy tokeniser

Samples arrive while the main loop is doing something else, and now and then
`process_signals` takes a bite off the front of the queue.  This file says what
the two make of a stream of samples, whatever the order of arrivals, clock
advances and calls.

The reference is a greedy tokeniser with a look-ahead of eight samples: the
least stored pattern that matches cuts off its own length, and if none does, one
sample is dropped.  `receiver_run` is the whole-run statement: the samples taken
so far are the tokens of the samples accepted so far, and the queue is what the
tokeniser has left.  It rests on one lemma about a single call,
`processSignals_greedy`, and on one invariant, `Tokenised`.

The calls are total: `pop_front` never meets an empty queue, because the window
check asks for eight samples and no pattern is longer.
-/

namespace Stm32Adaptive

open FlashMemory Flash Ic Runs

/-! ## One call -/

/-- What one `process_signals` call may return and leave behind: an eligible call
takes the least matching pattern's length off the front, or one sample if no
stored pattern matches; any other call takes nothing. -/
def GreedyCall (flash : Memory) (systick : UInt64) (ic : Ic) (result : ℤ) (ic' : Ic) : Prop :=
  if Eligible systick ic then
    (∃ (i : ℕ) (p : PeriodPattern), storedPattern flash i = some p ∧
      p.matchWindow (frontWindow ic.signalBuffer.queue) = true ∧
      (∀ j < i, ∀ q, storedPattern flash j = some q →
        q.matchWindow (frontWindow ic.signalBuffer.queue) = false) ∧
      result = i ∧ 1 ≤ p.getLength ∧ p.getLength ≤ ic.signalBuffer.queue.length ∧
      ic'.signalBuffer.queue = ic.signalBuffer.queue.drop p.getLength) ∨
    ((∀ (j : ℕ) q, storedPattern flash j = some q →
        q.matchWindow (frontWindow ic.signalBuffer.queue) = false) ∧
      result = -1 ∧ ic'.signalBuffer.queue = ic.signalBuffer.queue.drop 1)
  else result = -1 ∧ ic' = ic

/-- **One call is greedy**, and it always returns. -/
theorem processSignals_greedy {flash : Memory} (hpad : Padded flash) (systick : UInt64) (ic : Ic) :
    ∃ result ic', processSignals flash systick ic = some (result, ic') ∧
      GreedyCall flash systick ic result ic' ∧
      ic'.lastTimeInterrupted = ic.lastTimeInterrupted := by
  rcases processSignals_cases flash systick ic with
    ⟨helig, hcall⟩ | ⟨helig, i, p, b, hstored, hmatch, hbelow, hqueue, hcall⟩ |
    ⟨helig, i, b, hstored, hbelow, hqueue, hcall⟩
  · refine ⟨_, _, hcall, ?_, rfl⟩
    rw [GreedyCall, if_neg helig]
    exact ⟨rfl, rfl⟩
  · refine ⟨_, _, hcall, ?_, rfl⟩
    have hle := p.getLength_le
    have hlen := helig.1
    rw [GreedyCall, if_pos helig]
    refine Or.inl ⟨i, p, hstored, hmatch, fun j hj q hq => ?_, rfl,
      PeriodPattern.getLength_pos_of_matchWindow hmatch, by omega, hqueue⟩
    obtain ⟨q', hq', hno⟩ := hbelow j hj
    rw [hq] at hq'
    exact Option.some.inj hq' ▸ hno
  · refine ⟨_, _, hcall, ?_, rfl⟩
    rw [GreedyCall, if_pos helig]
    refine Or.inr ⟨?_, rfl, hqueue⟩
    intro j q hq
    have hj : j < i := by
      by_contra hge
      rw [hpad.storedPattern_eq_none hstored (not_lt.mp hge)] at hq
      exact absurd hq (by simp)
    obtain ⟨q', hq', hno⟩ := hbelow j hj
    rw [hq] at hq'
    exact Option.some.inj hq' ▸ hno

/-! ## The reference tokeniser -/

/-- Does stored pattern `i` match the window? -/
def matchesAt (flash : Memory) (window : Window) (i : ℕ) : Bool :=
  match storedPattern flash i with
  | none => false
  | some p => p.matchWindow window

/-- The length of stored pattern `i`. -/
def storedLength (flash : Memory) (i : ℕ) : ℕ :=
  match storedPattern flash i with
  | none => 1
  | some p => p.getLength

/-- What to cut off the front of a stream: the least matching pattern, or one
sample. -/
def cutFront (flash : Memory) (samples : List UInt16) : ℤ × ℕ :=
  match (List.range 256).find? (matchesAt flash (frontWindow samples)) with
  | some i => (i, storedLength flash i)
  | none => (-1, 1)

theorem frontWindow_append {l : List UInt16} (h : 8 ≤ l.length) (m : List UInt16) :
    frontWindow (l ++ m) = frontWindow l := by
  ext i : 1
  have hi := i.isLt
  exact List.getD_append _ _ _ _ (by omega)

theorem matchesAt_eq_true_iff {flash : Memory} {window : Window} {i : ℕ} :
    matchesAt flash window i = true ↔
      ∃ p, storedPattern flash i = some p ∧ p.matchWindow window = true := by
  unfold matchesAt
  cases storedPattern flash i <;> simp

theorem one_le_cutFront (flash : Memory) (l : List UInt16) :
    1 ≤ (cutFront flash l).2 ∧ (cutFront flash l).2 ≤ 8 := by
  unfold cutFront
  split
  · rename_i i hfind
    obtain ⟨p, hp, hmatch⟩ := matchesAt_eq_true_iff.mp (List.find?_some hfind)
    simp only [storedLength, hp]
    exact ⟨PeriodPattern.getLength_pos_of_matchWindow hmatch, p.getLength_le⟩
  · decide

/-- The receiver's reference: look at eight samples, cut off the least matching
pattern, or else one sample. -/
def receiverTokeniser (flash : Memory) : GreedyTokeniser UInt16 ℤ where
  window := 8
  cut := cutFront flash
  window_pos := by decide
  cut_append l m h := by rw [cutFront, cutFront, frontWindow_append h]
  cut_pos l _ := (one_le_cutFront flash l).1
  cut_le l _ := (one_le_cutFront flash l).2

/-- An eligible greedy call cuts off what the reference cuts off. -/
theorem GreedyCall.eq_cut {flash : Memory} {systick : UInt64} {ic ic' : Ic} {result : ℤ}
    (h : GreedyCall flash systick ic result ic') (helig : Eligible systick ic) :
    (result, ic'.signalBuffer.queue) = ((cutFront flash ic.signalBuffer.queue).1,
      ic.signalBuffer.queue.drop (cutFront flash ic.signalBuffer.queue).2) := by
  rw [GreedyCall, if_pos helig] at h
  rcases h with ⟨i, p, hstored, hmatch, hleast, rfl, -, -, hqueue⟩ | ⟨hnone, rfl, hqueue⟩
  · have hi : i < 256 := by
      obtain ⟨addr, haddr, -⟩ := Option.map_eq_some_iff.mp hstored
      have := lt_of_getPattern haddr
      omega
    have hfind : (List.range 256).find? (matchesAt flash (frontWindow ic.signalBuffer.queue)) =
        some i := by
      rw [List.find?_range_eq_some]
      refine ⟨matchesAt_eq_true_iff.mpr ⟨p, hstored, hmatch⟩, List.mem_range.mpr hi, ?_⟩
      intro j hj
      rw [Bool.not_eq_true', Bool.eq_false_iff]
      intro hj'
      obtain ⟨q, hq, hqmatch⟩ := matchesAt_eq_true_iff.mp hj'
      rw [hleast j hj q hq] at hqmatch
      exact absurd hqmatch (by simp)
    simp only [cutFront, hfind, storedLength, hstored, hqueue]
  · have hfind : (List.range 256).find? (matchesAt flash (frontWindow ic.signalBuffer.queue)) =
        none := by
      rw [List.find?_eq_none]
      intro j _ hj
      obtain ⟨q, hq, hqmatch⟩ := matchesAt_eq_true_iff.mp hj
      rw [hnone j q hq] at hqmatch
      exact absurd hqmatch (by simp)
    simp only [cutFront, hfind, hqueue]

/-! ## Runs -/

/-- What can happen to the receiver, each as one whole operation. -/
inductive ReceiverEvent where
  | push (sample : UInt16)
  | clock (ms : UInt64)
  | processSignals
  deriving DecidableEq

/-- The receiver and the history of a run. -/
structure Receiver where
  ic : Ic
  systick : UInt64
  /-- History: the samples pushed while fewer than 500 were queued. -/
  accepted : List UInt16
  /-- History: the samples the calls have taken off the front. -/
  consumed : List UInt16
  /-- History: for each eligible call its return value and the samples it took. -/
  segments : List (ℤ × List UInt16)
  deriving DecidableEq

namespace Receiver

/-- The queue of the receiver. -/
abbrev queue (r : Receiver) : List UInt16 := r.ic.signalBuffer.queue

/-- A receiver with nothing behind it. -/
def start (ic : Ic) (systick : UInt64) : Receiver := ⟨ic, systick, [], [], []⟩

/-- The receiver after a call.  The samples the call took are read off the queue
before and after it. -/
def afterCall (r : Receiver) (call : ℤ × Ic) : Receiver :=
  let taken := r.queue.take (r.queue.length - call.2.signalBuffer.queue.length)
  { r with
    ic := call.2
    consumed := r.consumed ++ taken
    segments := if Eligible r.systick r.ic then r.segments ++ [(call.1, taken)] else r.segments }

/-- One event. -/
def step (flash : Memory) (r : Receiver) : ReceiverEvent → Option Receiver
  | .push sample => some { r with
      ic := r.ic.acceptPeriod r.systick sample
      accepted :=
        if r.queue.length < signalBufferSize then r.accepted ++ [sample] else r.accepted }
  | .clock ms => some { r with systick := r.systick + ms }
  | .processSignals => (Ic.processSignals flash r.systick r.ic).map r.afterCall

variable {flash : Memory}

/-- A call of the run is a step of the reference, or no step at all. -/
theorem step_processSignals (hpad : Padded flash) (r : Receiver) :
    ∃ r', r.step flash .processSignals = some r' ∧ r'.systick = r.systick ∧
      r'.accepted = r.accepted ∧ r'.ic.lastTimeInterrupted = r.ic.lastTimeInterrupted ∧
      if Eligible r.systick r.ic then
        r'.queue = r.queue.drop (cutFront flash r.queue).2 ∧
        r'.consumed = r.consumed ++ r.queue.take (cutFront flash r.queue).2 ∧
        r'.segments = r.segments ++
          [((cutFront flash r.queue).1, r.queue.take (cutFront flash r.queue).2)]
      else r'.queue = r.queue ∧ r'.consumed = r.consumed ∧ r'.segments = r.segments := by
  obtain ⟨result, ic', hcall, hgreedy, hlast⟩ := processSignals_greedy hpad r.systick r.ic
  refine ⟨r.afterCall (result, ic'), by rw [step, hcall, Option.map_some], rfl, rfl, hlast, ?_⟩
  by_cases helig : Eligible r.systick r.ic
  · obtain ⟨hresult, hqueue⟩ := Prod.mk.inj (hgreedy.eq_cut helig)
    have hle := (one_le_cutFront flash r.queue).2
    have hlen : 8 ≤ r.queue.length := helig.1
    have htaken : r.queue.length - ic'.signalBuffer.queue.length =
        (cutFront flash r.queue).2 := by
      rw [hqueue, List.length_drop]
      exact Nat.sub_sub_self (hle.trans hlen)
    rw [if_pos helig]
    refine ⟨hqueue, ?_, ?_⟩
    · simp only [afterCall, htaken]
    · simp only [afterCall, htaken, if_pos helig, hresult]
  · rw [GreedyCall, if_neg helig] at hgreedy
    obtain ⟨-, rfl⟩ := hgreedy
    rw [if_neg helig]
    refine ⟨rfl, ?_, ?_⟩
    · simp only [afterCall, Nat.sub_self, List.take_zero, List.append_nil]
    · simp only [afterCall, if_neg helig]

/-- **The invariant of a run.**  The segments are tokens of the accepted samples,
the queue is what is left of these, and the segments hold what was consumed. -/
structure Tokenised (flash : Memory) (r : Receiver) : Prop where
  tokenises : (receiverTokeniser flash).Tokenises r.accepted r.segments r.queue
  consumed_eq : r.consumed = (r.segments.map Prod.snd).flatten

theorem tokenised_start {ic : Ic} (hempty : ic.signalBuffer.queue = []) (systick : UInt64) :
    Tokenised flash (start ic systick) := by
  refine ⟨?_, rfl⟩
  show GreedyTokeniser.Tokenises _ [] [] ic.signalBuffer.queue
  rw [hempty]
  exact GreedyTokeniser.Tokenises.start

/-- Every event can happen, and keeps the invariant. -/
theorem exists_step (hpad : Padded flash) (r : Receiver) (e : ReceiverEvent)
    (h : Tokenised flash r) : ∃ r', r.step flash e = some r' ∧ Tokenised flash r' := by
  cases e with
  | push sample =>
    refine ⟨_, rfl, ?_, h.consumed_eq⟩
    by_cases hroom : r.queue.length < signalBufferSize
    · simp only [queue, acceptPeriod, if_pos hroom, SignalBuffer.queue_push_of_lt hroom]
      exact h.tokenises.append [sample]
    · simp only [queue, acceptPeriod, if_neg hroom,
        SignalBuffer.push_of_full (b := r.ic.signalBuffer) (not_lt.mp hroom)]
      exact h.tokenises
  | clock ms => exact ⟨_, rfl, h.tokenises, h.consumed_eq⟩
  | processSignals =>
    obtain ⟨r', hstep, -, haccepted, -, hcall⟩ := step_processSignals hpad r
    refine ⟨r', hstep, ?_⟩
    by_cases helig : Eligible r.systick r.ic
    · rw [if_pos helig] at hcall
      obtain ⟨hqueue, hconsumed, hsegments⟩ := hcall
      refine ⟨?_, ?_⟩
      · rw [haccepted, hqueue, hsegments]
        exact h.tokenises.token helig.1
      · rw [hconsumed, hsegments, h.consumed_eq, List.map_append, List.flatten_append,
          List.map_singleton, List.flatten_singleton]
    · rw [if_neg helig] at hcall
      obtain ⟨hqueue, hconsumed, hsegments⟩ := hcall
      exact ⟨by rw [haccepted, hqueue, hsegments]; exact h.tokenises,
        by rw [hconsumed, hsegments]; exact h.consumed_eq⟩

/-- The delay has elapsed whenever the main loop calls. -/
def QuietCalls (r : Receiver) (e : ReceiverEvent) : Prop :=
  e = .processSignals → delayElapsed r.systick r.ic

/-- **Draining.**  Without pushes every call takes a sample until fewer than
eight are left. -/
theorem length_queue_of_run (hpad : Padded flash) {r r' : Receiver} {es : List ReceiverEvent}
    (hpush : ∀ v, .push v ∉ es) (hquiet : Along (step flash) QuietCalls r es)
    (hrun : run (step flash) r es = some r') :
    r'.accepted = r.accepted ∧
      (r'.queue.length < 8 ∨ r'.queue.length + es.count .processSignals ≤ r.queue.length) := by
  induction es generalizing r with
  | nil =>
    rw [run_nil, Option.some.injEq] at hrun
    subst hrun
    exact ⟨rfl, Or.inr (le_refl _)⟩
  | cons e es ih =>
    rw [run_cons, Option.bind_eq_some_iff] at hrun
    obtain ⟨s, hs, hrun⟩ := hrun
    obtain ⟨hacc, hlen⟩ :=
      ih (fun v hv => hpush v (List.mem_cons_of_mem _ hv)) (hquiet.2 s hs) hrun
    cases e with
    | push v => exact absurd List.mem_cons_self (hpush v)
    | clock ms =>
      obtain rfl := Option.some.inj hs
      rw [List.count_cons_of_ne (by simp)]
      exact ⟨hacc, hlen⟩
    | processSignals =>
      obtain ⟨s', hs', -, haccepted, -, hcall⟩ := step_processSignals hpad r
      obtain rfl := Option.some.inj (hs.symm.trans hs')
      refine ⟨hacc.trans haccepted, ?_⟩
      rw [List.count_cons_self]
      by_cases helig : Eligible r.systick r.ic
      · rw [if_pos helig] at hcall
        have hpos := (one_le_cutFront flash r.queue).1
        have hshort := congrArg List.length hcall.1
        rw [List.length_drop] at hshort
        have hwindow := helig.1
        omega
      · -- the delay has elapsed, so the window was short
        rw [if_neg helig] at hcall
        have hshort : r.queue.length < 8 := by
          by_contra hge
          exact helig ⟨not_lt.mp hge, hquiet.1 rfl⟩
        rw [hcall.1] at hlen
        omega

end Receiver

/-- **The receiver is a greedy tokeniser, over whole runs.**  From an empty queue,
every interleaving of pushes, clock advances and calls goes through, and in the
state it leads to: the accepted samples are the consumed ones followed by the
queue; the next call is greedy; at most 500 samples are queued; the segments cut
off so far are tokens of the accepted samples, and hence a prefix of their one
greedy tokenisation.  If nothing more is pushed, calls made after the delay
leave fewer than eight samples, and then the segments are the whole
tokenisation. -/
theorem receiver_run {flash : Memory} (hpad : Padded flash) {ic : Ic}
    (hempty : ic.signalBuffer.queue = []) (systick : UInt64) (es : List ReceiverEvent) :
    ∃ r, run (Receiver.step flash) (Receiver.start ic systick) es = some r ∧
      r.accepted = r.consumed ++ r.queue ∧
      (∃ result ic', processSignals flash r.systick r.ic = some (result, ic') ∧
        GreedyCall flash r.systick r.ic result ic') ∧
      r.queue.length ≤ 500 ∧
      (receiverTokeniser flash).Tokenises r.accepted r.segments r.queue ∧
      r.segments <+: ((receiverTokeniser flash).tokens r.accepted).1 ∧
      ∀ es', (∀ v, .push v ∉ es') → Along (Receiver.step flash) Receiver.QuietCalls r es' →
        r.queue.length ≤ es'.count .processSignals →
        ∃ r', run (Receiver.step flash) r es' = some r' ∧ r'.queue.length < 8 ∧
          (receiverTokeniser flash).tokens r.accepted = (r'.segments, r'.queue) := by
  obtain ⟨r, hrun, hinv⟩ :=
    exists_run (Receiver.exists_step hpad) (Receiver.tokenised_start hempty systick) es
  obtain ⟨result, ic', hcall, hgreedy, -⟩ := processSignals_greedy hpad r.systick r.ic
  refine ⟨r, hrun, ?_, ⟨result, ic', hcall, hgreedy⟩, r.ic.signalBuffer.length_le,
    hinv.tokenises, ?_, ?_⟩
  · rw [hinv.consumed_eq]
    exact hinv.tokenises.flatten_append
  · rw [hinv.tokenises.tokens_eq]
    exact List.prefix_append _ _
  · intro es' hpush hquiet hcount
    obtain ⟨r', hrun', hinv'⟩ := exists_run (Receiver.exists_step hpad) hinv es'
    obtain ⟨hacc, hlen⟩ := Receiver.length_queue_of_run hpad hpush hquiet hrun'
    have hshort : r'.queue.length < 8 := by omega
    refine ⟨r', hrun', hshort, ?_⟩
    rw [← hacc, hinv'.tokenises.tokens_eq,
      GreedyTokeniser.tokens_of_short (T := receiverTokeniser flash) (not_le.mpr hshort),
      List.append_nil]

/-- A chip with one stored pattern, of two pulses. -/
def twoPulsesFlash : Memory :=
  Flash.apply (savePatterns [⟨0, ![360, 1080, 0, 0, 0, 0, 0, 0], 76⟩] 1) blank

/-- Eight samples, the first two of which the pattern matches, are followed by a
second of silence and a call. -/
theorem receiver_run_twoPulses :
    ∃ r, run (Receiver.step twoPulsesFlash) (Receiver.start Ic.initial 0)
        ([360, 1080, 500, 500, 500, 500, 500, 500].map ReceiverEvent.push ++
          [.clock 1000, .processSignals]) = some r ∧
      r.accepted = r.consumed ++ r.queue := by
  have hpad : Padded twoPulsesFlash := padded_savePatterns (by decide) (by decide) blank
  obtain ⟨r, hrun, haccepted, -⟩ := @receiver_run _ hpad Ic.initial rfl 0
    ([360, 1080, 500, 500, 500, 500, 500, 500].map ReceiverEvent.push ++
      [.clock 1000, .processSignals])
  exact ⟨r, hrun, haccepted⟩

end Stm32Adaptive
