import Stm32Adaptive.Library.DelayedReads
import Stm32Adaptive.MainLoop

/-!
# Interrupts inside a command

A command that needs more bytes than have come waits for them in `_getchar`, and all
the while interrupts are served: bytes come in, the clock advances, captures are
queued, LED frames start.  `Mcu.handleUsart` knows nothing of this; it takes its bytes
from the queue in one piece.

Here the command is taken apart.  `ReadPoint` are the places in `handle_usart` that
wait for a byte, with the variables that are alive there, and `nextStage` leads from
one to the next.  `FineLoop` is the main loop in which interrupts come between any two
reads.  `fine_refines` says that nothing is gained: a run of the fine loop leads to a
state to which a run of the coarse one leads as well, with the same interrupts in the
same order and the command executed in one piece after the last byte it reads.
-/

namespace Stm32Adaptive

open FlashMemory Flash Framing Runs DelayedReads

namespace Mcu

/-! ## The places where `handle_usart` waits -/

/-- The variables of the command `C_SETUP`. -/
structure SetupLoop where
  nPatterns : ℕ
  /-- The records that are complete. -/
  tmp : List PeriodPattern
  /-- How many come after the current one. -/
  left : ℕ
  /-- The current one. -/
  record : PeriodPattern

/-- The calls of `getchar`. -/
inductive ReadPoint where
  | command
  | nPatterns
  /-- The first byte of a period, which is the upper one; `rest` are the periods after
  it. -/
  | upper (s : SetupLoop) (periodI : Fin 8) (rest : List (Fin 8))
  | lower (s : SetupLoop) (periodI : Fin 8) (rest : List (Fin 8)) (upper : UInt8)
  | tolerance (s : SetupLoop)
  | text (i : ℤ) (commandBuffer : List UInt8)

/-- What a command does when all its bytes have been read. -/
inductive UsartAction where
  | savePatterns (tmp : List PeriodPattern) (n : ℕ)
  | enableIc
  | disableIc
  | ws2815Test
  | testSignal
  | fade (commandBuffer : List UInt8)
  | nothing

/-- Carry it out. -/
def perform (m : Mcu) : UsartAction → Option Mcu
  | .savePatterns tmp n => some (m.savePatterns tmp n)
  | .enableIc => some m.enableIc
  | .disableIc => some m.disableIc
  | .ws2815Test => some m.ws2815Test
  | .testSignal => m.cTestSignal
  | .fade commandBuffer =>
    (parseFade (CString.contents commandBuffer)).map fun r => m.fadeToColor r.1 r.2
  | .nothing => some m

/-- The head of the loop over the periods. -/
def periodLoop (s : SetupLoop) : List (Fin 8) → Stage ReadPoint UsartAction
  | [] => .waits (.tolerance s)
  | periodI :: rest => .waits (.upper s periodI rest)

/-- The head of the loop over the records. -/
def recordLoop (nPatterns : ℕ) (tmp : List PeriodPattern) : ℕ → Stage ReadPoint UsartAction
  | 0 => .ready (.savePatterns tmp nPatterns)
  | left + 1 => periodLoop ⟨nPatterns, tmp, left, callocPattern⟩ (List.finRange 8)

/-- The head of the loop that fills `command_buffer`. -/
def textLoop (i : ℤ) (commandBuffer : List UInt8) : Stage ReadPoint UsartAction :=
  if UInt32.ofInt i < UInt32.ofNat commandLength then .waits (.text i commandBuffer)
  else .ready (.fade commandBuffer)

/-- What `handle_usart` does with a byte, up to the next call of `getchar`. -/
def nextStage : ReadPoint → UInt8 → Stage ReadPoint UsartAction
  | .command, c =>
    if c = cSetup then .waits .nPatterns
    else if c = cStart then .ready .enableIc
    else if c = cHalt then .ready .disableIc
    else if c = cDevTest then .ready .ws2815Test
    else if c = cTest then .ready .testSignal
    else if c = cFadeToColor then textLoop 0 (List.replicate (commandLength + 1) 0)
    else .ready .nothing
  | .nPatterns, c => recordLoop c.toNat [] c.toNat
  | .upper s periodI rest, c => .waits (.lower s periodI rest c)
  | .lower s periodI rest upper, c =>
    periodLoop { s with record := { s.record with
      periods := Function.update s.record.periods periodI (ofBytes c upper) } } rest
  | .tolerance s, c =>
    recordLoop s.nPatterns (s.tmp ++ [{ s.record with toleranceMul255 := c }]) s.left
  | .text i commandBuffer, c =>
    let commandBuffer := commandBuffer.set i.toNat c
    if c = 8 then textLoop (i - 2 + 1) commandBuffer else textLoop (i + 1) commandBuffer

/-! ## Byte by byte and in one piece -/

theorem reads_periodLoop (is : List (Fin 8)) (s : SetupLoop) (l : List UInt8) :
    reads nextStage (periodLoop s is) l = ((readPeriods is s.record).run l).bind fun r =>
      reads nextStage (.waits (.tolerance { s with record := r.1 })) r.2 := by
  induction is generalizing s l with
  | nil => rfl
  | cons i is ih =>
    match l with
    | [] => rfl
    | [_] => rfl
    | upper :: lower :: l =>
      show reads nextStage (periodLoop _ is) l = _
      rw [ih]
      rfl

theorem reads_recordLoop (nPatterns : ℕ) (left : ℕ) (tmp : List PeriodPattern) (l : List UInt8) :
    reads nextStage (recordLoop nPatterns tmp left) l =
      ((times readPattern left).run l).map fun r =>
        (.savePatterns (tmp ++ r.1) nPatterns, r.2) := by
  induction left generalizing tmp l with
  | zero => simp [recordLoop, times]
  | succ left ih =>
    rw [recordLoop, reads_periodLoop, times, readPattern]
    simp only [StateT.run_bind]
    cases (readPeriods (List.finRange 8) callocPattern).run l with
    | none => rfl
    | some r =>
      obtain ⟨record, l⟩ := r
      cases l with
      | nil => rfl
      | cons c l =>
        show reads nextStage (recordLoop nPatterns _ left) l = _
        rw [ih]
        show _ = Option.map _ (((times readPattern left).run l).bind fun r => _)
        rw [Option.map_bind, Option.map_eq_bind]
        simp

theorem reads_textLoop (l : List UInt8) (i : ℤ) (commandBuffer : List UInt8) :
    reads nextStage (textLoop i commandBuffer) l =
      ((readCommand i commandBuffer).run l).map fun r => (.fade r.1, r.2) := by
  induction l generalizing i commandBuffer with
  | nil =>
    rw [textLoop]
    by_cases hi : UInt32.ofInt i < UInt32.ofNat commandLength
    · rw [if_pos hi, show (readCommand i commandBuffer).run [] = none from if_pos hi]
      rfl
    · rw [if_neg hi, readCommand_of_not_lt hi]
      rfl
  | cons c l ih =>
    rw [textLoop]
    by_cases hi : UInt32.ofInt i < UInt32.ofNat commandLength
    swap
    · rw [if_neg hi, readCommand_of_not_lt hi]
      rfl
    rw [if_pos hi]
    show reads nextStage (if c = 8 then _ else _) l = _
    by_cases hc : c = 8
    · rw [if_pos hc, ih, hc, readCommand_backspace_of_lt hi]
    · rw [if_neg hc, ih, readCommand_cons_of_lt hi hc]

/-- **A command in one piece reads what the command read byte by byte reads**, and does
the same. -/
theorem handleUsart_eq_reads {m : Mcu} (h : m.inputQueue ≠ []) :
    m.handleUsart = (reads nextStage (.waits .command) m.inputQueue).bind fun r =>
      (m.feed r.2).perform r.1 := by
  obtain ⟨c, queue, hqueue⟩ := List.exists_cons_of_ne_nil h
  rw [handleUsart, hqueue]
  show (if c = cSetup then (m.feed queue).cSetupPatterns else _) =
    (reads nextStage (nextStage .command c) queue).bind _
  rw [nextStage]
  split_ifs
  · show _ = (reads nextStage (.waits .nPatterns) queue).bind _
    cases queue with
    | nil => rfl
    | cons n queue =>
      show _ = (reads nextStage (recordLoop n.toNat [] n.toNat) queue).bind _
      have hread : readPatterns.run (n :: queue) =
          ((times readPattern n.toNat).run queue).bind fun r => some ((n.toNat, r.1), r.2) := rfl
      rw [reads_recordLoop, cSetupPatterns]
      simp only [inputQueue_feed, hread]
      cases (times readPattern n.toNat).run queue <;> rfl
  · rw [reads_ready]
    rfl
  · rw [reads_ready]
    rfl
  · rw [reads_ready]
    rfl
  · rw [reads_ready]
    rfl
  · rw [reads_textLoop, cFade]
    cases (readCommand 0 (List.replicate (commandLength + 1) 0)).run queue with
    | none => rfl
    | some r => exact (Option.map_eq_bind (x := parseFade (CString.contents r.1)) ..).symm
  · rw [reads_ready]
    rfl

end Mcu

/-! ## The main loop with interrupts inside a command -/

/-- The serial interrupt appends a byte to the input queue; the others leave it alone, and
none of them looks at it. -/
theorem Mcu.step_interrupt_feed (m : Mcu) {i : Interrupt} {m' : Mcu}
    (h : m.step i.event = some m') :
    ∃ arrivals, m'.inputQueue = m.inputQueue ++ arrivals ∧
      ∀ l, (m.feed l).step i.event = some (m'.feed (l ++ arrivals)) := by
  cases i with
  | receive c =>
    obtain rfl := Option.some.inj h
    exact ⟨[c], rfl, fun l => rfl⟩
  | sysTick | frameStart =>
    obtain rfl := Option.some.inj h
    refine ⟨[], (List.append_nil _).symm, fun l => ?_⟩
    rw [List.append_nil]
    rfl
  | capture tim3 =>
    obtain rfl := Option.some.inj h
    refine ⟨[], ?_, fun l => ?_⟩
    · split <;> exact (List.append_nil _).symm
    · rw [List.append_nil]
      show some (if m.ic.enabled = true then _ else _) = _
      split <;> rfl

namespace MainLoop

/-- The loop with another input queue. -/
def feed (s : MainLoop) (inputQueue : List UInt8) : MainLoop :=
  { s with mcu := s.mcu.feed inputQueue }

/-- An interrupt does not look at the input queue, and appends to it. -/
theorem step_interrupt_feed (s : MainLoop) (i : Interrupt) (t : MainLoop)
    (h : s.step (.interrupt i) = some t) :
    ∃ arrivals, t.mcu.inputQueue = s.mcu.inputQueue ++ arrivals ∧
      ∀ l, (s.feed l).step (.interrupt i) = some (t.feed (l ++ arrivals)) := by
  obtain ⟨mcu, hmcu, rfl⟩ := Option.map_eq_some_iff.mp h
  obtain ⟨arrivals, hqueue, hfeed⟩ := s.mcu.step_interrupt_feed hmcu
  refine ⟨arrivals, hqueue, fun l => ?_⟩
  show ((s.mcu.feed l).step i.event).map _ = _
  rw [hfeed]
  rfl

/-- The serial port of the loop. -/
def inbox : Inbox MainLoop UInt8 Interrupt where
  queue s := s.mcu.inputQueue
  feed := feed
  env s i := s.step (.interrupt i)
  queue_feed _ _ := rfl
  feed_feed _ _ _ := rfl
  feed_queue _ := rfl
  env_feed := step_interrupt_feed

end MainLoop

/-- An interrupt, the next call of the loop, or a byte read inside `handle_usart`. -/
inductive FineEvent where
  | interrupt (i : Interrupt)
  | call
  | read

/-- The main loop, perhaps in the middle of a command. -/
structure FineLoop where
  loop : MainLoop
  /-- Where `handle_usart` stands, if it has been entered. -/
  stage : Option (Stage Mcu.ReadPoint Mcu.UsartAction)

namespace FineLoop

/-- Before the first round. -/
def initial (flash : Memory) : FineLoop := ⟨MainLoop.initial flash, none⟩

/-- `handle_usart` returns at once if there is no byte; else it is entered, reads, and
is left when it has done what the command asks for. -/
def call (s : FineLoop) : Option FineLoop :=
  match s.stage with
  | none =>
    if s.loop.nextCall = .handleUsart ∧ s.loop.mcu.inputQueue ≠ [] then
      some { s with stage := some (.waits .command) }
    else (s.loop.step .call).map fun loop => ⟨loop, none⟩
  | some (.ready action) => (s.loop.mcu.perform action).map fun mcu =>
    ⟨{ s.loop with mcu := mcu, nextCall := .processSignals }, none⟩
  | some (.waits _) => none

/-- One byte off the queue. -/
def read (s : FineLoop) : Option FineLoop :=
  match s.stage, s.loop.mcu.inputQueue with
  | some (.waits q), c :: rest => some ⟨s.loop.feed rest, some (Mcu.nextStage q c)⟩
  | _, _ => none

/-- One event. -/
def step (s : FineLoop) : FineEvent → Option FineLoop
  | .interrupt i => (s.loop.step (.interrupt i)).map fun loop => { s with loop := loop }
  | .call => s.call
  | .read => s.read

end FineLoop

/-- The interrupts of a run of the loop. -/
def MainEvent.interrupt? : MainEvent → Option Interrupt
  | .interrupt i => some i
  | .call => none

/-- The interrupts of a run of the fine loop. -/
def FineEvent.interrupt? : FineEvent → Option Interrupt
  | .interrupt i => some i
  | _ => none

namespace FineLoop

/-- A call of `handle_usart` has got to `p`, and the loop `u` is about to make it in one
piece. -/
structure Begun (u : MainLoop) (loop : MainLoop) (p : Stage Mcu.ReadPoint Mcu.UsartAction) :
    Prop where
  nextCall_eq : loop.nextCall = .handleUsart
  inputQueue_ne_nil : u.mcu.inputQueue ≠ []
  delayed : Delayed MainLoop.inbox Mcu.nextStage u loop (.waits .command) p

/-- The loop `u` is about to do in one piece what `s` has begun. -/
def Simulates (u : MainLoop) (s : FineLoop) : Prop :=
  match s.stage with
  | none => u = s.loop
  | some p => Begun u s.loop p

variable {u loop loop' : MainLoop} {p : Stage Mcu.ReadPoint Mcu.UsartAction} {s s' : FineLoop}

theorem Begun.nextCall (h : Begun u loop p) : u.nextCall = .handleUsart := by
  rw [h.delayed.eq_feed]
  exact h.nextCall_eq

/-- The call in one piece, in terms of what is left to be read. -/
theorem Begun.step_call (h : Begun u loop p) :
    u.step .call = (reads Mcu.nextStage p loop.mcu.inputQueue).bind fun r =>
      ((loop.feed r.2).mcu.perform r.1).map fun mcu =>
        { loop with mcu := mcu, nextCall := .processSignals } := by
  have hreads := h.delayed.reads_eq []
  rw [List.append_nil, List.append_nil] at hreads
  simp only [MainLoop.step, h.nextCall, Mcu.handleUsart_eq_reads h.inputQueue_ne_nil]
  rw [show reads Mcu.nextStage (.waits .command) u.mcu.inputQueue = _ from hreads, Option.map_bind,
    h.delayed.eq_feed]
  rfl

theorem Begun.interrupt (h : Begun u loop p) {i : Interrupt}
    (hstep : loop.step (.interrupt i) = some loop') :
    ∃ u', u.step (.interrupt i) = some u' ∧ Begun u' loop' p := by
  obtain ⟨u', hu', hdelayed⟩ := h.delayed.environment (I := MainLoop.inbox) hstep
  refine ⟨u', hu', ?_, ?_, hdelayed⟩
  · obtain ⟨_, _, rfl, -⟩ := MainLoop.step_interrupt hstep
    exact h.nextCall_eq
  · obtain ⟨arrivals, hqueue, -⟩ := MainLoop.step_interrupt_feed u i u' hu'
    rw [hqueue]
    exact List.append_ne_nil_of_left_ne_nil h.inputQueue_ne_nil arrivals

/-- A byte is read. -/
theorem read_cases (h : s.read = some s') :
    ∃ q c rest, s.stage = some (.waits q) ∧ s.loop.mcu.inputQueue = c :: rest ∧
      s' = ⟨s.loop.feed rest, some (Mcu.nextStage q c)⟩ := by
  unfold read at h
  split at h
  · rename_i q c rest hstage hqueue
    exact ⟨q, c, rest, hstage, hqueue, (Option.some.inj h).symm⟩
  · exact absurd h.symm (Option.some_ne_none _)

/-- **Reading is not seen from outside.** -/
theorem Simulates.read (h : Simulates u s) (hread : s.read = some s') :
    Simulates u s' ∧ s'.stage ≠ none := by
  obtain ⟨q, c, rest, hstage, hqueue, rfl⟩ := read_cases hread
  rw [Simulates, hstage] at h
  exact ⟨⟨h.nextCall_eq, h.inputQueue_ne_nil, h.delayed.read (I := MainLoop.inbox) hqueue⟩,
    Option.some_ne_none _⟩

/-- The call that ends a command. -/
theorem Simulates.call (h : Simulates u s) (hstage : s.stage ≠ none) (hcall : s.call = some s') :
    s'.stage = none ∧ u.step .call = some s'.loop := by
  obtain ⟨loop, stage⟩ := s
  cases stage with
  | none => exact absurd rfl hstage
  | some p =>
    cases p with
    | waits q => exact absurd hcall.symm (Option.some_ne_none _)
    | ready action =>
      obtain ⟨mcu, hmcu, rfl⟩ := Option.map_eq_some_iff.mp hcall
      refine ⟨rfl, ?_⟩
      rw [Begun.step_call h, reads_ready, Option.bind_some]
      show (loop.mcu.perform action).map _ = _
      rw [show loop.mcu.perform action = some mcu from hmcu]
      rfl

/-- **One event of the fine loop** is one of the coarse loop, or none. -/
theorem Simulates.step (h : Simulates u s) {e : FineEvent} (hstep : s.step e = some s') :
    ∃ es u', run MainLoop.step u es = some u' ∧ Simulates u' s' ∧
      es.filterMap MainEvent.interrupt? = [e].filterMap FineEvent.interrupt? := by
  cases e with
  | interrupt i =>
    obtain ⟨loop, stage⟩ := s
    obtain ⟨loop', hloop, rfl⟩ := Option.map_eq_some_iff.mp hstep
    cases stage with
    | none =>
      obtain rfl : u = loop := h
      exact ⟨[.interrupt i], loop', by rw [run_cons, hloop]; rfl, rfl, rfl⟩
    | some p =>
      obtain ⟨u', hu', hbegun⟩ := Begun.interrupt h hloop
      exact ⟨[.interrupt i], u', by rw [run_cons, hu']; rfl, hbegun, rfl⟩
  | read => exact ⟨[], u, rfl, (h.read hstep).1, rfl⟩
  | call =>
    by_cases hstage : s.stage = none
    · obtain ⟨loop, stage⟩ := s
      obtain rfl : stage = none := hstage
      obtain rfl : u = loop := h
      simp only [FineLoop.step, FineLoop.call] at hstep
      split_ifs at hstep with henter
      · obtain rfl := Option.some.inj hstep
        exact ⟨[], u, rfl, ⟨henter.1, henter.2, Delayed.start u _⟩, rfl⟩
      · obtain ⟨loop', hloop, rfl⟩ := Option.map_eq_some_iff.mp hstep
        exact ⟨[.call], loop', by rw [run_cons, hloop]; rfl, rfl, rfl⟩
    · obtain ⟨hnone, hcall⟩ := h.call hstage hstep
      refine ⟨[.call], s'.loop, by rw [run_cons, hcall]; rfl, ?_, rfl⟩
      rw [Simulates, hnone]

theorem Simulates.run (h : Simulates u s) {es : List FineEvent}
    (hrun : Runs.run FineLoop.step s es = some s') :
    ∃ es' u', Runs.run MainLoop.step u es' = some u' ∧ Simulates u' s' ∧
      es'.filterMap MainEvent.interrupt? = es.filterMap FineEvent.interrupt? := by
  induction es generalizing s u with
  | nil =>
    obtain rfl := Option.some.inj hrun
    exact ⟨[], u, rfl, h, rfl⟩
  | cons e es ih =>
    obtain ⟨t, ht, hrun⟩ := Option.bind_eq_some_iff.mp hrun
    obtain ⟨es₁, u₁, hu₁, h₁, hints₁⟩ := h.step ht
    obtain ⟨es₂, u₂, hu₂, h₂, hints₂⟩ := ih h₁ hrun
    refine ⟨es₁ ++ es₂, u₂, (run_append_of_run hu₁).trans hu₂, h₂, ?_⟩
    rw [List.filterMap_append, hints₁, hints₂, ← List.filterMap_append, List.singleton_append]

/-! ## A command left to itself -/

/-- If the bytes are there, they are read. -/
theorem exists_run_reads {action : Mcu.UsartAction} {rest : List UInt8} (queue : List UInt8)
    (hqueue : loop.mcu.inputQueue = queue)
    (h : reads Mcu.nextStage p queue = some (action, rest)) :
    ∃ n, run step ⟨loop, some p⟩ (List.replicate n .read) =
      some ⟨loop.feed rest, some (.ready action)⟩ := by
  induction queue generalizing loop p with
  | nil =>
    cases p with
    | waits q => exact absurd h.symm (Option.some_ne_none _)
    | ready a =>
      obtain ⟨rfl, rfl⟩ := Prod.mk.inj (Option.some.inj h)
      refine ⟨0, ?_⟩
      rw [← hqueue]
      rfl
  | cons c queue ih =>
    cases p with
    | ready a =>
      obtain ⟨rfl, rfl⟩ := Prod.mk.inj (Option.some.inj h)
      refine ⟨0, ?_⟩
      rw [← hqueue]
      rfl
    | waits q =>
      obtain ⟨n, hn⟩ := @ih (loop.feed queue) (Mcu.nextStage q c) rfl h
      refine ⟨n + 1, ?_⟩
      have hread : step ⟨loop, some (.waits q)⟩ .read =
          some ⟨loop.feed queue, some (Mcu.nextStage q c)⟩ := by
        simp only [FineLoop.step, FineLoop.read, hqueue]
      rw [List.replicate_succ, run_cons, hread]
      exact hn

/-- Reading goes on inside the command. -/
theorem Simulates.run_reads (h : Simulates u s) (hstage : s.stage ≠ none) {n : ℕ}
    (hrun : Runs.run FineLoop.step s (List.replicate n .read) = some s') :
    Simulates u s' ∧ s'.stage ≠ none := by
  induction n generalizing s with
  | zero =>
    obtain rfl := Option.some.inj hrun
    exact ⟨h, hstage⟩
  | succ n ih =>
    obtain ⟨t, ht, hrun⟩ := Option.bind_eq_some_iff.mp hrun
    obtain ⟨hsim, hin⟩ := h.read ht
    exact ih hsim hin hrun

/-- **A command left to itself comes back exactly if it does in one piece**, and to the
same state. -/
theorem Simulates.completes_iff (h : Simulates u s) (hstage : s.stage ≠ none) (t : MainLoop) :
    u.step .call = some t ↔
      ∃ n, Runs.run FineLoop.step s (List.replicate n .read ++ [.call]) = some ⟨t, none⟩ := by
  constructor
  · intro hcall
    obtain ⟨loop, stage⟩ := s
    obtain ⟨p, rfl⟩ := Option.ne_none_iff_exists'.mp hstage
    rw [Begun.step_call h] at hcall
    obtain ⟨⟨action, rest⟩, hreads, hperform⟩ := Option.bind_eq_some_iff.mp hcall
    obtain ⟨mcu, hmcu, rfl⟩ := Option.map_eq_some_iff.mp hperform
    obtain ⟨n, hn⟩ := exists_run_reads _ rfl hreads
    refine ⟨n, ?_⟩
    rw [run_concat_of_run hn]
    show ((loop.feed rest).mcu.perform action).map _ = _
    rw [hmcu]
    rfl
  · rintro ⟨n, hrun⟩
    rw [run_append] at hrun
    obtain ⟨s', hs', hlast⟩ := Option.bind_eq_some_iff.mp hrun
    obtain ⟨hsim, hin⟩ := h.run_reads hstage hs'
    obtain ⟨t', ht', hnil⟩ := Option.bind_eq_some_iff.mp hlast
    obtain rfl := Option.some.inj hnil
    exact (hsim.call hin ht').2

end FineLoop

/-- **Commands are executed in one piece.**  Let interrupts come between any two reads
of a command.  Whatever state a run from reset leads to, a run of the coarse loop with
the same interrupts, in the same order, leads to it as well; or else a command is being
read, the coarse loop is about to execute it, and, if nothing else happens, the command
comes back exactly if it does in one piece, to the same state. -/
theorem fine_refines (flash : Memory) (es : List FineEvent) (s : FineLoop)
    (hrun : run FineLoop.step (FineLoop.initial flash) es = some s) :
    ∃ es' u, run MainLoop.step (MainLoop.initial flash) es' = some u ∧
      es'.filterMap MainEvent.interrupt? = es.filterMap FineEvent.interrupt? ∧
      (s.stage = none → u = s.loop) ∧
      (s.stage ≠ none → u.nextCall = .handleUsart ∧ ∀ t, u.step .call = some t ↔
        ∃ n, run FineLoop.step s (List.replicate n .read ++ [.call]) = some ⟨t, none⟩) := by
  have hstart : FineLoop.Simulates (MainLoop.initial flash) (FineLoop.initial flash) := rfl
  obtain ⟨es', u, hu, hsim, hints⟩ := hstart.run hrun
  refine ⟨es', u, hu, hints, fun hstage => ?_, fun hstage => ⟨?_, hsim.completes_iff hstage⟩⟩
  · rwa [FineLoop.Simulates, hstage] at hsim
  · obtain ⟨p, hp⟩ := Option.ne_none_iff_exists'.mp hstage
    rw [FineLoop.Simulates, hp] at hsim
    exact hsim.nextCall

/-- The record of a sync bit. -/
def syncRecord : List UInt8 := [1, 104, 43, 152, 0, 0, 0, 0, 0, 0, 0, 0, 0, 0, 0, 0, 76]

/-- An upload of one record, byte by byte, with a tick of the clock inside. -/
def slowUpload : List FineEvent :=
  [.call, .interrupt (.receive Mcu.cSetup), .call, .read, .interrupt .sysTick,
    .interrupt (.receive 1), .read] ++
    syncRecord.flatMap (fun c => [.interrupt (.receive c), .read]) ++ [.call]

/-- What the upload asks for. -/
def syncSave : List Op := Flash.savePatterns [⟨0, ![360, 11160, 0, 0, 0, 0, 0, 0], 76⟩] 1

/-- The call that executes it comes after the tick. -/
theorem fine_refines_slowUpload :
    ∃ s, run FineLoop.step (FineLoop.initial blank) slowUpload = some s ∧
      s.loop.mcu.saves = [syncSave] ∧
      ∃ es' u, run MainLoop.step (MainLoop.initial blank) es' = some u ∧
        es'.filterMap MainEvent.interrupt? =
          .receive Mcu.cSetup :: .sysTick :: .receive 1 :: syncRecord.map .receive ∧
        u = s.loop := by
  have hrun : (run FineLoop.step (FineLoop.initial blank) slowUpload).map
      (fun s => (s.stage.isNone, s.loop.mcu.saves)) = some (true, [syncSave]) := by
    decide +kernel
  obtain ⟨s, hs, hstate⟩ := Option.map_eq_some_iff.mp hrun
  obtain ⟨hstage, hsaves⟩ := Prod.mk.inj hstate
  obtain ⟨es', u, hu, hints, hdone, -⟩ := fine_refines blank slowUpload s hs
  exact ⟨s, hs, hsaves, es', u, hu, hints, hdone (Option.isNone_iff_eq_none.mp hstage)⟩

end Stm32Adaptive
