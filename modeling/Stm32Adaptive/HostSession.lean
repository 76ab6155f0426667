import Stm32Adaptive.FadeSafety
import Stm32Adaptive.ReachableStates

/-!
# A session with a well-behaved host

Behind the serial line is a program that sends commands.  It does not wait for an
answer, and its bytes come in between the reads of `handle_usart`, between the calls of
the main loop and between all the other interrupts.

Let the bytes that have come be the beginning of a sequence of commands.  Whatever the
timing, the firmware executes these commands, in order and each with its own bytes
(`host_served`).  If moreover no fade takes no time, and no test signal is asked for
before its patterns are stored, then no operation of the firmware is ever undefined or
stuck: it can always take its next step, unless the host still owes it the rest of a
command (`host_never_stuck`).
-/

namespace Stm32Adaptive

open FlashMemory Flash Framing Runs DelayedReads FadeSession Ws28xx

/-! ## What a command takes off the line -/

namespace Mcu

theorem inputQueue_perform {m m' : Mcu} {action : UsartAction} (h : m.perform action = some m') :
    m'.inputQueue = m.inputQueue := by
  cases action with
  | savePatterns tmp n | enableIc | disableIc | ws2815Test | nothing =>
    obtain rfl := Option.some.inj h
    rfl
  | testSignal =>
    obtain ⟨r, -, rfl⟩ := Option.map_eq_some_iff.mp h
    rfl
  | fade commandBuffer =>
    obtain ⟨r, -, rfl⟩ := Option.map_eq_some_iff.mp h
    rfl

/-- **A command reads its own bytes**, no more and no fewer. -/
theorem reads_encode (c : Command) :
    ∃ action, reads nextStage (.waits .command) c.encode = some (action, []) := by
  -- every command but the test signal comes back, and with an empty queue
  have hreturns : ∀ {m' : Mcu}, (initial blank).exec c = some m' →
      ∃ action, reads nextStage (.waits .command) c.encode = some (action, []) := by
    intro m' hexec
    have hcall := (initial blank).handleUsart_encode c []
    rw [List.append_nil, hexec, Option.map_some,
      handleUsart_eq_reads (by cases c <;> nofun)] at hcall
    obtain ⟨⟨action, rest⟩, hreads, hperform⟩ := Option.bind_eq_some_iff.mp hcall
    have hrest := inputQueue_perform hperform
    rw [inputQueue_feed] at hrest
    exact ⟨action, hreads.trans (congrArg (fun l => some (action, l)) hrest.symm)⟩
  cases c with
  | test => exact ⟨.testSignal, rfl⟩
  | setup | start | halt | devTest | fadeToColor => exact hreturns rfl

/-- A queue that begins a stream of commands holds the first of them, or waits for the
rest of it. -/
theorem encode_or_waits {c : Command} {queue tail : List UInt8}
    (h : queue <+: c.encode ++ tail) :
    (∃ rest, queue = c.encode ++ rest ∧ rest <+: tail) ∨
      (queue <+: c.encode ∧ queue ≠ c.encode ∧
        reads nextStage (.waits .command) queue = none) := by
  by_cases hlen : c.encode.length ≤ queue.length
  · obtain ⟨rest, rfl⟩ := List.prefix_of_prefix_length_le (List.prefix_append _ _) h hlen
    exact Or.inl ⟨rest, rfl, (List.prefix_append_right_inj _).mp h⟩
  · have hpre := List.prefix_of_prefix_length_le h (List.prefix_append _ _) (by omega)
    have hne : queue ≠ c.encode := by
      rintro rfl
      exact hlen (le_refl _)
    obtain ⟨action, hreads⟩ := reads_encode c
    exact Or.inr ⟨hpre, hne, reads_eq_none_of_isPrefix hreads hpre hne⟩

end Mcu

/-! ## The host -/

/-- The bytes that interrupts have brought. -/
def receivedBytes (is : List Interrupt) : List UInt8 :=
  is.filterMap fun
    | .receive c => some c
    | _ => none

/-- The calls of `savePatterns` that a command makes. -/
def Command.saves : Command → List (List Op)
  | .setup payload =>
    [savePatterns (payload.records.map SetupRecord.pattern) payload.records.length]
  | _ => []

/-- The flash after some commands. -/
def flashAfterCommands (flash : Memory) (cmds : List Command) : Memory :=
  Mcu.flashAfter flash (cmds.flatMap Command.saves) (cmds.flatMap Command.saves).length

/-- The commands make sense: no fade takes no time, and where a test signal is sent its
three patterns are stored and not empty. -/
structure Sensible (flash : Memory) (cmds : List Command) : Prop where
  fades : ∀ payload, .fadeToColor payload ∈ cmds →
    (Mcu.fadeArguments (CString.tokens Mcu.blankChar payload.text)).2 ≠ 0
  tests : ∀ pre post, cmds = pre ++ .test :: post → ∀ i : ℕ, i < 3 →
    ∃ p, storedPattern (flashAfterCommands flash pre) i = some p ∧ 1 ≤ p.getLength

/-! ## The session -/

/-- The commands `done` have been executed, and the bytes behind them are in the queue. -/
structure Served (flash : Memory) (cmds done : List Command) (received : List UInt8)
    (u : MainLoop) : Prop where
  prefix_cmds : done <+: cmds
  received_eq : received = done.flatMap Command.encode ++ u.mcu.inputQueue
  saves_eq : u.mcu.saves = done.flatMap Command.saves
  sound : Mcu.Sound flash u.mcu
  fades : Sensible flash cmds → ¬ ZeroFade u.mcu.ws2815

theorem served_initial (flash : Memory) (cmds : List Command) :
    Served flash cmds [] [] (MainLoop.initial flash) :=
  ⟨ List.nil_prefix, rfl, rfl, Mcu.sound_initial flash,
    fun _ hzero => absurd hzero.1 (show ¬ WS2815.initial.Fading by decide)⟩

namespace Served

variable {flash : Memory} {cmds done : List Command} {received : List UInt8} {u u' : MainLoop}

/-- The commands that have not been executed, and the queue in front of them. -/
theorem exists_rest (h : Served flash cmds done received u)
    (hhost : received <+: cmds.flatMap Command.encode) :
    ∃ rest, cmds = done ++ rest ∧ u.mcu.inputQueue <+: rest.flatMap Command.encode := by
  obtain ⟨rest, rfl⟩ := h.prefix_cmds
  refine ⟨rest, rfl, ?_⟩
  rw [h.received_eq, List.flatMap_append] at hhost
  exact (List.prefix_append_right_inj _).mp hhost

/-- If bytes are there, a next command is. -/
theorem exists_command (h : Served flash cmds done received u)
    (hhost : received <+: cmds.flatMap Command.encode) (hqueue : u.mcu.inputQueue ≠ []) :
    ∃ c rest, cmds = done ++ c :: rest ∧
      u.mcu.inputQueue <+: c.encode ++ rest.flatMap Command.encode := by
  obtain ⟨rest, hrest, hpre⟩ := h.exists_rest hhost
  cases rest with
  | nil => exact absurd (List.prefix_nil.mp hpre) hqueue
  | cons c rest => exact ⟨c, rest, hrest, by rwa [List.flatMap_cons] at hpre⟩

theorem interrupt (h : Served flash cmds done received u) {i : Interrupt}
    (hstep : u.step (.interrupt i) = some u') :
    Served flash cmds done (received ++ receivedBytes [i]) u' := by
  have hsound := MainLoop.sound_step h.sound hstep
  obtain ⟨mcu, hmcu, rfl⟩ := Option.map_eq_some_iff.mp hstep
  have hmore : mcu.inputQueue = u.mcu.inputQueue ++ receivedBytes [i] ∧
      mcu.saves = u.mcu.saves ∧ (ZeroFade mcu.ws2815 ↔ ZeroFade u.mcu.ws2815) := by
    cases i with
    | receive c =>
      obtain rfl := Option.some.inj hmcu
      exact ⟨rfl, rfl, Iff.rfl⟩
    | sysTick =>
      obtain rfl := Option.some.inj hmcu
      exact ⟨(List.append_nil _).symm, rfl, Iff.rfl⟩
    | frameStart =>
      obtain rfl := Option.some.inj hmcu
      exact ⟨(List.append_nil _).symm, rfl,
        zeroFade_iff_of_sameFade (WS2815.sameFade_swapBuffers u.mcu.ws2815)⟩
    | capture tim3 =>
      obtain rfl := Option.some.inj hmcu
      split <;> exact ⟨(List.append_nil _).symm, rfl, Iff.rfl⟩
  refine ⟨h.prefix_cmds, ?_, hmore.2.1.trans h.saves_eq, hsound,
    fun hsensible => mt hmore.2.2.mp (h.fades hsensible)⟩
  rw [h.received_eq, List.append_assoc]
  exact congrArg _ hmore.1.symm

/-- What a command saves. -/
theorem saves_exec {m m' : Mcu} {c : Command} (h : m.exec c = some m') :
    m'.saves = m.saves ++ c.saves := by
  cases c with
  | setup payload =>
    rw [← Option.some.inj h]
    rfl
  | start | halt | devTest | fadeToColor =>
    rw [← Option.some.inj h]
    exact (List.append_nil _).symm
  | test =>
    obtain ⟨r, -, rfl⟩ := Option.map_eq_some_iff.mp h
    exact (List.append_nil _).symm

/-- A sensible command sets up no fade of time zero. -/
theorem not_zeroFade_exec {m m' : Mcu} {c : Command} (hc : c ∈ cmds)
    (hsensible : Sensible flash cmds) (hzero : ¬ ZeroFade m.ws2815) (h : m.exec c = some m') :
    ¬ ZeroFade m'.ws2815 := by
  cases c with
  | setup | start | halt =>
    obtain rfl := Option.some.inj h
    exact hzero
  | devTest =>
    obtain rfl := Option.some.inj h
    exact fun hafter => hzero ((zeroFade_test_iff _ _ _).mp hafter).2
  | fadeToColor payload =>
    obtain rfl := Option.some.inj h
    exact mt (zeroFade_fadeToColor_iff _ _ _ _).mp (hsensible.fades payload hc)
  | test =>
    obtain ⟨r, -, rfl⟩ := Option.map_eq_some_iff.mp h
    exact hzero

/-- **One call of the loop** executes the next command, or none. -/
theorem call (h : Served flash cmds done received u)
    (hhost : received <+: cmds.flatMap Command.encode) (hstep : u.step .call = some u') :
    ∃ done', Served flash cmds done' received u' := by
  have hsound := MainLoop.sound_step h.sound hstep
  cases hnext : u.nextCall with
  | process =>
    simp only [MainLoop.step, hnext] at hstep
    obtain ⟨mcu, hmcu, rfl⟩ := Option.map_eq_some_iff.mp hstep
    obtain ⟨w, hw, rfl⟩ := Option.map_eq_some_iff.mp hmcu
    exact ⟨done, h.prefix_cmds, h.received_eq, h.saves_eq, hsound,
      fun hsensible => not_zeroFade_process (h.fades hsensible) hw⟩
  | processSignals =>
    simp only [MainLoop.step, hnext] at hstep
    obtain ⟨r, hr, rfl⟩ := Option.map_eq_some_iff.mp hstep
    exact ⟨done, h.prefix_cmds, h.received_eq, h.saves_eq, hsound, h.fades⟩
  | handleUsart =>
    simp only [MainLoop.step, hnext] at hstep
    obtain ⟨mcu, hmcu, rfl⟩ := Option.map_eq_some_iff.mp hstep
    by_cases hqueue : u.mcu.inputQueue = []
    · have hidle : u.mcu.handleUsart = some u.mcu := by
        rw [Mcu.handleUsart, hqueue]
      obtain rfl := Option.some.inj (hmcu.symm.trans hidle)
      exact ⟨done, h.prefix_cmds, h.received_eq, h.saves_eq, hsound, h.fades⟩
    · obtain ⟨c, rest, hrest, hpre⟩ := h.exists_command hhost hqueue
      rcases Mcu.encode_or_waits hpre with ⟨queue, hsplit, -⟩ | ⟨-, -, hwaits⟩
      · have hcall := u.mcu.handleUsart_encode c queue
        rw [← hsplit] at hcall
        obtain ⟨m', hexec, rfl⟩ := Option.map_eq_some_iff.mp (hcall.symm.trans hmcu)
        have hc : c ∈ cmds := hrest ▸ List.mem_append_right _ List.mem_cons_self
        have hzero : Sensible flash cmds → ¬ ZeroFade m'.ws2815 := fun hsensible =>
          not_zeroFade_exec hc hsensible (h.fades hsensible) hexec
        refine ⟨done ++ [c], ⟨rest, ?_⟩, ?_, ?_, hsound, hzero⟩
        · rw [hrest, List.append_assoc, List.singleton_append]
        · rw [h.received_eq, hsplit, List.flatMap_append, List.flatMap_singleton, List.append_assoc]
          rfl
        · show m'.saves = _
          rw [saves_exec hexec, h.saves_eq, List.flatMap_append, List.flatMap_singleton]
      · rw [Mcu.handleUsart_eq_reads hqueue, hwaits] at hmcu
        exact absurd hmcu.symm (Option.some_ne_none _)

/-- **Runs.** -/
theorem run (h : Served flash cmds done received u) {es : List MainEvent}
    (hhost : received ++ receivedBytes (es.filterMap MainEvent.interrupt?) <+:
      cmds.flatMap Command.encode)
    (hrun : Runs.run MainLoop.step u es = some u') :
    ∃ done', Served flash cmds done'
      (received ++ receivedBytes (es.filterMap MainEvent.interrupt?)) u' := by
  induction es generalizing done received u with
  | nil =>
    obtain rfl := Option.some.inj hrun
    exact ⟨done, by rwa [List.filterMap_nil, receivedBytes, List.filterMap_nil, List.append_nil]⟩
  | cons e es ih =>
    obtain ⟨t, ht, hrest⟩ := Option.bind_eq_some_iff.mp hrun
    cases e with
    | interrupt i =>
      have hsplit : receivedBytes ((MainEvent.interrupt i :: es).filterMap MainEvent.interrupt?) =
          receivedBytes [i] ++ receivedBytes (es.filterMap MainEvent.interrupt?) := by
        rw [receivedBytes, receivedBytes, receivedBytes, ← List.filterMap_append]
        rfl
      rw [hsplit, ← List.append_assoc] at hhost ⊢
      exact ih (h.interrupt ht) hhost hrest
    | call =>
      obtain ⟨done', h'⟩ := h.call ((List.prefix_append _ _).trans hhost) ht
      exact ih h' hhost hrest

/-- **A sensible command comes back.** -/
theorem exists_exec {c : Command} {rest : List Command} (h : Served flash cmds done received u)
    (hsensible : Sensible flash cmds) (hrest : cmds = done ++ c :: rest) :
    ∃ m', u.mcu.exec c = some m' := by
  cases c with
  | setup | start | halt | devTest | fadeToColor => exact ⟨_, rfl⟩
  | test =>
    refine Option.ne_none_iff_exists'.mp (Mcu.cTestSignal_ne_none fun i hi => ?_)
    rw [h.sound.flash_eq, h.saves_eq]
    exact hsensible.tests done rest hrest i hi

/-- **A call of the loop comes back**, unless it waits for bytes of a command. -/
theorem exists_call (h : Served flash cmds done received u) (hsensible : Sensible flash cmds)
    (hhost : received <+: cmds.flatMap Command.encode)
    (hwaits : u.nextCall = .handleUsart → u.mcu.inputQueue ≠ [] →
      reads Mcu.nextStage (.waits .command) u.mcu.inputQueue ≠ none) :
    ∃ u', u.step .call = some u' := by
  cases hnext : u.nextCall with
  | process =>
    have hprocess : u.mcu.ws2815.process u.mcu.systick ≠ none :=
      mt WS2815.process_eq_none_iff.mp (h.fades hsensible)
    obtain ⟨w, hw⟩ := Option.ne_none_iff_exists'.mp hprocess
    simp only [MainLoop.step, hnext, Mcu.step, hw, Option.map_some]
    exact ⟨_, rfl⟩
  | processSignals =>
    obtain ⟨r, hr⟩ : ∃ r, Ic.processSignals u.mcu.flash u.mcu.systick u.mcu.ic = some r := by
      rcases Ic.processSignals_cases u.mcu.flash u.mcu.systick u.mcu.ic with
        ⟨-, hcall⟩ | ⟨-, _, _, _, -, -, -, -, hcall⟩ | ⟨-, _, _, -, -, -, hcall⟩ <;>
        exact ⟨_, hcall⟩
    simp only [MainLoop.step, hnext, hr, Option.map_some]
    exact ⟨_, rfl⟩
  | handleUsart =>
    simp only [MainLoop.step, hnext]
    by_cases hqueue : u.mcu.inputQueue = []
    · rw [Mcu.handleUsart, hqueue]
      exact ⟨_, rfl⟩
    · obtain ⟨c, rest, hrest, hpre⟩ := h.exists_command hhost hqueue
      rcases Mcu.encode_or_waits hpre with ⟨queue, hsplit, -⟩ | ⟨-, -, hnone⟩
      · obtain ⟨m', hexec⟩ := h.exists_exec hsensible hrest
        have hcall := u.mcu.handleUsart_encode c queue
        rw [← hsplit, hexec, show u.mcu.feed u.mcu.inputQueue = u.mcu from rfl] at hcall
        rw [hcall]
        exact ⟨_, rfl⟩
      · exact absurd hnone (hwaits hnext hqueue)

end Served

/-! ## The session on the fine loop -/

/-- The bytes a run of the fine loop has received. -/
def received (es : List FineEvent) : List UInt8 := receivedBytes (es.filterMap FineEvent.interrupt?)

/-- What the loop that simulates a state of the fine loop has served. -/
theorem exists_served {flash : Memory} {cmds : List Command} {es : List FineEvent} {s : FineLoop}
    (hrun : run FineLoop.step (FineLoop.initial flash) es = some s)
    (hhost : received es <+: cmds.flatMap Command.encode) :
    ∃ u done, FineLoop.Simulates u s ∧ Served flash cmds done (received es) u := by
  have hstart : FineLoop.Simulates (MainLoop.initial flash) (FineLoop.initial flash) := rfl
  obtain ⟨es', u, hu, hsim, hints⟩ := hstart.run hrun
  obtain ⟨done, hserved⟩ := (served_initial flash cmds).run (by
    rw [List.nil_append, hints]
    exact hhost) hu
  rw [List.nil_append, hints] at hserved
  exact ⟨u, done, hsim, hserved⟩

/-- What a command has taken off the queue so far is a beginning of the command. -/
theorem exists_taken {flash : Memory} {cmds done : List Command} {bytes : List UInt8}
    {u loop : MainLoop} {p : Stage Mcu.ReadPoint Mcu.UsartAction}
    (hbegun : FineLoop.Begun u loop p) (hserved : Served flash cmds done bytes u)
    (hhost : bytes <+: cmds.flatMap Command.encode) :
    ∃ c rest taken, cmds = done ++ c :: rest ∧ taken <+: c.encode ∧
      u.mcu.inputQueue = taken ++ loop.mcu.inputQueue := by
  obtain ⟨c, rest, hrest, hpre⟩ := hserved.exists_command hhost hbegun.inputQueue_ne_nil
  obtain ⟨taken, htaken⟩ := hbegun.delayed.taken
  have hqueue : u.mcu.inputQueue = taken ++ loop.mcu.inputQueue := htaken
  have hfront : taken <+: u.mcu.inputQueue := ⟨_, hqueue.symm⟩
  refine ⟨c, rest, taken, hrest, ?_, hqueue⟩
  rcases Mcu.encode_or_waits hpre with ⟨left, hsplit, -⟩ | ⟨hshort, -, -⟩
  · obtain ⟨action, hreads⟩ := Mcu.reads_encode c
    have hall := hbegun.delayed.reads_eq []
    rw [List.append_nil, List.append_nil, show MainLoop.inbox.queue u = u.mcu.inputQueue from rfl,
      hsplit, reads_append hreads left] at hall
    have hle := length_le_of_reads hall.symm
    have hlen := congrArg List.length (hsplit.symm.trans hqueue)
    rw [List.length_append, List.length_append] at hlen
    refine List.prefix_of_prefix_length_le hfront ⟨left, hsplit.symm⟩ ?_
    rw [List.nil_append, show MainLoop.inbox.queue loop = loop.mcu.inputQueue from rfl] at hle
    omega
  · exact hfront.trans hshort

/-- **The firmware does what the host says.**  Let the bytes received in a run from reset
be the beginning of a sequence of commands, with any interrupts between any two reads.
Then these bytes are those of the commands that have been executed, the bytes the
command in progress has taken, which are the first of its own, and the queue; and the
calls of `savePatterns` have been those of the commands executed, in order. -/
theorem host_served (flash : Memory) (cmds : List Command) (es : List FineEvent) (s : FineLoop)
    (hrun : run FineLoop.step (FineLoop.initial flash) es = some s)
    (hhost : received es <+: cmds.flatMap Command.encode) :
    ∃ done rest taken, cmds = done ++ rest ∧
      received es = done.flatMap Command.encode ++ taken ++ s.loop.mcu.inputQueue ∧
      (s.stage = none → taken = []) ∧ (s.stage ≠ none → ∃ c ∈ rest.head?, taken <+: c.encode) ∧
      s.loop.mcu.saves = done.flatMap Command.saves := by
  obtain ⟨u, done, hsim, hserved⟩ := exists_served hrun hhost
  have hsaves : s.loop.mcu.saves = done.flatMap Command.saves := by
    rw [← hserved.saves_eq, hsim.mcu_eq]
    rfl
  obtain ⟨loop, stage⟩ := s
  cases stage with
  | none =>
    obtain rfl : u = loop := hsim
    obtain ⟨rest, hrest⟩ := hserved.prefix_cmds
    refine ⟨done, rest, [], hrest.symm, ?_, fun _ => rfl, fun h => absurd rfl h, hsaves⟩
    rw [List.append_nil]
    exact hserved.received_eq
  | some p =>
    obtain ⟨c, rest, taken, hrest, htaken, hqueue⟩ := exists_taken hsim hserved hhost
    refine ⟨done, c :: rest, taken, hrest, ?_, nofun, fun _ => ⟨c, rfl, htaken⟩, hsaves⟩
    rw [hserved.received_eq, hqueue, List.append_assoc]

/-- **A sensible host never brings the firmware to a halt.**  If moreover the commands are
sensible, then in every state of the run the firmware can take its next step; or it is
waiting, with an empty queue, for the rest of a command of which the host has sent a part
only. -/
theorem host_never_stuck (flash : Memory) (cmds : List Command) (es : List FineEvent)
    (s : FineLoop) (hrun : run FineLoop.step (FineLoop.initial flash) es = some s)
    (hhost : received es <+: cmds.flatMap Command.encode) (hsensible : Sensible flash cmds) :
    (∃ s', s.step .call = some s') ∨ (∃ s', s.step .read = some s') ∨
    (s.loop.mcu.inputQueue = [] ∧ ∃ done c rest part, cmds = done ++ c :: rest ∧
      received es = done.flatMap Command.encode ++ part ∧ part <+: c.encode ∧
      part ≠ c.encode) := by
  obtain ⟨u, done, hsim, hserved⟩ := exists_served hrun hhost
  obtain ⟨loop, stage⟩ := s
  cases stage with
  | none =>
    obtain rfl : u = loop := hsim
    refine Or.inl ?_
    show ∃ s', FineLoop.call ⟨u, none⟩ = some s'
    by_cases henter : u.nextCall = .handleUsart ∧ u.mcu.inputQueue ≠ []
    · exact ⟨_, if_pos henter⟩
    · obtain ⟨u', hu'⟩ := hserved.exists_call hsensible hhost
        fun hnext hqueue => absurd ⟨hnext, hqueue⟩ henter
      refine ⟨⟨u', none⟩, (if_neg henter).trans ?_⟩
      rw [hu', Option.map_some]
  | some p =>
    have hbegun : FineLoop.Begun u loop p := hsim
    have hreads := hbegun.delayed.reads_eq []
    rw [List.append_nil, List.append_nil] at hreads
    cases p with
    | ready action =>
      refine Or.inl ?_
      have hnot : reads Mcu.nextStage (.waits .command) u.mcu.inputQueue ≠ none := by
        rw [show reads Mcu.nextStage (.waits .command) u.mcu.inputQueue = _ from hreads,
          reads_ready]
        exact Option.some_ne_none _
      obtain ⟨u', hu'⟩ := hserved.exists_call hsensible hhost fun _ _ => hnot
      rw [hbegun.step_call, reads_ready, Option.bind_some] at hu'
      obtain ⟨mcu, hmcu, -⟩ := Option.map_eq_some_iff.mp hu'
      have hperform : loop.mcu.perform action = some mcu := hmcu
      show ∃ s', (loop.mcu.perform action).map _ = some s'
      rw [hperform]
      exact ⟨_, rfl⟩
    | waits q =>
      refine Or.inr ?_
      cases hqueue : loop.mcu.inputQueue with
      | cons c rest =>
        refine Or.inl ⟨⟨loop.feed rest, some (Mcu.nextStage q c)⟩, ?_⟩
        simp only [FineLoop.step, FineLoop.read, hqueue]
      | nil =>
        have hnone := hbegun.delayed.waits hqueue
        obtain ⟨c, rest, hrest, hpre⟩ := hserved.exists_command hhost hbegun.inputQueue_ne_nil
        refine Or.inr ⟨rfl, done, c, rest, u.mcu.inputQueue, hrest, hserved.received_eq, ?_⟩
        rcases Mcu.encode_or_waits hpre with ⟨left, hsplit, -⟩ | ⟨hshort, hne, -⟩
        · obtain ⟨action, henc⟩ := Mcu.reads_encode c
          rw [show MainLoop.inbox.queue u = u.mcu.inputQueue from rfl, hsplit,
            reads_append henc left] at hnone
          exact absurd hnone (Option.some_ne_none _)
        · exact ⟨hshort, hne⟩

/-- A host that stores three patterns, fades the strip and sends the test signal. -/
def threeCommands : List Command :=
  [.setup Mcu.threeRecords, .fadeToColor Mcu.fadeToWhite, .test]

/-- 62 bytes have come.  The first 53 are the upload, which has been executed; the others
have been read. -/
def slowSession : List FineEvent :=
  ((threeCommands.flatMap Command.encode).take 62).map (fun c => .interrupt (.receive c)) ++
    [.call, .call] ++ List.replicate 53 .read ++ [.call, .call, .call, .call] ++
    List.replicate 9 .read

theorem exists_run_slowSession :
    ∃ s, run FineLoop.step (FineLoop.initial blank) slowSession = some s ∧
      s.loop.mcu.inputQueue = [] ∧ s.loop.mcu.saves.length = 1 := by
  have hrun : (run FineLoop.step (FineLoop.initial blank) slowSession).map
      (fun s => (s.loop.mcu.inputQueue, s.loop.mcu.saves.length)) = some ([], 1) := by
    decide +kernel
  obtain ⟨s, hs, hstate⟩ := Option.map_eq_some_iff.mp hrun
  exact ⟨s, hs, congrArg Prod.fst hstate, congrArg Prod.snd hstate⟩

theorem received_slowSession : received slowSession <+: threeCommands.flatMap Command.encode := by
  have htake : received slowSession = (threeCommands.flatMap Command.encode).take 62 := by decide
  rw [htake]
  exact List.take_prefix 62 _

/-- One table has been stored, and the fade has taken the rest. -/
theorem host_served_slowSession :
    ∃ s done rest taken, run FineLoop.step (FineLoop.initial blank) slowSession = some s ∧
      s.loop.mcu.saves.length = 1 ∧ threeCommands = done ++ rest ∧
      received slowSession = done.flatMap Command.encode ++ taken ∧
      s.loop.mcu.saves = done.flatMap Command.saves := by
  obtain ⟨s, hs, hqueue, hlength⟩ := exists_run_slowSession
  obtain ⟨done, rest, taken, hrest, hreceived, -, -, hsaves⟩ :=
    host_served blank threeCommands slowSession s hs received_slowSession
  rw [hqueue, List.append_nil] at hreceived
  exact ⟨s, done, rest, taken, hs, hlength, hrest, hreceived, hsaves⟩

theorem flashAfterCommands_setup (flash : Memory) (payload : SetupPayload)
    (fade : FadePayload) :
    flashAfterCommands flash [.setup payload, .fadeToColor fade] =
      Flash.apply (savePatterns (payload.records.map SetupRecord.pattern)
        (payload.records.map SetupRecord.pattern).length) flash := by
  rw [List.length_map]
  rfl

theorem sensible_threeCommands : Sensible blank threeCommands := by
  constructor
  · intro payload hmem
    simp only [threeCommands, List.mem_cons, reduceCtorEq, Command.fadeToColor.injEq,
      List.not_mem_nil, or_false, false_or] at hmem
    subst hmem
    decide
  · intro pre post hsplit i hi
    have hpre : pre = [.setup Mcu.threeRecords, .fadeToColor Mcu.fadeToWhite] := by
      match pre, hsplit with
      | [], hsplit => exact absurd (List.cons.inj hsplit).1 nofun
      | [_], hsplit =>
        have htail := (List.cons.inj hsplit).2
        exact absurd (List.cons.inj htail).1 nofun
      | [_, _], hsplit =>
        have htail := (List.cons.inj hsplit).2
        rw [(List.cons.inj hsplit).1, (List.cons.inj htail).1]
      | _ :: _ :: _ :: _, hsplit =>
        have hlen := congrArg List.length hsplit
        simp [threeCommands] at hlen
    subst hpre
    have hfit : Fits (Mcu.threeRecords.records.map SetupRecord.pattern).length := by decide
    have hpad : ∀ p ∈ Mcu.threeRecords.records.map SetupRecord.pattern, p.padding = 0 := by decide
    have hstored := storedPattern_savePatterns hfit hpad blank i hi
    have hlength : ∀ p ∈ Mcu.threeRecords.records.map SetupRecord.pattern, 1 ≤ p.getLength := by
      decide
    rw [flashAfterCommands_setup]
    exact ⟨_, hstored, hlength _ (List.getElem_mem _)⟩

/-- And the firmware is not stuck: it waits for the rest of the fade. -/
theorem host_never_stuck_slowSession :
    ∃ s, run FineLoop.step (FineLoop.initial blank) slowSession = some s ∧
      s.loop.mcu.saves.length = 1 ∧
      ((∃ s', s.step .call = some s') ∨ (∃ s', s.step .read = some s') ∨
        s.loop.mcu.inputQueue = []) := by
  obtain ⟨s, hs, -, hlength⟩ := exists_run_slowSession
  refine ⟨s, hs, hlength, ?_⟩
  rcases host_never_stuck blank threeCommands slowSession s hs received_slowSession
    sensible_threeCommands with hcall | hread | ⟨hqueue, -⟩
  · exact Or.inl hcall
  · exact Or.inr (Or.inl hread)
  · exact Or.inr (Or.inr hqueue)

end Stm32Adaptive
