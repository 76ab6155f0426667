import Stm32Adaptive.Interface
import Stm32Adaptive.SenderRun

/-!
# Command framing on the serial line

Nothing on the line separates one command from the next, and the bytes of a
payload may be codes of commands.  That a stream of commands is still taken apart
correctly rests on every command reading exactly its own bytes.

`Command` is what may be sent, `Command.encode` how it is sent, and `exec` what it
asks for, without any reading.  `handleUsart_encode` is the step: one call of
`handle_usart`, in front of any continuation, executes one command and leaves the
continuation.  `handleUsartTimes_stream` is the run.

A test signal occupies the main loop until it has been sent.  That it is sent is
the one thing a stream of commands has to be promised.
-/

namespace Stm32Adaptive

open FlashMemory Flash Framing

/-! ## Commands -/

/-- The 17 bytes of one record. -/
abbrev SetupRecord := Fin 17 → UInt8

/-- The pattern a record stands for. -/
def SetupRecord.pattern (b : SetupRecord) : PeriodPattern where
  padding := 0
  periods i := ofBytes (b ⟨2 * i.val + 1, by omega⟩) (b ⟨2 * i.val, by omega⟩)
  toleranceMul255 := b 16

/-- The records of one command, no more than a byte can count. -/
structure SetupPayload where
  records : List SetupRecord
  length_le : records.length ≤ 255

/-- The text of a fade command: 20 characters without backspace or zero, in which
at least four tokens are separated by blanks. -/
structure FadePayload where
  text : List UInt8
  length_eq : text.length = Mcu.commandLength
  backspace_notMem : 8 ∉ text
  zero_notMem : 0 ∉ text
  four_le_tokens : 4 ≤ (CString.tokens Mcu.blankChar text).length

/-- The commands. -/
inductive Command where
  | setup (payload : SetupPayload)
  | start
  | halt
  | test
  | devTest
  | fadeToColor (payload : FadePayload)

/-- A command on the line. -/
def Command.encode : Command → List UInt8
  | .setup payload =>
    Mcu.cSetup :: UInt8.ofNat payload.records.length ::
      payload.records.flatMap fun record => List.ofFn record
  | .start => [Mcu.cStart]
  | .halt => [Mcu.cHalt]
  | .test => [Mcu.cTest]
  | .devTest => [Mcu.cDevTest]
  | .fadeToColor payload => Mcu.cFadeToColor :: payload.text

namespace Mcu

/-- What a command asks for. -/
def exec (m : Mcu) : Command → Option Mcu
  | .setup payload =>
    some (m.savePatterns (payload.records.map SetupRecord.pattern) payload.records.length)
  | .start => some m.enableIc
  | .halt => some m.disableIc
  | .test => m.cTestSignal
  | .devTest => some m.ws2815Test
  | .fadeToColor payload =>
    let arguments := fadeArguments (CString.tokens blankChar payload.text)
    some (m.fadeToColor arguments.1 arguments.2)

/-- A transmission that `C_TEST` starts completes. -/
def TransmissionCompletes (m : Mcu) (c : Command) : Prop := c = .test → m.exec c ≠ none

/-! ## One command -/

/-- The bytes of a record are those of the pattern it stands for. -/
theorem recordBytes_pattern (record : SetupRecord) :
    recordBytes record.pattern = List.ofFn record := by
  simp only [recordBytes, SetupRecord.pattern, hi_ofBytes, lo_ofBytes]
  rfl

/-- **One call takes one command.** -/
theorem handleUsart_encode (m : Mcu) (c : Command) (rest : List UInt8) :
    (m.feed (c.encode ++ rest)).handleUsart = (m.exec c).map fun m' => m'.feed rest := by
  cases c with
  | setup payload =>
    have hbytes : payload.records.flatMap (fun record => List.ofFn record) =
        (payload.records.map SetupRecord.pattern).flatMap recordBytes := by
      rw [List.flatMap_map]
      exact List.flatMap_congr fun record _ => (recordBytes_pattern record).symm
    have hsetup := @handleUsart_setup (payload.records.map SetupRecord.pattern)
      (by rw [List.length_map]; exact payload.length_le)
      (by
        intro p hp
        obtain ⟨record, -, rfl⟩ := List.mem_map.mp hp
        rfl) m rest
    rw [List.length_map] at hsetup
    rw [Command.encode, hbytes]
    exact hsetup
  | start => rfl
  | halt => rfl
  | test =>
    show (m.feed rest).cTestSignal = m.cTestSignal.map fun m' => m'.feed rest
    rw [cTestSignal, cTestSignal, Option.map_map]
    rfl
  | devTest => rfl
  | fadeToColor payload =>
    exact handleUsart_fade payload.length_eq payload.backspace_notMem payload.zero_notMem
      payload.four_le_tokens m rest

/-- Only a test signal can fail to come back. -/
theorem exists_exec {m : Mcu} {c : Command} (h : m.TransmissionCompletes c) :
    ∃ m', m.exec c = some m' := by
  cases c with
  | test => exact Option.ne_none_iff_exists'.mp (h rfl)
  | setup | start | halt | devTest | fadeToColor => exact ⟨_, rfl⟩

/-- Both arrays use the first three patterns. -/
theorem allStored_testSignal_iff (flash : Memory) (toggle : Bool) :
    AllStored flash (testSignal toggle) ↔
      ∀ i : ℕ, i < 3 → ∃ p, storedPattern flash i = some p ∧ 1 ≤ p.getLength := by
  have hmem : ∀ toggle, ((testSignal toggle).all fun i => decide (i.toNat < 3)) = true := by
    decide
  constructor
  · intro h i hi
    have hindex : UInt8.ofNat i ∈ testSignal toggle := by
      rcases (by omega : i = 0 ∨ i = 1 ∨ i = 2) with rfl | rfl | rfl <;> cases toggle <;> decide
    have hstored := h _ hindex
    rwa [UInt8.toNat_ofNat', Nat.mod_eq_of_lt (by omega)] at hstored
  · intro h index hindex
    exact h index.toNat (of_decide_eq_true (List.all_eq_true.mp (hmem toggle) index hindex))

/-- Both arrays begin with the first pattern. -/
theorem testSignal_eq_cons (toggle : Bool) : ∃ rest, testSignal toggle = 0 :: rest ∧
    (0 :: rest).length ≤ 255 := by
  cases toggle <;> exact ⟨_, rfl, by decide⟩

/-- **The test signal is sent** if the first three patterns are stored and none of
them is empty. -/
theorem cTestSignal_ne_none {m : Mcu}
    (h : ∀ i : ℕ, i < 3 → ∃ p, storedPattern m.flash i = some p ∧ 1 ≤ p.getLength) :
    m.cTestSignal ≠ none := by
  have hall := (allStored_testSignal_iff m.flash m.toggle).mpr h
  obtain ⟨rest, hrest, hlen⟩ := testSignal_eq_cons m.toggle
  obtain ⟨first, hfirst, hone⟩ := h 0 (by decide)
  rw [hrest] at hall
  obtain ⟨ic', s', hsent, -⟩ := (send434_eq_some_iff (List.cons_ne_nil 0 rest) hlen hall hfirst
    hfirst m.ic m.sender _).mpr ⟨PeriodPattern.periods_ne_zero (i := 0) hone, rfl⟩
  rw [cTestSignal, hrest, hsent]
  exact Option.some_ne_none _

/-! ## Streams -/

/-- If every test signal is sent, every command of a list is executed. -/
theorem exists_run_exec {m : Mcu} {cs : List Command}
    (h : Runs.Along exec TransmissionCompletes m cs) : ∃ m', Runs.run exec m cs = some m' := by
  induction cs generalizing m with
  | nil => exact ⟨m, rfl⟩
  | cons c cs ih =>
    obtain ⟨m', hm'⟩ := exists_exec h.1
    rw [Runs.run_cons_of_step hm']
    exact ih (h.2 m' hm')

/-- **A stream of commands.**  If every transmission a test signal starts
completes, calling `handle_usart` once for each command, on the concatenation of
the commands' bytes, executes these commands, each with its own payload and in
order, and leaves the input queue empty. -/
theorem handleUsartTimes_stream (m : Mcu) (cs : List Command)
    (hsent : Runs.Along exec TransmissionCompletes m cs) :
    ∃ m', Runs.run exec m cs = some m' ∧
      handleUsartTimes cs.length (m.feed (cs.flatMap Command.encode)) = some (m'.feed []) := by
  obtain ⟨m', hrun⟩ := exists_run_exec hsent
  refine ⟨m', hrun, ?_⟩
  have hstream := run_frames handleUsart_encode m cs []
  rwa [List.append_nil, hrun] at hstream

/-- Three records, as the line carries them. -/
def threeRecords : SetupPayload where
  records := [![1, 104, 43, 152, 0, 0, 0, 0, 0, 0, 0, 0, 0, 0, 0, 0, 76],
    ![1, 104, 4, 56, 1, 104, 4, 56, 0, 0, 0, 0, 0, 0, 0, 0, 116],
    ![1, 104, 4, 56, 4, 56, 1, 104, 0, 0, 0, 0, 0, 0, 0, 0, 1]]
  length_le := by decide

/-- The text `0xFF 0xFF 0xFF 10000`. -/
def fadeToWhite : FadePayload where
  text := [48, 120, 70, 70, 32, 48, 120, 70, 70, 32, 48, 120, 70, 70, 32, 49, 48, 48, 48, 48]
  length_eq := rfl
  backspace_notMem := by decide
  zero_notMem := by decide
  four_le_tokens := by decide

/-- A table is stored, sent, and the strip faded, between starting and halting the
capture. -/
theorem handleUsartTimes_stream_threeRecords :
    ∃ m', Runs.run exec (initial blank)
        [.setup threeRecords, .start, .test, .devTest, .fadeToColor fadeToWhite, .halt] = some m' ∧
      handleUsartTimes 6 ((initial blank).feed
        ([.setup threeRecords, .start, .test, .devTest, .fadeToColor fadeToWhite, .halt].flatMap
          Command.encode)) = some (m'.feed []) := by
  refine handleUsartTimes_stream (initial blank) _ ⟨nofun, fun m₁ h₁ => ⟨nofun, fun m₂ h₂ =>
    ⟨fun _ => cTestSignal_ne_none ?_, fun m₃ _ => ⟨nofun, fun m₄ h₄ => ⟨nofun, fun m₅ h₅ =>
      ⟨nofun, fun _ _ => trivial⟩⟩⟩⟩⟩⟩
  obtain rfl := Option.some.inj h₁
  obtain rfl := Option.some.inj h₂
  intro i hi
  have hfit : Fits (threeRecords.records.map SetupRecord.pattern).length := by decide
  have hpad : ∀ p ∈ threeRecords.records.map SetupRecord.pattern, p.padding = 0 := by decide
  have hstored := storedPattern_savePatterns hfit hpad blank i hi
  have hlength : ∀ p ∈ threeRecords.records.map SetupRecord.pattern, 1 ≤ p.getLength := by decide
  exact ⟨_, hstored, hlength _ (List.getElem_mem _)⟩

end Mcu
end Stm32Adaptive
