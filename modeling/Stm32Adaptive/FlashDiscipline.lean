import Stm32Adaptive.PatternPage
import Stm32Adaptive.UartFraming

/-!
# Uploads and the page after the pattern page

The number of records in a command `C_SETUP` is a byte from the line, and it sets
how far the write goes.  The page has room for 56 records; a 57th lies with its
last bytes in `SYSTEM_RUN_DATA`, which the call has not erased.

`frameSafe_iff` says that this is the only danger.  A sequence of uploads keeps to
the page it erases, leaves the next page alone and makes no pointer that leads out
of the page, exactly when none of them has more than 56 records.
-/

namespace Stm32Adaptive

open FlashMemory Flash

namespace Mcu

/-- The next command on the line is `C_SETUP`, and `handle_usart` is called. -/
def upload (m : Mcu) (frame : SetupPayload) : Option Mcu :=
  (m.feed (Command.setup frame).encode).handleUsart

/-- The patterns of a frame. -/
def framePatterns (frame : SetupPayload) : List PeriodPattern :=
  frame.records.map SetupRecord.pattern

theorem length_framePatterns (frame : SetupPayload) :
    (framePatterns frame).length = frame.records.length := List.length_map _

theorem upload_eq (m : Mcu) (frame : SetupPayload) :
    m.upload frame =
      some ((m.savePatterns (framePatterns frame) (framePatterns frame).length).feed []) := by
  have hstep := m.handleUsart_encode (.setup frame) []
  rw [List.append_nil] at hstep
  rw [upload, hstep, length_framePatterns]
  rfl

/-- **The upload of a frame is safe**: the flash operations of its save erase the
pattern page and then program half-words inside it only, none of them twice; the
page after it is not modified; and every pointer `getPattern` returns afterwards
leads to a record inside the pattern page. -/
structure FrameSafe (m : Mcu) (frame : SetupPayload) : Prop where
  disciplined : ∃ m' ops, m.upload frame = some m' ∧ m'.saves = m.saves ++ [ops] ∧
    m'.flash = Flash.apply ops m.flash ∧ Disciplined pageSize signalPatternsDataStart ops
  runData : ∀ m', m.upload frame = some m' →
    ∀ x, systemRunDataStart ≤ x → x < systemRunDataStart + pageSize → m'.flash x = m.flash x
  pointers : ∀ m', m.upload frame = some m' → ∀ n addr, getPattern m'.flash n = some addr →
    signalPatternsDataStart ≤ addr ∧
      addr + PeriodPattern.size ≤ signalPatternsDataStart + pageSize

/-- A save is disciplined exactly when the table fits in the page. -/
theorem disciplined_savePatterns_iff (ps : List PeriodPattern) :
    Disciplined pageSize signalPatternsDataStart (Flash.savePatterns ps ps.length) ↔
      ps.length ≤ 56 := by
  rw [savePatterns_eq, disciplined_erase_programBytes_iff, ← fits_iff_halfWords, fits_iff]

/-- After a save that fits, a pointer leads to one of its records. -/
theorem lt_length_of_getPattern {ps : List PeriodPattern} (hfit : Fits ps.length) (flash : Memory)
    {n : ℤ} {addr : ℕ}
    (h : getPattern (Flash.apply (Flash.savePatterns ps ps.length) flash) n = some addr) :
    ∃ i < ps.length, addr = patternAddr i := by
  obtain ⟨-, h0, hn, -, haddr⟩ := getPattern_eq_some_iff.mp h
  rw [count_savePatterns hfit.le_255] at hn
  exact ⟨n.toNat, by omega, haddr⟩

theorem frameSafe_iff_length_le (m : Mcu) (frame : SetupPayload) :
    m.FrameSafe frame ↔ frame.records.length ≤ 56 := by
  have hupload := m.upload_eq frame
  rw [← length_framePatterns]
  constructor
  · intro h
    obtain ⟨m', ops, hm', hsaves, -, hops⟩ := h.disciplined
    obtain rfl := Option.some.inj (hupload.symm.trans hm')
    obtain rfl := List.singleton_inj.mp (List.append_cancel_left hsaves)
    exact (disciplined_savePatterns_iff _).mp hops
  · intro hlen
    have hops := (disciplined_savePatterns_iff (framePatterns frame)).mpr hlen
    refine ⟨⟨_, _, hupload, rfl, rfl, hops⟩, ?_, ?_⟩
    · intro m' hm' x hx _
      obtain rfl := Option.some.inj (hupload.symm.trans hm')
      refine applyAll_eq_of_disciplined hops m.flash ?_
      rw [systemRunDataStart_eq] at hx
      omega
    · intro m' hm' n addr haddr
      obtain rfl := Option.some.inj (hupload.symm.trans hm')
      obtain ⟨i, hi, rfl⟩ := lt_length_of_getPattern (fits_iff.mpr hlen) m.flash haddr
      rw [patternAddr, PeriodPattern.size, pageSize]
      omega

/-- **Uploads and the page boundary.**  From any state of the chip and for any
sequence of uploads, all of them are safe if and only if none of them has more
than 56 records. -/
theorem frameSafe_iff (m : Mcu) (frames : List SetupPayload) :
    Runs.Along upload FrameSafe m frames ↔ ∀ frame ∈ frames, frame.records.length ≤ 56 := by
  rw [← Runs.along_iff_forall_mem fun m frame => ⟨_, upload_eq m frame⟩]
  exact Runs.along_iff_along (I := fun _ => True) (χ := fun _ _ => True)
    (fun m frame _ _ => frameSafe_iff_length_le m frame) (fun _ _ _ _ _ _ _ => trivial) trivial
    Runs.along_true

/-- A frame with 57 records, all of whose bytes are zero. -/
def fiftySevenRecords : SetupPayload := ⟨List.replicate 57 fun _ => 0, by decide⟩

/-- **57 records run into the next page**: one upload to a blank chip programs the
first half-word of `SYSTEM_RUN_DATA`, which it has not erased. -/
theorem not_frameSafe_fiftySevenRecords :
    ¬ Runs.Along upload FrameSafe (initial blank) [fiftySevenRecords] ∧
    ∃ m' ops, (initial blank).upload fiftySevenRecords = some m' ∧ m'.saves = [ops] ∧
      systemRunDataStart ∈ programmed ops := by
  have hlen : (framePatterns fiftySevenRecords).length = 57 := by decide
  refine ⟨?_, _, _, upload_eq _ _, rfl, ?_⟩
  · rintro ⟨hsafe, -⟩
    have hfew := ((initial blank).frameSafe_iff_length_le fiftySevenRecords).mp hsafe
    exact absurd hfew (by decide)
  · rw [savePatterns_eq, programmed, programmed_programBytes, hlen]
    exact List.mem_map.mpr ⟨512, List.mem_range.mpr (by decide), rfl⟩

end Mcu
end Stm32Adaptive
