import Stm32Adaptive.Library.CrashLogic
import Stm32Adaptive.Library.FlashController
import Stm32Adaptive.PatternPage
import Stm32Adaptive.PrintfOutput

/-!
# The flash driver on its registers

`storage/flash.cpp`, access by access.  `Flash.savePatterns` is the list of operations of a
save; here the driver itself runs on a controller, waits for each operation in a loop on
the status register, and prints what went wrong.  The controller is hardware: it is any one
that keeps to its documentation, and an operation takes a number of reads of which only a
bound is known.

`savePatterns_performs` is the refinement: the driver performs exactly the operations of
the list, one after the other, and a power loss at any access leaves the memory after some
first ones of them.
-/

namespace Stm32Adaptive
namespace FlashDriver

open FlashMemory CrashLogic
open CrashLogic.Prog (access compute runIf forList)
open Flash (pageSize signalPatternsDataStart mbyte)
open Printf (text)

/-- The controller, and what has been sent on the serial line. -/
structure Device (c : Controller pageSize) where
  chip : c.State
  out : List UInt8

/-! ## Registers -/

section Registers

variable (c : Controller pageSize)

def readSr : Prog (Device c) Status :=
  access fun d => ((c.readSr d.chip).1, { d with chip := (c.readSr d.chip).2 })

def readCr : Prog (Device c) Control :=
  access fun d => ((c.readCr d.chip).1, { d with chip := (c.readCr d.chip).2 })

def writeSr (sr : Status) : Prog (Device c) Unit :=
  access fun d => ((), { d with chip := c.writeSr sr d.chip })

def writeCr (cr : Control) : Prog (Device c) Unit :=
  access fun d => ((), { d with chip := c.writeCr cr d.chip })

def writeAr (ar : ℕ) : Prog (Device c) Unit :=
  access fun d => ((), { d with chip := c.writeAr ar d.chip })

def writeKeyr (key : UInt32) : Prog (Device c) Unit :=
  access fun d => ((), { d with chip := c.writeKeyr key d.chip })

/-- A store of a half-word to the memory. -/
def store (addr : ℕ) (value : UInt16) : Prog (Device c) Unit :=
  access fun d => ((), { d with chip := c.store addr value d.chip })

/-- `SET_BIT` and `CLEAR_BIT` on `FLASH->CR`: a read and a write. -/
def modifyCr (f : Control → Control) : Prog (Device c) Unit := do
  let cr ← readCr c
  writeCr c (f cr)

/-- `printf`. -/
def printf (format : String) (va : List Printf.Arg) : Prog (Device c) Unit :=
  compute fun d => (Printf.printf d.out (text format) va).map fun r => ((), { d with out := r.2 })

end Registers

/-! ## The driver -/

section Driver

variable (c : Controller pageSize) (turns : ℕ)

/-- The loop of `FLASH_WaitForLastOperation`, which is called without a timeout, for a
number of turns. -/
def waitWhileBusy : ℕ → Prog (Device c) Unit
  | 0 => Prog.wrong
  | turns + 1 => do
    let sr ← readSr c
    if sr.bsy then waitWhileBusy turns else pure ()

/-- The two error flags, the second one if the first is not set. -/
def operationError : Prog (Device c) Bool := do
  let sr ← readSr c
  if sr.wrperr then pure true
  else do
    let sr ← readSr c
    pure sr.pgerr

/-- `FLASH_WaitForLastOperation` behind its loop.  Setting `EOP` writes back every flag
that is set, so it clears the errors as well. -/
def checkFlags : Prog (Device c) ℤ := do
  let sr ← readSr c
  runIf sr.eop do
    let sr ← readSr c
    writeSr c { sr with eop := true }
  let error ← operationError c
  if error then do
    printf c "[ERR] Error flash op!" []
    pure (-2)
  else pure 0

/-- `FLASH_WaitForLastOperation`. -/
def waitForLastOperation : Prog (Device c) ℤ := do
  waitWhileBusy c turns
  checkFlags c

/-- `flash_unlock`. -/
def flashUnlock : Prog (Device c) Unit := do
  let _ ← waitForLastOperation c turns
  let cr ← readCr c
  runIf cr.lock do
    writeKeyr c c.key1
    writeKeyr c c.key2
  let cr ← readCr c
  runIf cr.lock (printf c "[ERR] flash unlock error\n" [])

/-- `flash_lock`. -/
def flashLock : Prog (Device c) Unit := modifyCr c fun cr => { cr with lock := true }

/-- `erase_page`. -/
def erasePage (pageStartAddr : ℕ) : Prog (Device c) Unit := do
  let _ ← waitForLastOperation c turns
  modifyCr c fun cr => { cr with per := true }
  writeAr c pageStartAddr
  modifyCr c fun cr => { cr with strt := true }
  let r ← waitForLastOperation c turns
  runIf (r ≠ 0) do
    let sr ← readSr c
    printf c "[ERR] could not erase flash? %X\n" [.word (c.statusWord sr)]
  modifyCr c fun cr => { cr with per := false }

/-- The body of the loop in `write_to_flash`. -/
def writeHalfWord (destination : ℕ) (src : List UInt8) (halfWordIndex : ℕ) :
    Prog (Device c) Unit := do
  store c (destination + 2 * halfWordIndex)
    (ofBytes (src.getD (2 * halfWordIndex) 0) (src.getD (2 * halfWordIndex + 1) 0))
  let _ ← waitForLastOperation c turns
  pure ()

/-- `write_to_flash`. -/
def writeToFlash (destination : ℕ) (src : List UInt8) (numBytes : ℕ) : Prog (Device c) Unit := do
  let _ ← waitForLastOperation c turns
  modifyCr c fun cr => { cr with pg := true }
  forList (List.range (numBytes / 2)) (writeHalfWord c turns destination src)
  modifyCr c fun cr => { cr with pg := false }

/-- `savePatterns`. -/
def savePatterns (p : List PeriodPattern) (n : ℕ) : Prog (Device c) Unit := do
  flashUnlock c turns
  erasePage c turns signalPatternsDataStart
  writeToFlash c turns signalPatternsDataStart [mbyte, UInt8.ofNat n] 2
  writeToFlash c turns (signalPatternsDataStart + 2) (p.flatMap PeriodPattern.toBytes)
    (n * PeriodPattern.size)
  flashLock c

end Driver

/-! ## Performing operations -/

variable {c : Controller pageSize} {turns : ℕ} {α β γ : Type}

/-- What can be said about a device. -/
structure Shown where
  view : View
  out : List UInt8

/-- The device is in a state. -/
def Shows (s : Shown) (d : Device c) : Prop := c.view d.chip = s.view ∧ d.out = s.out

/-- The memory is the one after some first ones of the operations. -/
def CutIn (m : Memory) (ops : List Op) (d : Device c) : Prop :=
  ∃ k, (c.view d.chip).memory = applyAll pageSize (ops.take k) m

theorem Shows.cutIn {s : Shown} {d : Device c} (h : Shows s d) (ops : List Op) :
    CutIn s.view.memory ops d :=
  ⟨0, congrArg View.memory h.1⟩

theorem CutIn.append_right {m : Memory} {ops : List Op} {d : Device c} (h : CutIn m ops d)
    (ops' : List Op) : CutIn m (ops ++ ops') d := by
  obtain ⟨k, hk⟩ := h
  refine ⟨min k ops.length, hk.trans ?_⟩
  rw [List.take_append_of_le_length (Nat.min_le_right _ _), ← List.take_eq_take_min]

theorem CutIn.append_left {m : Memory} {ops ops' : List Op} {d : Device c}
    (h : CutIn (applyAll pageSize ops m) ops' d) : CutIn m (ops ++ ops') d := by
  obtain ⟨k, hk⟩ := h
  refine ⟨ops.length + k, hk.trans ?_⟩
  rw [List.take_length_add_append, applyAll_append]

/-- **A program performs some operations**: it takes the device from one state to the
other, and where the power goes it has done some first ones of them. -/
structure Performs (s : Shown) (x : Prog (Device c) α) (ops : List Op) (a : α) (t : Shown) :
    Prop where
  spec : Spec (Shows s) x (fun b d => b = a ∧ Shows t d) (CutIn s.view.memory ops)
  memory : t.view.memory = applyAll pageSize ops s.view.memory

namespace Performs

variable {s t u : Shown} {x : Prog (Device c) α} {f : α → Prog (Device c) β} {ops ops' : List Op}
  {a : α} {b : β}

theorem ret : Performs s (pure a : Prog (Device c) α) [] a s :=
  ⟨Spec.ret fun _ h => ⟨rfl, h⟩, rfl⟩

/-- Two programs perform the operations of both. -/
theorem andThen (hx : Performs s x ops a t) (hf : Performs t (f a) ops' b u) :
    Performs s (x >>= f) (ops ++ ops') b u := by
  refine ⟨Spec.andThen_of_eq (hx.spec.weaken (fun _ h => h) (fun _ _ h => h)
    fun _ h => h.append_right ops') ?_, ?_⟩
  · refine hf.spec.weaken (fun _ h => h) (fun _ _ h => h) fun d h => ?_
    rw [hx.memory] at h
    exact h.append_left
  · rw [hf.memory, hx.memory, applyAll_append]

theorem access {f : Device c → α × Device c}
    (h : ∀ d, Shows s d → (f d).1 = a ∧ Shows t (f d).2)
    (hmemory : t.view.memory = s.view.memory) : Performs s (Prog.access f) [] a t :=
  ⟨Spec.access (fun _ h => h.cutIn []) h, hmemory⟩

end Performs

/-! ### The registers of an idle controller -/

section Idle

variable {s : Shown}

theorem readSr_performs (h : s.view.current = none) :
    Performs s (readSr c) [] ⟨false, s.view.pgerr, s.view.wrperr, s.view.eop⟩ s := by
  refine Performs.access (fun d hd => ?_) rfl
  have hidle : (c.view d.chip).current = none := by rw [hd.1, h]
  have hread := c.readSr_of_idle d.chip hidle
  rw [hd.1] at hread
  exact ⟨hread.1, hread.2, hd.2⟩

theorem readCr_performs (h : s.view.current = none) :
    Performs s (readCr c) [] s.view.control s := by
  refine Performs.access (fun d hd => ?_) rfl
  have hidle : (c.view d.chip).current = none := by rw [hd.1, h]
  have hread := c.readCr_of_idle d.chip hidle
  rw [hd.1] at hread
  exact ⟨hread.1, hread.2, hd.2⟩

variable {v : View}

theorem writeSr_performs {sr : Status} (h : s.view.writeSr sr = some v)
    (hmemory : v.memory = s.view.memory) : Performs s (writeSr c sr) [] () ⟨v, s.out⟩ :=
  Performs.access (fun d hd => ⟨rfl, c.view_writeSr d.chip sr v (by rw [hd.1, h]), hd.2⟩) hmemory

theorem writeCr_performs {cr : Control} (h : s.view.writeCr pageSize cr = some v)
    (hmemory : v.memory = s.view.memory) : Performs s (writeCr c cr) [] () ⟨v, s.out⟩ :=
  Performs.access (fun d hd => ⟨rfl, c.view_writeCr d.chip cr v (by rw [hd.1, h]), hd.2⟩) hmemory

theorem writeAr_performs {ar : ℕ} (h : s.view.writeAr ar = some v)
    (hmemory : v.memory = s.view.memory) : Performs s (writeAr c ar) [] () ⟨v, s.out⟩ :=
  Performs.access (fun d hd => ⟨rfl, c.view_writeAr d.chip ar v (by rw [hd.1, h]), hd.2⟩) hmemory

theorem writeKeyr_performs {key : UInt32} (h : s.view.writeKeyr c.key1 c.key2 key = some v)
    (hmemory : v.memory = s.view.memory) : Performs s (writeKeyr c key) [] () ⟨v, s.out⟩ :=
  Performs.access (fun d hd => ⟨rfl, c.view_writeKeyr d.chip key v (by rw [hd.1, h]), hd.2⟩)
    hmemory

theorem store_performs {addr : ℕ} {value : UInt16} (h : s.view.store addr value = some v)
    (hmemory : v.memory = s.view.memory) : Performs s (store c addr value) [] () ⟨v, s.out⟩ :=
  Performs.access (fun d hd => ⟨rfl, c.view_store d.chip addr value v (by rw [hd.1, h]), hd.2⟩)
    hmemory

theorem modifyCr_performs {f : Control → Control} (hidle : s.view.current = none)
    (h : s.view.writeCr pageSize (f s.view.control) = some v)
    (hmemory : v.memory = s.view.memory) : Performs s (modifyCr c f) [] () ⟨v, s.out⟩ :=
  (readCr_performs hidle).andThen (writeCr_performs h hmemory)

/-- A text without directives. -/
theorem printf_performs {format : String} (h : ∀ ch ∈ text format, ch ≠ '%'.toUInt8 ∧ ch ≠ 0) :
    Performs s (printf c format []) [] () ⟨s.view, s.out ++ text format⟩ := by
  have htext := Printf.vsnprintf_of_forall_ne (fun ch hch => (h ch hch).1) []
  have hfilter : (text format).filter (· ≠ 0) = text format :=
    List.filter_eq_self.mpr fun ch hch => decide_eq_true (h ch hch).2
  refine ⟨Spec.compute fun d hd => ?_, rfl⟩
  refine ⟨(), { d with out := d.out ++ text format }, ?_, rfl, hd.1, ?_⟩
  · rw [Printf.printf_eq htext, hfilter]
    rfl
  · rw [← hd.2]

end Idle

/-! ### Waiting -/

/-- The error flags. -/
structure Errors where
  pgerr : Bool
  wrperr : Bool
  deriving DecidableEq

def Errors.none : Errors := ⟨false, false⟩

/-- An error is reported. -/
def Errors.any (e : Errors) : Bool := e.wrperr || e.pgerr

/-- The flags after an operation: its end clears them, its failure sets one. -/
def Errors.after (accepted : Bool) (e : Errors) : Errors :=
  if accepted then .none else ⟨true, e.wrperr⟩

def errorText : List UInt8 := text "[ERR] Error flash op!"

/-- What is printed about an error. -/
def report (error : Bool) : List UInt8 := if error then errorText else []

/-- A device with no operation under way. -/
structure Idle where
  memory : Memory
  control : Control
  ar : ℕ
  errors : Errors
  out : List UInt8

namespace Idle

variable (s : Idle)

/-- As it is seen, with an operation that may be under way. -/
def shown (current : Option Op) : Shown :=
  ⟨⟨s.memory, current, s.control, s.ar, false, s.errors.pgerr, s.errors.wrperr, false⟩, s.out⟩

/-- After a call of `FLASH_WaitForLastOperation`. -/
def waited : Idle := { s with out := s.out ++ report s.errors.any }

/-- After an operation and the wait for it. -/
def perform (op : Op) : Idle :=
  { s with
    memory := op.apply pageSize s.memory
    errors := s.errors.after (op.accepted s.memory)
    out := s.out ++ report (!op.accepted s.memory) }

end Idle

/-- After some operations. -/
def Idle.performAll (ops : List Op) (s : Idle) : Idle := ops.foldl (fun s op => s.perform op) s

theorem Idle.performAll_control (ops : List Op) (s : Idle) (cr : Control) :
    { s with control := cr }.performAll ops = { s.performAll ops with control := cr } := by
  induction ops generalizing s with
  | nil => rfl
  | cons op ops ih => exact ih (s.perform op)

theorem Idle.control_performAll (ops : List Op) (s : Idle) :
    (s.performAll ops).control = s.control := by
  induction ops generalizing s with
  | nil => rfl
  | cons op ops ih => exact ih (s.perform op)

namespace Idle

variable (s : Idle)

/-- After the erase of a save. -/
def pageErased : Idle :=
  { s.waited.waited with ar := signalPatternsDataStart }.perform
    (.erasePage signalPatternsDataStart)

/-- After the header of a save. -/
def headed (n : ℕ) : Idle :=
  s.pageErased.waited.performAll
    (Flash.writeToFlash signalPatternsDataStart [mbyte, UInt8.ofNat n] 2)

/-- After a save. -/
def saved (p : List PeriodPattern) (n : ℕ) : Idle :=
  (s.headed n).waited.performAll
    (Flash.writeToFlash (signalPatternsDataStart + 2) (p.flatMap PeriodPattern.toBytes)
      (n * PeriodPattern.size))

theorem control_saved (p : List PeriodPattern) (n : ℕ) : (s.saved p n).control = s.control :=
  (control_performAll _ _).trans (control_performAll _ _)

end Idle

/-- The value of `FLASH_WaitForLastOperation`. -/
def waitResult (error : Bool) : ℤ := if error then -2 else 0

theorem operationError_performs {s : Shown} (h : s.view.current = none) :
    Performs s (operationError c) [] (s.view.wrperr || s.view.pgerr) s := by
  refine (readSr_performs h).andThen ?_
  cases hw : s.view.wrperr with
  | true => exact Performs.ret
  | false => exact (readSr_performs h).andThen Performs.ret

/-- Behind the loop the flags are reported, after the end of an operation has cleared them. -/
theorem checkFlags_performs (m : Memory) (cr : Control) (ar : ℕ) (e : Errors) (out : List UInt8)
    (eop : Bool) :
    Performs ⟨⟨m, none, cr, ar, false, e.pgerr, e.wrperr, eop⟩, out⟩ (checkFlags c) []
      (waitResult (!eop && e.any))
      ((Idle.mk m cr ar (if eop then .none else e)
        (out ++ report (!eop && e.any))).shown none) := by
  refine (readSr_performs rfl).andThen ?_
  cases eop with
  | true =>
    have hclear : Performs (c := c) ⟨⟨m, none, cr, ar, false, e.pgerr, e.wrperr, true⟩, out⟩
        (readSr c >>= fun sr => writeSr c { sr with eop := true }) [] ()
        ((Idle.mk m cr ar .none out).shown none) :=
      (readSr_performs rfl).andThen (writeSr_performs
        (by simp [View.writeSr, Errors.none]) rfl)
    refine hclear.andThen ((operationError_performs rfl).andThen ?_)
    rw [show out ++ report (!true && e.any) = out from List.append_nil out]
    exact Performs.ret
  | false =>
    refine Performs.ret.andThen ((operationError_performs rfl).andThen ?_)
    change Performs _ (if e.any = true then _ else _) _ (waitResult e.any)
      ((Idle.mk m cr ar e (out ++ report e.any)).shown none)
    cases e.any with
    | true => exact (printf_performs (by decide +kernel)).andThen Performs.ret
    | false =>
      rw [show out ++ report false = out from List.append_nil out]
      exact Performs.ret

/-- The loop on an operation: it ends within the reads that are left. -/
theorem waitWhileBusy_spec {s : Shown} {op : Op} (h : s.view.current = some op) (n : ℕ) :
    Spec (fun d => Shows s d ∧ c.remaining d.chip < n) (waitWhileBusy c n)
      (fun b d => b = () ∧ Shows ⟨s.view.finish pageSize op, s.out⟩ d)
      (CutIn s.view.memory [op]) := by
  induction n with
  | zero => exact fun _ _ hd => absurd hd.2 (Nat.not_lt_zero _)
  | succ n ih =>
    have hread : Spec (fun d => Shows s d ∧ c.remaining d.chip < n + 1) (readSr c)
        (fun sr d => sr.bsy = true ∧ Shows s d ∧ c.remaining d.chip < n ∨
          sr.bsy = false ∧ Shows ⟨s.view.finish pageSize op, s.out⟩ d)
        (CutIn s.view.memory [op]) := by
      refine Spec.access (fun d hd => hd.1.cutIn [op]) fun d hd => ?_
      obtain ⟨⟨hview, hout⟩, hlt⟩ := hd
      rcases c.readSr_of_busy d.chip op (by rw [hview, h]) with ⟨hbsy, hsame, hless⟩ | ⟨hbsy, hend⟩
      · exact Or.inl ⟨hbsy, ⟨hsame.trans hview, hout⟩, by
          change c.remaining (c.readSr d.chip).2 < n
          omega⟩
      · exact Or.inr ⟨hbsy, hend.trans (by rw [hview]), hout⟩
    refine Spec.andThen hread fun sr budget d hd => ?_
    rcases hd with ⟨hbsy, hd⟩ | ⟨hbsy, hd⟩
    · rw [if_pos hbsy]
      exact ih budget d hd
    · rw [if_neg (by rw [hbsy]; exact Bool.false_ne_true)]
      exact ⟨id, rfl, hd⟩

/-! ### The modes of the control register -/

/-- Outside a save. -/
def locked : Control := ⟨false, false, false, true⟩

/-- Inside a save, between two operations. -/
def unlocked : Control := ⟨false, false, false, false⟩

/-- In `erase_page`. -/
def erasing : Control := ⟨false, true, false, false⟩

/-- In `write_to_flash`. -/
def programming : Control := ⟨true, false, false, false⟩

theorem modifyCr_idle {s : Idle} {f : Control → Control} (hlock : s.control.lock = false)
    (hstrt : (f s.control).strt = false) :
    Performs (s.shown none) (modifyCr c f) [] ()
      ({ s with control := f s.control }.shown none) := by
  refine modifyCr_performs rfl ?_ rfl
  simp only [View.writeCr, Idle.shown, hlock, hstrt, Bool.not_false, if_true]

theorem writeAr_idle (s : Idle) (ar : ℕ) :
    Performs (s.shown none) (writeAr c ar) [] () ({ s with ar := ar }.shown none) :=
  writeAr_performs rfl rfl

/-- The start of an erase. -/
theorem modifyCr_strt {s : Idle} (hcontrol : s.control = erasing) (har : s.ar % pageSize = 0) :
    Performs (s.shown none) (modifyCr c fun cr => { cr with strt := true }) [] ()
      (s.shown (some (.erasePage s.ar))) := by
  refine modifyCr_performs rfl ?_ rfl
  simp [View.writeCr, Idle.shown, hcontrol, erasing, har]

/-- The start of programming. -/
theorem store_idle {s : Idle} (hcontrol : s.control = programming) (addr : ℕ) (value : UInt16) :
    Performs (s.shown none) (store c addr value) [] ()
      (s.shown (some (.program addr value))) := by
  refine store_performs ?_ rfl
  simp only [View.store, Idle.shown, hcontrol, programming]

/-- The two keys. -/
theorem writeKeyr_idle {s : Idle} (hcontrol : s.control = locked) :
    Performs (s.shown none) (do
        writeKeyr c c.key1
        writeKeyr c c.key2) [] () ({ s with control := unlocked }.shown none) := by
  have hfirst : (s.shown none).view.writeKeyr c.key1 c.key2 c.key1 =
      some { (s.shown none).view with keyed := true } := by
    simp [View.writeKeyr, Idle.shown, hcontrol, locked]
  refine (writeKeyr_performs hfirst rfl).andThen (writeKeyr_performs ?_ rfl)
  simp [View.writeKeyr, Idle.shown, hcontrol, locked, unlocked]

section Bounded

variable (hturns : c.limit < turns)

include hturns

/-- No operation is under way. -/
theorem waitForLastOperation_performs (s : Idle) :
    Performs (s.shown none) (waitForLastOperation c turns) [] (waitResult s.errors.any)
      (s.waited.shown none) := by
  obtain ⟨n, rfl⟩ := Nat.exists_eq_succ_of_ne_zero (Nat.ne_zero_of_lt hturns)
  have hloop : Performs (s.shown none) (waitWhileBusy c (n + 1)) [] () (s.shown none) :=
    (readSr_performs rfl).andThen Performs.ret
  exact hloop.andThen (checkFlags_performs s.memory s.control s.ar s.errors s.out false)

/-- An operation is under way. -/
theorem waitForLastOperation_performs_op (s : Idle) (op : Op) :
    Performs (s.shown (some op)) (waitForLastOperation c turns) [op]
      (waitResult (!op.accepted s.memory)) ((s.perform op).shown none) := by
  have hloop : Performs (s.shown (some op)) (waitWhileBusy c turns) [op] ()
      ⟨(s.shown (some op)).view.finish pageSize op, s.out⟩ :=
    ⟨(waitWhileBusy_spec rfl turns).weaken
      (fun d hd => ⟨hd, (c.remaining_le d.chip).trans_lt hturns⟩) (fun _ _ h => h)
      fun _ h => h, rfl⟩
  have hfinish : (s.shown (some op)).view.finish pageSize op =
      ⟨op.apply pageSize s.memory, none, s.control, s.ar, false,
        s.errors.pgerr || !op.accepted s.memory, s.errors.wrperr, op.accepted s.memory⟩ := by
    simp only [View.finish, Idle.shown, Bool.false_or]
  rw [hfinish] at hloop
  have hflags := checkFlags_performs (c := c) (op.apply pageSize s.memory) s.control s.ar
    ⟨s.errors.pgerr || !op.accepted s.memory, s.errors.wrperr⟩ s.out (op.accepted s.memory)
  have herror : (!op.accepted s.memory &&
      Errors.any ⟨s.errors.pgerr || !op.accepted s.memory, s.errors.wrperr⟩) =
        !op.accepted s.memory := by
    cases op.accepted s.memory <;> simp [Errors.any]
  have hafter : (if op.accepted s.memory then Errors.none
      else ⟨s.errors.pgerr || !op.accepted s.memory, s.errors.wrperr⟩) =
        s.errors.after (op.accepted s.memory) := by
    cases op.accepted s.memory <;> simp [Errors.after]
  rw [herror, hafter] at hflags
  exact hloop.andThen hflags

end Bounded

/-! ### The functions of the driver -/

/-- **The rule for a loop**: every turn performs its operations, and keeps what the next
one needs. -/
theorem Performs.forList {P : Idle → Prop} {f : γ → Prog (Device c) Unit} {ops : γ → List Op}
    {next : γ → Idle → Idle}
    (hnext : ∀ i s, P s → P (next i s))
    (h : ∀ i s, P s → Performs (s.shown none) (f i) (ops i) () ((next i s).shown none))
    (is : List γ) {s : Idle} (hs : P s) :
    Performs (s.shown none) (forList is f) (is.flatMap ops) ()
      ((is.foldl (fun s i => next i s) s).shown none) := by
  induction is generalizing s with
  | nil => exact Performs.ret
  | cons i is ih => exact (h i s hs).andThen (ih (hnext i s hs))

theorem flashLock_performs {s : Idle} (h : s.control = unlocked) :
    Performs (s.shown none) (flashLock c) [] () ({ s with control := locked }.shown none) := by
  have hlock := modifyCr_idle (c := c) (s := s) (f := fun cr => { cr with lock := true })
    (by rw [h]; rfl) (by rw [h]; rfl)
  rw [h] at hlock
  exact hlock

section Bounded

variable (hturns : c.limit < turns)

include hturns

theorem flashUnlock_performs {s : Idle} (h : s.control = locked) :
    Performs (s.shown none) (flashUnlock c turns) [] ()
      ({ s.waited with control := unlocked }.shown none) := by
  refine (waitForLastOperation_performs hturns s).andThen ((readCr_performs rfl).andThen ?_)
  have hlock : (s.waited.shown none).view.control.lock = true := by
    rw [show (s.waited.shown none).view.control = s.control from rfl, h]
    rfl
  have hopen : Performs (c := c) (({ s.waited with control := unlocked } : Idle).shown none)
      (readCr c >>= fun cr => runIf cr.lock (printf c "[ERR] flash unlock error\n" [])) [] ()
      (({ s.waited with control := unlocked } : Idle).shown none) :=
    (readCr_performs rfl).andThen Performs.ret
  rw [hlock]
  exact Performs.andThen (writeKeyr_idle (s := s.waited) h) hopen

theorem erasePage_performs {s : Idle} (h : s.control = unlocked) {start : ℕ}
    (hstart : start % pageSize = 0) :
    Performs (s.shown none) (erasePage c turns start) [.erasePage start] ()
      (({ s.waited with ar := start }.perform (.erasePage start)).shown none) := by
  obtain ⟨m, cr, ar, e, out⟩ := s
  obtain rfl : cr = unlocked := h
  have hset : Performs (c := c) ((Idle.mk m unlocked ar e out).waited.shown none)
      (modifyCr c fun cr => { cr with per := true }) [] ()
      (({ (Idle.mk m unlocked ar e out).waited with control := erasing } : Idle).shown none) :=
    modifyCr_idle rfl rfl
  refine (waitForLastOperation_performs hturns _).andThen (hset.andThen ?_)
  refine (writeAr_idle _ start).andThen ((modifyCr_strt rfl hstart).andThen ?_)
  refine (waitForLastOperation_performs_op hturns _ (.erasePage start)).andThen ?_
  exact Performs.ret.andThen (modifyCr_idle rfl rfl)

theorem writeHalfWord_performs {s : Idle} (h : s.control = programming) (destination : ℕ)
    (src : List UInt8) (i : ℕ) {op : Op}
    (hop : op = .program (destination + 2 * i)
      (ofBytes (src.getD (2 * i) 0) (src.getD (2 * i + 1) 0))) :
    Performs (s.shown none) (writeHalfWord c turns destination src i) [op] ()
      ((s.perform op).shown none) := by
  subst hop
  exact (store_idle h _ _).andThen
    ((waitForLastOperation_performs_op hturns s _).andThen Performs.ret)

/-- The loop of `write_to_flash`. -/
theorem forList_writeHalfWord_performs {s : Idle} (h : s.control = programming) (destination : ℕ)
    (src : List UInt8) (n : ℕ) :
    Performs (s.shown none) (forList (List.range n) (writeHalfWord c turns destination src))
      (programBytes destination src n) ()
      ((s.performAll (programBytes destination src n)).shown none) := by
  obtain ⟨op, hop⟩ : ∃ op : ℕ → Op, ∀ i, op i = .program (destination + 2 * i)
      (ofBytes (src.getD (2 * i) 0) (src.getD (2 * i + 1) 0)) := ⟨_, fun _ => rfl⟩
  have hloop : Performs (s.shown none)
      (forList (List.range n) (writeHalfWord c turns destination src))
      ((List.range n).flatMap fun i => [op i]) ()
      (((List.range n).foldl (fun s i => s.perform (op i)) s).shown none) :=
    Performs.forList (P := fun s => s.control = programming)
      (show ∀ i (s : Idle), s.control = programming → (s.perform (op i)).control = programming
        from fun _ _ hs => hs)
      (fun i s hs => writeHalfWord_performs hturns hs destination src i (hop i)) _ h
  have hops : programBytes destination src n = (List.range n).map op :=
    List.map_congr_left fun i _ => (hop i).symm
  rw [hops, Idle.performAll, List.foldl_map, List.map_eq_flatMap]
  exact hloop

theorem writeToFlash_performs {s : Idle} (h : s.control = unlocked) (destination : ℕ)
    (src : List UInt8) (numBytes : ℕ) :
    Performs (s.shown none) (writeToFlash c turns destination src numBytes)
      (Flash.writeToFlash destination src numBytes) ()
      ((s.waited.performAll (Flash.writeToFlash destination src numBytes)).shown none) := by
  have hset : Performs (c := c) (s.waited.shown none)
      (modifyCr c fun cr => { cr with pg := true }) [] ()
      ({ s.waited with control := programming }.shown none) := by
    have hpg := modifyCr_idle (c := c) (s := s.waited) (f := fun cr => { cr with pg := true })
      (congrArg Control.lock h) (congrArg Control.strt h)
    rw [show s.waited.control = unlocked from h] at hpg
    exact hpg
  have hloop := forList_writeHalfWord_performs hturns
    (s := { s.waited with control := programming }) rfl destination src (numBytes / 2)
  rw [Idle.performAll_control] at hloop
  have hreset : Performs (c := c)
      ({ s.waited.performAll (programBytes destination src (numBytes / 2)) with
        control := programming }.shown none)
      (modifyCr c fun cr => { cr with pg := false }) [] ()
      ((s.waited.performAll (programBytes destination src (numBytes / 2))).shown none) := by
    have hcontrol := Idle.control_performAll (programBytes destination src (numBytes / 2)) s.waited
    rw [show s.waited.control = unlocked from h] at hcontrol
    have hpg := modifyCr_idle (c := c)
      (s := { s.waited.performAll (programBytes destination src (numBytes / 2)) with
        control := programming })
      (f := fun cr => { cr with pg := false }) rfl rfl
    rw [show ({ programming with pg := false } : Control) = unlocked from rfl, ← hcontrol] at hpg
    exact hpg
  have hall : Performs (s.shown none) (writeToFlash c turns destination src numBytes)
      (Flash.writeToFlash destination src numBytes ++ []) ()
      ((s.waited.performAll (Flash.writeToFlash destination src numBytes)).shown none) :=
    (waitForLastOperation_performs hturns s).andThen (hset.andThen (hloop.andThen hreset))
  rwa [List.append_nil] at hall

/-- **The driver performs the operations of a save.** -/
theorem savePatterns_performs {s : Idle} (h : s.control = locked) (p : List PeriodPattern)
    (n : ℕ) :
    Performs (s.shown none) (savePatterns c turns p n) (Flash.savePatterns p n) ()
      ((s.saved p n).shown none) := by
  have hunlock := flashUnlock_performs hturns h
  have herase := erasePage_performs hturns (s := { s.waited with control := unlocked }) rfl
    (show signalPatternsDataStart % pageSize = 0 from rfl)
  have hheader := writeToFlash_performs hturns (s := { s.pageErased with control := unlocked }) rfl
    signalPatternsDataStart [mbyte, UInt8.ofNat n] 2
  have hheader' : ({ s.pageErased with control := unlocked } : Idle).waited.performAll
      (Flash.writeToFlash signalPatternsDataStart [mbyte, UInt8.ofNat n] 2) =
        { s.headed n with control := unlocked } := Idle.performAll_control _ s.pageErased.waited _
  rw [hheader'] at hheader
  have hrecords := writeToFlash_performs hturns (s := { s.headed n with control := unlocked }) rfl
    (signalPatternsDataStart + 2) (p.flatMap PeriodPattern.toBytes) (n * PeriodPattern.size)
  have hrecords' : ({ s.headed n with control := unlocked } : Idle).waited.performAll
      (Flash.writeToFlash (signalPatternsDataStart + 2) (p.flatMap PeriodPattern.toBytes)
        (n * PeriodPattern.size)) = { s.saved p n with control := unlocked } :=
    Idle.performAll_control _ (s.headed n).waited _
  rw [hrecords'] at hrecords
  have hlock := flashLock_performs (c := c) (s := { s.saved p n with control := unlocked }) rfl
  rw [show ({ s.saved p n with control := locked } : Idle) = s.saved p n from by
    rw [← h, ← s.control_saved p n]] at hlock
  have hall : Performs (s.shown none) (savePatterns c turns p n)
      ([] ++ (Flash.erasePage signalPatternsDataStart ++
        (Flash.writeToFlash signalPatternsDataStart [mbyte, UInt8.ofNat n] 2 ++
          (Flash.writeToFlash (signalPatternsDataStart + 2) (p.flatMap PeriodPattern.toBytes)
            (n * PeriodPattern.size) ++ [])))) () ((s.saved p n).shown none) :=
    hunlock.andThen (herase.andThen (hheader.andThen (hrecords.andThen hlock)))
  rw [List.nil_append, List.append_nil, ← List.append_assoc] at hall
  exact hall

end Bounded

end FlashDriver
end Stm32Adaptive
