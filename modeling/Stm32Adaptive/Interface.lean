import Stm32Adaptive.Library.CString
import Stm32Adaptive.Library.Framing
import Stm32Adaptive.Library.LineEditor
import Stm32Adaptive.Sender
import Stm32Adaptive.Ws28xx

/-!
# The serial interface

`interface.cpp`: `handle_usart` takes one command from the input queue, with the
bytes that belong to it, and carries it out.  The commands store a pattern table,
start and halt the capture, send a test signal, and fade the LED strip.

A command that reads on when the queue is empty waits for the interrupt handler
to queue another byte.  Here the queue holds all that is going to be received
during the call, so `none` is a wait that does not end; it is also undefined
behaviour, that is, `strtol` on a null pointer, and whatever is `none` in the
functions called.  The clock does not advance inside a call.
-/

namespace Stm32Adaptive

open FlashMemory Flash Framing LineEditor Ws28xx

/-- The state of the firmware that the commands read and write. -/
structure Mcu where
  flash : Memory
  /-- The milliseconds `getSystick` returns. -/
  systick : UInt64
  /-- `input_queue` of the serial port. -/
  inputQueue : List UInt8
  ic : Ic
  sender : Sender
  ws2815 : WS2815
  /-- The static counter of `ws2815::test`. -/
  testCounter : Int32
  /-- The static flag of the command `C_TEST`. -/
  toggle : Bool
  /-- History: the flash operations of every call of `savePatterns`. -/
  saves : List (List Op)

namespace Mcu

/-- After reset, with the flash as it was. -/
def initial (flash : Memory) : Mcu where
  flash := flash
  systick := 0
  inputQueue := []
  ic := Ic.initial
  sender := Sender.initial
  ws2815 := WS2815.initial
  testCounter := 0
  toggle := false
  saves := []

/-! ## The codes of `CMD` -/

def cSetup : UInt8 := 1

/-- The letter `s`. -/
def cStart : UInt8 := 115

/-- The letter `h`. -/
def cHalt : UInt8 := 104

/-- The letter `t`. -/
def cTest : UInt8 := 116

/-- The letter `a`. -/
def cDevTest : UInt8 := 97

/-- The letter `f`. -/
def cFadeToColor : UInt8 := 102

/-! ## The pattern table -/

/-- `_getchar`. -/
abbrev getchar : Reader UInt8 UInt8 := item

/-- A record as `calloc` leaves it. -/
def callocPattern : PeriodPattern := ⟨0, fun _ => 0, 0⟩

/-- The loop over the periods of a record: the upper byte comes first. -/
def readPeriods : List (Fin 8) → PeriodPattern → Reader UInt8 PeriodPattern
  | [], tmp => pure tmp
  | periodI :: rest, tmp => do
    let upper ← getchar
    let lower ← getchar
    readPeriods rest
      { tmp with periods := Function.update tmp.periods periodI (ofBytes lower upper) }

/-- One record of the command `C_SETUP`. -/
def readPattern : Reader UInt8 PeriodPattern := do
  let tmp ← readPeriods (List.finRange 8) callocPattern
  let tolerance ← getchar
  return { tmp with toleranceMul255 := tolerance }

/-- The records of the command, behind their number. -/
def readPatterns : Reader UInt8 (ℕ × List PeriodPattern) := do
  let nPatterns ← getchar
  let tmp ← times readPattern nPatterns.toNat
  return (nPatterns.toNat, tmp)

/-- `flash::savePatterns`, carried out. -/
def savePatterns (tmp : List PeriodPattern) (n : ℕ) (m : Mcu) : Mcu :=
  { m with
    flash := Flash.apply (Flash.savePatterns tmp n) m.flash
    saves := m.saves ++ [Flash.savePatterns tmp n] }

/-! ## The test signal -/

/-- The two arrays of the command `C_TEST`. -/
def testSignal (toggle : Bool) : List UInt8 :=
  if toggle then [0, 1, 2, 1, 1, 1, 1, 1, 1, 1, 2, 2, 2, 0]
  else [0, 1, 2, 1, 1, 1, 1, 1, 1, 1, 2, 2, 1, 0]

/-- The command `C_TEST`.  Its last statement compares `toggle` with itself, so
the flag keeps its value. -/
def cTestSignal (m : Mcu) : Option Mcu :=
  let arr := testSignal m.toggle
  (Sender.send434 m.flash arr (UInt8.ofNat arr.length) m.ic m.sender).map fun r =>
    { m with ic := r.1, sender := r.2 }

/-! ## The fade command -/

/-- `sizeof(command_buffer) - 1`: the example command, without its final zero. -/
def commandLength : ℕ := 20

/-- The loop that fills `command_buffer`.  The index is signed; the comparison with
a size makes it unsigned. -/
def readCommand (i : ℤ) (commandBuffer : List UInt8) : Reader UInt8 (List UInt8)
  | [] => if UInt32.ofInt i < UInt32.ofNat commandLength then none else some (commandBuffer, [])
  | c :: queue =>
    if UInt32.ofInt i < UInt32.ofNat commandLength then
      let commandBuffer := commandBuffer.set i.toNat c
      if c = 8 then
        -- a backspace goes back two, and the loop adds one
        readCommand (i - 2 + 1) commandBuffer queue
      else readCommand (i + 1) commandBuffer queue
    else some (commandBuffer, c :: queue)

/-- The separator of `strtok`. -/
def blankChar : UInt8 := 32

/-- The colour and the time in a command, from four calls of `strtok`. -/
def parseFade (command : List UInt8) : Option (Color × UInt32) := do
  let (r, command) ← CString.strtok blankChar command
  let (g, command) ← CString.strtok blankChar command
  let (b, command) ← CString.strtok blankChar command
  let (fadeTime, _) ← CString.strtok blankChar command
  return (⟨UInt8.ofInt (CString.strtol r 0), UInt8.ofInt (CString.strtol g 0),
    UInt8.ofInt (CString.strtol b 0)⟩, UInt32.ofInt (CString.strtol fadeTime 10))

/-- The fade a command asks for. -/
def fadeToColor (color : Color) (fadeTime : UInt32) (m : Mcu) : Mcu :=
  { m with ws2815 := m.ws2815.fadeToColor color fadeTime m.systick }

/-- The command `C_FADE_TO_COLOR`. -/
def cFade (m : Mcu) : Option Mcu := do
  let (commandBuffer, queue) ←
    (readCommand 0 (List.replicate (commandLength + 1) 0)).run m.inputQueue
  let (color, fadeTime) ← parseFade (CString.contents commandBuffer)
  return ({ m with inputQueue := queue } : Mcu).fadeToColor color fadeTime

/-! ## The dispatcher -/

/-- The command `C_SETUP`. -/
def cSetupPatterns (m : Mcu) : Option Mcu := do
  let ((nPatterns, tmp), queue) ← readPatterns.run m.inputQueue
  return ({ m with inputQueue := queue } : Mcu).savePatterns tmp nPatterns

/-- `C_START`. -/
def enableIc (m : Mcu) : Mcu := { m with ic := m.ic.enableIc }

/-- `C_HALT`. -/
def disableIc (m : Mcu) : Mcu := { m with ic := m.ic.disableIc }

/-- The command `C_DEV_TEST`. -/
def ws2815Test (m : Mcu) : Mcu :=
  let r := m.ws2815.test m.systick m.testCounter
  { m with testCounter := r.1, ws2815 := r.2 }

/-- `handle_usart`. -/
def handleUsart (m : Mcu) : Option Mcu :=
  match m.inputQueue with
  | [] => some m
  | c :: queue =>
    let m := { m with inputQueue := queue }
    if c = cSetup then m.cSetupPatterns
    else if c = cStart then some m.enableIc
    else if c = cHalt then some m.disableIc
    else if c = cDevTest then some m.ws2815Test
    else if c = cTest then m.cTestSignal
    else if c = cFadeToColor then m.cFade
    else some m

/-- The state with another input queue. -/
def feed (m : Mcu) (inputQueue : List UInt8) : Mcu := { m with inputQueue := inputQueue }

@[simp] theorem inputQueue_feed (m : Mcu) (q : List UInt8) : (m.feed q).inputQueue = q := rfl

/-- The number of calls of `handle_usart`. -/
def handleUsartTimes (n : ℕ) (m : Mcu) : Option Mcu :=
  Runs.run (fun m (_ : Unit) => m.handleUsart) m (List.replicate n ())

/-! ## What a call can do -/

/-- The string that `strtok` gets, if the whole text of a fade command is there. -/
def fadeLine (queue : List UInt8) : Option (List UInt8) :=
  ((readCommand 0 (List.replicate (commandLength + 1) 0)).run queue).map fun r =>
    CString.contents r.1

theorem cSetupPatterns_cases {m m' : Mcu} (h : m.cSetupPatterns = some m') :
    ∃ nPatterns tmp queue, readPatterns.run m.inputQueue = some ((nPatterns, tmp), queue) ∧
      m' = (m.feed queue).savePatterns tmp nPatterns := by
  obtain ⟨⟨⟨nPatterns, tmp⟩, queue⟩, hread, hm⟩ := Option.bind_eq_some_iff.mp h
  exact ⟨nPatterns, tmp, queue, hread, (Option.some.inj hm).symm⟩

theorem cFade_cases {m m' : Mcu} (h : m.cFade = some m') :
    ∃ line color fadeTime queue, fadeLine m.inputQueue = some line ∧
      parseFade line = some (color, fadeTime) ∧
      m' = (m.feed queue).fadeToColor color fadeTime := by
  obtain ⟨⟨commandBuffer, queue⟩, hread, hparse⟩ := Option.bind_eq_some_iff.mp h
  obtain ⟨⟨color, fadeTime⟩, hparse, hm⟩ := Option.bind_eq_some_iff.mp hparse
  refine ⟨CString.contents commandBuffer, color, fadeTime, queue, ?_, hparse,
    (Option.some.inj hm).symm⟩
  rw [fadeLine, hread, Option.map_some]

/-- **What a call that comes back has done**: nothing, if there is no byte, and else the
command of the byte. -/
theorem handleUsart_cases {m m' : Mcu} (h : m.handleUsart = some m') :
    (m.inputQueue = [] ∧ m' = m) ∨ ∃ c queue, m.inputQueue = c :: queue ∧
      ((c = cSetup ∧ ∃ nPatterns tmp rest, readPatterns.run queue = some ((nPatterns, tmp), rest) ∧
        m' = (m.feed rest).savePatterns tmp nPatterns) ∨
      (c = cStart ∧ m' = (m.feed queue).enableIc) ∨
      (c = cHalt ∧ m' = (m.feed queue).disableIc) ∨
      (c = cDevTest ∧ m' = (m.feed queue).ws2815Test) ∨
      (c = cTest ∧ ∃ ic sender, Sender.send434 m.flash (testSignal m.toggle)
          (UInt8.ofNat (testSignal m.toggle).length) m.ic m.sender = some (ic, sender) ∧
        m' = { m.feed queue with ic := ic, sender := sender }) ∨
      (c = cFadeToColor ∧ ∃ line color fadeTime rest, fadeLine queue = some line ∧
        parseFade line = some (color, fadeTime) ∧
        m' = (m.feed rest).fadeToColor color fadeTime) ∨
      (c ∉ [cSetup, cStart, cHalt, cDevTest, cTest, cFadeToColor] ∧ m' = m.feed queue)) := by
  unfold handleUsart at h
  cases hqueue : m.inputQueue with
  | nil =>
    rw [hqueue] at h
    exact Or.inl ⟨rfl, (Option.some.inj h).symm⟩
  | cons c queue =>
    rw [hqueue] at h
    refine Or.inr ⟨c, queue, rfl, ?_⟩
    simp only at h
    split_ifs at h with hsetup hstart hhalt hdev htest hfade
    · exact Or.inl ⟨hsetup, cSetupPatterns_cases h⟩
    · exact Or.inr (Or.inl ⟨hstart, (Option.some.inj h).symm⟩)
    · exact Or.inr (Or.inr (Or.inl ⟨hhalt, (Option.some.inj h).symm⟩))
    · exact Or.inr (Or.inr (Or.inr (Or.inl ⟨hdev, (Option.some.inj h).symm⟩)))
    · obtain ⟨⟨ic, sender⟩, hsent, hm⟩ := Option.map_eq_some_iff.mp h
      exact Or.inr (Or.inr (Or.inr (Or.inr (Or.inl ⟨htest, ic, sender, hsent, hm.symm⟩))))
    · exact Or.inr (Or.inr (Or.inr (Or.inr (Or.inr (Or.inl ⟨hfade, cFade_cases h⟩)))))
    · refine Or.inr (Or.inr (Or.inr (Or.inr (Or.inr (Or.inr ⟨?_, (Option.some.inj h).symm⟩)))))
      simp [hsetup, hstart, hhalt, hdev, htest, hfade]

/-! ## What the readers take -/

/-- The periods of a record, read into a table. -/
theorem reads_readPeriods (f : Fin 8 → UInt16) (is : List (Fin 8)) (tmp : PeriodPattern) :
    Reads (readPeriods is tmp) (is.flatMap fun i => [hi (f i), lo (f i)])
      { tmp with periods := fun i => if i ∈ is then f i else tmp.periods i } := by
  induction is generalizing tmp with
  | nil => exact reads_pure tmp
  | cons i is ih =>
    have hperiods : (fun j => if j ∈ i :: is then f j else tmp.periods j) = fun j =>
        if j ∈ is then f j
        else Function.update tmp.periods i (ofBytes (lo (f i)) (hi (f i))) j := by
      ext j : 1
      rw [ofBytes_lo_hi, Function.update_apply]
      by_cases hj : j = i <;> simp [hj]
    rw [hperiods]
    show Reads _ ([hi (f i)] ++ ([lo (f i)] ++ is.flatMap _)) _
    exact (reads_item _).bind ((reads_item _).bind (ih _))

/-- The bytes of a record on the line: the periods, each with its upper byte first,
and the tolerance. -/
def recordBytes (p : PeriodPattern) : List UInt8 :=
  (List.finRange 8).flatMap (fun i => [hi (p.periods i), lo (p.periods i)]) ++ [p.toleranceMul255]

/-- **A record is read back from its bytes**, with a padding byte of zero. -/
theorem reads_readPattern {p : PeriodPattern} (hpad : p.padding = 0) :
    Reads readPattern (recordBytes p) p := by
  have hp : (⟨callocPattern.padding,
      fun i => if i ∈ List.finRange 8 then p.periods i else callocPattern.periods i,
      p.toleranceMul255⟩ : PeriodPattern) = p := by
    obtain ⟨padding, periods, tolerance⟩ := p
    simp only [List.mem_finRange, if_true]
    exact congrArg (PeriodPattern.mk · periods tolerance) hpad.symm
  show Reads _ (_ ++ ([p.toleranceMul255] ++ [])) p
  refine (reads_readPeriods p.periods (List.finRange 8) callocPattern).bind
    ((reads_item p.toleranceMul255).bind ?_)
  exact congrArg (fun q => (pure q : Reader UInt8 PeriodPattern)) hp ▸ reads_pure p

theorem reads_readPatterns {ps : List PeriodPattern} (hlen : ps.length ≤ 255)
    (hpad : ∀ p ∈ ps, p.padding = 0) :
    Reads readPatterns (UInt8.ofNat ps.length :: ps.flatMap recordBytes) (ps.length, ps) := by
  have hcount : (UInt8.ofNat ps.length).toNat = ps.length := by
    rw [UInt8.toNat_ofNat']
    omega
  have hrecords := Reads.times fun p hp => reads_readPattern (hpad p hp)
  rw [List.map_id'] at hrecords
  have hread : Reads readPatterns
      ([UInt8.ofNat ps.length] ++ (ps.flatMap recordBytes ++ [])) (ps.length, ps) := by
    refine (reads_item _).bind ?_
    rw [hcount]
    exact hrecords.bind (reads_pure _)
  rwa [List.append_nil] at hread

/-- **The command `C_SETUP` takes its records and saves them.** -/
theorem handleUsart_setup {ps : List PeriodPattern} (hlen : ps.length ≤ 255)
    (hpad : ∀ p ∈ ps, p.padding = 0) (m : Mcu) (rest : List UInt8) :
    (m.feed (cSetup :: UInt8.ofNat ps.length :: ps.flatMap recordBytes ++ rest)).handleUsart =
      some ((m.savePatterns ps ps.length).feed rest) := by
  have hread := reads_readPatterns hlen hpad rest
  simp only [handleUsart, inputQueue_feed, List.cons_append, if_true, cSetupPatterns]
  rw [List.cons_append] at hread
  rw [hread]
  rfl

/-! ## What the fade command takes -/

theorem ofInt_lt_commandLength_iff {i : ℕ} (h : i ≤ 20) :
    UInt32.ofInt i < UInt32.ofNat commandLength ↔ i < 20 := by
  revert i
  decide

theorem readCommand_of_not_lt {i : ℤ} (h : ¬ UInt32.ofInt i < UInt32.ofNat commandLength)
    (commandBuffer queue : List UInt8) :
    (readCommand i commandBuffer).run queue = some (commandBuffer, queue) := by
  cases queue <;> exact if_neg h

theorem readCommand_cons_of_lt {i : ℤ} (h : UInt32.ofInt i < UInt32.ofNat commandLength)
    {c : UInt8} (hc : c ≠ 8) (commandBuffer queue : List UInt8) :
    (readCommand i commandBuffer).run (c :: queue) =
      (readCommand (i + 1) (commandBuffer.set i.toNat c)).run queue :=
  (if_pos h).trans (if_neg hc)

theorem readCommand_backspace_of_lt {i : ℤ} (h : UInt32.ofInt i < UInt32.ofNat commandLength)
    (commandBuffer queue : List UInt8) :
    (readCommand i commandBuffer).run (8 :: queue) =
      (readCommand (i - 2 + 1) (commandBuffer.set i.toNat 8)).run queue :=
  (if_pos h).trans (if_pos rfl)

/-- **One pass of the loop is one keystroke**, if there is something to delete.  The
index is the number of characters kept; they stand at the front of the buffer, and
the zero at its end. -/
theorem readCommand_keystroke {kept junk : List UInt8} (hlt : kept.length < 20)
    (hroom : kept.length + junk.length = 20) {c : UInt8} (hdelete : c = 8 → kept ≠ [])
    (queue : List UInt8) :
    ∃ junk', (keystroke 8 kept c).length + junk'.length = 20 ∧
      (readCommand kept.length (kept ++ junk ++ [0])).run (c :: queue) =
        (readCommand (keystroke 8 kept c).length (keystroke 8 kept c ++ junk' ++ [0])).run
          queue := by
  have hgo := (@ofInt_lt_commandLength_iff kept.length hlt.le).mpr hlt
  obtain ⟨d, junk, rfl⟩ : ∃ d rest, junk = d :: rest :=
    List.exists_cons_of_length_pos (by omega)
  rw [List.length_cons] at hroom
  have hset : (kept ++ d :: junk ++ [0]).set (kept.length : ℤ).toNat c =
      kept ++ c :: junk ++ [0] := by
    rw [Int.toNat_natCast, List.append_assoc, List.set_append_right _ _ le_rfl, Nat.sub_self,
      List.append_assoc]
    rfl
  by_cases hc : c = 8
  · subst hc
    obtain rfl | ⟨init, last, rfl⟩ := List.eq_nil_or_concat' kept
    · exact absurd rfl (hdelete rfl)
    rw [readCommand_backspace_of_lt hgo, hset, keystroke_backspace, List.dropLast_concat]
    rw [List.length_append, List.length_singleton] at hroom ⊢
    refine ⟨last :: 8 :: junk, by rw [List.length_cons, List.length_cons]; omega, ?_⟩
    have hindex : ((init.length + 1 : ℕ) : ℤ) - 2 + 1 = init.length := by omega
    rw [hindex, List.append_assoc init]
    rfl
  · rw [readCommand_cons_of_lt hgo hc, hset, keystroke_of_ne hc]
    refine ⟨junk, by rw [List.length_append, List.length_singleton]; omega, ?_⟩
    rw [List.length_append, List.length_singleton, Int.natCast_succ, List.append_assoc kept [c]]
    rfl

/-- The loop ends when the line is full. -/
theorem readCommand_of_full {kept junk : List UInt8} (hroom : kept.length + junk.length = 20)
    (hfull : ¬ kept.length < 20) (queue : List UInt8) :
    (readCommand kept.length (kept ++ junk ++ [0])).run queue =
      (edit 8 20 kept queue).map fun r => (r.1 ++ [0], r.2) := by
  have hjunk : junk = [] := List.eq_nil_of_length_eq_zero (by omega)
  rw [readCommand_of_not_lt (mt (@ofInt_lt_commandLength_iff kept.length (by omega)).mp hfull),
    edit_of_full hfull, hjunk, List.append_nil]
  rfl

/-- **The loop edits the line**, if every backspace finds something to delete. -/
theorem readCommand_edit {queue kept junk : List UInt8} (hroom : kept.length + junk.length = 20)
    (h : DeletesKept 8 20 kept queue) :
    (readCommand kept.length (kept ++ junk ++ [0])).run queue =
      (edit 8 20 kept queue).map fun r => (r.1 ++ [0], r.2) := by
  induction queue generalizing kept junk with
  | nil =>
    by_cases hlt : kept.length < 20
    · rw [edit, if_pos hlt]
      exact if_pos ((@ofInt_lt_commandLength_iff kept.length hlt.le).mpr hlt)
    · exact readCommand_of_full hroom hlt []
  | cons c queue ih =>
    by_cases hlt : kept.length < 20
    · obtain ⟨hdelete, hrest⟩ := h hlt
      obtain ⟨junk', hroom', hpass⟩ := readCommand_keystroke hlt hroom hdelete queue
      rw [hpass, ih hroom' hrest, edit_cons_of_lt hlt]
    · exact readCommand_of_full hroom hlt (c :: queue)

/-- What the tokens of a command say. -/
def fadeArguments (tokens : List (List UInt8)) : Color × UInt32 :=
  (⟨UInt8.ofInt (CString.strtol (tokens.getD 0 []) 0),
    UInt8.ofInt (CString.strtol (tokens.getD 1 []) 0),
    UInt8.ofInt (CString.strtol (tokens.getD 2 []) 0)⟩,
    UInt32.ofInt (CString.strtol (tokens.getD 3 []) 10))

/-- With four tokens no call of `strtok` returns a null pointer. -/
theorem parseFade_of_tokens {command : List UInt8}
    (h : 4 ≤ (CString.tokens blankChar command).length) :
    parseFade command = some (fadeArguments (CString.tokens blankChar command)) := by
  obtain ⟨r, s1, h1, hs1⟩ := CString.exists_strtok h
  obtain ⟨g, s2, h2, hs2⟩ := CString.exists_strtok hs1
  obtain ⟨b, s3, h3, hs3⟩ := CString.exists_strtok hs2
  obtain ⟨fadeTime, s4, h4, -⟩ := CString.exists_strtok hs3
  rw [CString.tokens_of_strtok h1, CString.tokens_of_strtok h2, CString.tokens_of_strtok h3,
    CString.tokens_of_strtok h4]
  simp only [parseFade, h1, h2, h3, h4, Option.bind_eq_bind, Option.bind_some]
  rfl

/-- `strtok` returns a pointer four times exactly if there are four tokens. -/
theorem parseFade_ne_none_iff (line : List UInt8) :
    parseFade line ≠ none ↔ 4 ≤ (CString.tokens blankChar line).length := by
  constructor
  · intro h
    obtain ⟨arguments, hparse⟩ := Option.ne_none_iff_exists'.mp h
    obtain ⟨⟨r, s1⟩, h1, hparse⟩ := Option.bind_eq_some_iff.mp hparse
    obtain ⟨⟨g, s2⟩, h2, hparse⟩ := Option.bind_eq_some_iff.mp hparse
    obtain ⟨⟨b, s3⟩, h3, hparse⟩ := Option.bind_eq_some_iff.mp hparse
    obtain ⟨⟨fadeTime, s4⟩, h4, -⟩ := Option.bind_eq_some_iff.mp hparse
    rw [CString.tokens_of_strtok h1, CString.tokens_of_strtok h2, CString.tokens_of_strtok h3,
      CString.tokens_of_strtok h4]
    simp only [List.length_cons]
    omega
  · intro h
    rw [parseFade_of_tokens h]
    exact Option.some_ne_none _

/-- **The command `C_FADE_TO_COLOR` takes its text and fades to what the text says.** -/
theorem handleUsart_fade {text : List UInt8} (hlen : text.length = commandLength)
    (hedit : 8 ∉ text) (hzero : 0 ∉ text)
    (htokens : 4 ≤ (CString.tokens blankChar text).length) (m : Mcu) (rest : List UInt8) :
    (m.feed (cFadeToColor :: text ++ rest)).handleUsart =
      some ((m.fadeToColor (fadeArguments (CString.tokens blankChar text)).1
        (fadeArguments (CString.tokens blankChar text)).2).feed rest) := by
  have hread : (readCommand 0 (List.replicate (commandLength + 1) 0)).run (text ++ rest) =
      some (text ++ [0], rest) := by
    have hfull : ([] : List UInt8).length + text.length = 20 := by rw [hlen]; rfl
    have hloop := @readCommand_edit (text ++ rest) [] (List.replicate 20 0) rfl
      (deletesKept_append_of_notMem hedit hfull rest)
    rwa [edit_append_of_notMem hedit hfull] at hloop
  have hfade : (m.feed (text ++ rest)).cFade =
      some ((m.fadeToColor (fadeArguments (CString.tokens blankChar text)).1
        (fadeArguments (CString.tokens blankChar text)).2).feed rest) := by
    rw [cFade, inputQueue_feed, hread]
    simp only [Option.bind_eq_bind, Option.bind_some, CString.contents_append_zero hzero,
      parseFade_of_tokens htokens]
    rfl
  exact hfade

end Mcu
end Stm32Adaptive
