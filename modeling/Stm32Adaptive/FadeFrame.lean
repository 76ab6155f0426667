import Stm32Adaptive.Interface

/-!
# The documented fade command

A comment in the source gives the command as `f 0xFF 0xFF 0xFF 10000`, and the buffer
has the size of this text behind the `f` and the blank.  But nothing takes the blank
away: it is the first of the 20 characters that are read.  `strtok` skips it, so the
colour is the one that was sent; the last digit of the time is not read, so the time is
a tenth of the one that was sent, and the digit stays in the queue, where the next call
takes it for a command.

This is what happens to every such command (`handleUsart_fadeFrame`), so none is
taken as it is documented.
-/

namespace Stm32Adaptive
namespace Mcu

open CString Ws28xx

/-! ## The command on the line -/

/-- `0x` and two hexadecimal digits; `upper` gives the case of each of them. -/
def hexByte (upper : Bool × Bool) (v : UInt8) : List UInt8 :=
  [48, 120, digitChar upper.1 (v.toNat / 16), digitChar upper.2 (v.toNat % 16)]

/-- The first four of the five decimal digits of a time. -/
def upperDigits (time : ℕ) : List UInt8 :=
  [digitChar false (time / 10000 % 10), digitChar false (time / 1000 % 10),
    digitChar false (time / 100 % 10), digitChar false (time / 10 % 10)]

/-- The last of the five decimal digits of a time. -/
def lastDigit (time : ℕ) : UInt8 := digitChar false (time % 10)

/-- A colour and a time as text, separated by single blanks. -/
def fadeText (upper : ℕ → Bool × Bool) (color : Color) (time : ℕ) : List UInt8 :=
  hexByte (upper 0) color.r ++ blankChar :: (hexByte (upper 1) color.g ++ blankChar ::
    (hexByte (upper 2) color.b ++ blankChar :: (upperDigits time ++ [lastDigit time])))

/-- The command as it is documented. -/
def fadeFrame (upper : ℕ → Bool × Bool) (color : Color) (time : ℕ) : List UInt8 :=
  cFadeToColor :: blankChar :: fadeText upper color time

/-- The example of the source, `f 0xFF 0xFF 0xFF 10000`. -/
example : fadeFrame (fun _ => (true, true)) ⟨255, 255, 255⟩ 10000 =
    [102, 32, 48, 120, 70, 70, 32, 48, 120, 70, 70, 32, 48, 120, 70, 70, 32,
      49, 48, 48, 48, 48] := by decide

/-- **The command is taken as it is documented**: one call fades to this colour in this
time, and leaves nothing in the queue. -/
def FadeTaken (m : Mcu) (upper : ℕ → Bool × Bool) (color : Color) (time : ℕ) : Prop :=
  (m.feed (fadeFrame upper color time)).handleUsart =
    some ((m.fadeToColor color (UInt32.ofNat time)).feed [])

/-! ## The 20 characters that are read -/

variable {upper : ℕ → Bool × Bool} {color : Color} {time : ℕ}

/-- The blank and the text up to the last digit. -/
def readText (upper : ℕ → Bool × Bool) (color : Color) (time : ℕ) : List UInt8 :=
  blankChar :: (hexByte (upper 0) color.r ++ blankChar :: (hexByte (upper 1) color.g ++
    blankChar :: (hexByte (upper 2) color.b ++ blankChar :: upperDigits time)))

theorem fadeFrame_eq (upper : ℕ → Bool × Bool) (color : Color) (time : ℕ) :
    fadeFrame upper color time =
      cFadeToColor :: readText upper color time ++ [lastDigit time] := by
  simp only [fadeFrame, fadeText, readText, List.cons_append, List.append_assoc]

/-- The characters of numbers come behind the blank. -/
theorem le_of_mem_hexByte {u : Bool × Bool} {v c : UInt8} (h : c ∈ hexByte u v) :
    48 ≤ c.toNat := by
  have hlt := v.toNat_lt
  rcases List.mem_cons.mp h with rfl | h
  · decide
  rcases List.mem_cons.mp h with rfl | h
  · decide
  rcases List.mem_cons.mp h with rfl | h
  · exact le_of_digitValue (digitValue_digitChar _ (by omega))
  · rw [List.mem_singleton.mp h]
    exact le_of_digitValue (digitValue_digitChar _ (by omega))

theorem le_of_mem_upperDigits {c : UInt8} (h : c ∈ upperDigits time) : 48 ≤ c.toNat := by
  have hdigit : ∀ n, 48 ≤ (digitChar false (n % 10)).toNat := fun n =>
    le_of_digitValue (digitValue_digitChar false (by omega))
  simp only [upperDigits, List.mem_cons, List.not_mem_nil, or_false] at h
  rcases h with rfl | rfl | rfl | rfl <;> exact hdigit _

theorem notMem_of_lt {c : UInt8} (hc : c.toNat < 48) {s : List UInt8}
    (hs : ∀ x ∈ s, 48 ≤ x.toNat) : c ∉ s := fun h => absurd (hs c h) (by omega)

theorem mem_readText {c : UInt8} (h : c ∈ readText upper color time) :
    c = blankChar ∨ 48 ≤ c.toNat := by
  simp only [readText, List.mem_cons, List.mem_append] at h
  rcases h with h | h | h | h | h | h | h | h
  · exact Or.inl h
  · exact Or.inr (le_of_mem_hexByte h)
  · exact Or.inl h
  · exact Or.inr (le_of_mem_hexByte h)
  · exact Or.inl h
  · exact Or.inr (le_of_mem_hexByte h)
  · exact Or.inl h
  · exact Or.inr (le_of_mem_upperDigits h)

/-- `strtok` finds the four numbers. -/
theorem tokens_readText (upper : ℕ → Bool × Bool) (color : Color) (time : ℕ) :
    tokens blankChar (readText upper color time) =
      [hexByte (upper 0) color.r, hexByte (upper 1) color.g, hexByte (upper 2) color.b,
        upperDigits time] := by
  have hblank : blankChar.toNat < 48 := by decide
  have hhex : ∀ u v, blankChar ∉ hexByte u v := fun u v =>
    notMem_of_lt hblank fun x hx => le_of_mem_hexByte hx
  have hdec : blankChar ∉ upperDigits time :=
    notMem_of_lt hblank fun x hx => le_of_mem_upperDigits hx
  have hne : ∀ u v, hexByte u v ≠ [] := fun u v => List.cons_ne_nil _ _
  rw [readText, tokens_cons_separator, tokens_append_separator (hne _ _) (hhex _ _),
    tokens_append_separator (hne _ _) (hhex _ _), tokens_append_separator (hne _ _) (hhex _ _),
    tokens_of_notMem (show upperDigits time ≠ [] from List.cons_ne_nil _ _) hdec]

/-! ## The numbers -/

theorem strtol_hexByte (u : Bool × Bool) (v : UInt8) : strtol (hexByte u v) 0 = v.toNat := by
  have hlt := v.toNat_lt
  rw [hexByte, strtol_cons_of_digit (d := 0) (by decide)]
  have hbegin : ∀ s, basePrefix 0 (48 :: 120 :: s) = (16, s) := fun s => by
    rw [basePrefix, if_pos (by decide)]
  rw [hbegin, digits_cons (digitValue_digitChar _ (by omega)) (by omega),
    digits_cons (digitValue_digitChar _ (by omega)) (by omega), digits, clampLong_of_lt (by omega)]
  omega

/-- Without its last digit a time is a tenth. -/
theorem strtol_upperDigits (h : time ≤ 99999) : strtol (upperDigits time) 10 = (time / 10 : ℕ) := by
  have hvalue : ∀ n, digitValue (digitChar false (n % 10)) = some (n % 10) := fun n =>
    digitValue_digitChar false (by omega)
  rw [upperDigits, strtol_cons_of_digit (hvalue _), basePrefix_of_ne (by decide) (by decide),
    digits_cons (hvalue _) (by omega), digits_cons (hvalue _) (by omega),
    digits_cons (hvalue _) (by omega), digits_cons (hvalue _) (by omega), digits,
    clampLong_of_lt (by omega)]
  omega

/-- **The colour is the one that was sent, the time a tenth.** -/
theorem fadeArguments_readText (upper : ℕ → Bool × Bool) (color : Color) (h : time ≤ 99999) :
    fadeArguments (tokens blankChar (readText upper color time)) =
      (color, UInt32.ofNat (time / 10)) := by
  have hbyte : ∀ u v, UInt8.ofInt (strtol (hexByte u v) 0) = v := by
    intro u v
    have hlt := v.toNat_lt
    rw [strtol_hexByte, ← UInt8.toNat_inj, UInt8.ofInt, UInt8.toNat_ofNat']
    omega
  have htime : UInt32.ofInt (strtol (upperDigits time) 10) = UInt32.ofNat (time / 10) := by
    rw [strtol_upperDigits h, ← UInt32.toNat_inj, UInt32.ofInt, UInt32.toNat_ofNat',
      UInt32.toNat_ofNat']
    omega
  simp only [tokens_readText, fadeArguments, List.getD_cons_zero, List.getD_cons_succ, hbyte, htime]

/-! ## The call -/

/-- **What the documented command does.** -/
theorem handleUsart_fadeFrame (m : Mcu) (upper : ℕ → Bool × Bool) (color : Color)
    (h : time ≤ 99999) :
    (m.feed (fadeFrame upper color time)).handleUsart =
      some ((m.fadeToColor color (UInt32.ofNat (time / 10))).feed [lastDigit time]) := by
  have hsmall : ∀ c : UInt8, c ≠ blankChar → c.toNat < 48 → c ∉ readText upper color time := by
    intro c hne hc hmem
    rcases mem_readText hmem with heq | hle
    · exact hne heq
    · omega
  have hcall := @handleUsart_fade (readText upper color time) rfl
    (hsmall 8 (by decide) (by decide)) (hsmall 0 (by decide) (by decide))
    (by rw [tokens_readText]; exact le_rfl) m [lastDigit time]
  rwa [← fadeFrame_eq, fadeArguments_readText upper color h] at hcall

/-- **No documented command is taken as it is documented**: the last digit stays. -/
theorem not_fadeTaken (m : Mcu) (upper : ℕ → Bool × Bool) (color : Color) {time : ℕ}
    (h : time ≤ 99999) : ¬ m.FadeTaken upper color time := by
  intro htaken
  have hqueue := congrArg (Option.map inputQueue)
    ((m.handleUsart_fadeFrame upper color h).symm.trans htaken)
  exact absurd (Option.some.inj hqueue) (List.cons_ne_nil _ _)

/-- Not even the shortest time. -/
theorem not_fadeTaken_zero :
    ¬ (initial Flash.blank).FadeTaken (fun _ => (false, false)) ⟨0, 0, 0⟩ 0 :=
  not_fadeTaken _ _ _ (by decide)

/-- **The example of the source.**  It asks for ten seconds and gets one, and a zero is
left in the queue. -/
theorem not_fadeTaken_white :
    (((initial Flash.blank).feed
        (fadeFrame (fun _ => (true, true)) ⟨255, 255, 255⟩ 10000)).handleUsart.map fun m =>
      (m.ws2815.fadeTargetColor, m.ws2815.fadeTime, m.inputQueue)) =
        some (⟨255, 255, 255⟩, 1000, [48]) ∧
    ¬ (initial Flash.blank).FadeTaken (fun _ => (true, true)) ⟨255, 255, 255⟩ 10000 := by
  have hcall : (((initial Flash.blank).feed
      (fadeFrame (fun _ => (true, true)) ⟨255, 255, 255⟩ 10000)).handleUsart.map fun m =>
    (m.ws2815.fadeTargetColor, m.ws2815.fadeTime, m.inputQueue)) =
      some (⟨255, 255, 255⟩, 1000, [48]) := by decide
  refine ⟨hcall, fun htaken => ?_⟩
  rw [htaken] at hcall
  exact absurd (congrArg (fun r => r.2.2) (Option.some.inj hcall)) (List.cons_ne_nil _ _).symm

end Mcu
end Stm32Adaptive
