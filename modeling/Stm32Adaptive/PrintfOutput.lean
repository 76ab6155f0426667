import Mathlib.Data.List.TakeDrop
import Stm32Adaptive.PrintfFormats

/-!
# Where the formatted output goes

`_vsnprintf` hands every character to an output function, with its position and with the
number of positions that there are; behind the last one it hands out a zero, at the last
position if there is none left.  `snprintf_` and `sprintf_` store the characters in the
caller's buffer, and `printf_` sends them on the serial line.

`snprintf_spec` is the contract in the header: the buffer holds the text with a zero behind
it, cut off where it is full, and the returned value says whether it is the whole one.
`sprintf_` has no bound; `sprintf_eq` says when it does the same.
-/

namespace Stm32Adaptive
namespace Printf

open CString

/-! ## The output functions -/

/-- `out_fct_type`: what becomes of a buffer, if that is defined. -/
abbrev OutFct (β : Type) := UInt8 → β → UInt32 → UInt32 → Option β

/-- `_out_buffer`; a store behind the end of the memory is undefined. -/
def outBuffer : OutFct (List UInt8) := fun character buffer idx maxlen =>
  if idx < maxlen then
    if idx.toNat < buffer.length then some (buffer.set idx.toNat character) else none
  else some buffer

/-- `_out_char`, with the characters that `_putchar` has sent. -/
def outChar : OutFct (List UInt8) := fun character line _ _ =>
  some (if character ≠ 0 then line ++ [character] else line)

/-- A text goes out, each character at the position after the last. -/
def outText {β : Type} (out : OutFct β) (maxlen : UInt32) :
    List UInt8 → β → UInt32 → Option (β × UInt32)
  | [], buffer, idx => some (buffer, idx)
  | c :: text, buffer, idx =>
    (out c buffer idx maxlen).bind fun buffer => outText out maxlen text buffer (idx + 1)

/-- `_vsnprintf` with an output function: the returned value, and the buffer. -/
def vsnprintfTo {β : Type} (out : OutFct β) (buffer : β) (maxlen : UInt32) (format : List UInt8)
    (va : List Arg) : Option (Int32 × β) :=
  (vsnprintf format va).bind fun text =>
    (outText out maxlen text buffer 0).bind fun (buffer, idx) =>
      (out 0 buffer (if idx < maxlen then idx else maxlen - 1) maxlen).map fun buffer =>
        (idx.toInt32, buffer)

/-- `snprintf_`. -/
def snprintf (buffer : List UInt8) (count : UInt32) (format : List UInt8) (va : List Arg) :
    Option (Int32 × List UInt8) :=
  vsnprintfTo outBuffer buffer count format va

/-- `sprintf_`. -/
def sprintf (buffer : List UInt8) (format : List UInt8) (va : List Arg) :
    Option (Int32 × List UInt8) :=
  vsnprintfTo outBuffer buffer 0xFFFFFFFF format va

/-- `printf_`, on a line that has carried some characters before. -/
def printf (line : List UInt8) (format : List UInt8) (va : List Arg) :
    Option (Int32 × List UInt8) :=
  vsnprintfTo outChar line 0xFFFFFFFF format va

/-- The characters of a literal. -/
def text (s : String) : List UInt8 := s.toUTF8.toList

/-! ## Storing a text -/

/-- A text that is stored from a position on. -/
def overwrite (buffer : List UInt8) (k : ℕ) (s : List UInt8) : List UInt8 :=
  buffer.take k ++ s ++ buffer.drop (k + s.length)

theorem overwrite_set {buffer : List UInt8} {k : ℕ} (hk : k < buffer.length) (c : UInt8)
    (s : List UInt8) : overwrite (buffer.set k c) (k + 1) s = overwrite buffer k (c :: s) := by
  have hset : buffer.set k c = buffer.take k ++ c :: buffer.drop (k + 1) := by
    rw [List.set_eq_take_append_cons_drop, if_pos hk]
  have htake : (buffer.set k c).take (k + 1) = buffer.take k ++ [c] := by
    rw [hset, List.take_append, List.length_take, min_eq_left hk.le, Nat.add_sub_cancel_left,
      List.take_take, Nat.min_eq_right (Nat.le_succ k)]
    rfl
  have hdrop : (buffer.set k c).drop (k + 1 + s.length) = buffer.drop (k + 1 + s.length) :=
    List.drop_set_of_lt (by omega)
  rw [overwrite, overwrite, htake, hdrop, List.length_cons, List.append_assoc, List.append_assoc,
    List.append_assoc, List.singleton_append, List.cons_append, Nat.add_assoc, Nat.add_comm 1]

theorem length_overwrite {buffer : List UInt8} {k : ℕ} {s : List UInt8}
    (h : k + s.length ≤ buffer.length) : (overwrite buffer k s).length = buffer.length := by
  rw [overwrite, List.length_append, List.length_append, List.length_take, List.length_drop]
  omega

/-- Where the text fits, or is cut off in time, it is stored up to the bound. -/
theorem outText_outBuffer {maxlen : UInt32} (text : List UInt8) {buffer : List UInt8} {k : ℕ}
    (hwrap : k + text.length < 2 ^ 32)
    (hroom : min (k + text.length) maxlen.toNat ≤ buffer.length) :
    outText outBuffer maxlen text buffer (UInt32.ofNat k) =
      some (overwrite buffer k (text.take (maxlen.toNat - k)),
        UInt32.ofNat (k + text.length)) := by
  induction text generalizing buffer k with
  | nil =>
    rw [outText, List.take_nil, overwrite, List.append_nil, List.length_nil, Nat.add_zero,
      List.take_append_drop]
  | cons c text ih =>
    rw [List.length_cons] at hwrap hroom
    have hidx : (UInt32.ofNat k).toNat = k := UInt32.toNat_ofNat_of_lt' (show k < 2 ^ 32 by omega)
    have hnext : UInt32.ofNat k + 1 = UInt32.ofNat (k + 1) := (UInt32.ofNat_add k 1).symm
    have hlen : k + 1 + text.length = k + (text.length + 1) := by omega
    by_cases hmore : k < maxlen.toNat
    · have hk : k < buffer.length := by omega
      have hstore : outBuffer c buffer (UInt32.ofNat k) maxlen = some (buffer.set k c) := by
        rw [outBuffer, if_pos (UInt32.lt_iff_toNat_lt.mpr (by rwa [hidx])), hidx, if_pos hk]
      have htake : maxlen.toNat - k = maxlen.toNat - (k + 1) + 1 := by omega
      rw [outText, hstore, Option.bind_some, hnext,
        ih (by omega) (by rw [List.length_set]; omega), overwrite_set hk, List.length_cons, hlen,
        htake, List.take_succ_cons]
    · have hstore : outBuffer c buffer (UInt32.ofNat k) maxlen = some buffer := by
        rw [outBuffer, if_neg (by rw [UInt32.lt_iff_toNat_lt, hidx]; exact hmore)]
      have htake : maxlen.toNat - k = 0 := by omega
      have htake' : maxlen.toNat - (k + 1) = 0 := by omega
      rw [outText, hstore, Option.bind_some, hnext, ih (by omega) (by omega), List.length_cons,
        hlen, htake, htake', List.take_zero, List.take_zero]
      simp only [overwrite, List.append_nil, List.length_nil, Nat.add_zero, List.take_append_drop]

/-- A text from the start of the buffer. -/
theorem outText_outBuffer_zero {maxlen : UInt32} {text buffer : List UInt8}
    (hlen : text.length < 2 ^ 32) (hroom : min text.length maxlen.toNat ≤ buffer.length) :
    outText outBuffer maxlen text buffer 0 =
      some (overwrite buffer 0 (text.take maxlen.toNat), UInt32.ofNat text.length) := by
  have hout := outText_outBuffer text (k := 0) (by rwa [Nat.zero_add]) (by rwa [Nat.zero_add])
  rwa [Nat.sub_zero, Nat.zero_add] at hout

/-- Where the memory ends before the text and the bound, a store goes wrong. -/
theorem outText_outBuffer_eq_none {maxlen : UInt32} (text : List UInt8) {buffer : List UInt8}
    {k : ℕ} (hk : k ≤ buffer.length) (hwrap : k + text.length < 2 ^ 32)
    (hroom : buffer.length < min (k + text.length) maxlen.toNat) :
    outText outBuffer maxlen text buffer (UInt32.ofNat k) = none := by
  induction text generalizing buffer k with
  | nil =>
    rw [List.length_nil] at hroom
    omega
  | cons c text ih =>
    rw [List.length_cons] at hwrap hroom
    have hidx : (UInt32.ofNat k).toNat = k := UInt32.toNat_ofNat_of_lt' (show k < 2 ^ 32 by omega)
    have hmore : UInt32.ofNat k < maxlen := by
      rw [UInt32.lt_iff_toNat_lt, hidx]
      omega
    by_cases hin : k < buffer.length
    · have hset : (buffer.set k c).length = buffer.length := List.length_set
      rw [outText, outBuffer, if_pos hmore, hidx, if_pos hin, Option.bind_some,
        show UInt32.ofNat k + 1 = UInt32.ofNat (k + 1) from (UInt32.ofNat_add k 1).symm]
      exact ih (by omega) (by omega) (by omega)
    · rw [outText, outBuffer, if_pos hmore, hidx, if_neg hin, Option.bind_none]

/-- The zero that ends a text, in the place of what stood there or behind it. -/
theorem set_overwrite_zero {buffer s : List UInt8} {n : ℕ} (hn : n ≤ s.length)
    (hs : s.length ≤ n + 1) (hroom : n < buffer.length) (c : UInt8) :
    (overwrite buffer 0 s).set n c = overwrite buffer 0 (s.take n ++ [c]) := by
  have hlen : (s.take n).length = n := by rw [List.length_take, Nat.min_eq_left hn]
  have hin : n < (s ++ buffer.drop s.length).length := by
    rw [List.length_append, List.length_drop]
    omega
  simp only [overwrite, List.take_zero, List.nil_append, Nat.zero_add]
  rw [List.set_eq_take_append_cons_drop, if_pos hin, List.take_append_of_le_length hn,
    List.drop_append, List.drop_eq_nil_of_le hs, List.nil_append, List.drop_drop,
    List.length_append, hlen, List.length_singleton, List.append_assoc, List.singleton_append,
    show s.length + (n + 1 - s.length) = n + 1 by omega]

/-! ## Into a buffer -/

variable {format text : List UInt8} {va : List Arg}

/-- What is stored is the text as far as it fits, and a zero. -/
theorem snprintf_eq (htext : vsnprintf format va = some text) (hlen : text.length < 2 ^ 32)
    {buffer : List UInt8} {count : UInt32} (hpos : 0 < count.toNat)
    (hroom : count.toNat ≤ buffer.length) :
    snprintf buffer count format va =
      some ((UInt32.ofNat text.length).toInt32,
        overwrite buffer 0 (text.take (count.toNat - 1) ++ [0])) := by
  have hout := outText_outBuffer_zero hlen ((Nat.min_le_right text.length _).trans hroom)
  have hidx : (UInt32.ofNat text.length).toNat = text.length := UInt32.toNat_ofNat_of_lt' hlen
  -- the position of the zero
  obtain ⟨n, hn, hpos'⟩ : ∃ n, n = min text.length (count.toNat - 1) ∧
      (if UInt32.ofNat text.length < count then UInt32.ofNat text.length else count - 1) =
        UInt32.ofNat n := by
    refine ⟨_, rfl, ?_⟩
    by_cases hfit : text.length < count.toNat
    · rw [if_pos (UInt32.lt_iff_toNat_lt.mpr (by rwa [hidx])), min_eq_left (by omega)]
    · rw [if_neg (by rw [UInt32.lt_iff_toNat_lt, hidx]; exact hfit), min_eq_right (by omega)]
      apply UInt32.toNat_inj.mp
      rw [UInt32.toNat_sub_of_le _ _ (UInt32.le_iff_toNat_le.mpr hpos : 1 ≤ count),
        UInt32.toNat_ofNat_of_lt' (show count.toNat - 1 < 2 ^ 32 by omega)]
      rfl
  have hn' : (UInt32.ofNat n).toNat = n := UInt32.toNat_ofNat_of_lt' (show n < 2 ^ 32 by omega)
  have hstored : (overwrite buffer 0 (text.take count.toNat)).length = buffer.length :=
    length_overwrite (by rw [List.length_take]; omega)
  have htake : (text.take count.toNat).take n = text.take (count.toNat - 1) := by
    rw [List.take_take, hn]
    by_cases hfit : text.length < count.toNat
    · rw [List.take_of_length_le (by omega), List.take_of_length_le (by omega)]
    · congr 1
      omega
  rw [snprintf, vsnprintfTo, htext, Option.bind_some, hout, Option.bind_some]
  simp only [hpos']
  rw [outBuffer, if_pos (UInt32.lt_iff_toNat_lt.mpr (by rw [hn']; omega)), hn', hstored,
    if_pos (by omega), set_overwrite_zero (by rw [List.length_take]; omega)
      (by rw [List.length_take]; omega) (by omega), htake]
  rfl

/-- **The contract of `snprintf`**: the buffer holds as much of the text as fits with its
zero and is not touched behind it; if there is no zero in the text, the buffer read as a
string is the text up to the bound; and the returned value is not negative and below the
bound just when the text is complete, and shorter than an `int` can count. -/
theorem snprintf_spec (htext : vsnprintf format va = some text) (hlen : text.length < 2 ^ 32)
    {buffer : List UInt8} {count : UInt32} (hpos : 0 < count.toNat)
    (hroom : count.toNat ≤ buffer.length) :
    ∃ ret buffer', snprintf buffer count format va = some (ret, buffer') ∧
      buffer' = text.take (count.toNat - 1) ++
        0 :: buffer.drop (min text.length (count.toNat - 1) + 1) ∧
      (0 ∉ text → contents buffer' = text.take (count.toNat - 1)) ∧
      (0 ≤ ret.toInt ∧ ret.toInt < count.toNat ↔
        text.take (count.toNat - 1) = text ∧ text.length < 2 ^ 31) := by
  have hbuffer : overwrite buffer 0 (text.take (count.toNat - 1) ++ [0]) =
      text.take (count.toNat - 1) ++
        0 :: buffer.drop (min text.length (count.toNat - 1) + 1) := by
    rw [overwrite, List.take_zero, List.nil_append, List.append_assoc, List.singleton_append,
      List.length_append, List.length_take, List.length_singleton, Nat.zero_add,
      Nat.min_comm (count.toNat - 1)]
  refine ⟨_, _, snprintf_eq htext hlen hpos hroom, hbuffer, fun hzero => ?_, ?_⟩
  · rw [hbuffer]
    exact contents_append_zero (fun h => hzero (List.mem_of_mem_take h)) _
  · have hcount := count.toNat_lt
    have hint := toInt_toInt32 (UInt32.ofNat text.length)
    rw [UInt32.toNat_ofNat_of_lt' hlen] at hint
    rw [hint, List.take_eq_self_iff]
    split <;> omega

/-- The text of `%d` for 12345. -/
theorem vsnprintf_fiveDigits :
    vsnprintf ['%'.toUInt8, 'd'.toUInt8] [.word 12345] = some [49, 50, 51, 52, 53] := by
  decide +kernel

/-- Five digits and a bound of four. -/
theorem snprintf_spec_fiveDigits :
    ∃ ret buffer', snprintf (List.replicate 6 255) 4 ['%'.toUInt8, 'd'.toUInt8] [.word 12345] =
      some (ret, buffer') ∧ buffer' = [49, 50, 51, 0, 255, 255] ∧
      contents buffer' = [49, 50, 51] ∧ ¬ (0 ≤ ret.toInt ∧ ret.toInt < 4) := by
  obtain ⟨ret, buffer', hrun, hbuffer, hcontents, hret⟩ :=
    snprintf_spec vsnprintf_fiveDigits (by decide)
      (show 0 < (4 : UInt32).toNat by decide)
      (show (4 : UInt32).toNat ≤ (List.replicate 6 255 : List UInt8).length by decide)
  exact ⟨ret, buffer', hrun, hbuffer, hcontents (by decide),
    fun h => absurd (hret.mp h).1 (by decide)⟩

/-- **`sprintf` has no bound**: where the text and its zero fit in the memory it does what
`snprintf` does with the size of the memory, and where they do not it stores behind it.
The text is shorter than the greatest `size_t`, which `sprintf` passes for a bound, and the
size of the memory is a `size_t`. -/
theorem sprintf_eq (htext : vsnprintf format va = some text) (hlen : text.length < 2 ^ 32 - 1)
    {buffer : List UInt8} (hbuffer : buffer.length < 2 ^ 32) :
    sprintf buffer format va =
      if text.length < buffer.length then
        snprintf buffer (UInt32.ofNat buffer.length) format va
      else none := by
  have hmax : (0xFFFFFFFF : UInt32).toNat = 2 ^ 32 - 1 := rfl
  have hidx : (UInt32.ofNat text.length).toNat = text.length :=
    UInt32.toNat_ofNat_of_lt' (show text.length < 2 ^ 32 by omega)
  have hmore : UInt32.ofNat text.length < 0xFFFFFFFF := by
    rw [UInt32.lt_iff_toNat_lt, hidx, hmax]
    exact hlen
  rw [sprintf, vsnprintfTo, htext, Option.bind_some]
  by_cases hover : buffer.length < text.length
  · have hout : outText outBuffer 0xFFFFFFFF text buffer 0 = none :=
      outText_outBuffer_eq_none text (k := 0) (Nat.zero_le _) (by omega) (by rw [hmax]; omega)
    rw [if_neg hover.not_gt, hout, Option.bind_none]
  · have hout : outText outBuffer 0xFFFFFFFF text buffer 0 = _ :=
      outText_outBuffer_zero (by omega) (by rw [hmax]; omega)
    have hstored : (overwrite buffer 0 text).length = buffer.length :=
      length_overwrite (by omega)
    rw [List.take_of_length_le (by rw [hmax]; omega)] at hout
    rw [hout, Option.bind_some]
    simp only [if_pos hmore]
    rw [outBuffer, if_pos hmore, hidx, hstored]
    by_cases hfit : text.length < buffer.length
    · have hcount : (UInt32.ofNat buffer.length).toNat = buffer.length :=
        UInt32.toNat_ofNat_of_lt' hbuffer
      rw [if_pos hfit, if_pos hfit, snprintf_eq htext (by omega) (by omega) hcount.le, hcount,
        List.take_of_length_le (by omega), set_overwrite_zero le_rfl (Nat.le_succ _) hfit,
        List.take_length]
      rfl
    · rw [if_neg hfit, if_neg hfit]
      rfl

/-- Five digits and a zero do not fit in five bytes. -/
theorem sprintf_eq_fiveDigits :
    sprintf (List.replicate 5 255) ['%'.toUInt8, 'd'.toUInt8] [.word 12345] = none :=
  (sprintf_eq vsnprintf_fiveDigits (by decide) (by decide)).trans (if_neg (by decide))

/-! ## On the serial line -/

theorem outText_outChar (maxlen : UInt32) (text line : List UInt8) (k : ℕ) :
    outText outChar maxlen text line (UInt32.ofNat k) =
      some (line ++ text.filter (· ≠ 0), UInt32.ofNat (k + text.length)) := by
  induction text generalizing line k with
  | nil => rw [outText, List.filter_nil, List.append_nil, List.length_nil, Nat.add_zero]
  | cons c text ih =>
    have hnext : UInt32.ofNat k + 1 = UInt32.ofNat (k + 1) := (UInt32.ofNat_add k 1).symm
    rw [outText, outChar, Option.bind_some, hnext, ih, List.length_cons,
      show k + 1 + text.length = k + (text.length + 1) by omega]
    by_cases hc : c ≠ 0
    · rw [if_pos hc, List.filter_cons_of_pos (by simpa using hc), List.append_assoc]
      rfl
    · rw [if_neg hc, List.filter_cons_of_neg (by simpa using hc)]

/-- The line carries the text without its zeros, and no zero at its end. -/
theorem printf_eq (htext : vsnprintf format va = some text) (line : List UInt8) :
    printf line format va =
      some ((UInt32.ofNat text.length).toInt32, line ++ text.filter (· ≠ 0)) := by
  have hout := outText_outChar 0xFFFFFFFF text line 0
  rw [Nat.zero_add, show UInt32.ofNat 0 = 0 from rfl] at hout
  rw [printf, vsnprintfTo, htext, Option.bind_some, hout, Option.bind_some]
  rfl

end Printf
end Stm32Adaptive
