import Stm32Adaptive.Printf

/-!
# Numbers in the formatted output

An integer conversion writes the digits into a buffer of 32 characters, in reverse order,
then zeros for the precision and the width, then the sign, and each of these only as far
as the buffer goes.  So a field of 32 digits or more loses its sign.

`ntoaFormat_eq` is the text of a conversion.  `strtol_evalInteger` reads it back: with any
flags, width and precision the text of a signed conversion is the number again, unless the
number is negative and the zeros leave no room for its sign.
-/

namespace Stm32Adaptive
namespace Printf

open CString

variable {buf : List UInt8} {negative : Bool} {base prec width : ℕ} {flags : Flags}

/-! ## The text of a conversion -/

@[simp] theorem length_fill (c : Char) (n : ℕ) : (fill c n).length = n := List.length_replicate

@[simp] theorem reverse_fill (c : Char) (n : ℕ) : (fill c n).reverse = fill c n :=
  List.reverse_replicate

theorem fill_add (c : Char) (m n : ℕ) : fill c (m + n) = fill c m ++ fill c n :=
  List.replicate_add _ _ _

/-- Blanks before and behind, by the flag. -/
theorem outRev_eq (buf : List UInt8) (width : ℕ) (flags : Flags) :
    ∃ a b, outRev buf width flags = fill ' ' a ++ buf.reverse ++ fill ' ' b := by
  unfold outRev
  cases flags.left with
  | true => exact ⟨0, width - ([] ++ buf.reverse).length, rfl⟩
  | false =>
    cases flags.zeropad with
    | true => exact ⟨0, 0, (List.append_nil _).symm⟩
    | false => exact ⟨width - buf.length, 0, (List.append_nil _).symm⟩

/-- The number of zeros in front of the digits. -/
def zeros (len : ℕ) (negative : Bool) (prec width : ℕ) (flags : Flags) : ℕ :=
  if flags.left then 0
  else
    let width := if negative || flags.plus || flags.space then width - 1 else width
    max (min prec ntoaBufferSize) (if flags.zeropad then min width ntoaBufferSize else 0) - len

theorem padZeros_padZeros (buf : List UInt8) (m n : ℕ) :
    padZeros (padZeros buf m) n =
      buf ++ fill '0' (max (min m ntoaBufferSize) (min n ntoaBufferSize) - buf.length) := by
  unfold padZeros
  rw [List.append_assoc, ← fill_add, List.length_append, length_fill]
  congr 2
  omega

/-- The sign that is put in front, if there is room for it. -/
def sign (negative : Bool) (flags : Flags) : List UInt8 :=
  if negative then ['-'.toUInt8]
  else if flags.plus then ['+'.toUInt8]
  else if flags.space then [' '.toUInt8]
  else []

theorem append_sign (buf : List UInt8) (negative : Bool) (flags : Flags) :
    (if negative then append buf '-'
      else if flags.plus then append buf '+'
      else if flags.space then append buf ' '
      else buf) = buf ++ if buf.length < ntoaBufferSize then sign negative flags else [] := by
  unfold append sign
  by_cases hroom : buf.length < ntoaBufferSize
  · simp only [if_pos hroom]
    cases negative <;> cases flags.plus <;> cases flags.space <;> simp
  · simp only [if_neg hroom, List.append_nil]
    cases negative <;> cases flags.plus <;> cases flags.space <;> rfl

theorem reverse_sign (negative : Bool) (flags : Flags) :
    (sign negative flags).reverse = sign negative flags := by
  unfold sign
  cases negative <;> cases flags.plus <;> cases flags.space <;> rfl

/-- The zeros are put behind the digits, which are in reverse order. -/
theorem padded_eq (buf : List UInt8) (negative : Bool) (prec width : ℕ) (flags : Flags) :
    (if !flags.left then
      if flags.zeropad then
        padZeros (padZeros buf prec)
          (if !flags.left && (width ≠ 0 && flags.zeropad &&
            (negative || flags.plus || flags.space)) then width - 1 else width)
      else padZeros buf prec
    else buf) = buf ++ fill '0' (zeros buf.length negative prec width flags) := by
  have hnone : buf ++ fill '0' 0 = buf := List.append_nil buf
  unfold zeros
  cases flags.left with
  | true => exact hnone.symm
  | false =>
    cases flags.zeropad with
    | false =>
      simp only [Bool.not_false, if_true, Bool.false_eq_true, if_false, Nat.max_zero]
      rfl
    | true =>
      cases hsign : (negative || flags.plus || flags.space) with
      | false =>
        simp only [Bool.and_false, Bool.false_eq_true, if_false, Bool.not_false, if_true]
        exact padZeros_padZeros _ _ _
      | true =>
        have hwidth : (if width ≠ 0 then width - 1 else width) = width - 1 := by
          split <;> omega
        simp only [Bool.not_false, Bool.true_and, Bool.and_true, if_true, decide_eq_true_eq, hwidth]
        exact padZeros_padZeros _ _ _

/-- **The text of a conversion without a prefix**: blanks, the sign if there is room for
it, zeros, the digits, blanks. -/
theorem ntoaFormat_eq (hhash : flags.hash = false) :
    ∃ a b, ntoaFormat buf negative base prec width flags =
      fill ' ' a ++ (if buf.length + zeros buf.length negative prec width flags < ntoaBufferSize
        then sign negative flags else []) ++
        fill '0' (zeros buf.length negative prec width flags) ++ buf.reverse ++ fill ' ' b := by
  unfold ntoaFormat
  simp only [hhash, Bool.false_eq_true, if_false, padded_eq, append_sign]
  obtain ⟨a, b, htext⟩ := outRev_eq
    (buf ++ fill '0' (zeros buf.length negative prec width flags) ++
      if (buf ++ fill '0' (zeros buf.length negative prec width flags)).length < ntoaBufferSize
        then sign negative flags else [])
    (if !flags.left && (width ≠ 0 && flags.zeropad && (negative || flags.plus || flags.space))
      then width - 1 else width) flags
  refine ⟨a, b, htext.trans ?_⟩
  rw [List.length_append, length_fill, List.reverse_append, List.reverse_append, reverse_fill]
  split
  · rw [reverse_sign]
    simp only [List.append_assoc]
  · simp only [List.reverse_nil, List.append_nil, List.nil_append, List.append_assoc]

/-! ## Reading it back -/

/-- The loop puts out the digits of the value, the last one first. -/
theorem digits_reverse_ntoaDigits {base : ℕ} (hbase : 2 ≤ base) (hbase' : base ≤ 16)
    (uppercase : Bool) (rest : List UInt8) {room value : ℕ} (hvalue : value < base ^ room)
    (acc : ℕ) :
    digits base ((ntoaDigits base uppercase room value).reverse ++ rest) acc =
      digits base rest (acc * base ^ (ntoaDigits base uppercase room value).length + value) := by
  induction room generalizing value rest with
  | zero =>
    obtain rfl : value = 0 := by
      rw [Nat.pow_zero] at hvalue
      omega
    rw [ntoaDigits, List.length_nil, Nat.pow_zero, Nat.mul_one]
    rfl
  | succ room ih =>
    have hmod : value % base < base := Nat.mod_lt _ (by omega)
    have hlast := digits_cons (digitValue_digitChar uppercase (hmod.trans_le hbase')) hmod rest
    have hdiv : value / base < base ^ room :=
      Nat.div_lt_of_lt_mul (by rwa [Nat.mul_comm, ← Nat.pow_succ])
    rw [ntoaDigits]
    by_cases hmore : value / base ≠ 0
    · rw [if_pos hmore, List.reverse_cons, List.append_assoc, List.singleton_append,
        ih _ hdiv, hlast, List.length_cons, Nat.pow_succ, Nat.add_mul, Nat.mul_assoc, Nat.add_assoc,
        Nat.div_add_mod']
    · rw [not_not] at hmore
      have hsmall : value % base = value := Nat.mod_eq_of_lt (Nat.div_eq_zero_iff.mp hmore
        |>.resolve_left (by omega))
      rw [if_neg (not_not.mpr hmore), List.reverse_singleton, List.singleton_append, hlast, hsmall,
        List.length_singleton, Nat.pow_one]

/-- Leading zeros do not count. -/
theorem digits_fill_zero {base : ℕ} (hbase : 0 < base) (n : ℕ) (rest : List UInt8) :
    digits base (fill '0' n ++ rest) 0 = digits base rest 0 := by
  induction n with
  | zero => rfl
  | succ n ih =>
    have hzero : digitValue '0'.toUInt8 = some 0 := rfl
    rw [fill, List.replicate_succ, List.cons_append, digits_cons hzero hbase, Nat.zero_mul]
    exact ih

/-- A number ends at a blank. -/
theorem digits_fill_blank (base n value : ℕ) : digits base (fill ' ' n) value = value := by
  cases n with
  | zero => rfl
  | succ n => rfl

theorem strtol_fill_blank (n : ℕ) (s : List UInt8) (base : ℕ) :
    strtol (fill ' ' n ++ s) base = strtol s base := by
  have hdrop : (fill ' ' n ++ s).dropWhile isspace = s.dropWhile isspace := by
    induction n with
    | zero => rfl
    | succ n ih => exact ih
  unfold strtol
  rw [hdrop]

theorem exists_of_mem_ntoaDigits {uppercase : Bool} (hbase : 0 < base) {room value : ℕ}
    {c : UInt8} (h : c ∈ ntoaDigits base uppercase room value) :
    ∃ d < base, c = digitChar uppercase d := by
  induction room generalizing value with
  | zero => exact absurd h List.not_mem_nil
  | succ room ih =>
    rw [ntoaDigits, List.mem_cons] at h
    rcases h with rfl | h
    · exact ⟨_, Nat.mod_lt _ hbase, rfl⟩
    · split at h
      · exact ih h
      · exact absurd h List.not_mem_nil

theorem length_ntoaDigits_le {uppercase : Bool} {room value n : ℕ} (hn : 1 ≤ n)
    (hvalue : value < base ^ n) : (ntoaDigits base uppercase room value).length ≤ n := by
  induction room generalizing value n with
  | zero => exact Nat.zero_le n
  | succ room ih =>
    rw [ntoaDigits, List.length_cons]
    split
    · rename_i hmore
      have hle : 1 ≤ n - 1 := by
        by_contra hone
        obtain rfl : n = 1 := by omega
        rw [Nat.pow_one] at hvalue
        exact hmore (Nat.div_eq_of_lt hvalue)
      have hdiv : value / base < base ^ (n - 1) := by
        refine Nat.div_lt_of_lt_mul ?_
        rwa [Nat.mul_comm, ← Nat.pow_succ, Nat.succ_eq_add_one, Nat.sub_one_add_one (by omega)]
      have htail := ih hle hdiv
      omega
    · exact hn

/-- The number behind a sign. -/
theorem strtol_minus (s : List UInt8) :
    strtol ('-'.toUInt8 :: s) 10 = clampLong (-(digits 10 s 0 : ℕ)) := by
  have hbase := basePrefix_of_ne (show 10 ≠ 0 by decide) (show 10 ≠ 16 by decide) s
  rw [show '-'.toUInt8 = 45 from rfl]
  unfold strtol
  simp only [List.dropWhile_cons, show isspace 45 = false from rfl, Bool.false_eq_true, if_false,
    hbase, if_true]

theorem strtol_plus (s : List UInt8) :
    strtol ('+'.toUInt8 :: s) 10 = clampLong (digits 10 s 0 : ℕ) := by
  have hbase := basePrefix_of_ne (show 10 ≠ 0 by decide) (show 10 ≠ 16 by decide) s
  rw [show '+'.toUInt8 = 43 from rfl]
  unfold strtol
  simp only [List.dropWhile_cons, show isspace 43 = false from rfl, Bool.false_eq_true, if_false,
    hbase]

/-- The number without a sign. -/
theorem strtol_body {buf : List UInt8} (hbuf : ∀ c ∈ buf, ∃ d, digitValue c = some d) (z b : ℕ) :
    strtol (fill '0' z ++ buf.reverse ++ fill ' ' b) 10 =
      clampLong (digits 10 (fill '0' z ++ buf.reverse ++ fill ' ' b) 0 : ℕ) := by
  have hdigit : ∀ {c d s}, digitValue c = some d →
      strtol (c :: s) 10 = clampLong (digits 10 (c :: s) 0 : ℕ) := by
    intro c d s hc
    rw [strtol_cons_of_digit hc, basePrefix_of_ne (by decide) (by decide)]
  cases z with
  | succ z => exact hdigit (d := 0) rfl
  | zero =>
    cases hrev : buf.reverse with
    | nil =>
      have hblank := strtol_fill_blank b [] 10
      rw [List.append_nil] at hblank
      rw [show fill '0' 0 ++ [] ++ fill ' ' b = fill ' ' b from rfl, hblank, digits_fill_blank]
      rfl
    | cons c rest =>
      obtain ⟨d, hd⟩ := hbuf c (List.mem_reverse.mp (hrev ▸ List.mem_cons_self))
      exact hdigit hd

/-- The zeros leave room for a sign. -/
def SignKept (prec width : ℕ) (flags : Flags) : Prop :=
  flags.left = true ∨ (prec < 32 ∧ (flags.zeropad = true → width ≤ 32))

instance (prec width : ℕ) (flags : Flags) : Decidable (SignKept prec width flags) :=
  inferInstanceAs (Decidable (_ ∨ _))

theorem length_add_zeros_lt_iff {len : ℕ} (hlen : len < 32) :
    len + zeros len true prec width flags < ntoaBufferSize ↔ SignKept prec width flags := by
  unfold zeros SignKept ntoaBufferSize
  cases flags.left with
  | true => simpa using hlen
  | false =>
    cases flags.zeropad with
    | true =>
      simp only [Bool.true_or, if_true, Bool.false_eq_true, if_false, false_or, forall_const]
      omega
    | false =>
      simp only [Bool.false_eq_true, if_false, false_or, false_imp_iff, and_true]
      omega

/-- The text of a conversion, read back. -/
theorem strtol_ntoaFormat {buf : List UInt8} {value : ℕ} (hhash : flags.hash = false)
    (hdigits : ∀ c ∈ buf, ∃ d, digitValue c = some d) (hlen : buf.length < 32)
    (hvalue : ∀ rest, digits 10 (buf.reverse ++ rest) 0 = digits 10 rest value) :
    strtol (ntoaFormat buf negative 10 prec width flags) 10 =
      clampLong (if negative = true ∧ SignKept prec width flags then -(value : ℤ) else value) := by
  obtain ⟨a, b, htext⟩ : ∃ a b, ntoaFormat buf negative 10 prec width flags = _ :=
    ntoaFormat_eq hhash
  have hbody : ∀ z, digits 10 (fill '0' z ++ buf.reverse ++ fill ' ' b) 0 = value := by
    intro z
    rw [List.append_assoc, digits_fill_zero (by decide), hvalue, digits_fill_blank]
  have hnone := strtol_body hdigits (zeros buf.length negative prec width flags) b
  rw [hbody] at hnone
  rw [htext]
  simp only [List.append_assoc] at hnone hbody ⊢
  rw [strtol_fill_blank]
  cases negative with
  | true =>
    by_cases hkept : SignKept prec width flags
    · rw [if_pos ((length_add_zeros_lt_iff hlen).mpr hkept), if_pos ⟨rfl, hkept⟩, ← hbody]
      exact strtol_minus _
    · rw [if_neg (mt (length_add_zeros_lt_iff hlen).mp hkept), if_neg (fun h => hkept h.2)]
      exact hnone
  | false =>
    have hread : ∀ s, s = [] ∨ s = ['+'.toUInt8] ∨ s = fill ' ' 1 →
        strtol (s ++ (fill '0' (zeros buf.length false prec width flags) ++
          (buf.reverse ++ fill ' ' b))) 10 = clampLong value := by
      rintro s (rfl | rfl | rfl)
      · exact hnone
      · rw [← hbody]
        exact strtol_plus _
      · rw [strtol_fill_blank]
        exact hnone
    simp only [Bool.false_eq_true, false_and, if_false]
    refine hread _ ?_
    split
    · unfold sign
      cases flags.plus with
      | true => exact Or.inr (Or.inl rfl)
      | false =>
        cases flags.space with
        | true => exact Or.inr (Or.inr rfl)
        | false => exact Or.inl rfl
    · exact Or.inl rfl

/-- **A decimal conversion can be read back**, up to the saturation of `strtol`, with its
sign if the zeros leave room for it. -/
theorem strtol_ntoa {value : ℕ} (hvalue : value < 2 ^ 64) (hhash : flags.hash = false) :
    strtol (ntoa value negative 10 prec width flags) 10 =
      clampLong (if negative = true ∧ SignKept prec width flags then -(value : ℤ) else value) := by
  have hflags : (if value = 0 then { flags with hash := false } else flags) = flags := by
    split
    · rw [← hhash]
    · rfl
  have hpow : value < 10 ^ 20 := by omega
  rw [ntoa, hflags]
  by_cases hprint : (!flags.precision || value ≠ 0) = true
  · rw [if_pos hprint]
    have hlen : (ntoaDigits 10 flags.uppercase 32 value).length ≤ 20 :=
      length_ntoaDigits_le (by decide) hpow
    refine strtol_ntoaFormat hhash (fun c hc => ?_) (lt_of_le_of_lt hlen (by decide)) fun rest => ?_
    · obtain ⟨d, hd, rfl⟩ := exists_of_mem_ntoaDigits (by decide) hc
      exact ⟨d, digitValue_digitChar _ (hd.trans (by decide))⟩
    · have hroom : value < 10 ^ ntoaBufferSize := by
        rw [ntoaBufferSize]
        omega
      rw [digits_reverse_ntoaDigits (by decide) (by decide) _ _ hroom, Nat.zero_mul, Nat.zero_add]
  · rw [if_neg hprint]
    obtain rfl : value = 0 := by
      rw [Bool.or_eq_true, decide_eq_true_eq, not_or, not_not] at hprint
      exact hprint.2
    exact strtol_ntoaFormat hhash (fun c hc => absurd hc List.not_mem_nil) (by decide)
      fun rest => rfl

/-! ## Signed conversions -/

/-- The fields of a directive leave room for a sign: a precision switches the zeros for
the width off. -/
def KeepsSign (d : Fields) : Prop :=
  d.flags.left = true ∨ (d.precision < 32 ∧
    (d.flags.zeropad = true ∧ d.flags.precision = false → d.width ≤ 32))

/-- The flags that `%d` and `%i` convert with. -/
def signedFlags (flags : Flags) : Flags :=
  let flags := { flags with hash := false }
  if flags.precision then { flags with zeropad := false } else flags

theorem signKept_iff (d : Fields) :
    SignKept d.precision d.width (signedFlags d.flags) ↔ KeepsSign d := by
  unfold SignKept KeepsSign signedFlags
  cases d.flags.precision <;> simp

theorem hash_signedFlags (flags : Flags) : (signedFlags flags).hash = false := by
  unfold signedFlags
  cases flags.precision <;> rfl

/-- An argument fits its type. -/
theorem signedArg_bounds {va rest : List Arg} {value : ℤ}
    (h : signedArg flags va = some (value, rest)) :
    leastValue flags ≤ value ∧ value < -leastValue flags := by
  unfold signedArg at h
  unfold leastValue
  split at h
  · rename_i v va
    split at h
    · rename_i hlong
      obtain ⟨rfl, -⟩ := Prod.mk.inj (Option.some.inj h)
      rw [if_pos hlong]
      exact ⟨v.toInt64.le_toInt, v.toInt64.toInt_lt⟩
    · exact absurd h (Option.some_ne_none _).symm
  · rename_i v va
    have hint := v.toInt32.le_toInt
    have hint' := v.toInt32.toInt_lt
    have hshort := v.toUInt16.toInt16.le_toInt
    have hshort' := v.toUInt16.toInt16.toInt_lt
    have hchar := v.toUInt8.toNat_lt
    split at h
    · exact absurd h (Option.some_ne_none _).symm
    · rename_i hlong
      rw [if_neg hlong]
      split at h
      · obtain ⟨rfl, -⟩ := Prod.mk.inj (Option.some.inj h)
        exact ⟨hint, hint'⟩
      · split at h
        · obtain ⟨rfl, -⟩ := Prod.mk.inj (Option.some.inj h)
          omega
        · split at h
          · obtain ⟨rfl, -⟩ := Prod.mk.inj (Option.some.inj h)
            omega
          · obtain ⟨rfl, -⟩ := Prod.mk.inj (Option.some.inj h)
            exact ⟨hint, hint'⟩
  · exact absurd h (Option.some_ne_none _).symm

/-- Both sizes convert a magnitude that fits. -/
theorem ntoaSized_natAbs {value : ℤ} (hlow : leastValue flags ≤ value)
    (hhigh : value < -leastValue flags) (negative : Bool) (base prec width : ℕ) :
    ntoaSized flags value.natAbs negative base prec width =
      ntoa value.natAbs negative base prec width flags := by
  unfold leastValue at hlow hhigh
  unfold ntoaSized ntoaLong ntoaLongLong
  cases hlong : flags.longLong with
  | true =>
    rw [hlong, if_pos rfl] at hlow hhigh
    rw [if_pos rfl, UInt64.toNat_ofNat_of_lt' (by rw [UInt64.size]; omega)]
  | false =>
    rw [hlong, if_neg Bool.false_ne_true] at hlow hhigh
    rw [if_neg Bool.false_ne_true, UInt32.toNat_ofNat_of_lt' (by rw [UInt32.size]; omega)]

theorem evalInteger_of_signed {c : UInt8} (hc : c = 'd'.toUInt8 ∨ c = 'i'.toUInt8) {d : Fields}
    {value : ℤ} {va : List Arg} (harg : signedArg d.flags d.va = some (value, va))
    (hleast : value ≠ leastValue d.flags) :
    evalInteger c d = some (ntoa value.natAbs (value < 0) 10 d.precision d.width
      (signedFlags d.flags), va) := by
  have hconvert : evalInteger c d = (signedArg (signedFlags d.flags) d.va).bind fun r =>
      if r.1 = leastValue (signedFlags d.flags) then none
      else some (ntoaSized (signedFlags d.flags) r.1.natAbs (r.1 < 0) 10 d.precision d.width,
        r.2) := by
    rcases hc with rfl | rfl <;> rfl
  have hsame : signedArg (signedFlags d.flags) d.va = signedArg d.flags d.va ∧
      leastValue (signedFlags d.flags) = leastValue d.flags := by
    unfold signedFlags
    cases d.flags.precision <;> exact ⟨rfl, rfl⟩
  rw [← hsame.1] at harg
  obtain ⟨hlow, hhigh⟩ := signedArg_bounds harg
  rw [hconvert, harg, Option.bind_some, hsame.2, if_neg hleast, ntoaSized_natAbs hlow hhigh]

theorem clampLong_of_bounds {value : ℤ} (hlow : -2 ^ 31 ≤ value) (hhigh : value < 2 ^ 31) :
    clampLong value = value := by
  unfold clampLong
  omega

/-- **What `%d` and `%i` print is the number again.**  With any flags, width and precision,
`strtol` reads the value off the text of a conversion if and only if the value is not
negative or the zeros leave room for its sign. -/
theorem strtol_evalInteger {c : UInt8} (hc : c = 'd'.toUInt8 ∨ c = 'i'.toUInt8) {d : Fields}
    (hlong : d.flags.longLong = false) {value : ℤ} {va : List Arg}
    (harg : signedArg d.flags d.va = some (value, va)) (hleast : value ≠ -2 ^ 31) :
    ∃ text, evalInteger c d = some (text, va) ∧
      (strtol text 10 = value ↔ 0 ≤ value ∨ KeepsSign d) := by
  have hleast' : value ≠ leastValue d.flags := by
    rw [leastValue, hlong]
    exact hleast
  obtain ⟨hlow, hhigh⟩ := signedArg_bounds harg
  rw [leastValue, hlong, if_neg Bool.false_ne_true] at hlow hhigh
  refine ⟨_, evalInteger_of_signed hc harg hleast', ?_⟩
  have hsign : (decide (value < 0) = true ∧
      SignKept d.precision d.width (signedFlags d.flags)) ↔ value < 0 ∧ KeepsSign d := by
    rw [signKept_iff, decide_eq_true_eq]
  rw [strtol_ntoa (show value.natAbs < 2 ^ 64 by omega) (hash_signedFlags _)]
  by_cases hkept : value < 0 ∧ KeepsSign d
  · have hvalue : -(value.natAbs : ℤ) = value := by omega
    rw [if_pos (hsign.mpr hkept), hvalue, clampLong_of_bounds hlow hhigh]
    exact iff_of_true rfl (Or.inr hkept.2)
  · rw [if_neg (mt hsign.mp hkept), clampLong_of_bounds (by omega) (by omega)]
    constructor
    · intro heq
      exact Or.inl (by omega)
    · rintro (hpos | hkeeps)
      · omega
      · have hpos : ¬ value < 0 := fun hneg => hkept ⟨hneg, hkeeps⟩
        omega

/-- `%-08ld` and `%033ld` of minus one: the second one has lost the sign. -/
theorem strtol_evalInteger_minusOne :
    (∃ text, evalInteger 'd'.toUInt8
        ⟨{ Flags.zero with left := true, zeropad := true, long := true }, 8, 0, [],
          [.word 4294967295]⟩ = some (text, []) ∧ strtol text 10 = -1) ∧
      ∃ text, evalInteger 'd'.toUInt8
        ⟨{ Flags.zero with zeropad := true, long := true }, 33, 0, [], [.word 4294967295]⟩ =
          some (text, []) ∧ strtol text 10 ≠ -1 := by
  constructor
  · have harg : signedArg { Flags.zero with left := true, zeropad := true, long := true }
        [.word 4294967295] = some (-1, []) := rfl
    obtain ⟨text, htext, hread⟩ := strtol_evalInteger (c := 'd'.toUInt8) (Or.inl rfl)
      (d := ⟨{ Flags.zero with left := true, zeropad := true, long := true }, 8, 0, [],
        [.word 4294967295]⟩) rfl harg (by decide)
    exact ⟨text, htext, hread.mpr (Or.inr (Or.inl rfl))⟩
  · have harg : signedArg { Flags.zero with zeropad := true, long := true }
        [.word 4294967295] = some (-1, []) := rfl
    obtain ⟨text, htext, hread⟩ := strtol_evalInteger (c := 'd'.toUInt8) (Or.inl rfl)
      (d := ⟨{ Flags.zero with zeropad := true, long := true }, 33, 0, [],
        [.word 4294967295]⟩) rfl harg (by decide)
    refine ⟨text, htext, fun heq => ?_⟩
    rcases hread.mp heq with hpos | hleft | ⟨-, hwidth⟩
    · exact absurd hpos (by decide)
    · exact Bool.false_ne_true hleft
    · exact absurd (hwidth ⟨rfl, rfl⟩) (by decide)

end Printf
end Stm32Adaptive
