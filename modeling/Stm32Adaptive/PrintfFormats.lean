import Stm32Adaptive.PrintfNumbers

/-!
# The language of formats

A directive is a row of optional fields that are told apart by their first characters: a
leading zero is a flag and not part of a width, `hh` is one length and not two.  Here the
directives are data, with a meaning of their own (`Directive.eval`) and a spelling
(`Directive.render`), and `vsnprintf_render` says that the interpreter gives every format
that is spelled from them its meaning.
-/

namespace Stm32Adaptive
namespace Printf

open CString

/-! ## Directives as data -/

/-- A flag character. -/
inductive Flag where
  | zero
  | minus
  | plus
  | space
  | hash
  deriving DecidableEq

def Flag.char : Flag → UInt8
  | zero => '0'.toUInt8
  | minus => '-'.toUInt8
  | plus => '+'.toUInt8
  | space => ' '.toUInt8
  | hash => '#'.toUInt8

def Flag.set (flags : Flags) : Flag → Flags
  | zero => { flags with zeropad := true }
  | minus => { flags with left := true }
  | plus => { flags with plus := true }
  | space => { flags with space := true }
  | hash => { flags with hash := true }

/-- A width: none, a number without leading zeros, or an argument. -/
inductive Width where
  | none
  | number (n : UInt32) (h : n ≠ 0)
  | star

/-- A precision: none, a number, which may be left out, or an argument. -/
inductive Precision where
  | none
  | dot
  | number (n : UInt32)
  | star

inductive Length where
  | none
  | hh
  | h
  | l
  | ll
  | t
  | j
  | z

inductive Specifier where
  | d
  | i
  | u
  | x
  | X
  | o
  | b
  | c
  | s
  | p
  | percent

structure Directive where
  flags : List Flag
  width : Width
  precision : Precision
  length : Length
  specifier : Specifier

/-! ### Spelling -/

/-- A number in decimal digits. -/
def decimal (n : ℕ) : List UInt8 := (ntoaDigits 10 false ntoaBufferSize n).reverse

def Width.render : Width → List UInt8
  | none => []
  | number n _ => decimal n.toNat
  | star => ['*'.toUInt8]

def Precision.render : Precision → List UInt8
  | none => []
  | dot => ['.'.toUInt8]
  | number n => '.'.toUInt8 :: decimal n.toNat
  | star => ['.'.toUInt8, '*'.toUInt8]

def Length.render : Length → List UInt8
  | none => []
  | hh => ['h'.toUInt8, 'h'.toUInt8]
  | h => ['h'.toUInt8]
  | l => ['l'.toUInt8]
  | ll => ['l'.toUInt8, 'l'.toUInt8]
  | t => ['t'.toUInt8]
  | j => ['j'.toUInt8]
  | z => ['z'.toUInt8]

def Specifier.char : Specifier → UInt8
  | d => 'd'.toUInt8
  | i => 'i'.toUInt8
  | u => 'u'.toUInt8
  | x => 'x'.toUInt8
  | X => 'X'.toUInt8
  | o => 'o'.toUInt8
  | b => 'b'.toUInt8
  | c => 'c'.toUInt8
  | s => 's'.toUInt8
  | p => 'p'.toUInt8
  | percent => '%'.toUInt8

/-- A directive, behind its `%`. -/
def Directive.render (d : Directive) : List UInt8 :=
  d.flags.map Flag.char ++ d.width.render ++ d.precision.render ++ d.length.render ++
    [d.specifier.char]

/-! ### Meaning -/

/-- A width that comes as an argument and is negative sets the flag for the left. -/
def Width.eval (flags : Flags) (va : List Arg) : Width → Option (Flags × ℕ × List Arg)
  | none => some (flags, 0, va)
  | number n _ => some (flags, n.toNat, va)
  | star =>
    match va with
    | .word w :: va =>
      if 0 ≤ w.toInt32.toInt then some (flags, w.toInt32.toInt.natAbs, va)
      else if w.toInt32.toInt = -2 ^ 31 then Option.none
      else some ({ flags with left := true }, w.toInt32.toInt.natAbs, va)
    | _ => Option.none

/-- A precision that comes as an argument and is negative is zero. -/
def Precision.eval (flags : Flags) (va : List Arg) : Precision → Option (Flags × ℕ × List Arg)
  | none => some (flags, 0, va)
  | dot => some ({ flags with precision := true }, 0, va)
  | number n => some ({ flags with precision := true }, n.toNat, va)
  | star =>
    match va with
    | .word w :: va => some ({ flags with precision := true }, w.toInt32.toInt.toNat, va)
    | _ => Option.none

def Length.set (flags : Flags) : Length → Flags
  | none => flags
  | hh => { flags with short := true, char := true }
  | h => { flags with short := true }
  | l => { flags with long := true }
  | ll => { flags with long := true, longLong := true }
  | t => { flags with long := true }
  | j => { flags with longLong := true }
  | z => { flags with long := true }

def Specifier.eval (fields : Fields) : Specifier → Option (List UInt8 × List Arg)
  | c => evalChar fields
  | s => evalString fields
  | p => evalPointer fields
  | percent => some (['%'.toUInt8], fields.va)
  | specifier => evalInteger specifier.char fields

/-- The output of a directive and the rest of the arguments. -/
def Directive.eval (d : Directive) (va : List Arg) : Option (List UInt8 × List Arg) :=
  (d.width.eval (d.flags.foldl Flag.set Flags.zero) va).bind fun (flags, width, va) =>
    (d.precision.eval flags va).bind fun (flags, precision, va) =>
      d.specifier.eval ⟨d.length.set flags, width, precision, [], va⟩

/-! ## Numbers in a format -/

/-- A decimal digit, and its value for `_atoi`. -/
theorem isDigit_digitChar {d : ℕ} (hd : d < 10) :
    isDigit (digitChar false d) = true ∧
      (digitChar false d).toUInt32 - '0'.toUInt8.toUInt32 = UInt32.ofNat d := by
  revert d
  decide

theorem atoiLoop_append {s rest : List UInt8} (hs : ∀ c ∈ s, ∃ d < 10, c = digitChar false d)
    (acc : ℕ) :
    atoiLoop (s ++ rest) (UInt32.ofNat acc) =
      atoiLoop rest (UInt32.ofNat (digits 10 s acc)) := by
  induction s generalizing acc with
  | nil => rfl
  | cons c s ih =>
    rw [List.forall_mem_cons] at hs
    obtain ⟨⟨d, hd, rfl⟩, hs⟩ := hs
    obtain ⟨hdigit, hvalue⟩ := isDigit_digitChar hd
    have hread := digitValue_digitChar false (show d < 16 by omega)
    rw [List.cons_append, atoiLoop, if_pos hdigit, hvalue, digits_cons hread hd, ← ih hs,
      UInt32.ofNat_add, UInt32.ofNat_mul]
    rfl

theorem exists_of_mem_decimal {n : ℕ} {c : UInt8} (h : c ∈ decimal n) :
    ∃ d < 10, c = digitChar false d :=
  exists_of_mem_ntoaDigits (by decide) (List.mem_reverse.mp h)

theorem decimal_ne_nil (n : ℕ) : decimal n ≠ [] := by
  rw [decimal, ntoaBufferSize, ntoaDigits]
  exact List.reverse_ne_nil_iff.mpr (List.cons_ne_nil _ _)

theorem digits_decimal {n : ℕ} (hn : n < 2 ^ 64) (rest : List UInt8) (acc : ℕ) :
    digits 10 (decimal n ++ rest) acc = digits 10 rest (acc * 10 ^ (decimal n).length + n) := by
  rw [decimal, List.length_reverse]
  exact digits_reverse_ntoaDigits (by decide) (by decide) _ _
    (show n < 10 ^ ntoaBufferSize by rw [ntoaBufferSize]; omega) acc

/-- `_atoi` reads a number that no digit follows. -/
theorem atoi_decimal (n : UInt32) {rest : List UInt8}
    (hrest : ∀ c ∈ rest.head?, isDigit c = false) : atoi (decimal n.toNat ++ rest) = (n, rest) := by
  have hdigits := digits_decimal (n := n.toNat) (lt_trans n.toNat_lt (by decide)) [] 0
  rw [List.append_nil, Nat.zero_mul, Nat.zero_add] at hdigits
  have hread : atoiLoop (decimal n.toNat ++ rest) (UInt32.ofNat 0) = _ :=
    atoiLoop_append (fun _ h => exists_of_mem_decimal h) 0
  rw [hdigits] at hread
  refine hread.trans ?_
  rw [show digits 10 [] n.toNat = n.toNat from rfl, UInt32.ofNat_toNat]
  cases rest with
  | nil => rfl
  | cons c rest =>
    rw [atoiLoop, if_neg (by rw [hrest c rfl]; exact Bool.false_ne_true)]

theorem getLast?_ntoaDigits {room value : ℕ} (hvalue : value ≠ 0) (hroom : value < 10 ^ room) :
    ∃ d < 10, d ≠ 0 ∧ (ntoaDigits 10 false room value).getLast? = some (digitChar false d) := by
  induction room generalizing value with
  | zero =>
    rw [Nat.pow_zero] at hroom
    omega
  | succ room ih =>
    rw [ntoaDigits]
    by_cases hmore : value / 10 ≠ 0
    · obtain ⟨d, hd, hne, hlast⟩ := ih hmore
        (Nat.div_lt_of_lt_mul (by rwa [Nat.mul_comm, ← Nat.pow_succ]))
      refine ⟨d, hd, hne, ?_⟩
      rw [if_pos hmore, List.getLast?_cons, hlast]
      rfl
    · have hsmall : value % 10 = value := by omega
      rw [if_neg hmore, hsmall]
      exact ⟨value, by omega, hvalue, rfl⟩

/-- The first digit of a number is not zero, unless the number is. -/
theorem head?_decimal {n : ℕ} (hn : n ≠ 0) (hn' : n < 2 ^ 64) :
    ∃ d < 10, d ≠ 0 ∧ (decimal n).head? = some (digitChar false d) := by
  obtain ⟨d, hd, hne, hlast⟩ := getLast?_ntoaDigits hn
    (show n < 10 ^ ntoaBufferSize by rw [ntoaBufferSize]; omega)
  exact ⟨d, hd, hne, by rw [decimal, List.head?_reverse, hlast]⟩

/-! ## Fields -/

/-- A flag character. -/
def isFlag (c : UInt8) : Bool :=
  c = '0'.toUInt8 || c = '-'.toUInt8 || c = '+'.toUInt8 || c = ' '.toUInt8 || c = '#'.toUInt8

/-- What may stand behind the precision begins no other field. -/
def Behind (c : UInt8) : Prop :=
  isFlag c = false ∧ isDigit c = false ∧ c ≠ '*'.toUInt8 ∧ c ≠ '.'.toUInt8

instance (c : UInt8) : Decidable (Behind c) := inferInstanceAs (Decidable (_ ∧ _))

theorem exists_behind (length : Length) (specifier : Specifier) (rest : List UInt8) :
    ∃ c s, length.render ++ specifier.char :: rest = c :: s ∧ Behind c := by
  cases length with
  | none => exact ⟨_, _, rfl, by cases specifier <;> decide⟩
  | hh | h | l | ll | t | j | z => exact ⟨_, _, rfl, by decide⟩

theorem evalFlags_render (fs : List Flag) (flags : Flags) {c : UInt8} (hc : isFlag c = false)
    (rest : List UInt8) :
    evalFlags (fs.map Flag.char ++ c :: rest) flags = (fs.foldl Flag.set flags, c :: rest) := by
  induction fs generalizing flags with
  | nil =>
    simp only [isFlag, Bool.or_eq_false_iff, decide_eq_false_iff_not] at hc
    obtain ⟨⟨⟨⟨hzero, hminus⟩, hplus⟩, hspace⟩, hhash⟩ := hc
    rw [List.map_nil, List.nil_append, evalFlags, if_neg hzero, if_neg hminus, if_neg hplus,
      if_neg hspace, if_neg hhash]
    rfl
  | cons flag fs ih =>
    rw [List.map_cons, List.cons_append, List.foldl_cons, ← ih]
    cases flag <;> rfl

/-- A word as an `int`. -/
theorem toInt_toInt32 (w : UInt32) :
    w.toInt32.toInt = if w.toNat < 2 ^ 31 then (w.toNat : ℤ) else w.toNat - 2 ^ 32 := by
  refine (BitVec.toInt_eq_toNat_cond w.toBitVec).trans ?_
  rw [UInt32.toNat_toBitVec]
  split <;> split <;> omega

theorem evalWidth_number (n : UInt32) (flags : Flags) (va : List Arg) {c : UInt8}
    (hc : isDigit c = false) (rest : List UInt8) :
    evalWidth flags (decimal n.toNat ++ c :: rest) va =
      some ⟨flags, n.toNat, 0, c :: rest, va⟩ := by
  have hread : atoi (decimal n.toNat ++ c :: rest) = (n, c :: rest) :=
    atoi_decimal n (by rintro _ ⟨⟩; exact hc)
  cases hdigits : decimal n.toNat with
  | nil => exact absurd hdigits (decimal_ne_nil _)
  | cons e s =>
    obtain ⟨d, hd, rfl⟩ := exists_of_mem_decimal (hdigits ▸ List.mem_cons_self)
    rw [hdigits, List.cons_append] at hread
    rw [List.cons_append, evalWidth, if_pos (isDigit_digitChar hd).1, hread]

theorem starWidth_eq (flags : Flags) (format : List UInt8) (va : List Arg) :
    starWidth flags format va =
      (Width.star.eval flags va).map fun (flags, n, va) => ⟨flags, n, 0, format, va⟩ := by
  cases va with
  | nil => rfl
  | cons arg va =>
    cases arg with
    | dword v => rfl
    | str s => rfl
    | word w =>
      have hint := toInt_toInt32 w
      have hlt := w.toNat_lt
      simp only [starWidth, Width.eval, Int32.lt_iff_toInt_lt, ← Int32.toInt_inj,
        Int32.toInt_minValue, Int32.toInt_zero]
      by_cases hneg : w.toInt32.toInt < 0
      · have hlarge : ¬ w.toNat < 2 ^ 31 := by
          intro hsmall
          rw [if_pos hsmall] at hint
          omega
        rw [if_neg hlarge] at hint
        have hminus : (0 - w).toNat = w.toInt32.toInt.natAbs := by
          rw [UInt32.toNat_sub, hint, show (0 : UInt32).toNat = 0 from rfl]
          omega
        rw [if_pos hneg, if_neg (not_le.mpr hneg), hminus]
        split <;> rfl
      · have hsmall : w.toNat < 2 ^ 31 := by
          by_contra hlarge
          rw [if_neg hlarge] at hint
          omega
        rw [if_pos hsmall] at hint
        have habs : w.toInt32.toInt.natAbs = w.toNat := by omega
        rw [if_neg hneg, if_pos (not_lt.mp hneg), habs]
        rfl

theorem evalWidth_render (width : Width) (flags : Flags) (va : List Arg) {c : UInt8}
    (hc : isDigit c = false) (hstar : c ≠ '*'.toUInt8) (rest : List UInt8) :
    evalWidth flags (width.render ++ c :: rest) va =
      (width.eval flags va).map fun (flags, n, va) => ⟨flags, n, 0, c :: rest, va⟩ := by
  cases width with
  | none =>
    rw [Width.render, List.nil_append, evalWidth, if_neg (by rw [hc]; exact Bool.false_ne_true),
      if_neg hstar]
    rfl
  | number n h => exact evalWidth_number n flags va hc rest
  | star => exact starWidth_eq flags (c :: rest) va

theorem starPrecision_eq (d : Fields) (format : List UInt8) (va : List Arg) :
    starPrecision { d with flags := { d.flags with precision := true } } format va =
      (Precision.star.eval d.flags va).map fun (flags, n, va) =>
        ⟨flags, d.width, n, format, va⟩ := by
  cases va with
  | nil => rfl
  | cons arg va =>
    cases arg with
    | dword v => rfl
    | str s => rfl
    | word w =>
      have hint := toInt_toInt32 w
      have hlt := w.toNat_lt
      have hprec : (if 0 < w.toInt32 then w.toNat else 0) = w.toInt32.toInt.toNat := by
        simp only [Int32.lt_iff_toInt_lt, Int32.toInt_zero]
        split at hint <;> split <;> omega
      rw [starPrecision, hprec]
      rfl

theorem evalPrecision_render (precision : Precision) {flags : Flags} {width : ℕ} {va : List Arg}
    {c : UInt8} (hc : Behind c) (rest : List UInt8) :
    evalPrecision ⟨flags, width, 0, precision.render ++ c :: rest, va⟩ =
      (precision.eval flags va).map fun (flags, n, va) => ⟨flags, width, n, c :: rest, va⟩ := by
  obtain ⟨-, hdigit, hstar, hdot⟩ := hc
  cases precision with
  | none => exact if_neg hdot
  | dot =>
    have hnot : ¬ isDigit c = true := by
      rw [hdigit]
      exact Bool.false_ne_true
    exact (if_neg hnot).trans (if_neg hstar)
  | number n =>
    have hread : atoi (decimal n.toNat ++ c :: rest) = (n, c :: rest) :=
      atoi_decimal n (by rintro _ ⟨⟩; exact hdigit)
    cases hdigits : decimal n.toNat with
    | nil => exact absurd hdigits (decimal_ne_nil _)
    | cons e s =>
      obtain ⟨d, hd, rfl⟩ := exists_of_mem_decimal (hdigits ▸ List.mem_cons_self)
      rw [hdigits, List.cons_append] at hread
      rw [Precision.render, hdigits]
      refine (if_pos (isDigit_digitChar hd).1).trans ?_
      simp only [List.append_eq, hread]
      rfl
  | star => exact starPrecision_eq ⟨flags, width, 0, [], va⟩ (c :: rest) va

theorem evalLength_render (length : Length) (specifier : Specifier) (flags : Flags)
    (width precision : ℕ) (va : List Arg) (rest : List UInt8) :
    evalLength ⟨flags, width, precision, length.render ++ specifier.char :: rest, va⟩ =
      ⟨length.set flags, width, precision, specifier.char :: rest, va⟩ := by
  cases length with
  | none => cases specifier <;> rfl
  | h => cases specifier <;> rfl
  | l => cases specifier <;> rfl
  | hh | ll | t | j | z => rfl

theorem evalSpecifier_render (specifier : Specifier) (flags : Flags) (width precision : ℕ)
    (va : List Arg) (rest : List UInt8) :
    evalSpecifier ⟨flags, width, precision, specifier.char :: rest, va⟩ =
      (specifier.eval ⟨flags, width, precision, [], va⟩).map fun (text, va) =>
        (text, rest, va) := by
  cases specifier <;> rfl

/-! ## Directives -/

theorem isFlag_digitChar {d : ℕ} (hd : d < 10) (hne : d ≠ 0) :
    isFlag (digitChar false d) = false := by
  revert d
  decide

/-- What stands behind the width begins with no flag, digit or star. -/
theorem exists_cons_precision (precision : Precision) {c : UInt8} (hc : Behind c)
    (rest : List UInt8) :
    ∃ e s, precision.render ++ c :: rest = e :: s ∧ isFlag e = false ∧ isDigit e = false ∧
      e ≠ '*'.toUInt8 := by
  cases precision with
  | none => exact ⟨c, rest, rfl, hc.1, hc.2.1, hc.2.2.1⟩
  | dot | number | star => exact ⟨_, _, rfl, rfl, rfl, by decide⟩

/-- What stands behind the flags begins with no flag. -/
theorem exists_cons_width (width : Width) {c : UInt8} (hc : isFlag c = false) (rest : List UInt8) :
    ∃ e s, width.render ++ c :: rest = e :: s ∧ isFlag e = false := by
  cases width with
  | none => exact ⟨c, rest, rfl, hc⟩
  | star => exact ⟨_, _, rfl, rfl⟩
  | number n hn =>
    have hne : n.toNat ≠ 0 := fun h => hn (UInt32.toNat_inj.mp h)
    obtain ⟨d, hd, hzero, hhead⟩ := head?_decimal hne (lt_trans n.toNat_lt (by decide))
    obtain ⟨s, hs⟩ := List.head?_eq_some_iff.mp hhead
    exact ⟨_, _, by rw [Width.render, hs, List.cons_append], isFlag_digitChar hd hzero⟩

/-- **A directive is read as it is spelled.** -/
theorem directive_render (d : Directive) (rest : List UInt8) (va : List Arg) :
    directive (d.render ++ rest) va =
      (d.eval va).map fun (text, va) => (text, rest, va) := by
  obtain ⟨flags, width, precision, length, specifier⟩ := d
  -- the first characters of what stands behind each field
  obtain ⟨c, s, htail, hc⟩ := exists_behind length specifier rest
  obtain ⟨e, s', hprecision, heflag, hedigit, hestar⟩ := exists_cons_precision precision hc s
  obtain ⟨e', s'', hwidth, heflag'⟩ := exists_cons_width width heflag s'
  have hspell : (Directive.mk flags width precision length specifier).render ++ rest =
      flags.map Flag.char ++ e' :: s'' := by
    rw [← hwidth, ← hprecision, ← htail]
    simp only [Directive.render, List.append_assoc, List.singleton_append]
  rw [hspell, directive, evalFlags_render flags Flags.zero heflag' s'', ← hwidth,
    evalWidth_render width _ va hedigit hestar s', Directive.eval, Option.bind_map]
  cases width.eval (flags.foldl Flag.set Flags.zero) va with
  | none => rfl
  | some w =>
    obtain ⟨wflags, n, va⟩ := w
    simp only [Option.bind_some, Function.comp_apply]
    rw [← hprecision, evalPrecision_render precision hc s, Option.bind_map]
    cases precision.eval wflags va with
    | none => rfl
    | some q =>
      obtain ⟨pflags, prec, va⟩ := q
      simp only [Option.bind_some, Function.comp_apply]
      rw [← htail, evalLength_render, evalSpecifier_render]

/-! ## Formats -/

theorem length_atoi_le (str : List UInt8) : (atoi str).2.length ≤ str.length := by
  suffices hloop : ∀ i, (atoiLoop str i).2.length ≤ str.length from hloop 0
  induction str with
  | nil => exact fun i => le_rfl
  | cons c str ih =>
    intro i
    rw [atoiLoop]
    split
    · exact (ih _).trans (Nat.le_succ _)
    · exact le_rfl

theorem length_evalFlags_le (format : List UInt8) (flags : Flags) :
    (evalFlags format flags).2.length ≤ format.length := by
  induction format generalizing flags with
  | nil => exact le_rfl
  | cons c format ih =>
    have hstep : ∀ flags, (evalFlags format flags).2.length ≤ (c :: format).length :=
      fun flags => (ih flags).trans (Nat.le_succ _)
    rw [evalFlags]
    repeat' split
    any_goals exact hstep _
    exact le_rfl

theorem length_evalWidth_le {flags : Flags} {format : List UInt8} {va : List Arg} {d : Fields}
    (h : evalWidth flags format va = some d) : d.format.length ≤ format.length := by
  cases format with
  | nil =>
    obtain rfl := Option.some.inj h
    exact le_rfl
  | cons c rest =>
    rw [evalWidth] at h
    split at h
    · obtain rfl := Option.some.inj h
      exact length_atoi_le _
    · split at h
      · rw [starWidth_eq, Option.map_eq_some_iff] at h
        obtain ⟨_, -, rfl⟩ := h
        exact Nat.le_succ _
      · obtain rfl := Option.some.inj h
        exact le_rfl

theorem length_evalPrecision_le {d d' : Fields} (h : evalPrecision d = some d') :
    d'.format.length ≤ d.format.length := by
  obtain ⟨flags, width, precision, format, va⟩ := d
  cases format with
  | nil =>
    obtain rfl := Option.some.inj h
    exact le_rfl
  | cons c rest =>
    by_cases hdot : c = '.'.toUInt8
    · subst hdot
      cases rest with
      | nil =>
        obtain rfl := Option.some.inj h
        exact Nat.zero_le _
      | cons e rest =>
        by_cases hdigit : isDigit e = true
        · obtain rfl := Option.some.inj ((if_pos hdigit).symm.trans h)
          exact (length_atoi_le _).trans (Nat.le_succ _)
        · replace h := (if_neg hdigit).symm.trans h
          by_cases hstar : e = '*'.toUInt8
          · replace h := (if_pos hstar).symm.trans h
            replace h := (starPrecision_eq ⟨flags, width, precision, '.'.toUInt8 :: e :: rest, va⟩
              rest va).symm.trans h
            obtain ⟨_, -, rfl⟩ := Option.map_eq_some_iff.mp h
            exact (Nat.le_succ _).trans (Nat.le_succ _)
          · obtain rfl := Option.some.inj ((if_neg hstar).symm.trans h)
            exact Nat.le_succ _
    · obtain rfl := Option.some.inj ((if_neg hdot).symm.trans h)
      exact le_rfl

theorem length_evalLength_le (d : Fields) : (evalLength d).format.length ≤ d.format.length := by
  obtain ⟨flags, width, precision, format, va⟩ := d
  cases format with
  | nil => exact le_rfl
  | cons c rest =>
    have htail : rest.tail.length ≤ (c :: rest).length :=
      (List.length_tail ▸ Nat.sub_le _ _).trans (Nat.le_succ _)
    simp only [evalLength]
    repeat' split
    any_goals exact Nat.le_succ _
    any_goals exact htail
    exact le_rfl

/-- A directive takes at least one character. -/
theorem length_lt_of_directive {format rest text : List UInt8} {va va' : List Arg}
    (h : directive format va = some (text, rest, va')) : rest.length < format.length := by
  rw [directive, Option.bind_eq_some_iff] at h
  obtain ⟨d, hd, h⟩ := h
  rw [Option.bind_eq_some_iff] at h
  obtain ⟨d', hd', h⟩ := h
  have hflags := length_evalFlags_le format Flags.zero
  have hwidth := length_evalWidth_le hd
  have hprecision := length_evalPrecision_le hd'
  have hlength := length_evalLength_le d'
  unfold evalSpecifier at h
  split at h
  · exact absurd h (Option.some_ne_none _).symm
  · rename_i c format' hformat
    obtain ⟨r, -, hr⟩ := Option.map_eq_some_iff.mp h
    obtain ⟨-, hrest⟩ := Prod.mk.inj hr
    obtain ⟨rfl, -⟩ := Prod.mk.inj hrest
    rw [hformat, List.length_cons] at hlength
    omega

/-- More turns than characters change nothing. -/
theorem vsnprintfLoop_of_le {n : ℕ} {format : List UInt8} (h : format.length ≤ n) (va : List Arg) :
    vsnprintfLoop n format va = vsnprintf format va := by
  suffices hloop : ∀ k n m (format : List UInt8) (va : List Arg), format.length ≤ k →
      format.length ≤ n → format.length ≤ m →
      vsnprintfLoop n format va = vsnprintfLoop m format va from
    hloop _ _ _ format va le_rfl h le_rfl
  intro k
  induction k with
  | zero =>
    intro n m format va hk _ _
    obtain rfl := List.eq_nil_of_length_eq_zero (Nat.le_zero.mp hk)
    cases n <;> cases m <;> rfl
  | succ k ih =>
    intro n m format va hk hn hm
    cases format with
    | nil => cases n <;> cases m <;> rfl
    | cons c format =>
      rw [List.length_cons] at hk hn hm
      obtain ⟨n, rfl⟩ := Nat.exists_eq_add_of_le' (show 1 ≤ n by omega)
      obtain ⟨m, rfl⟩ := Nat.exists_eq_add_of_le' (show 1 ≤ m by omega)
      rw [vsnprintfLoop, vsnprintfLoop]
      by_cases hc : c ≠ '%'.toUInt8
      · rw [if_pos hc, if_pos hc, ih n m format va (by omega) (by omega) (by omega)]
      · rw [if_neg hc, if_neg hc]
        cases hd : directive format va with
        | none => rfl
        | some r =>
          obtain ⟨text, rest, va'⟩ := r
          have hlt := length_lt_of_directive hd
          simp only [Option.bind_some]
          rw [ih n m rest va' (by omega) (by omega) (by omega)]

/-- What is no directive is copied. -/
theorem vsnprintf_cons_of_ne {c : UInt8} (hc : c ≠ '%'.toUInt8) (format : List UInt8)
    (va : List Arg) : vsnprintf (c :: format) va = (vsnprintf format va).map (c :: ·) :=
  if_pos hc

/-- A text without directives is copied. -/
theorem vsnprintf_append_of_forall_ne {s : List UInt8} (h : ∀ c ∈ s, c ≠ '%'.toUInt8)
    (format : List UInt8) (va : List Arg) :
    vsnprintf (s ++ format) va = (vsnprintf format va).map (s ++ ·) := by
  induction s with
  | nil => exact Option.map_id'.symm
  | cons c s ih =>
    rw [List.forall_mem_cons] at h
    rw [List.cons_append, vsnprintf_cons_of_ne h.1, ih h.2, Option.map_map]
    rfl

theorem vsnprintf_of_forall_ne {s : List UInt8} (h : ∀ c ∈ s, c ≠ '%'.toUInt8)
    (va : List Arg) : vsnprintf s va = some s := by
  have hcopy := vsnprintf_append_of_forall_ne h [] va
  rw [List.append_nil] at hcopy
  exact hcopy.trans (congrArg some (List.append_nil s))

/-- A directive puts out its text. -/
theorem vsnprintf_directive (format : List UInt8) (va : List Arg) :
    vsnprintf ('%'.toUInt8 :: format) va = (directive format va).bind fun (text, rest, va) =>
      (vsnprintf rest va).map (text ++ ·) := by
  rw [vsnprintf, List.length_cons, vsnprintfLoop, if_neg fun h => h rfl]
  cases hd : directive format va with
  | none => rfl
  | some r =>
    obtain ⟨text, rest, va'⟩ := r
    simp only [Option.bind_some]
    rw [vsnprintfLoop_of_le (length_lt_of_directive hd).le]

/-- A directive as it is spelled. -/
theorem vsnprintf_render_directive (d : Directive) (format : List UInt8) (va : List Arg) :
    vsnprintf ('%'.toUInt8 :: d.render ++ format) va =
      (d.eval va).bind fun r => (vsnprintf format r.2).map (r.1 ++ ·) := by
  rw [List.cons_append, vsnprintf_directive, directive_render, Option.bind_map]
  rfl

/-- A piece of a format: a character that is copied, or a directive. -/
inductive Piece where
  | char (c : UInt8) (h : c ≠ '%'.toUInt8)
  | directive (d : Directive)

def Piece.render : Piece → List UInt8
  | char c _ => [c]
  | directive d => '%'.toUInt8 :: d.render

/-- The output of a format, piece by piece. -/
def evalPieces : List Piece → List Arg → Option (List UInt8)
  | [], _ => some []
  | .char c _ :: pieces, va => (evalPieces pieces va).map (c :: ·)
  | .directive d :: pieces, va =>
    (d.eval va).bind fun (text, va) => (evalPieces pieces va).map (text ++ ·)

/-- **The interpreter gives a format its meaning**: a format that is spelled from pieces
puts out what the pieces mean, one after the other, and is undefined exactly if one of
them is. -/
theorem vsnprintf_render (pieces : List Piece) (va : List Arg) :
    vsnprintf (pieces.flatMap Piece.render) va = evalPieces pieces va := by
  induction pieces generalizing va with
  | nil => rfl
  | cons piece pieces ih =>
    rw [List.flatMap_cons]
    cases piece with
    | char c h =>
      rw [Piece.render, List.singleton_append, vsnprintf_cons_of_ne h, ih]
      rfl
    | directive d =>
      rw [Piece.render, vsnprintf_render_directive]
      refine congrArg _ (funext fun r => ?_)
      rw [ih]

end Printf
end Stm32Adaptive
