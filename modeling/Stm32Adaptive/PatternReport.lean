import Stm32Adaptive.MatchWindow
import Stm32Adaptive.PrintfOutput

/-!
# The report of a pattern

`PeriodPattern::print` puts the length, the tolerance and the periods of a pattern on the
serial line.  The periods behind the first zero and the padding do not appear in it, and
`match_window` does not read them either: two patterns with the same report match the same
windows.
-/

namespace Stm32Adaptive
namespace PeriodPattern

open Printf

/-! ## Printing -/

/-- `printf` with a literal format; the line after it. -/
def printf (line : List UInt8) (format : String) (va : List Arg) : Option (List UInt8) :=
  (Printf.printf line (text format) va).map Prod.snd

/-- An `int` argument. -/
def intArg (n : ℕ) : Arg := .word (UInt32.ofNat n)

/-- The loop of `printf_arr`. -/
def printfArrLoop (format : String) : List ℕ → List UInt8 → Option (List UInt8)
  | [], line => some line
  | n :: ns, line =>
    (printf line format [intArg n]).bind fun line =>
      (printf line ", " []).bind fun line => printfArrLoop format ns line

/-- `printf_arr`. -/
def printfArr (line : List UInt8) (format : String) (arr : List ℕ) : Option (List UInt8) :=
  (printf line "[" []).bind fun line =>
    (printfArrLoop format arr line).bind fun line => printf line "]" []

/-- `printf_arrln`. -/
def printfArrln (line : List UInt8) (format : String) (arr : List ℕ) : Option (List UInt8) :=
  (printfArr line format arr).bind fun line => printf line "\n" []

/-- The periods below the length. -/
def reported (p : PeriodPattern) : List ℕ :=
  ((List.finRange 8).take p.getLength).map fun i => (p.periods i).toNat

/-- `print`. -/
def print (p : PeriodPattern) (line : List UInt8) : Option (List UInt8) :=
  (printf line "[PP] l: %ld t: %ld/256 timings: "
    [intArg p.getLength, intArg p.toleranceMul255.toNat]).bind fun line =>
      printfArrln line "%ld" p.reported

/-! ## What is printed -/

/-- `%ld`. -/
def ld : Directive := ⟨[], .none, .none, .l, .d⟩

/-- Without flags, width and precision there are the digits only. -/
theorem ntoa_long (n : ℕ) :
    ntoa n false 10 0 0 { Flags.zero with long := true } = decimal n := by
  simp [ntoa, ntoaFormat, outRev, padZeros, fill, decimal, Flags.zero]

/-- A small number in decimal digits. -/
theorem eval_ld {n : ℕ} (hn : n < 2 ^ 31) (va : List Arg) :
    ld.eval (intArg n :: va) = some (decimal n, va) := by
  have hword : (UInt32.ofNat n).toNat = n := UInt32.toNat_ofNat_of_lt' (show n < 2 ^ 32 by omega)
  have hint := toInt_toInt32 (UInt32.ofNat n)
  rw [hword, if_pos hn] at hint
  have harg : signedArg { Flags.zero with long := true } (intArg n :: va) = some ((n : ℤ), va) :=
    congrArg (fun v => some (v, va)) hint
  have hleast : (n : ℤ) ≠ leastValue { Flags.zero with long := true } := by
    change (n : ℤ) ≠ -2 ^ 31
    omega
  have hneg : decide ((n : ℤ) < 0) = false := decide_eq_false (by omega)
  have hconvert := evalInteger_of_signed (Or.inl rfl)
    (d := ⟨{ Flags.zero with long := true }, 0, 0, [], intArg n :: va⟩) harg hleast
  rw [hneg, Int.natAbs_natCast] at hconvert
  exact hconvert.trans (congrArg (fun text => some (text, va)) (ntoa_long n))

/-- A text without zeros goes out on the line. -/
theorem printf_of_vsnprintf {format : String} {va : List Arg} {s : List UInt8}
    (htext : vsnprintf (text format) va = some s) (hzero : ∀ c ∈ s, c ≠ 0) (line : List UInt8) :
    printf line format va = some (line ++ s) := by
  rw [printf, printf_eq htext, List.filter_eq_self.mpr fun c hc => decide_eq_true (hzero c hc)]
  rfl

/-- A text without directives. -/
theorem printf_literal {format : String} (h : ∀ c ∈ text format, c ≠ '%'.toUInt8 ∧ c ≠ 0)
    (line : List UInt8) : printf line format [] = some (line ++ text format) := by
  exact printf_of_vsnprintf (vsnprintf_of_forall_ne (fun c hc => (h c hc).1) [])
    (fun c hc => (h c hc).2) line

theorem ne_zero_of_mem_decimal {n : ℕ} {c : UInt8} (h : c ∈ decimal n) : c ≠ 0 := by
  have hdigit : ∀ d < 10, CString.digitChar false d ≠ 0 := by decide
  obtain ⟨d, hd, rfl⟩ := exists_of_mem_decimal h
  exact hdigit d hd

/-- The periods in the brackets. -/
def reportPeriods (ns : List ℕ) : List UInt8 := ns.flatMap fun n => decimal n ++ text ", "

/-- The characters of a report. -/
def report (length tolerance : ℕ) (ns : List ℕ) : List UInt8 :=
  text "[PP] l: " ++ decimal length ++ text " t: " ++ decimal tolerance ++
    text "/256 timings: [" ++ reportPeriods ns ++ text "]\n"

theorem printf_ld {n : ℕ} (hn : n < 2 ^ 31) (line : List UInt8) :
    printf line "%ld" [intArg n] = some (line ++ decimal n) := by
  refine printf_of_vsnprintf ?_ (fun c hc => ne_zero_of_mem_decimal hc) line
  have hspell : text "%ld" = '%'.toUInt8 :: ld.render ++ [] := by decide +kernel
  rw [hspell, vsnprintf_render_directive, eval_ld hn]
  exact congrArg some (List.append_nil _)

theorem reportPeriods_cons (n : ℕ) (ns : List ℕ) :
    reportPeriods (n :: ns) = decimal n ++ text ", " ++ reportPeriods ns := List.flatMap_cons

theorem printfArrLoop_eq {ns : List ℕ} (h : ∀ n ∈ ns, n < 2 ^ 31) (line : List UInt8) :
    printfArrLoop "%ld" ns line = some (line ++ reportPeriods ns) := by
  induction ns generalizing line with
  | nil => rw [printfArrLoop, reportPeriods, List.flatMap_nil, List.append_nil]
  | cons n ns ih =>
    rw [List.forall_mem_cons] at h
    rw [printfArrLoop, printf_ld h.1, Option.bind_some, printf_literal (by decide +kernel),
      Option.bind_some, ih h.2, reportPeriods_cons]
    simp only [List.append_assoc]

/-- The line before the brackets. -/
theorem printf_header {length tolerance : ℕ} (hlength : length < 2 ^ 31)
    (htolerance : tolerance < 2 ^ 31) (line : List UInt8) :
    printf line "[PP] l: %ld t: %ld/256 timings: " [intArg length, intArg tolerance] =
      some (line ++ (text "[PP] l: " ++ (decimal length ++ (text " t: " ++ (decimal tolerance ++
        text "/256 timings: "))))) := by
  have hspell : text "[PP] l: %ld t: %ld/256 timings: " = text "[PP] l: " ++
      ('%'.toUInt8 :: ld.render ++ (text " t: " ++
        ('%'.toUInt8 :: ld.render ++ text "/256 timings: "))) := by decide +kernel
  refine printf_of_vsnprintf ?_ (fun c hc => ?_) line
  · rw [hspell, vsnprintf_append_of_forall_ne (by decide +kernel), vsnprintf_render_directive,
      eval_ld hlength, Option.bind_some, vsnprintf_append_of_forall_ne (by decide +kernel),
      vsnprintf_render_directive, eval_ld htolerance, Option.bind_some,
      vsnprintf_of_forall_ne (by decide +kernel)]
    rfl
  · simp only [List.mem_append] at hc
    rcases hc with hc | hc | hc | hc | hc
    · exact (by decide +kernel : ∀ c ∈ text "[PP] l: ", c ≠ 0) c hc
    · exact ne_zero_of_mem_decimal hc
    · exact (by decide +kernel : ∀ c ∈ text " t: ", c ≠ 0) c hc
    · exact ne_zero_of_mem_decimal hc
    · exact (by decide +kernel : ∀ c ∈ text "/256 timings: ", c ≠ 0) c hc

/-- **What `print` puts on the line.** -/
theorem print_eq (p : PeriodPattern) (line : List UInt8) :
    p.print line =
      some (line ++ report p.getLength p.toleranceMul255.toNat p.reported) := by
  have hlength := p.getLength_le
  have htolerance := p.toleranceMul255.toNat_lt
  have hperiods : ∀ n ∈ p.reported, n < 2 ^ 31 := by
    intro n hn
    obtain ⟨i, -, rfl⟩ := List.mem_map.mp hn
    exact (p.periods i).toNat_lt.trans (by decide)
  have hopen : text "/256 timings: [" = text "/256 timings: " ++ text "[" := by decide +kernel
  have hclose : text "]\n" = text "]" ++ text "\n" := by decide +kernel
  rw [print, printf_header (by omega) (by omega), Option.bind_some, printfArrln, printfArr,
    printf_literal (by decide +kernel), Option.bind_some, printfArrLoop_eq hperiods,
    Option.bind_some, printf_literal (by decide +kernel), Option.bind_some,
    printf_literal (by decide +kernel), report, hopen, hclose]
  simp only [List.append_assoc]

/-! ## Reading a report -/

/-- A number ends at the first character that is no digit. -/
theorem decimal_append_inj {m n : ℕ} (hm : m < 2 ^ 32) (hn : n < 2 ^ 32) {r s : List UInt8}
    (hr : ∀ c ∈ r.head?, isDigit c = false) (hs : ∀ c ∈ s.head?, isDigit c = false)
    (h : decimal m ++ r = decimal n ++ s) : m = n ∧ r = s := by
  have hm' : (UInt32.ofNat m).toNat = m := UInt32.toNat_ofNat_of_lt' hm
  have hn' : (UInt32.ofNat n).toNat = n := UInt32.toNat_ofNat_of_lt' hn
  have hleft := atoi_decimal (UInt32.ofNat m) hr
  have hright := atoi_decimal (UInt32.ofNat n) hs
  rw [hm'] at hleft
  rw [hn'] at hright
  obtain ⟨hnumber, hrest⟩ := Prod.mk.inj (hleft.symm.trans ((congrArg atoi h).trans hright))
  exact ⟨by rw [← hm', hnumber, hn'], hrest⟩

/-- A number does not begin like the end of a report. -/
theorem decimal_append_ne (n : ℕ) (s : List UInt8) : decimal n ++ s ≠ text "]\n" := by
  intro h
  have hbracket : ∀ d < 10, CString.digitChar false d ≠ ']'.toUInt8 := by decide
  cases hdigits : decimal n with
  | nil => exact decimal_ne_nil n hdigits
  | cons c cs =>
    obtain ⟨d, hd, rfl⟩ := exists_of_mem_decimal (hdigits ▸ List.mem_cons_self)
    rw [hdigits, show text "]\n" = [']'.toUInt8, '\n'.toUInt8] by decide +kernel] at h
    exact hbracket d hd (List.cons.inj h).1

theorem reportPeriods_inj {ms ns : List ℕ} (hms : ∀ m ∈ ms, m < 2 ^ 32)
    (hns : ∀ n ∈ ns, n < 2 ^ 32)
    (h : reportPeriods ms ++ text "]\n" = reportPeriods ns ++ text "]\n") : ms = ns := by
  induction ms generalizing ns with
  | nil =>
    cases ns with
    | nil => rfl
    | cons n ns =>
      rw [reportPeriods_cons, List.append_assoc, List.append_assoc] at h
      exact absurd h.symm (decimal_append_ne n _)
  | cons m ms ih =>
    cases ns with
    | nil =>
      rw [reportPeriods_cons, List.append_assoc, List.append_assoc] at h
      exact absurd h (decimal_append_ne m _)
    | cons n ns =>
      rw [List.forall_mem_cons] at hms hns
      rw [reportPeriods_cons, reportPeriods_cons] at h
      simp only [List.append_assoc] at h
      have hcomma : ∀ s : List UInt8, ∀ c ∈ (text ", " ++ s).head?, isDigit c = false := by
        intro s c hc
        rw [show text ", " = [','.toUInt8, ' '.toUInt8] by decide +kernel] at hc
        obtain rfl := Option.some.inj hc
        rfl
      obtain ⟨rfl, hrest⟩ := decimal_append_inj hms.1 hns.1 (hcomma _) (hcomma _) h
      rw [ih hms.2 hns.2 (List.append_cancel_left hrest)]

theorem report_inj {l l' t t' : ℕ} (hl : l < 2 ^ 32) (hl' : l' < 2 ^ 32) (ht : t < 2 ^ 32)
    (ht' : t' < 2 ^ 32) {ms ns : List ℕ} (hms : ∀ m ∈ ms, m < 2 ^ 32)
    (hns : ∀ n ∈ ns, n < 2 ^ 32) (h : report l t ms = report l' t' ns) :
    l = l' ∧ t = t' ∧ ms = ns := by
  have hblank : ∀ s : List UInt8, ∀ c ∈ (text " t: " ++ s).head?, isDigit c = false := by
    intro s c hc
    rw [show text " t: " = [' '.toUInt8, 't'.toUInt8, ':'.toUInt8, ' '.toUInt8] by
      decide +kernel] at hc
    obtain rfl := Option.some.inj hc
    rfl
  have hslash : ∀ s : List UInt8, ∀ c ∈ (text "/256 timings: [" ++ s).head?,
      isDigit c = false := by
    intro s c hc
    rw [show text "/256 timings: [" = '/'.toUInt8 :: text "256 timings: [" by
      decide +kernel] at hc
    obtain rfl := Option.some.inj hc
    rfl
  simp only [report, List.append_assoc] at h
  obtain ⟨hlength, h⟩ := decimal_append_inj hl hl' (hblank _) (hblank _)
    (List.append_cancel_left h)
  obtain ⟨htolerance, h⟩ := decimal_append_inj ht ht' (hslash _) (hslash _)
    (List.append_cancel_left h)
  exact ⟨hlength, htolerance, reportPeriods_inj hms hns (List.append_cancel_left h)⟩

/-! ## What a report says -/

theorem reported_eq_iff {p q : PeriodPattern} (h : p.getLength = q.getLength) :
    p.reported = q.reported ↔
      ∀ i : Fin 8, i.val < p.getLength → p.periods i = q.periods i := by
  rw [reported, reported, ← h, List.map_inj_left]
  exact forall_congr' fun i => imp_congr mem_take_finRange UInt16.toNat_inj

/-- The comparison reads the tolerance and the periods it is given. -/
theorem matchLoop_congr {p q : PeriodPattern} (htolerance : p.toleranceMul255 = q.toleranceMul255)
    {indices : List (Fin 8)} (h : ∀ i ∈ indices, p.periods i = q.periods i) (w : Window) :
    p.matchLoop w indices = q.matchLoop w indices := by
  induction indices with
  | nil => rfl
  | cons i indices ih =>
    rw [List.forall_mem_cons] at h
    rw [matchLoop, matchLoop, h.1, htolerance, ih h.2]

/-- **A report says all that matters.**  A pattern is reported with its length, its
tolerance and the periods below the length, in decimal digits.  Two patterns have the same
report if and only if they agree in these; and then no window tells them apart. -/
theorem print_eq_iff (p q : PeriodPattern) (line : List UInt8) :
    p.print line = some (line ++ report p.getLength p.toleranceMul255.toNat p.reported) ∧
      (p.print line = q.print line ↔ p.getLength = q.getLength ∧
        p.toleranceMul255 = q.toleranceMul255 ∧
        ∀ i : Fin 8, i.val < p.getLength → p.periods i = q.periods i) ∧
      (p.print line = q.print line → ∀ w, p.matchWindow w = q.matchWindow w) := by
  have hbound : ∀ (p : PeriodPattern), ∀ n ∈ p.reported, n < 2 ^ 32 := by
    intro p n hn
    obtain ⟨i, -, rfl⟩ := List.mem_map.mp hn
    exact (p.periods i).toNat_lt.trans (by decide)
  have hiff : p.print line = q.print line ↔ p.getLength = q.getLength ∧
      p.toleranceMul255 = q.toleranceMul255 ∧
      ∀ i : Fin 8, i.val < p.getLength → p.periods i = q.periods i := by
    rw [p.print_eq, q.print_eq, Option.some.injEq, List.append_cancel_left_eq]
    constructor
    · intro h
      have hp := p.getLength_le
      have hq := q.getLength_le
      have hp' := p.toleranceMul255.toNat_lt
      have hq' := q.toleranceMul255.toNat_lt
      obtain ⟨hlength, htolerance, hperiods⟩ :=
        report_inj (by omega) (by omega) (by omega) (by omega) (hbound p) (hbound q) h
      exact ⟨hlength, UInt8.toNat_inj.mp htolerance, (reported_eq_iff hlength).mp hperiods⟩
    · rintro ⟨hlength, htolerance, hperiods⟩
      rw [(reported_eq_iff hlength).mpr hperiods, hlength, htolerance]
  refine ⟨p.print_eq line, hiff, fun h w => ?_⟩
  obtain ⟨hlength, htolerance, hperiods⟩ := hiff.mp h
  rw [matchWindow, matchWindow, ← hlength, matchLoop_congr htolerance fun i hi =>
    hperiods i (mem_take_finRange.mp hi)]

end PeriodPattern
end Stm32Adaptive
