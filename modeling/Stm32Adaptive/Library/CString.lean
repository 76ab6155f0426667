import Mathlib.Algebra.Group.Nat.Defs
import Mathlib.Algebra.Order.Group.Unbundled.Int
import Mathlib.Data.List.TakeWhile

/-!
# Strings of the C library

A string is the bytes of a buffer up to the first zero byte.  `strtok` with one
separator takes such a string apart, and `strtol` reads a number off the front of
one.

`strtok` keeps its place in static storage; here a call returns the token and
what the next call goes on with.  That successive calls hand out the maximal runs
of other characters, in order, is `tokens_of_strtok` and `tokens_of_strtok_none`.

`strtol` is for a `long` of 32 bits: the result saturates.
-/

namespace Stm32Adaptive
namespace CString

/-- The string in a buffer. -/
def contents (buffer : List UInt8) : List UInt8 := buffer.takeWhile (· ≠ 0)

theorem contents_append_zero {s : List UInt8} (h : (0 : UInt8) ∉ s) (rest : List UInt8) :
    contents (s ++ 0 :: rest) = s := by
  induction s with
  | nil => rfl
  | cons c s ih =>
    obtain ⟨hc, hs⟩ := not_or.mp (fun hmem => h (List.mem_cons.mpr hmem))
    rw [List.cons_append, contents, List.takeWhile_cons_of_pos (by simpa using Ne.symm hc)]
    exact congrArg (c :: ·) (ih hs)

/-! ## Tokens -/

variable {α : Type*} [DecidableEq α] {separator : α}

/-- The maximal runs of characters other than the separator. -/
def tokens (separator : α) (s : List α) : List (List α) :=
  (s.splitOn separator).filter fun piece => piece ≠ []

/-- `strtok`: skip separators; if anything is left, the token goes up to the next
separator, and the next call begins behind it. -/
def strtok (separator : α) (s : List α) : Option (List α × List α) :=
  match s.dropWhile (· == separator) with
  | [] => none
  | c :: t =>
    some ((c :: t).takeWhile (· != separator), ((c :: t).dropWhile (· != separator)).drop 1)

theorem tokens_cons_separator (separator : α) (s : List α) :
    tokens separator (separator :: s) = tokens separator s := by
  rw [tokens, List.splitOn_cons_eq_if_modifyHead, if_pos BEq.rfl]
  rfl

theorem strtok_cons_separator (separator : α) (s : List α) :
    strtok separator (separator :: s) = strtok separator s := by
  simp only [strtok, List.dropWhile_cons, BEq.rfl, if_true]

theorem strtok_cons_of_ne {c : α} (h : c ≠ separator) (s : List α) :
    strtok separator (c :: s) = some (c :: s.takeWhile (· != separator),
      (s.dropWhile (· != separator)).drop 1) := by
  simp only [strtok, List.dropWhile_cons, List.takeWhile_cons, beq_iff_eq, bne_iff_ne, if_neg h,
    if_pos h]

/-- A run of other characters is a token, and the tokens behind it are those that
follow the separator it ends at. -/
theorem tokens_cons_of_ne {c : α} (h : c ≠ separator) (s : List α) :
    tokens separator (c :: s) = (c :: s.takeWhile (· != separator)) ::
      tokens separator ((s.dropWhile (· != separator)).drop 1) := by
  have hrun : separator ∉ c :: s.takeWhile (· != separator) := by
    intro hmem
    rcases List.mem_cons.mp hmem with rfl | hmem
    · exact h rfl
    · have hkeep := @List.mem_takeWhile_imp _ (· != separator) _ _ hmem
      exact bne_iff_ne.mp hkeep rfl
  have hsplit : c :: s = (c :: s.takeWhile (· != separator)) ++ s.dropWhile (· != separator) := by
    rw [List.cons_append, List.takeWhile_append_dropWhile]
  cases hrest : s.dropWhile (· != separator) with
  | nil =>
    rw [hrest, List.append_nil] at hsplit
    rw [tokens, hsplit, List.splitOn_eq_singleton hrun]
    rfl
  | cons d t =>
    have hhead := List.head_dropWhile_not (· != separator) (hrest ▸ List.cons_ne_nil d t)
    simp only [hrest, List.head_cons, bne_eq_false_iff_eq] at hhead
    subst hhead
    rw [hrest] at hsplit
    rw [tokens, hsplit, List.splitOn_append_cons_self_of_not_mem hrun]
    rfl

/-- **A call of `strtok` hands out the first token** and leaves the others. -/
theorem tokens_of_strtok {s token rest : List α} (h : strtok separator s = some (token, rest)) :
    tokens separator s = token :: tokens separator rest := by
  induction s with
  | nil => exact absurd h (by simp [strtok])
  | cons c s ih =>
    by_cases hc : c = separator
    · subst hc
      rw [strtok_cons_separator] at h
      rw [tokens_cons_separator, ih h]
    · rw [strtok_cons_of_ne hc] at h
      obtain ⟨rfl, rfl⟩ := Prod.mk.inj (Option.some.inj h)
      exact tokens_cons_of_ne hc s

/-- The null pointer comes when no token is left. -/
theorem tokens_of_strtok_none {s : List α} (h : strtok separator s = none) :
    tokens separator s = [] := by
  induction s with
  | nil => simp [tokens]
  | cons c s ih =>
    by_cases hc : c = separator
    · subst hc
      rw [strtok_cons_separator] at h
      rw [tokens_cons_separator, ih h]
    · rw [strtok_cons_of_ne hc] at h
      exact absurd h (by simp)

/-- As long as there are tokens, there is a pointer. -/
theorem exists_strtok {s : List α} {n : ℕ} (h : n + 1 ≤ (tokens separator s).length) :
    ∃ token rest, strtok separator s = some (token, rest) ∧
      n ≤ (tokens separator rest).length := by
  cases hs : strtok separator s with
  | none =>
    rw [tokens_of_strtok_none hs] at h
    exact absurd h (Nat.not_succ_le_zero n)
  | some r =>
    rw [tokens_of_strtok hs, List.length_cons] at h
    exact ⟨r.1, r.2, rfl, Nat.le_of_succ_le_succ h⟩

/-- A word and the separator behind it are one token. -/
theorem tokens_append_separator {word : List α} (hne : word ≠ []) (h : separator ∉ word)
    (s : List α) : tokens separator (word ++ separator :: s) = word :: tokens separator s := by
  rw [tokens, List.splitOn_append_cons_self_of_not_mem h, List.filter_cons_of_pos (by simpa)]
  rfl

theorem tokens_of_notMem {word : List α} (hne : word ≠ []) (h : separator ∉ word) :
    tokens separator word = [word] := by
  rw [tokens, List.splitOn_eq_singleton h, List.filter_cons_of_pos (by simpa), List.filter_nil]

/-! ## Numbers -/

/-- `isspace` in the C locale. -/
def isspace (c : UInt8) : Bool := c = 32 || (9 ≤ c && c ≤ 13)

/-- The value of a character as a digit: decimal digits and letters. -/
def digitValue (c : UInt8) : Option ℕ :=
  if 48 ≤ c ∧ c ≤ 57 then some (c.toNat - 48)
  else if 65 ≤ c ∧ c ≤ 90 then some (c.toNat - 55)
  else if 97 ≤ c ∧ c ≤ 122 then some (c.toNat - 87)
  else none

/-- The value of the digits at the front of a string. -/
def digits (base : ℕ) : List UInt8 → ℕ → ℕ
  | [], value => value
  | c :: s, value =>
    match digitValue c with
    | none => value
    | some d => if d < base then digits base s (value * base + d) else value

/-- Saturation to a 32-bit `long`. -/
def clampLong (value : ℤ) : ℤ := max (-2 ^ 31) (min value (2 ^ 31 - 1))

/-- The base of a number, if the call leaves it open: a prefix `0x` means 16, a
leading zero 8.  The prefix `0x` is also skipped when the base is given as 16. -/
def basePrefix (base : ℕ) : List UInt8 → ℕ × List UInt8
  | 48 :: x :: s =>
    if (base = 0 ∨ base = 16) ∧ (x = 120 ∨ x = 88) then (16, s)
    else (if base = 0 then 8 else base, 48 :: x :: s)
  | [48] => (if base = 0 then 8 else base, [48])
  | s => (if base = 0 then 10 else base, s)

/-- `strtol`, without its second result. -/
def strtol (s : List UInt8) (base : ℕ) : ℤ :=
  let s := s.dropWhile isspace
  let (negative, s) := match s with
    | 45 :: s => (true, s)
    | 43 :: s => (false, s)
    | s => (false, s)
  let (base, s) := basePrefix base s
  let value : ℤ := digits base s 0
  clampLong (if negative then -value else value)

/-- The character of a digit, a letter in either case from ten on. -/
def digitChar (upper : Bool) (d : ℕ) : UInt8 :=
  UInt8.ofNat (if d < 10 then 48 + d else if upper then 55 + d else 87 + d)

theorem digitValue_digitChar (upper : Bool) {d : ℕ} (h : d < 16) :
    digitValue (digitChar upper d) = some d := by
  revert d
  cases upper <;> decide

theorem digits_cons {base d : ℕ} {c : UInt8} (hc : digitValue c = some d) (hd : d < base)
    (s : List UInt8) (value : ℕ) :
    digits base (c :: s) value = digits base s (value * base + d) := by
  rw [digits, hc]
  exact if_pos hd

/-- Blanks and signs come before the digits in the character set. -/
theorem le_of_digitValue {c : UInt8} {d : ℕ} (hc : digitValue c = some d) : 48 ≤ c.toNat := by
  unfold digitValue at hc
  by_contra hlt
  have hlow : ∀ n : UInt8, 48 ≤ n.toNat → ¬ n ≤ c := fun n hn hle => by
    have hnat := UInt8.le_iff_toNat_le.mp hle
    omega
  rw [if_neg (fun h => hlow 48 (by decide) h.1), if_neg (fun h => hlow 65 (by decide) h.1),
    if_neg (fun h => hlow 97 (by decide) h.1)] at hc
  exact absurd hc (by simp)

/-- A digit begins the number. -/
theorem strtol_cons_of_digit {c : UInt8} {d : ℕ} (hc : digitValue c = some d) (s : List UInt8)
    (base : ℕ) : strtol (c :: s) base =
      clampLong (digits (basePrefix base (c :: s)).1 (basePrefix base (c :: s)).2 0 : ℕ) := by
  have hlow := le_of_digitValue hc
  have hne : ∀ n : UInt8, n.toNat < 48 → c ≠ n := by
    rintro n hn rfl
    omega
  have hspace : isspace c = false := by
    rw [isspace, Bool.or_eq_false_iff, decide_eq_false_iff_not, Bool.and_eq_false_iff]
    refine ⟨hne 32 (by decide), Or.inr (decide_eq_false fun hle => ?_)⟩
    have hnat := UInt8.le_iff_toNat_le.mp hle
    exact absurd (hlow.trans hnat) (by decide)
  have hdrop : (c :: s).dropWhile isspace = c :: s :=
    List.dropWhile_cons_of_neg (by rw [hspace]; exact Bool.false_ne_true)
  simp only [strtol, hdrop]
  split
  · rename_i hminus
    exact absurd (List.cons.inj hminus).1 (hne 45 (by decide))
  · rename_i hplus
    exact absurd (List.cons.inj hplus).1 (hne 43 (by decide))
  · rfl

theorem basePrefix_of_ne {base : ℕ} (h0 : base ≠ 0) (h16 : base ≠ 16) (s : List UInt8) :
    basePrefix base s = (base, s) := by
  unfold basePrefix
  split
  · rw [if_neg (fun h => h.1.elim h0 h16), if_neg h0]
  · rw [if_neg h0]
  · rw [if_neg h0]

theorem clampLong_of_lt {value : ℕ} (h : value < 2 ^ 31) : clampLong value = value := by
  unfold clampLong
  omega

/-- The numbers of a fade command. -/
example : strtol [48, 120, 70, 70] 0 = 255 ∧ strtol [49, 48, 48, 48, 48] 10 = 10000 := by decide

end CString
end Stm32Adaptive
