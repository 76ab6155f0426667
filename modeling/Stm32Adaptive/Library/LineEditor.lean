import Mathlib.Data.List.Basic

/-!
# Line editing

A line of a fixed length is typed, and one character deletes the one typed before it.
`keystroke` is what one key does to the characters kept so far; with nothing kept,
deleting has no effect.  `edit` reads keys until the line is full, and
`edit_eq_some_iff` says what that means: the keys read are the shortest beginning of
the input after which enough characters are kept.

An implementation may rely on there always being something to delete; `DeletesKept`
says so of an input.
-/

namespace Stm32Adaptive
namespace LineEditor

variable {α : Type*} [DecidableEq α] {backspace c : α} {n : ℕ} {kept typed keys rest : List α}

/-- What one key does to the characters kept. -/
def keystroke (backspace : α) (kept : List α) (c : α) : List α :=
  if c = backspace then kept.dropLast else kept ++ [c]

/-- Read keys until `n` characters are kept; `none` is an input that ends before. -/
def edit (backspace : α) (n : ℕ) (kept : List α) : List α → Option (List α × List α)
  | [] => if kept.length < n then none else some (kept, [])
  | c :: keys =>
    if kept.length < n then edit backspace n (keystroke backspace kept c) keys
    else some (kept, c :: keys)

/-- These keys fill the line, and no shorter beginning of them does. -/
def Fills (backspace : α) (n : ℕ) (kept typed : List α) : Prop :=
  (typed.foldl (keystroke backspace) kept).length = n ∧
    ∀ shorter, shorter <+: typed → shorter ≠ typed →
      (shorter.foldl (keystroke backspace) kept).length < n

/-- Every backspace that comes before the line is full finds something to delete. -/
def DeletesKept (backspace : α) (n : ℕ) (kept : List α) : List α → Prop
  | [] => True
  | c :: keys => kept.length < n →
    (c = backspace → kept ≠ []) ∧ DeletesKept backspace n (keystroke backspace kept c) keys

theorem keystroke_backspace (backspace : α) (kept : List α) :
    keystroke backspace kept backspace = kept.dropLast := if_pos rfl

theorem keystroke_of_ne (h : c ≠ backspace) (kept : List α) :
    keystroke backspace kept c = kept ++ [c] := if_neg h

theorem length_keystroke_le (backspace : α) (kept : List α) (c : α) :
    (keystroke backspace kept c).length ≤ kept.length + 1 := by
  unfold keystroke
  split
  · rw [List.length_dropLast]
    omega
  · rw [List.length_append]
    exact Nat.le_refl _

theorem edit_of_full (h : ¬ kept.length < n) (keys : List α) :
    edit backspace n kept keys = some (kept, keys) := by
  cases keys <;> exact if_neg h

theorem edit_cons_of_lt (h : kept.length < n) (c : α) (keys : List α) :
    edit backspace n kept (c :: keys) = edit backspace n (keystroke backspace kept c) keys :=
  if_pos h

/-- A backspace is never kept. -/
theorem backspace_notMem_foldl (h : backspace ∉ kept) (typed : List α) :
    backspace ∉ typed.foldl (keystroke backspace) kept := by
  induction typed generalizing kept with
  | nil => exact h
  | cons c typed ih =>
    refine ih ?_
    unfold keystroke
    split
    · exact fun hmem => h (List.dropLast_subset kept hmem)
    · rename_i hc
      intro hmem
      rcases List.mem_append.mp hmem with hmem | hmem
      · exact h hmem
      · exact hc (List.mem_singleton.mp hmem).symm

/-- Text without a backspace is kept as it is. -/
theorem edit_append_of_notMem {text : List α} (hedit : backspace ∉ text)
    (hlen : kept.length + text.length = n) (rest : List α) :
    edit backspace n kept (text ++ rest) = some (kept ++ text, rest) := by
  induction text generalizing kept with
  | nil =>
    rw [List.length_nil, Nat.add_zero] at hlen
    rw [List.nil_append, List.append_nil]
    exact edit_of_full (by omega) rest
  | cons c text ih =>
    rw [List.length_cons] at hlen
    have hc : c ≠ backspace := fun h => hedit (h ▸ List.mem_cons_self)
    rw [List.cons_append, edit_cons_of_lt (by omega), keystroke_of_ne hc,
      ih (fun h => hedit (List.mem_cons_of_mem c h))
        (by rw [List.length_append, List.length_singleton]; omega),
      List.append_assoc, List.singleton_append]

theorem deletesKept_of_full (h : ¬ kept.length < n) (keys : List α) :
    DeletesKept backspace n kept keys := by
  cases keys with
  | nil => trivial
  | cons c keys => exact fun hlt => absurd hlt h

theorem deletesKept_append_of_notMem {text : List α} (hedit : backspace ∉ text)
    (hlen : kept.length + text.length = n) (rest : List α) :
    DeletesKept backspace n kept (text ++ rest) := by
  induction text generalizing kept with
  | nil => exact deletesKept_of_full (by rw [← hlen, List.length_nil]; omega) rest
  | cons c text ih =>
    rw [List.length_cons] at hlen
    have hc : c ≠ backspace := fun h => hedit (h ▸ List.mem_cons_self)
    refine fun _ => ⟨fun h => absurd h hc, ih (fun h => hedit (List.mem_cons_of_mem c h)) ?_⟩
    rw [keystroke_of_ne hc, List.length_append, List.length_singleton]
    omega

/-! ## When the line is full -/

theorem fills_nil_iff : Fills backspace n kept [] ↔ kept.length = n := by
  refine ⟨And.left, fun h => ⟨h, ?_⟩⟩
  intro shorter hbegin hne
  exact absurd (List.prefix_nil.mp hbegin) hne

theorem fills_cons_iff :
    Fills backspace n kept (c :: typed) ↔
      kept.length < n ∧ Fills backspace n (keystroke backspace kept c) typed := by
  constructor
  · rintro ⟨hlen, hshorter⟩
    refine ⟨hshorter [] (List.nil_prefix) (List.cons_ne_nil c typed).symm, hlen, ?_⟩
    intro shorter hbegin hne
    exact hshorter (c :: shorter) (List.cons_prefix_cons.mpr ⟨rfl, hbegin⟩)
      fun heq => hne (List.cons.inj heq).2
  · rintro ⟨hlt, hlen, hshorter⟩
    refine ⟨hlen, ?_⟩
    intro shorter hbegin hne
    cases shorter with
    | nil => exact hlt
    | cons d shorter =>
      obtain ⟨rfl, htail⟩ := List.cons_prefix_cons.mp hbegin
      exact hshorter shorter htail fun heq => hne (congrArg (d :: ·) heq)

/-- A full line is what is kept, and no key is read. -/
theorem edit_full_iff (hfull : kept.length = n) {line : List α} :
    some (kept, keys) = some (line, rest) ↔
      ∃ typed, keys = typed ++ rest ∧ Fills backspace n kept typed ∧
        line = typed.foldl (keystroke backspace) kept := by
  constructor
  · intro h
    obtain ⟨rfl, rfl⟩ := Prod.mk.inj (Option.some.inj h)
    exact ⟨[], rfl, fills_nil_iff.mpr hfull, rfl⟩
  · rintro ⟨typed, rfl, hfills, rfl⟩
    cases typed with
    | nil => rfl
    | cons c typed => exact absurd (fills_cons_iff.mp hfills).1 (by omega)

/-- **What the editor reads.**  It returns when the line is full and not before, with
the characters that are then kept. -/
theorem edit_eq_some_iff (hle : kept.length ≤ n) {line : List α} :
    edit backspace n kept keys = some (line, rest) ↔
      ∃ typed, keys = typed ++ rest ∧ Fills backspace n kept typed ∧
        line = typed.foldl (keystroke backspace) kept := by
  induction keys generalizing kept with
  | nil =>
    by_cases hlt : kept.length < n
    · rw [edit, if_pos hlt]
      refine iff_of_false (Option.some_ne_none _).symm ?_
      rintro ⟨typed, hkeys, hfills, -⟩
      obtain ⟨rfl, -⟩ := List.append_eq_nil_iff.mp hkeys.symm
      exact absurd (fills_nil_iff.mp hfills) (Nat.ne_of_lt hlt)
    · rw [edit_of_full hlt]
      exact edit_full_iff (by omega)
  | cons c keys ih =>
    by_cases hlt : kept.length < n
    · have hstep := length_keystroke_le backspace kept c
      rw [edit_cons_of_lt hlt, ih (by omega)]
      constructor
      · rintro ⟨typed, rfl, hfills, rfl⟩
        exact ⟨c :: typed, rfl, fills_cons_iff.mpr ⟨hlt, hfills⟩, rfl⟩
      · rintro ⟨typed, hkeys, hfills, rfl⟩
        cases typed with
        | nil => exact absurd (fills_nil_iff.mp hfills) (Nat.ne_of_lt hlt)
        | cons d typed =>
          obtain ⟨rfl, rfl⟩ := List.cons.inj hkeys
          exact ⟨typed, rfl, (fills_cons_iff.mp hfills).2, rfl⟩
    · rw [edit_of_full hlt]
      exact edit_full_iff (by omega)

end LineEditor
end Stm32Adaptive
