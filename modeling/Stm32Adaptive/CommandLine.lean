import Stm32Adaptive.FadeFrame

/-!
# The line editor of the fade command

The loop that fills `command_buffer` has a signed index, and a backspace moves it two
back before the loop adds one.  With something kept this deletes the last character.
With nothing kept the index becomes -1, and the comparison with the unsigned size of
the buffer takes it for a large number: the loop ends at once, with a backspace in the
buffer and nothing else.

So the loop is a line editor exactly for the input in which every backspace finds
something to delete (`lineEdited_iff`).  What does not depend on this is that all
stores go into the buffer and leave its last byte, the zero, alone.  The stores are a
list of their own, and `readCommand_eq_stores` says that the loop leaves what they make
of the buffer.
-/

namespace Stm32Adaptive
namespace Mcu

open LineEditor

/-! ## The stores -/

/-- The stores of the loop that fills `command_buffer`, each with its index. -/
def commandStores (i : ℤ) : List UInt8 → List (ℤ × UInt8)
  | [] => []
  | c :: queue =>
    if UInt32.ofInt i < UInt32.ofNat commandLength then
      (i, c) :: commandStores (if c = 8 then i - 2 + 1 else i + 1) queue
    else []

/-- A buffer after some stores. -/
def applyStores (commandBuffer : List UInt8) (stores : List (ℤ × UInt8)) : List UInt8 :=
  stores.foldl (fun buffer store => buffer.set store.1.toNat store.2) commandBuffer

/-- **What the loop leaves is the buffer after these stores.** -/
theorem readCommand_eq_stores {i : ℤ} {commandBuffer queue : List UInt8}
    {r : List UInt8 × List UInt8} (h : (readCommand i commandBuffer).run queue = some r) :
    r.1 = applyStores commandBuffer (commandStores i queue) := by
  induction queue generalizing i commandBuffer with
  | nil =>
    change (if _ then none else some (commandBuffer, [])) = some r at h
    split at h
    · exact absurd h (by simp)
    · rw [← Option.some.inj h]
      rfl
  | cons c queue ih =>
    by_cases hgo : UInt32.ofInt i < UInt32.ofNat commandLength
    · rw [commandStores, if_pos hgo, applyStores, List.foldl_cons, ← applyStores]
      by_cases hc : c = 8
      · subst hc
        rw [readCommand_backspace_of_lt hgo] at h
        exact ih h
      · rw [readCommand_cons_of_lt hgo hc] at h
        rw [if_neg hc]
        exact ih h
    · rw [readCommand_of_not_lt hgo] at h
      rw [commandStores, if_neg hgo, ← Option.some.inj h]
      rfl

/-- The index never gets below -1, and -1 is not below the size. -/
theorem index_mem_of_lt {i : ℤ} (hlow : -1 ≤ i) (hhigh : i ≤ 20)
    (h : UInt32.ofInt i < UInt32.ofNat commandLength) : 0 ≤ i ∧ i < 20 := by
  rcases Int.lt_or_le i 0 with hneg | hnonneg
  · obtain rfl : i = -1 := by omega
    exact absurd h (by decide)
  · obtain ⟨n, rfl⟩ := Int.eq_ofNat_of_zero_le hnonneg
    have hlt := (ofInt_lt_commandLength_iff (by omega)).mp h
    omega

/-- **All stores go to the first 20 bytes.** -/
theorem commandStores_mem {i : ℤ} (hlow : -1 ≤ i) (hhigh : i ≤ 20) (queue : List UInt8) :
    ∀ store ∈ commandStores i queue, 0 ≤ store.1 ∧ store.1 < 20 := by
  induction queue generalizing i with
  | nil => exact fun store hstore => absurd hstore List.not_mem_nil
  | cons c queue ih =>
    rw [commandStores]
    split
    · rename_i hgo
      have hindex := index_mem_of_lt hlow hhigh hgo
      refine List.forall_mem_cons.mpr ⟨hindex, ?_⟩
      split <;> exact ih (by omega) (by omega)
    · exact fun store hstore => absurd hstore List.not_mem_nil

/-! ## The line -/

/-- **The loop is a line editor**: it stores into the first 20 bytes only, and it ends
exactly when 20 characters are kept, with these characters and the zero behind them
in the buffer. -/
def LineEdited (queue : List UInt8) : Prop :=
  (∀ store ∈ commandStores 0 queue, 0 ≤ store.1 ∧ store.1 < 20) ∧
    ∀ commandBuffer rest,
      (readCommand 0 (List.replicate (commandLength + 1) 0)).run queue =
          some (commandBuffer, rest) ↔
        ∃ typed, queue = typed ++ rest ∧ Fills 8 commandLength [] typed ∧
          commandBuffer = typed.foldl (keystroke 8) [] ++ [0]

/-- A backspace that finds nothing ends the loop, and stays in the buffer. -/
theorem readCommand_of_not_deletesKept {queue kept junk : List UInt8}
    (hroom : kept.length + junk.length = 20) (h : ¬ DeletesKept 8 20 kept queue) :
    ∃ commandBuffer rest, (readCommand kept.length (kept ++ junk ++ [0])).run queue =
      some (8 :: commandBuffer, rest) := by
  induction queue generalizing kept junk with
  | nil => exact absurd trivial h
  | cons c queue ih =>
    have hlt : kept.length < 20 := by
      by_contra hfull
      exact h (deletesKept_of_full hfull _)
    by_cases hdelete : c = 8 → kept ≠ []
    · have hrest : ¬ DeletesKept 8 20 (keystroke 8 kept c) queue := fun hrest =>
        h fun _ => ⟨hdelete, hrest⟩
      obtain ⟨junk', hroom', hpass⟩ := readCommand_keystroke hlt hroom hdelete queue
      rw [hpass]
      exact ih hroom' hrest
    · rw [Classical.not_imp, not_not] at hdelete
      obtain ⟨rfl, rfl⟩ := hdelete
      obtain ⟨d, junk, rfl⟩ : ∃ d rest, junk = d :: rest :=
        List.exists_cons_of_length_pos (by rw [List.length_nil] at hroom; omega)
      have hpass := readCommand_backspace_of_lt (i := ((0 : ℕ) : ℤ)) (by decide)
        (d :: junk ++ [0]) queue
      refine ⟨junk ++ [0], queue, hpass.trans ?_⟩
      exact readCommand_of_not_lt (by decide) _ _

/-- **When the loop is a line editor**: if and only if, until 20 characters are kept,
no backspace comes while none is kept.  In any case it leaves the buffer after the
stores of which `LineEdited` speaks. -/
theorem lineEdited_iff (queue : List UInt8) :
    (LineEdited queue ↔ DeletesKept 8 commandLength [] queue) ∧
      ∀ r, (readCommand 0 (List.replicate (commandLength + 1) 0)).run queue = some r →
        r.1 = applyStores (List.replicate (commandLength + 1) 0) (commandStores 0 queue) := by
  refine ⟨?_, fun r => readCommand_eq_stores⟩
  constructor
  · rintro ⟨-, hline⟩
    by_contra h
    obtain ⟨commandBuffer, rest, hread⟩ :=
      @readCommand_of_not_deletesKept queue [] (List.replicate 20 0) rfl h
    obtain ⟨typed, -, hfills, hbuffer⟩ := (hline _ rest).mp hread
    have hkept : typed.foldl (keystroke 8) [] ≠ [] := by
      intro hnil
      rw [Fills, hnil] at hfills
      exact absurd hfills.1 (by decide)
    obtain ⟨first, others, hcons⟩ := List.exists_cons_of_ne_nil hkept
    rw [hcons, List.cons_append] at hbuffer
    have hmem : (8 : UInt8) ∉ typed.foldl (keystroke 8) [] :=
      backspace_notMem_foldl List.not_mem_nil typed
    rw [hcons, ← (List.cons.inj hbuffer).1] at hmem
    exact hmem List.mem_cons_self
  · intro h
    refine ⟨commandStores_mem (by decide) (by decide) queue, fun commandBuffer rest => ?_⟩
    have hloop := @readCommand_edit queue [] (List.replicate 20 0) rfl h
    have hread : (readCommand 0 (List.replicate (commandLength + 1) 0)).run queue =
        (edit 8 20 [] queue).map fun r => (r.1 ++ [0], r.2) := hloop
    rw [hread, Option.map_eq_some_iff]
    constructor
    · rintro ⟨⟨line, rest'⟩, hedit, heq⟩
      obtain ⟨rfl, rfl⟩ := Prod.mk.inj heq
      obtain ⟨typed, hqueue, hfills, rfl⟩ := (edit_eq_some_iff (by decide)).mp hedit
      exact ⟨typed, hqueue, hfills, rfl⟩
    · rintro ⟨typed, hqueue, hfills, rfl⟩
      exact ⟨(_, rest), (edit_eq_some_iff (by decide)).mpr ⟨typed, hqueue, hfills, rfl⟩, rfl⟩

/-- The text of the example command. -/
def exampleText : List UInt8 := fadeText (fun _ => (true, true)) ⟨255, 255, 255⟩ 10000

/-- **A backspace at the start of the line.**  The loop is over at once, and the text
behind it stays in the queue. -/
theorem not_lineEdited_backspace :
    (readCommand 0 (List.replicate (commandLength + 1) 0)).run (8 :: exampleText) =
      some (8 :: List.replicate commandLength 0, exampleText) ∧
    ¬ LineEdited (8 :: exampleText) := by
  have hread : (readCommand 0 (List.replicate (commandLength + 1) 0)).run (8 :: exampleText) =
      some (8 :: List.replicate commandLength 0, exampleText) := by decide
  refine ⟨hread, fun hline => ?_⟩
  obtain ⟨typed, hqueue, hfills, -⟩ := (hline.2 _ _).mp hread
  obtain rfl : [8] = typed := List.append_cancel_right hqueue
  exact absurd hfills.1 (by decide)

end Mcu
end Stm32Adaptive
