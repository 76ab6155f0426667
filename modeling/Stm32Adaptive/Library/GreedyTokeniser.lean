import Mathlib.Data.List.Basic
import Mathlib.Data.List.Flatten

/-!
# Greedy tokenisers over a stream

A greedy tokeniser with look-ahead `window` reads a stream from the front: while
at least `window` letters are left it looks at the first `window` of them, emits
a token and drops between one and `window` letters.  A program that receives the
stream piece by piece and tokenises whenever it gets to it may stop anywhere and
receive more; what makes this harmless is that a token depends on letters that
are already there.

`Tokenises T input ts rest` says that `ts` can be cut off the front of `input`,
with `rest` left over.  It survives receiving more (`Tokenises.append`), it loses
nothing (`Tokenises.flatten_append`), and however the work was divided up it is a
prefix of the one tokenisation `tokens` computes (`Tokenises.tokens_eq`).

A stream put together from words that are each cut off whole is taken apart into
these words again (`exists_tokens_eq_take`).
-/

namespace Stm32Adaptive

/-- A greedy tokeniser: the look-ahead, and what to do with the front of a
stream that is at least that long. -/
structure GreedyTokeniser (α τ : Type*) where
  window : ℕ
  /-- The token at the front and the number of letters it uses up. -/
  cut : List α → τ × ℕ
  window_pos : 1 ≤ window
  /-- Letters behind the window are not looked at. -/
  cut_append : ∀ l m, window ≤ l.length → cut (l ++ m) = cut l
  cut_pos : ∀ l, window ≤ l.length → 1 ≤ (cut l).2
  cut_le : ∀ l, window ≤ l.length → (cut l).2 ≤ window

namespace GreedyTokeniser

variable {α τ : Type*} (T : GreedyTokeniser α τ)

/-- The tokens `ts`, each with the letters it used up, have been cut off the
front of `input`, and `rest` is left. -/
inductive Tokenises (input : List α) : List (τ × List α) → List α → Prop where
  | start : Tokenises input [] input
  | token {ts : List (τ × List α)} {rest : List α} :
      Tokenises input ts rest → T.window ≤ rest.length →
      Tokenises input (ts ++ [((T.cut rest).1, rest.take (T.cut rest).2)])
        (rest.drop (T.cut rest).2)

variable {T} {input rest : List α} {ts : List (τ × List α)}

/-- **Nothing is lost, repeated or reordered.** -/
theorem Tokenises.flatten_append (h : T.Tokenises input ts rest) :
    input = (ts.map Prod.snd).flatten ++ rest := by
  induction h with
  | start => rfl
  | token _ _ ih =>
    rw [List.map_append, List.flatten_append, List.map_singleton, List.flatten_singleton,
      List.append_assoc, List.take_append_drop]
    exact ih

/-- **Receiving more disturbs nothing.** -/
theorem Tokenises.append (h : T.Tokenises input ts rest) (m : List α) :
    T.Tokenises (input ++ m) ts (rest ++ m) := by
  induction h with
  | start => exact Tokenises.start
  | @token ts rest _ hlen ih =>
    have hcut := T.cut_append rest m hlen
    have hle : (T.cut rest).2 ≤ rest.length := Nat.le_trans (T.cut_le rest hlen) hlen
    have hnext := ih.token (by rw [List.length_append]; omega)
    rwa [hcut, List.take_append_of_le_length hle, List.drop_append_of_le_length hle] at hnext

/-! ## The tokenisation of a whole stream -/

variable (T)

/-- Tokenise with at most the given number of tokens. -/
def tokensAtMost : ℕ → List α → List (τ × List α) × List α
  | 0, l => ([], l)
  | n + 1, l =>
    if T.window ≤ l.length then
      let later := tokensAtMost n (l.drop (T.cut l).2)
      (((T.cut l).1, l.take (T.cut l).2) :: later.1, later.2)
    else ([], l)

/-- The tokens of a stream and what is left at its end.  Each token uses up a
letter, so the length of the stream bounds their number. -/
def tokens (l : List α) : List (τ × List α) × List α := T.tokensAtMost l.length l

variable {T}

theorem tokensAtMost_of_short {l : List α} (h : ¬ T.window ≤ l.length) (n : ℕ) :
    T.tokensAtMost n l = ([], l) := by
  cases n with
  | zero => rfl
  | succ n => rw [tokensAtMost, if_neg h]

/-- A bound that is large enough is as good as any other. -/
theorem tokensAtMost_eq_tokens {n : ℕ} {l : List α} (h : l.length ≤ n) :
    T.tokensAtMost n l = T.tokens l := by
  induction n using Nat.strongRecOn generalizing l with
  | ind n ih =>
    by_cases hlen : T.window ≤ l.length
    swap
    · rw [tokens, tokensAtMost_of_short hlen, tokensAtMost_of_short hlen]
    have hwindow := T.window_pos
    have hpos := T.cut_pos l hlen
    obtain ⟨n', rfl⟩ : ∃ n', n = n' + 1 := ⟨n - 1, by omega⟩
    obtain ⟨k, hk⟩ : ∃ k, l.length = k + 1 := ⟨l.length - 1, by omega⟩
    have hdrop : (l.drop (T.cut l).2).length ≤ k := by
      rw [List.length_drop]
      omega
    rw [tokens, hk, tokensAtMost, tokensAtMost, if_pos hlen, if_pos hlen,
      ih n' (Nat.lt_succ_self n') (by omega), ih k (by omega) hdrop]

theorem tokens_of_short {l : List α} (h : ¬ T.window ≤ l.length) : T.tokens l = ([], l) :=
  tokensAtMost_of_short h _

theorem tokens_of_window_le {l : List α} (h : T.window ≤ l.length) :
    T.tokens l = (((T.cut l).1, l.take (T.cut l).2) :: (T.tokens (l.drop (T.cut l).2)).1,
      (T.tokens (l.drop (T.cut l).2)).2) := by
  have hwindow := T.window_pos
  have hpos := T.cut_pos l h
  obtain ⟨k, hk⟩ : ∃ k, l.length = k + 1 := ⟨l.length - 1, by omega⟩
  rw [tokens, hk, tokensAtMost, if_pos h, tokensAtMost_eq_tokens (by rw [List.length_drop]; omega)]

/-- **However the work was divided up, the tokens are those of the stream.** -/
theorem Tokenises.tokens_eq (h : T.Tokenises input ts rest) :
    T.tokens input = (ts ++ (T.tokens rest).1, (T.tokens rest).2) := by
  induction h with
  | start => rfl
  | token _ hlen ih =>
    rw [ih, tokens_of_window_le hlen, List.append_assoc]
    rfl

/-! ## Streams of words -/

/-- A token is cut off with just these letters from the front of any stream that
begins with them and is long enough. -/
def Cuts (T : GreedyTokeniser α τ) (word : τ × List α) : Prop :=
  ∀ l, T.window ≤ (word.2 ++ l).length → T.cut (word.2 ++ l) = (word.1, word.2.length)

/-- **A stream of words is taken apart into these words**, up to an end that is
shorter than the window.  The stream may break off inside a word. -/
theorem exists_tokens_eq_take {words : List (τ × List α)} (hcuts : ∀ word ∈ words, T.Cuts word)
    {l : List α} (hl : l <+: (words.map Prod.snd).flatten) :
    ∃ m, (T.tokens l).1 = words.take m := by
  induction words generalizing l with
  | nil =>
    obtain rfl := List.prefix_nil.mp hl
    have hshort : ¬ T.window ≤ ([] : List α).length := Nat.not_le.mpr T.window_pos
    exact ⟨0, congrArg Prod.fst (tokens_of_short hshort)⟩
  | cons word words ih =>
    by_cases hlen : T.window ≤ l.length
    swap
    · exact ⟨0, congrArg Prod.fst (tokens_of_short hlen)⟩
    rw [List.map_cons, List.flatten_cons] at hl
    have hcut := hcuts word List.mem_cons_self
    -- no token is longer than the window, so the first word does not break off
    have hfits : word.2.length ≤ l.length := by
      have hlong := Nat.le_trans hlen hl.length_le
      have hle := T.cut_le _ hlong
      rw [hcut _ hlong] at hle
      exact Nat.le_trans hle hlen
    obtain ⟨rest, rfl⟩ := List.prefix_of_prefix_length_le (List.prefix_append _ _) hl hfits
    obtain ⟨m, hm⟩ := ih (fun w hw => hcuts w (List.mem_cons_of_mem word hw))
      ((List.prefix_append_right_inj word.2).mp hl)
    refine ⟨m + 1, ?_⟩
    rw [tokens_of_window_le hlen, hcut rest hlen, List.drop_left, List.take_left, hm,
      List.take_succ_cons]

end GreedyTokeniser
end Stm32Adaptive
