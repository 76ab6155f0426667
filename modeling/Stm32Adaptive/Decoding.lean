import Stm32Adaptive.MatchWindow
import Stm32Adaptive.Receiver

/-!
# Decoding patterns that were sent

The receiver takes the least stored pattern that matches the front of the queue.
What it makes of a sequence of transmitted patterns depends on the table alone:
if any two stored patterns have a position at which no sample suits both, then the
only stored pattern that matches a received pattern is the one that was sent,
whatever follows it.

Such a table is called separate (`PeriodPattern.Separate`, which can be computed).
For a separate table every received pattern is a word of the receiver's tokeniser
(`cuts_of_receives`), and so in every run the results are the indices that were
sent, in order and without a gap (`receiver_decodes`).  Fewer than eight samples
stay behind: the window is not filled for the last patterns of a message.
-/

namespace Stm32Adaptive

open FlashMemory Flash Ic Runs

namespace PeriodPattern

/-! ## Separate patterns -/

/-- At some position that both patterns have, the bounds leave no sample that suits
both. -/
def Separate (p q : PeriodPattern) : Prop :=
  ∃ i : Fin 8, i.val < p.getLength ∧ i.val < q.getLength ∧
    (upperBound (p.periods i) p.toleranceMul255 < lowerBound (q.periods i) q.toleranceMul255 ∨
      upperBound (q.periods i) q.toleranceMul255 < lowerBound (p.periods i) p.toleranceMul255)

instance (p q : PeriodPattern) : Decidable (Separate p q) :=
  inferInstanceAs (Decidable (∃ _, _))

theorem Separate.symm {p q : PeriodPattern} (h : p.Separate q) : q.Separate p := by
  obtain ⟨i, hp, hq, hbounds⟩ := h
  exact ⟨i, hq, hp, hbounds.symm⟩

/-- The samples of one transmission of the pattern: as many as it has periods, and
it matches them. -/
structure Receives (p : PeriodPattern) (samples : List UInt16) : Prop where
  length_eq : samples.length = p.getLength
  matches_front : p.matchWindow (frontWindow samples) = true

variable {p q : PeriodPattern} {samples : List UInt16}

/-- Inside the received samples the window does not depend on what follows. -/
theorem frontWindow_append_of_lt {i : Fin 8} (hi : i.val < samples.length) (l : List UInt16) :
    frontWindow (samples ++ l) i = frontWindow samples i :=
  List.getD_append _ _ _ _ hi

theorem accepts_congr {w w' : Window} {i : Fin 8} (h : w i = w' i) :
    p.Accepts w i ↔ p.Accepts w' i := by
  rw [Accepts, Accepts, h]

/-- **A received pattern matches, whatever follows it.** -/
theorem Receives.matchWindow_append (h : p.Receives samples) (l : List UInt16) :
    p.matchWindow (frontWindow (samples ++ l)) = true := by
  obtain ⟨hone, haccepts⟩ := matchWindow_eq_true_iff.mp h.matches_front
  refine matchWindow_eq_true_iff.mpr ⟨hone, fun i hi => ?_⟩
  have hsame := frontWindow_append_of_lt (i := i) (by rwa [h.length_eq]) l
  exact (accepts_congr hsame).mpr (haccepts i hi)

/-- No sample suits both patterns at the position that separates them. -/
theorem not_accepts_of_lt {w : Window} {i : Fin 8}
    (hlt : upperBound (p.periods i) p.toleranceMul255 <
      lowerBound (q.periods i) q.toleranceMul255) (hp : p.Accepts w i) : ¬ q.Accepts w i := by
  intro hq
  have hupper := (le_upperBound_iff (w i) (p.periods i) p.toleranceMul255).mpr hp.2.1
  have hlower := (lowerBound_le_iff (w i) (q.periods i) q.toleranceMul255).mpr hq.2.2
  rw [UInt32.le_iff_toNat_le] at hupper hlower
  rw [UInt32.lt_iff_toNat_lt] at hlt
  omega

/-- **A separate pattern does not match what was sent for another one**, whatever
follows. -/
theorem Receives.matchWindow_append_eq_false (h : p.Receives samples) (hsep : p.Separate q)
    (l : List UInt16) : q.matchWindow (frontWindow (samples ++ l)) = false := by
  obtain ⟨i, hp, hq, hbounds⟩ := hsep
  have haccepts := (matchWindow_eq_true_iff.mp (h.matchWindow_append l)).2 i hp
  rw [Bool.eq_false_iff]
  intro hmatch
  have hother := (matchWindow_eq_true_iff.mp hmatch).2 i hq
  rcases hbounds with hlt | hlt
  · exact not_accepts_of_lt hlt haccepts hother
  · exact not_accepts_of_lt hlt hother haccepts

end PeriodPattern

/-! ## Stored tables -/

/-- The loop over the stored patterns finds the table `ps`. -/
structure Stores (flash : Memory) (ps : List PeriodPattern) : Prop where
  padded : Padded flash
  stored : ∀ i : ℕ, storedPattern flash i = ps[i]?

/-- What `savePatterns` leaves is stored. -/
theorem stores_savePatterns {ps : List PeriodPattern} (hfit : Fits ps.length)
    (hpad : ∀ p ∈ ps, p.padding = 0) (flash : Memory) :
    Stores (Flash.apply (savePatterns ps ps.length) flash) ps where
  padded := padded_savePatterns hfit hpad flash
  stored i := by
    rcases Nat.lt_or_ge i ps.length with hlt | hge
    · rw [storedPattern_savePatterns hfit hpad flash i hlt, List.getElem?_eq_getElem hlt]
    · have hnull := getPattern_savePatterns_eq_none hfit hpad flash (n := (i : ℤ))
        (Or.inr (by exact_mod_cast hge))
      rw [storedPattern, hnull, List.getElem?_eq_none hge]
      rfl

variable {flash : Memory} {ps : List PeriodPattern}

theorem Stores.lt_256 (h : Stores flash ps) {i : ℕ} {p : PeriodPattern} (hp : ps[i]? = some p) :
    i < 256 := by
  rw [← h.stored] at hp
  obtain ⟨addr, haddr, -⟩ := Option.map_eq_some_iff.mp hp
  have := lt_of_getPattern haddr
  omega

/-- **A received pattern is a word of the receiver.** -/
theorem cuts_of_receives (h : Stores flash ps) (hsep : ps.Pairwise PeriodPattern.Separate) {i : ℕ}
    {p : PeriodPattern} (hp : ps[i]? = some p) {samples : List UInt16}
    (hreceives : p.Receives samples) :
    (receiverTokeniser flash).Cuts ((i : ℤ), samples) := by
  intro l _
  have hstored : storedPattern flash (i : ℕ) = some p := (h.stored i).trans hp
  have hfind : (List.range 256).find? (matchesAt flash (frontWindow (samples ++ l))) = some i := by
    rw [List.find?_range_eq_some]
    refine ⟨matchesAt_eq_true_iff.mpr ⟨p, hstored, hreceives.matchWindow_append l⟩,
      List.mem_range.mpr (h.lt_256 hp), fun j hj => ?_⟩
    rw [Bool.not_eq_true', Bool.eq_false_iff]
    intro hmatch
    obtain ⟨q, hq, hqmatch⟩ := matchesAt_eq_true_iff.mp hmatch
    rw [h.stored] at hq
    obtain ⟨hjlt, hjq⟩ := List.getElem?_eq_some_iff.mp hq
    obtain ⟨hilt, hip⟩ := List.getElem?_eq_some_iff.mp hp
    have hpair := List.pairwise_iff_getElem.mp hsep j i hjlt hilt hj
    rw [hjq, hip] at hpair
    rw [hreceives.matchWindow_append_eq_false hpair.symm l] at hqmatch
    exact absurd hqmatch Bool.false_ne_true
  show cutFront flash (samples ++ l) = _
  simp only [cutFront, hfind, storedLength, hstored, hreceives.length_eq]

/-! ## Received messages -/

/-- A message as it is received: for each index the samples of its pattern. -/
def ReceivedAs (ps : List PeriodPattern) (message : List (ℕ × List UInt16)) : Prop :=
  ∀ word ∈ message, ∃ p, ps[word.1]? = some p ∧ p.Receives word.2

/-- The message as words of the receiver. -/
def words (message : List (ℕ × List UInt16)) : List (ℤ × List UInt16) :=
  message.map fun word => ((word.1 : ℤ), word.2)

theorem samples_words (message : List (ℕ × List UInt16)) :
    (words message).map Prod.snd = message.map Prod.snd := by
  rw [words, List.map_map]
  rfl

/-- Tokens at the front of a received message are the beginning of the message. -/
theorem exists_eq_words_take (hstores : Stores flash ps)
    (hsep : ps.Pairwise PeriodPattern.Separate) {message : List (ℕ × List UInt16)}
    (hmessage : ReceivedAs ps message) {samples : List UInt16}
    (hsamples : samples <+: (message.map Prod.snd).flatten)
    {segments : List (ℤ × List UInt16)} (hpre : segments <+:
      ((receiverTokeniser flash).tokens samples).1) :
    ∃ m, segments = words (message.take m) := by
  have hcuts : ∀ word ∈ words message, (receiverTokeniser flash).Cuts word := by
    intro word hword
    obtain ⟨⟨i, samples⟩, hmem, rfl⟩ := List.mem_map.mp hword
    obtain ⟨p, hp, hreceives⟩ := hmessage _ hmem
    exact cuts_of_receives hstores hsep hp hreceives
  rw [← samples_words] at hsamples
  obtain ⟨m, hm⟩ := GreedyTokeniser.exists_tokens_eq_take hcuts hsamples
  refine ⟨segments.length, ?_⟩
  have hwords : segments <+: words message := hpre.trans (hm ▸ List.take_prefix m _)
  rw [words, List.map_take]
  exact List.prefix_iff_eq_take.mp hwords

/-- In a state of a run the segments are the beginning of the message. -/
theorem Receiver.Tokenised.segments_eq (hstores : Stores flash ps)
    (hsep : ps.Pairwise PeriodPattern.Separate) {message : List (ℕ × List UInt16)}
    (hmessage : ReceivedAs ps message) {r : Receiver} (h : Tokenised flash r)
    (haccepted : r.accepted <+: (message.map Prod.snd).flatten) :
    ∃ m, r.segments = words (message.take m) := by
  refine exists_eq_words_take hstores hsep hmessage haccepted ?_
  rw [h.tokenises.tokens_eq]
  exact List.prefix_append _ _

/-- **What is received is what was sent.**  Let the stored table be separate, and let
the samples accepted in a run be those of a message, each pattern within its
tolerances; the message may break off.  Then the results so far are the first indices
of the message, with the samples that belong to them, and the queue holds what is left
of the samples.  If nothing more is pushed, calls made after the delay bring the
decoding to fewer than eight samples of the end. -/
theorem receiver_decodes (hstores : Stores flash ps) (hsep : ps.Pairwise PeriodPattern.Separate)
    {ic : Ic} (hempty : ic.signalBuffer.queue = []) {systick : UInt64} {es : List ReceiverEvent}
    {r : Receiver} (hrun : run (Receiver.step flash) (Receiver.start ic systick) es = some r)
    {message : List (ℕ × List UInt16)} (hmessage : ReceivedAs ps message)
    (haccepted : r.accepted <+: (message.map Prod.snd).flatten) :
    (∃ m, r.segments = words (message.take m) ∧
      r.accepted = ((message.take m).map Prod.snd).flatten ++ r.queue) ∧
    ∀ es', (∀ v, .push v ∉ es') → Along (Receiver.step flash) Receiver.QuietCalls r es' →
      r.queue.length ≤ es'.count .processSignals →
      ∃ r' m, run (Receiver.step flash) r es' = some r' ∧ r'.segments = words (message.take m) ∧
        r.accepted = ((message.take m).map Prod.snd).flatten ++ r'.queue ∧
        r'.queue.length < 8 := by
  have hinv : Receiver.Tokenised flash r := by
    obtain ⟨r₁, hr₁, hinv⟩ := exists_run (Receiver.exists_step hstores.padded)
      (Receiver.tokenised_start hempty systick) es
    rwa [Option.some.inj (hrun.symm.trans hr₁)]
  have hsplit : ∀ {r' : Receiver} {m : ℕ}, Receiver.Tokenised flash r' →
      r'.segments = words (message.take m) →
      r'.accepted = ((message.take m).map Prod.snd).flatten ++ r'.queue := by
    intro r' m hr' hsegments
    rw [← samples_words, ← hsegments]
    exact hr'.tokenises.flatten_append
  constructor
  · obtain ⟨m, hm⟩ := hinv.segments_eq hstores hsep hmessage haccepted
    exact ⟨m, hm, hsplit hinv hm⟩
  · intro es' hpush hquiet hcount
    obtain ⟨r', hrun', hinv'⟩ := exists_run (Receiver.exists_step hstores.padded) hinv es'
    obtain ⟨hacc, hlen⟩ := Receiver.length_queue_of_run hstores.padded hpush hquiet hrun'
    obtain ⟨m, hm⟩ := hinv'.segments_eq hstores hsep hmessage (by rwa [hacc])
    refine ⟨r', m, hrun', hm, ?_, by omega⟩
    rw [← hacc]
    exact hsplit hinv' hm

/-! ## The protocol of the host script -/

/-- The patterns of the host script: a sync bit, a zero and a one. -/
def syncZeroOne : List PeriodPattern :=
  [⟨0, ![360, 11160, 0, 0, 0, 0, 0, 0], 76⟩, ⟨0, ![360, 1080, 360, 1080, 0, 0, 0, 0], 76⟩,
    ⟨0, ![360, 1080, 1080, 360, 0, 0, 0, 0], 76⟩]

/-- They are separate. -/
theorem pairwise_separate_syncZeroOne : syncZeroOne.Pairwise PeriodPattern.Separate := by decide

/-- A chip that stores them. -/
def syncZeroOneFlash : Memory := Flash.apply (savePatterns syncZeroOne syncZeroOne.length) blank

theorem stores_syncZeroOneFlash : Stores syncZeroOneFlash syncZeroOne :=
  stores_savePatterns (by decide) (by decide) blank

/-- A sync bit, a one and a zero, received with some noise. -/
def noisyMessage : List (ℕ × List UInt16) :=
  [(0, [371, 11020]), (2, [355, 1099, 1010, 402]), (1, [340, 1100, 380, 1060])]

theorem receivedAs_noisyMessage : ReceivedAs syncZeroOne noisyMessage := by
  intro word hword
  simp only [noisyMessage, List.mem_cons, List.not_mem_nil, or_false] at hword
  rcases hword with rfl | rfl | rfl
  · exact ⟨_, rfl, by decide, by decide⟩
  · exact ⟨_, rfl, by decide, by decide⟩
  · exact ⟨_, rfl, by decide, by decide⟩

/-- All of it is pushed, and two calls follow a second later. -/
theorem receiver_decodes_noisyMessage :
    ∃ r m, run (Receiver.step syncZeroOneFlash) (Receiver.start Ic.initial 0)
        ((noisyMessage.map Prod.snd).flatten.map ReceiverEvent.push ++
          [.clock 1000, .processSignals, .processSignals]) = some r ∧
      r.segments = words (noisyMessage.take m) := by
  have hrun : (run (Receiver.step syncZeroOneFlash) (Receiver.start Ic.initial 0)
      ((noisyMessage.map Prod.snd).flatten.map ReceiverEvent.push ++
        [.clock 1000, .processSignals, .processSignals])).map Receiver.accepted =
      some (noisyMessage.map Prod.snd).flatten := by decide
  obtain ⟨r, hr, haccepted⟩ := Option.map_eq_some_iff.mp hrun
  obtain ⟨⟨m, hm, -⟩, -⟩ := receiver_decodes stores_syncZeroOneFlash pairwise_separate_syncZeroOne
    rfl hr receivedAs_noisyMessage (haccepted ▸ List.prefix_rfl)
  exact ⟨r, m, hr, hm⟩

end Stm32Adaptive
