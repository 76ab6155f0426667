import Mathlib.Data.List.Basic

/-!
# Reading from a queue that is still being filled

A program reads items from a queue and waits when it is empty; in the meantime an
interrupt handler appends to it.  Which items the program gets to see first depends on
the timing, but not what it makes of them.

`Stage` is where the program stands: it waits for an item, or it has read what it needs.
`reads` runs it on a list.  An `Inbox` is a state with a queue, and an environment that
only appends to the queue and does not look at it.  `Delayed u s p q` compares two
executions: in `u` all the environment has done has been done, and the program stands at
`p` still; in `s` the program has read on to `q`.  The relation survives whatever the
environment does (`Delayed.environment`) and whatever the program reads
(`Delayed.read`), and when the program is ready it is as if it had read everything at
once, at the end (`Delayed.ready`).
-/

namespace Stm32Adaptive

/-- Where a program stands that reads items one after another. -/
inductive Stage (Q A : Type*) where
  | waits (q : Q)
  | ready (a : A)

namespace DelayedReads

variable {Q A β σ ε : Type*} (next : Q → β → Stage Q A)

/-- What the program makes of a list of items, and what it leaves; `none` if it waits
for more. -/
def reads : Stage Q A → List β → Option (A × List β)
  | .ready a, l => some (a, l)
  | .waits _, [] => none
  | .waits q, c :: l => reads (next q c) l

@[simp] theorem reads_ready (a : A) (l : List β) : reads next (.ready a) l = some (a, l) := by
  cases l <;> rfl

@[simp] theorem reads_waits_cons (q : Q) (c : β) (l : List β) :
    reads next (.waits q) (c :: l) = reads next (next q c) l := rfl

@[simp] theorem reads_waits_nil (q : Q) : reads next (.waits q) [] = none := rfl

variable {next}

/-- What comes later is left. -/
theorem reads_append {p : Stage Q A} {l rest : List β} {a : A}
    (h : reads next p l = some (a, rest)) (m : List β) :
    reads next p (l ++ m) = some (a, rest ++ m) := by
  induction l generalizing p with
  | nil =>
    cases p with
    | waits q => exact absurd h.symm (Option.some_ne_none _)
    | ready b =>
      obtain ⟨rfl, rfl⟩ := Prod.mk.inj (Option.some.inj h)
      exact reads_ready next b m
  | cons c l ih =>
    cases p with
    | waits q => exact ih h
    | ready b =>
      obtain ⟨rfl, rfl⟩ := Prod.mk.inj (Option.some.inj h)
      rfl

/-- Nothing is left that was not there. -/
theorem length_le_of_reads {p : Stage Q A} {l rest : List β} {a : A}
    (h : reads next p l = some (a, rest)) : rest.length ≤ l.length := by
  induction l generalizing p with
  | nil =>
    cases p with
    | waits q => exact absurd h.symm (Option.some_ne_none _)
    | ready b => exact (Prod.mk.inj (Option.some.inj h)).2 ▸ Nat.le_refl _
  | cons c l ih =>
    cases p with
    | waits q => exact Nat.le_succ_of_le (ih h)
    | ready b => exact (Prod.mk.inj (Option.some.inj h)).2 ▸ Nat.le_refl _

/-- **Where the reading stops is decided by what is read.**  A program that takes just
`frame` waits for the rest of it if it gets a beginning of it only. -/
theorem reads_eq_none_of_isPrefix {p : Stage Q A} {frame l : List β} {a : A}
    (h : reads next p frame = some (a, [])) (hpre : l <+: frame) (hne : l ≠ frame) :
    reads next p l = none := by
  obtain ⟨m, rfl⟩ := hpre
  by_contra hsome
  obtain ⟨⟨b, rest⟩, hl⟩ := Option.ne_none_iff_exists'.mp hsome
  have hrest := (Prod.mk.inj (Option.some.inj ((reads_append hl m).symm.trans h))).2
  rw [(List.append_eq_nil_iff.mp hrest).2, List.append_nil] at hne
  exact hne rfl

/-- A state with a queue of items, and what else may happen to it. -/
structure Inbox (σ β ε : Type*) where
  queue : σ → List β
  /-- The state with another queue. -/
  feed : σ → List β → σ
  env : σ → ε → Option σ
  queue_feed : ∀ s l, queue (feed s l) = l
  feed_feed : ∀ s l l', feed (feed s l) l' = feed s l'
  feed_queue : ∀ s, feed s (queue s) = s
  /-- The environment appends to the queue, whatever is in it. -/
  env_feed : ∀ s e t, env s e = some t →
    ∃ arrivals, queue t = queue s ++ arrivals ∧
      ∀ l, env (feed s l) e = some (feed t (l ++ arrivals))

variable (I : Inbox σ β ε)

/-- The state `s` is `u` without the items that lead the program from `p` to `q`. -/
structure Delayed (next : Q → β → Stage Q A) (u s : σ) (p q : Stage Q A) : Prop where
  eq_feed : u = I.feed s (I.queue u)
  taken : ∃ items, I.queue u = items ++ I.queue s
  reads_eq : ∀ l, reads next p (I.queue u ++ l) = reads next q (I.queue s ++ l)

variable {I} {u s s' : σ} {p q : Stage Q A}

theorem Delayed.start (s : σ) (p : Stage Q A) : Delayed I next s s p p :=
  ⟨(I.feed_queue s).symm, ⟨[], rfl⟩, fun _ => rfl⟩

/-- **The environment does not notice the difference.** -/
theorem Delayed.environment (h : Delayed I next u s p q) {e : ε} (he : I.env s e = some s') :
    ∃ u', I.env u e = some u' ∧ Delayed I next u' s' p q := by
  obtain ⟨arrivals, hqueue, hfeed⟩ := I.env_feed s e s' he
  obtain ⟨items, hitems⟩ := h.taken
  refine ⟨I.feed s' (I.queue u ++ arrivals), ?_, ?_, ⟨items, ?_⟩, fun l => ?_⟩
  · rw [h.eq_feed, I.queue_feed]
    exact hfeed _
  · rw [I.queue_feed]
  · rw [I.queue_feed, hitems, hqueue, List.append_assoc]
  · rw [I.queue_feed, hqueue, List.append_assoc, List.append_assoc]
    exact h.reads_eq _

/-- **The program reads an item.** -/
theorem Delayed.read {c : β} {rest : List β} {w : Q} (h : Delayed I next u s p (.waits w))
    (hqueue : I.queue s = c :: rest) : Delayed I next u (I.feed s rest) p (next w c) := by
  obtain ⟨items, hitems⟩ := h.taken
  refine ⟨?_, ⟨items ++ [c], ?_⟩, fun l => ?_⟩
  · rw [I.feed_feed]
    exact h.eq_feed
  · rw [hitems, hqueue, I.queue_feed, List.append_assoc, List.singleton_append]
  · rw [h.reads_eq, hqueue, I.queue_feed]
    rfl

/-- **A program that is ready might have read everything now.** -/
theorem Delayed.ready {a : A} (h : Delayed I next u s p (.ready a)) :
    reads next p (I.queue u) = some (a, I.queue s) ∧ s = I.feed u (I.queue s) := by
  constructor
  · have hreads := h.reads_eq []
    rwa [List.append_nil, List.append_nil, reads_ready] at hreads
  · rw [h.eq_feed, I.feed_feed, I.feed_queue]

/-- **A program that waits at an empty queue would wait in any case.** -/
theorem Delayed.waits {w : Q} (h : Delayed I next u s p (.waits w)) (hqueue : I.queue s = []) :
    reads next p (I.queue u) = none := by
  have hreads := h.reads_eq []
  rwa [List.append_nil, List.append_nil, hqueue] at hreads

end DelayedReads
end Stm32Adaptive
