import Stm32Adaptive.PeriodPattern

/-!
# The signal buffer

The class `sb::SignalBuffer`: a queue of received pulse lengths that refuses a
sample once five hundred are queued.  The bound is a field of the model, so it
holds in every state by construction; what has to be checked is that the four
operations can be written at all.

`pop_front` of an empty `std::deque` is undefined behaviour.  It is `none` here,
so that a caller has to show that it does not happen.
-/

namespace Stm32Adaptive

/-- The number of samples at which `push` refuses. -/
def signalBufferSize : ℕ := 500

/-- The class `SignalBuffer`. -/
structure SignalBuffer where
  /-- `_queue`, front first. -/
  queue : List UInt16
  /-- No more samples than `push` admits. -/
  length_le : queue.length ≤ signalBufferSize
  deriving DecidableEq

namespace SignalBuffer

theorem ext {b c : SignalBuffer} (h : b.queue = c.queue) : b = c := by
  cases b
  cases c
  simpa using h

/-- The constructor: an empty queue. -/
def empty : SignalBuffer := ⟨[], Nat.zero_le _⟩

/-- Append a sample unless the buffer is full. -/
def push (b : SignalBuffer) (val : UInt16) : SignalBuffer :=
  if h : b.queue.length ≥ signalBufferSize then b
  else ⟨b.queue ++ [val], by rw [List.length_append, List.length_singleton]; omega⟩

/-- The first `windowLength` samples, if that many are queued. -/
def getWindow (b : SignalBuffer) (windowLength : ℕ) : Option (Fin windowLength → UInt16) :=
  if h : b.queue.length < windowLength then none
  else some fun i => b.queue.get ⟨i.val, by have := i.isLt; omega⟩

/-- `_queue.pop_front()`. -/
def popFront (b : SignalBuffer) : Option SignalBuffer :=
  match h : b.queue with
  | [] => none
  | _ :: rest => some ⟨rest, by have := b.length_le; rw [h, List.length_cons] at this; omega⟩

/-- Drop `amount` samples from the front, one after the other. -/
def shiftReadHead (b : SignalBuffer) : ℕ → Option SignalBuffer
  | 0 => some b
  | amount + 1 => b.popFront.bind fun b' => b'.shiftReadHead amount

theorem queue_push_of_lt {b : SignalBuffer} (h : b.queue.length < signalBufferSize) (val : UInt16) :
    (b.push val).queue = b.queue ++ [val] := by
  rw [push, dif_neg (by omega)]

theorem push_of_full {b : SignalBuffer} (h : signalBufferSize ≤ b.queue.length) (val : UInt16) :
    b.push val = b := by
  rw [push, dif_pos h]

/-- The window is the front of the queue. -/
theorem getWindow_eq_some {b : SignalBuffer} {n : ℕ} (h : n ≤ b.queue.length) :
    b.getWindow n = some fun i => b.queue.getD i.val 0 := by
  rw [getWindow, dif_neg (by omega)]
  congr
  ext i : 1
  have hi := i.isLt
  exact (List.getD_eq_getElem _ _ (by omega)).symm

theorem getWindow_eq_none {b : SignalBuffer} {n : ℕ} (h : b.queue.length < n) :
    b.getWindow n = none := by
  rw [getWindow, dif_pos h]

theorem popFront_eq_some {b : SignalBuffer} (h : b.queue ≠ []) :
    ∃ b', b.popFront = some b' ∧ b'.queue = b.queue.tail := by
  unfold popFront
  split
  · exact absurd ‹_› h
  · rename_i x rest hq
    refine ⟨_, rfl, ?_⟩
    show rest = b.queue.tail
    rw [hq, List.tail_cons]

/-- **Shifting is defined exactly up to the queue length**, and drops that many
samples. -/
theorem shiftReadHead_eq_some {b : SignalBuffer} {amount : ℕ} (h : amount ≤ b.queue.length) :
    ∃ b', b.shiftReadHead amount = some b' ∧ b'.queue = b.queue.drop amount := by
  induction amount generalizing b with
  | zero => exact ⟨b, rfl, rfl⟩
  | succ amount ih =>
    have hne : b.queue ≠ [] := by
      rintro hnil
      rw [hnil, List.length_nil] at h
      omega
    obtain ⟨c, hc, hqueue⟩ := popFront_eq_some hne
    obtain ⟨d, hd, hdrop⟩ := ih (b := c) (by rw [hqueue, List.length_tail]; omega)
    refine ⟨d, ?_, ?_⟩
    · rw [shiftReadHead, hc, Option.bind_some, hd]
    · rw [hdrop, hqueue, List.drop_tail]

theorem queue_popFront {b b' : SignalBuffer} (h : b.popFront = some b') :
    b'.queue = b.queue.tail := by
  by_cases hne : b.queue = []
  · unfold popFront at h
    split at h
    · exact absurd h (Option.some_ne_none b').symm
    · rename_i x rest hq
      exact absurd (hq.symm.trans hne) (List.cons_ne_nil x rest)
  · obtain ⟨c, hc, hqueue⟩ := popFront_eq_some hne
    rw [Option.some.inj (h.symm.trans hc), hqueue]

/-- Where shifting is defined, it drops samples from the front. -/
theorem queue_shiftReadHead {b b' : SignalBuffer} {amount : ℕ}
    (h : b.shiftReadHead amount = some b') : b'.queue = b.queue.drop amount := by
  induction amount generalizing b with
  | zero => rw [← Option.some.inj h, List.drop_zero]
  | succ amount ih =>
    obtain ⟨c, hc, hrest⟩ := Option.bind_eq_some_iff.mp h
    rw [ih hrest, queue_popFront hc, List.drop_tail]

end SignalBuffer
end Stm32Adaptive
