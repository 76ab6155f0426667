import Mathlib.Data.Bool.Basic
import Mathlib.Data.List.Range
import Mathlib.Logic.Function.Basic
import Stm32Adaptive.Library.Runs

/-!
# Double buffers

Two buffers, one in front and one behind.  A writer fills the one behind and
raises a flag; a reader that finds the flag raised swaps the two, clears the flag
and reads the front.  The point of the arrangement is that the reader gets the
writer's last value, complete.

There are two questions, and the answers differ.

* If the reader comes between whole writes, the arrangement always works.  The
  invariant `Holds` says where the last written value is, and every operation
  keeps it.
* If the reader may come between the single stores of a write, it works as long
  as the flag is down whenever the reader falls inside a write.  A second write
  that starts before the first has been taken over fills the same buffer again,
  and a reader that comes then swaps it to the front half-written.
  `along_readerOk_iff` makes this an equivalence over whole runs.
-/

namespace Stm32Adaptive
namespace DoubleBuffer

variable {α β : Type*}

/-- Two buffers with contents in `β`, the one in front, and the flag. -/
structure Buffers (β : Type*) where
  front : Bool
  fresh : Bool
  content : Bool → β

namespace Buffers

/-- The reader's operation: swap if the flag is up. -/
def take (b : Buffers β) : Buffers β :=
  if b.fresh then { b with front := !b.front, fresh := false } else b

/-- The content the reader gets to see. -/
def shown (b : Buffers β) : β := b.content b.front

/-- Replace the content of one buffer. -/
def update (b : Buffers β) (target : Bool) (x : β) : Buffers β :=
  { b with content := Function.update b.content target x }

/-- The writer's operation, as one step. -/
def publish (b : Buffers β) (x : β) : Buffers β :=
  { b.update (!b.front) x with fresh := true }

@[simp] theorem content_take (b : Buffers β) : b.take.content = b.content := by
  unfold take
  split <;> rfl

@[simp] theorem fresh_take (b : Buffers β) : b.take.fresh = false := by
  unfold take
  split
  · rfl
  · exact Bool.eq_false_iff.mpr ‹_›

theorem take_of_not_fresh {b : Buffers β} (h : b.fresh = false) : b.take = b := by
  rw [take, if_neg (by rw [h]; exact Bool.false_ne_true)]

theorem front_take_of_fresh {b : Buffers β} (h : b.fresh = true) : b.take.front = !b.front := by
  rw [take, if_pos h]

theorem shown_take_of_fresh {b : Buffers β} (h : b.fresh = true) :
    b.take.shown = b.content (!b.front) := by
  rw [shown, content_take, front_take_of_fresh h]

/-- Writing behind leaves the front alone. -/
theorem shown_update (b : Buffers β) (x : β) : (b.update (!b.front) x).shown = b.shown :=
  Function.update_of_ne (Bool.self_ne_not b.front) _ _

theorem shown_publish (b : Buffers β) (x : β) : (b.publish x).shown = b.shown :=
  b.shown_update x

/-! ### Whole writes -/

/-- The last written value, if there is one, is behind when the flag is up and
in front when it is down. -/
def Holds (b : Buffers β) (last : Option β) : Prop :=
  ∀ x, last = some x → if b.fresh then b.content (!b.front) = x else b.shown = x

theorem holds_none (b : Buffers β) : b.Holds none := fun x h => absurd h (by simp)

theorem holds_publish (b : Buffers β) (x : β) : (b.publish x).Holds (some x) := by
  intro y hy
  obtain rfl := Option.some.inj hy
  exact (if_pos rfl).mpr (Function.update_self _ _ _)

/-- **After the reader's operation the front holds the last written value.** -/
theorem Holds.shown_take {b : Buffers β} {last : Option β} (h : b.Holds last) {x : β}
    (hx : last = some x) : b.take.shown = x := by
  have hlast := h x hx
  cases hfresh : b.fresh with
  | true =>
    rw [hfresh, if_pos rfl] at hlast
    rw [shown_take_of_fresh hfresh, hlast]
  | false =>
    rw [hfresh, if_neg Bool.false_ne_true] at hlast
    rw [take_of_not_fresh hfresh, hlast]

theorem Holds.take {b : Buffers β} {last : Option β} (h : b.Holds last) : b.take.Holds last := by
  intro x hx
  rw [fresh_take, if_neg Bool.false_ne_true]
  exact h.shown_take hx

end Buffers

/-! ## Writes in single stores -/

/-- A write as a sequence of stores: storing `a` is `stores` steps, and together
they make any buffer the encoding of `a`. -/
structure Encoder (α β : Type*) where
  stores : ℕ
  store : α → ℕ → β → β
  encode : α → β
  complete : ∀ a x, (List.range stores).foldl (fun y k => store a k y) x = encode a

/-- A buffer after the first `k` stores of a write. -/
def Encoder.partly (w : Encoder α β) (a : α) (k : ℕ) (x : β) : β :=
  (List.range k).foldl (fun y k => w.store a k y) x

theorem Encoder.partly_succ (w : Encoder α β) (a : α) (k : ℕ) (x : β) :
    w.partly a (k + 1) x = w.store a k (w.partly a k x) := by
  rw [partly, List.range_succ, List.foldl_append]
  rfl

/-- Where the writer is: between two writes, or inside one with its target chosen
and some stores done. -/
inductive Pc (α : Type*) where
  | idle
  | writing (a : α) (target : Bool) (done : ℕ)

theorem Pc.writing_ne_idle (a : α) (target : Bool) (done : ℕ) : Pc.writing a target done ≠ .idle :=
  nofun

/-- Writer and reader with their buffers. -/
structure State (α β : Type*) where
  buffers : Buffers β
  pc : Pc α
  /-- The values still to be written. -/
  pending : List α
  /-- The last value whose write was completed. -/
  last : Option α

/-- Who moves. -/
inductive Tick where
  | writer
  | reader
  deriving DecidableEq

/-- One move of the writer: choose the buffer behind as target, store into it, or
raise the flag; or the reader's operation. -/
def move (w : Encoder α β) (s : State α β) : Tick → State α β
  | .writer =>
    match s.pc with
    | .idle =>
      match s.pending with
      | [] => s
      | a :: rest => { s with pc := .writing a (!s.buffers.front) 0, pending := rest }
    | .writing a target done =>
      if done < w.stores then
        { s with
          buffers := s.buffers.update target (w.store a done (s.buffers.content target))
          pc := .writing a target (done + 1) }
      else { s with buffers := { s.buffers with fresh := true }, pc := .idle, last := some a }
  | .reader => { s with buffers := s.buffers.take }

/-- Every move is possible in every state. -/
def step (w : Encoder α β) (s : State α β) (t : Tick) : Option (State α β) := some (move w s t)

/-- **The reader is served well**: it does not get the buffer being written, what
it gets is a complete encoding, and between two writes it is the encoding of the
last value. -/
def ReaderOk (w : Encoder α β) (s : State α β) (t : Tick) : Prop :=
  t = .reader →
    (∀ a target done, s.pc = .writing a target done → s.buffers.take.front ≠ target) ∧
    (∃ a, s.buffers.take.shown = w.encode a) ∧
    (s.pc = .idle → ∀ a, s.last = some a → s.buffers.take.shown = w.encode a)

/-- The reader comes when a value has been written, and inside a write only when
the flag is down. -/
def Settled (s : State α β) (t : Tick) : Prop :=
  t = .reader → s.last ≠ none ∧ (s.pc ≠ .idle → s.buffers.fresh = false)

/-- **The invariant.**  A write in progress goes to the buffer behind; before the
first completed write the flag is down and the front is no encoding; afterwards
the last value is in front when the flag is down, and behind when the flag is up
and nothing is being written. -/
structure Inv (w : Encoder α β) (s : State α β) : Prop where
  target : ∀ a target done, s.pc = .writing a target done →
    target = !s.buffers.front ∧ done ≤ w.stores ∧
      ∃ x, s.buffers.content target = w.partly a done x
  before : s.last = none → s.buffers.fresh = false ∧ ∀ a, w.encode a ≠ s.buffers.shown
  clean : ∀ a, s.last = some a → s.buffers.fresh = false → s.buffers.shown = w.encode a
  dirty : ∀ a, s.last = some a → s.buffers.fresh = true → s.pc = .idle →
    s.buffers.content (!s.buffers.front) = w.encode a

variable {w : Encoder α β} {s : State α β}

/-- What a move of the writer can be: a write begins, unless nothing is left to be
written; a value is stored; or the flag is raised. -/
theorem move_writer_cases (w : Encoder α β) (s : State α β) :
    (s.pc = .idle ∧ (move w s .writer).buffers = s.buffers ∧ (move w s .writer).last = s.last ∧
      ((s.pending = [] ∧ (move w s .writer).pc = .idle) ∨
        ∃ a rest, s.pending = a :: rest ∧
          (move w s .writer).pc = .writing a (!s.buffers.front) 0)) ∨
    (∃ a target done, s.pc = .writing a target done ∧ done < w.stores ∧
      (move w s .writer).buffers =
        s.buffers.update target (w.store a done (s.buffers.content target)) ∧
      (move w s .writer).pc = .writing a target (done + 1) ∧
      (move w s .writer).last = s.last) ∨
    (∃ a target done, s.pc = .writing a target done ∧ w.stores ≤ done ∧
      (move w s .writer).buffers = { s.buffers with fresh := true } ∧
      (move w s .writer).pc = .idle ∧ (move w s .writer).last = some a) := by
  obtain ⟨buffers, pc, pending, last⟩ := s
  cases pc with
  | idle =>
    cases pending with
    | nil => exact Or.inl ⟨rfl, rfl, rfl, Or.inl ⟨rfl, rfl⟩⟩
    | cons a rest => exact Or.inl ⟨rfl, rfl, rfl, Or.inr ⟨a, rest, rfl, rfl⟩⟩
  | writing a target done =>
    rcases Nat.lt_or_ge done w.stores with hmore | hall
    · have hstore : move w ⟨buffers, .writing a target done, pending, last⟩ .writer =
          ⟨buffers.update target (w.store a done (buffers.content target)),
            .writing a target (done + 1), pending, last⟩ := if_pos hmore
      rw [hstore]
      exact Or.inr (Or.inl ⟨a, target, done, rfl, hmore, rfl, rfl, rfl⟩)
    · have hraise : move w ⟨buffers, .writing a target done, pending, last⟩ .writer =
          ⟨{ buffers with fresh := true }, .idle, pending, some a⟩ := if_neg (not_lt.mpr hall)
      rw [hraise]
      exact Or.inr (Or.inr ⟨a, target, done, rfl, hall, rfl, rfl, rfl⟩)

/-- The selector is the reader's. -/
theorem front_move_writer (w : Encoder α β) (s : State α β) :
    (move w s .writer).buffers.front = s.buffers.front := by
  rcases move_writer_cases w s with ⟨-, h, -⟩ | ⟨_, _, _, -, -, h, -⟩ | ⟨_, _, _, -, -, h, -⟩
  · rw [h]
  · exact (congrArg Buffers.front h).trans rfl
  · exact (congrArg Buffers.front h).trans rfl

/-- No write in progress goes to the front. -/
def Clear (s : State α β) : Prop :=
  ∀ a target done, s.pc = .writing a target done → target = !s.buffers.front

/-- **A front that is clear stays as it is**, whatever the writer does. -/
theorem Clear.writer (h : Clear s) :
    Clear (move w s .writer) ∧ (move w s .writer).buffers.shown = s.buffers.shown := by
  unfold Clear
  rw [front_move_writer]
  rcases move_writer_cases w s with ⟨-, hbuffers, -, ⟨-, hpc⟩ | ⟨a, -, -, hpc⟩⟩ |
    ⟨a, target, done, hwriting, -, hbuffers, hpc, -⟩ | ⟨_, _, _, -, -, hbuffers, hpc, -⟩
  · rw [hbuffers, hpc]
    exact ⟨fun _ _ _ hw => absurd hw.symm (Pc.writing_ne_idle _ _ _), rfl⟩
  · rw [hbuffers, hpc]
    refine ⟨fun b target' done' hw => ?_, rfl⟩
    obtain ⟨-, rfl, -⟩ := Pc.writing.inj hw
    rfl
  · obtain rfl := h a target done hwriting
    rw [hbuffers, hpc, Buffers.shown_update]
    refine ⟨fun b target' done' hw => ?_, rfl⟩
    obtain ⟨-, rfl, -⟩ := Pc.writing.inj hw
    rfl
  · rw [hbuffers, hpc]
    exact ⟨fun _ _ _ hw => absurd hw.symm (Pc.writing_ne_idle _ _ _), rfl⟩

/-- The buffer of a write in progress holds what has been stored so far. -/
def Writes (w : Encoder α β) (s : State α β) : Prop :=
  ∀ a target done, s.pc = .writing a target done →
    done ≤ w.stores ∧ ∃ x, s.buffers.content target = w.partly a done x

/-- Whoever moves, and whatever is in front. -/
theorem Writes.move (h : Writes w s) (t : Tick) : Writes w (DoubleBuffer.move w s t) := by
  cases t with
  | reader =>
    intro a target done hpc
    rw [DoubleBuffer.move, Buffers.content_take]
    exact h a target done hpc
  | writer =>
    intro b target' done' hw
    rcases move_writer_cases w s with ⟨-, -, -, ⟨-, hpc⟩ | ⟨a, -, -, hpc⟩⟩ |
      ⟨a, target, done, hwriting, hmore, hbuffers, hpc, -⟩ | ⟨_, _, _, -, -, -, hpc, -⟩
    · exact absurd (hw.symm.trans hpc) (Pc.writing_ne_idle _ _ _)
    · obtain ⟨rfl, rfl, rfl⟩ := Pc.writing.inj (hpc.symm.trans hw)
      exact ⟨Nat.zero_le _, _, rfl⟩
    · obtain ⟨rfl, rfl, rfl⟩ := Pc.writing.inj (hpc.symm.trans hw)
      obtain ⟨-, x, hx⟩ := h a target done hwriting
      refine ⟨hmore, x, ?_⟩
      rw [hbuffers, w.partly_succ, ← hx]
      exact Function.update_self _ _ _
    · exact absurd (hw.symm.trans hpc) (Pc.writing_ne_idle _ _ _)

theorem Inv.writer (h : Inv w s) : Inv w (move w s .writer) := by
  obtain ⟨buffers, pc, pending, last⟩ := s
  cases pc with
  | idle =>
    cases pending with
    | nil => exact h
    | cons a rest =>
      refine ⟨?_, h.before, h.clean, fun b _ _ hpc => absurd hpc (Pc.writing_ne_idle _ _ _)⟩
      rintro a' target done hpc
      obtain ⟨rfl, rfl, rfl⟩ := Pc.writing.inj hpc
      exact ⟨rfl, Nat.zero_le _, buffers.content (!buffers.front), rfl⟩
  | writing a target done =>
    obtain ⟨htarget, hdone, x, hx⟩ := h.target a target done rfl
    replace htarget : target = !buffers.front := htarget
    subst htarget
    by_cases hmore : done < w.stores
    · -- one more store into the buffer behind
      simp only [move, if_pos hmore]
      refine ⟨?_, ?_, ?_, fun b _ _ hpc => absurd hpc (Pc.writing_ne_idle _ _ _)⟩
      · rintro a' target' done' hpc
        obtain ⟨rfl, rfl, rfl⟩ := Pc.writing.inj hpc
        refine ⟨rfl, hmore, x, ?_⟩
        simp only [Buffers.update, Function.update_self, w.partly_succ, ← hx]
      · intro hlast
        rw [Buffers.shown_update]
        exact h.before hlast
      · intro b hlast hfresh
        rw [Buffers.shown_update]
        exact h.clean b hlast hfresh
    · -- the flag is raised
      have hall : done = w.stores := by omega
      simp only [move, if_neg hmore]
      refine ⟨fun b target' done' hpc => absurd hpc.symm (Pc.writing_ne_idle _ _ _),
        fun hlast => absurd hlast (Option.some_ne_none a),
        fun b _ hfresh => Bool.noConfusion hfresh, fun b hlast _ _ => ?_⟩
      obtain rfl := Option.some.inj hlast
      have hcomplete := w.complete a x
      rw [← hall] at hcomplete
      exact hx.trans hcomplete

theorem Inv.reader (h : Inv w s) (hset : Settled s .reader) : Inv w (move w s .reader) := by
  obtain ⟨hlast, hflag⟩ := hset rfl
  have hshown : ∀ a, s.last = some a → s.buffers.take.shown = w.encode a := by
    intro a ha
    cases hfresh : s.buffers.fresh with
    | true =>
      have hidle : s.pc = .idle := by
        by_contra hpc
        rw [hflag hpc] at hfresh
        exact Bool.noConfusion hfresh
      rw [Buffers.shown_take_of_fresh hfresh, h.dirty a ha hfresh hidle]
    | false => rw [Buffers.take_of_not_fresh hfresh, h.clean a ha hfresh]
  refine ⟨?_, fun hnone => absurd hnone hlast, fun a ha _ => hshown a ha, ?_⟩
  · intro a target done hpc
    have hfresh := hflag (by rw [show s.pc = _ from hpc]; exact Pc.writing_ne_idle _ _ _)
    simp only [move, Buffers.take_of_not_fresh hfresh]
    exact h.target a target done hpc
  · intro a _ hfresh
    simp only [move, Buffers.fresh_take] at hfresh
    exact Bool.noConfusion hfresh

/-- Where the invariant holds, the reader is served well exactly when it comes at
a settled moment. -/
theorem Inv.readerOk_iff (h : Inv w s) (t : Tick) : ReaderOk w s t ↔ Settled s t := by
  refine imp_congr_right fun ht => ?_
  subst ht
  constructor
  · rintro ⟨htarget, ⟨a, ha⟩, -⟩
    refine ⟨?_, ?_⟩
    · -- nothing has been written yet, and the front is no encoding
      intro hnone
      obtain ⟨hfresh, hno⟩ := h.before hnone
      rw [Buffers.take_of_not_fresh hfresh] at ha
      exact hno a ha.symm
    · -- a swap inside a write would bring the target to the front
      intro hpc
      by_contra hfresh
      rw [Bool.not_eq_false] at hfresh
      cases hcase : s.pc with
      | idle => exact hpc hcase
      | writing a target done =>
        refine htarget a target done hcase ?_
        rw [Buffers.front_take_of_fresh hfresh, (h.target a target done hcase).1]
  · rintro ⟨hlast, hflag⟩
    obtain ⟨a, ha⟩ := Option.ne_none_iff_exists'.mp hlast
    have hnext := h.reader (fun _ => ⟨hlast, hflag⟩)
    have hshown : s.buffers.take.shown = w.encode a :=
      hnext.clean a ha s.buffers.fresh_take
    refine ⟨?_, ⟨a, hshown⟩, ?_⟩
    · intro b target done hpc
      have hfresh := hflag (by rw [hpc]; exact Pc.writing_ne_idle _ _ _)
      rw [Buffers.take_of_not_fresh hfresh, (h.target b target done hpc).1]
      exact Bool.self_ne_not _
    · intro _ b hb
      rwa [← Option.some.inj (ha.symm.trans hb)]

/-- **Double buffering under interrupts.**  In a run from a state satisfying the
invariant, the reader is served well every time if and only if it comes at a
settled moment every time. -/
theorem along_readerOk_iff (h : Inv w s) (ts : List Tick) :
    Runs.Along (step w) (ReaderOk w) s ts ↔
      Runs.Along (step w) Settled s ts := by
  refine Runs.along_iff_along (I := Inv w) (χ := fun _ _ => True)
    (fun s t hs _ => hs.readerOk_iff t) (fun s t s' hs _ hset hstep => ?_) h Runs.along_true
  obtain rfl := Option.some.inj hstep
  cases t with
  | writer => exact hs.writer
  | reader => exact hs.reader hset

end DoubleBuffer
end Stm32Adaptive
