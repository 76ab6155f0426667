import Stm32Adaptive.Library.Runs

/-!
# Frames in a stream

A receiver that takes commands from a stream without separators depends on every
reader taking exactly its own frame.  `Reads r frame a` says so for one reader:
whatever follows, it consumes `frame` and returns `a`.  The rule for sequencing
readers, `Reads.bind`, is where frames are concatenated.

For a whole stream, `run_frames`: if handling one frame in front of any
continuation executes its command and leaves the continuation, then handling a
concatenation of frames executes the commands, in order, and leaves nothing.
-/

namespace Stm32Adaptive
namespace Framing

universe u

variable {α β γ : Type u}

/-- A reader takes items off the front of its input; `none` means that it waits
for an item that does not come. -/
abbrev Reader (β α : Type u) := StateT (List β) Option α

/-- Read one item. -/
def item : Reader β β
  | [] => none
  | c :: rest => some (c, rest)

/-- Use a reader a number of times. -/
def times (r : Reader β α) : ℕ → Reader β (List α)
  | 0 => pure []
  | n + 1 => do
    let a ← r
    let as ← times r n
    return a :: as

/-- **A reader takes exactly its frame**, in front of any continuation. -/
def Reads (r : Reader β α) (frame : List β) (a : α) : Prop :=
  ∀ rest, r.run (frame ++ rest) = some (a, rest)

theorem reads_pure (a : α) : Reads (pure a : Reader β α) [] a := fun _ => rfl

theorem reads_item (c : β) : Reads item [c] c := fun _ => rfl

theorem Reads.bind {r : Reader β α} {k : α → Reader β γ} {frame frame' : List β} {a : α} {b : γ}
    (hr : Reads r frame a) (hk : Reads (k a) frame' b) : Reads (r >>= k) (frame ++ frame') b := by
  intro rest
  rw [StateT.run_bind, List.append_assoc, hr]
  exact hk rest

/-- A reader used on a list of frames. -/
theorem Reads.times {ι : Type*} {r : Reader β α} {encode : ι → List β} {value : ι → α} {is : List ι}
    (h : ∀ i ∈ is, Reads r (encode i) (value i)) :
    Reads (times r is.length) (is.flatMap encode) (is.map value) := by
  induction is with
  | nil => exact reads_pure []
  | cons i is ih =>
    have htail := ih fun j hj => h j (List.mem_cons_of_mem i hj)
    rw [List.flatMap_cons, ← List.append_nil (is.flatMap encode)]
    exact (h i List.mem_cons_self).bind (htail.bind (reads_pure _))

/-! ## Streams of frames -/

/-- **Handling a stream of frames.**  `load s input` is the state `s` with an input
to be handled. -/
theorem run_frames {σ : Type*} {handle : σ → Option σ} {load : σ → List β → σ}
    {exec : σ → γ → Option σ} {encode : γ → List β}
    (h : ∀ s c rest, handle (load s (encode c ++ rest)) = (exec s c).map fun t => load t rest)
    (s : σ) (cs : List γ) (rest : List β) :
    Runs.run (fun t (_ : Unit) => handle t) (load s (cs.flatMap encode ++ rest))
        (List.replicate cs.length ()) =
      (Runs.run exec s cs).map fun t => load t rest := by
  induction cs generalizing s with
  | nil => rfl
  | cons c cs ih =>
    rw [List.flatMap_cons, List.append_assoc, List.length_cons, List.replicate_succ, Runs.run_cons,
      h, Runs.run_cons]
    cases exec s c with
    | none => rfl
    | some t => exact ih t

end Framing
end Stm32Adaptive
