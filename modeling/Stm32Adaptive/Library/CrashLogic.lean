import Mathlib.Data.List.Basic

/-!
# Programs that can lose power

A driver reads and writes the registers of a device, one access after the other, and the
power can go at any of them.  What a program has to guarantee is then two things: what
holds when it is through, and what holds wherever it is cut off.

A program runs on a budget of accesses, which is `none` if the power stays.  It ends with a
result, or cut off when the budget is spent, or wrong, that is, in behaviour that is not
defined.  `Spec P x Q R` says that from a state with `P` the program never goes wrong, ends
in a state with `Q`, and is cut off in a state with `R` only; with a budget of `none` it is
not cut off.  There is one rule for each way of building programs.
-/

namespace Stm32Adaptive
namespace CrashLogic

variable {σ α β γ : Type}

/-- How a program ends. -/
inductive Outcome (σ α : Type) where
  | done (a : α) (budget : Option ℕ) (s : σ)
  | cut (s : σ)
  | wrong

/-- A program with states `σ` and result `α`. -/
def Prog (σ α : Type) := Option ℕ → σ → Outcome σ α

namespace Prog

/-- The program that is through. -/
def ret (a : α) : Prog σ α := fun budget s => .done a budget s

/-- One program after the other. -/
def andThen (x : Prog σ α) (f : α → Prog σ β) : Prog σ β := fun budget s =>
  match x budget s with
  | .done a budget s => f a budget s
  | .cut s => .cut s
  | .wrong => .wrong

instance : Monad (Prog σ) where
  pure := ret
  bind := andThen

/-- Undefined behaviour. -/
def wrong : Prog σ α := fun _ _ => .wrong

/-- One access to the device; it needs power. -/
def access (f : σ → α × σ) : Prog σ α := fun budget s =>
  match budget with
  | none => .done (f s).1 none (f s).2
  | some 0 => .cut s
  | some (n + 1) => .done (f s).1 (some n) (f s).2

/-- A step that is no access to the device. -/
def compute (f : σ → Option (α × σ)) : Prog σ α := fun budget s =>
  match f s with
  | none => .wrong
  | some (a, s) => .done a budget s

/-- A program that runs only if a condition holds. -/
def runIf (b : Bool) (x : Prog σ Unit) : Prog σ Unit := if b then x else pure ()

/-- A loop over a list. -/
def forList : List γ → (γ → Prog σ Unit) → Prog σ Unit
  | [], _ => pure ()
  | c :: cs, f => f c >>= fun _ => forList cs f

end Prog

open Prog

/-! ## Specifications -/

/-- What an outcome has to satisfy. -/
def Outcome.Meets (Q : α → σ → Prop) (R : σ → Prop) (budget : Option ℕ) : Outcome σ α → Prop
  | .done a budget' s => (budget = none → budget' = none) ∧ Q a s
  | .cut s => budget ≠ none ∧ R s
  | .wrong => False

/-- What is left of a budget is none if the budget is. -/
theorem Outcome.Meets.of_budget {Q : α → σ → Prop} {R : σ → Prop} {budget budget' : Option ℕ}
    {out : Outcome σ α} (h : out.Meets Q R budget') (hle : budget = none → budget' = none) :
    out.Meets Q R budget := by
  cases out with
  | done a budget'' s => exact ⟨fun hnone => h.1 (hle hnone), h.2⟩
  | cut s => exact ⟨fun hnone => h.1 (hle hnone), h.2⟩
  | wrong => exact h

/-- From `P` the program ends in `Q`, or is cut off in `R`. -/
def Spec (P : σ → Prop) (x : Prog σ α) (Q : α → σ → Prop) (R : σ → Prop) : Prop :=
  ∀ budget s, P s → (x budget s).Meets Q R budget

variable {P P' : σ → Prop} {Q Q' : α → σ → Prop} {R R' : σ → Prop} {x : Prog σ α}

namespace Spec

theorem weaken (h : Spec P x Q R) (hpre : ∀ s, P' s → P s) (hpost : ∀ a s, Q a s → Q' a s)
    (hcut : ∀ s, R s → R' s) : Spec P' x Q' R' := by
  intro budget s hs
  have hx := h budget s (hpre s hs)
  cases hout : x budget s with
  | done a budget' s' =>
    rw [hout] at hx
    exact ⟨hx.1, hpost a s' hx.2⟩
  | cut s' =>
    rw [hout] at hx
    exact ⟨hx.1, hcut s' hx.2⟩
  | wrong =>
    rw [hout] at hx
    exact hx

/-- The rule for `pure`. -/
theorem ret {a : α} (h : ∀ s, P s → Q a s) : Spec P (pure a) Q R :=
  fun _ s hs => ⟨id, h s hs⟩

/-- The rule for `bind`: the second program starts where the first ends. -/
theorem andThen {Q : α → σ → Prop} {Q' : β → σ → Prop} {f : α → Prog σ β} (hx : Spec P x Q R)
    (hf : ∀ a, Spec (Q a) (f a) Q' R) : Spec P (x >>= f) Q' R := by
  intro budget s hs
  have hfirst := hx budget s hs
  change (Prog.andThen x f budget s).Meets Q' R budget
  unfold Prog.andThen
  cases hout : x budget s with
  | done a budget' s' =>
    rw [hout] at hfirst
    exact (hf a budget' s' hfirst.2).of_budget hfirst.1
  | cut s' =>
    rw [hout] at hfirst
    exact hfirst
  | wrong =>
    rw [hout] at hfirst
    exact hfirst

/-- `andThen` for a program whose result is known. -/
theorem andThen_of_eq {a : α} {P'' : σ → Prop} {Q' : β → σ → Prop} {f : α → Prog σ β}
    (hx : Spec P x (fun b s => b = a ∧ P'' s) R) (hf : Spec P'' (f a) Q' R) :
    Spec P (x >>= f) Q' R := by
  refine andThen hx fun b budget s hs => ?_
  obtain ⟨rfl, hs⟩ := hs
  exact hf budget s hs

/-- The rule for an access: it may not happen. -/
theorem access {f : σ → α × σ} (hcut : ∀ s, P s → R s) (h : ∀ s, P s → Q (f s).1 (f s).2) :
    Spec P (Prog.access f) Q R := by
  intro budget s hs
  match budget with
  | none => exact ⟨id, h s hs⟩
  | some 0 => exact ⟨Option.some_ne_none 0, hcut s hs⟩
  | some (n + 1) => exact ⟨fun hnone => absurd hnone (Option.some_ne_none _), h s hs⟩

theorem compute {f : σ → Option (α × σ)} (h : ∀ s, P s → ∃ a t, f s = some (a, t) ∧ Q a t) :
    Spec P (Prog.compute f) Q R := by
  intro budget s hs
  obtain ⟨a, t, hf, hQ⟩ := h s hs
  have hrun : Prog.compute f budget s = .done a budget t := by
    rw [Prog.compute, hf]
  rw [hrun]
  exact ⟨id, hQ⟩

/-- What a specification says about one run. -/
theorem outcome (h : Spec P x Q R) {s : σ} (hs : P s) (budget : Option ℕ) :
    (∀ a budget' t, x budget s = .done a budget' t → Q a t) ∧
      (∀ t, x budget s = .cut t → R t) ∧ x budget s ≠ .wrong ∧
      (budget = none → ∃ a t, x budget s = .done a none t) := by
  have hmeets := h budget s hs
  cases hout : x budget s with
  | done a budget' t =>
    rw [hout] at hmeets
    refine ⟨?_, nofun, nofun, fun hnone => ?_⟩
    · rintro _ _ _ ⟨⟩
      exact hmeets.2
    · exact ⟨a, t, by rw [hmeets.1 hnone]⟩
  | cut t =>
    rw [hout] at hmeets
    refine ⟨nofun, ?_, nofun, fun hnone => absurd hnone hmeets.1⟩
    rintro _ ⟨⟩
    exact hmeets.2
  | wrong =>
    rw [hout] at hmeets
    exact hmeets.elim

end Spec

end CrashLogic
end Stm32Adaptive
