import Mathlib.Data.List.Basic

/-!
# Runs of a partial step function

A program that is driven from outside --- by interrupts, by received bytes, by
calls of its main loop --- is a step function `σ → ε → Option σ`: in a state, an
event either leads to one next state or to none, where `none` is undefined
behaviour or an operation that never comes back.  A run is a list of events, and
what has to be proved about such a program is proved about every list.

Three rules are enough, and each is an induction done once.

* `inv_of_run`: what every step preserves, every run preserves.
* `exists_run`: if no step can fail in a state satisfying the invariant, no run
  started in one can.
* `along_iff_along`: two properties of single steps that agree wherever the
  invariant holds agree along whole runs.  The second property is the one that
  keeps the invariant, so this is the rule for "the run is correct exactly when
  each of its steps avoids the bad case".
-/

namespace Stm32Adaptive
namespace Runs

variable {σ ε : Type*}

/-- The state a list of events leads to, if every one of them can happen. -/
def run (step : σ → ε → Option σ) : σ → List ε → Option σ
  | s, [] => some s
  | s, e :: es => (step s e).bind fun s' => run step s' es

variable {step : σ → ε → Option σ} {s t : σ} {e : ε} {es fs : List ε}

@[simp] theorem run_nil : run step s [] = some s := rfl

theorem run_cons : run step s (e :: es) = (step s e).bind fun s' => run step s' es := rfl

theorem run_cons_of_step (h : step s e = some t) : run step s (e :: es) = run step t es := by
  rw [run_cons, h, Option.bind_some]

/-- Running a concatenation is running its two factors successively. -/
theorem run_append (s : σ) (es fs : List ε) :
    run step s (es ++ fs) = (run step s es).bind fun t => run step t fs := by
  induction es generalizing s with
  | nil => rfl
  | cons e es ih =>
    rw [List.cons_append, run_cons, run_cons, Option.bind_assoc]
    exact congrArg _ (funext fun t => ih t)

theorem run_append_of_run (h : run step s es = some t) :
    run step s (es ++ fs) = run step t fs := by
  rw [run_append, h, Option.bind_some]

theorem run_concat_of_run (h : run step s es = some t) :
    run step s (es ++ [e]) = step t e := by
  rw [run_append_of_run h, run_cons]
  cases step t e <;> rfl

/-- **What one step preserves, every run preserves.** -/
theorem inv_of_run {I : σ → Prop} (hstep : ∀ s e t, I s → step s e = some t → I t)
    (hs : I s) (h : run step s es = some t) : I t := by
  induction es generalizing s with
  | nil =>
    rw [run_nil, Option.some.injEq] at h
    exact h ▸ hs
  | cons e es ih =>
    rw [run_cons, Option.bind_eq_some_iff] at h
    obtain ⟨u, hu, hrun⟩ := h
    exact ih (hstep s e u hs hu) hrun

/-- **Progress.**  If every step out of an invariant state exists and keeps the
invariant, every run exists and ends in an invariant state.  `Q` is what is known of
the events. -/
theorem exists_run_of_forall_mem {I : σ → Prop} {Q : ε → Prop}
    (hstep : ∀ s e, I s → Q e → ∃ t, step s e = some t ∧ I t)
    (hs : I s) (hQ : ∀ e ∈ es, Q e) : ∃ t, run step s es = some t ∧ I t := by
  induction es generalizing s with
  | nil => exact ⟨s, rfl, hs⟩
  | cons e es ih =>
    rw [List.forall_mem_cons] at hQ
    obtain ⟨u, hu, hI⟩ := hstep s e hs hQ.1
    rw [run_cons_of_step hu]
    exact ih hI hQ.2

theorem exists_run {I : σ → Prop} (hstep : ∀ s e, I s → ∃ t, step s e = some t ∧ I t)
    (hs : I s) (es : List ε) : ∃ t, run step s es = some t ∧ I t :=
  exists_run_of_forall_mem (fun s e h _ => hstep s e h) hs fun _ _ => trivial

/-! ## Properties of every step of a run -/

/-- Every step of the run of `es` from `s` has the property `φ`, which sees the
state before the step and the event.  The run ends where a step fails. -/
def Along (step : σ → ε → Option σ) (φ : σ → ε → Prop) : σ → List ε → Prop
  | _, [] => True
  | s, e :: es => φ s e ∧ ∀ t, step s e = some t → Along step φ t es

variable {φ ψ : σ → ε → Prop}

@[simp] theorem along_nil : Along step φ s [] := trivial

theorem along_cons :
    Along step φ s (e :: es) ↔ φ s e ∧ ∀ t, step s e = some t → Along step φ t es := Iff.rfl

/-- Along a run that is given, a decidable property can be evaluated. -/
instance decidableAlong [∀ s e, Decidable (φ s e)] :
    ∀ (s : σ) (es : List ε), Decidable (Along step φ s es)
  | _, [] => isTrue trivial
  | s, e :: es =>
    match h : step s e with
    | none => decidable_of_iff (φ s e)
        ⟨fun he => ⟨he, fun _ ht => nomatch h.symm.trans ht⟩, fun hes => hes.1⟩
    | some t =>
      have := decidableAlong t es
      decidable_of_iff (φ s e ∧ Along step φ t es)
        ⟨fun hes => ⟨hes.1, fun _ hu => Option.some.inj (h.symm.trans hu) ▸ hes.2⟩,
          fun hes => ⟨hes.1, hes.2 t h⟩⟩

/-- Read at a position: `φ` holds of the event there in the state the events
before it lead to. -/
theorem along_iff_forall_append :
    Along step φ s es ↔
      ∀ pre e post, es = pre ++ e :: post → ∀ t, run step s pre = some t → φ t e := by
  induction es generalizing s with
  | nil => simp
  | cons e es ih =>
    rw [along_cons]
    constructor
    · rintro ⟨he, hes⟩ pre f post heq t ht
      cases pre with
      | nil =>
        obtain ⟨rfl, -⟩ := List.cons.inj heq
        rw [run_nil, Option.some.injEq] at ht
        exact ht ▸ he
      | cons p pre =>
        obtain ⟨rfl, htail⟩ := List.cons.inj heq
        rw [run_cons, Option.bind_eq_some_iff] at ht
        obtain ⟨u, hu, hrun⟩ := ht
        exact ih.mp (hes u hu) pre f post htail t hrun
    · intro h
      refine ⟨h [] e es rfl s rfl, fun u hu => ih.mpr fun pre f post heq t ht => ?_⟩
      exact h (e :: pre) f post (by rw [heq, List.cons_append]) t (by rw [run_cons_of_step hu, ht])

/-- Along a concatenation is along its two factors successively. -/
theorem along_append :
    Along step φ s (es ++ fs) ↔
      Along step φ s es ∧ ∀ t, run step s es = some t → Along step φ t fs := by
  induction es generalizing s with
  | nil => exact ⟨fun h => ⟨along_nil, fun t ht => Option.some.inj ht ▸ h⟩, fun h => h.2 s rfl⟩
  | cons e es ih =>
    rw [List.cons_append, along_cons, along_cons, run_cons, and_assoc]
    refine and_congr_right fun _ => ?_
    constructor
    · intro h
      refine ⟨fun t ht => (ih.mp (h t ht)).1, fun t hrun => ?_⟩
      obtain ⟨u, hu, hrest⟩ := Option.bind_eq_some_iff.mp hrun
      exact (ih.mp (h u hu)).2 t hrest
    · rintro ⟨hes, hfs⟩ t ht
      refine ih.mpr ⟨hes t ht, fun u hu => hfs u ?_⟩
      rw [ht, Option.bind_some, hu]

/-- **Two step properties that agree under an invariant agree along runs.**  The
invariant only has to survive the steps that have the second property; a step
that lacks it has already made both sides false.  `χ` is what the environment
promises of the steps of this run. -/
theorem along_iff_along {I : σ → Prop} {χ : σ → ε → Prop}
    (hiff : ∀ s e, I s → χ s e → (φ s e ↔ ψ s e))
    (hstep : ∀ s e t, I s → χ s e → ψ s e → step s e = some t → I t)
    (hs : I s) (hχ : Along step χ s es) : Along step φ s es ↔ Along step ψ s es := by
  induction es generalizing s with
  | nil => exact Iff.rfl
  | cons e es ih =>
    rw [along_cons] at hχ
    rw [along_cons, along_cons, hiff s e hs hχ.1]
    refine and_congr_right fun hψ => forall_congr' fun t => imp_congr_right fun ht => ?_
    exact ih (hstep s e t hs hχ.1 hψ ht) (hχ.2 t ht)

theorem along_true : Along step (fun _ _ => True) s es := by
  induction es generalizing s with
  | nil => exact along_nil
  | cons e es ih => exact along_cons.mpr ⟨trivial, fun t _ => ih⟩

/-- Every step of a run that exists exists. -/
theorem along_exists_of_run (h : run step s es = some t) :
    Along step (fun s e => ∃ t, step s e = some t) s es := by
  induction es generalizing s with
  | nil => exact along_nil
  | cons e es ih =>
    rw [run_cons, Option.bind_eq_some_iff] at h
    obtain ⟨u, hu, hrun⟩ := h
    refine along_cons.mpr ⟨⟨u, hu⟩, fun v hv => ?_⟩
    obtain rfl := Option.some.inj (hu.symm.trans hv)
    exact ih hrun

/-- A property of states holds in every state a run goes through if it holds at
the start and after every step. -/
theorem along_step_iff_forall_append {K : σ → Prop} (hs : K s) :
    Along step (fun s e => ∀ t, step s e = some t → K t) s es ↔
      ∀ pre post, es = pre ++ post → ∀ t, run step s pre = some t → K t := by
  induction es generalizing s with
  | nil =>
    refine iff_of_true along_nil fun pre post heq t ht => ?_
    obtain ⟨rfl, -⟩ := List.append_eq_nil_iff.mp heq.symm
    exact Option.some.inj ht ▸ hs
  | cons e es ih =>
    rw [along_cons]
    constructor
    · rintro ⟨he, hes⟩ pre post heq t ht
      cases pre with
      | nil => exact Option.some.inj ht ▸ hs
      | cons p pre =>
        obtain ⟨rfl, htail⟩ := List.cons.inj heq
        rw [run_cons, Option.bind_eq_some_iff] at ht
        obtain ⟨u, hu, hrun⟩ := ht
        exact (ih (he u hu)).mp (hes u hu) pre post htail t hrun
    · intro h
      have he : ∀ u, step s e = some u → K u := fun u hu =>
        h [e] es rfl u (by rw [run_cons_of_step hu, run_nil])
      refine ⟨he, fun u hu => (ih (he u hu)).mpr fun pre post heq t ht => ?_⟩
      exact h (e :: pre) post (by rw [heq, List.cons_append]) t (by rw [run_cons_of_step hu, ht])

/-- A property of the events alone, where every step exists. -/
theorem along_iff_forall_mem {Q : ε → Prop} (hstep : ∀ s e, ∃ t, step s e = some t) :
    Along step (fun _ e => Q e) s es ↔ ∀ e ∈ es, Q e := by
  induction es generalizing s with
  | nil => simp
  | cons e es ih =>
    obtain ⟨t, ht⟩ := hstep s e
    rw [along_cons, List.forall_mem_cons]
    exact and_congr_right fun _ => ⟨fun h => ih.mp (h t ht), fun h u _ => ih.mpr h⟩

/-- **The invariant rule under a step condition**: along a run whose steps all
have `ψ`, an invariant that such steps preserve holds at the end. -/
theorem inv_of_run_of_along {I : σ → Prop}
    (hstep : ∀ s e t, I s → ψ s e → step s e = some t → I t)
    (hs : I s) (hψ : Along step ψ s es) (h : run step s es = some t) : I t := by
  induction es generalizing s with
  | nil =>
    rw [run_nil, Option.some.injEq] at h
    exact h ▸ hs
  | cons e es ih =>
    rw [run_cons, Option.bind_eq_some_iff] at h
    obtain ⟨u, hu, hrun⟩ := h
    exact ih (hstep s e u hs hψ.1 hu) (hψ.2 u hu) hrun

/-! ## Simulation -/

/-- **A step-for-step simulation carries properties of runs over.**  `f` maps
states and `g` events, and each step commutes with them. -/
theorem along_map {τ δ : Type*} {step' : τ → δ → Option τ} {φ' : τ → δ → Prop} (f : σ → τ)
    (g : ε → δ) (hstep : ∀ s e, step' (f s) (g e) = (step s e).map f) (s : σ) (es : List ε) :
    Along step' φ' (f s) (es.map g) ↔ Along step (fun s e => φ' (f s) (g e)) s es := by
  induction es generalizing s with
  | nil => exact Iff.rfl
  | cons e es ih =>
    rw [List.map_cons, along_cons, along_cons, hstep]
    refine and_congr_right fun _ => ?_
    cases h : step s e with
    | none => simp
    | some t => simpa using ih t

end Runs
end Stm32Adaptive
