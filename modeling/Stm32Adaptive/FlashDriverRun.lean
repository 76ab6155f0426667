import Stm32Adaptive.FlashDriver
import Stm32Adaptive.InterruptedSave

/-!
# Runs of the flash driver

Between two saves the controller is locked and idle, so saves can follow one another, and
with every one of them the memory changes as the operations of `Flash.savePatterns` say.
`driver_saves` is the statement over a whole run of saves, with the power there to the end
or not; `driver_loss` is what a reset finds in the page after a loss.
-/

namespace Stm32Adaptive
namespace FlashDriver

open FlashMemory CrashLogic
open CrashLogic.Prog (forList)
open Flash (pageSize signalPatternsDataStart mbyte storedPattern getPattern)

variable {c : Controller pageSize} {turns : ℕ}

/-! ## Reports -/

/-- Without errors, operations that are accepted report nothing. -/
theorem Idle.performAll_of_accepted {ops : List Op} {s : Idle}
    (h : Accepted pageSize ops s.memory) (herrors : s.errors = .none) :
    s.performAll ops = { s with memory := applyAll pageSize ops s.memory } := by
  induction ops generalizing s with
  | nil => rfl
  | cons op ops ih =>
    have hstep : s.perform op = { s with memory := op.apply pageSize s.memory } := by
      rw [Idle.perform, h.1, herrors, Bool.not_true]
      exact congrArg (Idle.mk _ _ _ _) (List.append_nil _)
    refine (congrArg (Idle.performAll ops) hstep).trans ?_
    exact ih h.2 herrors

theorem Idle.waited_of_none {s : Idle} (h : s.errors = .none) : s.waited = s := by
  obtain ⟨m, cr, ar, e, out⟩ := s
  obtain rfl : e = .none := h
  exact congrArg (Idle.mk m cr ar .none) (List.append_nil out)

/-- The erase clears the flags, after both waits before it have reported them. -/
theorem Idle.pageErased_eq (s : Idle) :
    s.pageErased = ⟨(Op.erasePage signalPatternsDataStart).apply pageSize s.memory, s.control,
      signalPatternsDataStart, .none, s.out ++ report s.errors.any ++ report s.errors.any⟩ :=
  congrArg (Idle.mk _ _ _ _) (List.append_nil _)

/-- **A save that fits reports no error of its own.** -/
theorem Idle.saved_of_fits (s : Idle) {ps : List PeriodPattern} (h : Fits ps.length) :
    s.saved ps ps.length = ⟨Flash.apply (Flash.savePatterns ps ps.length) s.memory, s.control,
      signalPatternsDataStart, .none, s.out ++ report s.errors.any ++ report s.errors.any⟩ := by
  obtain ⟨header, hheader⟩ : ∃ ops, ops =
      Flash.writeToFlash signalPatternsDataStart [mbyte, UInt8.ofNat ps.length] 2 := ⟨_, rfl⟩
  obtain ⟨records, hrecords⟩ : ∃ ops, ops = Flash.writeToFlash (signalPatternsDataStart + 2)
      (ps.flatMap PeriodPattern.toBytes) (ps.length * PeriodPattern.size) := ⟨_, rfl⟩
  have hops : Flash.savePatterns ps ps.length =
      .erasePage signalPatternsDataStart :: (header ++ records) := by
    rw [hheader, hrecords]
    rfl
  -- what is programmed lies in the erased page
  have haccepted : Accepted pageSize (header ++ records)
      ((Op.erasePage signalPatternsDataStart).apply pageSize s.memory) := by
    rw [← (List.cons.inj ((savePatterns_eq ps).symm.trans hops)).2]
    refine accepted_programBytes _ fun x hx hx' => ?_
    have hwords := fits_iff_halfWords.mp h
    rw [erasePage_apply, if_pos ⟨hx, by omega⟩]
  rw [accepted_append] at haccepted
  have hheaded : s.headed ps.length = { s.pageErased with
      memory := applyAll pageSize header s.pageErased.memory } := by
    rw [Idle.headed, ← hheader, Idle.waited_of_none (by rw [s.pageErased_eq])]
    exact Idle.performAll_of_accepted haccepted.1 (by rw [s.pageErased_eq])
  have hsaved : s.saved ps ps.length = { s.headed ps.length with
      memory := applyAll pageSize records (s.headed ps.length).memory } := by
    rw [Idle.saved, ← hrecords, Idle.waited_of_none (by rw [hheaded, s.pageErased_eq])]
    exact Idle.performAll_of_accepted (by rw [hheaded]; exact haccepted.2)
      (by rw [hheaded, s.pageErased_eq])
  rw [hsaved, hheaded, s.pageErased_eq, hops, Flash.apply, applyAll_cons, applyAll_append]

/-! ## Runs of saves -/

/-- Between two calls of the driver. -/
structure Ready (v : View) : Prop where
  current : v.current = none
  control : v.control = locked
  keyed : v.keyed = false
  eop : v.eop = false

/-- The device as it is seen then. -/
def idle (d : Device c) : Idle :=
  ⟨(c.view d.chip).memory, (c.view d.chip).control, (c.view d.chip).ar,
    ⟨(c.view d.chip).pgerr, (c.view d.chip).wrperr⟩, d.out⟩

theorem Ready.shows {d : Device c} (h : Ready (c.view d.chip)) :
    Shows ((idle d).shown none) d := by
  obtain ⟨hcurrent, -, hkeyed, heop⟩ := h
  have heta : c.view d.chip = ⟨(c.view d.chip).memory, (c.view d.chip).current,
      (c.view d.chip).control, (c.view d.chip).ar, (c.view d.chip).keyed, (c.view d.chip).pgerr,
      (c.view d.chip).wrperr, (c.view d.chip).eop⟩ := rfl
  rw [hcurrent, hkeyed, heop] at heta
  exact ⟨heta, rfl⟩

theorem ready_of_shows {s : Idle} (h : s.control = locked) {d : Device c}
    (hd : Shows (s.shown none) d) : Ready (c.view d.chip) := by
  rw [hd.1]
  exact ⟨rfl, h, rfl, rfl⟩

/-- The operations of a number of saves. -/
def saveOps (saves : List (List PeriodPattern)) : List Op :=
  saves.flatMap fun ps => Flash.savePatterns ps ps.length

theorem forList_savePatterns_performs (hturns : c.limit < turns)
    (saves : List (List PeriodPattern)) {s : Idle} (h : s.control = locked) :
    Performs (s.shown none) (forList saves fun ps => savePatterns c turns ps ps.length)
      (saveOps saves) () ((saves.foldl (fun s ps => s.saved ps ps.length) s).shown none) :=
  Performs.forList (P := fun s => s.control = locked)
    (show ∀ (ps : List PeriodPattern) (s : Idle), s.control = locked →
      (s.saved ps ps.length).control = locked from fun _ s hs => (s.control_saved _ _).trans hs)
    (fun ps _ hs => savePatterns_performs hturns hs ps ps.length) saves h

theorem control_foldl_saved (saves : List (List PeriodPattern)) (s : Idle) :
    (saves.foldl (fun s ps => s.saved ps ps.length) s).control = s.control := by
  induction saves generalizing s with
  | nil => rfl
  | cons ps saves ih => exact (ih _).trans (s.control_saved ps ps.length)

theorem out_foldl_saved {saves : List (List PeriodPattern)} (h : ∀ ps ∈ saves, ps.length ≤ 56)
    {s : Idle} (herrors : s.errors = .none) :
    (saves.foldl (fun s ps => s.saved ps ps.length) s).out = s.out := by
  induction saves generalizing s with
  | nil => rfl
  | cons ps saves ih =>
    rw [List.forall_mem_cons] at h
    have hsaved := s.saved_of_fits (fits_iff.mpr h.1)
    rw [List.foldl_cons, ih h.2 (by rw [hsaved]), hsaved, herrors]
    exact (List.append_nil _).trans (List.append_nil _)

/-- **The driver on its registers does what the list of operations says.**  From an idle
and locked controller, any number of saves leaves it idle and locked, with the memory after
their operations, and reports nothing if it begins without errors and no save has more than
56 records.  Where the power goes the memory is the one after some first ones of the
operations; and no access is made that the controller does not document. -/
theorem driver_saves (hturns : c.limit < turns) (saves : List (List PeriodPattern))
    (budget : Option ℕ) {d : Device c} (h : Ready (c.view d.chip)) {out : Outcome (Device c) Unit}
    (hout : forList saves (fun ps => savePatterns c turns ps ps.length) budget d = out) :
    (∀ budget' d', out = .done () budget' d' → Ready (c.view d'.chip) ∧
      (c.view d'.chip).memory = Flash.apply (saveOps saves) (c.view d.chip).memory ∧
      ((c.view d.chip).pgerr = false → (c.view d.chip).wrperr = false →
        (∀ ps ∈ saves, ps.length ≤ 56) → d'.out = d.out)) ∧
      (∀ d', out = .cut d' → ∃ k,
        (c.view d'.chip).memory = Flash.apply ((saveOps saves).take k) (c.view d.chip).memory) ∧
      out ≠ .wrong ∧ (budget = none → ∃ d', out = .done () none d') := by
  have hcontrol : (idle d).control = locked := h.control
  have hperforms := forList_savePatterns_performs hturns saves hcontrol
  obtain ⟨hdone, hcut, hwrong, hends⟩ := hperforms.spec.outcome h.shows budget
  rw [hout] at hdone hcut hwrong hends
  refine ⟨fun budget' d' hd => ?_, hcut, hwrong, fun hnone => ?_⟩
  · obtain ⟨-, hshows⟩ := hdone () budget' d' hd
    refine ⟨ready_of_shows ((control_foldl_saved saves _).trans hcontrol) hshows, ?_, ?_⟩
    · exact (congrArg View.memory hshows.1).trans hperforms.memory
    · intro hpgerr hwrperr hfits
      have herrors : (idle d).errors = .none := by
        rw [idle, hpgerr, hwrperr]
        rfl
      exact hshows.2.trans (out_foldl_saved hfits herrors)
  · obtain ⟨_, d', hd⟩ := hends hnone
    exact ⟨d', hd⟩

/-- One save on a blank memory, with an operation that takes three reads. -/
def steadyDevice : Device (.steady pageSize 1 2 3) :=
  ⟨(⟨Flash.blank, none, locked, 0, false, false, false, false⟩, 0), []⟩

/-- The power stays, so the save ends. -/
theorem driver_saves_steadyDevice :
    ∃ d', forList [[syncPattern]] (fun ps => savePatterns _ 4 ps ps.length) none steadyDevice =
        .done () none d' ∧
      d'.chip.1.memory = Flash.apply (saveOps [[syncPattern]]) Flash.blank ∧ d'.out = [] := by
  obtain ⟨out, hout⟩ : ∃ out, forList [[syncPattern]]
      (fun ps => savePatterns (.steady pageSize 1 2 3) 4 ps ps.length) none steadyDevice = out :=
    ⟨_, rfl⟩
  obtain ⟨hdone, -, -, hends⟩ := driver_saves
    (show (Controller.steady pageSize 1 2 3).limit < 4 by decide) [[syncPattern]] none
    ⟨rfl, rfl, rfl, rfl⟩ hout
  obtain ⟨d', rfl⟩ := hends rfl
  obtain ⟨-, hmemory, hreport⟩ := hdone none d' rfl
  exact ⟨d', hout, hmemory, hreport rfl rfl (by decide)⟩

/-! ## After a loss of power -/

/-- A lookup after some half-words of a save. -/
theorem byteAt_of_storedPattern {ps : List PeriodPattern} (hfit : Fits ps.length)
    (hpad : ∀ p ∈ ps, p.padding = 0) (flash : Memory) {n : ℕ} (hn : n ≤ 9 * ps.length) {i : ℤ}
    {p : PeriodPattern}
    (h : storedPattern (Flash.apply ((Flash.savePatterns ps ps.length).take (n + 2)) flash) i =
      some p) :
    0 ≤ i ∧ ∃ q, ps[i.toNat]? = some q ∧ ∀ j < PeriodPattern.size, p.byteAt j =
      if PeriodPattern.size * i.toNat + j < 2 * n then q.byteAt j else FlashMemory.erased := by
  have hlookup := getPattern_of_take hfit hpad flash hn i
  by_cases hi : 0 ≤ i ∧ i < ps.length ∧ 9 * i < n
  · have hlt : i.toNat < ps.length := by omega
    obtain ⟨q, hq, hbytes⟩ := storedPattern_of_take hfit hpad flash hn hlt (by omega)
    rw [Int.toNat_of_nonneg hi.1, h, Option.some.injEq] at hq
    subst hq
    exact ⟨hi.1, _, List.getElem?_eq_getElem hlt, hbytes⟩
  · rw [if_neg hi] at hlookup
    rw [storedPattern, hlookup] at h
    exact absurd h (Option.some_ne_none _).symm

/-- **What a reset finds after a loss of power**, wherever in the driver it comes: the
memory as it was before the save, or a page in which every record that is handed out is a
record of the save as far as it has been written, with erased bytes behind it. -/
theorem driver_loss (hturns : c.limit < turns) {ps : List PeriodPattern} (hfit : ps.length ≤ 56)
    (hpad : ∀ p ∈ ps, p.padding = 0) {budget : Option ℕ} {d d' : Device c}
    (h : Ready (c.view d.chip)) (hcut : savePatterns c turns ps ps.length budget d = .cut d') :
    (c.view d'.chip).memory = (c.view d.chip).memory ∨
      ∃ n ≤ 9 * ps.length, ∀ i p, storedPattern (c.view d'.chip).memory i = some p →
        0 ≤ i ∧ ∃ q, ps[i.toNat]? = some q ∧ ∀ j < PeriodPattern.size, p.byteAt j =
          if PeriodPattern.size * i.toNat + j < 2 * n then q.byteAt j else FlashMemory.erased := by
  have hcontrol : (idle d).control = locked := h.control
  have hspec := (savePatterns_performs hturns hcontrol ps ps.length).spec
  obtain ⟨k, hk⟩ : ∃ k, (c.view d'.chip).memory =
      Flash.apply ((Flash.savePatterns ps ps.length).take k) (c.view d.chip).memory :=
    (hspec.outcome h.shows budget).2.1 d' hcut
  rw [hk]
  rcases k with _ | _ | k
  · exact Or.inl rfl
  · -- the page is erased, and there is no header
    refine Or.inr ⟨0, Nat.zero_le _, fun i p hp => ?_⟩
    rw [storedPattern, Nat.zero_add, getPattern_of_erase] at hp
    exact absurd hp (Option.some_ne_none _).symm
  · refine Or.inr ⟨min k (9 * ps.length), Nat.min_le_right _ _, fun i p hp => ?_⟩
    have htake : (Flash.savePatterns ps ps.length).take (k + 1 + 1) =
        (Flash.savePatterns ps ps.length).take (min k (9 * ps.length) + 2) := by
      have hlen := length_savePatterns ps
      rw [halfWords] at hlen
      rcases Nat.le_total k (9 * ps.length) with hle | hle
      · rw [Nat.min_eq_left hle]
      · rw [Nat.min_eq_right hle, List.take_of_length_le (by omega),
          List.take_of_length_le (by omega)]
    rw [htake] at hp
    exact byteAt_of_storedPattern (fits_iff.mpr hfit) hpad _ (Nat.min_le_right _ _) hp

/-- The power goes at the fortieth access of the save. -/
theorem driver_loss_steadyDevice :
    ∃ d', savePatterns (.steady pageSize 1 2 3) 4 [syncPattern] 1 (some 40) steadyDevice =
        .cut d' ∧
      (d'.chip.1.memory = Flash.blank ∨ ∃ n ≤ 9, ∀ i p,
        storedPattern d'.chip.1.memory i = some p → 0 ≤ i ∧ ∃ q, [syncPattern][i.toNat]? = some q ∧
          ∀ j < PeriodPattern.size, p.byteAt j =
            if PeriodPattern.size * i.toNat + j < 2 * n then q.byteAt j
            else FlashMemory.erased) := by
  obtain ⟨d', hcut⟩ : ∃ d', savePatterns (.steady pageSize 1 2 3) 4 [syncPattern] 1 (some 40)
      steadyDevice = .cut d' := ⟨_, rfl⟩
  exact ⟨d', hcut, driver_loss (show (Controller.steady pageSize 1 2 3).limit < 4 by decide)
    (by decide) (by decide) (d := steadyDevice) ⟨rfl, rfl, rfl, rfl⟩ hcut⟩

end FlashDriver
end Stm32Adaptive
