import Mathlib.Data.List.Basic
import Mathlib.Data.List.GetD
import Mathlib.Data.List.Range

/-!
# Page-erased memory programmed in half-words

Flash memory is written in two ways only.  Erasing a page sets each of its bytes
to `0xFF`; programming a half-word stores two bytes, low byte first, and only
where both bytes are still erased.  A driver that saves data is therefore a list
of operations, and everything it can leave behind --- when it is interrupted as
well as when it finishes --- is the effect of a prefix of that list.

* `ofBytes_lo_hi`, `lo_ofBytes`, `hi_ofBytes`: a half-word is its two bytes.
* `applyAll_programBytes`: programming consecutive half-words over erased memory
  stores the source bytes and touches nothing else.
* `applyAll_erase_programBytes`: the same for a save cut off after any number of
  operations, which is a page erase followed by part of the programming.
* `Disciplined`: the operations erase one page and then program each of its
  half-words at most once; `applyAll_eq_of_disciplined` says that such a list
  changes nothing outside the page.
-/

namespace Stm32Adaptive
namespace FlashMemory

/-- Memory, byte by byte. -/
abbrev Memory := ℕ → UInt8

/-- The value of an erased byte. -/
def erased : UInt8 := 0xFF

/-! ## Half-words -/

/-- The byte of a half-word stored first. -/
def lo (v : UInt16) : UInt8 := UInt8.ofNat v.toNat

/-- The byte of a half-word stored second. -/
def hi (v : UInt16) : UInt8 := UInt8.ofNat (v.toNat / 256)

/-- The half-word of two bytes, low byte first. -/
def ofBytes (l h : UInt8) : UInt16 := UInt16.ofNat (l.toNat + 256 * h.toNat)

theorem toNat_ofBytes (l h : UInt8) : (ofBytes l h).toNat = l.toNat + 256 * h.toNat := by
  have hl := l.toNat_lt
  have hh := h.toNat_lt
  rw [ofBytes, UInt16.toNat_ofNat']
  omega

@[simp] theorem lo_ofBytes (l h : UInt8) : lo (ofBytes l h) = l := by
  apply UInt8.toNat_inj.mp
  have hl := l.toNat_lt
  rw [lo, UInt8.toNat_ofNat', toNat_ofBytes]
  omega

@[simp] theorem hi_ofBytes (l h : UInt8) : hi (ofBytes l h) = h := by
  apply UInt8.toNat_inj.mp
  have hl := l.toNat_lt
  have hh := h.toNat_lt
  rw [hi, UInt8.toNat_ofNat', toNat_ofBytes]
  omega

/-- A half-word is its two bytes. -/
@[simp] theorem ofBytes_lo_hi (v : UInt16) : ofBytes (lo v) (hi v) = v := by
  apply UInt16.toNat_inj.mp
  have hv := v.toNat_lt
  rw [toNat_ofBytes, lo, hi, UInt8.toNat_ofNat', UInt8.toNat_ofNat']
  omega

/-! ## Operations -/

/-- The two ways of changing flash memory. -/
inductive Op where
  | erasePage (start : ℕ)
  | program (addr : ℕ) (value : UInt16)
  deriving DecidableEq

variable {pageSize : ℕ}

/-- The effect of one operation.  Programming a half-word that is not erased is
refused and leaves it as it was.

Two things are simpler here than on a real chip.  There a half-word that is programmed
already can be programmed with 0x0000, and addresses behind the end of the memory are
none.  Over an erased page that lies in the memory it makes no difference. -/
def Op.apply (pageSize : ℕ) : Op → Memory → Memory
  | .erasePage start, m => fun x => if start ≤ x ∧ x < start + pageSize then erased else m x
  | .program addr value, m =>
    if m addr = erased ∧ m (addr + 1) = erased then
      fun x => if x = addr then lo value else if x = addr + 1 then hi value else m x
    else m

/-- The effect of a list of operations, first operation first. -/
def applyAll (pageSize : ℕ) (ops : List Op) (m : Memory) : Memory :=
  ops.foldl (fun m op => op.apply pageSize m) m

@[simp] theorem applyAll_nil (m : Memory) : applyAll pageSize [] m = m := rfl

@[simp] theorem applyAll_cons (op : Op) (ops : List Op) (m : Memory) :
    applyAll pageSize (op :: ops) m = applyAll pageSize ops (op.apply pageSize m) := rfl

theorem applyAll_append (ops ops' : List Op) (m : Memory) :
    applyAll pageSize (ops ++ ops') m = applyAll pageSize ops' (applyAll pageSize ops m) :=
  List.foldl_append

theorem erasePage_apply (start : ℕ) (m : Memory) (x : ℕ) :
    (Op.erasePage start).apply pageSize m x =
      if start ≤ x ∧ x < start + pageSize then erased else m x := rfl

theorem program_apply_of_erased {addr : ℕ} {m : Memory} (h0 : m addr = erased)
    (h1 : m (addr + 1) = erased) (value : UInt16) (x : ℕ) :
    (Op.program addr value).apply pageSize m x =
      if x = addr then lo value else if x = addr + 1 then hi value else m x := by
  rw [Op.apply, if_pos ⟨h0, h1⟩]

theorem program_apply_of_ne {addr x : ℕ} (h0 : x ≠ addr) (h1 : x ≠ addr + 1) (m : Memory)
    (value : UInt16) : (Op.program addr value).apply pageSize m x = m x := by
  rw [Op.apply]
  split
  · simp only [if_neg h0, if_neg h1]
  · rfl

/-! ## Programming consecutive half-words -/

/-- Program the first `n` half-words of `src` from address `dst` on. -/
def programBytes (dst : ℕ) (src : List UInt8) (n : ℕ) : List Op :=
  (List.range n).map fun k =>
    .program (dst + 2 * k) (ofBytes (src.getD (2 * k) 0) (src.getD (2 * k + 1) 0))

@[simp] theorem programBytes_zero (dst : ℕ) (src : List UInt8) : programBytes dst src 0 = [] := rfl

theorem programBytes_succ (dst : ℕ) (src : List UInt8) (n : ℕ) :
    programBytes dst src (n + 1) = programBytes dst src n ++
      [.program (dst + 2 * n) (ofBytes (src.getD (2 * n) 0) (src.getD (2 * n + 1) 0))] := by
  rw [programBytes, List.range_succ, List.map_append]
  rfl

@[simp] theorem length_programBytes (dst : ℕ) (src : List UInt8) (n : ℕ) :
    (programBytes dst src n).length = n := by
  rw [programBytes, List.length_map, List.length_range]

theorem take_programBytes (dst : ℕ) (src : List UInt8) (n k : ℕ) :
    (programBytes dst src n).take k = programBytes dst src (min k n) := by
  rw [programBytes, ← List.map_take, List.take_range, programBytes]

/-- Two stretches programmed one behind the other are one stretch. -/
theorem programBytes_append {dst a : ℕ} {src : List UInt8} (hsrc : src.length = 2 * a)
    (src' : List UInt8) (b : ℕ) :
    programBytes dst (src ++ src') (a + b) =
      programBytes dst src a ++ programBytes (dst + 2 * a) src' b := by
  rw [programBytes, List.range_add, List.map_append, List.map_map]
  refine congrArg₂ _ (List.map_congr_left fun k hk => ?_) (List.map_congr_left fun k _ => ?_)
  · rw [List.mem_range] at hk
    rw [List.getD_append _ _ _ _ (by omega), List.getD_append _ _ _ _ (by omega)]
  · have haddr : dst + 2 * (a + k) = dst + 2 * a + 2 * k := by omega
    have h0 : 2 * (a + k) - 2 * a = 2 * k := by omega
    have h1 : 2 * (a + k) + 1 - 2 * a = 2 * k + 1 := by omega
    rw [Function.comp_apply, List.getD_append_right _ _ _ _ (by omega),
      List.getD_append_right _ _ _ _ (by omega), hsrc, haddr, h0, h1]

/-- **Programming erased memory stores the source bytes.**  Each half-word finds
its two bytes erased, since the ones before it lie below. -/
theorem applyAll_programBytes {dst n : ℕ} {m : Memory} (src : List UInt8)
    (herased : ∀ x, dst ≤ x → x < dst + 2 * n → m x = erased) (x : ℕ) :
    applyAll pageSize (programBytes dst src n) m x =
      if dst ≤ x ∧ x < dst + 2 * n then src.getD (x - dst) 0 else m x := by
  induction n generalizing x with
  | zero => rw [programBytes_zero, applyAll_nil, if_neg (by omega)]
  | succ n ih =>
    have ih' := fun y => ih (fun z hz hz' => herased z hz (by omega)) y
    have h0 : applyAll pageSize (programBytes dst src n) m (dst + 2 * n) = erased := by
      rw [ih', if_neg (by omega), herased _ (by omega) (by omega)]
    have h1 : applyAll pageSize (programBytes dst src n) m (dst + 2 * n + 1) = erased := by
      rw [ih', if_neg (by omega), herased _ (by omega) (by omega)]
    rw [programBytes_succ, applyAll_append, applyAll_cons, applyAll_nil,
      program_apply_of_erased h0 h1, lo_ofBytes, hi_ofBytes, ih']
    by_cases hlo : x = dst + 2 * n
    · rw [if_pos hlo, if_pos (by omega), hlo, Nat.add_sub_cancel_left]
    · by_cases hhi : x = dst + 2 * n + 1
      · rw [if_neg hlo, if_pos hhi, if_pos (by omega), hhi, Nat.add_assoc,
          Nat.add_sub_cancel_left]
      · rw [if_neg hlo, if_neg hhi]
        exact if_congr (by omega) rfl rfl

/-- **A save that is cut off.**  Erasing a page and then programming the first
`k` half-words of `src` into it leaves these bytes, erased bytes behind them,
and the old bytes outside the page. -/
theorem applyAll_erase_programBytes {start k : ℕ} (src : List UInt8) (m : Memory)
    (hfit : 2 * k ≤ pageSize) (x : ℕ) :
    applyAll pageSize (.erasePage start :: programBytes start src k) m x =
      if start ≤ x ∧ x < start + 2 * k then src.getD (x - start) 0
      else if start ≤ x ∧ x < start + pageSize then erased else m x := by
  rw [applyAll_cons, applyAll_programBytes src, erasePage_apply]
  intro y hy hy'
  rw [erasePage_apply, if_pos (by omega)]

/-! ## Writing inside one freshly erased page -/

/-- The addresses of the half-words a list of operations programs, in order. -/
def programmed : List Op → List ℕ
  | [] => []
  | .erasePage _ :: ops => programmed ops
  | .program addr _ :: ops => addr :: programmed ops

theorem programmed_map_program {α : Type*} (l : List α) (addr : α → ℕ) (value : α → UInt16) :
    programmed (l.map fun a => Op.program (addr a) (value a)) = l.map addr := by
  induction l with
  | nil => rfl
  | cons a l ih => rw [List.map_cons, programmed, ih, List.map_cons]

theorem programmed_programBytes (dst : ℕ) (src : List UInt8) (n : ℕ) :
    programmed (programBytes dst src n) = (List.range n).map fun k => dst + 2 * k :=
  programmed_map_program _ _ _

/-- The operations erase the page at `start` and then program half-words inside
it only, no byte of them twice. -/
structure Disciplined (pageSize start : ℕ) (ops : List Op) : Prop where
  /-- The page is erased first, and nothing is erased after that. -/
  erases : ∃ rest, ops = .erasePage start :: rest ∧ ∀ s, .erasePage s ∉ rest
  /-- Every programmed half-word lies in the page. -/
  inside : ∀ a ∈ programmed ops, start ≤ a ∧ a + 2 ≤ start + pageSize
  /-- No two programmed half-words share a byte. -/
  once : (programmed ops).Pairwise fun a b => a + 2 ≤ b ∨ b + 2 ≤ a

theorem applyAll_eq_of_programmed {ops : List Op} {x : ℕ} (herase : ∀ s, .erasePage s ∉ ops)
    (hprog : ∀ a ∈ programmed ops, x ≠ a ∧ x ≠ a + 1) (m : Memory) :
    applyAll pageSize ops m x = m x := by
  induction ops generalizing m with
  | nil => rfl
  | cons op ops ih =>
    rw [applyAll_cons]
    cases op with
    | erasePage s => exact absurd List.mem_cons_self (herase s)
    | program a v =>
      have ha := hprog a List.mem_cons_self
      rw [ih (fun s hs => herase s (List.mem_cons_of_mem _ hs))
        (fun b hb => hprog b (List.mem_cons_of_mem _ hb)), program_apply_of_ne ha.1 ha.2]

/-- **A save that is too long** still leaves the page with the bytes that belong
there: what is programmed behind the page does not come back to it. -/
theorem applyAll_erase_programBytes_of_mem {start n x : ℕ} (src : List UInt8) (m : Memory)
    (heven : 2 ∣ pageSize) (hx : start ≤ x) (hx' : x < start + pageSize) :
    applyAll pageSize (.erasePage start :: programBytes start src n) m x =
      if x < start + 2 * n then src.getD (x - start) 0 else erased := by
  rcases Nat.lt_or_ge pageSize (2 * n) with hlong | hfit
  · obtain ⟨k, rfl⟩ := heven
    obtain ⟨r, rfl⟩ : ∃ r, n = k + r := ⟨n - k, by omega⟩
    have hsplit : programBytes start src (k + r) = programBytes start src k ++
        (List.range r).map fun j => Op.program (start + 2 * (k + j))
          (ofBytes (src.getD (2 * (k + j)) 0) (src.getD (2 * (k + j) + 1) 0)) := by
      rw [programBytes, List.range_add, List.map_append, List.map_map]
      rfl
    rw [hsplit, ← List.cons_append, applyAll_append, applyAll_eq_of_programmed,
      applyAll_erase_programBytes src m (le_refl _), if_pos ⟨hx, hx'⟩, if_pos (by omega)]
    · intro s hs
      obtain ⟨j, -, hj⟩ := List.mem_map.mp hs
      exact Op.noConfusion hj
    · intro a ha
      rw [programmed_map_program, List.mem_map] at ha
      obtain ⟨j, -, rfl⟩ := ha
      omega
  · rw [applyAll_erase_programBytes src m hfit]
    by_cases hwritten : x < start + 2 * n
    · rw [if_pos ⟨hx, hwritten⟩, if_pos hwritten]
    · rw [if_neg (by omega), if_pos ⟨hx, hx'⟩, if_neg hwritten]

/-- **Disciplined writing stays in its page.** -/
theorem applyAll_eq_of_disciplined {start : ℕ} {ops : List Op}
    (h : Disciplined pageSize start ops) (m : Memory) {x : ℕ}
    (hx : ¬(start ≤ x ∧ x < start + pageSize)) : applyAll pageSize ops m x = m x := by
  obtain ⟨rest, rfl, herase⟩ := h.erases
  rw [applyAll_cons, applyAll_eq_of_programmed herase, erasePage_apply, if_neg hx]
  intro a ha
  have := h.inside a ha
  omega

theorem pairwise_programmed_programBytes (dst : ℕ) (src : List UInt8) (n : ℕ) :
    (programmed (programBytes dst src n)).Pairwise fun a b => a + 2 ≤ b ∨ b + 2 ≤ a := by
  rw [programmed_programBytes, List.pairwise_map]
  exact List.pairwise_lt_range.imp fun hab => Or.inl (by omega)

theorem erasePage_notMem_programBytes (dst : ℕ) (src : List UInt8) (n s : ℕ) :
    .erasePage s ∉ programBytes dst src n := by
  rw [programBytes, List.mem_map]
  rintro ⟨k, -, hk⟩
  exact Op.noConfusion hk

/-- **Erasing a page and programming a stretch of it is disciplined exactly when
the stretch fits.** -/
theorem disciplined_erase_programBytes_iff {start n : ℕ} (src : List UInt8) :
    Disciplined pageSize start (.erasePage start :: programBytes start src n) ↔
      2 * n ≤ pageSize := by
  constructor
  · intro h
    rcases Nat.eq_zero_or_pos n with rfl | hn
    · omega
    · have hlast : start + 2 * (n - 1) ∈
          programmed (.erasePage start :: programBytes start src n) := by
        rw [programmed, programmed_programBytes]
        exact List.mem_map.mpr ⟨n - 1, List.mem_range.mpr (by omega), rfl⟩
      have := h.inside _ hlast
      omega
  · intro hfit
    refine ⟨⟨_, rfl, erasePage_notMem_programBytes start src n⟩, ?_,
      pairwise_programmed_programBytes start src n⟩
    intro a ha
    rw [programmed, programmed_programBytes, List.mem_map] at ha
    obtain ⟨k, hk, rfl⟩ := ha
    rw [List.mem_range] at hk
    omega

end FlashMemory
end Stm32Adaptive
