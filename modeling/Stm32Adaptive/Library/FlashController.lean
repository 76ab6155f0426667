import Stm32Adaptive.Library.FlashMemory

/-!
# The registers in front of a flash memory

A flash memory is not written directly.  A controller unlocks on two keys, takes its
orders through a control register and stores to the memory, and says in a status register
when an operation is over and how it went; an operation takes a number of reads of that
register that the program cannot know.

`View` is the state that the documentation of such a controller speaks about, with what
each access does to it; `none` is an access that is not documented, such as one while an
operation is under way.  A `Controller` is any device that keeps to it.
-/

namespace Stm32Adaptive
namespace FlashMemory

/-- The flags of the status register. -/
structure Status where
  /-- `BSY`. -/
  bsy : Bool
  /-- `PGERR`. -/
  pgerr : Bool
  /-- `WRPERR`. -/
  wrperr : Bool
  /-- `EOP`. -/
  eop : Bool
  deriving DecidableEq

/-- The bits of the control register. -/
structure Control where
  /-- `PG`. -/
  pg : Bool
  /-- `PER`. -/
  per : Bool
  /-- `STRT`. -/
  strt : Bool
  /-- `LOCK`. -/
  lock : Bool
  deriving DecidableEq

/-- Programming needs an erased half-word.  A real controller also accepts the value 0x0000
for one that is programmed already. -/
def Op.accepted (m : Memory) : Op → Bool
  | .erasePage _ => true
  | .program addr _ => m addr = erased && m (addr + 1) = erased

/-- Every operation of a list is accepted when it is its turn. -/
def Accepted (pageSize : ℕ) : List Op → Memory → Prop
  | [], _ => True
  | op :: ops, m => op.accepted m = true ∧ Accepted pageSize ops (op.apply pageSize m)

theorem accepted_append {pageSize : ℕ} {ops ops' : List Op} {m : Memory} :
    Accepted pageSize (ops ++ ops') m ↔
      Accepted pageSize ops m ∧ Accepted pageSize ops' (applyAll pageSize ops m) := by
  induction ops generalizing m with
  | nil => exact (and_iff_right trivial).symm
  | cons op ops ih => rw [List.cons_append, Accepted, Accepted, ih, applyAll_cons, and_assoc]

/-- Erased memory accepts a stretch of half-words. -/
theorem accepted_programBytes {pageSize dst n : ℕ} {m : Memory} (src : List UInt8)
    (herased : ∀ x, dst ≤ x → x < dst + 2 * n → m x = erased) :
    Accepted pageSize (programBytes dst src n) m := by
  induction n with
  | zero => exact trivial
  | succ n ih =>
    have hafter : ∀ x, dst + 2 * n ≤ x → x < dst + 2 * (n + 1) →
        applyAll pageSize (programBytes dst src n) m x = erased := fun x hx hx' => by
      rw [applyAll_programBytes src fun y hy hy' => herased y hy (by omega), if_neg (by omega),
        herased x (by omega) hx']
    rw [programBytes_succ, accepted_append]
    refine ⟨ih fun x hx hx' => herased x hx (by omega), ?_, trivial⟩
    rw [Op.accepted, hafter _ le_rfl (by omega), hafter _ (by omega) (by omega)]
    rfl

/-- The documented state. -/
structure View where
  memory : Memory
  /-- The operation that is under way. -/
  current : Option Op
  control : Control
  /-- The address register. -/
  ar : ℕ
  /-- The first key has been written. -/
  keyed : Bool
  pgerr : Bool
  wrperr : Bool
  eop : Bool

namespace View

/-- The end of an operation, at which all of its effect takes place; a loss of power before
leaves the memory as it was.  What `Op.apply` and `Op.accepted` say of 0x0000 holds here
too. -/
def finish (pageSize : ℕ) (op : Op) (v : View) : View :=
  { v with
    current := none
    memory := op.apply pageSize v.memory
    pgerr := v.pgerr || !op.accepted v.memory
    eop := v.eop || op.accepted v.memory }

/-- A flag is cleared by writing a one. -/
def writeSr (sr : Status) (v : View) : Option View :=
  match v.current with
  | some _ => none
  | none => some
    { v with
      pgerr := v.pgerr && !sr.pgerr
      wrperr := v.wrperr && !sr.wrperr
      eop := v.eop && !sr.eop }

/-- The start bit erases the page of the address register. -/
def writeCr (pageSize : ℕ) (cr : Control) (v : View) : Option View :=
  match v.current, v.control.lock with
  | none, false =>
    if !cr.strt then some { v with control := cr }
    else if cr.per && !cr.pg then
      some { v with
        control := { cr with strt := false }
        current := some (.erasePage (v.ar - v.ar % pageSize)) }
    else none
  | _, _ => none

def writeAr (ar : ℕ) (v : View) : Option View :=
  match v.current with
  | some _ => none
  | none => some { v with ar := ar }

/-- Two keys in order open the control register. -/
def writeKeyr (key1 key2 key : UInt32) (v : View) : Option View :=
  match v.current, v.control.lock, v.keyed with
  | none, true, false => if key = key1 then some { v with keyed := true } else none
  | none, true, true =>
    if key = key2 then some { v with keyed := false, control := { v.control with lock := false } }
    else none
  | _, _, _ => none

/-- A store to the memory in the programming mode.  Every address is memory here, also
those behind the end of a real one. -/
def store (addr : ℕ) (value : UInt16) (v : View) : Option View :=
  match v.current, v.control.lock, v.control.pg, v.control.per with
  | none, false, true, false => some { v with current := some (.program addr value) }
  | _, _, _, _ => none

end View

/-- A device that behaves as documented. -/
structure Controller (pageSize : ℕ) where
  State : Type
  view : State → View
  /-- `KEY1`. -/
  key1 : UInt32
  /-- `KEY2`. -/
  key2 : UInt32
  /-- The value of the status register. -/
  statusWord : Status → UInt32
  /-- How many more reads of the status register an operation takes at most. -/
  remaining : State → ℕ
  /-- A bound on that for every operation. -/
  limit : ℕ
  readSr : State → Status × State
  readCr : State → Control × State
  writeSr : Status → State → State
  writeCr : Control → State → State
  writeAr : ℕ → State → State
  writeKeyr : UInt32 → State → State
  store : ℕ → UInt16 → State → State
  remaining_le : ∀ s, remaining s ≤ limit
  readSr_of_idle : ∀ s, (view s).current = none →
    (readSr s).1 = ⟨false, (view s).pgerr, (view s).wrperr, (view s).eop⟩ ∧
      view (readSr s).2 = view s
  readSr_of_busy : ∀ s op, (view s).current = some op →
    (readSr s).1.bsy = true ∧ view (readSr s).2 = view s ∧
        remaining (readSr s).2 < remaining s ∨
      (readSr s).1.bsy = false ∧ view (readSr s).2 = (view s).finish pageSize op
  readCr_of_idle : ∀ s, (view s).current = none →
    (readCr s).1 = (view s).control ∧ view (readCr s).2 = view s
  view_writeSr : ∀ s sr v, (view s).writeSr sr = some v → view (writeSr sr s) = v
  view_writeCr : ∀ s cr v, (view s).writeCr pageSize cr = some v → view (writeCr cr s) = v
  view_writeAr : ∀ s ar v, (view s).writeAr ar = some v → view (writeAr ar s) = v
  view_writeKeyr : ∀ s key v, (view s).writeKeyr key1 key2 key = some v →
    view (writeKeyr key s) = v
  view_store : ∀ s addr value v, (view s).store addr value = some v →
    view (store addr value s) = v

/-- A device on which every operation takes the same number of reads, and an access that
is not documented does nothing. -/
def Controller.steady (pageSize : ℕ) (key1 key2 : UInt32) (delay : ℕ) : Controller pageSize where
  State := View × Fin (delay + 1)
  view := Prod.fst
  key1 := key1
  key2 := key2
  statusWord := fun sr =>
    (if sr.bsy then 1 else 0) + (if sr.pgerr then 4 else 0) + (if sr.wrperr then 16 else 0) +
      (if sr.eop then 32 else 0)
  remaining := fun s => s.2.val
  limit := delay
  readSr := fun s =>
    match s.1.current, s.2 with
    | none, n => (⟨false, s.1.pgerr, s.1.wrperr, s.1.eop⟩, (s.1, n))
    | some op, ⟨0, _⟩ =>
      let v := s.1.finish pageSize op
      (⟨false, v.pgerr, v.wrperr, v.eop⟩, (v, Fin.last delay))
    | some _, ⟨n + 1, h⟩ =>
      (⟨true, s.1.pgerr, s.1.wrperr, s.1.eop⟩, (s.1, ⟨n, Nat.lt_of_succ_lt h⟩))
  readCr := fun s => (s.1.control, s)
  writeSr := fun sr s => ((s.1.writeSr sr).getD s.1, s.2)
  writeCr := fun cr s => ((s.1.writeCr pageSize cr).getD s.1, s.2)
  writeAr := fun ar s => ((s.1.writeAr ar).getD s.1, s.2)
  writeKeyr := fun key s => ((s.1.writeKeyr key1 key2 key).getD s.1, s.2)
  store := fun addr value s => ((s.1.store addr value).getD s.1, s.2)
  remaining_le := fun s => Nat.le_of_lt_succ s.2.isLt
  readSr_of_idle := by
    rintro ⟨v, n⟩ h
    dsimp only at h
    simp only [h, and_self]
  readSr_of_busy := by
    rintro ⟨v, n, hn⟩ op h
    dsimp only at h
    cases n with
    | zero => exact Or.inr (by simp only [h, and_self])
    | succ n => exact Or.inl (by simp only [h, Nat.lt_succ_self, and_self])
  readCr_of_idle := fun _ _ => ⟨rfl, rfl⟩
  view_writeSr := fun s sr v h => congrArg (Option.getD · s.1) h
  view_writeCr := fun s cr v h => congrArg (Option.getD · s.1) h
  view_writeAr := fun s ar v h => congrArg (Option.getD · s.1) h
  view_writeKeyr := fun s key v h => congrArg (Option.getD · s.1) h
  view_store := fun s addr value v h => congrArg (Option.getD · s.1) h

end FlashMemory
end Stm32Adaptive
