import Stm32Adaptive.Interface
import Stm32Adaptive.PatternPage

/-!
# Uploading a pattern table

`scripts/post_script.py` writes a pattern table to the serial line;
`handle_usart` reads it and saves it; `getPattern` looks it up.  The three agree
on a record without sharing a line of code: the host converts integers to
big-endian bytes, the firmware reinterprets pairs of bytes, and the flash holds
packed records behind a two-byte header.

`upload_roundtrip` says that the table looked up is the table uploaded.  Its two
halves are `uploadProtocols_eq`, which turns the host's bytes into those the
command reads, and the lookup in a page just saved.
-/

namespace Stm32Adaptive

open FlashMemory Flash

/-! ## The host's script -/

/-- `Proto`, with the tolerance already scaled and truncated to
`int(p.tolerance * 255)`. -/
structure Proto where
  timings : List ℤ
  tolerance : ℤ

/-- Python's `int.to_bytes` with byte order `big`; an overflow is an exception. -/
def toBytesBig (v : ℤ) (length : ℕ) : Option (List UInt8) :=
  if 0 ≤ v ∧ v < 256 ^ length then
    some ((List.range length).reverse.map fun k => UInt8.ofNat (v.toNat / 256 ^ k))
  else none

/-- The bytes of one protocol. -/
def Proto.bytes (p : Proto) : Option (List UInt8) := do
  let timings ← p.timings.mapM fun v => toBytesBig v 2
  let tolerance ← toBytesBig p.tolerance 1
  return timings.flatten ++ tolerance

/-- `upload_protocols`: what it writes to the serial line. -/
def uploadProtocols (protos : List Proto) : Option (List UInt8) := do
  let command ← toBytesBig 1 1
  let count ← toBytesBig protos.length 1
  let records ← protos.mapM Proto.bytes
  return command ++ count ++ records.flatten

/-! ## The bytes -/

/-- A protocol the firmware can store: eight timings of 16 bits, and a tolerance
byte. -/
structure Proto.Valid (p : Proto) : Prop where
  length_timings : p.timings.length = 8
  timings : ∀ v ∈ p.timings, 0 ≤ v ∧ v ≤ 65535
  tolerance : 0 ≤ p.tolerance ∧ p.tolerance ≤ 255

/-- The pattern a protocol is stored as. -/
def Proto.pattern (p : Proto) : PeriodPattern where
  padding := 0
  periods j := UInt16.ofNat (p.timings.getD j.val 0).toNat
  toleranceMul255 := UInt8.ofNat p.tolerance.toNat

theorem mapM_eq_some_map {α β : Type} {f : α → Option β} {g : α → β} {l : List α}
    (h : ∀ a ∈ l, f a = some (g a)) : l.mapM f = some (l.map g) := by
  induction l with
  | nil => rfl
  | cons a l ih =>
    rw [List.mapM_cons, h a List.mem_cons_self, ih fun b hb => h b (List.mem_cons_of_mem a hb)]
    rfl

theorem toBytesBig_one {v : ℤ} (h0 : 0 ≤ v) (h : v ≤ 255) :
    toBytesBig v 1 = some [UInt8.ofNat v.toNat] := by
  rw [toBytesBig, if_pos ⟨h0, by omega⟩]
  simp

/-- Two bytes, the upper one first. -/
theorem toBytesBig_two {v : ℤ} (h0 : 0 ≤ v) (h : v ≤ 65535) :
    toBytesBig v 2 = some [hi (UInt16.ofNat v.toNat), lo (UInt16.ofNat v.toNat)] := by
  have hv : (UInt16.ofNat v.toNat).toNat = v.toNat := by
    rw [UInt16.toNat_ofNat']
    omega
  rw [toBytesBig, if_pos ⟨h0, by omega⟩, hi, lo, hv]
  simp [List.range_succ]

theorem Proto.Valid.bytes_eq {p : Proto} (h : p.Valid) :
    p.bytes = some (Mcu.recordBytes p.pattern) := by
  have htimings : p.timings.mapM (fun v => toBytesBig v 2) = some (p.timings.map fun v =>
      [hi (UInt16.ofNat v.toNat), lo (UInt16.ofNat v.toNat)]) :=
    mapM_eq_some_map fun v hv => toBytesBig_two (h.timings v hv).1 (h.timings v hv).2
  have hlist : p.timings = (List.finRange 8).map fun j => p.timings.getD j.val 0 := by
    refine List.ext_getElem (by rw [h.length_timings]; rfl) fun i hi _ => ?_
    rw [List.getElem_map, List.getElem_finRange]
    exact (List.getD_eq_getElem _ _ hi).symm
  have hflat : (p.timings.map fun v =>
      [hi (UInt16.ofNat v.toNat), lo (UInt16.ofNat v.toNat)]).flatten =
      (List.finRange 8).flatMap fun j => [hi (p.pattern.periods j), lo (p.pattern.periods j)] := by
    conv_lhs => rw [hlist]
    rw [List.map_map]
    rfl
  rw [Proto.bytes, htimings, toBytesBig_one h.tolerance.1 h.tolerance.2]
  exact congrArg (fun l => some (l ++ [p.pattern.toleranceMul255])) hflat

/-- **What the host writes is what the command reads.** -/
theorem uploadProtocols_eq {protos : List Proto} (hlen : protos.length ≤ 255)
    (hvalid : ∀ p ∈ protos, p.Valid) :
    uploadProtocols protos = some (Mcu.cSetup :: UInt8.ofNat protos.length ::
      (protos.map Proto.pattern).flatMap Mcu.recordBytes) := by
  have hcount : toBytesBig protos.length 1 = some [UInt8.ofNat protos.length] :=
    toBytesBig_one (Int.natCast_nonneg _) (by exact_mod_cast hlen)
  rw [uploadProtocols, toBytesBig_one (by decide) (by decide), hcount,
    mapM_eq_some_map fun p hp => (hvalid p hp).bytes_eq]
  refine congrArg (fun l => some (Mcu.cSetup :: UInt8.ofNat protos.length :: l)) ?_
  rw [List.flatMap_map]
  rfl

/-! ## The round trip -/

/-- **Uploading a table and looking it up.**  For every list of valid protocols
that fits in the page and for every state of the chip, the bytes the host writes
are taken by one call of `handle_usart`, and afterwards each index below the
number of protocols is mapped to a record with the timings and the tolerance of
its protocol and a padding byte of zero, every other index to the null pointer. -/
theorem upload_roundtrip (protos : List Proto) (hfit : 2 + 18 * protos.length ≤ 1024)
    (hvalid : ∀ p ∈ protos, p.Valid) (m : Mcu) :
    ∃ bytes m', uploadProtocols protos = some bytes ∧ (m.feed bytes).handleUsart = some m' ∧
      m'.inputQueue = [] ∧
      (∀ i (hi : i < protos.length), ∃ q, storedPattern m'.flash i = some q ∧
        (∀ j : Fin 8, ((q.periods j).toNat : ℤ) = protos[i].timings.getD j.val 0) ∧
        (q.toleranceMul255.toNat : ℤ) = protos[i].tolerance ∧ q.padding = 0) ∧
      ∀ i : ℤ, i < 0 ∨ protos.length ≤ i → getPattern m'.flash i = none := by
  have hlen : (protos.map Proto.pattern).length = protos.length := List.length_map _
  have hpad : ∀ p ∈ protos.map Proto.pattern, p.padding = 0 := by
    intro p hp
    obtain ⟨proto, -, rfl⟩ := List.mem_map.mp hp
    rfl
  have hpage : Fits (protos.map Proto.pattern).length := by
    rw [hlen]
    exact hfit
  have hsetup := Mcu.handleUsart_setup (by rw [hlen]; omega) hpad m []
  have hupload := uploadProtocols_eq (by omega) hvalid
  rw [List.append_nil] at hsetup
  rw [← hlen] at hupload
  refine ⟨_, _, hupload, hsetup, rfl, ?_, ?_⟩
  · intro i hi
    have hstored := storedPattern_savePatterns hpage hpad m.flash i (by rw [hlen]; exact hi)
    rw [List.getElem_map] at hstored
    have hproto := hvalid _ (List.getElem_mem hi)
    refine ⟨_, hstored, ?_, ?_, rfl⟩
    · intro j
      have hmem : protos[i].timings.getD j.val 0 ∈ protos[i].timings := by
        rw [List.getD_eq_getElem _ _ (by rw [hproto.length_timings]; exact j.isLt)]
        exact List.getElem_mem _
      obtain ⟨h0, hmax⟩ := hproto.timings _ hmem
      simp only [Proto.pattern]
      rw [UInt16.toNat_ofNat']
      omega
    · obtain ⟨h0, hmax⟩ := hproto.tolerance
      simp only [Proto.pattern]
      rw [UInt8.toNat_ofNat']
      omega
  · intro i hi
    exact getPattern_savePatterns_eq_none hpage hpad m.flash (by rwa [hlen])

/-- The protocols of the script, the tolerance being `int(0.3 * 255)`. -/
def scriptProtos : List Proto :=
  [⟨[360, 11160, 0, 0, 0, 0, 0, 0], 76⟩, ⟨[360, 1080, 360, 1080, 0, 0, 0, 0], 76⟩,
    ⟨[360, 1080, 1080, 360, 0, 0, 0, 0], 76⟩]

/-- The script's own table comes back. -/
theorem upload_roundtrip_scriptProtos :
    ∃ bytes m', uploadProtocols scriptProtos = some bytes ∧
      ((Mcu.initial blank).feed bytes).handleUsart = some m' ∧
      (∃ q, storedPattern m'.flash (0 : ℕ) = some q ∧ ((q.periods 1).toNat : ℤ) = 11160) ∧
      getPattern m'.flash 3 = none := by
  have hvalid : ∀ p ∈ scriptProtos, p.Valid := by
    intro p hp
    rcases List.mem_cons.mp hp with rfl | hp
    · exact ⟨rfl, by decide, by decide⟩
    · rcases List.mem_pair.mp hp with rfl | rfl <;> exact ⟨rfl, by decide, by decide⟩
  obtain ⟨bytes, m', hbytes, hm', -, hstored, hnull⟩ :=
    upload_roundtrip scriptProtos (by decide) hvalid (Mcu.initial blank)
  obtain ⟨q, hq, hperiods, -⟩ := hstored 0 (by decide)
  exact ⟨bytes, m', hbytes, hm', ⟨q, hq, hperiods 1⟩, hnull 3 (Or.inr (by decide))⟩

end Stm32Adaptive
