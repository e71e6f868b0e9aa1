import SRos.Kernel.Machine
import SRos.Lib.X86

/-!
# Descriptor tables

A translation of `kernel/gdt.c` and of the gates of `kernel/idt.c`, and how the processor reads
the entries. The addresses of the stubs and of the task state segment are arguments.
-/

namespace SRos

open X86

/-! ## Segments -/

/-- `struct gdt_entry`. -/
structure GdtEntry where
  limitLow : UInt16
  baseLow : UInt16
  baseMiddle : UInt8
  access : UInt8
  granularity : UInt8
  baseHigh : UInt8
  deriving DecidableEq

def gdtSetEntry (base limit : UInt32) (access gran : UInt8) : GdtEntry where
  limitLow := (limit &&& 0xFFFF).toUInt16
  baseLow := (base &&& 0xFFFF).toUInt16
  baseMiddle := ((base >>> 16) &&& 0xFF).toUInt8
  access := access
  granularity := ((limit >>> 16) &&& 0x0F).toUInt8 ||| (gran &&& 0xF0)
  baseHigh := ((base >>> 24) &&& 0xFF).toUInt8

def sizeofTss : UInt32 := 104

/-- The table that `gdt_init` fills in, with the task state segment at the address `tss`. -/
def gdtInit (tss : UInt32) : Nat → GdtEntry
  | 1 => gdtSetEntry 0 0xFFFFF 0x9A 0xCF
  | 2 => gdtSetEntry 0 0xFFFFF 0x92 0xCF
  | 3 => gdtSetEntry 0 0xFFFFF 0xFA 0xCF
  | 4 => gdtSetEntry 0 0xFFFFF 0xF2 0xCF
  | 5 => gdtSetEntry tss (sizeofTss - 1) 0x89 0x00
  | _ => gdtSetEntry 0 0 0 0

namespace GdtEntry

def base (e : GdtEntry) : Nat :=
  e.baseLow.toNat + 2 ^ 16 * e.baseMiddle.toNat + 2 ^ 24 * e.baseHigh.toNat

/-- The last byte of the segment. -/
def limit (e : GdtEntry) : Nat :=
  let limit := e.limitLow.toNat + 2 ^ 16 * (e.granularity.toNat % 2 ^ 4)
  if e.granularity.toNat.testBit 7 then limit * 2 ^ 12 + 4095 else limit

def dpl (e : GdtEntry) : Nat := e.access.toNat / 2 ^ 5 % 4

end GdtEntry

/-- The privilege level of the segment that a selector selects. -/
def segDpl (tss : UInt32) (selector : UInt16) : Nat := (gdtInit tss (selector.toNat / 8)).dpl

/-! ## Gates -/

/-- `struct idt_entry`. -/
structure IdtEntry where
  offsetLow : UInt16
  selector : UInt16
  zero : UInt8
  typeAttr : UInt8
  offsetHigh : UInt16
  deriving DecidableEq

def idtSetGate (handler : UInt32) (selector : UInt16) (typeAttr : UInt8) : IdtEntry where
  offsetLow := (handler &&& 0xFFFF).toUInt16
  selector := selector
  zero := 0
  typeAttr := typeAttr
  offsetHigh := ((handler >>> 16) &&& 0xFFFF).toUInt16

/-- The vectors of the exceptions that have a stub. -/
def exceptionVectors : List Nat := [0, 1, 3, 4, 6, 7, 8, 10, 11, 12, 13, 14, 16, 17, 18, 19]

/-- The table that `idt_init` fills in, with the stub of a vector at `isr vector`. -/
def idtInit (isr : Nat → UInt32) (vector : Nat) : IdtEntry :=
  if vector ∈ exceptionVectors ∨ 32 ≤ vector ∧ vector < 48 then
    idtSetGate (isr vector) 0x08 0x8E
  else if vector = 128 then idtSetGate (isr vector) 0x08 0xEF
  else ⟨0, 0, 0, 0, 0⟩

/-- How the processor reads an entry. The two low bits of a gate's type are those of all gates. -/
def IdtEntry.gate (e : IdtEntry) : Gate where
  present := e.typeAttr.toNat.testBit 7
  dpl := e.typeAttr.toNat / 2 ^ 5 % 4
  trap := e.typeAttr.toNat.testBit 0
  selector := e.selector
  offset := UInt32.ofNat (e.offsetLow.toNat + 2 ^ 16 * e.offsetHigh.toNat)

/-! ## What the processor finds -/

section Fields

variable (x : UInt32)

@[simp] theorem toNat_mask16 : (x &&& 0xFFFF).toUInt16.toNat = x.toNat % 2 ^ 16 := by
  have hmod := Nat.and_two_pow_sub_one_eq_mod (x.toNat % 2 ^ 16) 16
  simpa using hmod

@[simp] theorem toNat_mask8 : (x &&& 0xFF).toUInt8.toNat = x.toNat % 2 ^ 8 := by
  have hmod := Nat.and_two_pow_sub_one_eq_mod (x.toNat % 2 ^ 8) 8
  simpa using hmod

@[simp] theorem toNat_shiftRight16 : (x >>> 16).toNat = x.toNat / 2 ^ 16 := by
  simp [Nat.shiftRight_eq_div_pow]

@[simp] theorem toNat_shiftRight24 : (x >>> 24).toNat = x.toNat / 2 ^ 24 := by
  simp [Nat.shiftRight_eq_div_pow]

end Fields

theorem base_gdtSetEntry (base limit : UInt32) (access gran : UInt8) :
    (gdtSetEntry base limit access gran).base = base.toNat := by
  have hlt := base.toNat_lt
  simp only [GdtEntry.base, gdtSetEntry, toNat_mask16, toNat_mask8, toNat_shiftRight16,
    toNat_shiftRight24]
  omega

theorem granularity_gdtSetEntry (base limit : UInt32) (access gran : UInt8) :
    (gdtSetEntry base limit access gran).granularity.toNat =
      2 ^ 4 * (gran.toNat / 2 ^ 4) + limit.toNat / 2 ^ 16 % 2 ^ 4 := by
  have hlow : ((limit >>> 16) &&& 0x0F).toUInt8.toNat = limit.toNat / 2 ^ 16 % 2 ^ 4 := by
    have hmod := Nat.and_two_pow_sub_one_eq_mod (limit.toNat / 2 ^ 16 % 2 ^ 8) 4
    have hdvd := Nat.mod_mod_of_dvd (limit.toNat / 2 ^ 16) (show 2 ^ 4 ∣ 2 ^ 8 by decide)
    simpa [Nat.shiftRight_eq_div_pow, hdvd] using hmod
  have hhigh : (gran &&& 0xF0).toNat = 2 ^ 4 * (gran.toNat / 2 ^ 4) := by
    have hand := @Bytes.and_highMask gran.toNat 4 4 gran.toNat_lt
    rw [Nat.mul_comm]
    simpa using hand
  have hlt : limit.toNat / 2 ^ 16 % 2 ^ 4 < 2 ^ 4 := Nat.mod_lt _ (by decide)
  change (_ ||| _ : UInt8).toNat = _
  rw [UInt8.toNat_or, hlow, hhigh, Nat.or_comm, ← Nat.two_pow_add_eq_or_of_lt hlt]

theorem offset_idtSetGate (handler : UInt32) (selector : UInt16) (typeAttr : UInt8) :
    (idtSetGate handler selector typeAttr).gate.offset = handler := by
  have hlt := handler.toNat_lt
  apply UInt32.toNat_inj.mp
  simp only [IdtEntry.gate, idtSetGate, toNat_mask16, toNat_shiftRight16]
  rw [UInt32.toNat_ofNat_of_lt' (by change _ < 2 ^ 32; omega)]
  omega

theorem limit_gdtSetEntry (base limit : UInt32) (access gran : UInt8) :
    (gdtSetEntry base limit access gran).limit =
      if gran.toNat.testBit 7 then limit.toNat % 2 ^ 20 * 2 ^ 12 + 4095 else limit.toNat % 2 ^ 20 := by
  have hbit : (gdtSetEntry base limit access gran).granularity.toNat.testBit 7 =
      gran.toNat.testBit 7 := by
    have hlt := gran.toNat_lt
    rw [granularity_gdtSetEntry, Nat.testBit_eq_decide_div_mod_eq, Nat.testBit_eq_decide_div_mod_eq]
    congr 2
    omega
  have hlimit : (gdtSetEntry base limit access gran).limitLow.toNat +
      2 ^ 16 * ((gdtSetEntry base limit access gran).granularity.toNat % 2 ^ 4) =
        limit.toNat % 2 ^ 20 := by
    rw [granularity_gdtSetEntry]
    simp only [gdtSetEntry, toNat_mask16]
    omega
  simp only [GdtEntry.limit, hbit, hlimit]

theorem gate_idtSetGate (handler : UInt32) (selector : UInt16) (typeAttr : UInt8) :
    (idtSetGate handler selector typeAttr).gate =
      ⟨typeAttr.toNat.testBit 7, typeAttr.toNat / 2 ^ 5 % 4, typeAttr.toNat.testBit 0, selector,
        handler⟩ := by
  have hoffset := offset_idtSetGate handler selector typeAttr
  unfold IdtEntry.gate at hoffset ⊢
  dsimp only at hoffset ⊢
  rw [hoffset]
  rfl

end SRos
