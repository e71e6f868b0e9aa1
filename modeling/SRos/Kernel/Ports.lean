import SRos.Kernel.Machine
import SRos.Lib.Threads

/-!
# Port accesses (`src/include/io.h`)

A driver is a program of port accesses. What a read of a port gives, and what a write does, is
up to the hardware behind the ports.
-/

namespace SRos

inductive Port
  | inb (port : Nat)
  | outb (port : Nat) (val : UInt8)
  | inw (port : Nat)
  | outw (port : Nat) (val : UInt16)
  | inl (port : Nat)
  | outl (port : Nat) (val : UInt32)

abbrev Port.Answer : Port → Type
  | .inb _ => UInt8
  | .outb _ _ => Unit
  | .inw _ => UInt16
  | .outw _ _ => Unit
  | .inl _ => UInt32
  | .outl _ _ => Unit

abbrev PortProg := Prog Port Port.Answer

def access (a : Port) : PortProg a.Answer := .perform a

def inb (port : Nat) : PortProg UInt8 := access (.inb port)

def outb (port : Nat) (val : UInt8) : PortProg Unit := access (.outb port val)

def inw (port : Nat) : PortProg UInt16 := access (.inw port)

def outw (port : Nat) (val : UInt16) : PortProg Unit := access (.outw port val)

def inl (port : Nat) : PortProg UInt32 := access (.inl port)

def outl (port : Nat) (val : UInt32) : PortProg Unit := access (.outl port val)

/-- The hardware behind the ports. -/
abbrev Device (σ : Type) := (a : Port) → σ → a.Answer × σ

/-- A device that a driver has to itself. -/
def Device.machine {σ : Type} (d : Device σ) : Machine Port Port.Answer σ Unit := ⟨d, fun _ _ _ => ()⟩

@[simp] theorem Device.machine_exec {σ : Type} (d : Device σ) (a : Port) (s : σ) :
    d.machine.exec a s = d a s := rfl

end SRos
