import SRos.Kernel.Ports
import SRos.Lib.Search

/-!
# The PCI bus (`src/drivers/pci.c`)

The configuration space is read through an address port and a data port. The two searches of the
driver walk over buses, devices and functions in the same way and differ in what they look for: a
device whose function 0 is missing is left at once, and so is one that has a single function.
-/

namespace SRos.Pci

def pciConfigAddress : Nat := 0x0CF8

def pciConfigData : Nat := 0x0CFC

def pciVendorId : Nat := 0x00

def pciDeviceId : Nat := 0x02

def pciCommand : Nat := 0x04

def pciClassSubclass : Nat := 0x08

def pciHeaderType : Nat := 0x0E

def pciBar0 : Nat := 0x10

def pciInterruptLine : Nat := 0x3C

/-- `PCI_CMD_IO_SPACE | PCI_CMD_MEM_SPACE | PCI_CMD_BUS_MASTER` -/
def pciCmdEnable : UInt16 := 0x0001 ||| 0x0002 ||| 0x0004

/-- A function of a device on a bus. -/
structure Fn where
  bus : Nat
  dev : Nat
  func : Nat
  deriving DecidableEq

def address (f : Fn) (offset : Nat) : UInt32 :=
  (0x80000000 : UInt32) ||| UInt32.ofNat f.bus <<< 16 ||| UInt32.ofNat f.dev <<< 11 |||
    UInt32.ofNat f.func <<< 8 ||| UInt32.ofNat (offset &&& 0xFC)

def pciConfigRead (f : Fn) (offset : Nat) : PortProg UInt32 := do
  outl pciConfigAddress (address f offset)
  inl pciConfigData

def pciConfigWrite (f : Fn) (offset : Nat) (value : UInt32) : PortProg Unit := do
  outl pciConfigAddress (address f offset)
  outl pciConfigData value

structure PciDevice where
  fn : Fn
  vendorId : UInt16
  deviceId : UInt16
  classCode : UInt8
  subclass : UInt8
  progIf : UInt8
  irqLine : UInt8
  bar : List UInt32
  deriving DecidableEq

/-- `pci_read_bars`, from register `i` on for `n` registers. -/
def pciReadBars (f : Fn) : Nat → Nat → PortProg (List UInt32)
  | 0, _ => return []
  | n + 1, i => do
      let bar ← pciConfigRead f (pciBar0 + i * 4)
      let bars ← pciReadBars f n (i + 1)
      return bar :: bars

/-- What a search does with a function that is there, given its vendor. -/
abbrev Probe := Fn → UInt16 → PortProg (Option PciDevice)

/-- The body of the loop over the functions. -/
def funcRound (probe : Probe) (bus dev func : Nat) : PortProg (Round PciDevice) := do
  let vendor := (← pciConfigRead ⟨bus, dev, func⟩ pciVendorId) &&& 0xFFFF
  if vendor.toUInt16 = 0xFFFF ∨ vendor.toUInt16 = 0x0000 then
    return if func = 0 then .leave else .next
  else
    match ← probe ⟨bus, dev, func⟩ vendor.toUInt16 with
    | some d => return .found d
    | none =>
        if func = 0 then do
          let header := (← pciConfigRead ⟨bus, dev, 0⟩ pciHeaderType) >>> 16 &&& 0xFF
          return if header.toUInt8 &&& 0x80 = 0 then .leave else .next
        else return .next

def devRound (probe : Probe) (bus dev : Nat) : PortProg (Round PciDevice) := do
  let r ← Prog.search (funcRound probe bus dev) (List.range 8)
  return .ofOption r

def busRound (probe : Probe) (bus : Nat) : PortProg (Round PciDevice) := do
  let r ← Prog.search (devRound probe bus) (List.range 32)
  return .ofOption r

/-- The three loops of `pci_find_device` and `pci_find_by_class`. -/
def scan (probe : Probe) : PortProg (Option PciDevice) :=
  Prog.search (busRound probe) (List.range 256)

def deviceProbe (vendorId deviceId : UInt16) : Probe := fun f vendor => do
  let device := (← pciConfigRead f pciDeviceId) >>> 16
  if vendor = vendorId ∧ device.toUInt16 = deviceId then do
    let classReg ← pciConfigRead f pciClassSubclass
    let irq := (← pciConfigRead f pciInterruptLine) &&& 0xFF
    let bar ← pciReadBars f 6 0
    return some ⟨f, vendor, device.toUInt16, (classReg >>> 24).toUInt8, (classReg >>> 16).toUInt8,
      (classReg >>> 8).toUInt8, irq.toUInt8, bar⟩
  else return none

def classProbe (classCode subclass : UInt8) : Probe := fun f vendor => do
  let classReg ← pciConfigRead f pciClassSubclass
  let cc := (classReg >>> 24).toUInt8
  let sc := (classReg >>> 16).toUInt8
  if cc = classCode ∧ sc = subclass then do
    let device := (← pciConfigRead f pciDeviceId) >>> 16
    let irq := (← pciConfigRead f pciInterruptLine) &&& 0xFF
    let bar ← pciReadBars f 6 0
    return some ⟨f, vendor, device.toUInt16, cc, sc, (classReg >>> 8).toUInt8, irq.toUInt8, bar⟩
  else return none

/-- The device that is filled in, or nothing for `-1`. -/
def pciFindDevice (vendorId deviceId : UInt16) : PortProg (Option PciDevice) :=
  scan (deviceProbe vendorId deviceId)

def pciFindByClass (classCode subclass : UInt8) : PortProg (Option PciDevice) :=
  scan (classProbe classCode subclass)

def pciEnableBusMaster (f : Fn) : PortProg Unit := do
  let cmd := ((← pciConfigRead f pciCommand) &&& 0xFFFF).toUInt16 ||| pciCmdEnable
  pciConfigWrite f pciCommand cmd.toUInt32

end SRos.Pci
