import SRos.Gui.Model
import SRos.Paging.Boot

/-!
# Device memory (`src/drivers/rtl8139.c`, `src/drivers/framebuffer.c`)

The parts of the two drivers that allocate and map pages, and the part of `kernel_after_paging`
that calls them. The card is known by BAR0, which `pci_find_device` reads from the bus if it finds
one. A call has no result if it faults or runs out of frames.
-/

namespace SRos.Drivers

open Gui Paging

/-- `memset`, for a block that does not wrap around. -/
def memset (dst : Nat) (c : UInt8) (n : Nat) (s : Vm) : Option Vm :=
  (List.range n).foldlM (fun s i => s.write8 (dst + i) c) s

/-! ## The network card -/

/-- The buffers of the driver, and the registers that tell the card where they are. -/
structure Rtl8139 where
  ioBase : Nat
  txBufs : Nat → Nat
  txPhys : Nat → Nat
  rxBuf : Nat
  rxPhys : Nat
  rxPtr : Nat
  txAddr : Nat → Nat
  rbStart : Nat

def rtl8139TxBufSize : Nat := 2048
def rtl8139NumTxBufs : Nat := 4

/-- `RX_BUF_TOTAL` -/
def rxBufTotal : Nat := 8192 + 16

/-- The rounds of the loop of `init_tx_buffers` that are left. -/
def initTxBuffersFrom : List Nat → Rtl8139 → Vm → Option (Int × Rtl8139 × Vm)
  | [], d, s => some (0, d, s)
  | i :: is, d, s => do
      let (phys, s) ← pfaAlloc s
      let d := { d with txPhys := Function.update d.txPhys i phys }
      if phys = 0 then return (-1, d, s)
      else
        let virt := 0xF0040000 + i * 0x1000
        let s ← pagingMapPage virt phys 0x03 s
        let d := { d with txBufs := Function.update d.txBufs i virt }
        let s ← memset virt 0 rtl8139TxBufSize s
        initTxBuffersFrom is { d with txAddr := Function.update d.txAddr i phys } s

def initTxBuffers (d : Rtl8139) (s : Vm) : Option (Int × Rtl8139 × Vm) :=
  initTxBuffersFrom (List.range rtl8139NumTxBufs) d s

def initRxBuffer (d : Rtl8139) (s : Vm) : Option (Int × Rtl8139 × Vm) := do
  let (rxPhys, s) ← pfaAlloc s
  let d := { d with rxPhys }
  if rxPhys = 0 then return (-1, d, s)
  else
    let virt := 0xF0050000
    let s ← pagingMapPage virt rxPhys 0x03 s
    let (rxPhys2, s) ← pfaAlloc s
    if rxPhys2 = 0 then return (-1, d, s)
    else
      let s ← pagingMapPage (virt + 0x1000) rxPhys2 0x03 s
      let (rxPhys3, s) ← pfaAlloc s
      if rxPhys3 = 0 then return (-1, d, s)
      else
        let s ← pagingMapPage (virt + 0x2000) rxPhys3 0x03 s
        let s ← memset virt 0 0x3000 s
        return (0, { d with rxBuf := virt, rbStart := rxPhys, rxPtr := 0 }, s)

/-- `rtl8139_init`, without the registers that have nothing to do with the buffers. -/
def rtl8139Init (bar0 : Option Nat) (d : Rtl8139) (s : Vm) : Option (Int × Rtl8139 × Vm) :=
  match bar0 with
  | none => some (-1, d, s)
  | some bar =>
      let d := { d with ioBase := (bar &&& 0xFFFFFFFC) % 2 ^ 16 }
      if d.ioBase = 0 then some (-1, d, s)
      else do
        let (r, d, s) ← initTxBuffers d s
        if r ≠ 0 then return (-1, d, s)
        else
          let (r, d, s) ← initRxBuffer d s
          if r ≠ 0 then return (-1, d, s) else return (0, d, s)

/-! ## The framebuffer -/

def fbPages (fb : Framebuffer) : Nat := u32 (u32 (fb.pitch * fb.height) + 0xFFF) / 0x1000

/-- One round of the loop of `framebuffer_map`. -/
def mapFbPage (phys : Nat) (s : Vm) (i : Nat) : Option Vm :=
  pagingMapPage (u32 (virtBase + i * 0x1000)) (u32 (phys + i * 0x1000)) 0x07 s

def framebufferMap (fb : Framebuffer) (s : Vm) : Option (Framebuffer × Vm) :=
  if fb.addr ≠ 0 then some (fb, s)
  else do
    let s ← (List.range (fbPages fb)).foldlM (mapFbPage fb.physAddr) s
    return ({ fb with addr := virtBase }, s)

/-- The calls of `kernel_after_paging` that set the devices up. -/
def initDevices (bar0 : Option Nat) (d : Rtl8139) (fb : Framebuffer) (s : Vm) :
    Option (Int × Rtl8139 × Framebuffer × Vm) := do
  let (r, d, s) ← rtl8139Init bar0 d s
  if fb.physAddr ≠ 0 then
    let (fb, s) ← framebufferMap fb s
    return (r, d, fb, s)
  else return (r, d, fb, s)

/-- The mapping leaves the descriptor that the window manager draws with. -/
theorem fst_framebufferMap {fb fb' : Framebuffer} {s s' : Vm}
    (h : framebufferMap fb s = some (fb', s')) : fb' = Gui.framebufferMap fb := by
  unfold framebufferMap at h
  unfold Gui.framebufferMap
  split at h
  · next haddr =>
      rw [if_pos haddr]
      exact (Prod.mk.inj (Option.some.inj h)).1.symm
  · next haddr =>
      obtain ⟨t, -, ht⟩ := Option.bind_eq_some_iff.mp h
      rw [if_neg haddr]
      exact (Prod.mk.inj (Option.some.inj ht)).1.symm

end SRos.Drivers
