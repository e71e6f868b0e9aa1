import SRos.Drivers.PciScan
import SRos.Gui.Model

/-!
# Setting the graphics mode (`src/drivers/framebuffer.c`)

`vbe_init` programs the mode through an index port and a data port, reads back what the display
made of it, and takes the address of the framebuffer from the first VGA device that has one.
-/

namespace SRos.Vbe

open Pci Gui

def vbeIndexPort : Nat := 0x01CE

def vbeDataPort : Nat := 0x01CF

def vbeIndexId : UInt16 := 0x00

def vbeIndexXres : UInt16 := 0x01

def vbeIndexYres : UInt16 := 0x02

def vbeIndexBpp : UInt16 := 0x03

def vbeIndexEnable : UInt16 := 0x04

def vbeIndexVirtWidth : UInt16 := 0x06

def vbeIndexVirtHeight : UInt16 := 0x07

def vbeIdMin : UInt16 := 0xB0C0

def vbeIdMax : UInt16 := 0xB0C5

/-- `VBE_DISPI_ENABLED | VBE_DISPI_LFB_ENABLED` -/
def vbeEnabled : UInt16 := 0x01 ||| 0x40

def vbeLfbPhysical : UInt32 := 0xE0000000

def vbeWrite (index value : UInt16) : PortProg Unit := do
  outw vbeIndexPort index
  outw vbeDataPort value

def vbeRead (index : UInt16) : PortProg UInt16 := do
  outw vbeIndexPort index
  inw vbeDataPort

/-- The body of the loop over the devices in `pci_find_vga_lfb`. -/
def vgaRound (bus dev : Nat) : PortProg (Round UInt32) := do
  let vendor := (← pciConfigRead ⟨bus, dev, 0⟩ 0) &&& 0xFFFF
  if vendor.toUInt16 = 0xFFFF ∨ vendor.toUInt16 = 0x0000 then return .next
  else do
    let classReg ← pciConfigRead ⟨bus, dev, 0⟩ 8
    if (classReg >>> 24).toUInt8 = 0x03 ∧ (classReg >>> 16).toUInt8 = 0x00 then do
      let bar0 ← pciConfigRead ⟨bus, dev, 0⟩ 0x10
      let lfbAddr := bar0 &&& 0xFFFFFFF0
      return if lfbAddr ≠ 0 ∧ lfbAddr ≠ 0xFFFFFFF0 then .found lfbAddr else .next
    else return .next

def vgaBusRound (bus : Nat) : PortProg (Round UInt32) := do
  let r ← Prog.search (vgaRound bus) (List.range 32)
  return .ofOption r

/-- The address, or `0`. -/
def pciFindVgaLfb : PortProg UInt32 := do
  let r ← Prog.search vgaBusRound (List.range 256)
  return r.getD 0

/-- The mode, as steps 1 to 3 write it. -/
def setMode (width height : Nat) (bpp : UInt8) : PortProg Unit := do
  vbeWrite vbeIndexEnable 0x00
  vbeWrite vbeIndexXres (UInt16.ofNat width)
  vbeWrite vbeIndexYres (UInt16.ofNat height)
  vbeWrite vbeIndexBpp bpp.toUInt16
  vbeWrite vbeIndexVirtWidth (UInt16.ofNat width)
  vbeWrite vbeIndexVirtHeight (UInt16.ofNat height)
  vbeWrite vbeIndexEnable vbeEnabled

/-- The result, and the descriptor `fb` after the call. -/
def vbeInit (width height : Nat) (bpp : UInt8) (fb : Framebuffer) :
    PortProg (Int × Framebuffer) := do
  let id ← vbeRead vbeIndexId
  if id < vbeIdMin ∨ vbeIdMax < id then return (-1, fb)
  else do
    setMode width height bpp
    let xres ← vbeRead vbeIndexXres
    let yres ← vbeRead vbeIndexYres
    let bppActual ← vbeRead vbeIndexBpp
    if xres = 0 ∨ yres = 0 then return (-1, fb)
    else do
      let found ← pciFindVgaLfb
      let lfbPhys := if found = 0 then vbeLfbPhysical else found
      return (0, framebufferInit lfbPhys.toNat xres.toNat yres.toNat
        (xres.toNat * (bppActual.toNat / 8)) bppActual.toUInt8.toNat)

/-! ## What the hardware says -/

/-- A VGA device can be used if its first address register holds an address. -/
def lfbOf (cfg : Fn → Nat → UInt32) (f : Fn) : UInt32 := cfg f 4 &&& 0xFFFFFFF0

def usable (cfg : Fn → Nat → UInt32) (f : Fn) : Bool :=
  present cfg f && (classOf cfg f = 0x03 ∧ subclassOf cfg f = 0x00) &&
    (lfbOf cfg f ≠ 0 ∧ lfbOf cfg f ≠ 0xFFFFFFF0)

/-- The first functions of all devices, in the order of the loops. -/
def devices : List Fn :=
  (List.range 256).flatMap fun bus => (List.range 32).map fun dev => ⟨bus, dev, 0⟩

/-- The ports of the display, next to those of the configuration space. Any write of a mode may
change any of the registers. -/
structure Display (σ : Type) extends ConfigPorts σ where
  index : σ → UInt16
  mode : σ → UInt16 → UInt16
  choose : ∀ s i, index (exec (.outw vbeIndexPort i) s).2 = i ∧
    mode (exec (.outw vbeIndexPort i) s).2 = mode s ∧
    space (exec (.outw vbeIndexPort i) s).2 = space s
  fetch : ∀ s, (exec (.inw vbeDataPort) s).1 = mode s (index s) ∧
    mode (exec (.inw vbeDataPort) s).2 = mode s ∧ space (exec (.inw vbeDataPort) s).2 = space s
  store : ∀ s v, space (exec (.outw vbeDataPort v) s).2 = space s

variable {σ : Type}

section Vga

variable {P : ConfigPorts σ} {cfg : Fn → Nat → UInt32} {w : List (Fn × Nat × UInt32)} {s : σ}

theorem run_vgaRound {bus dev : Nat} (hbus : bus < 256) (hdev : dev < 32) (h : P.Same cfg w s) :
    ∃ s', P.run (vgaRound bus dev) s = (.ofOption (if usable cfg ⟨bus, dev, 0⟩ then
        some (lfbOf cfg ⟨bus, dev, 0⟩) else none), s') ∧ P.Same cfg w s' := by
  have hf : Fn.InRange ⟨bus, dev, 0⟩ := ⟨hbus, hdev, Nat.zero_lt_succ 7⟩
  obtain ⟨s₁, hrun₁, h₁⟩ := ConfigPorts.run_pciConfigRead hf 0 (by decide) h
  obtain ⟨s₂, hrun₂, h₂⟩ := ConfigPorts.run_pciConfigRead hf 8 (by decide) h₁
  obtain ⟨s₃, hrun₃, h₃⟩ := ConfigPorts.run_pciConfigRead hf 0x10 (by decide) h₂
  unfold vgaRound
  rw [P.run_bind, hrun₁]
  change ∃ s', P.run (if vendorOf cfg ⟨bus, dev, 0⟩ = 0xFFFF ∨
    vendorOf cfg ⟨bus, dev, 0⟩ = 0x0000 then _ else _) s₁ = _ ∧ _
  by_cases hmissing : present cfg ⟨bus, dev, 0⟩ = false
  · rw [if_pos (ConfigPorts.present_eq_false.mp hmissing)]
    exact ⟨s₁, by simp [usable, hmissing]; rfl, h₁⟩
  · have hthere : present cfg ⟨bus, dev, 0⟩ = true := by simpa using hmissing
    rw [if_neg (fun hv => hmissing (ConfigPorts.present_eq_false.mpr hv)), P.run_bind, hrun₂]
    change ∃ s', P.run (if classOf cfg ⟨bus, dev, 0⟩ = 0x03 ∧ subclassOf cfg ⟨bus, dev, 0⟩ = 0x00
      then _ else _) s₂ = _ ∧ _
    by_cases hclass : classOf cfg ⟨bus, dev, 0⟩ = 0x03 ∧ subclassOf cfg ⟨bus, dev, 0⟩ = 0x00
    · rw [if_pos hclass, P.run_bind, hrun₃]
      refine ⟨s₃, ?_, h₃⟩
      by_cases haddr : lfbOf cfg ⟨bus, dev, 0⟩ ≠ 0 ∧ lfbOf cfg ⟨bus, dev, 0⟩ ≠ 0xFFFFFFF0
      · have husable : usable cfg ⟨bus, dev, 0⟩ = true := by simp [usable, hthere, hclass, haddr]
        rw [if_pos husable]
        exact congrArg (·, s₃) (if_pos haddr)
      · have husable : ¬usable cfg ⟨bus, dev, 0⟩ = true := fun hu => by
          simp only [usable, Bool.and_eq_true, decide_eq_true_eq] at hu
          exact haddr hu.2
        rw [if_neg husable]
        exact congrArg (·, s₃) (if_neg haddr)
    · rw [if_neg hclass]
      refine ⟨s₂, ?_, h₂⟩
      have husable : ¬usable cfg ⟨bus, dev, 0⟩ = true := fun hu => by
        simp only [usable, Bool.and_eq_true, decide_eq_true_eq] at hu
        exact hclass hu.1.2
      rw [if_neg husable]
      rfl

theorem run_vgaBusRound {bus : Nat} (hbus : bus < 256) (h : P.Same cfg w s) :
    ∃ s', P.run (vgaBusRound bus) s = (.ofOption ((((List.range 32).map fun dev =>
        Fn.mk bus dev 0).find? (usable cfg)).map (lfbOf cfg)), s') ∧ P.Same cfg w s' := by
  obtain ⟨s', hrun, hs'⟩ := Prog.run_search P.exec.machine (fun dev hdev _ hs =>
    run_vgaRound hbus (List.mem_range.mp hdev) hs) h
  refine ⟨s', ?_, hs'⟩
  unfold vgaBusRound ConfigPorts.run
  rw [Machine.run_bind, hrun, Round.search_ofOption, ← findSome?_ite, List.findSome?_map]
  rfl

theorem run_pciFindVgaLfb (h : P.Same cfg w s) :
    ∃ s', P.run pciFindVgaLfb s = (((devices.find? (usable cfg)).map (lfbOf cfg)).getD 0, s') ∧
      P.Same cfg w s' := by
  obtain ⟨s', hrun, hs'⟩ := Prog.run_search P.exec.machine (fun bus hbus _ hs =>
    run_vgaBusRound (List.mem_range.mp hbus) hs) h
  refine ⟨s', ?_, hs'⟩
  unfold pciFindVgaLfb ConfigPorts.run devices
  rw [Machine.run_bind, hrun, Round.search_ofOption, List.find?_flatMap, List.map_findSome?]
  rfl

end Vga

namespace Display

variable (D : Display σ)

def run {α : Type} (p : PortProg α) (s : σ) : α × σ := D.exec.machine.run p s

theorem run_bind {α β : Type} (p : PortProg α) (f : α → PortProg β) (s : σ) :
    D.run (p >>= f) s = D.run (f (D.run p s).1) (D.run p s).2 :=
  D.exec.machine.run_bind p f s

theorem run_vbeRead (i : UInt16) (s : σ) :
    ∃ s', D.run (vbeRead i) s = (D.mode s i, s') ∧ D.mode s' = D.mode s ∧ D.space s' = D.space s := by
  obtain ⟨hindex, hmode, hspace⟩ := D.choose s i
  obtain ⟨hval, hmode', hspace'⟩ := D.fetch (D.exec (.outw vbeIndexPort i) s).2
  refine ⟨_, Prod.ext ?_ rfl, hmode'.trans hmode, hspace'.trans hspace⟩
  exact hval.trans (by rw [hindex, hmode])

theorem space_vbeWrite (i v : UInt16) (s : σ) : D.space (D.run (vbeWrite i v) s).2 = D.space s :=
  (D.store (D.exec (.outw vbeIndexPort i) s).2 v).trans (D.choose s i).2.2

theorem space_setMode (width height : Nat) (bpp : UInt8) (s : σ) :
    D.space (D.run (setMode width height bpp) s).2 = D.space s := by
  unfold setMode
  simp only [D.run_bind, D.space_vbeWrite]

/-- The address of the first VGA device that has one, or the default. -/
def lfb (s : σ) : UInt32 :=
  ((devices.find? (usable (D.space s))).map (lfbOf (D.space s))).getD vbeLfbPhysical

theorem lfb_ne_zero (s : σ) : D.lfb s ≠ 0 := by
  unfold lfb
  cases hfind : devices.find? (usable (D.space s)) with
  | none => simp [vbeLfbPhysical]
  | some f =>
      have husable := List.find?_some hfind
      simp only [usable, Bool.and_eq_true, decide_eq_true_eq] at husable
      exact husable.2.1

theorem run_pciFindVgaLfb (s : σ) :
    ∃ found s', D.run pciFindVgaLfb s = (found, s') ∧ D.space s' = D.space s ∧
      (if found = 0 then vbeLfbPhysical else found) = D.lfb s := by
  obtain ⟨s', hrun, hsame, -⟩ :=
    Vbe.run_pciFindVgaLfb (P := D.toConfigPorts) (s := s) ⟨rfl, rfl⟩
  refine ⟨_, s', hrun, hsame, ?_⟩
  unfold lfb
  cases hfind : devices.find? (usable (D.space s)) with
  | none => rfl
  | some f =>
      have husable := List.find?_some hfind
      simp only [usable, Bool.and_eq_true, decide_eq_true_eq] at husable
      exact if_neg husable.2.1

end Display

end SRos.Vbe
