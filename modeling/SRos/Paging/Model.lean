import SRos.Kernel.Machine
import SRos.Lib.Bytes

/-!
# Address spaces (`src/kernel/paging.c`)

Physical memory is a byte for every address. A virtual access goes through the two levels of
the tables that CR3 points to, where only the present bits matter in ring 0; it has no result
if it faults. The page-frame allocator is the stack `free`, its top first, and has no result
where the source panics.
-/

namespace SRos.Paging

open Bytes

/-! ## Entries of directories and tables -/

def present (e : Nat) : Bool := e &&& 0x01 != 0
def user (e : Nat) : Bool := e &&& 0x04 != 0
def frameOf (e : Nat) : Nat := e &&& 0xFFFFF000
def flagsOf (e : Nat) : Nat := e &&& 0xFFF

/-- The memory, the register CR3 and the stack of free frames. -/
structure Vm where
  mem : Nat → UInt8
  cr3 : Nat
  free : List Nat

namespace Vm

/-- The physical address of a virtual one. -/
def translate (s : Vm) (v : Nat) : Option Nat :=
  let pde := load32 s.mem (frameOf s.cr3 + 4 * (v >>> 22))
  if present pde then
    let pte := load32 s.mem (frameOf pde + 4 * (v >>> 12 &&& 0x3FF))
    if present pte then some (frameOf pte + (v &&& 0xFFF)) else none
  else none

def read8 (s : Vm) (v : Nat) : Option UInt8 := (s.translate v).map s.mem

def write8 (s : Vm) (v : Nat) (b : UInt8) : Option Vm :=
  (s.translate v).map fun a => { s with mem := Function.update s.mem a b }

/-- Reads a word that does not cross the end of a page. -/
def read32 (s : Vm) (v : Nat) : Option Nat := (s.translate v).map (load32 s.mem)

def write32 (s : Vm) (v x : Nat) : Option Vm :=
  (s.translate v).map fun a => { s with mem := store32 s.mem a x }

def memcpy (s : Vm) (dst src n : Nat) : Option Vm :=
  (List.range n).foldlM
    (fun s i => do
      let b ← s.read8 (src + i)
      s.write8 (dst + i) b) s

end Vm

/-! ## The page-frame allocator -/

def pfaPush (physAddr : Nat) (s : Vm) : Vm := { s with free := physAddr :: s.free }

def pfaAlloc (s : Vm) : Option (Nat × Vm) :=
  match s.free with
  | [] => none
  | f :: fs => some (f, { s with free := fs })

theorem pfaAlloc_some {s s' : Vm} {f : Nat} (h : pfaAlloc s = some (f, s')) :
    ∃ fs, s.free = f :: fs ∧ s' = { s with free := fs } := by
  unfold pfaAlloc at h
  split at h
  · cases h
  · next hfree =>
      cases h
      exact ⟨_, hfree, rfl⟩

def pfaFree (physAddr : Nat) (s : Vm) : Vm := { s with free := physAddr :: s.free }

/-! ## The boot directory -/

/-- `memset(p, 0, 4096)` while paging is off. -/
def clearFrame (m : Nat → UInt8) (p : Nat) : Nat → UInt8 := splice m p 4096 fun _ => 0

/-- `paging_init`: the first 4 MB are mapped to themselves, without the user bit. -/
def pagingInit (s : Vm) : Option Vm := do
  let (pageDir, s) ← pfaAlloc s
  let s := { s with mem := clearFrame s.mem pageDir }
  let (pageTable, s) ← pfaAlloc s
  let s := { s with mem := clearFrame s.mem pageTable }
  let m := (List.range 1024).foldl
    (fun m i => store32 m (pageTable + 4 * i) (i * 4096 ||| 0x03)) s.mem
  let m := store32 m pageDir (pageTable ||| 0x03)
  let pt0 := frameOf (load32 m pageDir)
  let m := store32 m (pt0 + 4 * (0xB8000 >>> 12 &&& 0x3FF)) (0xB8000 ||| 0x03)
  let s := { s with mem := m, cr3 := pageDir }
  s.write32 (pageDir + 4 * 1023) (pageDir ||| 0x03)

/-! ## Mapping pages -/

/-- The virtual address of the page table `pdIdx` in the window of the self-map. -/
def selfMap (pdIdx : Nat) : Nat := 0xFFC00000 + pdIdx * 4096

/-- Stores 0 to the 1024 entries of the table at `v`. -/
def clearTable (v : Nat) (s : Vm) : Option Vm :=
  (List.range 1024).foldlM (fun s i => s.write32 (v + 4 * i) 0) s

def pagingMapUser (virtAddr : Nat) (s : Vm) : Option Vm := do
  let pageDir := s.cr3
  let pdIdx := virtAddr >>> 22
  let ptIdx := virtAddr >>> 12 &&& 0x3FF
  let pde ← s.read32 (pageDir + 4 * pdIdx)
  let pageTable := frameOf pde
  let pte ← s.read32 (pageTable + 4 * ptIdx)
  let s ← s.write32 (pageTable + 4 * ptIdx) (pte ||| 0x04)
  let pde ← s.read32 (pageDir + 4 * pdIdx)
  s.write32 (pageDir + 4 * pdIdx) (pde ||| 0x04)

/-- The part of `paging_map_page` that allocates a missing page table. -/
def allocTable (pdIdx flags : Nat) (s : Vm) : Option Vm := do
  let pageDir := s.cr3
  let (ptPhys, s) ← pfaAlloc s
  let s ← s.write32 (pageDir + 4 * pdIdx) (frameOf ptPhys ||| 0x01)
  let s ← clearTable (selfMap pdIdx) s
  s.write32 (pageDir + 4 * pdIdx) (frameOf ptPhys ||| (flags &&& 0x07) ||| 0x01)

def pagingMapPage (virtAddr physAddr flags : Nat) (s : Vm) : Option Vm := do
  let pdIdx := virtAddr >>> 22
  let ptIdx := virtAddr >>> 12 &&& 0x3FF
  let pde ← s.read32 (s.cr3 + 4 * pdIdx)
  let s ← if present pde then some s else allocTable pdIdx flags s
  s.write32 (selfMap pdIdx + 4 * ptIdx) (frameOf physAddr ||| (flags &&& 0x07) ||| 0x01)

def pagingAllocPage (virtAddr : Nat) (s : Vm) : Option Vm := do
  let (phys, s) ← pfaAlloc s
  pagingMapPage virtAddr phys 0x07 s

/-! ## Cloning the directory -/

/-- `kernel_end_page`, where `_bss_end` is at `bssEnd`. -/
def kernelEndPage (bssEnd : Nat) : Nat := frameOf (u32 (bssEnd + 0xFFF))

/-- The page belongs to the image of the kernel. -/
def inKernel (kernelEnd pageVaddr : Nat) : Bool := pageVaddr ≥ 0x100000 && pageVaddr < kernelEnd

def pageVaddr (pdIdx ptIdx : Nat) : Nat := pdIdx <<< 22 ||| ptIdx <<< 12

/-- The scan of a table of the first 8 MB for user pages that have to be copied. -/
def hasUserPagesOutsideKernel (kernelEnd pdIdx : Nat) (s : Vm) : Option Bool :=
  (List.range 1024).anyM fun pti => do
    let pte ← s.read32 (selfMap pdIdx + 4 * pti)
    return present pte && user pte && !inKernel kernelEnd (pageVaddr pdIdx pti)

/-- One round of the copying loops. They share a page where `keep` says so for its address, and
otherwise copy it if it is a user page. -/
def clonePte (keep : Nat → Bool) (pdIdx newPt : Nat) (s : Vm) (ptIdx : Nat) : Option Vm := do
  let oldPte ← s.read32 (selfMap pdIdx + 4 * ptIdx)
  if !present oldPte then return s
  else if keep (pageVaddr pdIdx ptIdx) then s.write32 (newPt + 4 * ptIdx) oldPte
  else if user oldPte then
    let (newPage, s) ← pfaAlloc s
    let s ← s.memcpy newPage (frameOf oldPte) 4096
    s.write32 (newPt + 4 * ptIdx) (frameOf newPage ||| flagsOf oldPte)
  else s.write32 (newPt + 4 * ptIdx) oldPte

/-- The deep copy of one page table. -/
def cloneTable (keep : Nat → Bool) (newPd pdIdx oldPde : Nat) (s : Vm) : Option Vm := do
  let (newPt, s) ← pfaAlloc s
  let s ← clearTable newPt s
  let s ← (List.range 1024).foldlM (clonePte keep pdIdx newPt) s
  s.write32 (newPd + 4 * pdIdx) (frameOf newPt ||| flagsOf oldPde)

/-- One round of the loop over the directory. -/
def clonePde (kernelEnd newPd : Nat) (s : Vm) (pdIdx : Nat) : Option Vm := do
  let oldPde ← s.read32 (s.cr3 + 4 * pdIdx)
  if !present oldPde then s.write32 (newPd + 4 * pdIdx) 0
  else if pdIdx ≤ 1 then
    if ← hasUserPagesOutsideKernel kernelEnd pdIdx s then
      cloneTable (inKernel kernelEnd) newPd pdIdx oldPde s
    else s.write32 (newPd + 4 * pdIdx) oldPde
  else if user oldPde then cloneTable (fun v => v < 0x800000) newPd pdIdx oldPde s
  else s.write32 (newPd + 4 * pdIdx) oldPde

def pagingCloneDirectory (bssEnd : Nat) (s : Vm) : Option (Nat × Vm) := do
  let (newPd, s) ← pfaAlloc s
  let s ← (List.range 1023).foldlM (clonePde (kernelEndPage bssEnd) newPd) s
  let s ← s.write32 (newPd + 4 * 1023) (frameOf newPd ||| 0x03)
  return (newPd, s)

end SRos.Paging
