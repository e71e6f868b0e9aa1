import SRos.Fs.Model
import SRos.Paging.Model
import SRos.Sched.Model

/-!
# The program loader (`src/kernel/elf_loader.c`, `src/include/elf.h`)

`elf_load_and_exec` reads a file of the file system and maps its segments into the current
address space. A result of `none` is a page fault or an allocation without free frames, where
the source panics. The local buffers of the source are on the kernel stack, which is taken to be
large enough for them. Serial output is not modelled.
-/

namespace SRos.Elf

open Bytes Fs Paging

def load16 (m : Nat → UInt8) (a : Nat) : Nat := (m a).toNat + 256 * (m (a + 1)).toNat

/-- The fields of `Elf32_Ehdr` that are read somewhere. -/
structure Ehdr where
  eIdent : Nat → UInt8
  eType : Nat
  eMachine : Nat
  eEntry : Nat
  ePhoff : Nat
  ePhentsize : Nat
  ePhnum : Nat

/-- `sizeof(Elf32_Ehdr)` -/
def sizeofEhdr : Nat := 52

def Ehdr.decode (buf : Buf) : Ehdr where
  eIdent := buf
  eType := load16 buf 16
  eMachine := load16 buf 18
  eEntry := load32 buf 24
  ePhoff := load32 buf 28
  ePhentsize := load16 buf 42
  ePhnum := load16 buf 44

/-- The fields of `Elf32_Phdr` that are read somewhere. -/
structure Phdr where
  pType : Nat
  pOffset : Nat
  pVaddr : Nat
  pFilesz : Nat
  pMemsz : Nat
  deriving DecidableEq

/-- `sizeof(Elf32_Phdr)` -/
def sizeofPhdr : Nat := 32

def Phdr.decode (buf : Buf) : Phdr where
  pType := load32 buf 0
  pOffset := load32 buf 4
  pVaddr := load32 buf 8
  pFilesz := load32 buf 16
  pMemsz := load32 buf 20

def ptLoad : Nat := 1

def elfCheckFile (ehdr : Ehdr) : Bool :=
  ehdr.eIdent 0 == 0x7F && ehdr.eIdent 1 == 0x45 && ehdr.eIdent 2 == 0x4C && ehdr.eIdent 3 == 0x46 &&
    ehdr.eIdent 4 == 1 && ehdr.eIdent 5 == 1 && ehdr.eType == 2 && ehdr.eMachine == 3 &&
    ehdr.ePhnum != 0

/-- The result of `read_file_at` and the buffer it reads to. -/
def readFileAt (fs : FsState) (ino : Nat) (buf : Buf) (size offset : Nat) : Int × Buf :=
  match sfsReadInode fs ino with
  | none => (-1, buf)
  | some inode =>
      let (n, buf) := sfsReadFile fs.disk inode buf size offset
      (int32 n, buf)

/-- Stores `n` bytes from the virtual address `v` on. -/
def storeBytes (v n : Nat) (g : Nat → UInt8) (s : Vm) : Option Vm :=
  (List.range n).foldlM (fun s i => s.write8 (v + i) (g i)) s

/-- The loop of `load_segment` over the bytes of the file. Each pass takes at least one byte. -/
def loadFile (fs : FsState) (ino : Nat) : Nat → Nat → Nat → Nat → Vm → Option (Int × Vm)
  | 0, _, _, _, s => some (0, s)
  | fuel + 1, currVaddr, fileOffset, fileRemain, s =>
      if fileRemain = 0 then some (0, s)
      else do
        let pageOffset := currVaddr &&& 0xFFF
        let toRead := min (4096 - pageOffset) fileRemain
        let s ← pagingAllocPage (frameOf currVaddr) s
        let (n, pageBuf) := readFileAt fs ino zeros toRead fileOffset
        if n < 0 then some (-1, s)
        else
          let s ← storeBytes (frameOf currVaddr + pageOffset) toRead pageBuf s
          loadFile fs ino fuel (u32 (currVaddr + toRead)) (u32 (fileOffset + toRead))
            (fileRemain - toRead) s

/-- The test of `load_segment` whether the page at an address is missing. -/
def pageMissing (v : Nat) (s : Vm) : Option Bool := do
  let pdIdx := v >>> 22
  let ptIdx := v >>> 12 &&& 0x3FF
  let pde ← s.read32 (s.cr3 + 4 * pdIdx)
  if !present pde then some true
  else
    let pte ← s.read32 (selfMap pdIdx + 4 * ptIdx)
    some (!present pte)

/-- The loop of `load_segment` over the bytes that are not in the file. -/
def loadBss : Nat → Nat → Nat → Vm → Option Vm
  | 0, _, _, s => some s
  | fuel + 1, currVaddr, bssRemain, s =>
      if bssRemain = 0 then some s
      else do
        let pageOffset := currVaddr &&& 0xFFF
        let missing ← pageMissing currVaddr s
        let s ← if missing then pagingAllocPage (frameOf currVaddr) s else some s
        let toZero := min (4096 - pageOffset) bssRemain
        let s ← storeBytes (frameOf currVaddr + pageOffset) toZero (fun _ => 0) s
        loadBss fuel (u32 (currVaddr + toZero)) (bssRemain - toZero) s

def loadSegment (fs : FsState) (ino virtAddr offset filesz memsz : Nat) (s : Vm) :
    Option (Int × Vm) := do
  let (r, s) ← loadFile fs ino filesz virtAddr offset filesz s
  if r < 0 then some (-1, s)
  else
    let bssRemain := u32Sub memsz filesz
    let s ← loadBss bssRemain (u32 (virtAddr + filesz)) bssRemain s
    some (0, s)

def userStackPages : Nat := 4

def setupUserStack (s : Vm) : Option Vm :=
  (List.range userStackPages).foldlM
    (fun s i => pagingAllocPage (userStackVaddr - (i + 1) * 0x1000) s) s

/-- The loop over the program headers, for the indices that are left. -/
def loadSegments (fs : FsState) (ino phoff : Nat) : List Nat → Vm → Option (Int × Vm)
  | [], s => some (0, s)
  | i :: is, s =>
      let (n, buf) := readFileAt fs ino uninit sizeofPhdr (u32 (phoff + i * sizeofPhdr))
      if n < sizeofPhdr then some (-1, s)
      else
        let phdr := Phdr.decode buf
        if phdr.pType ≠ ptLoad then loadSegments fs ino phoff is s
        else do
          let (r, s) ← loadSegment fs ino phdr.pVaddr phdr.pOffset phdr.pFilesz phdr.pMemsz s
          if r < 0 then some (-1, s) else loadSegments fs ino phoff is s

/-- The registers with which a program starts. -/
def startRegs (entry : Nat) (regs : Registers) : Registers :=
  { regs with
    eip := entry, userEsp := userStackVaddr, eflags := regs.eflags ||| 0x200
    eax := 0, ebx := 0, ecx := 0, edx := 0, esi := 0, edi := 0, ebp := 0 }

/-- The file that a path names. Slashes in front of the name are skipped, as in `path_parse`. -/
def lookupPath (fs : FsState) (path : CStr) : Option Nat :=
  match pathParse (some path) with
  | none => none
  | some name =>
      let ino := sfsLookup fs rootIno name
      if ino < 0 then none else some (u32OfInt ino)

/-- The result of the call, the frame of the caller and the address space after it. -/
def elfLoadAndExec (fs : FsState) (path : CStr) (regs : Registers) (s : Vm) :
    Option (Int × Registers × Vm) :=
  match lookupPath fs path with
  | none => some (-1, regs, s)
  | some ino =>
      let (n, buf) := readFileAt fs ino uninit sizeofEhdr 0
      if n < sizeofEhdr then some (-1, regs, s)
      else
        let ehdr := Ehdr.decode buf
        if !elfCheckFile ehdr then some (-1, regs, s)
        else do
          let (r, s) ← loadSegments fs ino ehdr.ePhoff (List.range ehdr.ePhnum) s
          if r < 0 then some (-1, regs, s)
          else
            let s ← setupUserStack s
            some (0, startRegs ehdr.eEntry regs, s)

end SRos.Elf
