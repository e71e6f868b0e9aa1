import SRos.Kernel.Machine
import SRos.Lib.Bytes

/-!
# The kernel heap (`src/kernel/kmalloc.c`)

A block starts with a header word and ends with a footer word. Both hold the size of the block
with its allocation flag in bit 0. The functions below read and write these words in a byte
memory, at the addresses and in the order of the source. A `block_header_t *` is its address
and `NULL` is `0`.
-/

namespace SRos.Heap

open Bytes

abbrev Mem := Nat → UInt8

def heapStart : Nat := 0x200000

def heapSize : Nat := 0x40000

def align : Nat := 8

def minBlock : Nat := 16

def headerSize : Nat := 4

/-- The address of the epilogue word. -/
def heapEnd : Nat := heapStart + heapSize

def blockSize (m : Mem) (hdr : Nat) : Nat := load32 m hdr &&& 0xFFFFFFF8

def blockIsAlloc (m : Mem) (hdr : Nat) : Bool := load32 m hdr &&& 1 != 0

def blockSetAlloc (m : Mem) (hdr : Nat) : Mem := store32 m hdr (load32 m hdr ||| 1)

def blockSetFree (m : Mem) (hdr : Nat) : Mem := store32 m hdr (load32 m hdr &&& 0xFFFFFFFE)

def nextBlock (m : Mem) (hdr : Nat) : Nat := u32 (hdr + blockSize m hdr)

def blockFooter (m : Mem) (hdr : Nat) : Nat := u32Sub (u32 (hdr + blockSize m hdr)) headerSize

def prevBlock (m : Mem) (hdr : Nat) : Nat := u32Sub hdr (blockSize m (u32Sub hdr headerSize))

def kmallocInit (m : Mem) : Mem :=
  let m := store32 m heapStart heapSize
  let m := store32 m (heapStart + heapSize - headerSize) heapSize
  store32 m (heapStart + heapSize) 1

/-- `need_size` of a request. -/
def needSize (size : Nat) : Nat :=
  let alignedSize := u32 (size + align - 1) &&& 0xFFFFFFF8
  let needSize := u32 (headerSize + alignedSize + headerSize)
  if needSize < minBlock then minBlock else needSize

/-- Writes `size` with the allocation flag to the header `cur` and to its footer. -/
def setTags (m : Mem) (cur size : Nat) : Mem :=
  let m := store32 m cur size
  let m := blockSetAlloc m cur
  let m := store32 m (blockFooter m cur) size
  blockSetAlloc m (blockFooter m cur)

/-- Takes `need` bytes of the free block `cur`, and all of it when the rest is too small. -/
def carve (m : Mem) (cur need : Nat) : Mem :=
  let curSize := blockSize m cur
  let remaining := curSize - need
  if minBlock ≤ remaining then
    let m := setTags m cur need
    let newFree := u32 (cur + need)
    let m := store32 m newFree remaining
    store32 m (blockFooter m newFree) remaining
  else
    setTags m cur curSize

/-- The `while (1)` of `kmalloc` for at most `fuel` blocks, and `none` when it is still
walking then. -/
def kmallocWalk (m : Mem) (need : Nat) : Nat → Nat → Option (Nat × Mem)
  | 0, _ => none
  | fuel + 1, cur =>
      if blockSize m cur = 0 then some (0, m)
      else if blockIsAlloc m cur = false ∧ need ≤ blockSize m cur then
        some (u32 (cur + headerSize), carve m cur need)
      else kmallocWalk m need fuel (nextBlock m cur)

/-- A walk only reads memory, and there are `2 ^ 32` addresses: a longer one is in a cycle. -/
def walkFuel : Nat := 2 ^ 32

/-- The pointer that is returned and the memory at the return. `none` is a call that does not
return. -/
def kmalloc (m : Mem) (size : Nat) : Option (Nat × Mem) :=
  if size = 0 then some (0, m) else kmallocWalk m (needSize size) walkFuel heapStart

/-- Step 2 of `kfree`. -/
def kfreeRelease (m : Mem) (hdr : Nat) : Mem :=
  let m := blockSetFree m hdr
  store32 m (blockFooter m hdr) (load32 m hdr)

/-- Step 3 of `kfree`. -/
def kfreeMergeNext (m : Mem) (hdr : Nat) : Mem :=
  let next := nextBlock m hdr
  if 0 < blockSize m next ∧ blockIsAlloc m next = false then
    let newSize := u32 (blockSize m hdr + blockSize m next)
    let m := store32 m hdr newSize
    store32 m (blockFooter m hdr) newSize
  else m

/-- Step 4 of `kfree`. -/
def kfreeMergePrev (m : Mem) (hdr : Nat) : Mem :=
  if heapStart < hdr then
    let prev := prevBlock m hdr
    if blockIsAlloc m prev = false then
      let newSize := u32 (blockSize m prev + blockSize m hdr)
      let m := store32 m prev newSize
      store32 m (blockFooter m prev) newSize
    else m
  else m

def kfree (m : Mem) (ptr : Nat) : Mem :=
  if ptr = 0 then m
  else
    let hdr := u32Sub ptr headerSize
    kfreeMergePrev (kfreeMergeNext (kfreeRelease m hdr) hdr) hdr

/-- A line of the heap dump. -/
structure Entry where
  addr : Nat
  size : Nat
  alloc : Bool
  deriving DecidableEq

/-- The `while (1)` of `kmalloc_dump` for at most `fuel` blocks. -/
def dumpWalk (m : Mem) : Nat → Nat → Option (List Entry)
  | 0, _ => none
  | fuel + 1, cur =>
      if blockSize m cur = 0 then some []
      else (dumpWalk m fuel (nextBlock m cur)).map
        (⟨cur, blockSize m cur, blockIsAlloc m cur⟩ :: ·)

/-- The totals that `kmalloc_dump` prints last. -/
structure Totals where
  blocks : Nat
  alloc : Nat
  free : Nat
  deriving DecidableEq

def Totals.add (t : Totals) (e : Entry) : Totals :=
  if e.alloc then { t with blocks := t.blocks + 1, alloc := u32 (t.alloc + e.size) }
  else { t with blocks := t.blocks + 1, free := u32 (t.free + e.size) }

/-- The lines that `kmalloc_dump` prints and its totals. -/
def kmallocDump (m : Mem) : Option (List Entry × Totals) :=
  (dumpWalk m walkFuel heapStart).map fun es => (es, es.foldl Totals.add ⟨0, 0, 0⟩)

end SRos.Heap
