import SRos.Kernel.Ports

/-!
# The ATA driver (`src/drivers/ata.c`)

The driver programs the primary channel in PIO mode: it sets up the task file, gives a command
and moves every sector through the data port, one 16-bit word at a time. Before each step it polls
the alternate status register, a bounded number of times.
-/

namespace SRos.Ata

def ataPrimaryData : Nat := 0x1F0

def ataPrimarySectors : Nat := 0x1F2

def ataPrimaryLbaLo : Nat := 0x1F3

def ataPrimaryLbaMid : Nat := 0x1F4

def ataPrimaryLbaHi : Nat := 0x1F5

def ataPrimaryDrive : Nat := 0x1F6

def ataPrimaryCmd : Nat := 0x1F7

def ataPrimaryAltstat : Nat := 0x3F6

def ataCmdRead : UInt8 := 0x20

def ataCmdWrite : UInt8 := 0x30

def ataDriveMaster : UInt8 := 0xE0

def ataStatusErr : UInt8 := 0x01

def ataStatusDrq : UInt8 := 0x08

def ataStatusBsy : UInt8 := 0x80

def ataSectorSize : Nat := 512

def ataTimeout : Nat := 30000000

/-- `while (--timeout)` around a read of the alternate status, for `timeout - 1` rounds. The test
says what the function returns, if it returns in this round. -/
def pollLoop (test : UInt8 → Option Int) : Nat → PortProg Int
  | 0 => return -1
  | n + 1 => do
      let st ← inb ataPrimaryAltstat
      match test st with
      | some r => return r
      | none => pollLoop test n

def notBusy (st : UInt8) : Option Int := if st &&& ataStatusBsy = 0 then some 0 else none

def ataWaitBusy : PortProg Int := pollLoop notBusy (ataTimeout - 1)

def dataRequested (st : UInt8) : Option Int :=
  if st &&& ataStatusErr ≠ 0 then some (-1)
  else if st &&& ataStatusDrq ≠ 0 then some 0
  else none

def ataWaitDrq : PortProg Int := do
  if (← ataWaitBusy) < 0 then return -1
  else pollLoop dataRequested (ataTimeout - 1)

/-- The task file and the command, as `ata_read_sectors` and `ata_write_sectors` write them. -/
def issue (lba : Nat) (count : UInt8) (cmd : UInt8) : PortProg Unit := do
  outb ataPrimarySectors count
  outb ataPrimaryLbaLo (UInt8.ofNat lba)
  outb ataPrimaryLbaMid (UInt8.ofNat (lba >>> 8))
  outb ataPrimaryLbaHi (UInt8.ofNat (lba >>> 16))
  outb ataPrimaryDrive (ataDriveMaster ||| UInt8.ofNat ((lba >>> 24) &&& 0x0F))
  outb ataPrimaryCmd cmd

/-- The inner loop of `ata_read_sectors` in the sector whose bytes start at `base`, from word `i`
on for `n` words. -/
def readWords (base : Nat) : Nat → Nat → (Nat → UInt8) → PortProg (Nat → UInt8)
  | 0, _, buf => return buf
  | n + 1, i, buf => do
      let data ← inw ataPrimaryData
      let buf := Function.update buf (base + i * 2) data.toUInt8
      let buf := Function.update buf (base + i * 2 + 1) (data >>> 8).toUInt8
      readWords base n (i + 1) buf

/-- The outer loop of `ata_read_sectors`, from sector `s` on for `n` sectors. -/
def readSectors (count : UInt8) : Nat → Nat → (Nat → UInt8) → PortProg (Int × (Nat → UInt8))
  | 0, _, buf => return (count.toNat * ataSectorSize, buf)
  | n + 1, s, buf => do
      if (← ataWaitDrq) < 0 then return (-1, buf)
      else do
        let buf ← readWords (s * ataSectorSize) 256 0 buf
        readSectors count n (s + 1) buf

/-- The result, and the buffer that is read to. -/
def ataReadSectors (lba : Nat) (count : UInt8) (buf : Nat → UInt8) :
    PortProg (Int × (Nat → UInt8)) :=
  if count = 0 then return (0, buf)
  else do
    if (← ataWaitBusy) < 0 then return (-1, buf)
    else do
      issue lba count ataCmdRead
      readSectors count count.toNat 0 buf

def wordAt (buf : Nat → UInt8) (i : Nat) : UInt16 :=
  (buf i).toUInt16 ||| (buf (i + 1)).toUInt16 <<< 8

/-- The inner loop of `ata_write_sectors`. -/
def writeWords (buf : Nat → UInt8) (base : Nat) : Nat → Nat → PortProg Unit
  | 0, _ => return ()
  | n + 1, i => do
      outw ataPrimaryData (wordAt buf (base + i * 2))
      writeWords buf base n (i + 1)

/-- The outer loop of `ata_write_sectors` and what follows it. -/
def writeSectors (count : UInt8) (buf : Nat → UInt8) : Nat → Nat → PortProg Int
  | 0, _ => do
      if (← ataWaitBusy) < 0 then return -1
      else return count.toNat * ataSectorSize
  | n + 1, s => do
      if (← ataWaitDrq) < 0 then return -1
      else do
        writeWords buf (s * ataSectorSize) 256 0
        writeSectors count buf n (s + 1)

def ataWriteSectors (lba : Nat) (count : UInt8) (buf : Nat → UInt8) : PortProg Int :=
  if count = 0 then return 0
  else do
    if (← ataWaitBusy) < 0 then return -1
    else do
      issue lba count ataCmdWrite
      writeSectors count buf count.toNat 0

/-! ## Blocks on the drive (`src/fs/ramdisk.c`) -/

def blockSize : Nat := 4096

def diskBlocks : Nat := 1024

def sectorsPerBlock : UInt8 := 8

def blockRead (blockNo : Nat) (buf : Nat → UInt8) : PortProg (Nat → UInt8) :=
  if diskBlocks ≤ blockNo then return buf
  else do
    let lba := u32 (blockNo * sectorsPerBlock.toNat)
    let (ret, buf) ← ataReadSectors lba sectorsPerBlock buf
    if ret < 0 then return fun i => if i < blockSize then 0 else buf i
    else return buf

def blockWrite (blockNo : Nat) (buf : Nat → UInt8) : PortProg Unit :=
  if diskBlocks ≤ blockNo then return ()
  else do
    let lba := u32 (blockNo * sectorsPerBlock.toNat)
    let _ ← ataWriteSectors lba sectorsPerBlock buf

end SRos.Ata
