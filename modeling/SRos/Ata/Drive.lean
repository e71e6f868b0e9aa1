import SRos.Ata.Model

/-!
# A drive behind the ports

What the driver relies on of the drive is the PIO protocol. After a command and after every sector
the drive is busy for some polls of its status; it then asks for data, is done, or has given up
with `ERR`. The status bits other than `BSY` count only when `BSY` is clear. `BSY` is up as soon as
a command is written: the 400 ns that a drive may take for it are not there, since the driver does
not wait for them. A sector that could not be written holds anything, and every other sector what
it held before.
-/

namespace SRos.Ata

abbrev Sector := Nat → UInt8

/-- What a drive does: it is idle, hands out word `word` of the sector `lba` with `left` sectors to
go, or has taken these words of it. -/
inductive Phase
  | idle (err : Bool)
  | dataIn (lba left word : Nat)
  | dataOut (lba left : Nat) (words : List UInt16)

def Phase.isIdle : Phase → Bool
  | .idle _ => true
  | .dataIn _ _ _ => false
  | .dataOut _ _ _ => false

/-- A drive at a moment: its sectors, the task file, and for how many more polls it is busy. -/
structure View where
  medium : Nat → Sector
  reg : Nat → UInt8
  phase : Phase
  busy : Nat

def taskFile : List Nat :=
  [ataPrimarySectors, ataPrimaryLbaLo, ataPrimaryLbaMid, ataPrimaryLbaHi, ataPrimaryDrive]

/-- The bytes of 16-bit words, the low byte of each first. -/
def sectorOf (words : List UInt16) : Sector := fun i =>
  if i % 2 = 0 then (words.getD (i / 2) 0).toUInt8 else (words.getD (i / 2) 0 >>> 8).toUInt8

namespace View

variable (v : View)

/-- The sector address in the task file, in LBA mode. -/
def lba : Nat :=
  (v.reg ataPrimaryLbaLo).toNat + 2 ^ 8 * (v.reg ataPrimaryLbaMid).toNat +
    2 ^ 16 * (v.reg ataPrimaryLbaHi).toNat + 2 ^ 24 * ((v.reg ataPrimaryDrive).toNat % 16)

def count : Nat :=
  if v.reg ataPrimarySectors = 0 then 256 else (v.reg ataPrimarySectors).toNat

/-- The master drive is selected, in LBA mode. -/
def Selected : Prop := v.reg ataPrimaryDrive &&& 0x50 = 0x40

/-- The drive takes a command. -/
def Ready : Prop := v.busy = 0 ∧ v.phase.isIdle = true

/-- A status that the drive may show. -/
structure Shows (st : UInt8) : Prop where
  bsy : st &&& ataStatusBsy = 0 ↔ v.busy = 0
  err : v.busy = 0 → (st &&& ataStatusErr = 0 ↔ v.phase ≠ .idle true)
  drq : v.busy = 0 → (st &&& ataStatusDrq = 0 ↔ v.phase.isIdle = true)

def tick : View := { v with busy := v.busy - 1 }

def load (port : Nat) (val : UInt8) : View := { v with reg := Function.update v.reg port val }

variable (v' : View)

/-- The drive goes on with `p` or gives up. -/
def GoesOn (p : Phase) : Prop := v'.phase = p ∨ v'.phase = .idle true

structure Reads : Prop where
  medium : v'.medium = v.medium
  phase : v'.GoesOn (.dataIn v.lba v.count 0)

structure Writes : Prop where
  medium : v'.medium = v.medium
  phase : v'.GoesOn (.dataOut v.lba v.count [])

/-- A word has been handed out. -/
structure HandsOut (lba left word : Nat) : Prop where
  medium : v'.medium = v.medium
  more : word + 1 < 256 → v'.busy = 0 ∧ v'.phase = .dataIn lba left (word + 1)
  next : word + 1 = 256 → 1 < left → v'.GoesOn (.dataIn (lba + 1) (left - 1) 0)
  done : word + 1 = 256 → left = 1 → v'.phase = .idle false

/-- The last word of a sector has been taken, and the sectors were those of `medium` before. -/
inductive Stores (medium : Nat → Sector) (lba left : Nat) (words : List UInt16) : Prop
  | done (hmedium : v'.medium = Function.update medium lba (sectorOf words))
      (hphase : v'.phase = if left = 1 then .idle false else .dataOut (lba + 1) (left - 1) [])
  | error (hmedium : ∀ l, l ≠ lba → v'.medium l = medium l) (hphase : v'.phase = .idle true)

/-- A word has been taken; `words` are those of the sector with it. -/
structure Takes (lba left : Nat) (words : List UInt16) : Prop where
  more : words.length < 256 →
    v'.medium = v.medium ∧ v'.busy = 0 ∧ v'.phase = .dataOut lba left words
  full : words.length = 256 → v'.Stores v.medium lba left words

end View

/-- A device that follows the protocol, and is never busy for so long that the driver gives up. -/
structure Drive (σ : Type) where
  exec : Device σ
  view : σ → View
  poll : ∀ s, (view s).Shows (exec (.inb ataPrimaryAltstat) s).1 ∧
    view (exec (.inb ataPrimaryAltstat) s).2 = (view s).tick
  load : ∀ s port val, (view s).Ready → port ∈ taskFile →
    view (exec (.outb port val) s).2 = (view s).load port val
  read : ∀ s, (view s).Ready → (view s).Selected →
    (view s).Reads (view (exec (.outb ataPrimaryCmd ataCmdRead) s).2)
  write : ∀ s, (view s).Ready → (view s).Selected →
    (view s).Writes (view (exec (.outb ataPrimaryCmd ataCmdWrite) s).2)
  dataIn : ∀ s lba left word, (view s).busy = 0 → (view s).phase = .dataIn lba left word →
    word < 256 → (exec (.inw ataPrimaryData) s).1 = wordAt ((view s).medium lba) (word * 2) ∧
      (view s).HandsOut (view (exec (.inw ataPrimaryData) s).2) lba left word
  dataOut : ∀ s x lba left words, (view s).busy = 0 →
    (view s).phase = .dataOut lba left words → words.length < 256 →
      (view s).Takes (view (exec (.outw ataPrimaryData x) s).2) lba left (words ++ [x])
  prompt : ∀ s, (view s).busy < ataTimeout - 1

namespace Drive

variable {σ : Type} (D : Drive σ)

/-- Every sector can be read and written. -/
def Flawless : Prop := ∀ s, (D.view s).phase ≠ .idle true

/-- No command is in progress. -/
def AtRest (s : σ) : Prop := (D.view s).phase.isIdle = true

variable {α β : Type}

def run (p : PortProg α) (s : σ) : α × σ := D.exec.machine.run p s

@[simp] theorem run_ret (a : α) (s : σ) : D.run (.ret a) s = (a, s) := rfl

@[simp] theorem run_inb_bind (port : Nat) (f : UInt8 → PortProg α) (s : σ) :
    D.run (inb port >>= f) s =
      D.run (f (D.exec (.inb port) s).1) (D.exec (.inb port) s).2 := rfl

@[simp] theorem run_outb_bind (port : Nat) (val : UInt8) (f : Unit → PortProg α) (s : σ) :
    D.run (outb port val >>= f) s = D.run (f ()) (D.exec (.outb port val) s).2 := rfl

@[simp] theorem run_inw_bind (port : Nat) (f : UInt16 → PortProg α) (s : σ) :
    D.run (inw port >>= f) s =
      D.run (f (D.exec (.inw port) s).1) (D.exec (.inw port) s).2 := rfl

@[simp] theorem run_outw_bind (port : Nat) (val : UInt16) (f : Unit → PortProg α) (s : σ) :
    D.run (outw port val >>= f) s = D.run (f ()) (D.exec (.outw port val) s).2 := rfl

theorem run_bind (p : PortProg α) (f : α → PortProg β) (s : σ) :
    D.run (p >>= f) s = D.run (f (D.run p s).1) (D.run p s).2 :=
  D.exec.machine.run_bind p f s

end Drive

end SRos.Ata
