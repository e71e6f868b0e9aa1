import SRos.Elf.Accesses
import SRos.Elf.Start

/-!
# The range of a segment

`load_segment` takes the four numbers of a program header as they are. As long as the file part is
not longer than the segment and the segment ends in the address space, its two loops stay on the
pages of the segment. Otherwise the sizes and addresses wrap around, and nothing is refused.
-/

namespace SRos.Elf

open Bytes Fs Paging Elf.Accesses

section Read

variable {fs : FsState} {ino : Nat}

theorem readLoop_le {d : Disk} {inode : Inode} {size offset fuel n : Nat} {block buf : Buf}
    (hn : n ≤ size) : (readLoop d inode size offset fuel n block buf).1 ≤ size := by
  induction fuel generalizing n block buf with
  | zero => exact hn
  | succ fuel ih =>
      unfold readLoop
      split
      · exact hn
      · dsimp only
        split
        · exact hn
        · exact ih (by omega)

theorem sfsReadFile_le (d : Disk) (inode : Inode) (buf : Buf) {size : Nat} (offset : Nat) :
    (sfsReadFile d inode buf size offset).1 ≤ size := by
  unfold sfsReadFile
  split
  · exact Nat.zero_le _
  · have hwrap : u32 (offset + size) ≤ offset + size := Nat.mod_le _ _
    dsimp only
    split
    · exact (readLoop_le (Nat.zero_le _)).trans (by omega)
    · exact readLoop_le (Nat.zero_le _)

/-- Reading from a file whose inode can be read does not fail. -/
theorem readFileAt_nonneg (h : (sfsReadInode fs ino).isSome = true) (buf : Buf) {size : Nat}
    (hsize : size < 2 ^ 31) (offset : Nat) : 0 ≤ (readFileAt fs ino buf size offset).1 := by
  obtain ⟨inode, hinode⟩ := Option.isSome_iff_exists.mp h
  have hle := @sfsReadFile_le fs.disk inode buf size offset
  unfold readFileAt
  rw [hinode]
  dsimp only
  rw [int32_of_lt (by omega)]
  exact Int.natCast_nonneg _

theorem loadFile_result {fuel a off n : Nat} {s s' : Vm} {r : Int}
    (h : (sfsReadInode fs ino).isSome = true) (hs : Elf.loadFile fs ino fuel a off n s = some (r, s')) :
    r = 0 := by
  induction fuel generalizing a off n s with
  | zero =>
      obtain ⟨rfl, -⟩ : 0 = r ∧ s = s' := by simpa [Elf.loadFile] using hs
      rfl
  | succ fuel ih =>
      unfold Elf.loadFile at hs
      split at hs
      · obtain ⟨rfl, -⟩ : 0 = r ∧ s = s' := by simpa using hs
        rfl
      · obtain ⟨s₁, -, hs⟩ := Option.bind_eq_some_iff.mp hs
        dsimp only at hs
        have hread := readFileAt_nonneg h zeros
          (show min (4096 - (a &&& 0xFFF)) n < 2 ^ 31 by omega) off
        rw [if_neg (by omega)] at hs
        obtain ⟨s₂, -, hs⟩ := Option.bind_eq_some_iff.mp hs
        exact ih hs

/-- A segment of a file that can be read is never refused. -/
theorem loadSegment_result {virtAddr off filesz memsz : Nat} {s s' : Vm} {r : Int}
    (h : (sfsReadInode fs ino).isSome = true)
    (hs : Elf.loadSegment fs ino virtAddr off filesz memsz s = some (r, s')) : r = 0 := by
  obtain ⟨⟨r₁, s₁⟩, hs₁, hs⟩ := Option.bind_eq_some_iff.mp hs
  obtain rfl := loadFile_result h hs₁
  dsimp only at hs
  rw [if_neg (by decide)] at hs
  obtain ⟨s₂, -, hs⟩ := Option.bind_eq_some_iff.mp hs
  exact (Prod.mk.inj (Option.some.inj hs)).1.symm

end Read

/-- What a call of `load_segment` keeps to: every page it maps or writes meets the range of the
segment, and a range that cannot be is refused without a store. -/
structure StaysInside (virtAddr filesz memsz : Nat) (run : Traced Access (Option (Int × Vm))) :
    Prop where
  inside : run.Within fun e =>
    ∃ x, virtAddr ≤ x ∧ x < virtAddr + memsz ∧ x / 4096 = e.addr / 4096
  refused : memsz < filesz ∨ 2 ^ 32 < virtAddr + memsz →
    (∃ s, run.value = some (-1, s)) ∧ ∀ v, .store v ∉ run.trace

/-- An executable whose header promises `phnum` program headers, with these headers and `data`
behind them. -/
def executable (phnum : Nat) (phs : List Phdr) (data : List UInt8) : List UInt8 :=
  [0x7F, 0x45, 0x4C, 0x46, 1, 1, 1, 0, 0, 0, 0, 0, 0, 0, 0, 0] ++ littleEndian 2 2 ++
    littleEndian 2 3 ++ littleEndian 4 1 ++ littleEndian 4 0x400000 ++ littleEndian 4 52 ++
    littleEndian 8 0 ++ littleEndian 2 52 ++ littleEndian 2 32 ++ littleEndian 2 phnum ++
    littleEndian 6 0 ++ phs.flatMap Phdr.encode ++ data

instance (fs : FsState) (ino phoff i : Nat) : Decidable (hasPhdr fs ino phoff i) :=
  inferInstanceAs (Decidable (_ ≤ _))

/-- The file is there as `/a`, and its header `i` is `ph`. -/
def phdrTest (i : Nat) (ph : Phdr) (fs : FsState) : Bool :=
  decide (lookupPath fs programPath = some 2) && (sfsReadInode fs 2).isSome &&
    decide (hasPhdr fs 2 52 i) && decide (phdrAt fs 2 52 i = ph)

theorem exists_stored {file : List UInt8} {test : FsState → Bool}
    (h : (storeProgram file).any test = true) :
    ∃ fs, Reach fsStep dataOk (fsBoot .blank) fs ∧ test fs = true := by
  obtain ⟨fs₀, fs, hfs₀, hreach, htest⟩ := Reach.exists_of_runList h
  obtain rfl := Option.some.inj hfs₀
  exact ⟨fs, hreach.mono fun s a => dataOk_of_test, htest⟩

/-- A stored file with one program header can be read while the boot directory is in use. -/
theorem exists_segment {ph : Phdr}
    (h : (storeProgram (executable 1 [ph] [0xAA])).any (phdrTest 0 ph) = true) :
    ∃ fs s, Reach fsStep dataOk (fsBoot .blank) fs ∧ boot (fun _ => 0) = some s ∧
      lookupPath fs programPath = some 2 ∧ hasPhdr fs 2 52 0 ∧ phdrAt fs 2 52 0 = ph ∧
      (sfsReadInode fs 2).isSome = true := by
  obtain ⟨fs, hreach, htest⟩ := exists_stored h
  unfold phdrTest at htest
  simp only [Bool.and_eq_true, decide_eq_true_eq] at htest
  obtain ⟨⟨⟨hfound, hread⟩, hhas⟩, hphdr⟩ := htest
  obtain ⟨s, hboot, -⟩ := boot_laid (fun _ => 0) 0
  exact ⟨fs, s, hreach, hboot, hfound, hhas, hphdr, hread⟩

/-- One byte of the file, and zeros up to the second page. -/
def twoPages : Phdr := ⟨1, 84, 0x10000000, 1, 5000⟩

/-- One byte of the file, in a segment without bytes. -/
def longFile : Phdr := ⟨1, 84, 0x10000000, 1, 0⟩

end SRos.Elf
