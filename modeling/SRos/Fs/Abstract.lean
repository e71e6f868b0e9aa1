import Mathlib.Logic.Relation
import SRos.Fs.System

/-!
# Files as byte lists

What the file system is for: a file is a list of bytes, and an open file is a file with a
position in it. Reading copies bytes from the position on and moves it. Writing replaces the
bytes from the position on and moves it, and the list grows when they reach past its end.
-/

namespace SRos.Fs

/-- The contents of the regular files by their inodes, and the inode and position of each open
descriptor. -/
@[ext] structure AbsFs where
  content : Nat → Option (List UInt8)
  fds : Nat → Option (Nat × Nat)

namespace AbsFs

def empty : AbsFs := ⟨fun _ => none, fun _ => none⟩

/-- The open file of a descriptor argument. -/
def lookupFd (x : AbsFs) (fd : Int) : Option (Nat × Nat) :=
  if fd < 0 then none else x.fds fd.toNat

/-- The list `c` with the bytes from `offset` on replaced by the first `n` bytes of `buf`. -/
def overwrite (c : List UInt8) (offset n : Nat) (buf : Buf) : List UInt8 :=
  c.take offset ++ (List.range n).map buf ++ c.drop (offset + n)

def setFd (x : AbsFs) (fd : Nat) (p : Option (Nat × Nat)) : AbsFs :=
  { x with fds := Function.update x.fds fd p }

def setContent (x : AbsFs) (i : Nat) (c : List UInt8) : AbsFs :=
  { x with content := Function.update x.content i (some c) }

/-- `Step x a r buf' x'`: the call `a` returns `r` and leaves `buf'` in the buffer of its
caller. -/
inductive Step (x : AbsFs) : FsAct → Int → Buf → AbsFs → Prop
  | createFailed {name : CStr} {buf' : Buf} : Step x (.create name) (-1) buf' x
  | created {name : CStr} {buf' : Buf} {i : Nat} (hnew : x.content i = none) :
      Step x (.create name) 0 buf' (x.setContent i [])
  | openFailed {path : Option CStr} {buf' : Buf} : Step x (.open path) (-1) buf' x
  | opened {path : Option CStr} {buf' : Buf} {fd i : Nat} (hfree : x.fds fd = none) :
      Step x (.open path) fd buf' (x.setFd fd (some (i, 0)))
  | readFailed {fd count : Int} {buf : Buf} (hfd : x.lookupFd fd = none) :
      Step x (.read fd buf count) (-1) buf x
  | read {fd count : Int} {buf buf' : Buf} {i offset n : Nat} {old : List UInt8}
      (hfd : x.lookupFd fd = some (i, offset)) (hc : x.content i = some old)
      (hle : offset ≤ old.length) (hn : n = min count.toNat (old.length - offset))
      (hread : ∀ j < n, old[offset + j]? = some (buf' j)) (hrest : ∀ j, n ≤ j → buf' j = buf j) :
      Step x (.read fd buf count) n buf' (x.setFd fd.toNat (some (i, offset + n)))
  | writeFailed {fd count : Int} {buf : Buf} (hfd : x.lookupFd fd = none) :
      Step x (.write fd buf count) (-1) buf x
  | write {fd count : Int} {buf : Buf} {i offset n : Nat} {c : List UInt8}
      (hfd : x.lookupFd fd = some (i, offset)) (hc : x.content i = some c)
      (hle : offset ≤ c.length) (hn : (n : Int) ≤ count) :
      Step x (.write fd buf count) n buf
        ((x.setContent i (overwrite c offset n buf)).setFd fd.toNat (some (i, offset + n)))
  | closed {fd : Int} {buf' : Buf} (h : 0 ≤ fd) : Step x (.close fd) 0 buf' (x.setFd fd.toNat none)
  | closeFailed {fd : Int} {buf' : Buf} (h : fd < 0) : Step x (.close fd) 0 buf' x

/-- Some call. -/
def Next (x x' : AbsFs) : Prop := ∃ a r buf', Step x a r buf' x'

theorem overwrite_eq_map {size offset n : Nat} {buf : Buf} {f f' : Nat → UInt8}
    (hle : offset ≤ size) (hnew : ∀ j < n, f' (offset + j) = buf j)
    (hold : ∀ p < size, p < offset ∨ offset + n ≤ p → f' p = f p) :
    overwrite ((List.range size).map f) offset n buf =
      (List.range (max size (offset + n))).map f' := by
  unfold overwrite
  apply List.ext_getElem
  · simp only [List.length_append, List.length_take, List.length_map, List.length_range,
      List.length_drop]
    omega
  · intro p hp hp'
    simp only [List.length_map, List.length_range] at hp'
    rw [List.getElem_map, List.getElem_range]
    by_cases hbefore : p < offset
    · rw [List.getElem_append_left (by simp; omega), List.getElem_append_left (by simp; omega)]
      simp only [List.getElem_take, List.getElem_map, List.getElem_range]
      exact (hold p (by omega) (.inl hbefore)).symm
    · by_cases hinside : p < offset + n
      · rw [List.getElem_append_left (by simp; omega),
          List.getElem_append_right (by simp; omega)]
        simp only [List.length_take, List.length_map, List.length_range, List.getElem_map,
          List.getElem_range]
        have hj := hnew (p - offset) (by omega)
        rw [show offset + (p - offset) = p by omega] at hj
        rw [min_eq_left hle, hj]
      · rw [List.getElem_append_right (by simp; omega)]
        simp only [List.length_append, List.length_take, List.length_map, List.length_range,
          List.getElem_drop, List.getElem_map, List.getElem_range]
        rw [min_eq_left hle, show offset + n + (p - (offset + n)) = p by omega]
        exact (hold p (by omega) (.inr (by omega))).symm

end AbsFs

end SRos.Fs
