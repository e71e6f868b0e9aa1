import Mathlib.Algebra.Group.Int.Defs
import Mathlib.Algebra.Group.Nat.Defs
import Mathlib.Data.List.Basic

/-!
# Machine words and C strings

The kernel is 32-bit C. Unsigned words are natural numbers reduced by `u32` wherever the
source can wrap. A signed overflow and a copy past the end of an array are undefined
behaviour in C: the operations below return `none` there, and a transition that would need
their result does not exist.
-/

namespace SRos

/-- Reduction of an unsigned result to 32 bits. -/
def u32 (n : Nat) : Nat := n % 2 ^ 32

theorem u32_of_lt {n : Nat} (h : n < 2 ^ 32) : u32 n = n := Nat.mod_eq_of_lt h

theorem u32_lt (n : Nat) : u32 n < 2 ^ 32 := Nat.mod_lt _ (by decide)

/-- `a - b` on unsigned words. -/
def u32Sub (a b : Nat) : Nat := u32 (a + 2 ^ 32 - b)

theorem u32Sub_of_le {a b : Nat} (ha : a < 2 ^ 32) (hab : b ≤ a) : u32Sub a b = a - b := by
  unfold u32Sub u32
  omega

/-- An unsigned word read as a C `int`. -/
def int32 (n : Nat) : Int := if n < 2 ^ 31 then n else n - 2 ^ 32

theorem int32_of_lt {n : Nat} (h : n < 2 ^ 31) : int32 n = n := if_pos h

/-- A C `int` converted to an unsigned word. -/
def u32OfInt (n : Int) : Nat := (n % 2 ^ 32).toNat

theorem u32OfInt_lt (n : Int) : u32OfInt n < 2 ^ 32 := by
  unfold u32OfInt
  omega

theorem u32OfInt_of_nonneg {n : Int} (h₀ : 0 ≤ n) (h : n < 2 ^ 31) : u32OfInt n = n.toNat := by
  unfold u32OfInt
  omega

/-- `n + 1` on a C `int`. -/
def intSucc (n : Int) : Option Int := if n + 1 < 2 ^ 31 then some (n + 1) else none

theorem intSucc_eq_some {n m : Int} (h : intSucc n = some m) : m = n + 1 := by
  unfold intSucc at h
  split at h
  · exact (Option.some.inj h).symm
  · cases h

/-- A NUL-terminated string, given by the bytes in front of its NUL. -/
structure CStr where
  bytes : List UInt8
  noNul : (0 : UInt8) ∉ bytes
  deriving DecidableEq

def CStr.empty : CStr := ⟨[], by simp⟩

/-- `strcpy` of `src` into an array of `size` bytes. -/
def strcpy (size : Nat) (src : CStr) : Option CStr :=
  if src.bytes.length < size then some src else none

/-- `strcmp` (`src/kernel/string.c`) of the strings with these bytes in front of their NUL. -/
def strcmp : List UInt8 → List UInt8 → Int
  | [], [] => 0
  | [], _ :: _ => -1
  | _ :: _, [] => 1
  | a :: as, b :: bs => if a = b then strcmp as bs else if b < a then 1 else -1

theorem strcmp_eq_zero_iff {as bs : List UInt8} : strcmp as bs = 0 ↔ as = bs := by
  induction as generalizing bs with
  | nil => cases bs <;> simp [strcmp]
  | cons a as ih =>
      cases bs with
      | nil => simp [strcmp]
      | cons b bs =>
          by_cases hab : a = b
          · simp [strcmp, hab, ih]
          · by_cases hlt : b < a <;> simp [strcmp, hab, hlt]

end SRos
