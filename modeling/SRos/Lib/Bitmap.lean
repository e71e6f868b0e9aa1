import Mathlib.Data.Nat.Bitwise
import Mathlib.Logic.Function.Basic

/-!
# Bitmaps in a byte memory

Bit `i` of a bitmap is bit `i % 8` of its byte `i / 8`.
-/

namespace SRos.Bitmap

variable {m : Nat → UInt8} {i n : Nat}

def bit (m : Nat → UInt8) (i : Nat) : Bool := (m (i / 8)).toNat &&& 1 <<< (i % 8) != 0

def set (m : Nat → UInt8) (i : Nat) : Nat → UInt8 :=
  Function.update m (i / 8) (UInt8.ofNat ((m (i / 8)).toNat ||| 1 <<< (i % 8)))

def clear (m : Nat → UInt8) (i : Nat) : Nat → UInt8 :=
  Function.update m (i / 8) (UInt8.ofNat ((m (i / 8)).toNat &&& (0xFF ^^^ 1 <<< (i % 8))))

/-- The first bit below `n` that is not set. -/
def findFirstZero (m : Nat → UInt8) (n : Nat) : Option Nat :=
  (List.range n).find? fun i => !bit m i

theorem bit_eq_testBit (m : Nat → UInt8) (i : Nat) :
    bit m i = (m (i / 8)).toNat.testBit (i % 8) := by
  unfold bit
  rw [Nat.one_shiftLeft, Nat.and_two_pow]
  cases (m (i / 8)).toNat.testBit (i % 8) <;> simp

/-- The bits determine the bytes. -/
theorem bit_injective {m m' : Nat → UInt8} (h : bit m = bit m') : m = m' := by
  funext j
  apply UInt8.toNat_inj.mp
  apply Nat.eq_of_testBit_eq
  intro k
  by_cases hk : k < 8
  · have hbit := congrFun h (8 * j + k)
    rw [bit_eq_testBit, bit_eq_testBit, show (8 * j + k) / 8 = j by omega,
      show (8 * j + k) % 8 = k by omega] at hbit
    exact hbit
  · have hpow : 2 ^ 8 ≤ 2 ^ k := Nat.pow_le_pow_right (by decide) (by omega)
    rw [Nat.testBit_lt_two_pow (lt_of_lt_of_le (m j).toNat_lt hpow),
      Nat.testBit_lt_two_pow (lt_of_lt_of_le (m' j).toNat_lt hpow)]

/-- A byte changed in one bit, seen through the bits of the bitmap. -/
theorem bit_update {x : Nat} (hx : x < 2 ^ 8)
    (h : ∀ k, k < 8 → k ≠ i % 8 → x.testBit k = (m (i / 8)).toNat.testBit k) :
    bit (Function.update m (i / 8) (UInt8.ofNat x)) =
      Function.update (bit m) i (x.testBit (i % 8)) := by
  have htoNat : (UInt8.ofNat x).toNat = x := by
    rw [UInt8.toNat_ofNat']
    exact Nat.mod_eq_of_lt hx
  funext j
  rw [bit_eq_testBit]
  by_cases hj : j = i
  · subst hj
    rw [Function.update_self, Function.update_self, htoNat]
  · rw [Function.update_of_ne hj, bit_eq_testBit]
    by_cases hbyte : j / 8 = i / 8
    · rw [hbyte, Function.update_self, htoNat]
      apply h
      · omega
      · omega
    · rw [Function.update_of_ne hbyte]

theorem bit_set (m : Nat → UInt8) (i : Nat) :
    bit (set m i) = Function.update (bit m) i true := by
  have hbyte := (m (i / 8)).toNat_lt
  have hmask : 1 <<< (i % 8) < 2 ^ 8 := by
    rw [Nat.one_shiftLeft]
    exact Nat.pow_lt_pow_right (by decide) (by omega)
  unfold set
  rw [bit_update (Nat.or_lt_two_pow hbyte hmask)]
  · congr 1
    simp [Nat.testBit_or, Nat.one_shiftLeft]
  · intro k _ hne
    simp [Nat.testBit_or, Nat.one_shiftLeft, hne.symm]

theorem bit_clear (m : Nat → UInt8) (i : Nat) :
    bit (clear m i) = Function.update (bit m) i false := by
  have hbyte := (m (i / 8)).toNat_lt
  have hones : ∀ k, k < 8 → (0xFF : Nat).testBit k = true := by decide
  unfold clear
  rw [bit_update (lt_of_le_of_lt Nat.and_le_left hbyte)]
  · congr 1
    simp [Nat.testBit_and, Nat.testBit_xor, Nat.one_shiftLeft, hones (i % 8) (by omega)]
  · intro k hk hne
    simp [Nat.testBit_and, Nat.testBit_xor, Nat.one_shiftLeft, hne.symm, hones k hk]

theorem findFirstZero_eq_some (h : findFirstZero m n = some i) :
    i < n ∧ bit m i = false ∧ ∀ j < i, bit m j = true := by
  unfold findFirstZero at h
  obtain ⟨hzero, hmem, hbelow⟩ := List.find?_range_eq_some.mp h
  refine ⟨List.mem_range.mp hmem, by simpa using hzero, ?_⟩
  intro j hj
  simpa using hbelow j hj

theorem findFirstZero_eq_none (h : findFirstZero m n = none) (hi : i < n) : bit m i = true := by
  unfold findFirstZero at h
  simpa using List.find?_eq_none.mp h i (List.mem_range.mpr hi)

end SRos.Bitmap
