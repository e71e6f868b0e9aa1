import Mathlib.Data.Nat.Bitwise
import Mathlib.Logic.Function.Basic

/-!
# Little-endian words in a byte memory

A memory gives a byte to every address. A 32-bit word at an address is read from and written
to the four bytes that start there, and a write is seen only by the reads that meet them.
-/

namespace SRos.Bytes

variable {m m' : Nat → UInt8} {a b v : Nat}

def load32 (m : Nat → UInt8) (a : Nat) : Nat :=
  (m a).toNat + 2 ^ 8 * (m (a + 1)).toNat + 2 ^ 16 * (m (a + 2)).toNat +
    2 ^ 24 * (m (a + 3)).toNat

/-- The `k`-th byte of a word, the lowest one first. -/
def byte32 (v k : Nat) : UInt8 := UInt8.ofNat (v / 2 ^ (8 * k))

def store32 (m : Nat → UInt8) (a v : Nat) : Nat → UInt8 := fun i =>
  if a ≤ i ∧ i < a + 4 then byte32 v (i - a) else m i

theorem load32_lt (m : Nat → UInt8) (a : Nat) : load32 m a < 2 ^ 32 := by
  have h₀ := (m a).toNat_lt
  have h₁ := (m (a + 1)).toNat_lt
  have h₂ := (m (a + 2)).toNat_lt
  have h₃ := (m (a + 3)).toNat_lt
  unfold load32
  omega

/-- A word depends on its four bytes only. -/
theorem load32_congr (h : ∀ i, a ≤ i → i < a + 4 → m' i = m i) : load32 m' a = load32 m a := by
  unfold load32
  rw [h a (by omega) (by omega), h (a + 1) (by omega) (by omega),
    h (a + 2) (by omega) (by omega), h (a + 3) (by omega) (by omega)]

/-- Four bytes of a word in a row are read as that word. -/
theorem load32_of_bytes (hv : v < 2 ^ 32) (h : ∀ k, k < 4 → m (a + k) = byte32 v k) :
    load32 m a = v := by
  have h₀ : m a = byte32 v 0 := h 0 (by decide)
  unfold load32
  rw [h₀, h 1 (by decide), h 2 (by decide), h 3 (by decide)]
  simp only [byte32, UInt8.toNat_ofNat']
  omega

theorem store32_of_outside {i : Nat} (h : i < a ∨ a + 4 ≤ i) : store32 m a v i = m i := by
  unfold store32
  rw [if_neg (by omega)]

theorem load32_store32_same (m : Nat → UInt8) (a : Nat) (hv : v < 2 ^ 32) :
    load32 (store32 m a v) a = v := by
  apply load32_of_bytes hv
  intro k hk
  unfold store32
  rw [if_pos (by omega), Nat.add_sub_cancel_left]

theorem load32_store32_ne (h : a + 4 ≤ b ∨ b + 4 ≤ a) :
    load32 (store32 m a v) b = load32 m b := by
  apply load32_congr
  intro i hi hi'
  apply store32_of_outside
  omega

theorem store32_store32_same (m : Nat → UInt8) (a v w : Nat) :
    store32 (store32 m a v) a w = store32 m a w := by
  funext i
  unfold store32
  split
  · rfl
  · rfl

theorem load32_update_ne {x : UInt8} (h : b < a ∨ a + 4 ≤ b) :
    load32 (Function.update m b x) a = load32 m a := by
  apply load32_congr
  intro i hi hi'
  apply Function.update_of_ne
  omega

/-- `for (i = 0; i < n; i++) m[a + i] = src[i]` -/
def splice (m : Nat → UInt8) (a n : Nat) (src : Nat → UInt8) : Nat → UInt8 := fun i =>
  if a ≤ i ∧ i < a + n then src (i - a) else m i

theorem splice_inside {n i : Nat} {src : Nat → UInt8} (h : i < n) :
    splice m a n src (a + i) = src i := by
  unfold splice
  rw [if_pos (by omega), Nat.add_sub_cancel_left]

theorem splice_outside {n i : Nat} {src : Nat → UInt8} (h : i < a ∨ a + n ≤ i) :
    splice m a n src i = m i := by
  unfold splice
  rw [if_neg (by omega)]

/-- One more round of the copying loop. -/
theorem splice_succ {n : Nat} {src : Nat → UInt8} :
    Function.update (splice m a n src) (a + n) (src n) = splice m a (n + 1) src := by
  funext i
  by_cases hi : i = a + n
  · subst hi
    rw [Function.update_self, splice_inside (by omega)]
  · rw [Function.update_of_ne hi]
    by_cases hin : a ≤ i ∧ i < a + n
    · obtain ⟨k, rfl⟩ := Nat.exists_eq_add_of_le hin.1
      rw [splice_inside (by omega), splice_inside (by omega)]
    · rw [splice_outside (by omega), splice_outside (by omega)]

@[simp] theorem splice_zero {src : Nat → UInt8} : splice m a 0 src = m := by
  funext i
  exact splice_outside (by omega)

/-- A mask that clears the low `k` bits of a word of `k + w` bits. -/
theorem and_highMask {n k w : Nat} (h : n < 2 ^ (k + w)) :
    n &&& (2 ^ w - 1) * 2 ^ k = n / 2 ^ k * 2 ^ k := by
  apply Nat.eq_of_testBit_eq
  intro i
  rw [Nat.testBit_and, Nat.testBit_mul_two_pow, Nat.testBit_mul_two_pow,
    Nat.testBit_div_two_pow, Nat.testBit_two_pow_sub_one]
  by_cases hk : k ≤ i
  · rw [Nat.sub_add_cancel hk]
    by_cases hw : i - k < w
    · simp [hk, hw]
    · have hlt : n < 2 ^ i := lt_of_lt_of_le h (Nat.pow_le_pow_right (by decide) (by omega))
      simp [Nat.testBit_lt_two_pow hlt]
  · simp [hk]

theorem or_one_of_even {n : Nat} (h : n % 2 = 0) : n ||| 1 = n + 1 := by
  have hor := Nat.two_pow_add_eq_or_of_lt (show 1 < 2 ^ 1 by decide) (n / 2)
  have hn : 2 ^ 1 * (n / 2) = n := by omega
  rw [hn] at hor
  exact hor.symm

end SRos.Bytes
