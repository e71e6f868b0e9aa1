import SRos.Lib.Bytes
import SRos.Lib.Stores

/-!
# A byte memory as an array of words

The words of a byte memory from a base address on. Stores of words and copies of whole words
change them as they would change an array of words.
-/

namespace SRos.Words

open Bytes Stores

variable {m : Nat → UInt8} {base i : Nat}

/-- The word with index `i`. -/
def wordAt (base : Nat) (m : Nat → UInt8) (i : Nat) : Nat := load32 m (base + 4 * i)

/-- Stores of words to addresses, one after another. -/
def storeWords (ss : List (Nat × Nat)) (m : Nat → UInt8) : Nat → UInt8 :=
  ss.foldl (fun m s => store32 m s.1 s.2) m

theorem wordAt_store32 {j v : Nat} (hv : v < 2 ^ 32) :
    wordAt base (store32 m (base + 4 * j) v) = Function.update (wordAt base m) j v := by
  funext i
  unfold wordAt
  by_cases hi : i = j
  · rw [hi, load32_store32_same m _ hv, Function.update_self]
  · rw [Function.update_of_ne hi, load32_store32_ne (by omega)]

/-- Stores to words of the array. -/
theorem wordAt_storeWords {ts : List (Nat × Nat)} (hts : ∀ t ∈ ts, t.2 < 2 ^ 32) :
    wordAt base (storeWords (ts.map fun t => (base + 4 * t.1, t.2)) m) =
      perform ts (wordAt base m) := by
  induction ts generalizing m with
  | nil => rfl
  | cons t ts ih =>
      rw [perform_cons, ← wordAt_store32 (hts t List.mem_cons_self)]
      exact ih fun t' ht' => hts t' (List.mem_cons_of_mem t ht')

/-- `while (n--) *d++ = *s++` -/
def copyBytes : Nat → Nat → Nat → (Nat → UInt8) → Nat → UInt8
  | 0, _, _, m => m
  | n + 1, d, s, m => copyBytes n (d + 1) (s + 1) (Function.update m d (m s))

/-- A copy to a place that does not meet its source. -/
theorem copyBytes_eq {n d s : Nat} (h : d + n ≤ s ∨ s + n ≤ d) :
    copyBytes n d s m = splice m d n fun i => m (s + i) := by
  induction n generalizing d s m with
  | zero => rw [copyBytes, splice_zero]
  | succ n ih =>
      rw [copyBytes, ih (by omega)]
      funext a
      by_cases hin : d ≤ a ∧ a < d + (n + 1)
      · obtain ⟨k, rfl⟩ := Nat.exists_eq_add_of_le hin.1
        rw [splice_inside (by omega)]
        cases k with
        | zero =>
            rw [splice_outside (by omega), Nat.add_zero, Function.update_self]
            rfl
        | succ k =>
            rw [show d + (k + 1) = d + 1 + k by omega, splice_inside (by omega),
              Function.update_of_ne (by omega)]
            congr 1
            omega
      · rw [splice_outside (by omega), splice_outside (by omega), Function.update_of_ne (by omega)]

/-- A copy of `n` words of the array. -/
theorem wordAt_copyBytes {n d s : Nat} (h : d + n ≤ s ∨ s + n ≤ d) :
    wordAt base (copyBytes (4 * n) (base + 4 * d) (base + 4 * s) m) i =
      if d ≤ i ∧ i < d + n then wordAt base m (s + (i - d)) else wordAt base m i := by
  rw [copyBytes_eq (by omega)]
  unfold wordAt
  split
  · next hin =>
      obtain ⟨k, rfl⟩ := Nat.exists_eq_add_of_le hin.1
      rw [Nat.add_sub_cancel_left]
      have hbyte : ∀ e < 4, splice m (base + 4 * d) (4 * n) (fun j => m (base + 4 * s + j))
          (base + 4 * (d + k) + e) = m (base + 4 * (s + k) + e) := by
        intro e he
        rw [show base + 4 * (d + k) + e = base + 4 * d + (4 * k + e) by omega,
          splice_inside (by omega)]
        congr 1
        omega
      unfold load32
      have h₀ := hbyte 0 (by decide)
      rw [Nat.add_zero, Nat.add_zero] at h₀
      rw [h₀, hbyte 1 (by decide), hbyte 2 (by decide), hbyte 3 (by decide)]
  · apply load32_congr
    intro a ha ha'
    apply splice_outside
    omega

end SRos.Words
