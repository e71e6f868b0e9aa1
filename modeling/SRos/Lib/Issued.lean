import Mathlib.Logic.Function.Basic

/-!
# Identifiers that are given out in order

A table of entries with an identifier each; the entries that are not in use have a negative one. A
new identifier is the value of a counter, which then goes on by one.
-/

namespace SRos

variable {ι : Type*} {ids : ι → Int} {n : Int}

/-- Below the counter `n`, no identifier stands for two entries. -/
structure Issued (ids : ι → Int) (n : Int) : Prop where
  lt : ∀ i, ids i < n
  inj : ∀ i j, 0 ≤ ids i → ids i = ids j → i = j

namespace Issued

variable [DecidableEq ι]

/-- An entry gets the value of the counter. -/
theorem issue (h : Issued ids n) (i : ι) : Issued (Function.update ids i n) (n + 1) := by
  constructor
  · intro j
    have hlt := h.lt j
    by_cases hj : j = i
    · rw [hj, Function.update_self]
      omega
    · rw [Function.update_of_ne hj]
      omega
  · intro j k hj₀ hjk
    have hj := h.lt j
    have hk := h.lt k
    by_cases hji : j = i <;> by_cases hki : k = i
    · exact hji.trans hki.symm
    · rw [hji, Function.update_self, Function.update_of_ne hki] at hjk
      omega
    · rw [hki, Function.update_self, Function.update_of_ne hji] at hjk
      omega
    · rw [Function.update_of_ne hji] at hj₀ hjk
      rw [Function.update_of_ne hki] at hjk
      exact h.inj j k hj₀ hjk

/-- An entry is no longer in use. -/
theorem withdraw (h : Issued ids n) (hn : 0 ≤ n) (i : ι) : Issued (Function.update ids i (-1)) n := by
  constructor
  · intro j
    by_cases hj : j = i
    · rw [hj, Function.update_self]
      omega
    · rw [Function.update_of_ne hj]
      exact h.lt j
  · intro j k hj₀ hjk
    have hji : j ≠ i := by
      rintro rfl
      rw [Function.update_self] at hj₀
      omega
    have hki : k ≠ i := by
      rintro rfl
      rw [hjk, Function.update_self] at hj₀
      omega
    rw [Function.update_of_ne hji] at hj₀ hjk
    rw [Function.update_of_ne hki] at hjk
    exact h.inj j k hj₀ hjk

end Issued

end SRos
