import Mathlib.Data.List.Basic

/-!
# Loops that can fail

A `for` loop whose body may stop the program is a monadic fold over its counter. The first rule
is for total correctness: the body succeeds under the invariant. The others start from a loop
that has succeeded.
-/

namespace SRos.Loop

variable {σ α : Type} {f : σ → α → Option σ}

/-- If the body succeeds in every round and carries the invariant on, so does the loop. -/
theorem foldlM_range {f : σ → Nat → Option σ} {n : Nat} {s : σ} (I : Nat → σ → Prop) (h₀ : I 0 s)
    (hstep : ∀ k s, k < n → I k s → ∃ s', f s k = some s' ∧ I (k + 1) s') :
    ∃ s', (List.range n).foldlM f s = some s' ∧ I n s' := by
  induction n with
  | zero => exact ⟨s, rfl, h₀⟩
  | succ n ih =>
      obtain ⟨s₁, hs₁, hI₁⟩ := ih fun k s hk => hstep k s (by omega)
      obtain ⟨s₂, hs₂, hI₂⟩ := hstep n s₁ (by omega) hI₁
      refine ⟨s₂, ?_, hI₂⟩
      rw [List.range_succ, List.foldlM_append, hs₁]
      simp [hs₂]

/-- If a round can only fail for one reason, the loop carries the invariant to its end or fails
for that reason. -/
theorem foldlM_range_or {f : σ → Nat → Option σ} {n : Nat} {s : σ} (I : Nat → σ → Prop) {q : Prop}
    (h₀ : I 0 s)
    (hstep : ∀ k s, k < n → I k s → (∃ s', f s k = some s' ∧ I (k + 1) s') ∨ (f s k = none ∧ q)) :
    (∃ s', (List.range n).foldlM f s = some s' ∧ I n s') ∨
      ((List.range n).foldlM f s = none ∧ q) := by
  induction n with
  | zero => exact .inl ⟨s, rfl, h₀⟩
  | succ n ih =>
      rw [List.range_succ, List.foldlM_append]
      rcases ih fun k s hk => hstep k s (by omega) with ⟨s₁, hs₁, hI₁⟩ | ⟨hnone, hq⟩
      · rw [hs₁]
        rcases hstep n s₁ (by omega) hI₁ with ⟨s₂, hs₂, hI₂⟩ | ⟨hnone, hq⟩
        · exact .inl ⟨s₂, by simp [hs₂], hI₂⟩
        · exact .inr ⟨by simp [hnone], hq⟩
      · rw [hnone]
        exact .inr ⟨rfl, hq⟩

/-- A property that every successful round keeps is kept by a successful loop. -/
theorem foldlM_keeps {xs : List α} {s s' : σ} (P : σ → Prop)
    (h : xs.foldlM f s = some s') (h₀ : P s)
    (hstep : ∀ s x s', x ∈ xs → P s → f s x = some s' → P s') : P s' := by
  induction xs generalizing s with
  | nil =>
      obtain rfl : s = s' := by simpa using h
      exact h₀
  | cons x xs ih =>
      rw [List.foldlM_cons] at h
      obtain ⟨s₁, hs₁, hrest⟩ := Option.bind_eq_some_iff.mp h
      exact ih hrest (hstep s x s₁ (by simp) h₀ hs₁) fun s y s' hy => hstep s y s' (by simp [hy])

/-- An invariant that depends on the counter, for a loop that has succeeded. -/
theorem foldlM_range_keeps {f : σ → Nat → Option σ} {n : Nat} {s s' : σ} (I : Nat → σ → Prop)
    (h : (List.range n).foldlM f s = some s') (h₀ : I 0 s)
    (hstep : ∀ k s s', k < n → I k s → f s k = some s' → I (k + 1) s') : I n s' := by
  induction n generalizing s' with
  | zero =>
      obtain rfl : s = s' := by simpa using h
      exact h₀
  | succ n ih =>
      rw [List.range_succ, List.foldlM_append] at h
      obtain ⟨s₁, hs₁, hlast⟩ := Option.bind_eq_some_iff.mp h
      have hI := ih hs₁ fun k s s' hk => hstep k s s' (by omega)
      exact hstep n s₁ s' (by omega) hI (by simpa using hlast)

/-- A search whose tests all succeed. -/
theorem anyM_of_forall {p : α → Option Bool} {q : α → Bool} {xs : List α}
    (h : ∀ x ∈ xs, p x = some (q x)) : xs.anyM p = some (xs.any q) := by
  induction xs with
  | nil => rfl
  | cons x xs ih =>
      have hrest := ih fun y hy => h y (by simp [hy])
      rw [List.anyM, h x (by simp), List.any_cons]
      cases q x with
      | true => rfl
      | false => exact hrest

end SRos.Loop
