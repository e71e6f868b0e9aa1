import Mathlib.Control.Basic

/-!
# Computations with a trace

A value together with the list of the events on the way to it. `m.Within p` says that every event
has the property `p`; it is proved along the computation. With `OptionT` a computation can fail,
and its trace then ends with the step that failed.
-/

namespace SRos

structure Traced (ι α : Type) where
  value : α
  trace : List ι

namespace Traced

variable {ι α β : Type} {p : ι → Prop}

instance : Monad (Traced ι) where
  pure a := ⟨a, []⟩
  bind m f := ⟨(f m.value).value, m.trace ++ (f m.value).trace⟩

/-- A single event. -/
def emit (i : ι) : Traced ι Unit := ⟨(), [i]⟩

@[simp] theorem value_pure (a : α) : (pure a : Traced ι α).value = a := rfl

@[simp] theorem value_bind (m : Traced ι α) (f : α → Traced ι β) :
    (m >>= f).value = (f m.value).value := rfl

theorem trace_bind (m : Traced ι α) (f : α → Traced ι β) :
    (m >>= f).trace = m.trace ++ (f m.value).trace := rfl

def Within (p : ι → Prop) (m : Traced ι α) : Prop := ∀ i ∈ m.trace, p i

theorem within_pure (a : α) : (pure a : Traced ι α).Within p := by
  intro i hi
  cases hi

theorem within_emit {i : ι} (h : p i) : (emit i).Within p := by
  intro j hj
  rw [List.mem_singleton.mp hj]
  exact h

theorem Within.bind {m : Traced ι α} {f : α → Traced ι β} (h : m.Within p)
    (hf : (f m.value).Within p) : (m >>= f).Within p := by
  intro i hi
  rw [trace_bind, List.mem_append] at hi
  exact hi.elim (h i) (hf i)

theorem Within.emit_bind {i : ι} {f : Unit → Traced ι β} (h : p i) (hf : (f ()).Within p) :
    (Traced.emit i >>= f).Within p :=
  (within_emit h).bind hf

/-! ## Computations that can fail -/

/-- A step that is an event and can fail. -/
def step (i : ι) (o : Option α) : OptionT (Traced ι) α := OptionT.mk ⟨o, [i]⟩

/-- A step without an event that can fail. -/
def attempt (o : Option α) : OptionT (Traced ι) α := OptionT.mk ⟨o, []⟩

section Fallible

variable {i : ι} {o : Option α} {a : α} {m : OptionT (Traced ι) α} {f : α → OptionT (Traced ι) β}

@[simp] theorem value_step : (step i o).run.value = o := rfl

@[simp] theorem trace_step : (step i o).run.trace = [i] := rfl

@[simp] theorem value_attempt : (attempt o : OptionT (Traced ι) α).run.value = o := rfl

@[simp] theorem trace_attempt : (attempt o : OptionT (Traced ι) α).run.trace = [] := rfl

@[simp] theorem value_run_pure : (pure a : OptionT (Traced ι) α).run.value = some a := rfl

@[simp] theorem trace_run_pure : (pure a : OptionT (Traced ι) α).run.trace = [] := rfl

@[simp] theorem value_run_bind : (m >>= f).run.value = m.run.value.bind fun a => (f a).run.value := by
  rw [OptionT.run_bind]
  unfold Option.elimM
  rw [value_bind]
  cases m.run.value <;> rfl

theorem trace_run_bind : (m >>= f).run.trace =
    m.run.trace ++ (m.run.value.elim [] fun a => (f a).run.trace) := by
  rw [OptionT.run_bind]
  unfold Option.elimM
  rw [trace_bind]
  cases m.run.value <;> rfl

theorem mem_trace_run_bind : i ∈ (m >>= f).run.trace ↔
    i ∈ m.run.trace ∨ ∃ a, m.run.value = some a ∧ i ∈ (f a).run.trace := by
  rw [trace_run_bind, List.mem_append]
  cases m.run.value <;> simp

/-- The part after a step is only reached if the step succeeds. -/
theorem Within.run_bind (h : m.run.Within p)
    (hf : ∀ a, m.run.value = some a → (f a).run.Within p) : (m >>= f).run.Within p := by
  intro i hi
  rcases mem_trace_run_bind.mp hi with hi | ⟨a, ha, hi⟩
  · exact h i hi
  · exact hf a ha i hi

/-- A loop keeps to `p` if every round does. -/
theorem Within.foldlM {xs : List β} {g : α → β → OptionT (Traced ι) α}
    (h : ∀ a, ∀ x ∈ xs, (g a x).run.Within p) (a : α) : (xs.foldlM g a).run.Within p := by
  induction xs generalizing a with
  | nil => exact within_pure _
  | cons x xs ih =>
      rw [List.foldlM_cons]
      exact .run_bind (h a x (by simp)) fun a _ => ih (fun a y hy => h a y (by simp [hy])) a

/-- A loop that comes to its end has gone through every round. -/
theorem mem_trace_foldlM {xs : List β} {g : α → β → OptionT (Traced ι) α} {x : β} {a' : α}
    (hx : x ∈ xs) (h : ∀ a, i ∈ (g a x).run.trace) (hend : (xs.foldlM g a).run.value = some a') :
    i ∈ (xs.foldlM g a).run.trace := by
  induction xs generalizing a with
  | nil => cases hx
  | cons y xs ih =>
      rw [List.foldlM_cons] at hend ⊢
      rw [mem_trace_run_bind]
      rcases List.mem_cons.mp hx with rfl | hx
      · exact .inl (h a)
      · rw [value_run_bind] at hend
        obtain ⟨a₁, ha₁, hend⟩ := Option.bind_eq_some_iff.mp hend
        exact .inr ⟨a₁, ha₁, ih hx hend⟩

/-- A round that a loop comes to is in its trace. -/
theorem mem_trace_foldlM_append {xs ys : List β} {x : β} {g : α → β → OptionT (Traced ι) α} {a b : α}
    (hreach : (xs.foldlM g a).run.value = some b) (hi : i ∈ (g b x).run.trace) :
    i ∈ ((xs ++ x :: ys).foldlM g a).run.trace := by
  induction xs generalizing a with
  | nil =>
      obtain rfl := Option.some.inj hreach
      rw [List.nil_append, List.foldlM_cons, mem_trace_run_bind]
      exact .inl hi
  | cons y xs ih =>
      rw [List.foldlM_cons, value_run_bind] at hreach
      obtain ⟨c, hc, hreach⟩ := Option.bind_eq_some_iff.mp hreach
      rw [List.cons_append, List.foldlM_cons, mem_trace_run_bind]
      exact .inr ⟨c, hc, ih hreach⟩

theorem mem_trace_foldlM_range {g : α → Nat → OptionT (Traced ι) α} {k n : Nat} {a b : α} (hk : k < n)
    (hreach : ((List.range k).foldlM g a).run.value = some b) (hi : i ∈ (g b k).run.trace) :
    i ∈ ((List.range n).foldlM g a).run.trace := by
  have hsplit : List.range n = List.range k ++ k :: List.range' (k + 1) (n - k - 1) := by
    have hlen : n = k + (n - k - 1 + 1) := by omega
    rw [← List.range'_succ, List.range_eq_range', List.range_eq_range']
    calc List.range' 0 n = List.range' 0 (k + (n - k - 1 + 1)) := by rw [← hlen]
      _ = List.range' 0 k ++ List.range' k (n - k - 1 + 1) := by
          rw [← List.range'_append_1, Nat.zero_add]
  rw [hsplit]
  exact mem_trace_foldlM_append hreach hi

theorem value_run_foldlM (xs : List β) (g : α → β → OptionT (Traced ι) α) (a : α) :
    (xs.foldlM g a).run.value = xs.foldlM (fun a x => (g a x).run.value) a := by
  induction xs generalizing a with
  | nil => rfl
  | cons x xs ih =>
      rw [List.foldlM_cons, List.foldlM_cons, value_run_bind]
      exact congrArg _ (funext ih)

/-! ## Contracts -/

/-- Every event has the property `p`, and what is returned has the property `q`. -/
def Meets (p : ι → Prop) (m : OptionT (Traced ι) α) (q : α → Prop) : Prop :=
  m.run.Within p ∧ ∀ a, m.run.value = some a → q a

variable {q : α → Prop} {r : β → Prop}

theorem Meets.pure (h : q a) : Meets p (pure a) q := by
  refine ⟨within_pure _, fun b hb => ?_⟩
  obtain rfl := Option.some.inj hb
  exact h

theorem Meets.step (hi : p i) (h : ∀ a, o = some a → q a) : Meets p (step i o) q :=
  ⟨fun _ hj => List.mem_singleton.mp hj ▸ hi, h⟩

theorem Meets.attempt (h : ∀ a, o = some a → q a) : Meets p (attempt o) q :=
  ⟨fun _ hj => (List.not_mem_nil hj).elim, h⟩

theorem Meets.bind (h : Meets p m q) (hf : ∀ a, q a → Meets p (f a) r) : Meets p (m >>= f) r := by
  refine ⟨.run_bind h.1 fun a ha => (hf a (h.2 a ha)).1, fun b hb => ?_⟩
  rw [value_run_bind] at hb
  obtain ⟨a, ha, hb⟩ := Option.bind_eq_some_iff.mp hb
  exact (hf a (h.2 a ha)).2 b hb

/-- A loop keeps what every round keeps. -/
theorem Meets.foldlM {xs : List β} {g : α → β → OptionT (Traced ι) α} (h₀ : q a)
    (h : ∀ a, ∀ x ∈ xs, q a → Meets p (g a x) q) : Meets p (xs.foldlM g a) q := by
  induction xs generalizing a with
  | nil => exact .pure h₀
  | cons x xs ih =>
      rw [List.foldlM_cons]
      exact (h a x (by simp) h₀).bind fun b hb => ih hb fun a y hy => h a y (by simp [hy])

end Fallible

end Traced

end SRos
