/-!
# Runs of a step function

`Reach step ok s₀ s` says that `s` is reached from `s₀` by finitely many steps, each of which
is one that `ok` admits in the state it is taken in. `Along step P s as` says that the steps of a
list, taken one after the other from `s` on by a total step function, all have the property `P`.
-/

namespace SRos

variable {σ α : Type}

inductive Reach (step : σ → α → Option σ) (ok : σ → α → Prop) (s₀ : σ) : σ → Prop
  | refl : Reach step ok s₀ s₀
  | step {s s' : σ} {a : α} (h : Reach step ok s₀ s) (hok : ok s a) (hs : step s a = some s') :
      Reach step ok s₀ s'

variable {step : σ → α → Option σ} {ok ok' : σ → α → Prop} {s₀ s : σ}

/-- A property that holds at the start and is kept by every admitted step holds in every
state reached. -/
theorem Reach.invariant {P : σ → Prop} (h : Reach step ok s₀ s) (h₀ : P s₀)
    (hstep : ∀ s a s', P s → ok s a → step s a = some s' → P s') : P s := by
  induction h with
  | refl => exact h₀
  | step _ hok hs ih => exact hstep _ _ _ ih hok hs

theorem Reach.trans {s₁ : σ} (h : Reach step ok s₀ s₁) (h' : Reach step ok s₁ s) :
    Reach step ok s₀ s := by
  induction h' with
  | refl => exact h
  | step _ hok hs ih => exact .step ih hok hs

theorem Reach.mono (h : Reach step ok s₀ s) (himp : ∀ s a, ok s a → ok' s a) :
    Reach step ok' s₀ s := by
  induction h with
  | refl => exact .refl
  | step _ hok hs ih => exact .step ih (himp _ _ hok) hs

/-- The end of the run that takes the steps of a list, each of which `ok` has to admit. -/
def runList (step : σ → α → Option σ) (ok : σ → α → Bool) : List α → σ → Option σ
  | [], s => some s
  | a :: as, s => if ok s a then (step s a).bind (runList step ok as) else none

theorem Reach.of_runList {ok : σ → α → Bool} {as : List α} {s₁ : σ}
    (h : Reach step (fun s a => ok s a = true) s₀ s₁) (hrun : runList step ok as s₁ = some s) :
    Reach step (fun s a => ok s a = true) s₀ s := by
  induction as generalizing s₁ with
  | nil =>
      cases hrun
      exact h
  | cons a as ih =>
      unfold runList at hrun
      split at hrun
      · next hok =>
          obtain ⟨s₂, hs, hrest⟩ := Option.bind_eq_some_iff.mp hrun
          exact ih (.step h hok hs) hrest
      · cases hrun

/-- A run that can be computed, together with a test of the state it ends in. -/
theorem Reach.exists_of_runList {start : Option σ} {ok : σ → α → Bool} {as : List α}
    {p : σ → Bool} (h : (start.bind (runList step ok as)).any p = true) :
    ∃ s₀ s, start = some s₀ ∧ Reach step (fun s a => ok s a = true) s₀ s ∧ p s = true := by
  cases hstart : start with
  | none => simp [hstart] at h
  | some s₀ =>
      cases hrun : runList step ok as s₀ with
      | none => simp [hstart, hrun] at h
      | some s => exact ⟨s₀, s, rfl, Reach.of_runList .refl hrun, by simpa [hstart, hrun] using h⟩

/-! ## Total step functions -/

section Along

variable {next : σ → α → σ} {P Q : σ → α → Prop} {I : σ → Prop} {t : σ} {a : α} {as : List α}

def Along (next : σ → α → σ) (P : σ → α → Prop) (s : σ) (as : List α) : Prop :=
  ∀ pre a post, as = pre ++ a :: post → P (pre.foldl next s) a

theorem along_nil : Along next P t [] := fun _ _ _ h => absurd h (by simp)

theorem along_cons : Along next P t (a :: as) ↔ P t a ∧ Along next P (next t a) as := by
  constructor
  · intro h
    refine ⟨h [] a as rfl, fun pre b post heq => ?_⟩
    exact h (a :: pre) b post (congrArg (a :: ·) heq)
  · intro ⟨ha, has⟩ pre b post heq
    cases pre with
    | nil =>
        obtain ⟨rfl, -⟩ := List.cons.inj heq
        exact ha
    | cons c pre =>
        obtain ⟨rfl, hrest⟩ := List.cons.inj heq
        exact has pre b post hrest

/-- Steps that have a property as long as an invariant holds, which they keep. -/
theorem Along.mono (h : Along next P t as) (h₀ : I t)
    (hstep : ∀ s a, I s → P s a → Q s a ∧ I (next s a)) : Along next Q t as := by
  induction as generalizing t with
  | nil => exact along_nil
  | cons a as ih =>
      obtain ⟨ha, has⟩ := along_cons.mp h
      obtain ⟨hq, hkeep⟩ := hstep t a h₀ ha
      exact along_cons.mpr ⟨hq, ih has hkeep⟩

/-- Two properties of steps that are the same as long as an invariant holds, which the steps with
the property keep. -/
theorem along_iff (h₀ : I t) (hiff : ∀ s a, I s → (P s a ↔ Q s a))
    (hkeep : ∀ s a, I s → P s a → I (next s a)) : Along next P t as ↔ Along next Q t as :=
  ⟨fun h => h.mono h₀ fun s a hI hP => ⟨(hiff s a hI).mp hP, hkeep s a hI hP⟩,
    fun h => h.mono h₀ fun s a hI hQ =>
      have hP := (hiff s a hI).mpr hQ
      ⟨hP, hkeep s a hI hP⟩⟩

/-- The same steps from two states that a relation, which every step keeps, puts together. -/
theorem Along.of_related {R : σ → σ → Prop} {u : σ} (h : Along next P t as) (h₀ : R t u)
    (hkeep : ∀ s s' a, R s s' → R (next s a) (next s' a))
    (himp : ∀ s s' a, R s s' → P s a → Q s' a) : Along next Q u as := by
  induction as generalizing t u with
  | nil => exact along_nil
  | cons a as ih =>
      obtain ⟨ha, has⟩ := along_cons.mp h
      exact along_cons.mpr ⟨himp t u a h₀ ha, ih has (hkeep t u a h₀)⟩

end Along

end SRos
