import SRos.Lib.Threads

/-!
# One program on two machines

`Prog.Asks` says which actions a program may take as long as the answers it gets are good ones.
A machine simulates another one when every admitted action is answered in the same way from
related states. A program then returns the same value on both machines, and threads that take
turns reach related states in every interleaving.
-/

namespace SRos

variable {Act : Type} {Ans : Act → Type} {α β σ τ L C : Type}

namespace Prog

variable {ok : Act → Prop} {good : (a : Act) → Ans a → Prop} {post : α → Prop}

/-- Every action is admitted if the answers before it were good, and the value at the end satisfies
`post`. -/
def Asks (ok : Act → Prop) (good : (a : Act) → Ans a → Prop) (post : α → Prop) :
    Prog Act Ans α → Prop
  | ret a => post a
  | act a rest => ok a ∧ ∀ x, good a x → (rest x).Asks ok good post

theorem Asks.bind {post' : β → Prop} {p : Prog Act Ans β} {f : β → Prog Act Ans α}
    (h : p.Asks ok good post') (hf : ∀ b, post' b → (f b).Asks ok good post) :
    (p >>= f).Asks ok good post := by
  induction p with
  | ret b => exact hf b h
  | act a rest ih => exact ⟨h.1, fun x hx => ih x (h.2 x hx)⟩

theorem asks_perform_bind {a : Act} {f : Ans a → Prog Act Ans α} (h : ok a)
    (hf : ∀ x, good a x → (f x).Asks ok good post) : (perform a >>= f).Asks ok good post :=
  ⟨h, hf⟩

end Prog

/-- Related states of two machines give the same answer to an admitted action, the answer is a
good one, and the states stay related. -/
structure Simulates (M : Machine Act Ans σ L) (N : Machine Act Ans τ L) (R : σ → τ → Prop)
    (ok : Act → Prop) (good : (a : Act) → Ans a → Prop) : Prop where
  answer : ∀ s t a, R s t → ok a → (N.exec a t).1 = (M.exec a s).1
  good : ∀ s t a, R s t → ok a → good a (M.exec a s).1
  keep : ∀ s t a, R s t → ok a → R (M.exec a s).2 (N.exec a t).2
  learn : N.learn = M.learn

namespace Simulates

variable {M : Machine Act Ans σ L} {N : Machine Act Ans τ L} {R : σ → τ → Prop}
  {ok : Act → Prop} {good : (a : Act) → Ans a → Prop} {post : α → Prop}

/-- The same threads on both machines, each with admitted actions in front of it. -/
structure Together (R : σ → τ → Prop) (ok : Act → Prop) (good : (a : Act) → Ans a → Prop)
    (s : Threads Act Ans σ L α) (t : Threads Act Ans τ L α) : Prop where
  shared : R s.shared t.shared
  thread : t.thread = s.thread
  asks : ∀ u p l, s.thread u = some (p, l) → p.Asks ok good fun _ => True

variable {body : σ → C → Prog Act Ans α} {body' : τ → C → Prog Act Ans α} {start : L}

/-- Every turn on the second machine is one on the first. -/
theorem turn (h : Simulates M N R ok good) (hbody : ∀ s t c, R s t → body' t c = body s c)
    (hasks : ∀ s t c, R s t → (body s c).Asks ok good fun _ => True)
    {s : Threads Act Ans σ L α} {t t' : Threads Act Ans τ L α} (hst : Together R ok good s t)
    {a : Turn C} (hturn : N.turn body' start t a = some t') :
    ∃ s', M.turn body start s a = some s' ∧ Together R ok good s' t' := by
  cases a with
  | call u c =>
      unfold Machine.turn at hturn ⊢
      rw [hst.thread] at hturn
      cases hu : s.thread u with
      | some _ => simp [hu] at hturn
      | none =>
          simp only [hu, Option.some.injEq] at hturn ⊢
          subst hturn
          refine ⟨_, rfl, hst.shared, ?_, ?_⟩
          · simp only [hbody _ _ c hst.shared]
          · intro v p l hv
            by_cases hvu : v = u
            · subst hvu
              simp only [Function.update_self, Option.some.injEq, Prod.mk.injEq] at hv
              exact hv.1 ▸ hasks _ _ c hst.shared
            · exact hst.asks v p l (by simpa [hvu] using hv)
  | resume u =>
      unfold Machine.turn at hturn ⊢
      rw [hst.thread] at hturn
      cases hu : s.thread u with
      | none => simp [hu] at hturn
      | some r =>
          obtain ⟨p, l⟩ := r
          have hp := hst.asks u p l hu
          cases p with
          | ret x =>
              simp only [hu, Option.some.injEq] at hturn ⊢
              subst hturn
              refine ⟨_, rfl, hst.shared, by simp, ?_⟩
              intro v q k hv
              by_cases hvu : v = u
              · simp [hvu] at hv
              · exact hst.asks v q k (by simpa [hvu] using hv)
          | act a rest =>
              simp only [hu, Option.some.injEq] at hturn ⊢
              subst hturn
              have hanswer := h.answer _ _ a hst.shared hp.1
              have hgood := h.good _ _ a hst.shared hp.1
              refine ⟨_, rfl, h.keep _ _ a hst.shared hp.1, ?_, ?_⟩
              · simp only [hanswer, h.learn]
              · intro v q k hv
                by_cases hvu : v = u
                · subst hvu
                  simp only [Function.update_self, Option.some.injEq, Prod.mk.injEq] at hv
                  exact hv.1 ▸ hp.2 _ hgood
                · exact hst.asks v q k (by simpa [hvu] using hv)

/-- Which turns can be taken depends on the threads only. -/
theorem turn_isSome {s : Threads Act Ans σ L α} {t : Threads Act Ans τ L α}
    (hthread : t.thread = s.thread) (a : Turn C) :
    (N.turn body' start t a).isSome = (M.turn body start s a).isSome := by
  cases a with
  | call u c =>
      simp only [Machine.turn, hthread]
      cases s.thread u with
      | none => rfl
      | some _ => rfl
  | resume u =>
      simp only [Machine.turn, hthread]
      cases s.thread u with
      | none => rfl
      | some r =>
          obtain ⟨p, l⟩ := r
          cases p with
          | ret _ => rfl
          | act _ _ => rfl

/-- Every turn on the first machine is one on the second. -/
theorem turn_back (h : Simulates M N R ok good) (hbody : ∀ s t c, R s t → body' t c = body s c)
    (hasks : ∀ s t c, R s t → (body s c).Asks ok good fun _ => True)
    {s s' : Threads Act Ans σ L α} {t : Threads Act Ans τ L α} (hst : Together R ok good s t)
    {a : Turn C} (hturn : M.turn body start s a = some s') :
    ∃ t', N.turn body' start t a = some t' ∧ Together R ok good s' t' := by
  have hsome : (N.turn body' start t a).isSome = true := by
    have hsame : (N.turn body' start t a).isSome = (M.turn body start s a).isSome :=
      turn_isSome hst.thread a
    rw [hsame, hturn]
    rfl
  obtain ⟨t', ht'⟩ := Option.isSome_iff_exists.mp hsome
  obtain ⟨s'', hs'', hst'⟩ := h.turn hbody hasks hst ht'
  obtain rfl := Option.some.inj (hturn.symm.trans hs'')
  exact ⟨t', ht', hst'⟩

/-- Whatever order the threads take their turns in, a state that is reached on the second machine
is together with one that is reached on the first. -/
theorem reach (h : Simulates M N R ok good) (hbody : ∀ s t c, R s t → body' t c = body s c)
    (hasks : ∀ s t c, R s t → (body s c).Asks ok good fun _ => True)
    {s₀ : Threads Act Ans σ L α} {t₀ t : Threads Act Ans τ L α} (h₀ : Together R ok good s₀ t₀)
    (hreach : Reach (N.turn body' start) (fun _ _ => True) t₀ t) :
    ∃ s, Reach (M.turn body start) (fun _ _ => True) s₀ s ∧ Together R ok good s t := by
  induction hreach with
  | refl => exact ⟨s₀, .refl, h₀⟩
  | step _ _ hturn ih =>
      obtain ⟨s, hs, hst⟩ := ih
      obtain ⟨s', hs', hst'⟩ := h.turn hbody hasks hst hturn
      exact ⟨s', .step hs trivial hs', hst'⟩

theorem reach_back (h : Simulates M N R ok good) (hbody : ∀ s t c, R s t → body' t c = body s c)
    (hasks : ∀ s t c, R s t → (body s c).Asks ok good fun _ => True)
    {s₀ s : Threads Act Ans σ L α} {t₀ : Threads Act Ans τ L α} (h₀ : Together R ok good s₀ t₀)
    (hreach : Reach (M.turn body start) (fun _ _ => True) s₀ s) :
    ∃ t, Reach (N.turn body' start) (fun _ _ => True) t₀ t ∧ Together R ok good s t := by
  induction hreach with
  | refl => exact ⟨t₀, .refl, h₀⟩
  | step _ _ hturn ih =>
      obtain ⟨t, ht, hst⟩ := ih
      obtain ⟨t', ht', hst'⟩ := h.turn_back hbody hasks hst hturn
      exact ⟨t', .step ht trivial ht', hst'⟩

end Simulates

end SRos
