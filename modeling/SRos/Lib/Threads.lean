import Mathlib.Logic.Function.Basic
import SRos.Lib.Run

/-!
# Threads that take turns at a shared state

A program is a tree of atomic actions, and a thread may be switched out between any two of
them. `Protocol.Safe` says that a thread keeps the invariant of the shared state whatever the
other threads do in between, as long as they change the ghost state only as it relies on.
Threads that are all safe keep the invariant in every interleaving.
-/

namespace SRos

/-- A program over atomic actions. An action `a` answers with a value of type `Ans a`. -/
inductive Prog (Act : Type) (Ans : Act → Type) (α : Type) : Type
  | ret (a : α)
  | act (a : Act) (rest : Ans a → Prog Act Ans α)

variable {Act : Type} {Ans : Act → Type} {α β σ L : Type}

namespace Prog

def bind : Prog Act Ans α → (α → Prog Act Ans β) → Prog Act Ans β
  | ret a, f => f a
  | act a rest, f => act a fun x => (rest x).bind f

instance : Monad (Prog Act Ans) where
  pure := ret
  bind := bind

@[simp] theorem pure_eq (a : α) : (pure a : Prog Act Ans α) = ret a := rfl

@[simp] theorem ret_bind (a : α) (f : α → Prog Act Ans β) : (ret a >>= f) = f a := rfl

@[simp] theorem act_bind (a : Act) (rest : Ans a → Prog Act Ans α) (f : α → Prog Act Ans β) :
    (act a rest >>= f) = act a fun x => rest x >>= f := rfl

/-- The program of one action. -/
def perform (a : Act) : Prog Act Ans (Ans a) := act a ret

@[simp] theorem perform_bind (a : Act) (f : Ans a → Prog Act Ans β) :
    (perform a >>= f) = act a f := rfl

end Prog

/-- What an action does to the shared state, and what a thread remembers of its answer. -/
structure Machine (Act : Type) (Ans : Act → Type) (σ L : Type) where
  exec : (a : Act) → σ → Ans a × σ
  learn : (a : Act) → Ans a → L → L

namespace Machine

variable (M : Machine Act Ans σ L)

/-- A program that runs to its end without being switched out. -/
def run : Prog Act Ans α → σ → α × σ
  | .ret a, s => (a, s)
  | .act a rest, s => run (rest (M.exec a s).1) (M.exec a s).2

@[simp] theorem run_ret (a : α) (s : σ) : M.run (.ret a : Prog Act Ans α) s = (a, s) := rfl

@[simp] theorem run_act (a : Act) (rest : Ans a → Prog Act Ans α) (s : σ) :
    M.run (.act a rest) s = M.run (rest (M.exec a s).1) (M.exec a s).2 := rfl

theorem run_bind (p : Prog Act Ans α) (f : α → Prog Act Ans β) (s : σ) :
    M.run (p >>= f) s = M.run (f (M.run p s).1) (M.run p s).2 := by
  induction p generalizing s with
  | ret a => rfl
  | act a rest ih => exact ih (M.exec a s).1 (M.exec a s).2

end Machine

/-- The shared state and the threads in a call, each with the rest of its program. -/
structure Threads (Act : Type) (Ans : Act → Type) (σ L α : Type) where
  shared : σ
  thread : Nat → Option (Prog Act Ans α × L)

inductive Turn (C : Type)
  | call (t : Nat) (c : C)
  | resume (t : Nat)

variable {C : Type}

/-- A thread outside a call starts one, or a thread in a call takes its next action. -/
def Machine.turn (M : Machine Act Ans σ L) (body : σ → C → Prog Act Ans α) (start : L)
    (s : Threads Act Ans σ L α) : Turn C → Option (Threads Act Ans σ L α)
  | .call t c =>
      match s.thread t with
      | none => some { s with
          thread := Function.update s.thread t (some (body s.shared c, start)) }
      | some _ => none
  | .resume t =>
      match s.thread t with
      | none => none
      | some (.ret _, _) => some { s with thread := Function.update s.thread t none }
      | some (.act a rest, l) =>
          let r := M.exec a s.shared
          some ⟨r.2, Function.update s.thread t (some (rest r.1, M.learn a r.1 l))⟩

/-- An invariant of the shared state and a ghost state, and what each thread relies on the
others for. Every thread changes the ghost state along `later` only. -/
structure Protocol (M : Machine Act Ans σ L) (G : Type) where
  inv : G → σ → Prop
  rely : Nat → G → G → Prop
  later : G → G → Prop
  admits : σ → L → Act → Prop
  rely_refl : ∀ t g, rely t g g
  rely_trans : ∀ t g g' g'', rely t g g' → rely t g' g'' → rely t g g''
  later_of_rely : ∀ t g g', rely t g g' → later g g'
  later_trans : ∀ g g' g'', later g g' → later g' g'' → later g g''

namespace Protocol

variable {M : Machine Act Ans σ L} {G : Type} (P : Protocol M G) {t : Nat}

/-- Every admitted action of the program, taken by thread `t`, keeps the invariant and what the
other threads rely on, and the value it ends with satisfies `post`. -/
def Safe (t : Nat) (post : G → L → α → Prop) : Prog Act Ans α → G → L → Prop
  | .ret a, g, l => ∀ g', P.rely t g g' → post g' l a
  | .act a rest, g, l => ∀ g', P.rely t g g' → ∀ s, P.inv g' s → P.admits s l a →
      ∃ g'', P.inv g'' (M.exec a s).2 ∧ P.later g' g'' ∧ (∀ t', t' ≠ t → P.rely t' g' g'') ∧
        Safe t post (rest (M.exec a s).1) g'' (M.learn a (M.exec a s).1 l)

variable {P} {post post' : G → L → α → Prop} {g g' : G} {l : L}

/-- What the other threads do in between does not make a program unsafe. -/
theorem Safe.rely {p : Prog Act Ans α} (h : P.Safe t post p g l) (hrely : P.rely t g g') :
    P.Safe t post p g' l := by
  cases p with
  | ret a => exact fun g'' hg => h g'' (P.rely_trans t g g' g'' hrely hg)
  | act a rest => exact fun g'' hg => h g'' (P.rely_trans t g g' g'' hrely hg)

theorem Safe.mono {p : Prog Act Ans α} (h : P.Safe t post p g l)
    (himp : ∀ g l a, post g l a → post' g l a) : P.Safe t post' p g l := by
  induction p generalizing g l with
  | ret a => exact fun g' hg => himp g' l a (h g' hg)
  | act a rest ih =>
      intro g' hg s hinv hadmits
      obtain ⟨g'', hinv', hlater, hothers, hrest⟩ := h g' hg s hinv hadmits
      exact ⟨g'', hinv', hlater, hothers, ih _ hrest⟩

/-- The ghost state at the end is later than the one at the start. -/
theorem Safe.later {p : Prog Act Ans α} (h : P.Safe t post p g l) :
    P.Safe t (fun g' l' a => post g' l' a ∧ P.later g g') p g l := by
  induction p generalizing g l with
  | ret a => exact fun g' hg => ⟨h g' hg, P.later_of_rely t g g' hg⟩
  | act a rest ih =>
      intro g' hg s hinv hadmits
      obtain ⟨g'', hinv', hlater, hothers, hrest⟩ := h g' hg s hinv hadmits
      refine ⟨g'', hinv', hlater, hothers, (ih _ hrest).mono ?_⟩
      rintro g₃ l₃ a₃ ⟨hpost, hlater₃⟩
      have hfirst := P.later_of_rely t g g' hg
      exact ⟨hpost, P.later_trans g g'' g₃ (P.later_trans g g' g'' hfirst hlater) hlater₃⟩

theorem Safe.bind {p : Prog Act Ans β} {f : β → Prog Act Ans α}
    (h : P.Safe t (fun g' l' b => P.later g g' → P.Safe t post (f b) g' l') p g l) :
    P.Safe t post (p >>= f) g l := by
  have hlater := h.later
  have hall : P.Safe t (fun g' l' b => P.Safe t post (f b) g' l') p g l :=
    hlater.mono fun g' l' b hb => hb.1 hb.2
  clear h hlater
  induction p generalizing g l with
  | ret b => exact hall g (P.rely_refl t g)
  | act a rest ih =>
      intro g' hg s hinv hadmits
      obtain ⟨g'', hinv', hlater, hothers, hrest⟩ := hall g' hg s hinv hadmits
      exact ⟨g'', hinv', hlater, hothers, ih _ hrest⟩

theorem Safe.ret {a : α} (h : ∀ g', P.later g g' → post g' l a) :
    P.Safe t post (.ret a) g l :=
  fun g' hg => h g' (P.later_of_rely t g g' hg)

/-- The invariant holds and every thread in a call is safe. -/
def Guarded (P : Protocol M G) (s : Threads Act Ans σ L α) : Prop :=
  ∃ g, P.inv g s.shared ∧
    ∀ t p l, s.thread t = some (p, l) → P.Safe t (fun _ _ _ => True) p g l

variable {body : σ → C → Prog Act Ans α} {start : L}

/-- The turns that a run may take: calls that satisfy `okCall` and admitted actions. -/
def okTurn (P : Protocol M G) (okCall : σ → C → Prop) (s : Threads Act Ans σ L α) :
    Turn C → Prop
  | .call _ c => okCall s.shared c
  | .resume t => ∀ a rest l, s.thread t = some (.act a rest, l) → P.admits s.shared l a

theorem Guarded.turn {s s' : Threads Act Ans σ L α} {okCall : σ → C → Prop} {turn : Turn C}
    (h : P.Guarded s)
    (hbody : ∀ t g s c, P.inv g s → okCall s c →
      P.Safe t (fun _ _ _ => True) (body s c) g start)
    (hok : P.okTurn okCall s turn) (hturn : M.turn body start s turn = some s') :
    P.Guarded s' := by
  obtain ⟨g, hinv, hsafe⟩ := h
  unfold Machine.turn at hturn
  cases turn with
  | call t c =>
      cases hthread : s.thread t with
      | some _ => simp [hthread] at hturn
      | none =>
          simp only [hthread, Option.some.injEq] at hturn
          subst hturn
          refine ⟨g, hinv, ?_⟩
          intro u p l hu
          by_cases hut : u = t
          · subst hut
            simp only [Function.update_self, Option.some.injEq, Prod.mk.injEq] at hu
            obtain ⟨rfl, rfl⟩ := hu
            exact hbody u g s.shared c hinv hok
          · exact hsafe u p l (by simpa [hut] using hu)
  | resume t =>
      cases hthread : s.thread t with
      | none => simp [hthread] at hturn
      | some r =>
          obtain ⟨p, l⟩ := r
          cases p with
          | ret a =>
              simp only [hthread, Option.some.injEq] at hturn
              subst hturn
              refine ⟨g, hinv, ?_⟩
              intro u p l hu
              by_cases hut : u = t
              · simp [hut] at hu
              · exact hsafe u p l (by simpa [hut] using hu)
          | act a rest =>
              simp only [hthread, Option.some.injEq] at hturn
              subst hturn
              obtain ⟨g', hinv', -, hothers, hrest⟩ := hsafe t _ l hthread g (P.rely_refl t g)
                s.shared hinv (hok a rest l hthread)
              refine ⟨g', hinv', ?_⟩
              intro u p l hu
              by_cases hut : u = t
              · subst hut
                simp only [Function.update_self, Option.some.injEq, Prod.mk.injEq] at hu
                obtain ⟨rfl, rfl⟩ := hu
                exact hrest
              · -- the other threads rely on exactly what this action keeps
                have hother := hsafe u p l (by simpa [hut] using hu)
                exact hother.rely (hothers u hut)

/-- Safe threads keep the invariant in every interleaving. -/
theorem Guarded.reach {s₀ s : Threads Act Ans σ L α} {okCall : σ → C → Prop}
    (hreach : Reach (M.turn body start) (P.okTurn okCall) s₀ s) (h : P.Guarded s₀)
    (hbody : ∀ t g s c, P.inv g s → okCall s c →
      P.Safe t (fun _ _ _ => True) (body s c) g start) :
    P.Guarded s :=
  hreach.invariant h fun _ _ _ hs hok hturn => hs.turn hbody hok hturn

end Protocol

end SRos
