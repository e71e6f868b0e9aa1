import SRos.Lib.Threads

/-!
# Programs that are cut off

`Machine.cut n p s` is the state in which a program is cut off after its first `n` actions.
A property holds throughout a program when it holds wherever the program is cut off.
-/

namespace SRos.Machine

variable {Act : Type} {Ans : Act → Type} {α β σ L : Type} (M : Machine Act Ans σ L)

/-- The state after `n` actions, or after all of them if there are fewer. -/
def cut : Nat → Prog Act Ans α → σ → σ
  | 0, _, s => s
  | _ + 1, .ret _, s => s
  | n + 1, .act a rest, s => cut n (rest (M.exec a s).1) (M.exec a s).2

def Throughout (good : σ → Prop) (p : Prog Act Ans α) (s : σ) : Prop := ∀ n, good (M.cut n p s)

variable {M} {good : σ → Prop} {s : σ}

@[simp] theorem cut_ret (n : Nat) (a : α) : M.cut n (.ret a : Prog Act Ans α) s = s := by
  cases n <;> rfl

theorem throughout_ret {a : α} (h : good s) : M.Throughout good (.ret a) s := by
  intro n
  rw [cut_ret]
  exact h

theorem throughout_act {a : Act} {rest : Ans a → Prog Act Ans α} (h : good s)
    (hrest : M.Throughout good (rest (M.exec a s).1) (M.exec a s).2) :
    M.Throughout good (.act a rest) s := by
  intro n
  cases n with
  | zero => exact h
  | succ n => exact hrest n

namespace Throughout

theorem start {p : Prog Act Ans α} (h : M.Throughout good p s) : good s := h 0

/-- A program that has made all its actions is at its end. -/
theorem finish {p : Prog Act Ans α} (h : M.Throughout good p s) : good (M.run p s).2 := by
  induction p generalizing s with
  | ret a => exact h.start
  | act a rest ih => exact ih _ fun n => h (n + 1)

/-- A sequence is cut off in its first part or in its second. -/
theorem bind {p : Prog Act Ans β} {f : β → Prog Act Ans α} (h : M.Throughout good p s)
    (hrest : M.Throughout good (f (M.run p s).1) (M.run p s).2) :
    M.Throughout good (p >>= f) s := by
  induction p generalizing s with
  | ret b => exact hrest
  | act a rest ih => exact throughout_act h.start (ih _ (fun n => h (n + 1)) hrest)

end Throughout

end SRos.Machine
