import Mathlib.Algebra.BigOperators.Group.List.Basic
import Mathlib.Algebra.GroupWithZero.Nat

/-!
# Pieces laid out one after another

A list of pieces is laid out from a start address, each piece directly behind the one in front
of it. What is said about the pieces at their addresses can be cut at any piece, and a run of
pieces can be replaced by another one of the same total length.
-/

namespace SRos.Tiling

variable {β : Type} {len : β → Nat} {a c : Nat} {b : β} {xs ys zs : List β}

def total (len : β → Nat) (xs : List β) : Nat := (xs.map len).sum

@[simp] theorem total_nil : total len [] = 0 := rfl

@[simp] theorem total_cons : total len (b :: xs) = len b + total len xs := by
  simp [total]

@[simp] theorem total_append : total len (xs ++ ys) = total len xs + total len ys := by
  simp [total]

/-- Pieces of a least length. -/
theorem mul_length_le_total {k : Nat} (h : ∀ b ∈ xs, k ≤ len b) : k * xs.length ≤ total len xs := by
  induction xs with
  | nil => simp
  | cons b xs ih =>
      have hhead := h b List.mem_cons_self
      have htail := ih fun c hc => h c (List.mem_cons_of_mem b hc)
      rw [List.length_cons, total_cons, Nat.mul_succ]
      omega

theorem dvd_total {k : Nat} (h : ∀ b ∈ xs, k ∣ len b) : k ∣ total len xs := by
  induction xs with
  | nil => exact Nat.dvd_zero k
  | cons b xs ih =>
      rw [total_cons]
      exact Nat.dvd_add (h b List.mem_cons_self) (ih fun c hc => h c (List.mem_cons_of_mem b hc))

/-- The pieces with the addresses they are at. -/
def placed (len : β → Nat) : Nat → List β → List (Nat × β)
  | _, [] => []
  | a, b :: bs => (a, b) :: placed len (a + len b) bs

@[simp] theorem placed_nil : placed len a [] = [] := rfl

@[simp] theorem placed_cons :
    placed len a (b :: xs) = (a, b) :: placed len (a + len b) xs := rfl

@[simp] theorem placed_append :
    placed len a (xs ++ ys) = placed len a xs ++ placed len (a + total len xs) ys := by
  induction xs generalizing a with
  | nil => simp
  | cons x xs ih => simp [ih, Nat.add_assoc]

/-- A piece lies at an address when the pieces in front of it fill the room up to there. -/
theorem mem_placed_iff :
    (c, b) ∈ placed len a xs ↔ ∃ pre post, xs = pre ++ b :: post ∧ c = a + total len pre := by
  constructor
  · intro h
    induction xs generalizing a with
    | nil => simp at h
    | cons x xs ih =>
        rcases List.mem_cons.mp h with h | h
        · obtain ⟨rfl, rfl⟩ := Prod.mk.inj h
          exact ⟨[], xs, rfl, rfl⟩
        · obtain ⟨pre, post, rfl, rfl⟩ := ih h
          exact ⟨x :: pre, post, rfl, by simp [Nat.add_assoc]⟩
  · rintro ⟨pre, post, rfl, rfl⟩
    simp

theorem placed_range (h : (c, b) ∈ placed len a xs) :
    a ≤ c ∧ c + len b ≤ a + total len xs := by
  obtain ⟨pre, post, rfl, rfl⟩ := mem_placed_iff.mp h
  simp only [total_append, total_cons]
  omega

/-- The pieces cover the room from the first address to the last. -/
theorem exists_placed {x : Nat} (hlow : a ≤ x) (hhigh : x < a + total len xs) :
    ∃ c b, (c, b) ∈ placed len a xs ∧ c ≤ x ∧ x < c + len b := by
  induction xs generalizing a with
  | nil =>
      rw [total_nil] at hhigh
      omega
  | cons y xs ih =>
      by_cases hy : x < a + len y
      · exact ⟨a, y, List.mem_cons_self, hlow, hy⟩
      · rw [total_cons] at hhigh
        obtain ⟨c, b, hmem, hc⟩ := ih (show a + len y ≤ x by omega) (by omega)
        exact ⟨c, b, List.mem_cons_of_mem _ hmem, hc⟩

/-- No address is in two pieces. -/
theorem placed_unique {c' x : Nat} {b' : β} (h : (c, b) ∈ placed len a xs)
    (h' : (c', b') ∈ placed len a xs) (hx : c ≤ x ∧ x < c + len b) (hx' : c' ≤ x ∧ x < c' + len b') :
    c = c' ∧ b = b' := by
  induction xs generalizing a with
  | nil => simp at h
  | cons y xs ih =>
      rcases List.mem_cons.mp h with heq | hrest
      · obtain ⟨rfl, rfl⟩ := Prod.mk.inj heq
        rcases List.mem_cons.mp h' with heq' | hrest'
        · obtain ⟨rfl, rfl⟩ := Prod.mk.inj heq'
          exact ⟨rfl, rfl⟩
        · have hrange := placed_range hrest'
          omega
      · rcases List.mem_cons.mp h' with heq' | hrest'
        · obtain ⟨rfl, rfl⟩ := Prod.mk.inj heq'
          have hrange := placed_range hrest
          omega
        · exact ih hrest hrest'

/-- Replacing a run of pieces by one of the same total length moves no other piece. -/
theorem forall_placed_replace {P Q : Nat → β → Prop} {ys' : List β}
    (h : ∀ x ∈ placed len a (xs ++ ys ++ zs), P x.1 x.2)
    (htotal : total len ys' = total len ys)
    (hframe : ∀ c b, c + len b ≤ a + total len xs ∨ a + total len (xs ++ ys) ≤ c →
      P c b → Q c b)
    (hnew : ∀ x ∈ placed len (a + total len xs) ys', Q x.1 x.2) :
    ∀ x ∈ placed len a (xs ++ ys' ++ zs), Q x.1 x.2 := by
  intro x hx
  simp only [placed_append, List.mem_append, total_append, htotal] at hx h hframe
  rcases hx with (hx | hx) | hx
  · exact hframe _ _ (.inl (placed_range hx).2) (h x (.inl (.inl hx)))
  · exact hnew x hx
  · exact hframe _ _ (.inr (placed_range hx).1) (h x (.inr hx))

end SRos.Tiling
