import Mathlib.Data.List.Destutter
import Mathlib.Data.List.DropRight

/-!
# The recent entries of a log

A log that leaves out an entry equal to the last one, and keeps a number of entries only.
-/

namespace SRos.Recent

variable {α : Type} {n : Nat}

theorem rtake_rtake_succ (xs : List α) : (xs.rtake (n + 1)).rtake n = xs.rtake n := by
  rw [List.rtake_eq_reverse_take_reverse, List.rtake_eq_reverse_take_reverse, List.reverse_reverse,
    List.take_take, Nat.min_eq_left (Nat.le_succ n), List.rtake_eq_reverse_take_reverse]

theorem getLast?_rtake_succ (xs : List α) : (xs.rtake (n + 1)).getLast? = xs.getLast? := by
  rw [List.rtake_eq_reverse_take_reverse, List.getLast?_reverse, List.head?_take,
    List.head?_reverse]
  rfl

/-- An entry more than there is room for drops the oldest one. -/
theorem rtake_succ_concat {xs : List α} (x : α) (h : xs.length ≤ n + 1) :
    (xs ++ [x]).rtake (n + 1) = if xs.length ≥ n + 1 then xs.tail ++ [x] else xs ++ [x] := by
  rw [List.rtake_concat_succ, List.rtake]
  split
  · have hone : xs.length - n = 1 := by omega
    rw [hone, List.drop_one]
  · have hzero : xs.length - n = 0 := by omega
    rw [hzero, List.drop_zero]

variable [DecidableEq α]

/-- The last `n` entries of a log without repetitions. -/
def recent (n : Nat) (xs : List α) : List α := (xs.destutter (· ≠ ·)).rtake n

theorem length_recent_le (n : Nat) (xs : List α) : (recent n xs).length ≤ n := by
  rw [recent, List.rtake, List.length_drop]
  omega

theorem destutter'_concat (xs : List α) (a x : α) :
    (xs ++ [x]).destutter' (· ≠ ·) a =
      if (xs.destutter' (· ≠ ·) a).getLast? = some x then xs.destutter' (· ≠ ·) a
      else xs.destutter' (· ≠ ·) a ++ [x] := by
  induction xs generalizing a with
  | nil => by_cases ha : a = x <;> simp [ha]
  | cons b xs ih =>
      rw [List.cons_append]
      by_cases hab : a ≠ b
      · have hlast : (a :: xs.destutter' (· ≠ ·) b).getLast? =
            (xs.destutter' (· ≠ ·) b).getLast? :=
          List.getLast?_cons_of_ne_nil (List.destutter'_ne_nil xs _)
        rw [List.destutter'_cons_pos _ hab, List.destutter'_cons_pos _ hab, ih, hlast]
        split <;> rfl
      · rw [List.destutter'_cons_neg _ hab, List.destutter'_cons_neg _ hab, ih]

theorem destutter_concat (xs : List α) (x : α) :
    (xs ++ [x]).destutter (· ≠ ·) =
      if (xs.destutter (· ≠ ·)).getLast? = some x then xs.destutter (· ≠ ·)
      else xs.destutter (· ≠ ·) ++ [x] := by
  cases xs with
  | nil => simp
  | cons a xs => exact destutter'_concat xs a x

/-- A new entry. -/
theorem recent_concat (xs : List α) (x : α) :
    recent (n + 1) (xs ++ [x]) =
      if (recent (n + 1) xs).getLast? = some x then recent (n + 1) xs
      else (recent (n + 1) xs ++ [x]).rtake (n + 1) := by
  unfold recent
  rw [destutter_concat, getLast?_rtake_succ]
  split
  · rfl
  · rw [List.rtake_concat_succ, List.rtake_concat_succ, rtake_rtake_succ]

end SRos.Recent
