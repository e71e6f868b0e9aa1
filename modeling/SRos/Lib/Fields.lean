import Mathlib.Data.List.TakeWhile

/-!
# The words of a list

The maximal nonempty runs of elements that are no separators. A separator in front is skipped, and
a run in front of a separator is a word.
-/

namespace SRos.Fields

variable {α : Type} {p : α → Bool} {a : α} {xs ys : List α}

def words (p : α → Bool) (xs : List α) : List (List α) := (xs.splitOnP p).filter fun w => !w.isEmpty

@[simp] theorem words_nil : words p [] = [] := by simp [words]

theorem words_append_cons (xs ys : List α) (ha : p a = true) :
    words p (xs ++ a :: ys) = words p xs ++ words p ys := by
  rw [words, List.splitOnP_append_cons xs ys ha, List.filter_append]
  rfl

theorem words_cons (ys : List α) (ha : p a = true) : words p (a :: ys) = words p ys := by
  have happend := words_append_cons [] ys ha
  rwa [words_nil, List.nil_append, List.nil_append] at happend

theorem words_of_forall (hne : xs ≠ []) (h : ∀ x ∈ xs, p x = false) : words p xs = [xs] := by
  rw [words, List.splitOnP_eq_singleton h]
  simp [hne]

theorem words_dropWhile (xs : List α) : words p (xs.dropWhile p) = words p xs := by
  induction xs with
  | nil => rfl
  | cons a xs ih =>
      rw [List.dropWhile_cons]
      split
      · next ha => rw [ih, words_cons xs ha]
      · rfl

theorem sublist_of_mem_splitOnP {w : List α} (h : w ∈ xs.splitOnP p) : w.Sublist xs := by
  induction xs generalizing w with
  | nil =>
      rw [List.splitOnP_nil, List.mem_singleton] at h
      exact h ▸ List.Sublist.refl _
  | cons a xs ih =>
      rw [List.splitOnP_cons_eq_if_modifyHead] at h
      split at h
      · rcases List.mem_cons.mp h with rfl | h
        · exact List.nil_sublist _
        · exact (ih h).cons a
      · obtain ⟨head, tail, hpieces⟩ := List.exists_cons_of_ne_nil (List.splitOnP_ne_nil p xs)
        rw [hpieces, List.modifyHead_cons] at h
        rw [hpieces] at ih
        rcases List.mem_cons.mp h with rfl | h
        · exact (ih List.mem_cons_self).cons_cons a
        · exact (ih (List.mem_cons_of_mem head h)).cons a

theorem sublist_of_mem_words {w : List α} (h : w ∈ words p xs) : w.Sublist xs :=
  sublist_of_mem_splitOnP (List.mem_filter.mp h).1

end SRos.Fields
