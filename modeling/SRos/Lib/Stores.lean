import Mathlib.Logic.Function.Basic

/-!
# Lists of stores

A loop that only writes is the list of its stores in program order. A cell that is stored to
ends with a value that does not depend on what was there before, and every other cell is kept.
-/

namespace SRos.Stores

variable {ι α : Type} [DecidableEq ι] {ss ts : List (ι × α)} {m m' : ι → α} {i : ι}

def perform (ss : List (ι × α)) (m : ι → α) : ι → α :=
  ss.foldl (fun m s => Function.update m s.1 s.2) m

@[simp] theorem perform_nil : perform [] m = m := rfl

@[simp] theorem perform_cons {s : ι × α} :
    perform (s :: ss) m = perform ss (Function.update m s.1 s.2) := rfl

theorem perform_append : perform (ss ++ ts) m = perform ts (perform ss m) := by
  simp [perform, List.foldl_append]

/-- A cell that no store names keeps its value. -/
theorem perform_of_notMem (h : i ∉ ss.map Prod.fst) : perform ss m i = m i := by
  induction ss generalizing m with
  | nil => rfl
  | cons s ss ih =>
      simp only [List.map_cons, List.mem_cons, not_or] at h
      rw [perform_cons, ih h.2, Function.update_of_ne h.1]

/-- A cell that a store names ends with the same value whatever the memory was before. -/
theorem perform_of_mem (h : i ∈ ss.map Prod.fst) : perform ss m i = perform ss m' i := by
  induction ss generalizing m m' with
  | nil => simp at h
  | cons s ss ih =>
      rw [perform_cons, perform_cons]
      by_cases hi : i ∈ ss.map Prod.fst
      · exact ih hi
      · have hs : i = s.1 := by simpa [hi] using h
        rw [perform_of_notMem hi, perform_of_notMem hi, hs]
        simp

/-- A cell whose stores all have one value ends with it. -/
theorem perform_of_forall {v : α} (h : (i, v) ∈ ss) (hv : ∀ w, (i, w) ∈ ss → w = v) :
    perform ss m i = v := by
  induction ss generalizing m with
  | nil => simp at h
  | cons s ss ih =>
      rw [perform_cons]
      by_cases hi : i ∈ ss.map Prod.fst
      · obtain ⟨⟨j, w⟩, hmem, rfl⟩ := List.mem_map.mp hi
        obtain rfl := hv w (List.mem_cons_of_mem s hmem)
        exact ih hmem fun w' hw' => hv w' (List.mem_cons_of_mem s hw')
      · have hs : s = (i, v) := by
          rcases List.mem_cons.mp h with heq | hmem
          · exact heq.symm
          · exact absurd (List.mem_map_of_mem hmem) hi
        rw [perform_of_notMem hi, hs, Function.update_self]

/-- Storing the entries of a list one behind the other. -/
theorem map_perform_mapIdx (l : List α) (m : Nat → α) :
    (List.range l.length).map (perform (l.mapIdx fun i a => (i, a)) m) = l := by
  refine List.ext_getElem (by simp) fun i _ hi => ?_
  rw [List.getElem_map, List.getElem_range]
  refine perform_of_forall (List.mem_mapIdx.mpr ⟨i, hi, rfl⟩) fun w hw => ?_
  obtain ⟨j, hj, heq⟩ := List.mem_mapIdx.mp hw
  obtain ⟨rfl, rfl⟩ := Prod.mk.inj heq
  rfl

end SRos.Stores
