import Mathlib.Data.List.Basic
import SRos.Lib.Threads

/-!
# Searching loops

A loop over a list whose body finds something, goes on or leaves the loop. On a machine that answers
the body in the same way in every state of an invariant, the loop is a search through the list.
-/

namespace SRos

/-- How a round of a searching loop ends. -/
inductive Round (β : Type)
  | found (b : β)
  | next
  | leave

namespace Round

variable {ι β : Type}

/-- What is found in a list, if the rounds end as `f` says. -/
def search (f : ι → Round β) : List ι → Option β
  | [] => none
  | i :: is =>
      match f i with
      | found b => some b
      | next => search f is
      | leave => none

def ofOption : Option β → Round β
  | some b => found b
  | none => next

theorem search_cons (f : ι → Round β) (i : ι) (is : List ι) : search f (i :: is) =
    match f i with
    | found b => some b
    | next => search f is
    | leave => none := rfl

/-- A loop that is never left is a search for the first hit. -/
theorem search_ofOption (f : ι → Option β) (is : List ι) :
    search (fun i => ofOption (f i)) is = is.findSome? f := by
  induction is with
  | nil => rfl
  | cons i is ih =>
      rw [search_cons, List.findSome?_cons]
      cases f i with
      | none => exact ih
      | some b => rfl

end Round

namespace Prog

variable {Act : Type} {Ans : Act → Type} {ι β σ L : Type}

/-- The loop. -/
def search (body : ι → Prog Act Ans (Round β)) : List ι → Prog Act Ans (Option β)
  | [] => return none
  | i :: is => do
      match ← body i with
      | .found b => return some b
      | .next => search body is
      | .leave => return none

/-- A body that is answered in the same way in all states of an invariant, which it keeps. -/
theorem run_search (M : Machine Act Ans σ L) {I : σ → Prop} {body : ι → Prog Act Ans (Round β)}
    {f : ι → Round β} {is : List ι}
    (hbody : ∀ i ∈ is, ∀ s, I s → ∃ s', M.run (body i) s = (f i, s') ∧ I s') {s : σ} (h : I s) :
    ∃ s', M.run (search body is) s = (Round.search f is, s') ∧ I s' := by
  induction is generalizing s with
  | nil => exact ⟨s, rfl, h⟩
  | cons i is ih =>
      obtain ⟨s₁, hrun, hI⟩ := hbody i List.mem_cons_self s h
      unfold search
      rw [Machine.run_bind, hrun, Round.search_cons]
      cases f i with
      | found b => exact ⟨s₁, rfl, hI⟩
      | next => exact ih (fun j hj => hbody j (List.mem_cons_of_mem i hj)) hI
      | leave => exact ⟨s₁, rfl, hI⟩

end Prog

end SRos
