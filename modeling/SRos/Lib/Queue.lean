import Mathlib.Data.List.Nodup
import Mathlib.Logic.Function.Basic

/-!
# Intrusive first-in first-out queues

Nodes of an arbitrary type carry one `next` pointer, and any number of queues, each with
its own head and tail pointer, are threaded through that one field. `Family` says that the
pointers represent pairwise disjoint duplicate-free lists. Appending a node that is in no
queue and removing the first node of a queue keep the family.
-/

namespace SRos.Queue

variable {ι κ : Type} {next : ι → Option ι}

/-- `xs` is the chain of `next` pointers from `head` to a null pointer. -/
def Chain (next : ι → Option ι) : Option ι → List ι → Prop
  | head, [] => head = none
  | head, x :: xs => head = some x ∧ Chain next (next x) xs

theorem Chain.unique {head : Option ι} {xs ys : List ι}
    (hx : Chain next head xs) (hy : Chain next head ys) : xs = ys := by
  induction xs generalizing head ys with
  | nil =>
      cases ys with
      | nil => rfl
      | cons y ys => simp only [Chain] at hx hy; simp [hx] at hy
  | cons x xs ih =>
      cases ys with
      | nil => simp only [Chain] at hx hy; simp [hy] at hx
      | cons y ys =>
          obtain ⟨hhead, htail⟩ := hx
          obtain ⟨hhead', htail'⟩ := hy
          have hxy : x = y := by simpa [hhead] using hhead'
          subst hxy
          rw [ih htail htail']

theorem Chain.congr {next' : ι → Option ι} {head : Option ι} {xs : List ι}
    (h : Chain next head xs) (heq : ∀ x ∈ xs, next' x = next x) : Chain next' head xs := by
  induction xs generalizing head with
  | nil => exact h
  | cons x xs ih =>
      refine ⟨h.1, ?_⟩
      rw [heq x (by simp)]
      exact ih h.2 fun y hy => heq y (by simp [hy])

theorem Chain.head_eq {head : Option ι} {xs : List ι} (h : Chain next head xs) :
    head = xs.head? := by
  cases xs with
  | nil => exact h
  | cons x xs => exact h.1

variable [DecidableEq ι] [DecidableEq κ]

/-- The `next` field after `x` has been appended behind `tail`. -/
def pushNext (next : ι → Option ι) (tail : Option ι) (x : ι) : ι → Option ι :=
  match tail with
  | some l => Function.update (Function.update next x none) l (some x)
  | none => Function.update next x none

/-- The head pointer after `x` has been appended behind `tail`. -/
def pushHead (head tail : Option ι) (x : ι) : Option ι :=
  match tail with
  | some _ => head
  | none => some x

private theorem chain_snoc {head : Option ι} {xs : List ι} {l x : ι}
    (h : Chain next head xs) (hnd : xs.Nodup) (hl : xs.getLast? = some l) (hx : x ∉ xs) :
    Chain (pushNext next (some l) x) head (xs ++ [x]) := by
  induction xs generalizing head with
  | nil => simp at hl
  | cons a xs ih =>
      have hxa : x ≠ a := fun he => hx (by simp [he])
      have hxs : x ∉ xs := fun he => hx (by simp [he])
      obtain ⟨hanot, hnd'⟩ := List.nodup_cons.mp hnd
      cases xs with
      | nil =>
          have hal : a = l := by simpa using hl
          subst hal
          have hn : Chain (pushNext next (some a) x) (some x) [x] := by
            refine ⟨rfl, ?_⟩
            simp [pushNext, Chain, hxa]
          refine ⟨h.1, ?_⟩
          simpa [pushNext] using hn
      | cons b ys =>
          have hl' : (b :: ys).getLast? = some l := by
            simpa [List.getLast?_cons_cons] using hl
          have hal : a ≠ l := fun he => hanot (he ▸ List.mem_of_getLast? hl')
          have hsame : pushNext next (some l) x a = next a := by
            simp [pushNext, hal, Ne.symm hxa]
          refine ⟨h.1, ?_⟩
          rw [hsame]
          exact ih h.2 hnd' hl' hxs

/-- The pointers of a family of queues represent the lists `ls`: every queue is a chain
that ends at its tail pointer, and no node occurs twice within one queue or in two of them. -/
structure Family (next : ι → Option ι) (head tail : κ → Option ι) (ls : κ → List ι) : Prop where
  chain : ∀ q, Chain next (head q) (ls q)
  last : ∀ q, tail q = (ls q).getLast?
  nodup : ∀ q, (ls q).Nodup
  excl : ∀ q r x, x ∈ ls q → x ∈ ls r → q = r

variable {head tail : κ → Option ι} {ls : κ → List ι}

omit [DecidableEq ι] [DecidableEq κ] in
theorem Family.unique {ls' : κ → List ι} (h : Family next head tail ls)
    (h' : Family next head tail ls') : ls = ls' :=
  funext fun q => (h.chain q).unique (h'.chain q)

omit [DecidableEq κ] in
/-- Rewriting the pointer of a node that is in no queue changes nothing. -/
theorem Family.frame (h : Family next head tail ls) {x : ι} (hx : ∀ q, x ∉ ls q)
    (v : Option ι) : Family (Function.update next x v) head tail ls := by
  refine ⟨fun q => (h.chain q).congr ?_, h.last, h.nodup, h.excl⟩
  intro y hy
  have hyx : y ≠ x := fun he => hx q (he ▸ hy)
  exact Function.update_of_ne hyx _ _

omit [DecidableEq ι] [DecidableEq κ] in
theorem Family.tail_none_iff (h : Family next head tail ls) (q : κ) :
    tail q = none ↔ head q = none := by
  rw [h.last q, (h.chain q).head_eq]
  cases ls q <;> simp

omit [DecidableEq ι] in
private theorem excl_update_snoc (q : κ) (x : ι) (hexcl : ∀ q r x, x ∈ ls q → x ∈ ls r → q = r)
    (hx : ∀ r, x ∉ ls r) (r r' : κ) (y : ι)
    (hr : y ∈ Function.update ls q (ls q ++ [x]) r)
    (hr' : y ∈ Function.update ls q (ls q ++ [x]) r') : r = r' := by
  by_cases hq : r = q <;> by_cases hq' : r' = q
  · exact hq.trans hq'.symm
  · subst hq
    simp only [Function.update_self, List.mem_append, List.mem_singleton,
      Function.update_of_ne hq'] at hr hr'
    rcases hr with hr | rfl
    · exact hexcl _ _ _ hr hr'
    · exact absurd hr' (hx r')
  · subst hq'
    simp only [Function.update_self, List.mem_append, List.mem_singleton,
      Function.update_of_ne hq] at hr hr'
    rcases hr' with hr' | rfl
    · exact hexcl _ _ _ hr hr'
    · exact absurd hr (hx r)
  · simp only [Function.update_of_ne hq, Function.update_of_ne hq'] at hr hr'
    exact hexcl _ _ _ hr hr'

/-- Appending a node that is in no queue. -/
theorem Family.push (h : Family next head tail ls) (q : κ) {x : ι} (hx : ∀ r, x ∉ ls r) :
    Family (pushNext next (tail q) x) (Function.update head q (pushHead (head q) (tail q) x))
      (Function.update tail q (some x)) (Function.update ls q (ls q ++ [x])) := by
  have hlast := h.last q
  refine ⟨?_, ?_, ?_, excl_update_snoc q x h.excl hx⟩
  · intro r
    by_cases hr : r = q
    · subst hr
      simp only [Function.update_self]
      cases ht : tail r with
      | none =>
          have hnil : ls r = [] := by simpa [ht, List.getLast?_eq_none_iff] using hlast.symm
          simp [hnil, pushNext, pushHead, Chain]
      | some l =>
          rw [ht] at hlast
          exact chain_snoc (h.chain r) (h.nodup r) hlast.symm (hx r)
    · simp only [Function.update_of_ne hr]
      apply (h.chain r).congr
      intro y hy
      have hyx : y ≠ x := fun he => hx r (he ▸ hy)
      cases ht : tail q with
      | none => simp [pushNext, hyx]
      | some l =>
          rw [ht] at hlast
          have hyl : y ≠ l := by
            intro he
            exact hr (h.excl r q y hy (he ▸ List.mem_of_getLast? hlast.symm))
          simp [pushNext, hyx, hyl]
  · intro r
    by_cases hr : r = q
    · subst hr; simp
    · simp [Function.update_of_ne hr, h.last r]
  · intro r
    by_cases hr : r = q
    · subst hr
      simp only [Function.update_self]
      exact List.nodup_append.mpr ⟨h.nodup r, List.nodup_singleton x, by
        intro a ha b hb hab
        rw [List.mem_singleton.mp hb] at hab
        exact hx r (hab ▸ ha)⟩
    · simpa [Function.update_of_ne hr] using h.nodup r

/-- Removing the first node of a queue. -/
theorem Family.pop (h : Family next head tail ls) {q : κ} {x : ι} {xs : List ι}
    (hq : ls q = x :: xs) :
    Family (Function.update next x none) (Function.update head q (next x))
      (Function.update tail q (if next x = none then none else tail q))
      (Function.update ls q xs) := by
  have hchain := h.chain q
  rw [hq] at hchain
  have hnd := h.nodup q
  rw [hq] at hnd
  have hxmem : x ∈ ls q := by simp [hq]
  have hsub : ∀ r y, y ∈ Function.update ls q xs r → y ∈ ls r := by
    intro r y hy
    by_cases hr : r = q
    · subst hr
      rw [Function.update_self] at hy
      simp [hq, hy]
    · rwa [Function.update_of_ne hr] at hy
  have hxnot : ∀ r, x ∉ Function.update ls q xs r := by
    intro r hy
    have hr : r = q := h.excl r q x (hsub r x hy) hxmem
    subst hr
    rw [Function.update_self] at hy
    exact (List.nodup_cons.mp hnd).1 hy
  refine ⟨?_, ?_, ?_, ?_⟩
  · intro r
    have hkeep : ∀ y ∈ Function.update ls q xs r, Function.update next x none y = next y := by
      intro y hy
      have hyx : y ≠ x := fun he => hxnot r (he ▸ hy)
      exact Function.update_of_ne hyx _ _
    by_cases hr : r = q
    · subst hr
      simp only [Function.update_self] at hkeep ⊢
      exact hchain.2.congr hkeep
    · simp only [Function.update_of_ne hr] at hkeep ⊢
      exact (h.chain r).congr hkeep
  · intro r
    by_cases hr : r = q
    · subst hr
      simp only [Function.update_self]
      have hnext := hchain.2.head_eq
      have hlast := h.last r
      rw [hq] at hlast
      cases xs with
      | nil => simp [hnext]
      | cons y ys => simp [hnext, hlast, List.getLast?_cons_cons]
    · simp [Function.update_of_ne hr, h.last r]
  · intro r
    by_cases hr : r = q
    · subst hr
      simpa using (List.nodup_cons.mp hnd).2
    · simpa [Function.update_of_ne hr] using h.nodup r
  · intro r r' y hy hy'
    exact h.excl r r' y (hsub r y hy) (hsub r' y hy')

omit [DecidableEq ι] in
/-- Forgetting a queue by overwriting its two pointers with null. -/
theorem Family.reset (h : Family next head tail ls) (q : κ) :
    Family next (Function.update head q none) (Function.update tail q none)
      (Function.update ls q []) := by
  have hsub : ∀ r y, y ∈ Function.update ls q [] r → y ∈ ls r := by
    intro r y hy
    by_cases hr : r = q
    · subst hr; simp at hy
    · rwa [Function.update_of_ne hr] at hy
  refine ⟨?_, ?_, ?_, fun r r' y hy hy' => h.excl r r' y (hsub r y hy) (hsub r' y hy')⟩
  · intro r
    by_cases hr : r = q
    · subst hr; simp [Chain]
    · simpa [Function.update_of_ne hr] using h.chain r
  · intro r
    by_cases hr : r = q
    · subst hr; simp
    · simpa [Function.update_of_ne hr] using h.last r
  · intro r
    by_cases hr : r = q
    · subst hr; simp
    · simpa [Function.update_of_ne hr] using h.nodup r

end SRos.Queue
