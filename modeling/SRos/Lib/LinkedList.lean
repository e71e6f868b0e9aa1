import SRos.Lib.Queue

/-!
# Singly linked lists of allocated nodes

`heap` gives the node at an address, `none` where nothing is allocated. A loop that follows the
`next` pointers is given a bound on its iterations; it has no result if it runs out of them or
if it reads a node that is not allocated.
-/

namespace SRos.LinkedList

open Queue

variable {ι α : Type} {heap : ι → Option α} {next : α → Option ι}

/-- The pointer stored in a node. -/
def link (heap : ι → Option α) (next : α → Option ι) (p : ι) : Option ι := (heap p).bind next

/-- The nodes from a pointer up to the null pointer. -/
def walk (heap : ι → Option α) (next : α → Option ι) : Nat → Option ι → Option (List (ι × α))
  | _, none => some []
  | 0, some _ => none
  | fuel + 1, some p => do
      let a ← heap p
      let rest ← walk heap next fuel (next a)
      return (p, a) :: rest

/-- The first node from `p` on that has no successor or one that fails the test `go`. -/
def seek (heap : ι → Option α) (next : α → Option ι) (go : ι → α → Bool) : Nat → ι → Option ι
  | 0, _ => none
  | fuel + 1, p => do
      let a ← heap p
      match next a with
      | none => return p
      | some q =>
          let b ← heap q
          if go q b then seek heap next go fuel q else return p

/-- The pointers from `head` are those of `ps`, and every one of them is allocated. -/
structure Linked (heap : ι → Option α) (next : α → Option ι) (head : Option ι) (ps : List ι) :
    Prop where
  chain : Chain (link heap next) head ps
  live : ∀ p ∈ ps, ∃ a, heap p = some a

theorem Linked.cons_iff {head : Option ι} {p : ι} {ps : List ι} :
    Linked heap next head (p :: ps) ↔
      head = some p ∧ ∃ a, heap p = some a ∧ Linked heap next (next a) ps := by
  constructor
  · intro h
    obtain ⟨a, ha⟩ := h.live p (by simp)
    have htail : Chain (link heap next) (next a) ps := by
      simpa [link, ha] using h.chain.2
    exact ⟨h.chain.1, a, ha, htail, fun q hq => h.live q (by simp [hq])⟩
  · intro ⟨hhead, a, ha, h⟩
    have hlink : link heap next p = next a := by simp [link, ha]
    exact ⟨⟨hhead, hlink ▸ h.chain⟩, List.forall_mem_cons.mpr ⟨⟨a, ha⟩, h.live⟩⟩

/-- A walk over a linked list finds its nodes in order. -/
theorem Linked.walk {head : Option ι} {ps : List ι} (h : Linked heap next head ps) {fuel : Nat}
    (hfuel : ps.length ≤ fuel) :
    ∃ xs, LinkedList.walk heap next fuel head = some xs ∧ xs.map Prod.fst = ps ∧
      ∀ x ∈ xs, heap x.1 = some x.2 := by
  induction ps generalizing head fuel with
  | nil =>
      have hhead : head = none := h.chain
      subst hhead
      exact ⟨[], by cases fuel <;> rfl, rfl, by simp⟩
  | cons p ps ih =>
      obtain ⟨rfl, a, ha, htail⟩ := Linked.cons_iff.mp h
      cases fuel with
      | zero => simp at hfuel
      | succ fuel =>
          obtain ⟨xs, hxs, hmap, hheap⟩ := ih htail (by simpa using hfuel)
          exact ⟨(p, a) :: xs, by simp [LinkedList.walk, ha, hxs], by simp [hmap],
            List.forall_mem_cons.mpr ⟨ha, hheap⟩⟩

/-- The nodes that a search passes satisfy its test, and the one it stops in front of does
not. -/
theorem Linked.seek {p : ι} {ps : List ι} (h : Linked heap next (some p) (p :: ps))
    (go : ι → α → Bool) {fuel : Nat} (hfuel : ps.length < fuel) :
    ∃ pre q post, p :: ps = pre ++ q :: post ∧ LinkedList.seek heap next go fuel p = some q ∧
      (∀ x ∈ (pre ++ [q]).tail, ∀ a, heap x = some a → go x a = true) ∧
      (∀ y ∈ post.head?, ∀ b, heap y = some b → go y b = false) := by
  induction ps generalizing p fuel with
  | nil =>
      obtain ⟨-, a, ha, htail⟩ := Linked.cons_iff.mp h
      have hnext : next a = none := htail.chain
      cases fuel with
      | zero => simp at hfuel
      | succ fuel =>
          exact ⟨[], p, [], rfl, by simp [LinkedList.seek, ha, hnext], by simp, by simp⟩
  | cons q ps ih =>
      obtain ⟨-, a, ha, htail⟩ := Linked.cons_iff.mp h
      obtain ⟨hnext, b, hb, -⟩ := Linked.cons_iff.mp htail
      cases fuel with
      | zero => simp at hfuel
      | succ fuel =>
          cases hgo : go q b with
          | false =>
              exact ⟨[], p, q :: ps, rfl, by simp [LinkedList.seek, ha, hnext, hb, hgo], by simp,
                by simp [hb, hgo]⟩
          | true =>
              rw [hnext] at htail
              obtain ⟨pre, r, post, hsplit, hseek, hpass, hstop⟩ :=
                ih htail (by simpa using hfuel)
              refine ⟨p :: pre, r, post, by rw [hsplit]; rfl,
                by simp [LinkedList.seek, ha, hnext, hb, hgo, hseek], ?_, hstop⟩
              intro x hx c hc
              have hx' : x ∈ pre ++ [r] := by simpa using hx
              cases pre with
              | nil =>
                  obtain ⟨rfl, -⟩ := List.cons.inj hsplit
                  obtain rfl : x = q := by simpa using hx'
                  rw [hb] at hc
                  rw [← Option.some.inj hc, hgo]
              | cons s pre =>
                  obtain ⟨rfl, -⟩ := List.cons.inj hsplit
                  rcases List.mem_cons.mp hx' with rfl | hx'
                  · rw [hb] at hc
                    rw [← Option.some.inj hc, hgo]
                  · exact hpass x (by simpa using hx') c hc

/-- The pointer in a node is the one that follows it in the list. -/
theorem Linked.next_eq {head : Option ι} {pre post : List ι} {p : ι} {a : α}
    (h : Linked heap next head (pre ++ p :: post)) (ha : heap p = some a) :
    next a = post.head? := by
  induction pre generalizing head with
  | nil =>
      obtain ⟨-, b, hb, htail⟩ := Linked.cons_iff.mp h
      rw [ha] at hb
      rw [Option.some.inj hb]
      exact htail.chain.head_eq
  | cons q pre ih =>
      obtain ⟨-, b, hb, htail⟩ := Linked.cons_iff.mp h
      exact ih htail

variable [DecidableEq ι]

theorem link_update (p : ι) (a : α) :
    link (Function.update heap p (some a)) next = Function.update (link heap next) p (next a) := by
  funext q
  by_cases hq : q = p
  · subst hq; simp [link]
  · simp [link, Function.update_of_ne hq]

/-- Writing a node that is not in the list, or not its pointer, keeps the list. -/
theorem Linked.update {head : Option ι} {ps : List ι} (h : Linked heap next head ps) {p : ι}
    {a : α} (hp : p ∈ ps → next a = link heap next p) :
    Linked (Function.update heap p (some a)) next head ps := by
  constructor
  · rw [link_update]
    apply h.chain.congr
    intro q hq
    by_cases hqp : q = p
    · subst hqp; simp [hp hq]
    · simp [Function.update_of_ne hqp]
  · intro q hq
    by_cases hqp : q = p
    · subst hqp; simp
    · simpa [Function.update_of_ne hqp] using h.live q hq

/-- Putting a node in front of the list. -/
theorem Linked.insertHead {head : Option ι} {ps : List ι} (h : Linked heap next head ps) {w : ι}
    {a : α} (hw : w ∉ ps) (ha : next a = head) :
    Linked (Function.update heap w (some a)) next (some w) (w :: ps) := by
  have htail : Linked (Function.update heap w (some a)) next (next a) ps := by
    rw [ha]
    exact h.update fun hmem => absurd hmem hw
  exact Linked.cons_iff.mpr ⟨rfl, a, by simp, htail⟩

/-- Putting a node behind `p`. -/
theorem Linked.insertAfter {head : Option ι} {pre post : List ι} {p w : ι} {a b : α}
    (h : Linked heap next head (pre ++ p :: post)) (hnd : (pre ++ p :: post).Nodup)
    (hw : w ∉ pre ++ p :: post) (ha : next a = link heap next p) (hb : next b = some w) :
    Linked (Function.update (Function.update heap w (some a)) p (some b)) next head
      (pre ++ p :: w :: post) := by
  have hwp : w ≠ p := fun he => hw (by simp [he])
  induction pre generalizing head with
  | nil =>
      obtain ⟨hhead, c, hc, htail⟩ := Linked.cons_iff.mp h
      have hpost : p ∉ post := (List.nodup_cons.mp hnd).1
      have hwpost : w ∉ post := fun hm => hw (by simp [hm])
      have hac : next a = next c := by simpa [link, hc] using ha
      have hrest := (htail.insertHead hwpost hac).update (p := p) (a := b)
        (fun hm => by
          rcases List.mem_cons.mp hm with hm | hm
          · exact absurd hm.symm hwp
          · exact absurd hm hpost)
      exact Linked.cons_iff.mpr ⟨hhead, b, by simp, by rw [hb]; exact hrest⟩
  | cons q pre ih =>
      obtain ⟨hhead, c, hc, htail⟩ := Linked.cons_iff.mp h
      obtain ⟨hq, hnd'⟩ := List.nodup_cons.mp hnd
      have hqp : q ≠ p := fun he => hq (by simp [he])
      have hqw : q ≠ w := fun he => hw (by simp [he])
      have hrest := ih htail hnd' (fun hm => hw (by simp at hm ⊢; tauto))
      refine Linked.cons_iff.mpr ⟨hhead, c, ?_, hrest⟩
      rw [Function.update_of_ne hqp, Function.update_of_ne hqw, hc]

/-- Taking the node behind `p` out of the list. -/
theorem Linked.removeAfter {head : Option ι} {pre post : List ι} {p w : ι} {b : α}
    (h : Linked heap next head (pre ++ p :: w :: post)) (hnd : (pre ++ p :: w :: post).Nodup)
    (hb : next b = link heap next w) :
    Linked (Function.update heap p (some b)) next head (pre ++ p :: post) := by
  induction pre generalizing head with
  | nil =>
      obtain ⟨hhead, c, hc, htail⟩ := Linked.cons_iff.mp h
      obtain ⟨-, d, hd, hpost⟩ := Linked.cons_iff.mp htail
      have hp : p ∉ post := fun hm => (List.nodup_cons.mp hnd).1 (by simp [hm])
      have hbd : next b = next d := by simpa [link, hd] using hb
      rw [← hbd] at hpost
      exact Linked.cons_iff.mpr ⟨hhead, b, by simp, hpost.update fun hm => absurd hm hp⟩
  | cons q pre ih =>
      obtain ⟨hhead, c, hc, htail⟩ := Linked.cons_iff.mp h
      obtain ⟨hq, hnd'⟩ := List.nodup_cons.mp hnd
      have hqp : q ≠ p := fun he => hq (by simp [he])
      refine Linked.cons_iff.mpr ⟨hhead, c, ?_, ih htail hnd'⟩
      rw [Function.update_of_ne hqp, hc]

/-- Releasing a node that is not in the list. -/
theorem Linked.free {head : Option ι} {ps : List ι} (h : Linked heap next head ps) {p : ι}
    (hp : p ∉ ps) : Linked (Function.update heap p none) next head ps := by
  have hne : ∀ q ∈ ps, q ≠ p := fun q hq he => hp (he ▸ hq)
  constructor
  · apply h.chain.congr
    intro q hq
    simp [link, Function.update_of_ne (hne q hq)]
  · intro q hq
    simpa [Function.update_of_ne (hne q hq)] using h.live q hq

end SRos.LinkedList
