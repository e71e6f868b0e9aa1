import Mathlib.Data.List.Basic
import Mathlib.Data.Nat.ModEq
import Mathlib.Logic.Function.Basic

/-!
# Ring buffers

A bounded first-in first-out buffer in a table of `cap` slots: the oldest of its `count` entries
is at `head`, and the others follow it modulo `cap`.
-/

namespace SRos.RingBuffer

variable {α : Type} {cap head count : Nat} {slots : Nat → α}

/-- The entries, oldest first. -/
def contents (cap : Nat) (slots : Nat → α) (head count : Nat) : List α :=
  (List.range count).map fun k => slots ((head + k) % cap)

@[simp] theorem contents_zero : contents cap slots head 0 = [] := rfl

@[simp] theorem length_contents : (contents cap slots head count).length = count := by
  simp [contents]

private theorem add_mod_inj {i j : Nat} (hi : i < cap) (hj : j < cap)
    (h : (head + i) % cap = (head + j) % cap) : i = j := by
  have hmod : i % cap = j % cap := Nat.ModEq.add_left_cancel' head h
  rwa [Nat.mod_eq_of_lt hi, Nat.mod_eq_of_lt hj] at hmod

/-- Writing the slot behind the newest entry of a buffer that is not full. -/
theorem contents_push (hcount : count < cap) (x : α) :
    contents cap (Function.update slots ((head + count) % cap) x) head (count + 1) =
      contents cap slots head count ++ [x] := by
  unfold contents
  rw [List.range_succ, List.map_append, List.map_singleton, Function.update_self]
  congr 1
  apply List.map_congr_left
  intro k hk
  have hk' : k < count := List.mem_range.mp hk
  apply Function.update_of_ne
  intro h
  have := add_mod_inj (by omega) hcount h
  omega

/-- Moving the head past the oldest entry of a buffer that is not empty. -/
theorem contents_pop (hhead : head < cap) (hcount : count ≠ 0) :
    contents cap slots head count =
      slots head :: contents cap slots ((head + 1) % cap) (count - 1) := by
  obtain ⟨n, rfl⟩ := Nat.exists_eq_succ_of_ne_zero hcount
  unfold contents
  rw [Nat.succ_eq_add_one, Nat.add_sub_cancel, List.range_succ_eq_map, List.map_cons,
    List.map_map, Nat.add_zero, Nat.mod_eq_of_lt hhead]
  congr 1
  apply List.map_congr_left
  intro k _
  simp only [Function.comp_apply, Nat.mod_add_mod]
  rw [show head + k.succ = head + 1 + k by omega]

/-! ## Two indices -/

/-- A table with the index behind the newest entry and that of the oldest. One slot is left unused,
to tell a full buffer from an empty one. -/
structure Table (α : Type) where
  slots : Nat → α
  head : Nat
  tail : Nat

def Table.put (cap : Nat) (r : Table α) (x : α) : Table α :=
  let next := (r.head + 1) % cap
  if next ≠ r.tail then { r with slots := Function.update r.slots r.head x, head := next } else r

/-- Moves the index of the oldest entry past it. -/
def Table.drop (cap : Nat) (r : Table α) : Table α := { r with tail := (r.tail + 1) % cap }

/-- The buffer holds these entries, oldest first. -/
structure Table.Holds (cap : Nat) (r : Table α) (xs : List α) : Prop where
  tail : r.tail < cap
  room : xs.length < cap
  head : r.head = (r.tail + xs.length) % cap
  contents : contents cap r.slots r.tail xs.length = xs

section Holds

variable {r : Table α} {xs : List α} {x : α}

theorem Table.Holds.head_lt (h : r.Holds cap xs) : r.head < cap := by
  rw [h.head]
  exact Nat.mod_lt _ (by have := h.tail; omega)

theorem Table.Holds.empty_iff (h : r.Holds cap xs) : r.head = r.tail ↔ xs = [] := by
  have htail := h.tail
  have hroom := h.room
  rw [← List.length_eq_zero_iff, h.head]
  constructor
  · intro heq
    exact add_mod_inj hroom (by omega) (heq.trans (by rw [Nat.add_zero, Nat.mod_eq_of_lt htail]))
  · intro hzero
    rw [hzero, Nat.add_zero, Nat.mod_eq_of_lt htail]

theorem Table.Holds.full_iff (h : r.Holds cap xs) :
    (r.head + 1) % cap = r.tail ↔ xs.length = cap - 1 := by
  have htail := h.tail
  have hroom := h.room
  rw [h.head, Nat.mod_add_mod, Nat.add_assoc]
  constructor
  · intro heq
    by_contra hne
    have hzero : xs.length + 1 = 0 := add_mod_inj (by omega) (by omega)
      (heq.trans (by rw [Nat.add_zero, Nat.mod_eq_of_lt htail]))
    omega
  · intro hlen
    rw [show xs.length + 1 = cap by omega, Nat.add_mod_right, Nat.mod_eq_of_lt htail]

/-- A buffer with a place left takes an entry. -/
theorem Table.Holds.put (h : r.Holds cap xs) (hroom : xs.length ≠ cap - 1) :
    (r.put cap x).Holds cap (xs ++ [x]) := by
  have hlt := h.room
  unfold Table.put
  rw [if_pos (by rwa [ne_eq, h.full_iff])]
  refine ⟨h.tail, by simp only [List.length_append, List.length_singleton]; omega, ?_, ?_⟩
  · rw [List.length_append, List.length_singleton, h.head, Nat.mod_add_mod, Nat.add_assoc]
  · simp only [List.length_append, List.length_singleton, h.head]
    rw [contents_push hlt, h.contents]

/-- A full buffer stays as it is. -/
theorem Table.Holds.put_full (h : r.Holds cap xs) (hfull : xs.length = cap - 1) :
    r.put cap x = r := by
  unfold Table.put
  rw [if_neg (by rw [ne_eq, h.full_iff]; omega)]

/-- The oldest entry of a buffer that is not empty. -/
theorem Table.Holds.drop (h : r.Holds cap (x :: xs)) :
    r.slots r.tail = x ∧ (r.drop cap).Holds cap xs := by
  have hroom := h.room
  rw [List.length_cons] at hroom
  have hcontents := h.contents
  rw [List.length_cons, contents_pop h.tail (by omega), Nat.add_sub_cancel] at hcontents
  obtain ⟨holdest, hrest⟩ := List.cons.inj hcontents
  refine ⟨holdest, Nat.mod_lt _ (by omega), by omega, ?_, hrest⟩
  change r.head = ((r.tail + 1) % cap + xs.length) % cap
  rw [h.head, List.length_cons, Nat.mod_add_mod, Nat.add_assoc, Nat.add_comm 1]

/-- The entries between the two indices. -/
def Table.queue (cap : Nat) (r : Table α) : List α :=
  RingBuffer.contents cap r.slots r.tail ((r.head + cap - r.tail) % cap)

theorem Table.Holds.queue (h : r.Holds cap xs) : r.queue cap = xs := by
  have htail := h.tail
  have hroom := h.room
  have hhead := h.head
  have hlen : (r.head + cap - r.tail) % cap = xs.length := by
    rcases Nat.lt_or_ge (r.tail + xs.length) cap with hlt | hge
    · rw [Nat.mod_eq_of_lt hlt] at hhead
      rw [show r.head + cap - r.tail = xs.length + cap by omega, Nat.add_mod_right,
        Nat.mod_eq_of_lt hroom]
    · rw [Nat.mod_eq_sub_mod hge, Nat.mod_eq_of_lt (by omega)] at hhead
      rw [show r.head + cap - r.tail = xs.length by omega, Nat.mod_eq_of_lt hroom]
  rw [Table.queue, hlen, h.contents]

theorem Table.holds_nil (slots : Nat → α) (hcap : 0 < cap) : (Table.mk slots 0 0).Holds cap [] :=
  ⟨hcap, hcap, by rw [List.length_nil, Nat.zero_mod], rfl⟩

end Holds

/-! ## What the users of a buffer see -/

/-- A call with what came of it: an entry that was accepted or dropped, or an entry that was
returned, if there was one. -/
inductive Event (α : Type)
  | put (x : α) (accepted : Bool)
  | get (x : Option α)

/-- The entries that were accepted. -/
def accepted (es : List (Event α)) : List α :=
  es.filterMap fun
    | .put x true => some x
    | _ => none

/-- The entries that were returned. -/
def returned (es : List (Event α)) : List α :=
  es.filterMap fun
    | .get x => x
    | _ => none

def pending (es : List (Event α)) : Nat := (accepted es).length - (returned es).length

/-- The event is what a buffer with `n` places does if `k` entries are pending. -/
def Event.Lawful (n k : Nat) : Event α → Prop
  | .put _ ok => ok = false ↔ k = n
  | .get x => x = none ↔ k = 0

/-- The law of a first-in first-out buffer with `n` places. -/
structure BoundedFifo (n : Nat) (es : List (Event α)) : Prop where
  order : returned es <+: accepted es
  lawful : ∀ pre e post, es = pre ++ e :: post → e.Lawful n (pending pre)

/-- The buffer holds `xs` after the events. -/
structure Follows (n : Nat) (es : List (Event α)) (xs : List α) : Prop where
  balance : accepted es = returned es ++ xs
  lawful : ∀ pre e post, es = pre ++ e :: post → e.Lawful n (pending pre)

section Events

variable {es : List (Event α)} {e : Event α} {xs ys : List α} {n : Nat}

theorem follows_nil : Follows n ([] : List (Event α)) [] :=
  ⟨rfl, fun _ _ _ h => absurd h (by simp)⟩

theorem Follows.fifo (h : Follows n es xs) : BoundedFifo n es :=
  ⟨⟨xs, h.balance.symm⟩, h.lawful⟩

theorem Follows.pending (h : Follows n es xs) : pending es = xs.length := by
  rw [RingBuffer.pending, h.balance, List.length_append, Nat.add_sub_cancel_left]

/-- One more event. -/
theorem Follows.snoc (h : Follows n es xs) (hlawful : e.Lawful n xs.length)
    (hbalance : xs ++ accepted [e] = returned [e] ++ ys) : Follows n (es ++ [e]) ys where
  balance := by
    rw [accepted, List.filterMap_append, returned, List.filterMap_append]
    change accepted es ++ accepted [e] = (returned es ++ returned [e]) ++ ys
    rw [h.balance, List.append_assoc, hbalance, List.append_assoc]
  lawful := by
    intro pre e' post heq
    rcases List.eq_nil_or_concat post with rfl | ⟨post, last, rfl⟩
    · obtain ⟨rfl, hlast⟩ := List.append_inj' heq rfl
      obtain rfl := (List.cons.inj hlast).1
      rw [h.pending]
      exact hlawful
    · refine h.lawful pre e' post ?_
      rw [List.concat_eq_append, ← List.cons_append, ← List.append_assoc] at heq
      exact (List.append_inj' heq rfl).1

/-- A buffer that holds the entries has an event for every call. -/
theorem Follows.put (h : Follows n es xs) (x : α) :
    (xs.length ≠ n → Follows n (es ++ [.put x true]) (xs ++ [x])) ∧
      (xs.length = n → Follows n (es ++ [.put x false]) xs) := by
  constructor
  · intro hroom
    refine h.snoc ?_ rfl
    change true = false ↔ xs.length = n
    simp [hroom]
  · intro hfull
    refine h.snoc ?_ (by simp [accepted, returned])
    change false = false ↔ xs.length = n
    simp [hfull]

theorem Follows.get_some {x : α} (h : Follows n es (x :: xs)) :
    Follows n (es ++ [.get (some x)]) xs := by
  refine h.snoc ?_ (by simp [accepted, returned])
  change some x = none ↔ xs.length + 1 = 0
  simp

theorem Follows.get_none (h : Follows n es []) : Follows n (es ++ [.get none]) [] := by
  refine h.snoc ?_ rfl
  change (none : Option α) = none ↔ ([] : List α).length = 0
  simp

end Events

/-! ## The events of a table -/

section Table

variable {β : Type} {r : Table α} {xs : List α} {x : α} {es : List (Event β)} {f : α → β}

private theorem next_ne {i : Nat} (hi : i < cap) (hcap : 1 < cap) : (i + 1) % cap ≠ i := by
  intro heq
  rcases Nat.lt_or_ge (i + 1) cap with hlt | hge
  · rw [Nat.mod_eq_of_lt hlt] at heq
    omega
  · rw [show i + 1 = cap by omega, Nat.mod_self] at heq
    omega

theorem Table.drop_tail_ne (htail : r.tail < cap) (hcap : 1 < cap) :
    (r.drop cap).tail ≠ r.tail :=
  next_ne htail hcap

/-- The index behind the newest entry moves if there is a place left. -/
theorem Table.Holds.put_head_ne_iff (h : r.Holds cap xs) (hcap : 1 < cap) :
    (r.put cap x).head ≠ r.head ↔ xs.length ≠ cap - 1 := by
  by_cases hfull : xs.length = cap - 1
  · rw [h.put_full hfull]
    simp [hfull]
  · refine iff_of_true ?_ hfull
    unfold Table.put
    rw [if_pos (by rwa [ne_eq, h.full_iff])]
    exact next_ne h.head_lt hcap

/-- A put is an event, the acceptance read off the index. -/
theorem Table.Holds.put_event (h : r.Holds cap xs) (hcap : 1 < cap)
    (hes : Follows (cap - 1) es (xs.map f)) (x : α) :
    ∃ ys, (r.put cap x).Holds cap ys ∧
      Follows (cap - 1) (es ++ [.put (f x) ((r.put cap x).head ≠ r.head)]) (ys.map f) := by
  have hmoved := @Table.Holds.put_head_ne_iff _ _ _ _ x h hcap
  have hput := hes.put (f x)
  rw [List.length_map] at hput
  by_cases hfull : xs.length = cap - 1
  · refine ⟨xs, ?_, ?_⟩
    · rwa [h.put_full hfull]
    · rw [decide_eq_false (hmoved.not.mpr (not_not.mpr hfull))]
      exact hput.2 hfull
  · refine ⟨xs ++ [x], h.put hfull, ?_⟩
    rw [decide_eq_true (hmoved.mpr hfull), List.map_append]
    exact hput.1 hfull

/-- A get is an event. -/
theorem Table.Holds.get_event {n : Nat} (h : r.Holds cap xs) (hes : Follows n es (xs.map f)) :
    ∃ ys, (if r.head = r.tail then r else r.drop cap).Holds cap ys ∧
      Follows n (es ++ [.get (if r.head = r.tail then none else some (f (r.slots r.tail)))])
        (ys.map f) := by
  cases xs with
  | nil =>
      have hempty := h.empty_iff.mpr rfl
      rw [if_pos hempty, if_pos hempty]
      exact ⟨[], h, hes.get_none⟩
  | cons y ys =>
      have hne : r.head ≠ r.tail := fun heq => by simpa using h.empty_iff.mp heq
      obtain ⟨holdest, hdrop⟩ := h.drop
      rw [if_neg hne, if_neg hne, holdest]
      exact ⟨ys, hdrop, hes.get_some⟩

end Table

end SRos.RingBuffer
