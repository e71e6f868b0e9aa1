import Mathlib.Data.List.Induction
import SRos.Input.Model

/-!
# The rings of keyboard and mouse are bounded FIFOs

A put is dropped if all slots but one are in use. What came of a call is read off its return value
and the indices: a put was accepted if `head` has moved, and a get of the keyboard was successful
if `tail` has moved, since its return value `0` may also be an entry.
-/

namespace SRos.Input

open Gui (MouseEvent)
open RingBuffer

/-! ## The keyboard -/

inductive KbdCall
  | put (c : Int)
  | get

def kbdCall (k : Keyboard) : KbdCall → Event Int × Keyboard
  | .put c =>
      let k' := kbdBufferPut k c
      (.put (c % 256) (k'.buffer.head ≠ k.buffer.head), k')
  | .get =>
      let (c, k') := kbdBufferGet k
      (.get (if k'.buffer.tail ≠ k.buffer.tail then some c else none), k')

/-- The events of a run, and the state behind it. -/
def kbdRun (calls : List KbdCall) : List (Event Int) × Keyboard :=
  calls.foldl (fun r c => let (e, k) := kbdCall r.2 c; (r.1 ++ [e], k)) ([], Keyboard.boot)

/-! ## The mouse -/

inductive MouseCall
  | put (ev : MouseEvent)
  | read

def mouseCall (m : Mouse) : MouseCall → Event MouseEvent × Mouse
  | .put ev =>
      let m' := mouseBufferPut m ev
      (.put ev (m'.buffer.head ≠ m.buffer.head), m')
  | .read =>
      let (r, ev, m') := mouseRead m
      (.get (if r ≠ 0 then ev else none), m')

def mouseRun (calls : List MouseCall) : List (Event MouseEvent) × Mouse :=
  calls.foldl (fun r c => let (e, m) := mouseCall r.2 c; (r.1 ++ [e], m)) ([], Mouse.boot)

/-! ## Steps and runs -/

section Keyboard

variable {k : Keyboard} {es : List (Event Int)} {bs : List UInt8}

/-- A byte as the value that `kbd_buffer_get` returns. -/
def value (b : UInt8) : Int := b.toNat

theorem value_ofInt (c : Int) : value (UInt8.ofInt c) = c % 256 := by
  unfold value UInt8.ofInt
  rw [UInt8.toNat_ofNat']
  omega

/-- What has been put and is still to be returned. -/
def KbdHolds (r : List (Event Int) × Keyboard) (bs : List UInt8) : Prop :=
  r.2.buffer.Holds 256 bs ∧ Follows 255 r.1 (bs.map value)

theorem kbdCall_get (htail : k.buffer.tail < 256) : kbdCall k .get =
    (.get (if k.buffer.head = k.buffer.tail then none else
        some (value (k.buffer.slots k.buffer.tail))),
      { k with buffer := if k.buffer.head = k.buffer.tail then k.buffer else
          k.buffer.drop 256 }) := by
  unfold kbdCall kbdBufferGet
  by_cases hempty : k.buffer.head = k.buffer.tail
  · simp [hempty]
  · have hmoved := Table.drop_tail_ne htail (by decide)
    simp only [hempty, if_false]
    exact congrArg (fun e => (Event.get e, _)) (if_pos hmoved)

theorem KbdHolds.step (h : KbdHolds (es, k) bs) (c : KbdCall) :
    ∃ bs', KbdHolds (es ++ [(kbdCall k c).1], (kbdCall k c).2) bs' := by
  obtain ⟨hbuffer, hes⟩ := h
  cases c with
  | put c =>
      have hput := hbuffer.put_event (by decide) hes (UInt8.ofInt c)
      rw [value_ofInt] at hput
      exact hput
  | get =>
      rw [kbdCall_get hbuffer.tail]
      exact hbuffer.get_event hes

theorem exists_kbdHolds (calls : List KbdCall) : ∃ bs, KbdHolds (kbdRun calls) bs := by
  induction calls using List.reverseRecOn with
  | nil => exact ⟨[], Table.holds_nil _ (by decide), follows_nil⟩
  | append_singleton calls c ih =>
      obtain ⟨bs, hbs⟩ := ih
      rw [kbdRun, List.foldl_append]
      exact hbs.step c

theorem kbdBufferHasData_iff (h : k.buffer.Holds 256 bs) : kbdBufferHasData k = true ↔ bs ≠ [] := by
  unfold kbdBufferHasData
  rw [decide_eq_true_iff, ne_eq, h.empty_iff]

end Keyboard

section Mouse

variable {m : Mouse} {es : List (Event MouseEvent)} {evs : List MouseEvent}

def MouseHolds (r : List (Event MouseEvent) × Mouse) (evs : List MouseEvent) : Prop :=
  r.2.buffer.Holds 64 evs ∧ Follows 63 r.1 (evs.map id)

theorem mouseCall_read : mouseCall m .read =
    (.get (if m.buffer.head = m.buffer.tail then none else some (id (m.buffer.slots m.buffer.tail))),
      { m with buffer := if m.buffer.head = m.buffer.tail then m.buffer else
          m.buffer.drop 64 }) := by
  unfold mouseCall mouseRead
  by_cases hempty : m.buffer.head = m.buffer.tail
  · simp [hempty]
  · simp [hempty]
    rfl

theorem MouseHolds.step (h : MouseHolds (es, m) evs) (c : MouseCall) :
    ∃ evs', MouseHolds (es ++ [(mouseCall m c).1], (mouseCall m c).2) evs' := by
  obtain ⟨hbuffer, hes⟩ := h
  cases c with
  | put ev => exact hbuffer.put_event (by decide) hes ev
  | read =>
      rw [mouseCall_read]
      exact hbuffer.get_event hes

theorem exists_mouseHolds (calls : List MouseCall) : ∃ evs, MouseHolds (mouseRun calls) evs := by
  induction calls using List.reverseRecOn with
  | nil => exact ⟨[], Table.holds_nil _ (by decide), follows_nil⟩
  | append_singleton calls c ih =>
      obtain ⟨evs, hevs⟩ := ih
      rw [mouseRun, List.foldl_append]
      exact hevs.step c

theorem mouseHasData_iff (h : m.buffer.Holds 64 evs) : mouseHasData m = true ↔ evs ≠ [] := by
  unfold mouseHasData
  rw [decide_eq_true_iff, ne_eq, h.empty_iff]

end Mouse

/-- What the users of a ring with `n + 1` slots see after the events `es`. -/
structure RingLaw {α : Type} (n : Nat) (es : List (Event α)) (hasData : Bool) (head tail : Nat) :
    Prop where
  fifo : BoundedFifo n es
  hasData : hasData = true ↔ pending es ≠ 0
  head : head < n + 1
  tail : tail < n + 1

/-- For every sequence of calls, both rings are first-in first-out buffers: what the successful gets
return is a prefix of what was accepted, a put is dropped just when 255 bytes or 63 events are
pending, a get fails just when none is, `has_data` tells whether some are, and the indices are in
range. -/
theorem input_rings_fifo :
    (∀ calls, RingLaw 255 (kbdRun calls).1 (kbdBufferHasData (kbdRun calls).2)
      (kbdRun calls).2.buffer.head (kbdRun calls).2.buffer.tail) ∧
    ∀ calls, RingLaw 63 (mouseRun calls).1 (mouseHasData (mouseRun calls).2)
      (mouseRun calls).2.buffer.head (mouseRun calls).2.buffer.tail := by
  constructor
  · intro calls
    obtain ⟨bs, hbuffer, hes⟩ := exists_kbdHolds calls
    refine ⟨hes.fifo, ?_, hbuffer.head_lt, hbuffer.tail⟩
    rw [kbdBufferHasData_iff hbuffer, hes.pending, List.length_map]
    exact List.length_eq_zero_iff.not.symm
  · intro calls
    obtain ⟨evs, hbuffer, hes⟩ := exists_mouseHolds calls
    refine ⟨hes.fifo, ?_, hbuffer.head_lt, hbuffer.tail⟩
    rw [mouseHasData_iff hbuffer, hes.pending, List.length_map]
    exact List.length_eq_zero_iff.not.symm

end SRos.Input
