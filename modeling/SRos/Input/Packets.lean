import SRos.Input.Rings

/-!
# The packets of the mouse

`mouse_handler` collects three bytes and queues an event, unless an overflow bit is set. The
protocol gives a displacement nine bits, with the sign in the first byte. The handler takes the
lower eight as a signed byte, so its events are right as long as bit 7 repeats the sign.
-/

namespace SRos.Input

open Gui (MouseEvent charValue)
open RingBuffer

/-! ## The protocol -/

/-- Three bytes of the mouse; bit 3 of the first one is set. -/
structure Packet where
  flags : UInt8
  x : UInt8
  y : UInt8
  sync : flags &&& 0x08 ≠ 0

def Packet.bytes (p : Packet) : List UInt8 := [p.flags, p.x, p.y]

def Packet.overflow (p : Packet) : Bool := p.flags &&& 0xC0 ≠ 0

/-- A displacement of nine bits in two's complement. -/
def displacement (sign : Bool) (b : UInt8) : Int := if sign then b.toNat - 256 else b.toNat

def Packet.signX (p : Packet) : Bool := p.flags &&& 0x10 ≠ 0
def Packet.signY (p : Packet) : Bool := p.flags &&& 0x20 ≠ 0

/-- The closest value that an `i8` has. -/
def saturate (d : Int) : Int := max (-128) (min 127 d)

/-- The event has the displacement of the packet. -/
structure Decodes (p : Packet) (ev : MouseEvent) : Prop where
  dx : ev.dx = saturate (displacement p.signX p.x)
  dy : ev.dy = saturate (displacement p.signY p.y)

/-- Bit 7 of both displacements repeats the sign. -/
def Packet.SignsRepeated (p : Packet) : Prop :=
  p.signX = decide (128 ≤ p.x.toNat) ∧ p.signY = decide (128 ≤ p.y.toNat)

/-- The event that the handler makes of a packet. -/
def Packet.event (p : Packet) : MouseEvent where
  buttons := (p.flags &&& 0x07).toNat
  dx := charValue p.x
  dy := charValue p.y

theorem charValue_eq_iff (sign : Bool) (b : UInt8) :
    charValue b = saturate (displacement sign b) ↔ sign = decide (128 ≤ b.toNat) := by
  have hb := b.toNat_lt
  unfold charValue saturate displacement
  cases sign with
  | false =>
      by_cases hlow : b.toNat < 128
      · simp [hlow]
        omega
      · simp [hlow]
        omega
  | true =>
      by_cases hlow : b.toNat < 128
      · simp [hlow]
        omega
      · simp [hlow]
        omega

theorem decodes_event_iff (p : Packet) : Decodes p p.event ↔ p.SignsRepeated := by
  unfold Packet.SignsRepeated
  rw [← charValue_eq_iff, ← charValue_eq_iff]
  exact ⟨fun h => ⟨h.dx, h.dy⟩, fun h => ⟨h.1, h.2⟩⟩

/-! ## The handler -/

/-- A byte of the mouse arrives, or an event is read. -/
inductive Arrival
  | byte (b : UInt8)
  | read

def bytesOf : List Arrival → List UInt8
  | [] => []
  | .byte b :: as => b :: bytesOf as
  | .read :: as => bytesOf as

/-- The entries of the ring, oldest first. -/
def Mouse.queue (m : Mouse) : List MouseEvent := m.buffer.queue mouseBufferSize

/-- The events that are read, and behind them those that are left in the ring. -/
def delivered (m : Mouse) : List Arrival → List MouseEvent
  | [] => m.queue
  | .byte b :: as => delivered (mouseHandler b m) as
  | .read :: as => (mouseRead m).2.1.toList ++ delivered (mouseRead m).2.2 as

/-- The ring has a place left whenever a byte arrives. -/
def NeverFull (m : Mouse) : List Arrival → Prop
  | [] => True
  | .byte b :: as => m.queue.length ≠ 63 ∧ NeverFull (mouseHandler b m) as
  | .read :: as => NeverFull (mouseRead m).2.2 as

/-- The bytes `part` of a packet have arrived, and the ring holds `evs`. -/
structure Receiving (m : Mouse) (part : List UInt8) (evs : List MouseEvent) : Prop where
  buffer : m.buffer.Holds 64 evs
  cycle : m.cycle = part.length
  packet : (List.range part.length).map m.packet = part

section Receiving

variable {m : Mouse} {part : List UInt8} {evs : List MouseEvent} {p : Packet}

theorem Mouse.queue_eq (h : m.buffer.Holds 64 evs) : m.queue = evs := h.queue

/-- The first byte of a packet. -/
theorem Receiving.flags (h : Receiving m [] evs) (p : Packet) :
    Receiving (mouseHandler p.flags m) [p.flags] evs := by
  have hcycle : m.cycle = 0 := h.cycle
  have hstep : mouseHandler p.flags m =
      { m with packet := Function.update m.packet 0 p.flags, cycle := 1 } := by
    simp only [mouseHandler, hcycle, if_neg p.sync]
  rw [hstep]
  exact ⟨h.buffer, rfl, by simp⟩

/-- The second byte. -/
theorem Receiving.second (h : Receiving m [p.flags] evs) :
    Receiving (mouseHandler p.x m) [p.flags, p.x] evs := by
  have hcycle : m.cycle = 1 := h.cycle
  have hflags : m.packet 0 = p.flags := (List.cons.inj h.packet).1
  have hstep : mouseHandler p.x m =
      { m with packet := Function.update m.packet 1 p.x, cycle := 2 } := by
    simp only [mouseHandler, hcycle]
  rw [hstep]
  exact ⟨h.buffer, rfl, by simp [List.range_succ, hflags]⟩

/-- The last byte queues the event, if there is no overflow. -/
theorem Receiving.third (h : Receiving m [p.flags, p.x] evs) (hroom : evs.length ≠ 63) :
    Receiving (mouseHandler p.y m) [] (if p.overflow then evs else evs ++ [p.event]) := by
  have hcycle : m.cycle = 2 := h.cycle
  obtain ⟨hflags, hrest⟩ := List.cons.inj h.packet
  have hx : m.packet 1 = p.x := (List.cons.inj hrest).1
  have hevent : assemble (Function.update m.packet 2 p.y) = p.event := by
    simp [assemble, Packet.event, Function.update, hflags, hx]
  have hfirst : Function.update m.packet 2 p.y 0 = p.flags := by
    rw [Function.update_of_ne (by decide), hflags]
  by_cases hover : p.flags &&& 0xC0 = 0
  · simp only [mouseHandler, hcycle, hevent, hfirst, Packet.overflow, hover, ne_eq,
      not_true_eq_false, decide_false, if_false, Bool.false_eq_true]
    exact ⟨h.buffer.put hroom, rfl, rfl⟩
  · simp only [mouseHandler, hcycle, hevent, hfirst, Packet.overflow, hover, ne_eq,
      not_false_eq_true, decide_true, if_true]
    exact ⟨h.buffer, rfl, rfl⟩

/-- A read takes the oldest event from the ring. -/
theorem Receiving.read (h : Receiving m part evs) :
    ∃ evs', evs = (mouseRead m).2.1.toList ++ evs' ∧ Receiving (mouseRead m).2.2 part evs' := by
  unfold mouseRead
  cases evs with
  | nil =>
      rw [if_pos (h.buffer.empty_iff.mpr rfl)]
      exact ⟨[], rfl, h⟩
  | cons ev evs =>
      obtain ⟨holdest, hdrop⟩ := h.buffer.drop
      rw [if_neg fun heq => by simpa using h.buffer.empty_iff.mp heq, holdest]
      exact ⟨evs, rfl, hdrop, h.cycle, h.packet⟩

/-- What is delivered of a stream of packets, the first of which has begun. -/
theorem Receiving.delivered (h : Receiving m part evs) (hpart : part.length < 3)
    {packets : List Packet} {as : List Arrival}
    (hbytes : part ++ bytesOf as = packets.flatMap Packet.bytes) (hroom : NeverFull m as) :
    delivered m as = evs ++ (packets.filter fun p => !p.overflow).map Packet.event := by
  induction as generalizing m part evs packets with
  | nil =>
      have hnone : packets = [] := by
        cases packets with
        | nil => rfl
        | cons p ps =>
            have hlen := congrArg List.length hbytes
            simp [bytesOf, Packet.bytes] at hlen
            omega
      rw [hnone, Input.delivered, Mouse.queue_eq h.buffer]
      exact (List.append_nil evs).symm
  | cons a as ih =>
      cases a with
      | read =>
          obtain ⟨evs', rfl, hread⟩ := h.read
          rw [Input.delivered, ih hread hpart hbytes hroom, List.append_assoc]
      | byte b =>
          obtain ⟨hplace, hrest⟩ := hroom
          rw [Mouse.queue_eq h.buffer] at hplace
          cases packets with
          | nil => simp [bytesOf] at hbytes
          | cons p ps =>
              rw [Input.delivered]
              -- by the number of bytes of the packet that have arrived
              match part, hpart with
              | [], _ =>
                  obtain ⟨rfl, hrest'⟩ := List.cons.inj hbytes
                  exact ih (h.flags p) (Nat.lt_of_sub_eq_succ rfl)
                    (congrArg (p.flags :: ·) hrest') hrest
              | [f], _ =>
                  obtain ⟨rfl, hbytes'⟩ := List.cons.inj hbytes
                  obtain ⟨rfl, hrest'⟩ := List.cons.inj hbytes'
                  exact ih h.second (Nat.lt_of_sub_eq_succ rfl)
                    (congrArg (p.flags :: p.x :: ·) hrest') hrest
              | [f, x], _ =>
                  obtain ⟨rfl, hbytes'⟩ := List.cons.inj hbytes
                  obtain ⟨rfl, hbytes''⟩ := List.cons.inj hbytes'
                  obtain ⟨rfl, hrest'⟩ := List.cons.inj hbytes''
                  rw [ih (h.third hplace) (by decide) hrest' hrest]
                  cases hover : p.overflow with
                  | true => simp [hover]
                  | false => simp [hover]

end Receiving

/-- For every stream of packets, with reads in between: the events that are queued are one for
each packet without an overflow bit, in order, and all of them have the displacements of their
packets just when bit 7 of every displacement repeats its sign. -/
theorem packets_decoded_iff (m : Mouse) (evs : List MouseEvent) (hm : Receiving m [] evs)
    (packets : List Packet) (as : List Arrival)
    (hbytes : bytesOf as = packets.flatMap Packet.bytes) (hroom : NeverFull m as) :
    (∃ new, delivered m as = evs ++ new ∧
        List.Forall₂ Decodes (packets.filter fun p => !p.overflow) new) ↔
      ∀ p ∈ packets, p.overflow = false → p.SignsRepeated := by
  rw [hm.delivered (by decide) hbytes hroom]
  constructor
  · intro ⟨new, hnew, hdecodes⟩ p hp hover
    rw [← List.append_cancel_left hnew, List.forall₂_map_right_iff, List.forall₂_same] at hdecodes
    exact (decodes_event_iff p).mp (hdecodes p (by simp [hp, hover]))
  · intro hsigns
    refine ⟨_, rfl, ?_⟩
    rw [List.forall₂_map_right_iff, List.forall₂_same]
    intro p hp
    obtain ⟨hp, hover⟩ := List.mem_filter.mp hp
    exact (decodes_event_iff p).mpr (hsigns p hp (by simpa using hover))

theorem receiving_boot : Receiving Mouse.boot [] [] :=
  ⟨Table.holds_nil _ (by decide), rfl, rfl⟩

/-- A step of 5 to the left and 3 up, read in between. -/
def slowPacket : Packet := ⟨0x18, 0xFB, 0x03, by decide⟩

theorem slow_decoded : ∃ new, delivered Mouse.boot
      [.byte 0x18, .read, .byte 0xFB, .byte 0x03, .read] = [] ++ new ∧
    List.Forall₂ Decodes [slowPacket] new := by
  have hroom : NeverFull Mouse.boot [.byte 0x18, .read, .byte 0xFB, .byte 0x03, .read] :=
    ⟨by decide, by decide, by decide, trivial⟩
  refine (packets_decoded_iff Mouse.boot [] receiving_boot [slowPacket] _ rfl hroom).mpr ?_
  intro p hp _
  obtain rfl := List.mem_singleton.mp hp
  exact ⟨by decide, by decide⟩

/-- A step of 200 to the right. -/
def fastPacket : Packet := ⟨0x08, 0xC8, 0x00, by decide⟩

theorem fast_not_decoded : ¬ ∃ new, delivered Mouse.boot
      [.byte 0x08, .byte 0xC8, .byte 0x00] = [] ++ new ∧
    List.Forall₂ Decodes [fastPacket] new := by
  intro ⟨new, hnew, hdecodes⟩
  have hroom : NeverFull Mouse.boot [.byte 0x08, .byte 0xC8, .byte 0x00] :=
    ⟨by decide, by decide, by decide, trivial⟩
  have hqueued := @Receiving.delivered _ _ _ receiving_boot (by decide) [fastPacket] _ rfl hroom
  obtain rfl : new = [fastPacket.event] := hnew.symm.trans hqueued
  have hsigns := (decodes_event_iff fastPacket).mp (List.forall₂_cons.mp hdecodes).1
  exact absurd hsigns.1 (by decide)

end SRos.Input
