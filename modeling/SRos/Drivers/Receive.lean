import SRos.Elf.Model
import SRos.Lib.Run
import SRos.Lib.Tiling

/-!
# Receiving packets (`src/drivers/rtl8139.c`)

The card writes packets one behind the other into a ring of 8192 bytes, and may run past its end
for the last of them. `rtl8139_handle_irq` follows with `rx_ptr`, which it sets back at 8208.
-/

namespace SRos.Drivers

open Tiling
open Elf (load16)

/-- `RTL8139_RX_BUF_SIZE` -/
def rtl8139RxBufSize : Nat := 8192 + 16

/-- The ring of the card. -/
def ringSize : Nat := 8192

def rtlIsrRok : Nat := 0x0001

/-- A packet in the ring: the header, and the bytes behind it with the CRC. -/
structure Packet where
  status : UInt16
  size : UInt16
  data : Nat → UInt8

/-- The variables of the driver, and the registers and the ring of the card. -/
structure Receiver where
  ioBase : Nat
  rxPtr : Nat
  hasPacket : Nat
  packetCount : Nat
  isr : Nat
  capr : Nat
  cbr : Nat
  rxBuf : Nat → UInt8

namespace Receiver

/-- A round of the loop of `rtl8139_handle_irq` in which `rx_ptr` is not `cbr`. -/
def handlePacket (r : Receiver) : Receiver :=
  let rxStatus := load16 r.rxBuf r.rxPtr
  let rxSize := load16 r.rxBuf (r.rxPtr + 2)
  let dataLen := u32Sub rxSize 4
  let packetCount :=
    if rxStatus &&& 0x01 ≠ 0 ∧ 0 < dataLen ∧ dataLen < 2000 then u32 (r.packetCount + 1)
    else r.packetCount
  let rxPtr := u32 (r.rxPtr + 4 + rxSize + 3) &&& 0xFFFFFFFC
  let rxPtr := if rtl8139RxBufSize ≤ rxPtr then 0 else rxPtr
  { r with packetCount, rxPtr, capr := u32Sub rxPtr 16 % 2 ^ 16 }

/-- At most `fuel` rounds of the loop, and `none` if it has not ended then. -/
def handlePackets : Nat → Receiver → Option Receiver
  | 0, _ => none
  | fuel + 1, r => if r.rxPtr = r.cbr then some r else handlePackets fuel r.handlePacket

/-- The memory does not change in the loop, and behind a round there are 8208 values of `rx_ptr`: a
longer loop does not end. -/
def handleFuel : Nat := 2 ^ 16

/-- `none` is a call that does not return. -/
def handleIrq (r : Receiver) : Option Receiver :=
  if r.ioBase = 0 then some r
  else
    let isr := r.isr
    if isr = 0 then some r
    else
      -- a bit that is written to the register is cleared
      let r := { r with isr := r.isr &&& (isr ^^^ 0xFFFF) }
      if isr &&& rtlIsrRok ≠ 0 then
        (handlePackets handleFuel r).map fun r => { r with hasPacket := 1 }
      else some r

end Receiver

/-! ## The card -/

namespace Packet

/-- The bytes of the header and behind it. -/
def byte (p : Packet) : Nat → UInt8
  | 0 => UInt8.ofNat p.status.toNat
  | 1 => UInt8.ofNat (p.status.toNat / 256)
  | 2 => UInt8.ofNat p.size.toNat
  | 3 => UInt8.ofNat (p.size.toNat / 256)
  | k + 4 => p.data k

/-- The bytes from the header to the next packet. -/
def length (p : Packet) : Nat := (4 + p.size.toNat + 3) / 4 * 4

/-- The packets that are to be counted: the length of the data is the size without the CRC. -/
def counted (p : Packet) : Bool := 1 ≤ p.size.toNat - 4 && p.size.toNat - 4 ≤ 1999

/-- The packet has been received without errors. -/
def rok (p : Packet) : Prop := p.status.toNat &&& 0x01 ≠ 0

instance (p : Packet) : Decidable p.rok := inferInstanceAs (Decidable (_ ≠ _))

end Packet

/-- The card stores a packet. -/
def Receiver.store (r : Receiver) (p : Packet) : Receiver :=
  { r with
    rxBuf := fun i =>
      if r.cbr ≤ i ∧ i < r.cbr + 4 + p.size.toNat then p.byte (i - r.cbr) else r.rxBuf i
    cbr := (r.cbr + p.length) % ringSize
    isr := r.isr ||| rtlIsrRok }

/-- The packets that have been received since the last call, and all that have been received. -/
structure NicSys where
  nic : Receiver
  pending : List Packet
  received : List Packet

inductive NicAct
  | receive (p : Packet)
  | raise (bits : Nat)
  | handleIrq

namespace NicSys

/-- The state behind `rtl8139_init`; the ring is the part of `rx_buf` that has been cleared. -/
def boot (ioBase isr : Nat) (mem : Nat → UInt8) : NicSys where
  nic := ⟨ioBase, 0, 0, 0, isr, 0, 0, fun i => if i < 0x3000 then 0 else mem i⟩
  pending := []
  received := []

def step (t : NicSys) : NicAct → Option NicSys
  | .receive p => some ⟨t.nic.store p, t.pending ++ [p], t.received ++ [p]⟩
  | .raise bits => some { t with nic := { t.nic with isr := t.nic.isr ||| bits } }
  | .handleIrq => t.nic.handleIrq.map fun nic => ⟨nic, [], t.received⟩

/-- The packets between two calls fit into the ring. -/
def okFits (t : NicSys) : NicAct → Prop
  | .receive p => p.rok ∧ total Packet.length t.pending + p.length ≤ ringSize
  | _ => True

/-- The packets between two calls do not fill the ring, and no packet runs past its end. -/
def okInside (t : NicSys) : NicAct → Prop
  | .receive p => p.rok ∧ total Packet.length t.pending + p.length < ringSize ∧
      t.nic.cbr + p.length ≤ ringSize
  | _ => True

/-- A call returns with `rx_ptr` at the register, and each packet has been counted once. -/
def Follows (t : NicSys) : Prop :=
  ∃ nic, t.nic.handleIrq = some nic ∧ nic.rxPtr = nic.cbr ∧
    nic.packetCount = u32 (t.received.countP Packet.counted)

end NicSys

section Queued

variable {r : Receiver} {p : Packet} {ps : List Packet}

theorem Packet.length_bounds (p : Packet) :
    4 + p.size.toNat ≤ p.length ∧ 4 ≤ p.length ∧ 4 ∣ p.length := by
  unfold Packet.length
  omega

/-- The header of a packet is at an offset. -/
structure HeaderAt (buf : Nat → UInt8) (a : Nat) (p : Packet) : Prop where
  status : load16 buf a = p.status.toNat
  size : load16 buf (a + 2) = p.size.toNat

theorem HeaderAt.congr {buf buf' : Nat → UInt8} {a : Nat} (h : HeaderAt buf a p)
    (heq : ∀ i, a ≤ i → i < a + 4 → buf' i = buf i) : HeaderAt buf' a p := by
  obtain ⟨hstatus, hsize⟩ := h
  constructor
  · rw [← hstatus, load16, load16, heq a (by omega) (by omega), heq (a + 1) (by omega) (by omega)]
  · rw [← hsize, load16, load16, heq (a + 2) (by omega) (by omega),
      heq (a + 2 + 1) (by omega) (by omega)]

theorem load16_of_bytes {buf : Nat → UInt8} {a : Nat} {v : UInt16}
    (h₀ : buf a = UInt8.ofNat v.toNat) (h₁ : buf (a + 1) = UInt8.ofNat (v.toNat / 256)) :
    load16 buf a = v.toNat := by
  have hlt := v.toNat_lt
  rw [load16, h₀, h₁, UInt8.toNat_ofNat', UInt8.toNat_ofNat']
  omega

theorem Receiver.store_header (r : Receiver) (p : Packet) :
    HeaderAt (r.store p).rxBuf r.cbr p := by
  have hbyte : ∀ k < 4, (r.store p).rxBuf (r.cbr + k) = p.byte k := by
    intro k hk
    unfold Receiver.store
    dsimp only
    rw [if_pos (by omega), Nat.add_sub_cancel_left]
  exact ⟨load16_of_bytes (hbyte 0 (by decide)) (hbyte 1 (by decide)),
    load16_of_bytes (hbyte 2 (by decide)) (hbyte 3 (by decide))⟩

/-- The packets that the driver has not seen yet are in the ring from `rx_ptr` on, and nothing has
been written behind the ring. -/
structure Queued (r : Receiver) (ps : List Packet) : Prop where
  start : r.rxPtr < ringSize
  aligned : 4 ∣ r.rxPtr
  room : total Packet.length ps < ringSize
  cbr : r.cbr = (r.rxPtr + total Packet.length ps) % ringSize
  headers : ∀ a p, (a, p) ∈ placed Packet.length r.rxPtr ps →
    HeaderAt r.rxBuf (a % ringSize) p ∧ a % ringSize + p.length ≤ ringSize
  tail : ∀ i, ringSize ≤ i → i < rtl8139RxBufSize → r.rxBuf i = 0

/-- Nothing is queued. -/
theorem Queued.of_nil (hptr : r.rxPtr = r.cbr) (hlt : r.cbr < ringSize) (hdvd : 4 ∣ r.cbr)
    (htail : ∀ i, ringSize ≤ i → i < rtl8139RxBufSize → r.rxBuf i = 0) : Queued r [] := by
  refine ⟨hptr ▸ hlt, hptr ▸ hdvd, (by decide : 0 < ringSize), ?_, nofun, htail⟩
  rw [total_nil, Nat.add_zero, hptr, Nat.mod_eq_of_lt hlt]

theorem Queued.store (h : Queued r ps) (hroom : total Packet.length ps + p.length < ringSize)
    (hinside : r.cbr + p.length ≤ ringSize) : Queued (r.store p) (ps ++ [p]) := by
  obtain ⟨hlow, hfour, hdvd⟩ := p.length_bounds
  have hcbr := h.cbr
  refine ⟨h.start, h.aligned, by simpa using hroom, ?_, ?_, ?_⟩
  · change (r.cbr + p.length) % ringSize = (r.rxPtr + total Packet.length (ps ++ [p])) % ringSize
    rw [hcbr, total_append, total_cons, total_nil, Nat.add_zero, Nat.mod_add_mod, Nat.add_assoc]
  · intro a q hq
    change (a, q) ∈ placed Packet.length r.rxPtr (ps ++ [p]) at hq
    rw [placed_append, List.mem_append] at hq
    rcases hq with hq | hq
    · obtain ⟨hheader, hend⟩ := h.headers a q hq
      refine ⟨hheader.congr fun i hi hi' => if_neg ?_, hend⟩
      have hrange := placed_range hq
      have hq4 := q.length_bounds.2.1
      unfold ringSize at *
      omega
    · obtain ⟨rfl, rfl⟩ := Prod.mk.inj (List.mem_singleton.mp hq)
      rw [← hcbr]
      exact ⟨r.store_header q, hinside⟩
  · intro i hi hi'
    rw [← h.tail i hi hi']
    exact if_neg (by omega)

/-- A round of the loop, given the header that it reads. -/
theorem Receiver.handlePacket_eq {status size : Nat} (hstatus : load16 r.rxBuf r.rxPtr = status)
    (hsize : load16 r.rxBuf (r.rxPtr + 2) = size) (hlt : size < 2 ^ 16)
    (hptr : r.rxPtr < rtl8139RxBufSize) :
    ∃ capr, r.handlePacket = { r with
      packetCount :=
        if status &&& 0x01 ≠ 0 ∧ 1 ≤ size - 4 ∧ size - 4 ≤ 1999 then u32 (r.packetCount + 1)
        else r.packetCount
      rxPtr :=
        if rtl8139RxBufSize ≤ (r.rxPtr + 4 + size + 3) / 4 * 4 then 0
        else (r.rxPtr + 4 + size + 3) / 4 * 4
      capr } := by
  have hptr' : r.rxPtr < 8208 := hptr
  have hnext : u32 (r.rxPtr + 4 + size + 3) &&& 0xFFFFFFFC = (r.rxPtr + 4 + size + 3) / 4 * 4 := by
    have hsum : r.rxPtr + 4 + size + 3 < 2 ^ 32 := by omega
    rw [u32_of_lt hsum]
    exact Bytes.and_highMask (show _ < 2 ^ (2 + 30) from hsum)
  have hcounted : (status &&& 0x01 ≠ 0 ∧ 0 < u32Sub size 4 ∧ u32Sub size 4 < 2000) ↔
      status &&& 0x01 ≠ 0 ∧ 1 ≤ size - 4 ∧ size - 4 ≤ 1999 := by
    unfold u32Sub u32
    omega
  unfold Receiver.handlePacket
  dsimp only
  rw [hstatus, hsize, hnext, if_congr hcounted rfl rfl]
  exact ⟨_, rfl⟩

/-- A round with a packet at `rx_ptr`. -/
theorem HeaderAt.handlePacket (h : HeaderAt r.rxBuf r.rxPtr p) (hrok : p.rok)
    (hfour : 4 ∣ r.rxPtr) (hptr : r.rxPtr < ringSize) (hend : r.rxPtr + p.length ≤ ringSize) :
    ∃ capr, r.handlePacket = { r with
      packetCount := if p.counted = true then u32 (r.packetCount + 1) else r.packetCount
      rxPtr := r.rxPtr + p.length
      capr } := by
  obtain ⟨capr, heq⟩ := Receiver.handlePacket_eq h.status h.size p.size.toNat_lt
    (hptr.trans (by decide))
  have hnext : (r.rxPtr + 4 + p.size.toNat + 3) / 4 * 4 = r.rxPtr + p.length := by
    unfold Packet.length
    omega
  have hstay : ¬ rtl8139RxBufSize ≤ r.rxPtr + p.length := by
    have hlast : r.rxPtr + p.length ≤ 8192 := hend
    unfold rtl8139RxBufSize
    omega
  have hcounted : (p.status.toNat &&& 0x01 ≠ 0 ∧ 1 ≤ p.size.toNat - 4 ∧ p.size.toNat - 4 ≤ 1999) ↔
      p.counted = true := by
    unfold Packet.counted
    rw [Bool.and_eq_true, decide_eq_true_eq, decide_eq_true_eq]
    exact and_iff_right hrok
  rw [hnext, if_neg hstay, if_congr hcounted rfl rfl] at heq
  exact ⟨capr, heq⟩

/-- A round behind the ring, where nothing has been written. -/
theorem Receiver.handlePacket_tail (htail : ∀ i, ringSize ≤ i → i < rtl8139RxBufSize → r.rxBuf i = 0)
    (hfour : 4 ∣ r.rxPtr) (hlow : ringSize ≤ r.rxPtr) (hhigh : r.rxPtr < rtl8139RxBufSize) :
    ∃ capr, r.handlePacket = { r with
      rxPtr := if rtl8139RxBufSize ≤ r.rxPtr + 4 then 0 else r.rxPtr + 4
      capr } := by
  have hlow' : 8192 ≤ r.rxPtr := hlow
  have hhigh' : r.rxPtr < 8208 := hhigh
  have hzero : ∀ k < 4, r.rxBuf (r.rxPtr + k) = 0 := fun k hk =>
    htail _ (hlow.trans (Nat.le_add_right _ _)) (by unfold rtl8139RxBufSize; omega)
  have hstatus : load16 r.rxBuf r.rxPtr = 0 := by
    rw [load16, show r.rxBuf r.rxPtr = 0 from hzero 0 (by decide), hzero 1 (by decide)]
    rfl
  have hsize : load16 r.rxBuf (r.rxPtr + 2) = 0 := by
    rw [load16, hzero 2 (by decide), show r.rxBuf (r.rxPtr + 2 + 1) = 0 from hzero 3 (by decide)]
    rfl
  obtain ⟨capr, heq⟩ := Receiver.handlePacket_eq hstatus hsize (by decide) hhigh
  have hnone : ¬ ((0 : Nat) &&& 0x01 ≠ 0 ∧ 1 ≤ 0 - 4 ∧ 0 - 4 ≤ 1999) := by decide
  rw [show (r.rxPtr + 4 + 0 + 3) / 4 * 4 = r.rxPtr + 4 by omega, if_neg hnone] at heq
  exact ⟨capr, heq⟩

theorem Receiver.handlePackets_round {fuel : Nat} (hne : r.rxPtr ≠ r.cbr) :
    r.handlePackets (fuel + 1) = r.handlePacket.handlePackets fuel := by
  rw [Receiver.handlePackets, if_neg hne]

/-- The rounds behind the ring, up to the start of it. -/
theorem Receiver.handlePackets_tail {k fuel : Nat} (hk : k ≤ 3)
    (htail : ∀ i, ringSize ≤ i → i < rtl8139RxBufSize → r.rxBuf i = 0) (hcbr : r.cbr < ringSize)
    (hptr : r.rxPtr + 4 * (k + 1) = rtl8139RxBufSize) :
    ∃ capr, r.handlePackets (fuel + (k + 1)) = { r with rxPtr := 0, capr }.handlePackets fuel := by
  have hsize : rtl8139RxBufSize = ringSize + 16 := rfl
  have hdvd : 4 ∣ ringSize := by decide
  induction k generalizing r with
  | zero =>
      obtain ⟨capr, hround⟩ := Receiver.handlePacket_tail htail (by omega) (by omega) (by omega)
      rw [Receiver.handlePackets_round (by omega), hround, if_pos hptr.ge]
      exact ⟨capr, rfl⟩
  | succ k ih =>
      obtain ⟨capr, hround⟩ := Receiver.handlePacket_tail htail (by omega) (by omega) (by omega)
      rw [← Nat.add_assoc fuel, Receiver.handlePackets_round (by omega), hround, if_neg (by omega)]
      exact @ih { r with rxPtr := r.rxPtr + 4, capr } (by omega) htail hcbr
        (by rw [← hptr]; dsimp only; omega)

/-- What is left behind a round. -/
theorem Queued.next (h : Queued r (p :: ps)) (count capr : Nat) :
    Queued { r with packetCount := count, rxPtr := (r.rxPtr + p.length) % ringSize, capr } ps := by
  have hfour := p.length_bounds
  have hroom := h.room
  have hcbr := h.cbr
  rw [total_cons] at hroom hcbr
  refine ⟨Nat.mod_lt _ (by decide), ?_, by omega, ?_, ?_, h.tail⟩
  · exact (Nat.dvd_mod_iff (by decide)).mpr (Nat.dvd_add h.aligned hfour.2.2)
  · rw [hcbr, Nat.mod_add_mod, Nat.add_assoc]
  · intro a q hq
    obtain ⟨pre, post, rfl, rfl⟩ := mem_placed_iff.mp hq
    have hmem := h.headers (r.rxPtr + total Packet.length (p :: pre)) q
      (mem_placed_iff.mpr ⟨p :: pre, post, rfl, rfl⟩)
    dsimp only
    rwa [Nat.mod_add_mod, Nat.add_assoc, ← total_cons]

/-- The rounds for the first packet: one for it, and four more if it ends at the end of the ring. -/
theorem Queued.handlePackets_packet (h : Queued r (p :: ps)) (hrok : p.rok) (fuel : Nat) :
    ∃ capr fuel', fuel ≤ fuel' ∧ r.handlePackets (fuel + 5) = { r with
      packetCount := if p.counted = true then u32 (r.packetCount + 1) else r.packetCount
      rxPtr := (r.rxPtr + p.length) % ringSize
      capr }.handlePackets fuel' := by
  have hlength := p.length_bounds
  have hroom := h.room
  have hcbr := h.cbr
  have hstart := h.start
  rw [total_cons] at hroom hcbr
  have hne : r.rxPtr ≠ r.cbr := by
    unfold ringSize at *
    omega
  have hlt : r.cbr < ringSize := hcbr ▸ Nat.mod_lt _ (by decide)
  obtain ⟨hheader, hend⟩ := h.headers r.rxPtr p (by simp)
  rw [Nat.mod_eq_of_lt hstart] at hheader hend
  obtain ⟨capr, hround⟩ := hheader.handlePacket hrok h.aligned hstart hend
  generalize (if p.counted = true then u32 (r.packetCount + 1) else r.packetCount) = count
    at hround ⊢
  rw [Receiver.handlePackets_round hne, hround]
  rcases Nat.lt_or_eq_of_le hend with hinside | hwrap
  · rw [Nat.mod_eq_of_lt hinside]
    exact ⟨capr, fuel + 4, Nat.le_add_right fuel 4, rfl⟩
  · obtain ⟨capr', htail⟩ := @Receiver.handlePackets_tail
      { r with packetCount := count, rxPtr := r.rxPtr + p.length, capr } 3 fuel (le_refl 3) h.tail
      hlt (by rw [hwrap]; rfl)
    rw [hwrap, Nat.mod_self]
    exact ⟨capr', fuel, le_refl fuel, by rw [hwrap] at htail; exact htail⟩

/-- Counting a packet, and then the ones behind it. -/
theorem u32_count_cons (n : Nat) (p : Packet) (ps : List Packet) :
    u32 ((if p.counted = true then u32 (n + 1) else n) + ps.countP Packet.counted) =
      u32 (n + (p :: ps).countP Packet.counted) := by
  rw [List.countP_cons]
  unfold u32
  split <;> omega

/-- The loop takes the packets that are queued, and ends at the register. -/
theorem Queued.handlePackets (h : Queued r ps) (hrok : ∀ p ∈ ps, p.rok)
    (hcount : r.packetCount < 2 ^ 32) {fuel : Nat} (hfuel : 5 * ps.length < fuel) :
    ∃ capr, r.handlePackets fuel = some { r with
      packetCount := u32 (r.packetCount + ps.countP Packet.counted)
      rxPtr := r.cbr
      capr } := by
  induction ps generalizing r fuel with
  | nil =>
      obtain ⟨fuel, rfl⟩ := Nat.exists_eq_add_of_lt hfuel
      have hcbr := h.cbr
      rw [total_nil, Nat.add_zero, Nat.mod_eq_of_lt h.start] at hcbr
      refine ⟨r.capr, ?_⟩
      rw [List.length_nil, Nat.mul_zero, Nat.zero_add, Receiver.handlePackets, if_pos hcbr.symm,
        List.countP_nil, Nat.add_zero, u32_of_lt hcount]
      cases r
      cases hcbr
      rfl
  | cons p ps ih =>
      rw [List.length_cons] at hfuel
      obtain ⟨fuel, rfl⟩ : ∃ n, fuel = n + 5 := ⟨fuel - 5, by omega⟩
      obtain ⟨capr, fuel', hle, hrounds⟩ :=
        h.handlePackets_packet (hrok p List.mem_cons_self) fuel
      have hcount' : (if p.counted = true then u32 (r.packetCount + 1) else r.packetCount) <
          2 ^ 32 := by
        split
        · exact Nat.mod_lt _ (by decide)
        · exact hcount
      have hfuel' : 5 * ps.length < fuel' := by omega
      have hsum := u32_count_cons r.packetCount p ps
      generalize (if p.counted = true then u32 (r.packetCount + 1) else r.packetCount) = count
        at hrounds hcount' hsum
      obtain ⟨capr', hrest⟩ := ih (h.next count capr)
        (fun q hq => hrok q (List.mem_cons_of_mem p hq)) hcount' hfuel'
      refine ⟨capr', ?_⟩
      rw [hrounds, hrest, ← hsum]

end Queued

namespace NicSys

variable {t t' : NicSys} {a : NicAct}

/-- The packets that are pending are queued in the ring, and the others have been counted. -/
structure Inv (t : NicSys) : Prop where
  ioBase : t.nic.ioBase ≠ 0
  queued : Queued t.nic t.pending
  rok : ∀ p ∈ t.pending, p.rok
  isr : t.pending ≠ [] → t.nic.isr &&& rtlIsrRok ≠ 0
  count : t.nic.packetCount < 2 ^ 32
  counted : u32 (t.nic.packetCount + t.pending.countP Packet.counted) =
    u32 (t.received.countP Packet.counted)

theorem boot_inv {ioBase : Nat} (hio : ioBase ≠ 0) (isr : Nat) (mem : Nat → UInt8) :
    Inv (boot ioBase isr mem) where
  ioBase := hio
  queued := by
    refine .of_nil rfl (by decide : 0 < ringSize) (Nat.dvd_zero 4) fun i _ hi => ?_
    exact if_pos (hi.trans (by decide))
  rok := nofun
  isr h := absurd rfl h
  count := (by decide : 0 < 2 ^ 32)
  counted := rfl

theorem and_or_rok {x y : Nat} (h : x &&& rtlIsrRok ≠ 0 ∨ y &&& rtlIsrRok ≠ 0) :
    (x ||| y) &&& rtlIsrRok ≠ 0 := by
  unfold rtlIsrRok at *
  rw [Nat.and_or_distrib_right]
  intro hzero
  obtain ⟨hx, hy⟩ := Nat.or_eq_zero_iff.mp hzero
  exact h.elim (absurd hx) (absurd hy)

/-- A call while nothing is pending, which may only write to the register. -/
theorem Inv.idle (h : Inv t) (hnil : t.pending = []) (isr : Nat) :
    t.nic.rxPtr = t.nic.cbr ∧ t.nic.packetCount = u32 (t.received.countP Packet.counted) ∧
      Inv ⟨{ t.nic with isr }, [], t.received⟩ := by
  obtain ⟨hio, hqueued, -, -, hcount, hcounted⟩ := h
  rw [hnil] at hqueued hcounted
  have hcbr := hqueued.cbr
  rw [total_nil, Nat.add_zero, Nat.mod_eq_of_lt hqueued.start] at hcbr
  rw [List.countP_nil, Nat.add_zero, u32_of_lt hcount] at hcounted
  refine ⟨hcbr.symm, hcounted, hio, ?_, nofun, fun hne => absurd rfl hne, hcount, ?_⟩
  · exact ⟨hqueued.start, hqueued.aligned, hqueued.room, hqueued.cbr, hqueued.headers, hqueued.tail⟩
  · change u32 (t.nic.packetCount + 0) = _
    rw [Nat.add_zero, u32_of_lt hcount, hcounted]

/-- The call takes the packets that are pending. -/
theorem Inv.handlePackets (h : Inv t) (isr : Nat) :
    ∃ nic, Receiver.handlePackets Receiver.handleFuel { t.nic with isr } = some nic ∧ nic.rxPtr = nic.cbr ∧
      nic.packetCount = u32 (t.received.countP Packet.counted) ∧
      Inv ⟨{ nic with hasPacket := 1 }, [], t.received⟩ := by
  obtain ⟨hio, hqueued, hrok, -, hcount, hcounted⟩ := h
  have hlength := mul_length_le_total fun (p : Packet) (_ : p ∈ t.pending) => p.length_bounds.2.1
  have hroom : total Packet.length t.pending < 8192 := hqueued.room
  have hqueued' : Queued { t.nic with isr } t.pending :=
    ⟨hqueued.start, hqueued.aligned, hqueued.room, hqueued.cbr, hqueued.headers, hqueued.tail⟩
  obtain ⟨capr, heq⟩ := @Queued.handlePackets _ _ hqueued' hrok hcount Receiver.handleFuel
    (by unfold Receiver.handleFuel; omega)
  have hlt : t.nic.cbr < ringSize := hqueued.cbr ▸ Nat.mod_lt _ (by decide)
  have hdvd : 4 ∣ t.nic.cbr := by
    rw [hqueued.cbr]
    exact (Nat.dvd_mod_iff (by decide)).mpr (Nat.dvd_add hqueued.aligned
      (dvd_total fun (p : Packet) (_ : p ∈ t.pending) => p.length_bounds.2.2))
  refine ⟨_, heq, rfl, hcounted, hio, .of_nil rfl hlt hdvd hqueued.tail, nofun,
    fun hne => absurd rfl hne, Nat.mod_lt _ (by decide), ?_⟩
  · change u32 (u32 _ + 0) = _
    rw [Nat.add_zero, hcounted]
    exact Nat.mod_mod _ _

/-- What a call does with the packets that are pending. -/
theorem Inv.handleIrq (h : Inv t) : ∃ nic, t.nic.handleIrq = some nic ∧ nic.rxPtr = nic.cbr ∧
    nic.packetCount = u32 (t.received.countP Packet.counted) ∧ Inv ⟨nic, [], t.received⟩ := by
  have hnone : t.nic.isr &&& rtlIsrRok = 0 → t.pending = [] := fun hzero => by
    by_contra hne
    exact h.isr hne hzero
  unfold Receiver.handleIrq
  rw [if_neg h.ioBase]
  dsimp only
  split
  · next hzero => exact ⟨_, rfl, h.idle (hnone (by rw [hzero, Nat.zero_and])) t.nic.isr⟩
  · split
    · obtain ⟨nic, heq, hptr, hcount, hinv⟩ := h.handlePackets (t.nic.isr &&& (t.nic.isr ^^^ 0xFFFF))
      rw [heq]
      exact ⟨_, rfl, hptr, hcount, hinv⟩
    · next hrok => exact ⟨_, rfl, h.idle (hnone (not_ne_iff.mp hrok)) _⟩

theorem Inv.step (h : Inv t) (hok : t.okInside a) (hs : t.step a = some t') : Inv t' := by
  cases a with
  | receive p =>
      obtain rfl := Option.some.inj hs
      obtain ⟨hrok, hroom, hinside⟩ := hok
      refine ⟨h.ioBase, h.queued.store hroom hinside, ?_, ?_, h.count, ?_⟩
      · intro q hq
        rcases List.mem_append.mp hq with hq | hq
        · exact h.rok q hq
        · rwa [List.mem_singleton.mp hq]
      · exact fun _ => and_or_rok (Or.inr (by decide))
      · have hcounted := h.counted
        dsimp only
        rw [List.countP_append, List.countP_append]
        unfold u32 at hcounted ⊢
        change (t.nic.packetCount + _) % _ = _
        omega
  | raise bits =>
      obtain rfl := Option.some.inj hs
      exact ⟨h.ioBase, ⟨h.queued.start, h.queued.aligned, h.queued.room, h.queued.cbr,
        h.queued.headers, h.queued.tail⟩, h.rok, fun hne => and_or_rok (Or.inl (h.isr hne)), h.count,
        h.counted⟩
  | handleIrq =>
      obtain ⟨nic, hnic, -, -, hinv⟩ := h.handleIrq
      obtain ⟨nic', hnic', rfl⟩ := Option.map_eq_some_iff.mp hs
      obtain rfl := Option.some.inj (hnic.symm.trans hnic')
      exact hinv

/-- In every run behind `rtl8139_init` in which the card receives packets, none of which runs past
the end of the ring and which do not fill the ring between two calls, in which other interrupts
occur and `rtl8139_handle_irq` is called: a call returns with `rx_ptr` at the register, and each
packet with a data length of 1 to 1999 has been counted once. -/
theorem follows_inside {ioBase isr : Nat} {mem : Nat → UInt8} (hio : ioBase ≠ 0)
    (h : Reach NicSys.step okInside (boot ioBase isr mem) t) : Follows t := by
  have hinv := h.invariant (boot_inv hio isr mem) fun _ _ _ hinv hok hs => hinv.step hok hs
  obtain ⟨nic, hnic, hptr, hcount, -⟩ := hinv.handleIrq
  exact ⟨nic, hnic, hptr, hcount⟩

/-- A packet without errors. -/
def goodPacket (size : UInt16) : Packet := ⟨1, size, fun _ => 0⟩

/-- Packets up to the end of the ring, and one at its start. -/
theorem follows_inside_wrap : ∃ t, Reach NicSys.step okInside (boot 0xC000 0 fun _ => 0) t ∧
    t.received.map Packet.size = [4092, 4092, 64] ∧ Follows t := by
  have hrun : ((some (boot 0xC000 0 fun _ => 0)).bind (runList NicSys.step
      (fun t a => match a with
        | .receive p => decide (p.rok ∧ total Packet.length t.pending + p.length < ringSize ∧
            t.nic.cbr + p.length ≤ ringSize)
        | _ => true)
      [.receive (goodPacket 4092), .handleIrq, .receive (goodPacket 4092),
        .receive (goodPacket 64)])).any
      (fun t => t.received.map Packet.size == [4092, 4092, 64]) = true := by
    decide +kernel
  obtain ⟨t₀, t, ht₀, hreach, htest⟩ := Reach.exists_of_runList hrun
  obtain rfl := Option.some.inj ht₀
  have hinside := @Reach.mono _ _ _ _ okInside _ _ hreach fun t a hok => by
    cases a with
    | receive p =>
        exact (of_decide_eq_true hok : p.rok ∧
          total Packet.length t.pending + p.length < ringSize ∧ t.nic.cbr + p.length ≤ ringSize)
    | raise bits => trivial
    | handleIrq => trivial
  exact ⟨t, hinside, by simpa using htest, follows_inside (by decide) hinside⟩

/-- Six packets of usual sizes, and one that runs past the end of the ring: `rx_ptr` is set back to
the start of the ring, where the first packet is counted again. -/
theorem not_follows_past_end : ∃ t, Reach NicSys.step okFits (boot 0xC000 0 fun _ => 0) t ∧
    ¬ Follows t := by
  have hrun : ((some (boot 0xC000 0 fun _ => 0)).bind (runList NicSys.step
      (fun t a => match a with
        | .receive p => decide (p.rok ∧ total Packet.length t.pending + p.length ≤ ringSize)
        | _ => true)
      [.receive (goodPacket 60), .receive (goodPacket 1518), .receive (goodPacket 1518),
        .receive (goodPacket 1518), .receive (goodPacket 1518), .receive (goodPacket 1518),
        .handleIrq, .receive (goodPacket 568)])).any
      (fun t => t.nic.handleIrq.any fun nic =>
        nic.packetCount != u32 (t.received.countP Packet.counted)) = true := by
    decide +kernel
  obtain ⟨t₀, t, ht₀, hreach, htest⟩ := Reach.exists_of_runList hrun
  obtain rfl := Option.some.inj ht₀
  refine ⟨t, hreach.mono fun t a hok => ?_, fun ⟨nic, hnic, _, hcount⟩ => ?_⟩
  · cases a with
    | receive p =>
        exact (of_decide_eq_true hok : p.rok ∧
          total Packet.length t.pending + p.length ≤ ringSize)
    | raise bits => trivial
    | handleIrq => trivial
  · rw [hnic] at htest
    exact absurd hcount (by simpa using htest)

end NicSys

end SRos.Drivers
