import SRos.Ipc.Abstract
import SRos.Lib.RingBuffer

/-!
# Message queues

Every queue is a bounded first-in first-out buffer of the messages deposited in it, whichever
task runs at each step: the runs here give the processor to an arbitrary task, also to one that
nobody has woken.
-/

namespace SRos

/-- The message queue call a task is in. -/
def Pc.mqRef : Pc → Option (Int × Fin maxMsgQueues)
  | .send id j _ _ | .sendInt id j _ _ | .sendAgain id j _ _ | .recv id j | .recvInt id j
  | .recvAgain id j => some (id, j)
  | _ => none

/-- The messages deposited in the queue `id`, in order. -/
def deposits (log : List Event) (id : Int) : List (List UInt8) :=
  log.filterMap fun e => match e with
    | .deposited id' bytes => if id' = id then some bytes else none
    | _ => none

/-- The messages received from the queue `id`, in order. -/
def receipts (log : List Event) (id : Int) : List (List UInt8) :=
  log.filterMap fun e => match e with
    | .received id' bytes => if id' = id then some bytes else none
    | _ => none

/-- The message queue an event belongs to. -/
def Event.mq : Event → Option Int
  | .mqCreated id | .deposited id _ | .received id _ => some id
  | _ => none

/-- The events of a call on the queue `id` that wakes tasks. -/
theorem Event.mq_woken {id : Int} {e : Event} {ts : List Slot} {w : Waker} (he : e.mq = some id)
    (hne : e ≠ .mqCreated id) :
    ∀ x ∈ e :: ts.map fun t => .woken t w, (x.mq = none ∨ x.mq = some id) ∧ x ≠ .mqCreated id := by
  intro x hx
  rcases List.mem_cons.mp hx with rfl | hx
  · exact ⟨.inr he, hne⟩
  · obtain ⟨t, -, rfl⟩ := List.mem_map.mp hx
    exact ⟨.inl rfl, by simp⟩

theorem deposits_append {id : Int} {es : List Event} (log : List Event)
    (h : ∀ e ∈ es, e.mq ≠ some id) : deposits (log ++ es) id = deposits log id := by
  unfold deposits
  rw [List.filterMap_append, List.append_right_eq_self, List.filterMap_eq_nil_iff]
  intro e he
  have := h e he
  cases e <;> simp_all [Event.mq]

theorem receipts_append {id : Int} {es : List Event} (log : List Event)
    (h : ∀ e ∈ es, e.mq ≠ some id) : receipts (log ++ es) id = receipts log id := by
  unfold receipts
  rw [List.filterMap_append, List.append_right_eq_self, List.filterMap_eq_nil_iff]
  intro e he
  have := h e he
  cases e <;> simp_all [Event.mq]

namespace Ring

/-- The messages in the ring, oldest first. -/
def contents (r : Ring) : List (List UInt8) :=
  (RingBuffer.contents msgQueueSize r.msgs r.head r.count).map Message.bytes

structure Ok (r : Ring) : Prop where
  count : r.count ≤ msgQueueSize
  head : r.head < msgQueueSize
  tail : r.tail = (r.head + r.count) % msgQueueSize

variable {r : Ring}

theorem ok_empty (id : Int) (msgs : Nat → Message) : Ok ⟨id, msgs, 0, 0, 0⟩ := by
  constructor <;> simp [msgQueueSize]

theorem Ok.deposit (h : r.Ok) (hroom : r.count < msgQueueSize) (data : Nat → UInt8) (len : Nat) :
    (r.deposit data len).Ok where
  count := hroom
  head := h.head
  tail := by
    change (r.tail + 1) % msgQueueSize = (r.head + (r.count + 1)) % msgQueueSize
    rw [h.tail, Nat.mod_add_mod, Nat.add_assoc]

theorem Ok.remove (h : r.Ok) (hmsg : r.count ≠ 0) : r.remove.Ok where
  count := by
    have := h.count
    change r.count - 1 ≤ msgQueueSize
    omega
  head := Nat.mod_lt _ (by decide)
  tail := by
    change r.tail = ((r.head + 1) % msgQueueSize + (r.count - 1)) % msgQueueSize
    rw [h.tail, Nat.mod_add_mod]
    congr 1
    omega

private theorem bytes_memcpy (dst data : Nat → UInt8) (len : Nat) :
    Message.bytes ⟨len, memcpy dst data len⟩ = (List.range len).map data := by
  apply List.map_congr_left
  intro k hk
  exact if_pos (List.mem_range.mp hk)

theorem contents_deposit (h : r.Ok) (hroom : r.count < msgQueueSize) (data : Nat → UInt8)
    (len : Nat) :
    (r.deposit data len).contents = r.contents ++ [(List.range len).map data] := by
  change (RingBuffer.contents msgQueueSize (Function.update r.msgs r.tail _) r.head
    (r.count + 1)).map Message.bytes = _
  rw [h.tail, RingBuffer.contents_push hroom, List.map_append, List.map_singleton, bytes_memcpy]
  rfl

theorem contents_remove (h : r.Ok) (hmsg : r.count ≠ 0) :
    r.contents = (r.msgs r.head).bytes :: r.remove.contents := by
  unfold contents
  rw [RingBuffer.contents_pop h.head hmsg]
  rfl

end Ring

/-- The message queues, the calls under way on them, and what has been sent and received. -/
structure MqOk (o : Objects) (pc : Slot → Pc) (log : List Event) : Prop where
  count : 0 ≤ o.mqCount
  idLt : ∀ j, (o.ring j).id < o.mqCount
  idInj : ∀ j k, 0 ≤ (o.ring j).id → (o.ring j).id = (o.ring k).id → j = k
  ring : ∀ j, (o.ring j).Ok
  calls : ∀ t id j, (pc t).mqRef = some (id, j) → 0 ≤ id ∧ (o.ring j).id = id
  fresh : ∀ id, o.mqCount ≤ id → ∀ e ∈ log, e.mq ≠ some id
  ledger : ∀ id, .mqCreated id ∈ log → ∃ j, 0 ≤ id ∧ (o.ring j).id = id ∧
    deposits log id = receipts log id ++ (o.ring j).contents

namespace MqOk

variable {o o' : Objects} {pc pc' : Slot → Pc} {log es : List Event}

theorem issued (h : MqOk o pc log) : Issued (Ring.id ∘ o.ring) o.mqCount := ⟨h.idLt, h.idInj⟩

/-- A step that is not about message queues. -/
theorem frame (h : MqOk o pc log) (hring : o'.ring = o.ring) (hn : o'.mqCount = o.mqCount)
    (hes : ∀ e ∈ es, e.mq = none)
    (hcalls : ∀ t id j, (pc' t).mqRef = some (id, j) → 0 ≤ id ∧ (o.ring j).id = id) :
    MqOk o' pc' (log ++ es) where
  count := by rw [hn]; exact h.count
  idLt := by rw [hring, hn]; exact h.idLt
  idInj := by rw [hring]; exact h.idInj
  ring := by rw [hring]; exact h.ring
  calls := by rw [hring]; exact hcalls
  fresh := by
    intro id hlt e he
    rcases List.mem_append.mp he with he | he
    · exact h.fresh id (hn ▸ hlt) e he
    · simp [hes e he]
  ledger := by
    intro id hmem
    have hnone : ∀ e ∈ es, e.mq ≠ some id := fun e he => by simp [hes e he]
    rcases List.mem_append.mp hmem with hmem | hmem
    · rw [hring, deposits_append _ hnone, receipts_append _ hnone]
      exact h.ledger id hmem
    · have := hes _ hmem
      cases this

/-- A step of a call on the queue `id` in slot `j`. -/
theorem act {j : Fin maxMsgQueues} {id : Int} {r : Ring} (h : MqOk o pc log) (h₀ : 0 ≤ id)
    (hj : (o.ring j).id = id) (hid : r.id = id) (hr : r.Ok)
    (hes : ∀ e ∈ es, (e.mq = none ∨ e.mq = some id) ∧ e ≠ .mqCreated id)
    (hcalls : ∀ t id j, (pc' t).mqRef = some (id, j) → 0 ≤ id ∧ (o.ring j).id = id)
    (hled : deposits log id = receipts log id ++ (o.ring j).contents →
      deposits (log ++ es) id = receipts (log ++ es) id ++ r.contents) :
    MqOk { o with ring := Function.update o.ring j r } pc' (log ++ es) := by
  have hids : ∀ k, (Function.update o.ring j r k).id = (o.ring k).id := by
    intro k
    by_cases hk : k = j
    · subst hk; simp [hid, hj]
    · simp [hk]
  constructor
  · exact h.count
  · intro k
    rw [hids]
    exact h.idLt k
  · intro k l
    rw [hids, hids]
    exact h.idInj k l
  · intro k
    by_cases hk : k = j
    · subst hk; simpa using hr
    · simpa [hk] using h.ring k
  · intro t id' k ht
    rw [hids]
    exact hcalls t id' k ht
  · intro id' hlt e he
    rcases List.mem_append.mp he with he | he
    · exact h.fresh id' hlt e he
    · have hne : id ≠ id' := by
        have := h.idLt j
        change o.mqCount ≤ id' at hlt
        omega
      rcases (hes e he).1 with hs | hs <;> simp [hs, hne]
  · intro id' hmem
    have hold : .mqCreated id' ∈ log := by
      rcases List.mem_append.mp hmem with hmem | hmem
      · exact hmem
      · obtain ⟨hs, hne⟩ := hes _ hmem
        have hid' : id' = id := by simpa [Event.mq] using hs
        exact absurd (by rw [hid']) hne
    obtain ⟨k, h₀', hk, hl⟩ := h.ledger id' hold
    refine ⟨k, h₀', by rw [hids]; exact hk, ?_⟩
    by_cases hkj : k = j
    · subst hkj
      have heq : id' = id := hk.symm.trans hj
      subst heq
      simpa using hled hl
    · have hne : id ≠ id' := by
        intro heq
        exact hkj (h.idInj k j (by omega) (by omega))
      have hnone : ∀ e ∈ es, e.mq ≠ some id' := by
        intro e he
        rcases (hes e he).1 with hs | hs <;> simp [hs, hne]
      rw [deposits_append _ hnone, receipts_append _ hnone]
      simpa [hkj] using hl

/-- A new queue in the free slot `j`. -/
theorem create {j : Fin maxMsgQueues} {msgs : Nat → Message} (h : MqOk o pc log)
    (hfree : (o.ring j).id < 0) :
    MqOk { o with
      ring := Function.update o.ring j ⟨o.mqCount, msgs, 0, 0, 0⟩, mqCount := o.mqCount + 1 } pc
      (log ++ [.mqCreated o.mqCount]) := by
  have hcount := h.count
  have hfresh := h.fresh o.mqCount le_rfl
  have hother : ∀ {k : Fin maxMsgQueues}, 0 ≤ (o.ring k).id → k ≠ j := by
    rintro k hk rfl
    omega
  have hids : Issued (Ring.id ∘ Function.update o.ring j ⟨o.mqCount, msgs, 0, 0, 0⟩)
      (o.mqCount + 1) := by
    rw [Function.comp_update]
    exact h.issued.issue j
  constructor
  · change 0 ≤ o.mqCount + 1
    omega
  · exact hids.lt
  · exact hids.inj
  · intro k
    by_cases hkj : k = j
    · subst hkj
      simpa using Ring.ok_empty _ _
    · simpa [hkj] using h.ring k
  · intro t id k ht
    obtain ⟨h₀, hid⟩ := h.calls t id k ht
    have hkj : k ≠ j := hother (by omega)
    exact ⟨h₀, by simpa [hkj] using hid⟩
  · intro id hlt e he
    change o.mqCount + 1 ≤ id at hlt
    rcases List.mem_append.mp he with he | he
    · exact h.fresh id (by omega) e he
    · rw [List.mem_singleton.mp he]
      simp only [Event.mq, ne_eq, Option.some.injEq]
      omega
  · intro id hmem
    rcases List.mem_append.mp hmem with hmem | hmem
    · obtain ⟨k, h₀, hid, hl⟩ := h.ledger id hmem
      have hlt := h.idLt k
      have hkj : k ≠ j := hother (by omega)
      have hnone : ∀ e ∈ [Event.mqCreated o.mqCount], e.mq ≠ some id := by
        simp only [List.mem_singleton, forall_eq, Event.mq, ne_eq, Option.some.injEq]
        omega
      refine ⟨k, h₀, by simpa [hkj] using hid, ?_⟩
      rw [deposits_append _ hnone, receipts_append _ hnone]
      simpa [hkj] using hl
    · obtain rfl : id = o.mqCount := by simpa using hmem
      have hdep : deposits log o.mqCount = [] := by
        rw [← List.nil_append log, deposits_append [] hfresh]
        rfl
      have hrec : receipts log o.mqCount = [] := by
        rw [← List.nil_append log, receipts_append [] hfresh]
        rfl
      refine ⟨j, hcount, by simp, ?_⟩
      simp only [deposits, receipts] at hdep hrec
      simp [deposits, receipts, hdep, hrec, Ring.contents]

theorem calls_setPc {c : Slot} {p : Pc} (h : MqOk o pc log)
    (hp : ∀ id j, p.mqRef = some (id, j) → 0 ≤ id ∧ (o.ring j).id = id) (t : Slot)
    (id : Int) (j : Fin maxMsgQueues) (ht : (Function.update pc c p t).mqRef = some (id, j)) :
    0 ≤ id ∧ (o.ring j).id = id := by
  by_cases htc : t = c
  · subst htc
    exact hp id j (by simpa using ht)
  · exact h.calls t id j (by simpa [htc] using ht)

/-- A task moves to another point of the kernel code. -/
theorem move {c : Slot} {p : Pc} (h : MqOk o pc log) (hring : o'.ring = o.ring)
    (hn : o'.mqCount = o.mqCount) (hes : ∀ e ∈ es, e.mq = none)
    (hp : ∀ id j, p.mqRef = some (id, j) → 0 ≤ id ∧ (o.ring j).id = id) :
    MqOk o' (Function.update pc c p) (log ++ es) :=
  h.frame hring hn hes (h.calls_setPc hp)

/-- A task moves, with nothing to log. -/
theorem move_quiet {c : Slot} {p : Pc} (h : MqOk o pc log) (hring : o'.ring = o.ring)
    (hn : o'.mqCount = o.mqCount)
    (hp : ∀ id j, p.mqRef = some (id, j) → 0 ≤ id ∧ (o.ring j).id = id) :
    MqOk o' (Function.update pc c p) log := by
  have hmove : MqOk o' (Function.update pc c p) (log ++ []) := h.move hring hn (by simp) hp
  rwa [List.append_nil] at hmove

end MqOk

/-! ## Steps -/

theorem rings_semPostSection {i : Fin maxSems} {woken : Option Slot} {k k' : Kernel}
    (h : semPostSection i k = some (woken, k')) :
    k'.objects.ring = k.objects.ring ∧ k'.objects.mqCount = k.objects.mqCount := by
  have hwake := objects_wakeFirst k (.sem i)
  unfold semPostSection at h
  split at h
  · next hw =>
      rw [hw] at hwake
      cases h
      exact ⟨by rw [← hwake], by rw [← hwake]⟩
  · next hw =>
      rw [hw] at hwake
      simp only [Option.pure_def, Option.bind_eq_bind, Option.bind_eq_some_iff,
        Option.some.injEq, Prod.mk.injEq] at h
      obtain ⟨v, -, -, rfl⟩ := h
      exact ⟨by rw [← hwake, objects_setValue], by rw [← hwake, objects_setValue]⟩

theorem rings_semDestroy {id r : Int} {woken : List Slot} {k k' : Kernel}
    (h : semDestroy id k = some (r, woken, k')) :
    k'.objects.ring = k.objects.ring ∧ k'.objects.mqCount = k.objects.mqCount := by
  unfold semDestroy at h
  split at h
  · cases h
    exact ⟨rfl, rfl⟩
  · split at h
    · cases h
      exact ⟨rfl, rfl⟩
    · simp only [Option.pure_def, Option.bind_eq_bind, Option.bind_eq_some_iff,
        Option.some.injEq, Prod.mk.injEq, Prod.exists] at h
      obtain ⟨ts, k', hd, -, -, rfl⟩ := h
      exact ⟨by rw [objects_setSem, objects_drain hd], by rw [objects_setSem, objects_drain hd]⟩

namespace Sys

variable {s s' : Sys} {a : Act} {c : Slot}

/-- The state of the message queues. -/
def MqInv (s : Sys) : Prop := MqOk s.kernel.objects s.pc s.log

namespace MqInv

private theorem tick {regs : Nat} (h : s.MqInv) (ht : s.tick regs = some s') : s'.MqInv := by
  obtain ⟨f, sched, -, rfl⟩ := tick_eq ht
  exact h

private theorem spawn {r : Option (Int × Sched)} (h : s.MqInv) (hs : s.spawn r = some s') :
    s'.MqInv := by
  obtain ⟨x, sched, -, rfl⟩ := spawn_eq hs
  refine { h with calls := ?_ }
  intro t id j ht
  dsimp only at ht
  split at ht
  · cases ht
  · exact h.calls t id j ht

private theorem waitPass (h : s.MqInv) (pid : Int) : (s.waitPass c pid).MqInv := by
  unfold Sys.waitPass
  split
  · exact h.move_quiet rfl rfl (by simp [Pc.mqRef])
  · exact h.move_quiet rfl rfl (by simp [Pc.mqRef])

/-- The running task blocks. -/
private theorem block {q : WaitQ} {id : Int} {p : Pc} (h : s.MqInv)
    (hp : ∀ id j, p.mqRef = some (id, j) → 0 ≤ id ∧ (s.kernel.objects.ring j).id = id) :
    ((Sys.setPc ⟨blockOn q c s.kernel, s.pc, s.log⟩ c p).emit [.slept c q id]).MqInv := by
  have hobj := objects_blockOn s.kernel q c
  exact h.move (congrArg Objects.ring hobj) (congrArg Objects.mqCount hobj) (by simp [Event.mq]) hp

private theorem semWait {id : Int} {i : Fin maxSems} (h : s.MqInv) :
    (s.semWaitStep c id i).MqInv := by
  unfold semWaitStep semWaitSection
  by_cases hv : (s.kernel.sems i).value > 0
  · simp only [hv, if_true]
    exact h.move rfl rfl (by simp [Event.mq]) (by simp [Pc.mqRef])
  · simp only [hv, if_false]
    exact h.block (by simp [Pc.mqRef])

private theorem semPost {id : Int} {i : Fin maxSems} (h : s.MqInv)
    (hs : s.semPostStep c id i = some s') : s'.MqInv := by
  unfold semPostStep at hs
  simp only [Option.pure_def, Option.bind_eq_bind, Option.bind_eq_some_iff, Option.some.injEq,
    Prod.exists] at hs
  obtain ⟨woken, k, hpost, rfl⟩ := hs
  have hobj := rings_semPostSection hpost
  apply h.move hobj.1 hobj.2
  · intro e he
    rcases List.mem_cons.mp he with rfl | he
    · rfl
    · obtain ⟨t, -, rfl⟩ := List.mem_map.mp he
      rfl
  · simp [Pc.mqRef]

private theorem semCreate {name : Option CStr} {v id : Int} {k : Kernel} (h : s.MqInv)
    (hk : semCreate name v s.kernel = some (id, k)) :
    ({ s with kernel := k }.emit (if id < 0 then [] else [.semCreated id v])).MqInv := by
  have hes : ∀ e ∈ (if id < 0 then [] else [Event.semCreated id v]), e.mq = none := by
    intro e he
    split at he <;> simp_all [Event.mq]
  rcases semCreate_cases hk with ⟨-, -, rfl⟩ | ⟨i, nm, -, -, rfl⟩
  · exact MqOk.frame h rfl rfl hes h.calls
  · exact MqOk.frame h rfl rfl hes h.calls

private theorem semDestroy {id r : Int} {woken : List Slot} {k : Kernel} (h : s.MqInv)
    (hk : semDestroy id s.kernel = some (r, woken, k)) :
    ({ s with kernel := k }.emit (woken.map fun t => .woken t (.semDestroy id))).MqInv := by
  have hobj := rings_semDestroy hk
  refine MqOk.frame h hobj.1 hobj.2 ?_ h.calls
  intro e he
  obtain ⟨t, -, rfl⟩ := List.mem_map.mp he
  rfl

private theorem mqCreate {id : Int} {k : Kernel} (h : s.MqInv)
    (hk : msgQueueCreate s.kernel = some (id, k)) :
    ({ s with kernel := k }.emit (if id < 0 then [] else [.mqCreated id])).MqInv := by
  rcases msgQueueCreate_cases hk with ⟨-, rfl, rfl⟩ | ⟨j, hj, rfl, rfl⟩
  · exact MqOk.frame h rfl rfl (by simp) h.calls
  · have hfree : (s.kernel.mqs j).id < 0 := by simpa using List.find?_some hj
    have hcount : ¬ s.kernel.mqCount < 0 := Int.not_lt.mpr h.count
    rw [if_neg hcount]
    unfold MqInv
    simp only [Sys.emit, Kernel.objects, comp_update s.kernel.mqs j _ MsgQueue.ring]
    exact h.create hfree

private theorem send {id : Int} {j : Fin maxMsgQueues} {data : Nat → UInt8} {len : Nat}
    (h : s.MqInv) (hpc : s.pc c = .send id j data len ∨ s.pc c = .sendAgain id j data len) :
    (s.sendStep c id j data len).MqInv := by
  obtain ⟨h₀, hj⟩ := h.calls c id j (by rcases hpc with hpc | hpc <;> rw [hpc] <;> rfl)
  unfold sendStep msgQueueSendSection
  by_cases hfull : (s.kernel.mqs j).count ≥ msgQueueSize
  · simp only [hfull, if_true]
    apply h.block
    intro id' j' hp
    obtain ⟨rfl, rfl⟩ : id = id' ∧ j = j' := by simpa [Pc.mqRef] using hp
    exact ⟨h₀, hj⟩
  · simp only [hfull, if_false]
    have hroom : (s.kernel.objects.ring j).count < msgQueueSize := Nat.lt_of_not_le hfull
    have hok := h.ring j
    unfold MqInv
    simp only [Sys.emit, Sys.setPc, objects_wakeFirst, objects_setMq, MsgQueue.ring_deposit]
    refine MqOk.act h h₀ hj hj (hok.deposit hroom data len) ?_
      (h.calls_setPc (by simp [Pc.mqRef])) ?_
    · exact Event.mq_woken rfl (by simp)
    · intro hled
      have hwoken : ∀ e ∈ (wakeFirst (.recv j) (s.kernel.setMq j fun m =>
          m.deposit data len)).1.toList.map fun t => Event.woken t (.deposit id),
          e.mq ≠ some id := by
        intro e he
        obtain ⟨t, -, rfl⟩ := List.mem_map.mp he
        simp [Event.mq]
      have hsplit : ∀ es : List Event, s.log ++ .deposited id ((List.range len).map data) :: es =
          (s.log ++ [.deposited id ((List.range len).map data)]) ++ es := by simp
      rw [hsplit, deposits_append _ hwoken, receipts_append _ hwoken]
      change _ = _ ++ Ring.contents (Ring.deposit (s.kernel.objects.ring j) data len)
      rw [Ring.contents_deposit hok hroom]
      simp only [deposits, receipts] at hled
      simp [deposits, receipts, hled]

private theorem recv {id : Int} {j : Fin maxMsgQueues} (h : s.MqInv)
    (hpc : s.pc c = .recv id j ∨ s.pc c = .recvAgain id j) : (s.recvStep c id j).MqInv := by
  obtain ⟨h₀, hj⟩ := h.calls c id j (by rcases hpc with hpc | hpc <;> rw [hpc] <;> rfl)
  unfold recvStep msgQueueRecvSection
  by_cases hempty : (s.kernel.mqs j).count = 0
  · simp only [hempty, if_true]
    apply h.block
    intro id' j' hp
    obtain ⟨rfl, rfl⟩ : id = id' ∧ j = j' := by simpa [Pc.mqRef] using hp
    exact ⟨h₀, hj⟩
  · simp only [hempty, if_false]
    have hmsg : (s.kernel.objects.ring j).count ≠ 0 := hempty
    have hok := h.ring j
    unfold MqInv
    simp only [Sys.emit, Sys.setPc, objects_wakeFirst, objects_setMq, MsgQueue.ring_remove]
    refine MqOk.act h h₀ hj hj (hok.remove hmsg) ?_ (h.calls_setPc (by simp [Pc.mqRef])) ?_
    · exact Event.mq_woken rfl (by simp)
    · intro hled
      have hwoken : ∀ e ∈ (wakeFirst (.send j) (s.kernel.setMq j fun m => m.remove)).1.toList.map
          fun t => Event.woken t (.removal id), e.mq ≠ some id := by
        intro e he
        obtain ⟨t, -, rfl⟩ := List.mem_map.mp he
        simp [Event.mq]
      have hsplit : ∀ (m : Message) (es : List Event), s.log ++ .received id m.bytes :: es =
          (s.log ++ [.received id m.bytes]) ++ es := by simp
      rw [hsplit, deposits_append _ hwoken, receipts_append _ hwoken]
      change _ = _ ++ Ring.contents (Ring.remove (s.kernel.objects.ring j))
      rw [Ring.contents_remove hok hmsg] at hled
      simp only [deposits, receipts] at hled
      simp [deposits, receipts, hled, Kernel.objects, MsgQueue.ring]

private theorem enter {call : Call} {p : Pc} (h : s.MqInv) (hp : Enters s.kernel call p) :
    (s.setPc c p).MqInv := by
  apply h.move_quiet rfl rfl
  intro id j href
  cases hp with
  | semWait | semPost => cases href
  | mqSend hl | mqRecv hl =>
      simp only [Pc.mqRef, Option.some.injEq, Prod.mk.injEq] at href
      obtain ⟨rfl, rfl⟩ := href
      exact mqLookup_some hl

theorem of_move (h : s.MqInv) (ha : ∀ id, a ≠ .call (.mqDestroy id)) (hm : Move s a s') :
    s'.MqInv := by
  cases hm with
  | tick ht => exact h.tick ht
  | yield hc hpc ht => exact h.tick ht
  | @int c regs _ hc hpc ht =>
      have hmove : (s.setPc c (s.pc c).afterInt).MqInv := by
        apply h.move_quiet rfl rfl
        intro id j hp
        apply h.calls c id j
        cases hpc' : s.pc c <;> simp_all [Pc.afterInt, Pc.mqRef]
      exact hmove.tick ht
  | create hc hpc ht => exact h.spawn ht
  | fork hc hpc ht => exact h.spawn ht
  | exit hc hpc => exact h.move_quiet rfl rfl (by simp [Pc.mqRef])
  | wait hc hpc => exact h.waitPass _
  | waitAgain hc hpc => exact h.waitPass _
  | semCreate hc hpc hk => exact h.semCreate hk
  | mqCreate hc hpc hk => exact h.mqCreate hk
  | enter hc hpc hp => exact h.enter hp
  | refuseWait hc hpc => exact MqOk.frame h rfl rfl (by simp [Event.mq]) h.calls
  | refuse hc hpc hcall => exact h
  | semWait hc hpc => exact h.semWait
  | semWaitDone hc hpc => exact h.move rfl rfl (by simp [Event.mq]) (by simp [Pc.mqRef])
  | semPost hc hpc ht => exact h.semPost ht
  | send hc hpc => exact h.send hpc
  | recv hc hpc => exact h.recv hpc
  | semDestroy hc hpc hk => exact h.semDestroy hk
  | mqDestroy hc hpc hk => exact absurd rfl (ha _)

theorem boot {frames : Nat → Registers} {cr3 esp0 timerTicks : Nat} {s₀ : Sys}
    (h₀ : Sys.boot frames cr3 esp0 timerTicks = some s₀) : s₀.MqInv := by
  obtain ⟨hpc, hlog⟩ := Inv.boot_pc_log h₀
  have hring : ∀ j, s₀.kernel.objects.ring j = ⟨-1, fun _ => {}, 0, 0, 0⟩ ∧
      s₀.kernel.objects.mqCount = 0 := by
    have hs : s₀ = _ := (Option.some.inj h₀).symm
    subst hs
    exact fun _ => ⟨rfl, rfl⟩
  constructor
  · exact (hring 0).2.ge
  · intro j
    rw [(hring j).1, (hring j).2]
    decide
  · intro j k hj
    rw [(hring j).1] at hj
    exact absurd hj (by decide)
  · intro j
    rw [(hring j).1]
    exact Ring.ok_empty _ _
  · intro t id j ht
    rw [hpc] at ht
    cases ht
  · intro id _ e he
    rw [hlog] at he
    cases he
  · intro id hid
    rw [hlog] at hid
    cases hid

end MqInv

/-! ## Runs with an arbitrary scheduler -/

/-- The processor is given to `t`, whatever state `t` is in. -/
def giveTo (s : Sys) (t : Slot) : Sys :=
  { s with kernel := s.kernel.sched fun k => { k with current := some t } }

/-- A step of the task `ta.1`. -/
def freeStep (s : Sys) (ta : Slot × Act) : Option Sys := (s.giveTo ta.1).step ta.2

/-- The queue in slot `j`, which was created as `id`. -/
structure QueueOk (s : Sys) (id : Int) (j : Fin maxMsgQueues) : Prop where
  slot : ∀ k, (s.kernel.mqs k).id = id ↔ k = j
  count : (s.kernel.mqs j).count ≤ 64
  tail : (s.kernel.mqs j).tail = ((s.kernel.mqs j).head + (s.kernel.mqs j).count) % 64
  received : receipts s.log id <+: deposits s.log id
  /-- What has been deposited and not received is in the ring. -/
  stored : deposits s.log id = receipts s.log id ++
    (List.range (s.kernel.mqs j).count).map fun k =>
      ((s.kernel.mqs j).msgs (((s.kernel.mqs j).head + k) % 64)).bytes
  /-- A call that is let in keeps at most 64 bytes of the message, -/
  sent : ∀ t data len s', s.freeStep (t, .call (.mqSend id (some data) len)) = some s' →
    s'.pc t = .send id j data (min len 64)
  /-- deposits exactly these unless the queue is full, -/
  deposited : ∀ t data len regs s',
    s.pc t = .send id j data len ∨ s.pc t = .sendAgain id j data len →
    s.freeStep (t, .cont regs) = some s' →
    if (s.kernel.mqs j).count = 64 then
      s'.pc t = .sendInt id j data len ∧ deposits s'.log id = deposits s.log id
    else s'.pc t = .user ∧
      deposits s'.log id = deposits s.log id ++ [(List.range len).map data]
  /-- and tries again with the same message. -/
  again : ∀ t data len regs s', s.pc t = .sendInt id j data len →
    s.freeStep (t, .cont regs) = some s' → s'.pc t = .sendAgain id j data len

private theorem lookup_of_slot {id : Int} {j : Fin maxMsgQueues} (h₀ : 0 ≤ id)
    (hslot : ∀ k, (s.kernel.mqs k).id = id ↔ k = j) : mqLookup id s.kernel = some j := by
  unfold mqLookup
  rw [if_neg (by omega)]
  cases hfind : (List.finRange maxMsgQueues).find? fun k => (s.kernel.mqs k).id = id with
  | none =>
      have hnone := List.find?_eq_none.mp hfind j (List.mem_finRange j)
      simp only [decide_eq_true_eq] at hnone
      exact absurd ((hslot j).mpr rfl) hnone
  | some k =>
      have hk : (s.kernel.mqs k).id = id := by simpa using List.find?_some hfind
      rw [(hslot k).mp hk]

private theorem sendStep_eq {id : Int} {j : Fin maxMsgQueues} {data : Nat → UInt8} {len : Nat}
    (hcount : (s.kernel.mqs j).count ≤ 64) :
    if (s.kernel.mqs j).count = 64 then
      (s.sendStep c id j data len).pc c = .sendInt id j data len ∧
        deposits (s.sendStep c id j data len).log id = deposits s.log id
    else (s.sendStep c id j data len).pc c = .user ∧
      deposits (s.sendStep c id j data len).log id =
        deposits s.log id ++ [(List.range len).map data] := by
  unfold sendStep msgQueueSendSection
  by_cases hfull : (s.kernel.mqs j).count = 64
  · rw [if_pos hfull, if_pos (by rw [hfull]; decide)]
    refine ⟨by simp [Sys.emit, Sys.setPc], deposits_append _ (by simp [Event.mq])⟩
  · have hroom : ¬ (s.kernel.mqs j).count ≥ msgQueueSize := by
      change ¬ 64 ≤ _
      omega
    rw [if_neg hfull, if_neg hroom]
    refine ⟨by simp [Sys.emit, Sys.setPc], ?_⟩
    rw [log_emit, log_setPc]
    have hsplit : ∀ es : List Event, s.log ++ .deposited id ((List.range len).map data) :: es =
        (s.log ++ [.deposited id ((List.range len).map data)]) ++ es := by simp
    rw [hsplit, deposits_append]
    · simp [deposits]
    · intro e he
      obtain ⟨t, -, rfl⟩ := List.mem_map.mp he
      simp [Event.mq]

end Sys

end SRos
