import SRos.Sched.Model

/-!
# Semaphores and message queues

A translation of `kernel/ipc.c` over the scheduler's state. Every wait list is threaded
through the same `next` field as the ready list. The six places of the source that append
the running task to a wait list, remove its first task or drain it are `waitEnqueue`,
`waitDequeue` and `drain` at the list in question. A function that contains a `cli … sti`
section is split where the section begins, because the slot lookup in front of it runs with
interrupts enabled.
-/

namespace SRos

abbrev maxSems : Nat := 64
def semNameMax : Nat := 24
abbrev maxMsgQueues : Nat := 16
def msgQueueSize : Nat := 64
def msgMaxData : Nat := 64

/-- `sem_t`. -/
structure Sem where
  id : Int := 0
  name : CStr := CStr.empty
  value : Int := 0
  waitHead : Option Slot := none
  waitTail : Option Slot := none

/-- `message_t`; bytes of `data` behind `len` keep what an older message left there. -/
structure Message where
  len : Nat := 0
  data : Nat → UInt8 := fun _ => 0

/-- `msg_queue_t`. -/
structure MsgQueue where
  id : Int := 0
  msgs : Nat → Message := fun _ => {}
  head : Nat := 0
  tail : Nat := 0
  count : Nat := 0
  recvWaitHead : Option Slot := none
  recvWaitTail : Option Slot := none
  sendWaitHead : Option Slot := none
  sendWaitTail : Option Slot := none

/-- Scheduler and IPC variables together. -/
structure Kernel extends Sched where
  sems : Fin maxSems → Sem
  semCount : Int
  mqs : Fin maxMsgQueues → MsgQueue
  mqCount : Int

/-- A wait list of a semaphore or of a message queue. -/
inductive WaitQ where
  | sem (i : Fin maxSems)
  | recv (j : Fin maxMsgQueues)
  | send (j : Fin maxMsgQueues)
  deriving DecidableEq

namespace Kernel

def bss (s : Sched) : Kernel where
  toSched := s
  sems := fun _ => {}
  semCount := 0
  mqs := fun _ => {}
  mqCount := 0

def setSem (k : Kernel) (i : Fin maxSems) (f : Sem → Sem) : Kernel :=
  { k with sems := Function.update k.sems i (f (k.sems i)) }

def setMq (k : Kernel) (j : Fin maxMsgQueues) (f : MsgQueue → MsgQueue) : Kernel :=
  { k with mqs := Function.update k.mqs j (f (k.mqs j)) }

def sched (k : Kernel) (f : Sched → Sched) : Kernel := { k with toSched := f k.toSched }

def waitHead (k : Kernel) : WaitQ → Option Slot
  | .sem i => (k.sems i).waitHead
  | .recv j => (k.mqs j).recvWaitHead
  | .send j => (k.mqs j).sendWaitHead

def waitTail (k : Kernel) : WaitQ → Option Slot
  | .sem i => (k.sems i).waitTail
  | .recv j => (k.mqs j).recvWaitTail
  | .send j => (k.mqs j).sendWaitTail

def setWait (k : Kernel) (q : WaitQ) (head tail : Option Slot) : Kernel :=
  match q with
  | .sem i => k.setSem i fun m => { m with waitHead := head, waitTail := tail }
  | .recv j => k.setMq j fun m => { m with recvWaitHead := head, recvWaitTail := tail }
  | .send j => k.setMq j fun m => { m with sendWaitHead := head, sendWaitTail := tail }

end Kernel

def semInit (k : Kernel) : Kernel :=
  { k with sems := fun i => { k.sems i with id := -1 } }

def msgQueueInit (k : Kernel) : Kernel :=
  { k with mqs := fun j => { k.mqs j with id := -1 } }

def ipcInit (k : Kernel) : Kernel := msgQueueInit (semInit k)

/-- Append `task` to a wait list: `next = NULL`, link behind the tail or become the head. -/
def waitEnqueue (q : WaitQ) (task : Slot) (k : Kernel) : Kernel :=
  let k := k.sched fun s => s.setNext task none
  match k.waitTail q with
  | some tail => (k.sched fun s => s.setNext tail (some task)).setWait q (k.waitHead q) (some task)
  | none => k.setWait q (some task) (some task)

/-- Remove the first task of a wait list. -/
def waitDequeue (q : WaitQ) (k : Kernel) : Option (Slot × Kernel) :=
  match k.waitHead q with
  | none => none
  | some wake =>
      let head := (k.tasks wake).next
      let tail := if head = none then none else k.waitTail q
      some (wake, (k.setWait q head tail).sched fun s => s.setNext wake none)

/-- Block the running task on `q`. -/
def blockOn (q : WaitQ) (c : Slot) (k : Kernel) : Kernel :=
  waitEnqueue q c (k.sched taskBlock)

/-- Wake the first task of `q`, if there is one. -/
def wakeFirst (q : WaitQ) (k : Kernel) : Option Slot × Kernel :=
  match waitDequeue q k with
  | none => (none, k)
  | some (wake, k) => (some wake, k.sched (taskWake wake))

/-- The loop of the two destroy functions: wake all of `q`, first to last. It does not touch
the tail pointer until the list is empty. `none` means that `fuel` rounds were not enough. -/
def drain (q : WaitQ) : Nat → Kernel → Option (List Slot × Kernel)
  | 0, _ => none
  | fuel + 1, k =>
      match k.waitHead q with
      | none => some ([], k.setWait q none none)
      | some wake =>
          let head := (k.tasks wake).next
          let k := (k.setWait q head (k.waitTail q)).sched fun s => s.setNext wake none
          (drain q fuel (k.sched (taskWake wake))).map fun r => (wake :: r.1, r.2)

/-- A duplicate-free list of tasks is empty after this many rounds. -/
def drainFuel : Nat := maxTasks + 1

/-! ## Semaphores -/

def semFindSlot (k : Kernel) : Option (Fin maxSems) :=
  (List.finRange maxSems).find? fun i => (k.sems i).id < 0

/-- The name stored for the argument of `sem_create`, which may be a null pointer. -/
def semName : Option CStr → Option CStr
  | some name => strcpy semNameMax name
  | none => some CStr.empty

def semCreate (name : Option CStr) (initialValue : Int) (k : Kernel) : Option (Int × Kernel) :=
  match semFindSlot k with
  | none => some (-1, k)
  | some slot => do
      let id := k.semCount
      let semCount ← intSucc k.semCount
      let name ← semName name
      let sem : Sem :=
        { id := id, name := name, value := if initialValue < 0 then 0 else initialValue
          waitHead := none, waitTail := none }
      return (id, { k with semCount := semCount, sems := Function.update k.sems slot sem })

/-- The lookup in front of the `cli` of `sem_wait` and `sem_post`. -/
def semLookup (semId : Int) (k : Kernel) : Option (Fin maxSems) :=
  if semId < 0 ∨ semId ≥ k.semCount then none
  else (List.finRange maxSems).find? fun i => (k.sems i).id = semId

theorem semLookup_some {semId : Int} {k : Kernel} {i : Fin maxSems}
    (h : semLookup semId k = some i) : 0 ≤ semId ∧ (k.sems i).id = semId := by
  unfold semLookup at h
  split at h
  · cases h
  · next hid => exact ⟨by omega, by simpa using List.find?_some h⟩

/-- The `cli … sti` section of `sem_wait`, run by `c` on the slot it found. `true` means that
a unit was taken, `false` that `c` was put on the wait list and goes on to `int $32`. -/
def semWaitSection (sem : Fin maxSems) (c : Slot) (k : Kernel) : Bool × Kernel :=
  if (k.sems sem).value > 0 then
    (true, k.setSem sem fun m => { m with value := m.value - 1 })
  else (false, blockOn (.sem sem) c k)

/-- The `cli … sti` section of `sem_post`; the result names the task it woke. -/
def semPostSection (sem : Fin maxSems) (k : Kernel) : Option (Option Slot × Kernel) :=
  match wakeFirst (.sem sem) k with
  | (some wake, k) => some (some wake, k)
  | (none, k) => do
      let value ← intSucc (k.sems sem).value
      return (none, k.setSem sem fun m => { m with value := value })

/-- `sem_destroy`, with the tasks it wakes. -/
def semDestroy (semId : Int) (k : Kernel) : Option (Int × List Slot × Kernel) :=
  if semId < 0 then some (-1, [], k)
  else
    match (List.finRange maxSems).find? fun i => (k.sems i).id = semId with
    | none => some (-1, [], k)
    | some i => do
        let (woken, k) ← drain (.sem i) drainFuel k
        return (0, woken, k.setSem i fun m =>
          { m with id := -1, name := CStr.empty, value := 0 })

/-! ## Message queues -/

def memcpy (dst src : Nat → UInt8) (n : Nat) : Nat → UInt8 :=
  fun i => if i < n then src i else dst i

/-- The bytes a receiver copies out of a message. -/
def Message.bytes (m : Message) : List UInt8 := (List.range m.len).map m.data

def mqFindSlot (k : Kernel) : Option (Fin maxMsgQueues) :=
  (List.finRange maxMsgQueues).find? fun j => (k.mqs j).id < 0

def msgQueueCreate (k : Kernel) : Option (Int × Kernel) :=
  match mqFindSlot k with
  | none => some (-1, k)
  | some slot => do
      let id := k.mqCount
      let mqCount ← intSucc k.mqCount
      let mq : MsgQueue :=
        { id := id, msgs := (k.mqs slot).msgs, head := 0, tail := 0, count := 0
          recvWaitHead := none, recvWaitTail := none
          sendWaitHead := none, sendWaitTail := none }
      return (id, { k with mqCount := mqCount, mqs := Function.update k.mqs slot mq })

/-- The lookup in front of the `cli` of `msg_queue_send` and `msg_queue_recv`. -/
def mqLookup (mqId : Int) (k : Kernel) : Option (Fin maxMsgQueues) :=
  if mqId < 0 then none
  else (List.finRange maxMsgQueues).find? fun j => (k.mqs j).id = mqId

theorem mqLookup_some {mqId : Int} {k : Kernel} {j : Fin maxMsgQueues}
    (h : mqLookup mqId k = some j) : 0 ≤ mqId ∧ (k.mqs j).id = mqId := by
  unfold mqLookup at h
  split at h
  · cases h
  · next hid => exact ⟨by omega, by simpa using List.find?_some h⟩

/-- Store a message at the tail of the ring. -/
def MsgQueue.deposit (mq : MsgQueue) (data : Nat → UInt8) (len : Nat) : MsgQueue :=
  { mq with
    msgs := Function.update mq.msgs mq.tail
      { len := len, data := memcpy (mq.msgs mq.tail).data data len }
    tail := (mq.tail + 1) % msgQueueSize
    count := mq.count + 1 }

/-- Take the message at the head of the ring. -/
def MsgQueue.remove (mq : MsgQueue) : MsgQueue :=
  { mq with head := (mq.head + 1) % msgQueueSize, count := mq.count - 1 }

/-- One round of `msg_queue_send` from a `cli` on: a full queue blocks the caller (`none`),
otherwise the message is stored and the first waiting receiver is woken. -/
def msgQueueSendSection (mq : Fin maxMsgQueues) (data : Nat → UInt8) (len : Nat) (c : Slot)
    (k : Kernel) : Option (Option Slot) × Kernel :=
  if (k.mqs mq).count ≥ msgQueueSize then (none, blockOn (.send mq) c k)
  else
    let (woken, k) := wakeFirst (.recv mq) (k.setMq mq fun m => m.deposit data len)
    (some woken, k)

/-- One round of `msg_queue_recv` from a `cli` on: an empty queue blocks the caller, otherwise
the oldest message is returned and the first waiting sender is woken. -/
def msgQueueRecvSection (mq : Fin maxMsgQueues) (c : Slot) (k : Kernel) :
    Option (Message × Option Slot) × Kernel :=
  if (k.mqs mq).count = 0 then (none, blockOn (.recv mq) c k)
  else
    let msg := (k.mqs mq).msgs (k.mqs mq).head
    let (woken, k) := wakeFirst (.send mq) (k.setMq mq fun m => m.remove)
    (some (msg, woken), k)

/-- `msg_queue_destroy`, with the tasks it wakes. -/
def msgQueueDestroy (mqId : Int) (k : Kernel) : Option (Int × List Slot × Kernel) :=
  if mqId < 0 then some (-1, [], k)
  else
    match (List.finRange maxMsgQueues).find? fun j => (k.mqs j).id = mqId with
    | none => some (-1, [], k)
    | some j => do
        let (receivers, k) ← drain (.recv j) drainFuel k
        let (senders, k) ← drain (.send j) drainFuel k
        return (0, receivers ++ senders, k.setMq j fun m =>
          { m with id := -1, head := 0, tail := 0, count := 0 })

end SRos
