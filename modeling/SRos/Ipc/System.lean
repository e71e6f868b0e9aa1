import SRos.Ipc.Model

/-!
# Tasks running on the kernel

A transition system around the kernel functions. Besides the kernel's variables a state holds,
for every task slot, the point of the kernel code its task has reached (`Pc`), and a log of
what happened so far. One step is a timer interrupt, the start of a system call by the
running task, or the continuation of the running task from the point it has reached; the
sections between `cli` and `sti`, the passes of `task_wait`, and `scheduler_tick` are atomic.
A timer interrupt may fall between any two steps, also between the `sti` that ends a section
and the `int $32` behind it.
-/

namespace SRos

/-- Where a task is in the kernel code. The identifiers are the arguments of the call, the
slots the pointers that its lookup returned. -/
inductive Pc where
  /-- Outside the kernel. -/
  | user
  /-- `sem_wait`, in front of its `cli`. -/
  | semWait (id : Int) (sem : Fin maxSems)
  /-- `sem_wait`, at its `int $32`. -/
  | semWaitInt (id : Int) (sem : Fin maxSems)
  /-- `sem_wait`, behind its `int $32`. -/
  | semWaitDone (id : Int) (sem : Fin maxSems)
  | semPost (id : Int) (sem : Fin maxSems)
  /-- `msg_queue_send`, in front of its first `cli`. -/
  | send (id : Int) (mq : Fin maxMsgQueues) (data : Nat → UInt8) (len : Nat)
  | sendInt (id : Int) (mq : Fin maxMsgQueues) (data : Nat → UInt8) (len : Nat)
  /-- `msg_queue_send`, behind its `int $32`, about to test its loop condition again. -/
  | sendAgain (id : Int) (mq : Fin maxMsgQueues) (data : Nat → UInt8) (len : Nat)
  | recv (id : Int) (mq : Fin maxMsgQueues)
  | recvInt (id : Int) (mq : Fin maxMsgQueues)
  | recvAgain (id : Int) (mq : Fin maxMsgQueues)
  | exitInt
  | waitInt (pid : Int)
  | waitAgain (pid : Int)

/-- Why `task_wake` was called. -/
inductive Waker where
  | post (id : Int)
  | deposit (id : Int)
  | removal (id : Int)
  | semDestroy (id : Int)
  | mqDestroy (id : Int)
  deriving DecidableEq

inductive Event where
  /-- `sem_create` returned `id`. -/
  | semCreated (id : Int) (initialValue : Int)
  /-- `sem_wait(id)` took a unit at once. -/
  | acquired (task : Slot) (id : Int)
  /-- `task_block` was called on the way to the wait list `q`. -/
  | slept (task : Slot) (q : WaitQ) (id : Int)
  /-- `task_wake(task)` was called. -/
  | woken (task : Slot) (by_ : Waker)
  | posted (id : Int)
  /-- `sem_wait(id)` returned. -/
  | semWaitReturned (task : Slot) (id : Int) (result : Int)
  | mqCreated (id : Int)
  | deposited (id : Int) (bytes : List UInt8)
  | received (id : Int) (bytes : List UInt8)
  deriving DecidableEq

structure Sys where
  kernel : Kernel
  pc : Slot → Pc
  log : List Event

/-- The system calls of the process and IPC interface. `regs` is the address of a register
frame; the frames a call may take from the page-frame allocator are arguments. -/
inductive Call where
  | create (name : CStr) (entry kstackPhys : Nat)
  | fork (regs newPageDir kstackPhys : Nat)
  | exit (code : Int)
  | wait (pid : Int)
  | yield (regs : Nat)
  | semCreate (name : Option CStr) (initialValue : Int)
  | semWait (id : Int)
  | semPost (id : Int)
  | semDestroy (id : Int)
  | mqCreate
  | mqSend (id : Int) (data : Option (Nat → UInt8)) (len : Nat)
  | mqRecv (id : Int) (buf : Bool) (lenPtr : Bool)
  | mqDestroy (id : Int)

inductive Act where
  /-- A timer interrupt; `regs` is the frame of the task it hits. -/
  | tick (regs : Nat)
  /-- The running task starts a call. -/
  | call (c : Call)
  /-- The running task goes on; `regs` is its frame should it execute an `int $32`. -/
  | cont (regs : Nat)

namespace Sys

def current (s : Sys) : Option Slot := s.kernel.current

def setPc (s : Sys) (t : Slot) (p : Pc) : Sys := { s with pc := Function.update s.pc t p }

def emit (s : Sys) (es : List Event) : Sys := { s with log := s.log ++ es }

/-- `scheduler_tick` for vector 32. -/
def tick (regs : Nat) (s : Sys) : Option Sys := do
  let (_, sched) ← schedulerTick 32 regs s.kernel.toSched
  return { s with kernel := { s.kernel with toSched := sched } }

/-- A new task starts outside the kernel. -/
def spawn (s : Sys) (r : Option (Int × Sched)) : Option Sys := do
  let (_, sched) ← r
  return { s with
    kernel := { s.kernel with toSched := sched }
    pc := fun t => if taskFindSlot s.kernel.toSched = some t then .user else s.pc t }

/-- A pass of `task_wait` by `c`. -/
def waitPass (s : Sys) (c : Slot) (pid : Int) : Sys :=
  match taskWait pid c s.kernel.toSched with
  | (.blocked, sched) => { s with kernel := { s.kernel with toSched := sched } }.setPc c (.waitInt pid)
  | (_, sched) => { s with kernel := { s.kernel with toSched := sched } }.setPc c .user

/-- The section of `sem_wait(id)` by `c`. -/
def semWaitStep (s : Sys) (c : Slot) (id : Int) (sem : Fin maxSems) : Sys :=
  match semWaitSection sem c s.kernel with
  | (true, k) =>
      ({ s with kernel := k }.setPc c .user).emit [.acquired c id, .semWaitReturned c id 0]
  | (false, k) => ({ s with kernel := k }.setPc c (.semWaitInt id sem)).emit [.slept c (.sem sem) id]

def semPostStep (s : Sys) (c : Slot) (id : Int) (sem : Fin maxSems) : Option Sys := do
  let (woken, k) ← semPostSection sem s.kernel
  let wakes := woken.toList.map fun t => Event.woken t (.post id)
  return ({ s with kernel := k }.setPc c .user).emit (.posted id :: wakes)

/-- A round of `msg_queue_send(id, …)` by `c`. -/
def sendStep (s : Sys) (c : Slot) (id : Int) (mq : Fin maxMsgQueues) (data : Nat → UInt8)
    (len : Nat) : Sys :=
  match msgQueueSendSection mq data len c s.kernel with
  | (none, k) => ({ s with kernel := k }.setPc c (.sendInt id mq data len)).emit [.slept c (.send mq) id]
  | (some woken, k) =>
      ({ s with kernel := k }.setPc c .user).emit
        (.deposited id ((List.range len).map data) ::
          woken.toList.map fun t => Event.woken t (.deposit id))

/-- A round of `msg_queue_recv(id, …)` by `c`. -/
def recvStep (s : Sys) (c : Slot) (id : Int) (mq : Fin maxMsgQueues) : Sys :=
  match msgQueueRecvSection mq c s.kernel with
  | (none, k) => ({ s with kernel := k }.setPc c (.recvInt id mq)).emit [.slept c (.recv mq) id]
  | (some (msg, woken), k) =>
      ({ s with kernel := k }.setPc c .user).emit
        (.received id msg.bytes :: woken.toList.map fun t => Event.woken t (.removal id))

/-- The first step of a call by `c`, which is outside the kernel. -/
def call (s : Sys) (c : Slot) : Call → Option Sys
  | .create name entry kstackPhys => s.spawn (taskCreate name entry kstackPhys s.kernel.toSched)
  | .fork regs newPageDir kstackPhys =>
      s.spawn (taskFork regs newPageDir kstackPhys s.kernel.toSched)
  | .exit code =>
      some ({ s with kernel := s.kernel.sched (taskExit code) }.setPc c .exitInt)
  | .wait pid => some (s.waitPass c pid)
  | .yield regs => s.tick regs
  | .semCreate name initialValue => do
      let (id, k) ← semCreate name initialValue s.kernel
      return { s with kernel := k }.emit
        (if id < 0 then [] else [.semCreated id initialValue])
  | .semWait id =>
      match semLookup id s.kernel with
      | none => some (s.emit [.semWaitReturned c id (-1)])
      | some sem => some (s.setPc c (.semWait id sem))
  | .semPost id =>
      match semLookup id s.kernel with
      | none => some s
      | some sem => some (s.setPc c (.semPost id sem))
  | .semDestroy id => do
      let (_, woken, k) ← semDestroy id s.kernel
      return { s with kernel := k }.emit (woken.map fun t => .woken t (.semDestroy id))
  | .mqCreate => do
      let (id, k) ← msgQueueCreate s.kernel
      return { s with kernel := k }.emit (if id < 0 then [] else [.mqCreated id])
  | .mqSend id data len =>
      match data, mqLookup id s.kernel with
      | some data, some mq =>
          some (s.setPc c (.send id mq data (if len > msgMaxData then msgMaxData else len)))
      | _, _ => some s
  | .mqRecv id buf lenPtr =>
      match buf && lenPtr, mqLookup id s.kernel with
      | true, some mq => some (s.setPc c (.recv id mq))
      | _, _ => some s
  | .mqDestroy id => do
      let (_, woken, k) ← msgQueueDestroy id s.kernel
      return { s with kernel := k }.emit (woken.map fun t => .woken t (.mqDestroy id))

/-- The next step of `c` inside the kernel. -/
def cont (s : Sys) (c : Slot) (regs : Nat) : Option Sys :=
  match s.pc c with
  | .user => none
  | .semWait id sem => some (s.semWaitStep c id sem)
  | .semWaitInt id sem => (s.setPc c (.semWaitDone id sem)).tick regs
  | .semWaitDone id _ => some ((s.setPc c .user).emit [.semWaitReturned c id 0])
  | .semPost id sem => s.semPostStep c id sem
  | .send id mq data len => some (s.sendStep c id mq data len)
  | .sendInt id mq data len => (s.setPc c (.sendAgain id mq data len)).tick regs
  | .sendAgain id mq data len => some (s.sendStep c id mq data len)
  | .recv id mq => some (s.recvStep c id mq)
  | .recvInt id mq => (s.setPc c (.recvAgain id mq)).tick regs
  | .recvAgain id mq => some (s.recvStep c id mq)
  | .exitInt => s.tick regs
  | .waitInt pid => (s.setPc c (.waitAgain pid)).tick regs
  | .waitAgain pid => some (s.waitPass c pid)

/-- One step. `none` means that the machine has halted, that the step is not possible in this
state, or that it has undefined behaviour in C. -/
def step (s : Sys) (a : Act) : Option Sys :=
  match s.current, a with
  | _, .tick regs => s.tick regs
  | some c, .call call =>
      match s.pc c with
      | .user => s.call c call
      | _ => none
  | some c, .cont regs => s.cont c regs
  | none, _ => none

/-- The state behind `scheduler_init` and `ipc_init`. -/
def boot (frames : Nat → Registers) (cr3 esp0 timerTicks : Nat) : Option Sys := do
  let sched ← schedulerInit (Sched.bss frames cr3 esp0 timerTicks)
  return { kernel := ipcInit (Kernel.bss sched), pc := fun _ => .user, log := [] }

end Sys

end SRos
