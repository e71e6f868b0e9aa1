import SRos.Kernel.Machine
import SRos.Lib.Queue

/-!
# Process table and scheduler

A translation of `kernel/scheduler.c`. Pointers into `task_table` are slot numbers. The
physical frames that `pfa_alloc` and `paging_clone_directory` hand out are arguments of
`taskCreate` and `taskFork`, so every statement about these functions holds whatever the
page-frame allocator returns; frames released by `taskWait` are part of its result.
Serial output is not modelled.
-/

namespace SRos

abbrev maxTasks : Nat := 64
def taskNameMax : Nat := 32

/-- A pointer into `task_table`. -/
abbrev Slot := Fin maxTasks

inductive TaskState where
  | ready | running | blocked | zombie
  deriving DecidableEq, Repr

/-- `registers_t`, the frame an interrupt entry leaves on a kernel stack. -/
structure Registers where
  gs : Nat := 0
  fs : Nat := 0
  es : Nat := 0
  ds : Nat := 0
  edi : Nat := 0
  esi : Nat := 0
  ebp : Nat := 0
  esp : Nat := 0
  ebx : Nat := 0
  edx : Nat := 0
  ecx : Nat := 0
  eax : Nat := 0
  intNo : Nat := 0
  errCode : Nat := 0
  eip : Nat := 0
  cs : Nat := 0
  eflags : Nat := 0
  userEsp : Nat := 0
  userSs : Nat := 0
  deriving DecidableEq

def sizeofRegisters : Nat := 19 * 4

/-- `task_t`. A slot with a negative `pid` is free; the defaults are those of `memset`. -/
structure Task where
  pid : Int := 0
  parentPid : Int := 0
  state : TaskState := .ready
  exitCode : Int := 0
  kernelEsp : Nat := 0
  kernelStackBase : Nat := 0
  kernelStackTop : Nat := 0
  pageDir : Nat := 0
  name : CStr := CStr.empty
  next : Option Slot := none
  deriving DecidableEq

/-- The scheduler's variables, the register frames stored in kernel-stack memory, and the
processor registers the scheduler writes. -/
structure Sched where
  tasks : Slot → Task
  taskCount : Int
  nextPid : Int
  current : Option Slot
  readyHead : Option Slot
  readyTail : Option Slot
  frames : Nat → Registers
  cr3 : Nat
  esp0 : Nat
  timerTicks : Nat

namespace Sched

/-- The task table is zero before `scheduler_init`, like all of BSS. -/
def bss (frames : Nat → Registers) (cr3 esp0 timerTicks : Nat) : Sched where
  tasks := fun _ => {}
  taskCount := 0
  nextPid := 0
  current := none
  readyHead := none
  readyTail := none
  frames := frames
  cr3 := cr3
  esp0 := esp0
  timerTicks := timerTicks

def modify (s : Sched) (t : Slot) (f : Task → Task) : Sched :=
  { s with tasks := Function.update s.tasks t (f (s.tasks t)) }

def setNext (s : Sched) (t : Slot) (v : Option Slot) : Sched :=
  s.modify t fun p => { p with next := v }

def setState (s : Sched) (t : Slot) (v : TaskState) : Sched :=
  s.modify t fun p => { p with state := v }

end Sched

/-- The address space and stack of the shell become task 0. -/
def schedulerInit (s : Sched) : Option Sched := do
  let s := { s with tasks := fun t => { s.tasks t with pid := -1 } }
  let nextPid ← intSucc s.nextPid
  let init : Task :=
    { pid := s.nextPid, parentPid := -1, state := .running, exitCode := 0, kernelEsp := 0,
      kernelStackBase := 0, kernelStackTop := 0x20000, pageDir := s.cr3,
      name := ⟨[105, 110, 105, 116], by decide⟩, next := none }
  return { s with
    tasks := Function.update s.tasks 0 init
    nextPid := nextPid
    current := some 0
    taskCount := 1
    esp0 := init.kernelStackTop }

def enqueueReady (task : Slot) (s : Sched) : Sched :=
  let s := s.setNext task none
  match s.readyTail with
  | some tail => { s.setNext tail (some task) with readyTail := some task }
  | none => { s with readyHead := some task, readyTail := some task }

def dequeueReady (s : Sched) : Option (Slot × Sched) :=
  match s.readyHead with
  | none => none
  | some task =>
      let head := (s.tasks task).next
      let tail := if head = none then none else s.readyTail
      some (task, { s.setNext task none with readyHead := head, readyTail := tail })

/-- The `pick_next` part of `scheduler_tick`. The result is the frame to resume; `none` is
the `cli; hlt` that stops the machine. -/
def pickNext (regs : Nat) (c : Slot) (s : Sched) : Option (Nat × Sched) :=
  match dequeueReady s with
  | none =>
      if (s.tasks c).state ≠ .zombie then some (regs, s.setState c .running) else none
  | some (n, s) =>
      let s := { s with current := some n }.setState n .running
      let s := { s with esp0 := (s.tasks n).kernelStackTop }
      let s := if (s.tasks n).pageDir ≠ 0 then { s with cr3 := (s.tasks n).pageDir } else s
      some ((s.tasks n).kernelEsp, s)

/-- `scheduler_tick` behind the point where the context of the running task `c` is saved. -/
def tickCurrent (regs : Nat) (c : Slot) (s : Sched) : Option (Nat × Sched) :=
  match (s.tasks c).state with
  | .zombie | .blocked => pickNext regs c s
  | .ready | .running =>
      if s.taskCount > 1 then pickNext regs c (enqueueReady c (s.setState c .ready))
      else some (regs, s.setState c .running)

/-- `scheduler_tick` on the frame at address `regs` whose vector is `intNo`. -/
def schedulerTick (intNo regs : Nat) (s : Sched) : Option (Nat × Sched) :=
  if intNo ≠ 32 then some (regs, s)
  else
    let s := { s with timerTicks := u32 (s.timerTicks + 1) }
    match s.current with
    | none => some (regs, s)
    | some c => tickCurrent regs c (s.modify c fun p => { p with kernelEsp := regs })

def taskFindSlot (s : Sched) : Option Slot :=
  (List.finRange maxTasks).find? fun i => (s.tasks i).pid < 0

def userStackVaddr : Nat := 0xE0000000

/-- The user-mode frame that `task_create` builds at address `frame`. -/
def createFrame (frame entry : Nat) : Registers :=
  { gs := 0x23, fs := 0x23, es := 0x23, ds := 0x23
    esp := u32 (frame + 12 * 4)
    eip := entry, cs := 0x1B, eflags := 0x200
    userEsp := userStackVaddr, userSs := 0x23 }

/-- `task_create`, with the kernel stack at the frame `kstackPhys`. -/
def taskCreate (name : CStr) (entry kstackPhys : Nat) (s : Sched) : Option (Int × Sched) :=
  match taskFindSlot s with
  | none => some (-1, s)
  | some slot => do
      let kstackTop := u32 (kstackPhys + 0x1000)
      let frame := u32 (kstackTop + 2 ^ 32 - sizeofRegisters)
      let nextPid ← intSucc s.nextPid
      let name ← strcpy taskNameMax name
      let task : Task :=
        { pid := s.nextPid
          parentPid := match s.current with
            | some c => (s.tasks c).pid
            | none => -1
          state := .ready, exitCode := 0, kernelEsp := frame
          kernelStackBase := kstackPhys, kernelStackTop := kstackTop, pageDir := 0
          name := name, next := none }
      let s := { s with
        frames := Function.update s.frames frame (createFrame frame entry)
        nextPid := nextPid
        tasks := Function.update s.tasks slot task }
      let s := enqueueReady slot s
      return (task.pid, { s with taskCount := s.taskCount + 1 })

/-- `task_block`. -/
def taskBlock (s : Sched) : Sched :=
  match s.current with
  | none => s
  | some c => s.setState c .blocked

/-- `task_wake` on a non-null task. -/
def taskWake (task : Slot) (s : Sched) : Sched :=
  enqueueReady task (s.setState task .ready)

def taskFromPid (pid : Int) (s : Sched) : Option Slot :=
  (List.finRange maxTasks).find? fun i => (s.tasks i).pid = pid

/-- `task_fork` of the frame at address `regs`, with the clone's directory and the kernel
stack it was given. A directory of 0 is a failed clone. -/
def taskFork (regs newPageDir kstackPhys : Nat) (s : Sched) : Option (Int × Sched) :=
  match taskFindSlot s with
  | none => some (-1, s)
  | some slot =>
      if newPageDir = 0 then some (-1, s)
      else do
        let c ← s.current
        let kstackTop := u32 (kstackPhys + 0x1000)
        let childFrame := u32 (kstackTop + 2 ^ 32 - sizeofRegisters)
        let nextPid ← intSucc s.nextPid
        let child : Task :=
          { pid := s.nextPid, parentPid := (s.tasks c).pid, state := .ready, exitCode := 0
            kernelEsp := childFrame, kernelStackBase := kstackPhys
            kernelStackTop := kstackTop, pageDir := newPageDir
            name := (s.tasks c).name, next := none }
        let s := { s with
          frames := Function.update s.frames childFrame { s.frames regs with eax := 0 }
          nextPid := nextPid
          tasks := Function.update s.tasks slot child }
        let s := enqueueReady slot s
        return (child.pid, { s with taskCount := s.taskCount + 1 })

/-- The part of `task_exit` in front of its `int $32`. -/
def taskExit (exitCode : Int) (s : Sched) : Sched :=
  match s.current with
  | none => s
  | some c =>
      let s := s.modify c fun p => { p with exitCode := exitCode, state := .zombie }
      if (s.tasks c).parentPid ≥ 0 then
        match taskFromPid (s.tasks c).parentPid s with
        | none => s
        | some parent =>
            if (s.tasks parent).state = .blocked then
              enqueueReady parent (s.setState parent .ready)
            else s
      else s

/-- How one pass of the loop in `task_wait` ends. -/
inductive WaitPass where
  | collected (childPid exitCode : Int) (freed : List Nat)
  | noChildren
  | blocked

/-- `child` belongs to task `c` and is one that `task_wait(pid)` looks for. -/
def isChild (s : Sched) (c : Slot) (pid : Int) (child : Slot) : Bool :=
  (s.tasks child).pid ≥ 0 && (s.tasks child).parentPid == (s.tasks c).pid &&
    (pid < 0 || (s.tasks child).pid == pid)

/-- One pass of the loop in `task_wait`, up to a return or to the `int $32`. -/
def taskWait (pid : Int) (c : Slot) (s : Sched) : WaitPass × Sched :=
  match (List.finRange maxTasks).find? fun i =>
      isChild s c pid i && (s.tasks i).state == .zombie with
  | some child =>
      let p := s.tasks child
      let freed := (if p.kernelStackBase ≠ 0 then [p.kernelStackBase] else []) ++
        (if p.pageDir ≠ 0 then [p.pageDir] else [])
      (.collected p.pid p.exitCode freed,
        { s with
          tasks := Function.update s.tasks child { pid := -1 }
          taskCount := s.taskCount - 1 })
  | none =>
      if (List.finRange maxTasks).any fun i =>
          isChild s c pid i && (s.tasks i).state != .zombie then
        (.blocked, s.setState c .blocked)
      else (.noChildren, s)

end SRos
