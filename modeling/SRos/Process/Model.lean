import SRos.Elf.Model
import SRos.Paging.Boot
import SRos.Sched.Model

/-!
# Processes and their memory

The scheduler together with the memory and the page-frame allocator. `task_create` and `task_fork`
take their frames from the stack of free ones, `task_wait` gives frames back, and CR3 is the one
that the scheduler loads. An operation is atomic up to its `int $32`. A task that blocks in
`task_wait` goes on with another pass of its loop when it is resumed, which is a step of its own.
The register frames on kernel stacks are those of the scheduler's model.
-/

namespace SRos.Process

open Paging Fs

structure Machine where
  sched : Sched
  mem : Nat → UInt8
  free : List Nat

namespace Machine

def vm (s : Machine) : Vm := ⟨s.mem, s.sched.cr3, s.free⟩

/-- The memory and the free frames after a function of `paging.c`, none of which loads CR3. -/
def setVm (s : Machine) (v : Vm) : Machine := { s with mem := v.mem, free := v.free }

/-- `task_create`, with its allocations. -/
def create (name : CStr) (entry : Nat) (s : Machine) : Option Machine :=
  match taskFindSlot s.sched with
  | none => some s
  | some _ => do
      let (kstackPhys, v) ← pfaAlloc s.vm
      let v ← pagingMapUser entry v
      let (userStackPhys, v) ← pfaAlloc v
      let v ← pagingMapPage (userStackVaddr - 0x1000) userStackPhys 0x07 v
      let (_, sched) ← taskCreate name entry kstackPhys s.sched
      return { s.setVm v with sched := sched }

/-- `task_fork` of the frame at address `regs`, with its allocations. -/
def fork (bssEnd regs : Nat) (s : Machine) : Option Machine :=
  match taskFindSlot s.sched with
  | none => some s
  | some _ => do
      let (newPageDir, v) ← pagingCloneDirectory bssEnd s.vm
      if newPageDir = 0 then return s.setVm v
      else
        let (kstackPhys, v) ← pfaAlloc v
        let (_, sched) ← taskFork regs newPageDir kstackPhys s.sched
        return { s.setVm v with sched := sched }

/-- `int $32`, or an interrupt of the timer. -/
def tick (regs : Nat) (s : Machine) : Option Machine := do
  let (_, sched) ← schedulerTick 32 regs s.sched
  return { s with sched := sched }

def exit (code : Int) (regs : Nat) (s : Machine) : Option Machine :=
  tick regs { s with sched := taskExit code s.sched }

/-- A pass of `task_wait`: the frames of a collected child are freed in the order of the source. -/
def wait (pid : Int) (regs : Nat) (s : Machine) : Option Machine :=
  match s.sched.current with
  | none => some s
  | some c =>
      match taskWait pid c s.sched with
      | (.collected _ _ freed, sched) =>
          some { s.setVm (freed.foldl (fun v f => pfaFree f v) s.vm) with sched := sched }
      | (.noChildren, sched) => some { s with sched := sched }
      | (.blocked, sched) => tick regs { s with sched := sched }

def allocPage (virtAddr : Nat) (s : Machine) : Option Machine := do
  let v ← pagingAllocPage virtAddr s.vm
  return s.setVm v

/-- `elf_load_and_exec` with the frame of the caller at address `regs`. -/
def exec (fs : FsState) (path : CStr) (regs : Nat) (s : Machine) : Option Machine := do
  let (_, frame, v) ← Elf.elfLoadAndExec fs path (s.sched.frames regs) s.vm
  return { s.setVm v with
    sched := { s.sched with frames := Function.update s.sched.frames regs frame } }

end Machine

/-- The operations of the kernel that the processes use. -/
inductive ProcAct where
  | create (name : CStr) (entry : Nat)
  | fork (regs : Nat)
  | exit (code : Int) (regs : Nat)
  | wait (pid : Int) (regs : Nat)
  | tick (regs : Nat)
  | allocPage (virtAddr : Nat)
  | exec (fs : FsState) (path : CStr) (regs : Nat)

namespace Machine

def step (bssEnd : Nat) (s : Machine) : ProcAct → Option Machine
  | .create name entry => s.create name entry
  | .fork regs => s.fork bssEnd regs
  | .exit code regs => s.exit code regs
  | .wait pid regs => s.wait pid regs
  | .tick regs => s.tick regs
  | .allocPage virtAddr => s.allocPage virtAddr
  | .exec fs path regs => s.exec fs path regs

/-- The machine when `scheduler_init` has returned. -/
def boot (m : Nat → UInt8) (frames : Nat → Registers) (esp0 timerTicks : Nat) : Option Machine := do
  let v ← Paging.boot m
  let sched ← schedulerInit (Sched.bss frames v.cr3 esp0 timerTicks)
  return { sched := sched, mem := v.mem, free := v.free }

end Machine

end SRos.Process
