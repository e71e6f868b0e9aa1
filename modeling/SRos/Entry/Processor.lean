import SRos.Entry.Stubs
import SRos.Ipc.Stacks
import SRos.Kernel.Descriptors

/-!
# The processor under the scheduler

The tasks of `Sys` with the one processor that they share and the memory of their kernel stacks.
Between two steps of the kernel the code of the running task does what it likes, in user mode or in
the C code of the kernel, as long as it stays away from the stacks of the others. Interrupts run
the stubs of `boot/idt_asm.s` and `boot/syscall_asm.s`; the compiled C functions that they call are
an argument. Kernel stacks lie at the same address in every address space.
-/

namespace SRos

open X86 Stubs Bytes

/-- What the linker and the loader decide: the addresses of the stubs and of the task state segment,
and the memory of the stacks of task 0. -/
structure Image where
  isr : Nat → UInt32
  tss : UInt32
  bootStack : Nat → Prop
  /-- The stack for the interrupts of task 0 in user mode ends at `0x20000`. -/
  room : ∀ a, 0x20000 - 80 ≤ a → a < 0x20000 → bootStack a
  low : ∀ a, bootStack a → a + 0x1000 ≤ 2 ^ 32

/-- The levels of the segments. -/
abbrev Image.dpl (L : Image) : UInt16 → Nat := segDpl L.tss

/-- The kernel stack of a task. A stack that the task is not to free is the one of task 0. -/
def Image.area (L : Image) (p : Task) (a : Nat) : Prop :=
  if p.kernelStackBase = 0 then L.bootStack a
  else p.kernelStackBase ≤ a ∧ a < p.kernelStackBase + 0x1000

/-- The compiled C functions, on the machine and the scheduler's variables. -/
abbrev Code := CFn → X86.State × Sched → Option (X86.State × Sched)

structure Processor where
  sys : Sys
  st : X86.State
  /-- The state in which a task has lost the processor, or in which it is to start. -/
  lost : Slot → X86.State
  /-- The frame of the system call that a task is in, and the state in which it has made it. -/
  calls : Slot → Option (Nat × X86.State)

inductive ProcessorAct where
  /-- The running code goes on. -/
  | run (st : X86.State)
  /-- It does a step of the kernel that neither enters nor leaves an interrupt. -/
  | kernel (a : Act)
  /-- An interrupt of the PIC, or the `int $32` that the running task is at. -/
  | irq (vector : Nat) (own : Bool) (code : Code)
  /-- `int $0x80`, up to the call of `syscall_handler`. -/
  | syscall
  /-- The way back from `syscall_handler`. -/
  | sysret (code : Code)

/-! ## Frames in memory -/

/-- The words of a frame, from its address on. -/
def frameWords (r : Registers) : List Nat :=
  [r.gs, r.fs, r.es, r.ds, r.edi, r.esi, r.ebp, r.esp, r.ebx, r.edx, r.ecx, r.eax, r.intNo, r.errCode,
    r.eip, r.cs, r.eflags, r.userEsp, r.userSs]

def putWords (m : Nat → UInt8) (a : Nat) : List Nat → Nat → UInt8
  | [] => m
  | w :: ws => putWords (store32 m a w) (a + 4) ws

def putFrame (m : Nat → UInt8) (a : Nat) (r : Registers) : Nat → UInt8 := putWords m a (frameWords r)

/-! ## Steps -/

/-- The argument of a C function that has just been called. -/
def argument (s : X86.State) : Nat := load32 s.mem s.cpu.esp.toNat

/-- The way of `isr128` up to the call, and the way back. -/
def syscallEntry : Stub := isrNoErrCode 128 ++ saveRegisters ++ [.pushEsp]

def syscallExit : Stub :=
  .addEsp 4 :: .cli :: callOnFrame .schedulerTick ++ .movEspEax :: restoreRegisters

theorem isr128_eq : isr128 = syscallEntry ++ .call .syscallHandler :: syscallExit := rfl

/-- The processor in the kernel, with the stack pointer at a frame. -/
def kernelCpu (esp : Nat) : Cpu :=
  { eax := 0, ecx := 0, edx := 0, ebx := 0, esp := word esp, ebp := 0, esi := 0, edi := 0, eip := 0
    eflags := 0, cs := 0x08, ss := 0x10, ds := 0x10, es := 0x10, fs := 0x10, gs := 0x10 }

namespace Processor

variable (L : Image) (x : Processor)

def sched : Sched := x.sys.kernel.toSched

def setSched (s : Sys) (sched : Sched) : Sys := { s with kernel := { s.kernel with toSched := sched } }

/-- The kernel finds the frames in memory. -/
def framed : Sys := setSched x.sys { x.sched with frames := frameAt x.st.mem }

def kernel (a : Act) : Option Processor :=
  if x.sys.ticks a then none
  else do
    let sys ← x.framed.step a
    match Sys.newStack a, taskFindSlot x.sched with
    | some kstackPhys, some t =>
        let frame := initialFrame kstackPhys
        let mem := putFrame x.st.mem frame (sys.kernel.frames frame)
        return {
          sys
          st := { x.st with mem }
          lost := Function.update x.lost t ⟨resume L.dpl (frameAt mem frame) (kernelCpu frame), mem⟩
          calls := Function.update x.calls t none }
    | _, _ => return { x with sys }

/-- The processor takes an interrupt: `ss0` of the task state segment is the kernel's data segment. -/
def enter (vector : Nat) : X86.State :=
  x.st.interrupt (idtInit L.isr vector).gate 0x10 (word x.sched.esp0)

/-- An `int $32` of the task `c` moves it behind the instruction. -/
def passInt (c : Slot) (own : Bool) : Option Sys :=
  if own then
    if (x.sys.pc c).atInt then some (x.sys.setPc c (x.sys.pc c).afterInt) else none
  else some x.sys

def irq (vector : Nat) (own : Bool) (code : Code) : Option Processor := do
  let c ← x.sys.current
  let sys ← x.passInt c own
  let (st, sched) ← X86.run L.dpl code (isrNoErrCode (word vector) ++ Stubs.irqCommon)
    (x.enter L vector, x.sched)
  return { x with sys := setSched sys sched, st, lost := Function.update x.lost c x.st }

def syscall : Option Processor := do
  let c ← x.sys.current
  if (x.calls c).isSome then none
  else do
    let (st, _) ← X86.run L.dpl (fun _ _ => none) syscallEntry (x.enter L 128, x.sched)
    return { x with st, calls := Function.update x.calls c (some (argument st, x.st)) }

def sysret (code : Code) : Option Processor := do
  let c ← x.sys.current
  let _ ← x.calls c
  let (st, sched) ← X86.run L.dpl code syscallExit (x.st, x.sched)
  return { x with sys := setSched x.sys sched, st, calls := Function.update x.calls c none }

def step (x : Processor) : ProcessorAct → Option Processor
  | .run st => some { x with st }
  | .kernel a => x.kernel L a
  | .irq vector own code => x.irq L vector own code
  | .syscall => x.syscall L
  | .sysret code => x.sysret L code

/-- Behind `scheduler_init` and `ipc_init`. -/
def boot (cr3 timerTicks : Nat) (st : X86.State) : Option Processor := do
  let sys ← Sys.boot (frameAt st.mem) cr3 0x20000 timerTicks
  return { sys, st, lost := fun _ => st, calls := fun _ => none }

end Processor

/-! ## What the code has to keep -/

/-- Segment registers that a processor can have: the kernel always has its own stack segment. -/
structure Segments (dpl : UInt16 → Nat) (c : Cpu) : Prop where
  fits : Fits dpl c
  kernel : c.cpl = 0 → c.ss = 0x10

/-- A C function returns, and leaves some of the memory as it is. -/
structure Returns (kept : Nat → Prop) (s s' : X86.State) : Prop where
  esp : s'.cpu.esp = s.cpu.esp
  ss : s'.cpu.ss = s.cpu.ss
  cs : s'.cpu.cs = s.cpu.cs
  mem : ∀ a, kept a → s'.mem a = s.mem a

/-- The compiled code does what the two functions do. What it keeps depends on the frame that it
gets. -/
structure Compiled (kept : Nat → Nat → Prop) (code : Code) : Prop where
  irqHandler : ∀ s e s' e', code .irqHandler (s, e) = some (s', e') →
    Returns (kept (argument s)) s s' ∧ e' = SRos.irqHandler (frameAt s.mem (argument s)).intNo e
  schedulerTick : ∀ s e s' e', code .schedulerTick (s, e) = some (s', e') →
    Returns (kept (argument s)) s s' ∧
      SRos.schedulerTick (frameAt s.mem (argument s)).intNo (argument s) e =
        some (s'.cpu.eax.toNat, e')

namespace Processor

variable (L : Image) (x : Processor)

def task (t : Slot) : Task := x.sys.kernel.tasks t

def Live (t : Slot) : Prop := 0 ≤ (x.task t).pid

/-- The memory of the stacks of the tasks that do not have the processor. -/
def Others (a : Nat) : Prop := ∃ t, x.Live t ∧ x.sys.current ≠ some t ∧ L.area (x.task t) a

/-- The memory that a C function leaves alone that gets a frame of the task `c`: the stacks of the
others, and its own from the frame on. -/
def Kept (c : Slot) (frame a : Nat) : Prop := x.Others L a ∨ L.area (x.task c) a ∧ frame ≤ a

/-- What any code keeps, in user mode or in the kernel. In a system call it runs below the frame of
the call, and the result is all that it stores there. -/
structure Runs (st : X86.State) : Prop where
  segments : Segments L.dpl st.cpu
  others : ∀ a, x.Others L a → st.mem a = x.st.mem a
  call : ∀ c frame s, x.sys.current = some c → x.calls c = some (frame, s) →
    st.cpu.cpl = 0 ∧ st.cpu.esp.toNat ≤ frame ∧
      ∀ a, L.area (x.task c) a → frame ≤ a → a < frame + 44 ∨ frame + 48 ≤ a →
        st.mem a = x.st.mem a

/-- The stack of the kernel has room for a frame and an argument. -/
def Room (c : Slot) : Prop :=
  80 ≤ x.st.cpu.esp.toNat ∧
    ∀ a, x.st.cpu.esp.toNat - 80 ≤ a → a < x.st.cpu.esp.toNat → L.area (x.task c) a

/-- An interrupt that the running task takes. -/
structure Takes (vector : Nat) (own : Bool) (code : Code) : Prop where
  range : 32 ≤ vector ∧ vector < 48
  timer : own = true → vector = 32
  room : ∀ c, x.sys.current = some c → x.st.cpu.cpl = 0 → x.Room L c
  compiled : ∀ c, x.sys.current = some c → Compiled (x.Kept L c) code
  /-- A task that sleeps in an IPC call does not find the ready list empty. -/
  safe : vector = 32 → ∀ c, x.sys.current = some c → x.sys.IpcBlocked c →
    x.sys.kernel.readyHead ≠ none

/-- The frame of a new kernel stack that `pfa_alloc` returns. -/
structure Fresh (kstackPhys : Nat) : Prop where
  pos : 0 < kstackPhys
  low : kstackPhys + 0x2000 ≤ 2 ^ 32
  apart : ∀ t, x.Live t → ∀ a, L.area (x.task t) a → a < kstackPhys ∨ kstackPhys + 0x1000 ≤ a

/-- The steps of a run. -/
def Ok : ProcessorAct → Prop
  | .run st => x.Runs L st
  | .kernel a => x.sys.ExitSafe a ∧ ∀ kstackPhys, Sys.newStack a = some kstackPhys →
      x.Fresh L kstackPhys
  | .irq vector own code => x.Takes L vector own code
  | .syscall => ∀ c, x.sys.current = some c → x.st.cpu.cpl = 0 → x.Room L c
  | .sysret code => ∀ c frame s, x.sys.current = some c → x.calls c = some (frame, s) →
      x.st.cpu.esp.toNat + 4 = frame ∧ Compiled (x.Kept L c) code

end Processor

end SRos
