import Mathlib.Tactic.Common
import SRos.Ipc.System

/-!
# The clock (`src/kernel/irq.c`, `src/boot/idt_asm.s`)

`irq_common` calls `irq_handler` and then `scheduler_tick`, and each of them counts a tick on
vector 32. A task that yields enters through the same vector.
-/

namespace SRos

/-- `timer_handler`, as far as it concerns the scheduler's variables. -/
def timerHandler (s : Sched) : Sched := { s with timerTicks := u32 (s.timerTicks + 1) }

/-- `irq_handler`. The handlers of the other vectors leave the scheduler's variables alone. -/
def irqHandler (intNo : Nat) (s : Sched) : Sched := if intNo = 32 then timerHandler s else s

/-- `irq_common`: the frame to resume, and the variables behind it. -/
def irqCommon (intNo regs : Nat) (s : Sched) : Option (Nat × Sched) :=
  schedulerTick intNo regs (irqHandler intNo s)

inductive ClockAct where
  /-- The PIT interrupts the running task, whose frame is `regs`. -/
  | pit (regs : Nat)
  /-- One of the other fifteen lines does. -/
  | irq (line : Fin 15) (regs : Nat)
  /-- The running task starts a call. -/
  | call (c : Call)
  /-- The running task goes on inside a call. -/
  | cont (regs : Nat)

namespace Sys

/-- An interrupt, by the hardware or by `int $32`. -/
def interrupt (intNo regs : Nat) (s : Sys) : Option Sys := do
  let (_, sched) ← irqCommon intNo regs s.kernel.toSched
  return { s with kernel := { s.kernel with toSched := sched } }

/-- The first step of a call, where `task_yield` enters through vector 32. -/
def callThrough (s : Sys) (c : Slot) : Call → Option Sys
  | .yield regs => s.interrupt 32 regs
  | call => s.call c call

/-- The next step of a call, where every `int $32` enters through vector 32. -/
def contThrough (s : Sys) (c : Slot) (regs : Nat) : Option Sys :=
  match s.pc c with
  | .semWaitInt id sem => (s.setPc c (.semWaitDone id sem)).interrupt 32 regs
  | .sendInt id mq data len => (s.setPc c (.sendAgain id mq data len)).interrupt 32 regs
  | .recvInt id mq => (s.setPc c (.recvAgain id mq)).interrupt 32 regs
  | .exitInt => s.interrupt 32 regs
  | .waitInt pid => (s.setPc c (.waitAgain pid)).interrupt 32 regs
  | _ => s.cont c regs

def clockStep (s : Sys) : ClockAct → Option Sys
  | .pit regs => s.interrupt 32 regs
  | .irq line regs => s.interrupt (33 + line) regs
  | .call call => do
      let c ← s.current
      match s.pc c with
      | .user => s.callThrough c call
      | _ => none
  | .cont regs => do
      let c ← s.current
      s.contThrough c regs

/-- The task is at an `int $32`. -/
def atInt (s : Sys) (c : Slot) : Bool :=
  match s.pc c with
  | .semWaitInt .. | .sendInt .. | .recvInt .. | .exitInt | .waitInt _ => true
  | _ => false

/-- A step in which a task yields. -/
def yields (s : Sys) : ClockAct → Bool
  | .call (.yield _) => true
  | .cont _ => s.current.any s.atInt
  | _ => false

end Sys

/-- A run, with the PIT interrupts and the yields in it. -/
structure ClockRun where
  sys : Sys
  pits : Nat
  yields : Nat

def ClockAct.isPit : ClockAct → Bool
  | .pit _ => true
  | _ => false

def ClockRun.step (r : ClockRun) (a : ClockAct) : Option ClockRun := do
  let sys ← r.sys.clockStep a
  return {
    sys
    pits := if a.isPit then r.pits + 1 else r.pits
    yields := if r.sys.yields a then r.yields + 1 else r.yields }

/-! ## What leaves the clock alone -/

section Sched

variable {s s' : Sched} {t c : Slot} {regs f : Nat}

@[simp] theorem enqueueReady_timerTicks : (enqueueReady t s).timerTicks = s.timerTicks := by
  unfold enqueueReady
  dsimp only
  split <;> rfl

theorem dequeueReady_timerTicks (h : dequeueReady s = some (t, s')) :
    s'.timerTicks = s.timerTicks := by
  unfold dequeueReady at h
  split at h
  · cases h
  · obtain ⟨-, rfl⟩ := Prod.mk.inj (Option.some.inj h)
    rfl

theorem pickNext_timerTicks (h : pickNext regs c s = some (f, s')) :
    s'.timerTicks = s.timerTicks := by
  unfold pickNext at h
  split at h
  · split at h
    · obtain ⟨-, rfl⟩ := Prod.mk.inj (Option.some.inj h)
      rfl
    · cases h
  · next hnext =>
      have hticks := dequeueReady_timerTicks hnext
      obtain ⟨-, rfl⟩ := Prod.mk.inj (Option.some.inj h)
      split
      · exact hticks
      · exact hticks

theorem tickCurrent_timerTicks (h : tickCurrent regs c s = some (f, s')) :
    s'.timerTicks = s.timerTicks := by
  unfold tickCurrent at h
  split at h
  · exact pickNext_timerTicks h
  · exact pickNext_timerTicks h
  all_goals
    split at h
    · exact (pickNext_timerTicks h).trans enqueueReady_timerTicks
    · obtain ⟨-, rfl⟩ := Prod.mk.inj (Option.some.inj h)
      rfl

/-- `scheduler_tick` counts on vector 32. -/
theorem schedulerTick_timerTicks {intNo : Nat} (h : schedulerTick intNo regs s = some (f, s')) :
    s'.timerTicks = if intNo = 32 then u32 (s.timerTicks + 1) else s.timerTicks := by
  unfold schedulerTick at h
  split at h
  · next hne =>
      obtain ⟨-, rfl⟩ := Prod.mk.inj (Option.some.inj h)
      rw [if_neg hne]
  · next heq =>
      rw [if_pos (not_not.mp heq)]
      dsimp only at h
      split at h
      · obtain ⟨-, rfl⟩ := Prod.mk.inj (Option.some.inj h)
        rfl
      · exact tickCurrent_timerTicks h

/-- Both functions on the path of an interrupt count on vector 32. -/
theorem irqCommon_timerTicks {intNo : Nat} (h : irqCommon intNo regs s = some (f, s')) :
    s'.timerTicks = if intNo = 32 then u32 (s.timerTicks + 2) else s.timerTicks := by
  have hticks := schedulerTick_timerTicks h
  unfold irqHandler timerHandler at hticks
  split at hticks
  · next heq =>
      rw [if_pos heq, hticks]
      simp [u32, Nat.add_assoc]
  · next hne => rw [if_neg hne, hticks]

@[simp] theorem taskBlock_timerTicks : (taskBlock s).timerTicks = s.timerTicks := by
  unfold taskBlock
  split <;> rfl

@[simp] theorem taskWake_timerTicks : (taskWake t s).timerTicks = s.timerTicks :=
  enqueueReady_timerTicks

@[simp] theorem taskExit_timerTicks {code : Int} : (taskExit code s).timerTicks = s.timerTicks := by
  unfold taskExit
  split
  · rfl
  dsimp only
  split
  · split
    · rfl
    split
    · exact enqueueReady_timerTicks
    · rfl
  · rfl

@[simp] theorem taskWait_timerTicks {pid : Int} : (taskWait pid c s).2.timerTicks = s.timerTicks := by
  unfold taskWait
  split
  · rfl
  split
  · rfl
  · rfl

theorem taskCreate_timerTicks {name : CStr} {entry stack : Nat} {r : Int}
    (h : taskCreate name entry stack s = some (r, s')) : s'.timerTicks = s.timerTicks := by
  unfold taskCreate at h
  split at h
  · obtain ⟨-, rfl⟩ := Prod.mk.inj (Option.some.inj h)
    rfl
  · obtain ⟨nextPid, -, h⟩ := Option.bind_eq_some_iff.mp h
    obtain ⟨name, -, h⟩ := Option.bind_eq_some_iff.mp h
    obtain ⟨-, rfl⟩ := Prod.mk.inj (Option.some.inj h)
    exact enqueueReady_timerTicks

theorem taskFork_timerTicks {dir stack : Nat} {r : Int}
    (h : taskFork regs dir stack s = some (r, s')) : s'.timerTicks = s.timerTicks := by
  unfold taskFork at h
  split at h
  · obtain ⟨-, rfl⟩ := Prod.mk.inj (Option.some.inj h)
    rfl
  split at h
  · obtain ⟨-, rfl⟩ := Prod.mk.inj (Option.some.inj h)
    rfl
  · obtain ⟨c, -, h⟩ := Option.bind_eq_some_iff.mp h
    obtain ⟨nextPid, -, h⟩ := Option.bind_eq_some_iff.mp h
    obtain ⟨-, rfl⟩ := Prod.mk.inj (Option.some.inj h)
    exact enqueueReady_timerTicks

end Sched

section Kernel

variable {k k' : Kernel} {q : WaitQ} {t c : Slot}

@[simp] theorem setWait_timerTicks {head tail : Option Slot} :
    (k.setWait q head tail).timerTicks = k.timerTicks := by
  cases q <;> rfl

@[simp] theorem waitEnqueue_timerTicks : (waitEnqueue q t k).timerTicks = k.timerTicks := by
  unfold waitEnqueue
  dsimp only
  split
  · exact setWait_timerTicks
  · exact setWait_timerTicks

theorem waitDequeue_timerTicks (h : waitDequeue q k = some (t, k')) :
    k'.timerTicks = k.timerTicks := by
  unfold waitDequeue at h
  split at h
  · cases h
  · obtain ⟨-, rfl⟩ := Prod.mk.inj (Option.some.inj h)
    exact setWait_timerTicks

@[simp] theorem blockOn_timerTicks : (blockOn q c k).timerTicks = k.timerTicks :=
  waitEnqueue_timerTicks.trans taskBlock_timerTicks

@[simp] theorem wakeFirst_timerTicks : (wakeFirst q k).2.timerTicks = k.timerTicks := by
  unfold wakeFirst
  split
  · rfl
  · next h => exact taskWake_timerTicks.trans (waitDequeue_timerTicks h)

theorem drain_timerTicks {fuel : Nat} {woken : List Slot} (h : drain q fuel k = some (woken, k')) :
    k'.timerTicks = k.timerTicks := by
  induction fuel generalizing k woken with
  | zero => cases h
  | succ fuel ih =>
      unfold drain at h
      split at h
      · obtain ⟨-, rfl⟩ := Prod.mk.inj (Option.some.inj h)
        exact setWait_timerTicks
      · obtain ⟨⟨rest, k₁⟩, hrest, h⟩ := Option.map_eq_some_iff.mp h
        obtain ⟨-, rfl⟩ := Prod.mk.inj h
        exact (ih hrest).trans (taskWake_timerTicks.trans setWait_timerTicks)

theorem semCreate_timerTicks {name : Option CStr} {value r : Int}
    (h : semCreate name value k = some (r, k')) : k'.timerTicks = k.timerTicks := by
  unfold semCreate at h
  split at h
  · obtain ⟨-, rfl⟩ := Prod.mk.inj (Option.some.inj h)
    rfl
  · obtain ⟨semCount, -, h⟩ := Option.bind_eq_some_iff.mp h
    obtain ⟨name, -, h⟩ := Option.bind_eq_some_iff.mp h
    obtain ⟨-, rfl⟩ := Prod.mk.inj (Option.some.inj h)
    rfl

@[simp] theorem semWaitSection_timerTicks {sem : Fin maxSems} :
    (semWaitSection sem c k).2.timerTicks = k.timerTicks := by
  unfold semWaitSection
  split
  · rfl
  · exact blockOn_timerTicks

theorem semPostSection_timerTicks {sem : Fin maxSems} {woken : Option Slot}
    (h : semPostSection sem k = some (woken, k')) : k'.timerTicks = k.timerTicks := by
  have hwake := @wakeFirst_timerTicks k (.sem sem)
  unfold semPostSection at h
  split at h
  · next heq =>
      obtain ⟨-, rfl⟩ := Prod.mk.inj (Option.some.inj h)
      rwa [heq] at hwake
  · next heq =>
      obtain ⟨value, -, h⟩ := Option.bind_eq_some_iff.mp h
      obtain ⟨-, rfl⟩ := Prod.mk.inj (Option.some.inj h)
      rwa [heq] at hwake

theorem semDestroy_timerTicks {id r : Int} {woken : List Slot}
    (h : semDestroy id k = some (r, woken, k')) : k'.timerTicks = k.timerTicks := by
  unfold semDestroy at h
  split at h
  · obtain ⟨-, -, rfl⟩ := Prod.mk.inj (Option.some.inj h)
    rfl
  split at h
  · obtain ⟨-, -, rfl⟩ := Prod.mk.inj (Option.some.inj h)
    rfl
  · obtain ⟨⟨woken, k₁⟩, hdrain, h⟩ := Option.bind_eq_some_iff.mp h
    have hticks := drain_timerTicks hdrain
    obtain ⟨-, -, rfl⟩ := Prod.mk.inj (Option.some.inj h)
    exact hticks

theorem msgQueueCreate_timerTicks {r : Int} (h : msgQueueCreate k = some (r, k')) :
    k'.timerTicks = k.timerTicks := by
  unfold msgQueueCreate at h
  split at h
  · obtain ⟨-, rfl⟩ := Prod.mk.inj (Option.some.inj h)
    rfl
  · obtain ⟨mqCount, -, h⟩ := Option.bind_eq_some_iff.mp h
    obtain ⟨-, rfl⟩ := Prod.mk.inj (Option.some.inj h)
    rfl

@[simp] theorem msgQueueSendSection_timerTicks {mq : Fin maxMsgQueues} {data : Nat → UInt8}
    {len : Nat} : (msgQueueSendSection mq data len c k).2.timerTicks = k.timerTicks := by
  unfold msgQueueSendSection
  split
  · exact blockOn_timerTicks
  · exact wakeFirst_timerTicks

@[simp] theorem msgQueueRecvSection_timerTicks {mq : Fin maxMsgQueues} :
    (msgQueueRecvSection mq c k).2.timerTicks = k.timerTicks := by
  unfold msgQueueRecvSection
  split
  · exact blockOn_timerTicks
  · exact wakeFirst_timerTicks

theorem msgQueueDestroy_timerTicks {id r : Int} {woken : List Slot}
    (h : msgQueueDestroy id k = some (r, woken, k')) : k'.timerTicks = k.timerTicks := by
  unfold msgQueueDestroy at h
  split at h
  · obtain ⟨-, -, rfl⟩ := Prod.mk.inj (Option.some.inj h)
    rfl
  split at h
  · obtain ⟨-, -, rfl⟩ := Prod.mk.inj (Option.some.inj h)
    rfl
  · obtain ⟨⟨receivers, k₁⟩, hrecv, h⟩ := Option.bind_eq_some_iff.mp h
    obtain ⟨⟨senders, k₂⟩, hsend, h⟩ := Option.bind_eq_some_iff.mp h
    obtain ⟨-, -, rfl⟩ := Prod.mk.inj (Option.some.inj h)
    exact (drain_timerTicks hsend).trans (drain_timerTicks hrecv)

end Kernel

/-! ## What a step does to it -/

namespace Sys

variable {s s' : Sys} {c : Slot} {regs : Nat}

/-- `timer_ticks`. -/
def timerTicks (s : Sys) : Nat := s.kernel.timerTicks

theorem interrupt_ticks {intNo : Nat} (h : s.interrupt intNo regs = some s') :
    s'.timerTicks = if intNo = 32 then u32 (s.timerTicks + 2) else s.timerTicks := by
  obtain ⟨⟨f, sched⟩, hirq, h⟩ := Option.bind_eq_some_iff.mp h
  obtain rfl := Option.some.inj h
  exact irqCommon_timerTicks hirq

theorem waitPass_ticks {pid : Int} : (s.waitPass c pid).timerTicks = s.timerTicks := by
  have hticks := @taskWait_timerTicks s.kernel.toSched c pid
  unfold waitPass
  split
  · next heq => rwa [heq] at hticks
  · next heq => rwa [heq] at hticks

theorem spawn_ticks {r : Option (Int × Sched)}
    (hr : ∀ i sched, r = some (i, sched) → sched.timerTicks = s.timerTicks) (h : s.spawn r = some s') :
    s'.timerTicks = s.timerTicks := by
  obtain ⟨⟨i, sched⟩, hsome, h⟩ := Option.bind_eq_some_iff.mp h
  obtain rfl := Option.some.inj h
  exact hr i sched hsome

theorem semWaitStep_ticks {id : Int} {sem : Fin maxSems} :
    (s.semWaitStep c id sem).timerTicks = s.timerTicks := by
  have hticks := @semWaitSection_timerTicks s.kernel c sem
  unfold semWaitStep
  split
  · next heq => rwa [heq] at hticks
  · next heq => rwa [heq] at hticks

theorem semPostStep_ticks {id : Int} {sem : Fin maxSems} (h : s.semPostStep c id sem = some s') :
    s'.timerTicks = s.timerTicks := by
  obtain ⟨⟨woken, k⟩, hpost, h⟩ := Option.bind_eq_some_iff.mp h
  obtain rfl := Option.some.inj h
  exact semPostSection_timerTicks hpost

theorem sendStep_ticks {id : Int} {mq : Fin maxMsgQueues} {data : Nat → UInt8} {len : Nat} :
    (s.sendStep c id mq data len).timerTicks = s.timerTicks := by
  have hticks := @msgQueueSendSection_timerTicks s.kernel c mq data len
  unfold sendStep
  split
  · next heq => rwa [heq] at hticks
  · next heq => rwa [heq] at hticks

theorem recvStep_ticks {id : Int} {mq : Fin maxMsgQueues} :
    (s.recvStep c id mq).timerTicks = s.timerTicks := by
  have hticks := @msgQueueRecvSection_timerTicks s.kernel c mq
  unfold recvStep
  split
  · next heq => rwa [heq] at hticks
  · next heq => rwa [heq] at hticks

/-- A call leaves the clock alone, except for `task_yield`. -/
theorem call_ticks {call : Call} (hyield : ∀ regs, call ≠ .yield regs)
    (h : s.call c call = some s') : s'.timerTicks = s.timerTicks := by
  cases call with
  | create name entry stack => exact spawn_ticks (fun _ _ => taskCreate_timerTicks) h
  | fork regs dir stack => exact spawn_ticks (fun _ _ => taskFork_timerTicks) h
  | exit code =>
      obtain rfl := Option.some.inj h
      exact taskExit_timerTicks
  | wait pid =>
      obtain rfl := Option.some.inj h
      exact waitPass_ticks
  | yield regs => exact absurd rfl (hyield regs)
  | semCreate name value =>
      obtain ⟨⟨id, k⟩, hcreate, h⟩ := Option.bind_eq_some_iff.mp h
      obtain rfl := Option.some.inj h
      exact semCreate_timerTicks hcreate
  | semDestroy id =>
      obtain ⟨⟨r, woken, k⟩, hdestroy, h⟩ := Option.bind_eq_some_iff.mp h
      obtain rfl := Option.some.inj h
      exact semDestroy_timerTicks hdestroy
  | mqCreate =>
      obtain ⟨⟨id, k⟩, hcreate, h⟩ := Option.bind_eq_some_iff.mp h
      obtain rfl := Option.some.inj h
      exact msgQueueCreate_timerTicks hcreate
  | mqDestroy id =>
      obtain ⟨⟨r, woken, k⟩, hdestroy, h⟩ := Option.bind_eq_some_iff.mp h
      obtain rfl := Option.some.inj h
      exact msgQueueDestroy_timerTicks hdestroy
  | semWait id | semPost id | mqSend id data len | mqRecv id buf lenPtr =>
      -- A lookup decides whether the task goes into the function.
      unfold Sys.call at h
      dsimp only at h
      split at h
      all_goals
        obtain rfl := Option.some.inj h
        rfl

/-- So does a step inside a call that is not an `int $32`. -/
theorem cont_ticks (hint : s.atInt c = false) (h : s.cont c regs = some s') :
    s'.timerTicks = s.timerTicks := by
  unfold atInt at hint
  unfold cont at h
  split at h
  · cases h
  · obtain rfl := Option.some.inj h
    exact semWaitStep_ticks
  · next heq => rw [heq] at hint; cases hint
  · obtain rfl := Option.some.inj h
    rfl
  · exact semPostStep_ticks h
  · obtain rfl := Option.some.inj h
    exact sendStep_ticks
  · next heq => rw [heq] at hint; cases hint
  · obtain rfl := Option.some.inj h
    exact sendStep_ticks
  · obtain rfl := Option.some.inj h
    exact recvStep_ticks
  · next heq => rw [heq] at hint; cases hint
  · obtain rfl := Option.some.inj h
    exact recvStep_ticks
  · next heq => rw [heq] at hint; cases hint
  · next heq => rw [heq] at hint; cases hint
  · obtain rfl := Option.some.inj h
    exact waitPass_ticks

theorem callThrough_ticks {call : Call} (h : s.callThrough c call = some s') :
    s'.timerTicks = if s.yields (.call call) then u32 (s.timerTicks + 2) else s.timerTicks := by
  by_cases hyield : ∃ regs, call = .yield regs
  · obtain ⟨regs, rfl⟩ := hyield
    exact interrupt_ticks h
  · have hno : ∀ regs, call ≠ .yield regs := fun regs heq => hyield ⟨regs, heq⟩
    have hyields : s.yields (.call call) = false := by
      cases call with
      | yield regs => exact absurd rfl (hno regs)
      | _ => rfl
    have hcall : s.callThrough c call = s.call c call := by
      cases call with
      | yield regs => exact absurd rfl (hno regs)
      | _ => rfl
    rw [hyields]
    exact call_ticks hno (hcall ▸ h)

theorem contThrough_ticks (h : s.contThrough c regs = some s') :
    s'.timerTicks = if s.atInt c then u32 (s.timerTicks + 2) else s.timerTicks := by
  by_cases hint : s.atInt c
  · rw [if_pos hint]
    unfold atInt at hint
    unfold contThrough at h
    split at hint
    iterate 5 next heq =>
      rw [heq] at h
      exact interrupt_ticks h
    cases hint
  · rw [if_neg hint]
    refine @cont_ticks s s' c regs (by simpa using hint) ?_
    rw [← h]
    unfold atInt at hint
    unfold contThrough
    split
    iterate 5 next heq => exact absurd (by rw [heq]) hint
    rfl

/-- Every step through vector 32 counts two ticks, and no other step counts. -/
theorem clockStep_ticks {a : ClockAct} (h : s.clockStep a = some s') :
    s'.timerTicks = if a.isPit || s.yields a then u32 (s.timerTicks + 2) else s.timerTicks := by
  cases a with
  | pit regs => exact interrupt_ticks h
  | irq line regs =>
      have hticks := interrupt_ticks h
      rwa [if_neg (by omega)] at hticks
  | call call =>
      obtain ⟨c, -, h⟩ := Option.bind_eq_some_iff.mp h
      split at h
      · exact callThrough_ticks h
      · cases h
  | cont regs =>
      obtain ⟨c, hc, h⟩ := Option.bind_eq_some_iff.mp h
      have hticks := contThrough_ticks h
      have hyields : s.yields (.cont regs) = s.atInt c := by
        rw [yields, hc, Option.any_some]
      rw [hyields]
      exact hticks

end Sys

/-! ## Runs -/

namespace ClockRun

variable {r r' : ClockRun} {a : ClockAct} {acts : List ClockAct} {start : Nat}

/-- Every PIT interrupt and every yield has counted two ticks. -/
def Counts (start : Nat) (r : ClockRun) : Prop :=
  r.sys.timerTicks = u32 (start + 2 * (r.pits + r.yields))

theorem Counts.step (h : Counts start r) (hr : r.step a = some r') : Counts start r' := by
  obtain ⟨sys, hsys, hr⟩ := Option.bind_eq_some_iff.mp hr
  obtain rfl := Option.some.inj hr
  have hticks := Sys.clockStep_ticks hsys
  have hapart : a.isPit = true → r.sys.yields a = false := by
    intro hpit
    cases a with
    | pit regs => rfl
    | _ => cases hpit
  unfold Counts at h ⊢
  dsimp only
  rw [hticks, h]
  cases hpit : a.isPit with
  | true =>
      rw [hapart hpit]
      unfold u32
      simp only [Bool.or_false, if_true, Bool.false_eq_true, if_false]
      omega
  | false =>
      cases r.sys.yields a with
      | true =>
          unfold u32
          simp only [Bool.or_true, if_true, Bool.false_eq_true, if_false]
          omega
      | false => rfl

theorem Counts.run (h : Counts start r) (hr : acts.foldlM ClockRun.step r = some r') :
    Counts start r' := by
  induction acts generalizing r with
  | nil => exact Option.some.inj hr ▸ h
  | cons a acts ih =>
      rw [List.foldlM_cons] at hr
      obtain ⟨r₁, hr₁, hr⟩ := Option.bind_eq_some_iff.mp hr
      exact ih (h.step hr₁) hr

end ClockRun

/-- In every run from a state on: `timer_ticks` has grown by the number of PIT interrupts, as a
word, just when that number and twice the number of yields add up to a multiple of `2 ^ 32`. As
long as they are fewer that means: there was none of either. -/
theorem clock_counts_pit_iff (s : Sys) (hs : s.timerTicks < 2 ^ 32) (acts : List ClockAct) (r : ClockRun)
    (hr : acts.foldlM ClockRun.step ⟨s, 0, 0⟩ = some r) :
    (r.sys.timerTicks = u32 (s.timerTicks + r.pits) ↔ 2 ^ 32 ∣ r.pits + 2 * r.yields) ∧
      (r.pits + 2 * r.yields < 2 ^ 32 →
        (r.sys.timerTicks = u32 (s.timerTicks + r.pits) ↔ r.pits = 0 ∧ r.yields = 0)) := by
  have hstart : ClockRun.Counts s.timerTicks ⟨s, 0, 0⟩ := (u32_of_lt hs).symm
  have hcounts : r.sys.timerTicks = u32 (s.timerTicks + 2 * (r.pits + r.yields)) := hstart.run hr
  rw [hcounts]
  unfold u32
  omega

/-- A key is pressed at the start. -/
theorem clock_counts_key : ∃ s r, Sys.boot (fun _ => {}) 0 0 0 = some s ∧
    [.irq 0 0].foldlM ClockRun.step ⟨s, 0, 0⟩ = some r ∧
      (r.sys.timerTicks = u32 (s.timerTicks + r.pits) ↔ 2 ^ 32 ∣ r.pits + 2 * r.yields) :=
  ⟨_, _, rfl, rfl, (clock_counts_pit_iff _ (by decide) [.irq 0 0] _ rfl).1⟩

/-- One PIT interrupt at the start. -/
theorem clock_counts_twice : ∃ s r, Sys.boot (fun _ => {}) 0 0 0 = some s ∧
    [.pit 0].foldlM ClockRun.step ⟨s, 0, 0⟩ = some r ∧
      r.pits = 1 ∧ r.sys.timerTicks = 2 ∧ r.sys.timerTicks ≠ u32 (s.timerTicks + r.pits) :=
  ⟨_, _, rfl, rfl, rfl, rfl, by decide⟩

end SRos
