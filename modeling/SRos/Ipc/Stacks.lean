import SRos.Ipc.Clock
import SRos.Ipc.Step
import SRos.Sched.Contexts

/-!
# Kernel stacks under the calls

What a task gets its processor back with lies in its slot: the saved stack pointer and the bounds of
its kernel stack. No call changes them for a task that is live afterwards.
-/

namespace SRos

structure SameStack (x x' : Task) : Prop where
  pid : x'.pid = x.pid
  kernelEsp : x'.kernelEsp = x.kernelEsp
  kernelStackBase : x'.kernelStackBase = x.kernelStackBase
  kernelStackTop : x'.kernelStackTop = x.kernelStackTop

theorem SameStack.refl (x : Task) : SameStack x x := ⟨rfl, rfl, rfl, rfl⟩

/-- The tasks that are live afterwards have had the same stacks before. -/
structure KeepsStacks (s s' : Sched) : Prop where
  task : ∀ t, 0 ≤ (s'.tasks t).pid → SameStack (s.tasks t) (s'.tasks t)
  current : s'.current = s.current
  esp0 : s'.esp0 = s.esp0
  nextPid : s'.nextPid = s.nextPid

namespace KeepsStacks

variable {s s' s'' : Sched} {t c : Slot}

theorem refl (s : Sched) : KeepsStacks s s := ⟨fun t _ => .refl (s.tasks t), rfl, rfl, rfl⟩

theorem trans (h : KeepsStacks s s') (h' : KeepsStacks s' s'') : KeepsStacks s s'' where
  task := by
    intro t ht
    have hlast := h'.task t ht
    have hfirst := h.task t (hlast.pid ▸ ht)
    exact ⟨hlast.pid.trans hfirst.pid, hlast.kernelEsp.trans hfirst.kernelEsp,
      hlast.kernelStackBase.trans hfirst.kernelStackBase,
      hlast.kernelStackTop.trans hfirst.kernelStackTop⟩
  current := h'.current.trans h.current
  esp0 := h'.esp0.trans h.esp0
  nextPid := h'.nextPid.trans h.nextPid

/-- Another value in one slot. -/
theorem update (s : Sched) (t : Slot) (x : Task) (hx : 0 ≤ x.pid → SameStack (s.tasks t) x) :
    KeepsStacks s { s with tasks := Function.update s.tasks t x } := by
  refine ⟨fun u hu => ?_, rfl, rfl, rfl⟩
  by_cases hut : u = t
  · subst hut
    simp only [Function.update_self] at hu ⊢
    exact hx hu
  · simp only [Function.update_of_ne hut]
    exact .refl _

theorem setNext (s : Sched) (t : Slot) (v : Option Slot) : KeepsStacks s (s.setNext t v) :=
  update s t _ fun _ => ⟨rfl, rfl, rfl, rfl⟩

theorem setState (s : Sched) (t : Slot) (v : TaskState) : KeepsStacks s (s.setState t v) :=
  update s t _ fun _ => ⟨rfl, rfl, rfl, rfl⟩

/-- The ready list is not looked at. -/
theorem setQueue (h : KeepsStacks s s') (head tail : Option Slot) :
    KeepsStacks s { s' with readyHead := head, readyTail := tail } := ⟨h.task, h.current, h.esp0, h.nextPid⟩

theorem enqueueReady (t : Slot) (s : Sched) : KeepsStacks s (enqueueReady t s) := by
  unfold SRos.enqueueReady
  dsimp only
  split
  · exact ((setNext s t none).trans (setNext _ _ _)).setQueue _ _
  · exact (setNext s t none).setQueue _ _

theorem taskBlock (s : Sched) : KeepsStacks s (taskBlock s) := by
  unfold SRos.taskBlock
  split
  · exact .refl s
  · exact setState s _ _

theorem taskWake (t : Slot) (s : Sched) : KeepsStacks s (taskWake t s) :=
  (setState s t .ready).trans (enqueueReady t _)

theorem taskExit (code : Int) (s : Sched) : KeepsStacks s (taskExit code s) := by
  unfold SRos.taskExit
  split
  · exact .refl s
  · next c hc =>
      dsimp only
      generalize hs₁ : s.modify c _ = s₁
      have hexit : KeepsStacks s s₁ := by
        rw [← hs₁]
        exact update s c _ fun _ => ⟨rfl, rfl, rfl, rfl⟩
      split
      · split
        · exact hexit
        · split
          · exact (hexit.trans (setState s₁ _ .ready)).trans (enqueueReady _ _)
          · exact hexit
      · exact hexit

/-- The slot of a task that is collected is free afterwards. -/
theorem taskWait (pid : Int) (c : Slot) (s : Sched) : KeepsStacks s (taskWait pid c s).2 := by
  unfold SRos.taskWait
  split
  · next child _ =>
      have hcleared := update s child { pid := -1 } fun hpid => absurd hpid (by decide)
      exact ⟨hcleared.task, rfl, rfl, rfl⟩
  · split
    · exact setState s c .blocked
    · exact .refl s

end KeepsStacks

/-! ## Semaphores and message queues -/

section Kernel

variable {k k' : Kernel} {q : WaitQ} {t c : Slot}

/-- A kernel whose scheduler has kept the stacks. -/
abbrev Kernel.KeepsStacks (k k' : Kernel) : Prop := SRos.KeepsStacks k.toSched k'.toSched

theorem KeepsStacks.setWait {s : Sched} {head tail : Option Slot} (h : KeepsStacks s k.toSched) :
    KeepsStacks s (k.setWait q head tail).toSched := by
  cases q with
  | sem i => exact h
  | send j => exact h
  | recv j => exact h

theorem waitEnqueue_keepsStacks (q : WaitQ) (t : Slot) (k : Kernel) :
    k.KeepsStacks (waitEnqueue q t k) := by
  have hnext := KeepsStacks.setNext k.toSched t none
  unfold waitEnqueue
  dsimp only
  split
  · exact .setWait (hnext.trans (.setNext _ _ _))
  · exact .setWait hnext

theorem waitDequeue_keepsStacks (h : waitDequeue q k = some (t, k')) : k.KeepsStacks k' := by
  unfold waitDequeue at h
  split at h
  · cases h
  · obtain ⟨rfl, rfl⟩ := Prod.mk.inj (Option.some.inj h)
    exact (KeepsStacks.setWait (.refl k.toSched)).trans (.setNext _ _ none)

theorem blockOn_keepsStacks (q : WaitQ) (c : Slot) (k : Kernel) : k.KeepsStacks (blockOn q c k) :=
  (KeepsStacks.taskBlock k.toSched).trans (waitEnqueue_keepsStacks q c (k.sched taskBlock))

theorem wakeFirst_keepsStacks (q : WaitQ) (k : Kernel) : k.KeepsStacks (wakeFirst q k).2 := by
  unfold wakeFirst
  split
  · exact .refl k.toSched
  · next h => exact (waitDequeue_keepsStacks h).trans (.taskWake _ _)

theorem drain_keepsStacks {fuel : Nat} {woken : List Slot} (h : drain q fuel k = some (woken, k')) :
    k.KeepsStacks k' := by
  induction fuel generalizing k woken with
  | zero => cases h
  | succ fuel ih =>
      unfold drain at h
      split at h
      · obtain ⟨-, rfl⟩ := Prod.mk.inj (Option.some.inj h)
        exact .setWait (.refl k.toSched)
      · obtain ⟨⟨rest, k₁⟩, hrest, h⟩ := Option.map_eq_some_iff.mp h
        obtain ⟨-, rfl⟩ := Prod.mk.inj h
        refine KeepsStacks.trans (.trans ?_ (.taskWake _ _)) (ih hrest)
        exact (KeepsStacks.setWait (.refl k.toSched)).trans (.setNext _ _ none)

theorem semWaitSection_keepsStacks (sem : Fin maxSems) (c : Slot) (k : Kernel) :
    k.KeepsStacks (semWaitSection sem c k).2 := by
  unfold semWaitSection
  split
  · exact .refl k.toSched
  · exact blockOn_keepsStacks _ _ _

theorem semPostSection_keepsStacks {sem : Fin maxSems} {woken : Option Slot}
    (h : semPostSection sem k = some (woken, k')) : k.KeepsStacks k' := by
  have hwake := wakeFirst_keepsStacks (.sem sem) k
  unfold semPostSection at h
  split at h
  · next heq =>
      obtain ⟨-, rfl⟩ := Prod.mk.inj (Option.some.inj h)
      rwa [heq] at hwake
  · next heq =>
      obtain ⟨value, -, h⟩ := Option.bind_eq_some_iff.mp h
      obtain ⟨-, rfl⟩ := Prod.mk.inj (Option.some.inj h)
      rwa [heq] at hwake

theorem semDestroy_keepsStacks {id r : Int} {woken : List Slot}
    (h : semDestroy id k = some (r, woken, k')) : k.KeepsStacks k' := by
  unfold semDestroy at h
  split at h
  · obtain ⟨-, -, rfl⟩ := Prod.mk.inj (Option.some.inj h)
    exact .refl k.toSched
  split at h
  · obtain ⟨-, -, rfl⟩ := Prod.mk.inj (Option.some.inj h)
    exact .refl k.toSched
  · obtain ⟨⟨woken, k₁⟩, hdrain, h⟩ := Option.bind_eq_some_iff.mp h
    have hkeep := drain_keepsStacks hdrain
    obtain ⟨-, -, rfl⟩ := Prod.mk.inj (Option.some.inj h)
    exact hkeep

theorem semCreate_keepsStacks {name : Option CStr} {value r : Int}
    (h : semCreate name value k = some (r, k')) : k.KeepsStacks k' := by
  unfold semCreate at h
  split at h
  · obtain ⟨-, rfl⟩ := Prod.mk.inj (Option.some.inj h)
    exact .refl k.toSched
  · obtain ⟨semCount, -, h⟩ := Option.bind_eq_some_iff.mp h
    obtain ⟨name, -, h⟩ := Option.bind_eq_some_iff.mp h
    obtain ⟨-, rfl⟩ := Prod.mk.inj (Option.some.inj h)
    exact .refl k.toSched

theorem msgQueueCreate_keepsStacks {r : Int} (h : msgQueueCreate k = some (r, k')) :
    k.KeepsStacks k' := by
  unfold msgQueueCreate at h
  split at h
  · obtain ⟨-, rfl⟩ := Prod.mk.inj (Option.some.inj h)
    exact .refl k.toSched
  · obtain ⟨mqCount, -, h⟩ := Option.bind_eq_some_iff.mp h
    obtain ⟨-, rfl⟩ := Prod.mk.inj (Option.some.inj h)
    exact .refl k.toSched

theorem msgQueueSendSection_keepsStacks (mq : Fin maxMsgQueues) (data : Nat → UInt8) (len : Nat)
    (c : Slot) (k : Kernel) : k.KeepsStacks (msgQueueSendSection mq data len c k).2 := by
  unfold msgQueueSendSection
  split
  · exact blockOn_keepsStacks _ _ _
  · exact wakeFirst_keepsStacks _ (k.setMq mq fun m => m.deposit data len)

theorem msgQueueRecvSection_keepsStacks (mq : Fin maxMsgQueues) (c : Slot) (k : Kernel) :
    k.KeepsStacks (msgQueueRecvSection mq c k).2 := by
  unfold msgQueueRecvSection
  split
  · exact blockOn_keepsStacks _ _ _
  · exact wakeFirst_keepsStacks _ (k.setMq mq MsgQueue.remove)

theorem msgQueueDestroy_keepsStacks {id r : Int} {woken : List Slot}
    (h : msgQueueDestroy id k = some (r, woken, k')) : k.KeepsStacks k' := by
  unfold msgQueueDestroy at h
  split at h
  · obtain ⟨-, -, rfl⟩ := Prod.mk.inj (Option.some.inj h)
    exact .refl k.toSched
  split at h
  · obtain ⟨-, -, rfl⟩ := Prod.mk.inj (Option.some.inj h)
    exact .refl k.toSched
  · obtain ⟨⟨receivers, k₁⟩, hrecv, h⟩ := Option.bind_eq_some_iff.mp h
    obtain ⟨⟨senders, k₂⟩, hsend, h⟩ := Option.bind_eq_some_iff.mp h
    have hkeep := (drain_keepsStacks hrecv).trans (drain_keepsStacks hsend)
    obtain ⟨-, -, rfl⟩ := Prod.mk.inj (Option.some.inj h)
    exact hkeep

end Kernel

/-! ## New tasks -/

/-- A task has been made in the slot `t`, with its first frame on a kernel stack of its own. -/
structure NewTask (s s' : Sched) (t : Slot) (kstackPhys : Nat) (frame : Registers) : Prop where
  slot : taskFindSlot s = some t
  pid : (s'.tasks t).pid = s.nextPid
  kernelEsp : (s'.tasks t).kernelEsp = initialFrame kstackPhys
  kernelStackBase : (s'.tasks t).kernelStackBase = kstackPhys
  kernelStackTop : (s'.tasks t).kernelStackTop = kstackTop kstackPhys
  others : ∀ u, u ≠ t → SameStack (s.tasks u) (s'.tasks u)
  frames : s'.frames = Function.update s.frames (initialFrame kstackPhys) frame
  current : s'.current = s.current
  esp0 : s'.esp0 = s.esp0
  nextPid : s'.nextPid = s.nextPid + 1

section NewTask

variable {s s' : Sched} {kstackPhys : Nat} {r : Int}

theorem enqueueReady_sameStack (t u : Slot) (s : Sched) :
    SameStack (s.tasks u) ((enqueueReady t s).tasks u) := by
  have hquiet := (enqueueReady_quiet t s).1
  have hsame := (SameContexts.enqueueReady t s).1
  exact ⟨hquiet.pid u, hsame.esp u, hquiet.stack u, hsame.top u⟩

theorem enqueueReady_frames (t : Slot) (s : Sched) : (enqueueReady t s).frames = s.frames := by
  unfold enqueueReady
  dsimp only
  split <;> rfl

theorem newTask_enqueue {t : Slot} {x : Task} {frame : Registers} {n : Int}
    (hslot : taskFindSlot s = some t) (hn : n = s.nextPid + 1) (hpid : x.pid = s.nextPid)
    (hesp : x.kernelEsp = initialFrame kstackPhys) (hbase : x.kernelStackBase = kstackPhys)
    (htop : x.kernelStackTop = kstackTop kstackPhys) :
    let s₁ := enqueueReady t { s with
      frames := Function.update s.frames (initialFrame kstackPhys) frame
      nextPid := n
      tasks := Function.update s.tasks t x }
    NewTask s { s₁ with taskCount := s₁.taskCount + 1 } t kstackPhys frame := by
  intro s₁
  let s₀ : Sched := { s with
    frames := Function.update s.frames (initialFrame kstackPhys) frame
    nextPid := n
    tasks := Function.update s.tasks t x }
  have hkeep := KeepsStacks.enqueueReady t s₀
  have hself := enqueueReady_sameStack t t s₀
  have htask : s₀.tasks t = x := Function.update_self ..
  rw [htask] at hself
  refine ⟨hslot, hself.pid.trans hpid, hself.kernelEsp.trans hesp, hself.kernelStackBase.trans hbase,
    hself.kernelStackTop.trans htop, ?_, enqueueReady_frames t s₀, hkeep.current, hkeep.esp0,
    hkeep.nextPid.trans hn⟩
  intro u hu
  have hother := enqueueReady_sameStack t u s₀
  have hold : s₀.tasks u = s.tasks u := Function.update_of_ne hu ..
  rwa [hold] at hother

theorem taskCreate_new {name : CStr} {entry : Nat}
    (h : taskCreate name entry kstackPhys s = some (r, s')) :
    s' = s ∨ ∃ t, NewTask s s' t kstackPhys (createFrame (initialFrame kstackPhys) entry) := by
  unfold taskCreate at h
  split at h
  · obtain ⟨-, rfl⟩ := Prod.mk.inj (Option.some.inj h)
    exact .inl rfl
  · next t ht =>
      obtain ⟨n, hn, h⟩ := Option.bind_eq_some_iff.mp h
      obtain ⟨nm, -, h⟩ := Option.bind_eq_some_iff.mp h
      obtain ⟨-, rfl⟩ := Prod.mk.inj (Option.some.inj h)
      exact .inr ⟨t, newTask_enqueue ht (intSucc_eq_some hn) rfl rfl rfl rfl⟩

theorem taskFork_new {regs newPageDir : Nat}
    (h : taskFork regs newPageDir kstackPhys s = some (r, s')) :
    s' = s ∨ ∃ t, NewTask s s' t kstackPhys { s.frames regs with eax := 0 } := by
  unfold taskFork at h
  split at h
  · obtain ⟨-, rfl⟩ := Prod.mk.inj (Option.some.inj h)
    exact .inl rfl
  · next t ht =>
      split at h
      · obtain ⟨-, rfl⟩ := Prod.mk.inj (Option.some.inj h)
        exact .inl rfl
      · obtain ⟨c, -, h⟩ := Option.bind_eq_some_iff.mp h
        obtain ⟨n, hn, h⟩ := Option.bind_eq_some_iff.mp h
        obtain ⟨-, rfl⟩ := Prod.mk.inj (Option.some.inj h)
        exact .inr ⟨t, newTask_enqueue ht (intSucc_eq_some hn) rfl rfl rfl rfl⟩

end NewTask

/-! ## Steps -/

namespace Sys

variable {s s' : Sys} {c : Slot} {a : Act}

/-- A scheduler that has kept the stacks. -/
abbrev KeepsStacks (s s' : Sys) : Prop := SRos.KeepsStacks s.kernel.toSched s'.kernel.toSched

theorem waitPass_keepsStacks (s : Sys) (c : Slot) (pid : Int) : s.KeepsStacks (s.waitPass c pid) := by
  have hwait := SRos.KeepsStacks.taskWait pid c s.kernel.toSched
  unfold waitPass
  split
  · next heq => rwa [heq] at hwait
  · next heq => rwa [heq] at hwait

theorem semWaitStep_keepsStacks (s : Sys) (c : Slot) (id : Int) (sem : Fin maxSems) :
    s.KeepsStacks (s.semWaitStep c id sem) := by
  have hwait := semWaitSection_keepsStacks sem c s.kernel
  unfold semWaitStep
  split
  · next heq => rwa [heq] at hwait
  · next heq => rwa [heq] at hwait

theorem sendStep_keepsStacks (s : Sys) (c : Slot) (id : Int) (mq : Fin maxMsgQueues)
    (data : Nat → UInt8) (len : Nat) : s.KeepsStacks (s.sendStep c id mq data len) := by
  have hsend := msgQueueSendSection_keepsStacks mq data len c s.kernel
  unfold sendStep
  split
  · next heq => rwa [heq] at hsend
  · next heq => rwa [heq] at hsend

theorem recvStep_keepsStacks (s : Sys) (c : Slot) (id : Int) (mq : Fin maxMsgQueues) :
    s.KeepsStacks (s.recvStep c id mq) := by
  have hrecv := msgQueueRecvSection_keepsStacks mq c s.kernel
  unfold recvStep
  split
  · next heq => rwa [heq] at hrecv
  · next heq => rwa [heq] at hrecv

/-- The frame of the kernel stack that a call takes. -/
def newStack : Act → Option Nat
  | .call (.create _ _ kstackPhys) => some kstackPhys
  | .call (.fork _ _ kstackPhys) => some kstackPhys
  | _ => none

/-- Every step that makes no task and does not run the scheduler. -/
theorem step_keepsStacks (hs : s.step a = some s') (hticks : s.ticks a = false)
    (hnew : newStack a = none) : s.KeepsStacks s' := by
  cases step_move hs with
  | tick ht => cases hticks
  | yield hc hpc ht => cases hticks
  | int hc hpc ht =>
      simp only [ticks, hc, hpc] at hticks
      cases hticks
  | create hc hpc hs => cases hnew
  | fork hc hpc hs => cases hnew
  | exit hc hpc => exact .taskExit _ _
  | wait hc hpc => exact waitPass_keepsStacks s _ _
  | waitAgain hc hpc => exact waitPass_keepsStacks s _ _
  | semCreate hc hpc hk => exact semCreate_keepsStacks hk
  | mqCreate hc hpc hk => exact msgQueueCreate_keepsStacks hk
  | enter hc hpc hp => exact .refl _
  | refuseWait hc hpc => exact .refl _
  | refuse hc hpc hcall => exact .refl _
  | semWait hc hpc => exact semWaitStep_keepsStacks s _ _ _
  | semWaitDone hc hpc => exact .refl _
  | semPost hc hpc hs =>
      obtain ⟨⟨woken, k⟩, hpost, h⟩ := Option.bind_eq_some_iff.mp hs
      obtain rfl := Option.some.inj h
      exact semPostSection_keepsStacks hpost
  | send hc hpc => exact sendStep_keepsStacks s _ _ _ _ _
  | recv hc hpc => exact recvStep_keepsStacks s _ _ _
  | semDestroy hc hpc hk => exact semDestroy_keepsStacks hk
  | mqDestroy hc hpc hk => exact msgQueueDestroy_keepsStacks hk

/-- The first frame of the task that a call makes. -/
def newFrame (s : Sys) : Act → Registers
  | .call (.create _ entry kstackPhys) => createFrame (initialFrame kstackPhys) entry
  | .call (.fork regs _ _) => { s.kernel.frames regs with eax := 0 }
  | _ => {}

theorem step_newTask {kstackPhys : Nat} (hs : s.step a = some s')
    (hnew : newStack a = some kstackPhys) :
    s'.kernel.toSched = s.kernel.toSched ∨
      ∃ t, NewTask s.kernel.toSched s'.kernel.toSched t kstackPhys (s.newFrame a) := by
  cases step_move hs with
  | create hc hpc hs =>
      obtain ⟨r, sched, hr, rfl⟩ := spawn_eq hs
      obtain rfl := Option.some.inj hnew
      exact taskCreate_new hr
  | fork hc hpc hs =>
      obtain ⟨r, sched, hr, rfl⟩ := spawn_eq hs
      obtain rfl := Option.some.inj hnew
      exact taskFork_new hr
  | @refuse _ call _ _ hcall =>
      cases call with
      | create => cases hcall
      | fork => cases hcall
      | _ => cases hnew
  | enter hc hpc hp => cases hp <;> cases hnew
  | _ => cases hnew

end Sys

end SRos
