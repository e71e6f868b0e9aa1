import SRos.Ipc.Objects
import SRos.Ipc.System

/-!
# The linkage view of a state

The part of a state that decides which task is in which queue: the `next` fields, the head
and tail pointers of the ready list and of all wait lists, and the process identifiers and
states. Every kernel function acts on this view by appending to a queue, removing from it, or
changing the state of one task.
-/

namespace SRos

/-- The ready list and the wait lists. -/
inductive QueueId where
  | ready
  | wait (q : WaitQ)
  deriving DecidableEq

@[ext] structure View where
  next : Slot → Option Slot
  head : QueueId → Option Slot
  tail : QueueId → Option Slot
  pid : Slot → Int
  state : Slot → TaskState
  current : Option Slot
  nextPid : Int
  taskCount : Int

namespace View

def push (q : QueueId) (t : Slot) (v : View) : View :=
  { v with
    next := Queue.pushNext v.next (v.tail q) t
    head := Function.update v.head q (Queue.pushHead (v.head q) (v.tail q) t)
    tail := Function.update v.tail q (some t) }

def pop (q : QueueId) (t : Slot) (v : View) : View :=
  { v with
    next := Function.update v.next t none
    head := Function.update v.head q (v.next t)
    tail := Function.update v.tail q (if v.next t = none then none else v.tail q) }

def setState (t : Slot) (x : TaskState) (v : View) : View :=
  { v with state := Function.update v.state t x }

/-- `n`, the first task of the ready list, gets the processor. -/
def dispatch (n : Slot) (v : View) : View :=
  { v.pop .ready n with current := some n }.setState n .running

/-- A new task in the free slot `t`, appended to the ready list. -/
def spawn (t : Slot) (v : View) : View :=
  { { v with
      next := Function.update v.next t none
      pid := Function.update v.pid t v.nextPid
      state := Function.update v.state t .ready
      nextPid := v.nextPid + 1 }.push .ready t with taskCount := v.taskCount + 1 }

/-- The zombie in slot `t` is collected. -/
def reap (t : Slot) (v : View) : View :=
  { v with
    next := Function.update v.next t none
    pid := Function.update v.pid t (-1)
    state := Function.update v.state t .ready
    taskCount := v.taskCount - 1 }

/-- Both pointers of a queue overwritten with null. -/
def reset (q : QueueId) (v : View) : View :=
  { v with head := Function.update v.head q none, tail := Function.update v.tail q none }

end View

namespace Kernel

def qHead (k : Kernel) : QueueId → Option Slot
  | .ready => k.readyHead
  | .wait q => k.waitHead q

def qTail (k : Kernel) : QueueId → Option Slot
  | .ready => k.readyTail
  | .wait q => k.waitTail q

def view (k : Kernel) : View where
  next := fun t => (k.tasks t).next
  head := k.qHead
  tail := k.qTail
  pid := fun t => (k.tasks t).pid
  state := fun t => (k.tasks t).state
  current := k.current
  nextPid := k.nextPid
  taskCount := k.taskCount

end Kernel

/-- A field of the task table that a rewritten task keeps. -/
private theorem comp_update_same {α : Type} (tasks : Slot → Task) (t : Slot) (p : Task)
    (f : Task → α) (h : f p = f (tasks t)) :
    (fun u => f (Function.update tasks t p u)) = fun u => f (tasks u) := by
  rw [comp_update, h]
  exact Function.update_eq_self t _

@[simp] theorem view_setNext (k : Kernel) (t : Slot) (x : Option Slot) :
    (k.sched fun s => s.setNext t x).view =
      { k.view with next := Function.update k.view.next t x } := by
  apply View.ext <;> try rfl
  · exact comp_update k.tasks t _ Task.next
  · exact comp_update_same k.tasks t _ Task.pid rfl
  · exact comp_update_same k.tasks t _ Task.state rfl

@[simp] theorem view_setState (k : Kernel) (t : Slot) (x : TaskState) :
    (k.sched fun s => s.setState t x).view = k.view.setState t x := by
  apply View.ext <;> try rfl
  · exact comp_update_same k.tasks t _ Task.next rfl
  · exact comp_update_same k.tasks t _ Task.pid rfl
  · exact comp_update k.tasks t _ Task.state

/-- Writing a field of a task that the view does not read. -/
theorem view_modify (k : Kernel) (t : Slot) (f : Task → Task)
    (hnext : ∀ p, (f p).next = p.next) (hpid : ∀ p, (f p).pid = p.pid)
    (hstate : ∀ p, (f p).state = p.state) :
    (k.sched fun s => s.modify t f).view = k.view := by
  apply View.ext <;> try rfl
  · exact comp_update_same k.tasks t _ Task.next (hnext _)
  · exact comp_update_same k.tasks t _ Task.pid (hpid _)
  · exact comp_update_same k.tasks t _ Task.state (hstate _)

private theorem qHead_setWait (k : Kernel) (q : WaitQ) (h t : Option Slot) :
    (k.setWait q h t).qHead = Function.update k.qHead (.wait q) h := by
  funext r
  rcases r with _ | (i' | j' | j') <;> rcases q with i | j | j <;>
    simp only [Kernel.qHead, Kernel.waitHead, Kernel.setWait, Kernel.setSem, Kernel.setMq,
      Function.update_apply, QueueId.wait.injEq, WaitQ.sem.injEq, WaitQ.recv.injEq,
      WaitQ.send.injEq, reduceCtorEq, if_false] <;>
    split <;> simp_all

private theorem qTail_setWait (k : Kernel) (q : WaitQ) (h t : Option Slot) :
    (k.setWait q h t).qTail = Function.update k.qTail (.wait q) t := by
  funext r
  rcases r with _ | (i' | j' | j') <;> rcases q with i | j | j <;>
    simp only [Kernel.qTail, Kernel.waitTail, Kernel.setWait, Kernel.setSem, Kernel.setMq,
      Function.update_apply, QueueId.wait.injEq, WaitQ.sem.injEq, WaitQ.recv.injEq,
      WaitQ.send.injEq, reduceCtorEq, if_false] <;>
    split <;> simp_all

theorem view_setWait (k : Kernel) (q : WaitQ) (h t : Option Slot) :
    (k.setWait q h t).view =
      { k.view with
        head := Function.update k.view.head (.wait q) h
        tail := Function.update k.view.tail (.wait q) t } := by
  apply View.ext
  · cases q <;> rfl
  · exact qHead_setWait k q h t
  · exact qTail_setWait k q h t
  all_goals cases q <;> rfl

theorem view_reset (k : Kernel) (q : WaitQ) :
    (k.setWait q none none).view = k.view.reset (.wait q) := view_setWait k q none none

private theorem view_setReady (k : Kernel) (h t : Option Slot) :
    (k.sched fun s => { s with readyHead := h, readyTail := t }).view =
      { k.view with
        head := Function.update k.view.head .ready h
        tail := Function.update k.view.tail .ready t } := by
  apply View.ext <;> try rfl
  · funext r; cases r <;> rfl
  · funext r; cases r <;> rfl

theorem view_enqueueReady (k : Kernel) (t : Slot) :
    (k.sched (enqueueReady t)).view = k.view.push .ready t := by
  have htail : k.view.tail .ready = k.readyTail := rfl
  have hhead : k.view.head .ready = k.readyHead := rfl
  cases ht : k.readyTail with
  | none =>
      have hk : k.sched (enqueueReady t) =
          (k.sched fun s => s.setNext t none).sched fun s =>
            { s with readyHead := some t, readyTail := some t } := by
        simp [Kernel.sched, enqueueReady, Sched.setNext, Sched.modify, ht]
      rw [hk, view_setReady, view_setNext]
      simp [View.push, Queue.pushNext, Queue.pushHead, htail, ht]
  | some l =>
      have hk : k.sched (enqueueReady t) =
          ((k.sched fun s => s.setNext t none).sched fun s => s.setNext l (some t)).sched fun s =>
            { s with readyHead := k.readyHead, readyTail := some t } := by
        simp [Kernel.sched, enqueueReady, Sched.setNext, Sched.modify, ht]
      rw [hk, view_setReady, view_setNext, view_setNext]
      simp [View.push, Queue.pushNext, Queue.pushHead, htail, hhead, ht]

theorem view_taskWake (k : Kernel) (t : Slot) :
    (k.sched (taskWake t)).view = (k.view.setState t .ready).push .ready t := by
  change ((k.sched fun s => s.setState t .ready).sched (enqueueReady t)).view = _
  rw [view_enqueueReady, view_setState]

theorem view_waitEnqueue (k : Kernel) (q : WaitQ) (t : Slot) :
    (waitEnqueue q t k).view = k.view.push (.wait q) t := by
  have htail : (k.sched fun s => s.setNext t none).waitTail q = k.waitTail q := by cases q <;> rfl
  have htail' : k.view.tail (.wait q) = k.waitTail q := rfl
  cases ht : k.waitTail q with
  | none =>
      simp only [waitEnqueue, htail, ht]
      rw [view_setWait, view_setNext]
      simp [View.push, Queue.pushNext, Queue.pushHead, htail', ht]
  | some l =>
      have hhead : (k.sched fun s => s.setNext t none).waitHead q = k.view.head (.wait q) := by
        cases q <;> rfl
      simp only [waitEnqueue, htail, ht]
      rw [view_setWait, view_setNext, view_setNext, hhead]
      simp [View.push, Queue.pushNext, Queue.pushHead, htail', ht]

/-- The running task `c` blocks on `q`. -/
theorem view_blockOn (k : Kernel) (q : WaitQ) (c : Slot) (hc : k.current = some c) :
    (blockOn q c k).view = (k.view.setState c .blocked).push (.wait q) c := by
  have hk : k.sched taskBlock = k.sched fun s => s.setState c .blocked := by
    simp [Kernel.sched, taskBlock, hc]
  rw [blockOn, view_waitEnqueue, hk, view_setState]

theorem waitDequeue_eq_none {k : Kernel} {q : WaitQ} :
    waitDequeue q k = none ↔ k.view.head (.wait q) = none := by
  change _ ↔ k.waitHead q = none
  unfold waitDequeue
  cases k.waitHead q <;> simp

theorem waitDequeue_eq_some {k k' : Kernel} {q : WaitQ} {t : Slot}
    (h : waitDequeue q k = some (t, k')) :
    k.view.head (.wait q) = some t ∧ k'.view = k.view.pop (.wait q) t := by
  unfold waitDequeue at h
  split at h
  · cases h
  · next wake hhead =>
      simp only [Option.some.injEq, Prod.mk.injEq] at h
      obtain ⟨rfl, rfl⟩ := h
      refine ⟨hhead, ?_⟩
      rw [view_setNext, view_setWait]
      rfl

/-- Waking the first task of a list moves it to the end of the ready list. -/
theorem view_wakeFirst (k : Kernel) (q : WaitQ) :
    (k.view.head (.wait q) = none ∧ wakeFirst q k = (none, k)) ∨
      ∃ t, k.view.head (.wait q) = some t ∧ (wakeFirst q k).1 = some t ∧
        (wakeFirst q k).2.view =
          ((k.view.pop (.wait q) t).setState t .ready).push .ready t := by
  unfold wakeFirst
  cases hd : waitDequeue q k with
  | none => exact Or.inl ⟨waitDequeue_eq_none.mp hd, rfl⟩
  | some r =>
      obtain ⟨t, k'⟩ := r
      obtain ⟨hhead, hview⟩ := waitDequeue_eq_some hd
      refine Or.inr ⟨t, hhead, rfl, ?_⟩
      rw [view_taskWake, hview]

theorem dequeueReady_cases (k : Kernel) :
    (k.view.head .ready = none ∧ dequeueReady k.toSched = none) ∨
      ∃ t s, k.view.head .ready = some t ∧ dequeueReady k.toSched = some (t, s) ∧
        (k.sched fun _ => s).view = k.view.pop .ready t := by
  change k.readyHead = none ∧ _ ∨ ∃ t s, k.readyHead = some t ∧ _
  unfold dequeueReady
  cases hh : k.readyHead with
  | none => exact Or.inl ⟨rfl, rfl⟩
  | some t =>
      refine Or.inr ⟨t, _, rfl, rfl, ?_⟩
      change ((k.sched fun s => s.setNext t none).sched fun s => { s with
        readyHead := (k.tasks t).next
        readyTail := if (k.tasks t).next = none then none else k.readyTail }).view = _
      rw [view_setReady, view_setNext]
      rfl

theorem pickNext_cases {k : Kernel} {regs f : Nat} {c : Slot} {s : Sched}
    (h : pickNext regs c k.toSched = some (f, s)) :
    (k.view.head .ready = none ∧ k.view.state c ≠ .zombie ∧
        (k.sched fun _ => s).view = k.view.setState c .running) ∨
      ∃ n, k.view.head .ready = some n ∧ (k.sched fun _ => s).view = k.view.dispatch n := by
  unfold pickNext at h
  rcases dequeueReady_cases k with ⟨hhead, hd⟩ | ⟨n, s₁, hhead, hd, hview⟩
  · rw [hd] at h
    dsimp only at h
    split at h
    · next hz =>
        simp only [Option.some.injEq, Prod.mk.injEq] at h
        obtain ⟨-, rfl⟩ := h
        exact Or.inl ⟨hhead, hz, view_setState k c .running⟩
    · cases h
  · rw [hd] at h
    simp only [Option.some.injEq, Prod.mk.injEq] at h
    obtain ⟨-, rfl⟩ := h
    refine Or.inr ⟨n, hhead, ?_⟩
    have hset := view_setState (k.sched fun _ => { s₁ with current := some n }) n .running
    have hcur : (k.sched fun _ => { s₁ with current := some n }).view =
        { k.view.pop .ready n with current := some n } := by
      rw [← hview]
      rfl
    rw [hcur] at hset
    rw [View.dispatch, ← hset]
    -- The page-directory and `esp0` writes are outside the view.
    split <;> rfl

/-- What `scheduler_tick` does to the view while `c` is running, case by case. -/
inductive View.Tick (c : Slot) (v : View) : View → Prop
  /-- A blocked or exited task loses the processor to the first ready task. -/
  | leave (n : Slot) (hc : v.state c = .zombie ∨ v.state c = .blocked)
      (hn : v.head .ready = some n) : Tick c v (v.dispatch n)
  /-- A blocked task is resumed because no task is ready. -/
  | resume (hc : v.state c = .blocked) (hn : v.head .ready = none) :
      Tick c v (v.setState c .running)
  /-- The only task goes on. -/
  | alone (hc : v.state c = .ready ∨ v.state c = .running) : Tick c v (v.setState c .running)
  /-- The running task goes to the end of the ready list and the first one is dispatched. -/
  | rotate (n : Slot) (hc : v.state c = .ready ∨ v.state c = .running)
      (hn : ((v.setState c .ready).push .ready c).head .ready = some n) :
      Tick c v (((v.setState c .ready).push .ready c).dispatch n)
  /-- The list just appended to looks empty: only with inconsistent pointers. -/
  | broken (hn : ((v.setState c .ready).push .ready c).head .ready = none) :
      Tick c v (((v.setState c .ready).push .ready c).setState c .running)

private theorem tickYield_view {k : Kernel} {regs f : Nat} {c : Slot} {s : Sched}
    (hc : k.view.state c = .ready ∨ k.view.state c = .running)
    (h : (if k.taskCount > 1 then
        pickNext regs c (enqueueReady c (k.toSched.setState c .ready))
      else some (regs, k.toSched.setState c .running)) = some (f, s)) :
    k.view.Tick c (k.sched fun _ => s).view := by
  split at h
  · let k₂ := (k.sched fun s => s.setState c .ready).sched (enqueueReady c)
    have hview₂ : k₂.view = (k.view.setState c .ready).push .ready c := by
      rw [view_enqueueReady, view_setState]
    have hcases := pickNext_cases (k := k₂) h
    rw [hview₂] at hcases
    rcases hcases with ⟨hn, -, hv⟩ | ⟨n, hn, hv⟩
    · rw [show (k.sched fun _ => s).view = _ from hv]
      exact .broken hn
    · rw [show (k.sched fun _ => s).view = _ from hv]
      exact .rotate n hc hn
  · simp only [Option.some.injEq, Prod.mk.injEq] at h
    obtain ⟨-, rfl⟩ := h
    rw [show (k.sched fun _ => k.toSched.setState c .running).view = _ from
      view_setState k c .running]
    exact .alone hc

private theorem tickCurrent_view {k : Kernel} {regs f : Nat} {c : Slot} {s : Sched}
    (h : tickCurrent regs c k.toSched = some (f, s)) :
    k.view.Tick c (k.sched fun _ => s).view := by
  unfold tickCurrent at h
  rw [show (k.tasks c).state = k.view.state c from rfl] at h
  cases hs : k.view.state c with
  | zombie =>
      rw [hs] at h
      rcases pickNext_cases h with ⟨_, hz, _⟩ | ⟨n, hn, hv⟩
      · exact absurd hs hz
      · rw [hv]
        exact .leave n (Or.inl hs) hn
  | blocked =>
      rw [hs] at h
      rcases pickNext_cases h with ⟨hn, _, hv⟩ | ⟨n, hn, hv⟩
      · rw [hv]
        exact .resume hs hn
      · rw [hv]
        exact .leave n (Or.inr hs) hn
  | ready =>
      rw [hs] at h
      exact tickYield_view (Or.inl hs) h
  | running =>
      rw [hs] at h
      exact tickYield_view (Or.inr hs) h

theorem schedulerTick_view {k : Kernel} {regs f : Nat} {c : Slot} {s : Sched}
    (hc : k.view.current = some c) (h : schedulerTick 32 regs k.toSched = some (f, s)) :
    k.view.Tick c (k.sched fun _ => s).view := by
  let k₁ := (k.sched fun s => { s with timerTicks := u32 (s.timerTicks + 1) }).sched fun s =>
    s.modify c fun p => { p with kernelEsp := regs }
  have hview : k₁.view = k.view :=
    (view_modify (k.sched fun s => { s with timerTicks := u32 (s.timerTicks + 1) }) c
      (fun p => { p with kernelEsp := regs }) (fun _ => rfl) (fun _ => rfl) fun _ => rfl).trans rfl
  unfold schedulerTick at h
  simp only [ne_eq, not_true_eq_false, if_false] at h
  split at h
  · next hnone => exact absurd (hnone.symm.trans hc) (by simp)
  · next c' hc' =>
      have hcc : c' = c := Option.some.inj (hc'.symm.trans hc)
      subst hcc
      have htick := tickCurrent_view (k := k₁) h
      rw [hview] at htick
      exact htick

/-! ## Process creation, exit and wait -/

/-- A view after the slot `t` has been filled with a task that is ready. -/
private theorem view_fill (k : Kernel) (t : Slot) (p : Task) (n : Int) (fr : Nat → Registers)
    (hpid : p.pid = k.nextPid) (hstate : p.state = .ready) (hnext : p.next = none)
    (hn : n = k.nextPid + 1) :
    ((k.sched fun s => { s with
        frames := fr, nextPid := n, tasks := Function.update s.tasks t p }).sched fun s =>
          { enqueueReady t s with taskCount := (enqueueReady t s).taskCount + 1 }).view =
      k.view.spawn t := by
  let k₁ := k.sched fun s => { s with
    frames := fr, nextPid := n, tasks := Function.update s.tasks t p }
  have hk₁ : k₁.view = { k.view with
      next := Function.update k.view.next t none
      pid := Function.update k.view.pid t k.view.nextPid
      state := Function.update k.view.state t .ready
      nextPid := k.view.nextPid + 1 } := by
    apply View.ext <;> try rfl
    · rw [← hnext]; exact comp_update k.tasks t p Task.next
    · rw [show k.view.nextPid = p.pid from hpid.symm]; exact comp_update k.tasks t p Task.pid
    · rw [← hstate]; exact comp_update k.tasks t p Task.state
    · exact hn
  have hpush := view_enqueueReady k₁ t
  rw [hk₁] at hpush
  have hcount : (k₁.sched (enqueueReady t)).taskCount = k.view.taskCount :=
    congrArg View.taskCount hpush
  rw [View.spawn, ← hpush]
  change (k₁.sched fun s => { enqueueReady t s with
    taskCount := (enqueueReady t s).taskCount + 1 }).view = _
  apply View.ext <;> try rfl
  exact congrArg (· + 1) hcount

theorem taskFindSlot_free {k : Kernel} {t : Slot} (h : taskFindSlot k.toSched = some t) :
    k.view.pid t < 0 := by
  have hp := List.find?_some h
  exact of_decide_eq_true hp

theorem taskCreate_view {k : Kernel} {name : CStr} {entry kstackPhys : Nat} {r : Int} {s : Sched}
    (h : taskCreate name entry kstackPhys k.toSched = some (r, s)) :
    (k.sched fun _ => s).view = k.view ∨
      ∃ t, taskFindSlot k.toSched = some t ∧ (k.sched fun _ => s).view = k.view.spawn t := by
  unfold taskCreate at h
  split at h
  · simp only [Option.some.injEq, Prod.mk.injEq] at h
    obtain ⟨-, rfl⟩ := h
    exact Or.inl rfl
  · next t ht =>
      simp only [Option.pure_def, Option.bind_eq_bind, Option.bind_eq_some_iff,
        Option.some.injEq, Prod.mk.injEq] at h
      obtain ⟨n, hn, name', _, -, rfl⟩ := h
      refine Or.inr ⟨t, ht, ?_⟩
      exact view_fill k t _ n _ rfl rfl rfl (intSucc_eq_some hn)

theorem taskFork_view {k : Kernel} {regs newPageDir kstackPhys : Nat} {r : Int} {s : Sched}
    (h : taskFork regs newPageDir kstackPhys k.toSched = some (r, s)) :
    (k.sched fun _ => s).view = k.view ∨
      ∃ t, taskFindSlot k.toSched = some t ∧ (k.sched fun _ => s).view = k.view.spawn t := by
  unfold taskFork at h
  split at h
  · simp only [Option.some.injEq, Prod.mk.injEq] at h
    obtain ⟨-, rfl⟩ := h
    exact Or.inl rfl
  · next t ht =>
      split at h
      · simp only [Option.some.injEq, Prod.mk.injEq] at h
        obtain ⟨-, rfl⟩ := h
        exact Or.inl rfl
      · simp only [Option.pure_def, Option.bind_eq_bind, Option.bind_eq_some_iff,
          Option.some.injEq, Prod.mk.injEq] at h
        obtain ⟨c, _, n, hn, -, rfl⟩ := h
        refine Or.inr ⟨t, ht, ?_⟩
        exact view_fill k t _ n _ rfl rfl rfl (intSucc_eq_some hn)

/-- The parent that `task_exit` of the running task looks at. -/
def exitParent (s : Sched) : Option Slot :=
  match s.current with
  | none => none
  | some c => if (s.tasks c).parentPid ≥ 0 then taskFromPid (s.tasks c).parentPid s else none

theorem exitParent_pid {s : Sched} {p : Slot} (h : exitParent s = some p) :
    0 ≤ (s.tasks p).pid := by
  unfold exitParent at h
  split at h
  · cases h
  · next c _ =>
      split at h
      · next hge =>
          have hp : (s.tasks p).pid = (s.tasks c).parentPid := by
            simpa [taskFromPid] using List.find?_some h
          rw [hp]
          exact hge
      · cases h

theorem taskExit_view {k : Kernel} {code : Int} {c : Slot} (hc : k.view.current = some c) :
    (k.sched (taskExit code)).view = k.view.setState c .zombie ∨
      ∃ p, exitParent k.toSched = some p ∧ (k.view.setState c .zombie).state p = .blocked ∧
        (k.sched (taskExit code)).view =
          ((k.view.setState c .zombie).setState p .ready).push .ready p := by
  have hcur : k.current = some c := hc
  let k₁ := k.sched fun s => s.modify c fun p => { p with exitCode := code, state := .zombie }
  have hview : k₁.view = k.view.setState c .zombie := by
    apply View.ext <;> try rfl
    · exact comp_update_same k.tasks c _ Task.next rfl
    · exact comp_update_same k.tasks c _ Task.pid rfl
    · exact comp_update k.tasks c _ Task.state
  have hpar : (k₁.tasks c).parentPid = (k.tasks c).parentPid := by
    simp [k₁, Kernel.sched, Sched.modify]
  have hpids : ∀ pid, taskFromPid pid k₁.toSched = taskFromPid pid k.toSched := by
    intro pid
    have hpid : (fun i => decide ((k₁.tasks i).pid = pid)) = fun i => decide ((k.tasks i).pid = pid) := by
      funext i
      exact congrArg (fun x => decide (x = pid)) (congrFun (congrArg View.pid hview) i)
    unfold taskFromPid
    rw [hpid]
  have hexit : taskExit code k.toSched =
      if (k₁.tasks c).parentPid ≥ 0 then
        match taskFromPid (k₁.tasks c).parentPid k₁.toSched with
        | none => k₁.toSched
        | some parent =>
            if (k₁.tasks parent).state = .blocked then
              enqueueReady parent (k₁.toSched.setState parent .ready)
            else k₁.toSched
      else k₁.toSched := by
    unfold taskExit
    split
    · next hnone => simp [hnone] at hcur
    · next c' hc' =>
        have hcc : c' = c := Option.some.inj (hc'.symm.trans hcur)
        subst hcc
        rfl
  have hsame : k.sched (fun _ => k₁.toSched) = k₁ := rfl
  change (k.sched fun _ => taskExit code k.toSched).view = _ ∨ ∃ p, _ ∧ _ ∧
    (k.sched fun _ => taskExit code k.toSched).view = _
  rw [hexit, hpar]
  by_cases hge : (k.tasks c).parentPid ≥ 0
  · rw [if_pos hge, hpids]
    cases hp : taskFromPid (k.tasks c).parentPid k.toSched with
    | none =>
        left
        dsimp only
        rw [hsame, hview]
    | some p =>
        dsimp only
        by_cases hb : (k₁.tasks p).state = .blocked
        · right
          refine ⟨p, ?_, ?_, ?_⟩
          · simp only [exitParent, hcur, if_pos hge, hp]
          · rw [← hview]; exact hb
          · rw [if_pos hb]
            change ((k₁.sched fun s => s.setState p .ready).sched (enqueueReady p)).view = _
            rw [view_enqueueReady, view_setState, hview]
        · left
          rw [if_neg hb, hsame, hview]
  · left
    rw [if_neg hge, hsame, hview]

theorem taskWait_view (k : Kernel) (pid : Int) (c : Slot) :
    (∃ s, taskWait pid c k.toSched = (.blocked, s) ∧
        (k.sched fun _ => s).view = k.view.setState c .blocked) ∨
      taskWait pid c k.toSched = (.noChildren, k.toSched) ∨
      ∃ z s childPid exitCode freed, taskWait pid c k.toSched = (.collected childPid exitCode freed, s) ∧
        0 ≤ k.view.pid z ∧ k.view.state z = .zombie ∧
        (k.sched fun _ => s).view = k.view.reap z := by
  unfold taskWait
  split
  · next z hz =>
      have hfound := List.find?_some hz
      simp only [isChild, ge_iff_le, Bool.and_eq_true, decide_eq_true_eq, beq_iff_eq] at hfound
      refine Or.inr (Or.inr ⟨z, _, _, _, _, rfl, hfound.1.1.1, hfound.2, ?_⟩)
      apply View.ext <;> try rfl
      · exact comp_update k.tasks z _ Task.next
      · exact comp_update k.tasks z _ Task.pid
      · exact comp_update k.tasks z _ Task.state
  · split
    · exact Or.inl ⟨_, rfl, view_setState k c .blocked⟩
    · exact Or.inr (Or.inl rfl)

/-! ## Creating and destroying IPC objects -/

/-- Writing a semaphore without touching its wait list. -/
theorem view_setSem (k : Kernel) (i : Fin maxSems) (f : Sem → Sem)
    (hh : ∀ m, (f m).waitHead = m.waitHead) (ht : ∀ m, (f m).waitTail = m.waitTail) :
    (k.setSem i f).view = k.view := by
  apply View.ext <;> try rfl
  all_goals
    funext r
    rcases r with _ | (i' | j' | j') <;> try rfl
    by_cases hi : i' = i
    · subst hi
      simp [Kernel.view, Kernel.qHead, Kernel.qTail, Kernel.waitHead, Kernel.waitTail,
        Kernel.setSem, hh, ht]
    · simp [Kernel.view, Kernel.qHead, Kernel.qTail, Kernel.waitHead, Kernel.waitTail,
        Kernel.setSem, hi]

/-- Writing a message queue without touching its wait lists. -/
theorem view_setMq (k : Kernel) (j : Fin maxMsgQueues) (f : MsgQueue → MsgQueue)
    (hrh : ∀ m, (f m).recvWaitHead = m.recvWaitHead)
    (hrt : ∀ m, (f m).recvWaitTail = m.recvWaitTail)
    (hsh : ∀ m, (f m).sendWaitHead = m.sendWaitHead)
    (hst : ∀ m, (f m).sendWaitTail = m.sendWaitTail) :
    (k.setMq j f).view = k.view := by
  apply View.ext <;> try rfl
  all_goals
    funext r
    rcases r with _ | (i' | j' | j') <;> try rfl
    all_goals
      by_cases hj : j' = j
      · subst hj
        simp [Kernel.view, Kernel.qHead, Kernel.qTail, Kernel.waitHead, Kernel.waitTail,
          Kernel.setMq, hrh, hrt, hsh, hst]
      · simp [Kernel.view, Kernel.qHead, Kernel.qTail, Kernel.waitHead, Kernel.waitTail,
          Kernel.setMq, hj]

/-- What `sem_create` does, case by case. -/
theorem semCreate_cases {k k' : Kernel} {name : Option CStr} {v r : Int}
    (h : semCreate name v k = some (r, k')) :
    (semFindSlot k = none ∧ r = -1 ∧ k' = k) ∨
      ∃ i nm, semFindSlot k = some i ∧ r = k.semCount ∧
        k' = { k with
          semCount := k.semCount + 1
          sems := Function.update k.sems i
            { id := k.semCount, name := nm, value := if v < 0 then 0 else v
              waitHead := none, waitTail := none } } := by
  unfold semCreate at h
  split at h
  · next hi =>
      simp only [Option.some.injEq, Prod.mk.injEq] at h
      exact Or.inl ⟨hi, h.1.symm, h.2.symm⟩
  · next i hi =>
      simp only [Option.pure_def, Option.bind_eq_bind, Option.bind_eq_some_iff,
        Option.some.injEq, Prod.mk.injEq] at h
      obtain ⟨n, hn, nm, _, rfl, rfl⟩ := h
      rw [intSucc_eq_some hn]
      exact Or.inr ⟨i, nm, hi, rfl, rfl⟩

/-- A new semaphore forgets whatever was on the wait list of its slot. -/
theorem view_newSem (k : Kernel) (i : Fin maxSems) (m : Sem) (n : Int) (hh : m.waitHead = none)
    (ht : m.waitTail = none) :
    { k with semCount := n, sems := Function.update k.sems i m }.view =
      k.view.reset (.wait (.sem i)) := by
  rw [← view_reset]
  apply View.ext <;> try rfl
  all_goals
    funext r
    rcases r with _ | (i' | j' | j') <;> try rfl
    by_cases hi : i' = i
    · subst hi
      simp [Kernel.view, Kernel.qHead, Kernel.qTail, Kernel.waitHead, Kernel.waitTail,
        Kernel.setWait, Kernel.setSem, hh, ht]
    · simp [Kernel.view, Kernel.qHead, Kernel.qTail, Kernel.waitHead, Kernel.waitTail,
        Kernel.setWait, Kernel.setSem, hi]

theorem msgQueueCreate_cases {k k' : Kernel} {r : Int} (h : msgQueueCreate k = some (r, k')) :
    (mqFindSlot k = none ∧ r = -1 ∧ k' = k) ∨
      ∃ j, mqFindSlot k = some j ∧ r = k.mqCount ∧
        k' = { k with
          mqCount := k.mqCount + 1
          mqs := Function.update k.mqs j { id := k.mqCount, msgs := (k.mqs j).msgs } } := by
  unfold msgQueueCreate at h
  split at h
  · next hj =>
      simp only [Option.some.injEq, Prod.mk.injEq] at h
      exact Or.inl ⟨hj, h.1.symm, h.2.symm⟩
  · next j hj =>
      simp only [Option.pure_def, Option.bind_eq_bind, Option.bind_eq_some_iff,
        Option.some.injEq, Prod.mk.injEq] at h
      obtain ⟨n, hn, rfl, rfl⟩ := h
      rw [intSucc_eq_some hn]
      exact Or.inr ⟨j, hj, rfl, rfl⟩

/-- A new message queue forgets whatever was on the wait lists of its slot. -/
theorem view_newMq (k : Kernel) (j : Fin maxMsgQueues) (n id : Int) (msgs : Nat → Message) :
    { k with mqCount := n, mqs := Function.update k.mqs j { id := id, msgs := msgs } }.view =
      (k.view.reset (.wait (.recv j))).reset (.wait (.send j)) := by
  rw [← view_reset, ← view_reset]
  apply View.ext <;> try rfl
  all_goals
    funext r
    rcases r with _ | (i' | j' | j') <;> try rfl
    all_goals
      by_cases hj : j' = j
      · subst hj
        simp [Kernel.view, Kernel.qHead, Kernel.qTail, Kernel.waitHead, Kernel.waitTail,
          Kernel.setWait, Kernel.setMq]
      · simp [Kernel.view, Kernel.qHead, Kernel.qTail, Kernel.waitHead, Kernel.waitTail,
          Kernel.setWait, Kernel.setMq, hj]

end SRos
