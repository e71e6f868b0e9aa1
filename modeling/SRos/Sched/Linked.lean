import SRos.Ipc.Abstract
import SRos.Sched.Effects

/-!
# The scheduler without interprocess communication

The linkage invariant for runs in which nobody blocks in an IPC call: the ready list holds
exactly the ready tasks, and the current task is live and the only one that can be running.
-/

namespace SRos

/-- The scheduler's variables are consistent, and no task waits in an IPC call. -/
def Sched.Linked (s : Sched) : Prop :=
  ∃ ls, (Kernel.bss s).view.Ok ls (fun _ => false) fun _ => none

namespace Sched.Linked

variable {s s' : Sched} {c : Slot}

theorem current (h : s.Linked) : ∃ c, s.current = some c ∧ 0 ≤ (s.tasks c).pid := by
  obtain ⟨ls, hok⟩ := h
  obtain ⟨c, hc, hp, -⟩ := hok.current
  exact ⟨c, hc, hp⟩

theorem live (h : s.Linked) (hc : s.current = some c) : 0 ≤ (s.tasks c).pid := by
  obtain ⟨c', hc', hp⟩ := h.current
  obtain rfl : c' = c := Option.some.inj (hc'.symm.trans hc)
  exact hp

theorem not_ready (h : s.Linked) (hc : s.current = some c) : (s.tasks c).state ≠ .ready := by
  obtain ⟨ls, hok⟩ := h
  obtain ⟨c', hc', -, hs⟩ := hok.current
  obtain rfl : c' = c := Option.some.inj (hc'.symm.trans hc)
  exact hs

theorem readyHead_live (h : s.Linked) {n : Slot} (hn : s.readyHead = some n) :
    0 ≤ (s.tasks n).pid := by
  obtain ⟨ls, hok⟩ := h
  have hhead : (Kernel.bss s).view.head .ready = some n := hn
  obtain ⟨ns, hns⟩ := hok.head_some hhead
  have hmem : n ∈ ls .ready := by simp [hns]
  exact hok.mem_live hmem

/-- A running task that stays current goes on running. -/
theorem still_running {p : Slot → Task} (h : s.Linked) (hc : s.current = some c)
    (hq : Quiet p s.tasks) (hrun : (p c).state = .running) : (s.tasks c).state = .running := by
  rcases hq.state c with heq | hready | hrun'
  · rw [heq, hrun]
  · exact absurd hready (h.not_ready hc)
  · exact hrun'

theorem pidLt (h : s.Linked) (t : Slot) : (s.tasks t).pid < s.nextPid := by
  obtain ⟨ls, hok⟩ := h
  exact hok.pidLt t

theorem nextPid (h : s.Linked) : 0 ≤ s.nextPid := by
  obtain ⟨ls, hok⟩ := h
  exact hok.nextPid

theorem pidInj (h : s.Linked) {t u : Slot} (ht : 0 ≤ (s.tasks t).pid)
    (heq : (s.tasks t).pid = (s.tasks u).pid) : t = u := by
  obtain ⟨ls, hok⟩ := h
  exact hok.pidInj t u ht heq

/-- The task with a live pid is the one that `task_from_pid` finds. -/
theorem taskFromPid_eq (h : s.Linked) {t : Slot} (ht : 0 ≤ (s.tasks t).pid) :
    taskFromPid (s.tasks t).pid s = some t := by
  unfold taskFromPid
  cases hfind : (List.finRange maxTasks).find? fun i => (s.tasks i).pid = (s.tasks t).pid with
  | none =>
      have := List.find?_eq_none.mp hfind t (List.mem_finRange t)
      simp at this
  | some u =>
      have hu : (s.tasks u).pid = (s.tasks t).pid := by simpa using List.find?_some hfind
      rw [h.pidInj ht hu.symm]

theorem setFrames {frames : Nat → Registers} (h : s.Linked) : Linked { s with frames := frames } := by
  obtain ⟨ls, hok⟩ := h
  exact ⟨ls, hok⟩

theorem tick {regs f : Nat} (h : s.Linked) (ht : schedulerTick 32 regs s = some (f, s')) :
    s'.Linked := by
  obtain ⟨ls, hok⟩ := h
  obtain ⟨c, hc, -⟩ := hok.current
  obtain ⟨ls', n, hok', -, -⟩ := hok.tick hc (by simp) (schedulerTick_view hc ht)
  exact ⟨ls', hok'⟩

/-- A slot was filled with a new task, or nothing happened. -/
private theorem spawn (h : s.Linked) (hview : ((Kernel.bss s).sched fun _ => s').view =
    (Kernel.bss s).view ∨ ∃ t, taskFindSlot s = some t ∧
      ((Kernel.bss s).sched fun _ => s').view = (Kernel.bss s).view.spawn t) : s'.Linked := by
  obtain ⟨ls, hok⟩ := h
  rcases hview with hview | ⟨t, ht, hview⟩
  · rw [← hview] at hok
    exact ⟨ls, hok⟩
  · have hspawn := hok.spawn (@taskFindSlot_free (Kernel.bss s) t ht)
    rw [← hview] at hspawn
    exact ⟨_, hspawn⟩

theorem fork {regs dir stack : Nat} {r : Int} (h : s.Linked)
    (hs : taskFork regs dir stack s = some (r, s')) : s'.Linked :=
  h.spawn (@taskFork_view (Kernel.bss s) _ _ _ _ _ hs)

theorem create {name : CStr} {entry stack : Nat} {r : Int} (h : s.Linked)
    (hs : taskCreate name entry stack s = some (r, s')) : s'.Linked :=
  h.spawn (@taskCreate_view (Kernel.bss s) _ _ _ _ _ hs)

/-- The current task has not been made ready, blocked or a zombie. -/
theorem running (h : s.Linked) (hc : s.current = some c) (hs : (s.tasks c).state = .running) :
    (Kernel.bss s).view.Running c := ⟨hc, h.live hc, hs⟩

theorem exit {code : Int} (h : s.Linked) (hc : s.current = some c)
    (hs : (s.tasks c).state = .running) : (taskExit code s).Linked := by
  have hrun := h.running hc hs
  obtain ⟨ls, hok⟩ := h
  rcases @taskExit_view (Kernel.bss s) code c hc with hview | ⟨p, hpar, hb, hview⟩
  · have hexit := hok.exit hrun rfl
    rw [← hview] at hexit
    exact ⟨ls, hexit⟩
  · have hpid : 0 ≤ (s.tasks p).pid := exitParent_pid hpar
    have hexit := hok.exitWake hrun rfl hb hpid rfl
    rw [← hview] at hexit
    exact ⟨_, hexit⟩

theorem setBlocked (h : s.Linked) (hc : s.current = some c)
    (hs : (s.tasks c).state = .running) : (s.setState c .blocked).Linked := by
  have hrun := h.running hc hs
  obtain ⟨ls, hok⟩ := h
  have hblock := hok.waitBlock hrun rfl
  rw [← view_setState (Kernel.bss s) c .blocked] at hblock
  exact ⟨ls, hblock⟩

/-- A zombie is collected by the running task. -/
theorem collect {z : Slot} (h : s.Linked) (hc : s.current = some c)
    (hs : (s.tasks c).state = .running) (hz : (s.tasks z).state = .zombie)
    (hlive : 0 ≤ (s.tasks z).pid) :
    Linked { s with
      tasks := Function.update s.tasks z { pid := -1 }
      taskCount := s.taskCount - 1 } := by
  have hrun := h.running hc hs
  obtain ⟨ls, hok⟩ := h
  have hview : (Kernel.bss { s with
      tasks := Function.update s.tasks z { pid := -1 }
      taskCount := s.taskCount - 1 }).view = (Kernel.bss s).view.reap z := by
    apply View.ext <;> try rfl
    · exact comp_update s.tasks z _ Task.next
    · exact comp_update s.tasks z _ Task.pid
    · exact comp_update s.tasks z _ Task.state
  have hreap := hok.reap hrun hlive hz
  rw [← hview] at hreap
  exact ⟨ls, hreap⟩

theorem init {frames : Nat → Registers} {cr3 esp0 timerTicks : Nat}
    (h : schedulerInit (Sched.bss frames cr3 esp0 timerTicks) = some s) : s.Linked := by
  have hboot : Sys.boot frames cr3 esp0 timerTicks =
      some { kernel := ipcInit (Kernel.bss s), pc := fun _ => .user, log := [] } := by
    unfold Sys.boot
    rw [h]
    rfl
  have hinv := Sys.Inv.boot_inv hboot
  exact ⟨_, hinv.ok⟩

end Sched.Linked

end SRos
