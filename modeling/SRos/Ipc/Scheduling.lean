import SRos.Ipc.Abstract

/-!
# The scheduler without interprocess communication

Runs of `task_create`, `task_fork`, `task_exit`, `task_wait`, `task_yield` and timer ticks from
`scheduler_init`. No task of such a run is ever inside an IPC call, so every step is safe.
-/

namespace SRos

/-- The points of the kernel code outside the IPC calls. -/
def Pc.isProcess : Pc → Bool
  | .user | .exitInt | .waitInt _ | .waitAgain _ => true
  | _ => false

/-- Timer ticks, process management calls, and their continuation. -/
def Act.isProcess : Act → Bool
  | .tick _ | .cont _ => true
  | .call (.create _ _ _) | .call (.fork _ _ _) | .call (.exit _) | .call (.wait _)
  | .call (.yield _) => true
  | .call _ => false

theorem Pc.waitsOn_isProcess {p : Pc} (h : p.isProcess = true) : p.waitsOn = none := by
  cases p <;> first | rfl | cases h

namespace Sys

variable {s s' : Sys} {a : Act}

private theorem setPc_isProcess (h : ∀ t, (s.pc t).isProcess = true) (c : Slot) {p : Pc}
    (hp : p.isProcess = true) (t : Slot) : ((s.setPc c p).pc t).isProcess = true := by
  by_cases ht : t = c
  · subst ht; simpa [setPc] using hp
  · simpa [setPc, ht] using h t

private theorem spawn_isProcess (h : ∀ t, (s.pc t).isProcess = true) {r : Option (Int × Sched)}
    (hs : s.spawn r = some s') (t : Slot) : (s'.pc t).isProcess = true := by
  obtain ⟨x, sched, -, rfl⟩ := spawn_eq hs
  dsimp only
  split
  · rfl
  · exact h t

private theorem waitPass_isProcess (h : ∀ t, (s.pc t).isProcess = true) (c : Slot) (pid : Int)
    (t : Slot) : ((s.waitPass c pid).pc t).isProcess = true := by
  unfold Sys.waitPass
  split <;> exact setPc_isProcess (s := ⟨_, s.pc, s.log⟩) h c rfl t

/-- No task enters an IPC call. -/
private theorem step_isProcess (h : ∀ t, (s.pc t).isProcess = true) (ha : a.isProcess = true)
    (hs : s.step a = some s') (t : Slot) : (s'.pc t).isProcess = true := by
  have hout : ∀ {c p}, s.pc c = p → p.isProcess = false → False := by
    intro c p hpc hp
    have := h c
    rw [hpc, hp] at this
    cases this
  cases step_move hs with
  | tick hs => rw [tick_pc hs]; exact h t
  | yield hc hpc hs => rw [tick_pc hs]; exact h t
  | @int c regs _ hc hpc hs =>
      rw [tick_pc hs]
      apply setPc_isProcess h c
      have hp := h c
      cases hpc' : s.pc c <;> rw [hpc'] at hp <;> first | rfl | cases hp
  | create hc hpc hs => exact spawn_isProcess h hs t
  | fork hc hpc hs => exact spawn_isProcess h hs t
  | exit hc hpc => exact setPc_isProcess (s := ⟨_, s.pc, s.log⟩) h _ rfl t
  | wait hc hpc => exact waitPass_isProcess h _ _ t
  | waitAgain hc hpc => exact waitPass_isProcess h _ _ t
  | semWait hc hpc => exact (hout hpc rfl).elim
  | semWaitDone hc hpc => exact (hout hpc rfl).elim
  | semPost hc hpc => exact (hout hpc rfl).elim
  | send hc hpc => rcases hpc with hpc | hpc <;> exact (hout hpc rfl).elim
  | recv hc hpc => rcases hpc with hpc | hpc <;> exact (hout hpc rfl).elim
  | enter hc hpc hp => cases hp <;> cases ha
  | refuse hc hpc hcall => exact h t
  | _ => cases ha

private theorem safe_of_isProcess (h : ∀ t, (s.pc t).isProcess = true) :
    s.TickSafe a ∧ s.ExitSafe a := by
  have hnone : ∀ t, ¬ s.IpcBlocked t := fun t hb => hb.2 (Pc.waitsOn_isProcess (h t))
  refine ⟨fun _ c _ hb => absurd hb (hnone c), ?_⟩
  unfold ExitSafe
  split
  · exact fun p _ => hnone p
  · trivial

/-- The scheduler's variables are consistent, with `xs` as the ready list. -/
structure SchedulerOk (s : Sys) (xs : List Slot) : Prop where
  chain : Queue.Chain (fun t => (s.kernel.tasks t).next) s.kernel.readyHead xs
  nodup : xs.Nodup
  last : s.kernel.readyTail = xs.getLast?
  headNull : s.kernel.readyHead = none ↔ xs = []
  tailNull : s.kernel.readyTail = none ↔ xs = []
  ready : ∀ t, t ∈ xs ↔ 0 ≤ (s.kernel.tasks t).pid ∧ (s.kernel.tasks t).state = .ready
  /-- The current task is live, not in the list, and the only one that can be running; it is
  running unless it is about to execute the `int $32` of `task_exit` or `task_wait`. -/
  current : ∃ c, s.current = some c ∧ 0 ≤ (s.kernel.tasks c).pid ∧ c ∉ xs ∧
    (∀ t, (s.kernel.tasks t).state = .running → t = c) ∧
    ((s.pc c).atInt = false → (s.kernel.tasks c).state = .running)
  outside : ∀ t, (s.kernel.tasks t).state = .zombie ∨ (s.kernel.tasks t).state = .blocked ∨
    (s.kernel.tasks t).pid < 0 → t ∉ xs
  pidInj : ∀ t u, 0 ≤ (s.kernel.tasks t).pid → (s.kernel.tasks t).pid = (s.kernel.tasks u).pid →
    t = u
  pidLt : ∀ t, 0 ≤ (s.kernel.tasks t).pid → (s.kernel.tasks t).pid < s.kernel.nextPid
  count : s.kernel.taskCount = ((Finset.univ.filter fun t => 0 ≤ (s.kernel.tasks t).pid).card : Int)
  /-- A switch goes to a task of the list, or back to the interrupted one, which is no zombie. -/
  dispatched : ∀ a s' n, s.step a = some s' → s.ticks a = true → s'.current = some n →
    n ∈ xs ∨ s.current = some n ∧ (s.kernel.tasks n).state ≠ .zombie

private theorem Inv.dispatched {ls : QueueId → List Slot} {regs : Nat} {n : Slot} (h : s.Inv ls)
    (ht : s.tick regs = some s') (hn : s'.current = some n) :
    n ∈ ls .ready ∨ s.current = some n ∧ s.view.state n ≠ .zombie := by
  obtain ⟨c, hc, -, -⟩ := h.ok.current
  obtain ⟨f, sched, htick, rfl⟩ := tick_eq ht
  rcases h.ok.tick_dispatched hc (schedulerTick_view hc htick) hn with hmem | ⟨rfl, hz⟩
  · exact Or.inl hmem
  · exact Or.inr ⟨hc, hz⟩

theorem Inv.schedulerOk {ls : QueueId → List Slot} (h : s.Inv ls) : s.SchedulerOk (ls .ready) where
  chain := h.ok.linked.chain .ready
  nodup := h.ok.linked.nodup .ready
  last := h.ok.linked.last .ready
  headNull := h.ok.head_none_iff .ready
  tailNull := (h.ok.linked.tail_none_iff .ready).trans (h.ok.head_none_iff .ready)
  ready := h.ok.ready
  current := by
    obtain ⟨c, hc, hp, hs⟩ := h.ok.current
    refine ⟨c, hc, hp, fun hm => hs ((h.ok.ready c).mp hm).2, ?_, ?_⟩
    · intro t ht
      exact Option.some.inj ((h.ok.running t ht).symm.trans hc)
    · intro hat
      exact (h.running hc hat).2.2
  outside := by
    intro t ht hm
    obtain ⟨hp, hs⟩ := (h.ok.ready t).mp hm
    have hs' : (s.kernel.tasks t).state = .ready := hs
    have hp' : 0 ≤ (s.kernel.tasks t).pid := hp
    rcases ht with ht | ht | ht
    · simp [hs'] at ht
    · simp [hs'] at ht
    · omega
  pidInj := h.ok.pidInj
  pidLt := fun t _ => h.ok.pidLt t
  count := h.ok.count
  dispatched := by
    intro a s' n hs hticks hn
    cases step_move hs with
    | tick ht => exact h.dispatched ht hn
    | yield hc hpc ht => exact h.dispatched ht hn
    | @int c regs _ hc hpc ht =>
        -- Moving the interrupted task behind its `int $32` does not touch the scheduler.
        obtain ⟨f, sched, htick, rfl⟩ := tick_eq ht
        have ht' : s.tick regs = some ⟨{ s.kernel with toSched := sched }, s.pc, s.log⟩ := by
          unfold Sys.tick
          change schedulerTick 32 regs s.kernel.toSched = some (f, sched) at htick
          simp [htick]
        exact h.dispatched ht' hn
    | send hc hpc => rcases hpc with hpc | hpc <;> simp [ticks, hc, hpc, Pc.atInt] at hticks
    | recv hc hpc => rcases hpc with hpc | hpc <;> simp [ticks, hc, hpc, Pc.atInt] at hticks
    | enter hc hpc hp => cases hp <;> cases hticks
    | @refuse _ call _ _ hcall => cases call <;> cases hcall <;> cases hticks
    | waitAgain hc hpc => simp [ticks, hc, hpc, Pc.atInt] at hticks
    | semWait hc hpc => simp [ticks, hc, hpc, Pc.atInt] at hticks
    | semWaitDone hc hpc => simp [ticks, hc, hpc, Pc.atInt] at hticks
    | semPost hc hpc => simp [ticks, hc, hpc, Pc.atInt] at hticks
    | _ => cases hticks

/-- In every run of process management calls and timer ticks from `scheduler_init` the
scheduler's variables are consistent. -/
theorem scheduler_invariant {frames : Nat → Registers} {cr3 esp0 timerTicks : Nat} {s₀ s : Sys}
    (h₀ : Sys.boot frames cr3 esp0 timerTicks = some s₀)
    (h : Reach Sys.step (fun _ a => a.isProcess = true) s₀ s) : ∃ xs, s.SchedulerOk xs := by
  have hinv : (∃ ls, s.Inv ls) ∧ ∀ t, (s.pc t).isProcess = true := by
    apply h.invariant (P := fun s => (∃ ls, s.Inv ls) ∧ ∀ t, (s.pc t).isProcess = true)
    · refine ⟨⟨_, Inv.boot_inv h₀⟩, fun t => ?_⟩
      rw [(Inv.boot_pc_log h₀).1]
      rfl
    · rintro s a s' ⟨⟨ls, hinv⟩, hpc⟩ ha hs
      obtain ⟨ht, he⟩ := safe_of_isProcess (a := a) hpc
      exact ⟨hinv.step ht he hs, step_isProcess hpc ha hs⟩
  obtain ⟨⟨ls, hinv⟩, -⟩ := hinv
  exact ⟨ls .ready, hinv.schedulerOk⟩

/-- Task 0 forks, the child is scheduled and exits. -/
theorem scheduler_invariant_zombie : ∃ s₀ s : Sys, Sys.boot (fun _ => {}) 0 0 0 = some s₀ ∧
    (s.kernel.tasks 1).state = .zombie ∧ s.current = some 0 ∧ ∃ xs, s.SchedulerOk xs := by
  have hrun : ((Sys.boot (fun _ => {}) 0 0 0).bind (runList Sys.step (fun _ a => a.isProcess)
      [.call (.fork 0 1 1), .tick 0, .call (.exit 0), .cont 0])).any (fun s =>
        (s.kernel.tasks 1).state = .zombie ∧ s.current = some 0) = true := by decide
  obtain ⟨s₀, s, h₀, h, hp⟩ := Reach.exists_of_runList hrun
  obtain ⟨hz, hc⟩ := of_decide_eq_true hp
  exact ⟨s₀, s, h₀, hz, hc, scheduler_invariant h₀ h⟩

end Sys

end SRos
