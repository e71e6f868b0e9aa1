import SRos.Ipc.Scheduling

/-!
# Blocked tasks and their queues

Whether a task that has blocked in an IPC call stays off the processor until `task_wake`, and
whether it stays in one queue. Both depend on two conditions: `scheduler_tick` resumes a blocked
task when the ready list is empty, and `task_exit` makes the parent ready whatever it is
blocked in.
-/

namespace SRos

namespace Sys

variable {s s' : Sys} {a : Act}

/-- A task that sleeps in an IPC call has not gone past its `int $32`, and `sem_wait` returns 0
to no task that is on the wait list of a semaphore. -/
structure BlockedStays (s : Sys) : Prop where
  atInt : ∀ t, s.current = some t → asleep s.log t = true → (s.pc t).atInt = true
  unlinked : ∀ a s' t id, s.step a = some s' →
    Event.semWaitReturned t id 0 ∈ s'.log.drop s.log.length →
    ∀ i xs, Queue.Chain (fun u => (s'.kernel.tasks u).next) (s'.kernel.waitHead (.sem i)) xs →
      t ∉ xs

/-- The steps in which `sem_wait` returns 0: they do not touch the queues. -/
private theorem returned_zero {t : Slot} {id : Int} (hs : s.step a = some s')
    (hr : Event.semWaitReturned t id 0 ∈ s'.log.drop s.log.length) :
    s.current = some t ∧ (s.pc t).atInt = false ∧ s'.view = s.view := by
  have hsame : s'.log = s.log → False := by
    intro hlog
    simp [hlog] at hr
  have hnew : ∀ es, s'.log = s.log ++ es → Event.semWaitReturned t id 0 ∈ es := by
    intro es hlog
    simpa [hlog] using hr
  cases step_move hs with
  | tick ht => exact (hsame (tick_log ht)).elim
  | yield hc hpc ht => exact (hsame (tick_log ht)).elim
  | int hc hpc ht => exact (hsame ((tick_log ht).trans rfl)).elim
  | create hc hpc ht => exact (hsame (spawn_log ht)).elim
  | fork hc hpc ht => exact (hsame (spawn_log ht)).elim
  | exit hc hpc => exact (hsame rfl).elim
  | wait hc hpc => exact (hsame (waitPass_log _ _ _)).elim
  | waitAgain hc hpc => exact (hsame (waitPass_log _ _ _)).elim
  | semCreate hc hpc hk =>
      have := hnew _ rfl
      split at this <;> simp at this
  | mqCreate hc hpc hk =>
      have := hnew _ rfl
      split at this <;> simp at this
  | enter hc hpc hp => exact (hsame rfl).elim
  | refuseWait hc hpc => simpa using hnew _ rfl
  | refuse hc hpc hcall => exact (hsame rfl).elim
  | @semWait c id' i regs hc hpc =>
      unfold semWaitStep semWaitSection at hnew ⊢
      by_cases hv : (s.kernel.sems i).value > 0
      · simp only [hv, if_true] at hnew ⊢
        have hmem := hnew _ rfl
        have htc : t = c := by simpa using (by simpa using hmem : t = c ∧ id = id').1
        subst htc
        exact ⟨hc, by rw [hpc]; rfl, view_setSem s.kernel i _ (fun _ => rfl) fun _ => rfl⟩
      · simp only [hv, if_false] at hnew
        simpa using hnew _ rfl
  | @semWaitDone c id' i regs hc hpc =>
      have hmem := hnew _ rfl
      have htc : t = c := (by simpa using hmem : t = c ∧ id = id').1
      subst htc
      exact ⟨hc, by rw [hpc]; rfl, rfl⟩
  | semPost hc hpc hs =>
      unfold semPostStep at hs
      simp only [Option.pure_def, Option.bind_eq_bind, Option.bind_eq_some_iff, Option.some.injEq,
        Prod.exists] at hs
      obtain ⟨woken, k, -, rfl⟩ := hs
      simpa using hnew _ rfl
  | send hc hpc =>
      unfold sendStep at hnew
      split at hnew <;> simpa using hnew _ rfl
  | recv hc hpc =>
      unfold recvStep at hnew
      split at hnew <;> simpa using hnew _ rfl
  | semDestroy hc hpc hk => simpa using hnew _ rfl
  | mqDestroy hc hpc hk => simpa using hnew _ rfl

private theorem Inv.blockedStays {ls : QueueId → List Slot} (h : s.Inv ls) : s.BlockedStays where
  atInt := by
    intro t ht ha
    have hb : s.view.state t = .blocked := h.ok.sleeping_state ha
    exact (h.atInt t ht).resolve_left (by simp [hb])
  unlinked := by
    intro a s' t id hs hr i xs hchain
    obtain ⟨ht, hat, hview⟩ := returned_zero hs hr
    have hrun : s.view.Running t := h.running ht hat
    have hlist : Queue.Chain s.view.next (s.view.head (.wait (.sem i))) xs := by
      rw [← hview]
      exact hchain
    rw [hlist.unique (h.ok.linked.chain (.wait (.sem i)))]
    exact h.ok.not_mem_running hrun (.wait (.sem i))

/-- Every task is linked in at most one queue, at most once. -/
def LinkedOnce (s : Sys) : Prop :=
  ∃ ls : QueueId → List Slot,
    Queue.Family (fun t => (s.kernel.tasks t).next) s.kernel.qHead s.kernel.qTail ls

/-- If the step runs `scheduler_tick` while the running task is blocked or a zombie, another
task is ready. -/
def FindsReady (s : Sys) (a : Act) : Prop :=
  s.ticks a = true → ∀ c, s.current = some c →
    (s.kernel.tasks c).state = .blocked ∨ (s.kernel.tasks c).state = .zombie →
    ∃ u, u ≠ c ∧ 0 ≤ (s.kernel.tasks u).pid ∧ (s.kernel.tasks u).state = .ready

instance (s : Sys) (a : Act) : Decidable (s.FindsReady a) := inferInstanceAs (Decidable (_ → _))

private theorem Inv.tickSafe {ls : QueueId → List Slot} (h : s.Inv ls) (hf : s.FindsReady a) :
    s.TickSafe a := by
  intro hticks c hc hb hnone
  obtain ⟨u, -, hp, hs⟩ := hf hticks c hc (.inl hb.1)
  have hmem : u ∈ ls .ready := (h.ok.ready u).mpr ⟨hp, hs⟩
  rw [(h.ok.head_none_iff .ready).mp hnone] at hmem
  cases hmem

end Sys

end SRos
