import SRos.Sched.Model

/-!
# What the operations of the scheduler change

The ready list and `scheduler_tick` rewrite links, saved contexts and states of tasks. Nothing
else of a task changes, no task becomes blocked or a zombie, and the address space is switched
together with the task. `task_create` and `task_fork` fill one free slot, `task_exit` makes the
running task a zombie and wakes its parent, and `task_wait` clears the slot of a zombie.
-/

namespace SRos

/-- The task table changes in links and contexts, and tasks become ready or running. -/
structure Quiet (p p' : Slot → Task) : Prop where
  pid : ∀ t, (p' t).pid = (p t).pid
  parent : ∀ t, (p' t).parentPid = (p t).parentPid
  pageDir : ∀ t, (p' t).pageDir = (p t).pageDir
  stack : ∀ t, (p' t).kernelStackBase = (p t).kernelStackBase
  state : ∀ t, (p' t).state = (p t).state ∨ (p' t).state = .ready ∨ (p' t).state = .running

/-- The rest of the scheduler's variables. -/
structure SameCounts (s s' : Sched) : Prop where
  nextPid : s'.nextPid = s.nextPid
  taskCount : s'.taskCount = s.taskCount

/-- The processor goes on with the same task, or is given to another one. -/
inductive Switch (s s' : Sched) : Prop
  | stay (current : s'.current = s.current) (cr3 : s'.cr3 = s.cr3)
  | dispatch (n : Slot) (current : s'.current = some n)
      (cr3 : s'.cr3 = if (s'.tasks n).pageDir ≠ 0 then (s'.tasks n).pageDir else s.cr3)

namespace Quiet

variable {p p' p'' : Slot → Task} {s s' : Sched}

theorem refl (p : Slot → Task) : Quiet p p :=
  ⟨fun _ => rfl, fun _ => rfl, fun _ => rfl, fun _ => rfl, fun _ => .inl rfl⟩

theorem trans (h : Quiet p p') (h' : Quiet p' p'') : Quiet p p'' where
  pid := fun t => (h'.pid t).trans (h.pid t)
  parent := fun t => (h'.parent t).trans (h.parent t)
  pageDir := fun t => (h'.pageDir t).trans (h.pageDir t)
  stack := fun t => (h'.stack t).trans (h.stack t)
  state := by
    intro t
    rcases h'.state t with heq | hnew
    · rw [heq]
      exact h.state t
    · exact .inr hnew

theorem update (p : Slot → Task) (t : Slot) (x : Task) (hpid : x.pid = (p t).pid)
    (hparent : x.parentPid = (p t).parentPid) (hdir : x.pageDir = (p t).pageDir)
    (hstack : x.kernelStackBase = (p t).kernelStackBase)
    (hstate : x.state = (p t).state ∨ x.state = .ready ∨ x.state = .running) :
    Quiet p (Function.update p t x) := by
  refine ⟨?_, ?_, ?_, ?_, ?_⟩
  all_goals
    intro u
    by_cases hu : u = t
    · subst hu
      simpa using by assumption
    · simp [hu]

theorem setNext (s : Sched) (t : Slot) (v : Option Slot) : Quiet s.tasks (s.setNext t v).tasks :=
  update s.tasks t _ rfl rfl rfl rfl (.inl rfl)

theorem setReady (s : Sched) (t : Slot) : Quiet s.tasks (s.setState t .ready).tasks :=
  update s.tasks t _ rfl rfl rfl rfl (.inr (.inl rfl))

theorem setRunning (s : Sched) (t : Slot) : Quiet s.tasks (s.setState t .running).tasks :=
  update s.tasks t _ rfl rfl rfl rfl (.inr (.inr rfl))

theorem zombie (h : Quiet p p') {t : Slot} (ht : (p' t).state = .zombie) :
    (p t).state = .zombie := by
  rcases h.state t with heq | hnew | hnew
  · rwa [← heq]
  · rw [ht] at hnew
    cases hnew
  · rw [ht] at hnew
    cases hnew

theorem blocked (h : Quiet p p') {t : Slot} (ht : (p' t).state = .blocked) :
    (p t).state = .blocked := by
  rcases h.state t with heq | hnew | hnew
  · rwa [← heq]
  · rw [ht] at hnew
    cases hnew
  · rw [ht] at hnew
    cases hnew

end Quiet

/-- What a part of `scheduler_tick` does, while the address space is that of `s`. -/
structure Ticked (s s' : Sched) : Prop where
  quiet : Quiet s.tasks s'.tasks
  counts : SameCounts s s'
  switch : Switch s s'
  running : ∀ c, s'.current = some c → (s'.tasks c).state = .running

variable {s s' : Sched}

/-- The tasks when the scheduler starts. -/
theorem schedulerInit_tasks {frames : Nat → Registers} {cr3 esp0 timerTicks : Nat}
    (h : schedulerInit (Sched.bss frames cr3 esp0 timerTicks) = some s) :
    s.cr3 = cr3 ∧ s.current = some 0 ∧
      ((s.tasks 0).pid = 0 ∧ (s.tasks 0).parentPid = -1 ∧ (s.tasks 0).state = .running ∧
        (s.tasks 0).pageDir = cr3 ∧ (s.tasks 0).kernelStackBase = 0 ∧
        (s.tasks 0).kernelStackTop = 0x20000 ∧ s.esp0 = 0x20000) ∧
      ∀ t, t ≠ 0 → (s.tasks t).pid = -1 := by
  unfold schedulerInit Sched.bss at h
  obtain ⟨n, -, h⟩ := Option.bind_eq_some_iff.mp h
  cases h
  refine ⟨rfl, rfl, by simp, ?_⟩
  intro t ht
  simp [ht]

theorem enqueueReady_quiet (t : Slot) (s : Sched) :
    Quiet s.tasks (enqueueReady t s).tasks ∧ SameCounts s (enqueueReady t s) ∧
      (enqueueReady t s).current = s.current ∧ (enqueueReady t s).cr3 = s.cr3 := by
  unfold enqueueReady
  dsimp only
  split
  · exact ⟨(Quiet.setNext s t none).trans (Quiet.setNext _ _ _), ⟨rfl, rfl⟩, rfl, rfl⟩
  · exact ⟨Quiet.setNext s t none, ⟨rfl, rfl⟩, rfl, rfl⟩

theorem setState_running {c t : Slot} (h : some c = some t) :
    ((s.setState c .running).tasks t).state = .running := by
  cases h
  simp [Sched.setState, Sched.modify]

theorem pickNext_ticked {regs f : Nat} {c : Slot} (hc : s.current = some c)
    (h : pickNext regs c s = some (f, s')) : Ticked s s' := by
  unfold pickNext dequeueReady at h
  split at h
  · split at h
    · cases h
      exact ⟨Quiet.setRunning s c, ⟨rfl, rfl⟩, .stay rfl rfl,
        fun t ht => setState_running (hc.symm.trans ht)⟩
    · cases h
  · next n s₁ hd =>
      split at hd
      · cases hd
      · cases hd
        dsimp only at h
        generalize hx : Sched.setState _ n .running = x at h
        have hquiet : Quiet s.tasks x.tasks := by
          rw [← hx]
          exact (Quiet.setNext s n none).trans (Quiet.setRunning _ n)
        have hrest : SameCounts s x ∧ x.current = some n ∧ x.cr3 = s.cr3 := by
          rw [← hx]
          exact ⟨⟨rfl, rfl⟩, rfl, rfl⟩
        obtain ⟨hcounts, hcur, hcr3⟩ := hrest
        have hrun : ∀ t, x.current = some t → (x.tasks t).state = .running := by
          intro t ht
          rw [← hx]
          exact setState_running (hcur.symm.trans ht)
        split at h
        · next hdir =>
            cases h
            exact ⟨hquiet, ⟨hcounts.nextPid, hcounts.taskCount⟩,
              .dispatch n hcur (if_pos hdir).symm, hrun⟩
        · next hdir =>
            cases h
            exact ⟨hquiet, ⟨hcounts.nextPid, hcounts.taskCount⟩,
              .dispatch n hcur (hcr3.trans (if_neg hdir).symm), hrun⟩

theorem Ticked.trans_left {s₁ : Sched} (h : Ticked s₁ s') (hquiet : Quiet s.tasks s₁.tasks)
    (hcounts : SameCounts s s₁) (hcur : s₁.current = s.current) (hcr3 : s₁.cr3 = s.cr3) :
    Ticked s s' where
  quiet := hquiet.trans h.quiet
  counts := ⟨h.counts.nextPid.trans hcounts.nextPid, h.counts.taskCount.trans hcounts.taskCount⟩
  switch := by
    cases h.switch with
    | stay current cr3 => exact .stay (current.trans hcur) (cr3.trans hcr3)
    | dispatch n current cr3 => exact .dispatch n current (by rw [cr3, hcr3])
  running := h.running

theorem tickCurrent_ticked {regs f : Nat} {c : Slot} (hc : s.current = some c)
    (h : tickCurrent regs c s = some (f, s')) : Ticked s s' := by
  unfold tickCurrent at h
  split at h
  · exact pickNext_ticked hc h
  · exact pickNext_ticked hc h
  all_goals
    split at h
    · obtain ⟨hquiet, hcounts, hcur, hcr3⟩ := enqueueReady_quiet c (s.setState c .ready)
      exact (pickNext_ticked (hcur.trans hc) h).trans_left ((Quiet.setReady s c).trans hquiet)
        ⟨hcounts.nextPid, hcounts.taskCount⟩ hcur hcr3
    · cases h
      exact ⟨Quiet.setRunning s c, ⟨rfl, rfl⟩, .stay rfl rfl,
        fun t ht => setState_running (hc.symm.trans ht)⟩

/-- A timer interrupt saves the context of the running task first. -/
theorem schedulerTick_timer {regs : Nat} {c : Slot} (hc : s.current = some c) :
    schedulerTick 32 regs s = tickCurrent regs c
      ({ s with timerTicks := u32 (s.timerTicks + 1) }.modify c
        fun p => { p with kernelEsp := regs }) := by
  unfold schedulerTick
  simp only [ne_eq, not_true_eq_false, if_false]
  split
  · next hnone =>
      rw [hc] at hnone
      cases hnone
  · next c' hc' =>
      obtain rfl : c' = c := Option.some.inj (hc'.symm.trans hc)
      rfl

theorem schedulerTick_ticked {regs f : Nat} (h : schedulerTick 32 regs s = some (f, s')) :
    Ticked s s' := by
  unfold schedulerTick at h
  simp only [ne_eq, not_true_eq_false, if_false] at h
  split at h
  · next hnone =>
      cases h
      exact ⟨Quiet.refl s.tasks, ⟨rfl, rfl⟩, .stay rfl rfl,
        fun t ht => absurd (hnone.symm.trans ht) (by simp)⟩
  · next c hc =>
      exact (tickCurrent_ticked (by exact hc) h).trans_left
        (Quiet.update s.tasks c { s.tasks c with kernelEsp := regs } rfl rfl rfl rfl (.inl rfl))
        ⟨rfl, rfl⟩ rfl rfl

theorem pickNext_next {regs f : Nat} {c n : Slot} (hc : s.current = some c)
    (h : pickNext regs c s = some (f, s')) (hn : s'.current = some n) :
    n = c ∨ s.readyHead = some n := by
  unfold pickNext dequeueReady at h
  split at h
  · split at h
    · cases h
      exact .inl (Option.some.inj (hn.symm.trans hc))
    · cases h
  · next m s₁ hd =>
      split at hd
      · cases hd
      · next task hhead =>
          cases hd
          dsimp only at h
          generalize hx : Sched.setState _ m .running = x at h
          have hcur : x.current = some m := by
            rw [← hx]
            rfl
          split at h
          · cases h
            exact .inr (hhead.trans (hcur.symm.trans hn))
          · cases h
            exact .inr (hhead.trans (hcur.symm.trans hn))

theorem tickCurrent_next {regs f : Nat} {c n : Slot} (hc : s.current = some c)
    (h : tickCurrent regs c s = some (f, s')) (hn : s'.current = some n) :
    n = c ∨ s.readyHead = some n := by
  unfold tickCurrent at h
  split at h
  · exact pickNext_next hc h hn
  · exact pickNext_next hc h hn
  all_goals
    split at h
    · have hcur := (enqueueReady_quiet c (s.setState c .ready)).2.2.1
      rcases pickNext_next (hcur.trans hc) h hn with hsame | hhead
      · exact .inl hsame
      · -- the list was empty, or its head stays in front of `c`
        unfold enqueueReady at hhead
        dsimp only at hhead
        split at hhead
        · exact .inr hhead
        · exact .inl (Option.some.inj hhead).symm
    · cases h
      exact .inl (Option.some.inj (hn.symm.trans hc))

/-- The processor is given to the first task of the ready list, or stays with its task. -/
theorem schedulerTick_next {regs f : Nat} {c n : Slot} (hc : s.current = some c)
    (h : schedulerTick 32 regs s = some (f, s')) (hn : s'.current = some n) :
    n = c ∨ s.readyHead = some n := by
  rw [schedulerTick_timer hc] at h
  have hnext := tickCurrent_next (by exact hc) h hn
  exact hnext

/-- The task that makes a call. -/
def callerPid (s : Sched) : Int :=
  match s.current with
  | some c => (s.tasks c).pid
  | none => -1

theorem callerPid_eq {c : Slot} (hc : s.current = some c) : callerPid s = (s.tasks c).pid := by
  unfold callerPid
  rw [hc]

/-- Slot `t` has been filled with a new task. -/
structure Spawned (s s' : Sched) (t : Slot) (parent : Int) (pageDir stack : Nat) : Prop where
  quiet : ∃ x : Task, x.pid = s.nextPid ∧ x.parentPid = parent ∧ x.pageDir = pageDir ∧
    x.kernelStackBase = stack ∧ x.state = .ready ∧ Quiet (Function.update s.tasks t x) s'.tasks
  free : (s.tasks t).pid < 0
  nextPid : s'.nextPid = s.nextPid + 1
  current : s'.current = s.current
  cr3 : s'.cr3 = s.cr3

theorem taskFindSlot_free_task {t : Slot} (h : taskFindSlot s = some t) : (s.tasks t).pid < 0 := by
  simpa [taskFindSlot] using List.find?_some h

theorem spawned_enqueue {t : Slot} {x : Task} {frames : Nat → Registers} {n : Int}
    (hfree : (s.tasks t).pid < 0) (hn : n = s.nextPid + 1) (hpid : x.pid = s.nextPid)
    (hstate : x.state = .ready) :
    let s₁ := enqueueReady t { s with
      frames := frames, nextPid := n, tasks := Function.update s.tasks t x }
    Spawned s { s₁ with taskCount := s₁.taskCount + 1 } t x.parentPid x.pageDir
      x.kernelStackBase := by
  obtain ⟨hquiet, hcounts, hcur, hcr3⟩ := enqueueReady_quiet t { s with
    frames := frames, nextPid := n, tasks := Function.update s.tasks t x }
  exact ⟨⟨x, hpid, rfl, rfl, rfl, hstate, hquiet⟩, hfree, hcounts.nextPid.trans hn, hcur, hcr3⟩

theorem taskFork_spawned {regs dir stack : Nat} {r : Int}
    (h : taskFork regs dir stack s = some (r, s')) :
    s' = s ∨ ∃ t c, taskFindSlot s = some t ∧ s.current = some c ∧ dir ≠ 0 ∧
      Spawned s s' t (s.tasks c).pid dir stack := by
  unfold taskFork at h
  split at h
  · cases h
    exact .inl rfl
  · next t ht =>
      split at h
      · cases h
        exact .inl rfl
      · next hdir =>
          simp only [Option.pure_def, Option.bind_eq_bind, Option.bind_eq_some_iff,
            Option.some.injEq, Prod.mk.injEq] at h
          obtain ⟨c, hc, n, hn, -, rfl⟩ := h
          exact .inr ⟨t, c, ht, hc, hdir, spawned_enqueue (taskFindSlot_free_task ht)
            (intSucc_eq_some hn) rfl rfl⟩

theorem taskCreate_spawned {name : CStr} {entry stack : Nat} {r : Int}
    (h : taskCreate name entry stack s = some (r, s')) :
    s' = s ∨ ∃ t parent, taskFindSlot s = some t ∧
      (∀ c, s.current = some c → parent = (s.tasks c).pid) ∧ Spawned s s' t parent 0 stack := by
  unfold taskCreate at h
  split at h
  · cases h
    exact .inl rfl
  · next t ht =>
      simp only [Option.pure_def, Option.bind_eq_bind, Option.bind_eq_some_iff,
        Option.some.injEq, Prod.mk.injEq] at h
      obtain ⟨n, hn, nm, -, -, rfl⟩ := h
      refine .inr ⟨t, _, ht, ?_, spawned_enqueue (taskFindSlot_free_task ht) (intSucc_eq_some hn)
        rfl rfl⟩
      intro c hc
      dsimp only
      rw [hc]

/-- The running task `c` has become a zombie. -/
structure Exited (s s' : Sched) (c : Slot) : Prop where
  quiet : ∃ x : Task, x.pid = (s.tasks c).pid ∧ x.parentPid = (s.tasks c).parentPid ∧
    x.pageDir = (s.tasks c).pageDir ∧ x.kernelStackBase = (s.tasks c).kernelStackBase ∧
    x.state = .zombie ∧ Quiet (Function.update s.tasks c x) s'.tasks
  /-- A parent that was blocked has been woken. -/
  woken : ∀ p, 0 ≤ (s.tasks c).parentPid → taskFromPid (s.tasks c).parentPid s = some p →
    (s'.tasks p).state ≠ .blocked
  nextPid : s'.nextPid = s.nextPid
  taskCount : s'.taskCount = s.taskCount
  current : s'.current = s.current
  cr3 : s'.cr3 = s.cr3

theorem taskExit_exited {code : Int} {c : Slot} (hc : s.current = some c) :
    Exited s (taskExit code s) c := by
  unfold taskExit
  simp only [hc]
  generalize hs₁ : s.modify c _ = s₁
  have hold : s₁.tasks = Function.update s.tasks c
      { s.tasks c with exitCode := code, state := .zombie } := by
    rw [← hs₁]
    rfl
  have hrest : s₁.nextPid = s.nextPid ∧ s₁.taskCount = s.taskCount ∧ s₁.current = s.current ∧
      s₁.cr3 = s.cr3 := by
    rw [← hs₁]
    exact ⟨rfl, rfl, rfl, rfl⟩
  obtain ⟨hnext, hcount, hcur, hcr3⟩ := hrest
  have hparent : (s₁.tasks c).parentPid = (s.tasks c).parentPid := by
    rw [hold]
    simp
  have hfind : ∀ pid, taskFromPid pid s₁ = taskFromPid pid s := by
    intro pid
    unfold taskFromPid
    congr 1
    funext i
    rw [hold]
    by_cases hi : i = c
    · subst hi
      simp
    · simp [hi]
  have hquiet : ∀ {p}, Quiet s₁.tasks p → ∃ x : Task, x.pid = (s.tasks c).pid ∧
      x.parentPid = (s.tasks c).parentPid ∧ x.pageDir = (s.tasks c).pageDir ∧
      x.kernelStackBase = (s.tasks c).kernelStackBase ∧ x.state = .zombie ∧
      Quiet (Function.update s.tasks c x) p := by
    intro p hp
    rw [hold] at hp
    exact ⟨{ s.tasks c with exitCode := code, state := .zombie }, rfl, rfl, rfl, rfl, rfl, hp⟩
  split
  · split
    · next hnone =>
        refine ⟨hquiet (Quiet.refl _), ?_, hnext, hcount, hcur, hcr3⟩
        intro p _ hp
        rw [hparent, hfind, hp] at hnone
        cases hnone
    · next parent hsome =>
        rw [hparent, hfind] at hsome
        split
        · obtain ⟨hq, hcounts, hcur', hcr3'⟩ := enqueueReady_quiet parent (s₁.setState parent .ready)
          refine ⟨hquiet ((Quiet.setReady s₁ parent).trans hq), ?_, hcounts.nextPid.trans hnext,
            hcounts.taskCount.trans hcount, hcur'.trans hcur, hcr3'.trans hcr3⟩
          intro p _ hp
          obtain rfl : parent = p := Option.some.inj (hsome.symm.trans hp)
          intro hblocked
          have := hq.blocked hblocked
          simp [Sched.setState, Sched.modify] at this
        · next hstate =>
            refine ⟨hquiet (Quiet.refl _), ?_, hnext, hcount, hcur, hcr3⟩
            intro p _ hp
            obtain rfl : parent = p := Option.some.inj (hsome.symm.trans hp)
            exact hstate
  · next hneg =>
      refine ⟨hquiet (Quiet.refl _), ?_, hnext, hcount, hcur, hcr3⟩
      intro p hpos
      rw [hparent] at hneg
      omega

/-- The frames that `task_wait` frees for a child. -/
def freedFrames (p : Task) : List Nat :=
  (if p.kernelStackBase ≠ 0 then [p.kernelStackBase] else []) ++
    (if p.pageDir ≠ 0 then [p.pageDir] else [])

/-- The scheduler's variables after `task_wait` has cleared the slot `z`. -/
def cleared (z : Slot) (s : Sched) : Sched :=
  { s with
    tasks := Function.update s.tasks z { pid := -1 }
    taskCount := s.taskCount - 1 }

section WaitPasses

variable {σ : Sched} {pid : Int} {c : Slot}

theorem taskWait_collected {childPid exitCode : Int} {freed : List Nat}
    (h : taskWait pid c s = (.collected childPid exitCode freed, σ)) :
    ∃ z, isChild s c pid z = true ∧ (s.tasks z).state = .zombie ∧
      childPid = (s.tasks z).pid ∧ freed = freedFrames (s.tasks z) ∧
      σ = cleared z s := by
  unfold taskWait at h
  split at h
  · next z hfind =>
      have hz : isChild s c pid z = true ∧ (s.tasks z).state = .zombie := by
        simpa using List.find?_some hfind
      cases h
      exact ⟨z, hz.1, hz.2, rfl, rfl, rfl⟩
  · split at h <;> cases h

theorem taskWait_noChildren (h : taskWait pid c s = (.noChildren, σ)) : σ = s := by
  unfold taskWait at h
  split at h
  · cases h
  · split at h
    · cases h
    · cases h
      rfl

theorem taskWait_blocked (h : taskWait pid c s = (.blocked, σ)) :
    σ = s.setState c .blocked := by
  unfold taskWait at h
  split at h
  · cases h
  · split at h
    · cases h
      rfl
    · cases h

end WaitPasses

end SRos
