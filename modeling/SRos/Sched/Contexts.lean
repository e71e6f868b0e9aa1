import SRos.Sched.Linked
import SRos.Lib.Run

/-!
# Saved contexts

`scheduler_tick` keeps the frame of the interrupted task in its slot and returns the frame of the
task that gets the processor. A log of the frames that were made or passed in says which frame a
task has to get back: no operation on another task comes between.
-/

namespace SRos

/-- The kernel stack and the saved context of every task stay as they are. -/
structure SameContexts (p p' : Slot → Task) : Prop where
  esp : ∀ t, (p' t).kernelEsp = (p t).kernelEsp
  top : ∀ t, (p' t).kernelStackTop = (p t).kernelStackTop

namespace SameContexts

variable {p p' p'' : Slot → Task} {s : Sched} {t : Slot}

theorem refl (p : Slot → Task) : SameContexts p p := ⟨fun _ => rfl, fun _ => rfl⟩

theorem trans (h : SameContexts p p') (h' : SameContexts p' p'') : SameContexts p p'' where
  esp := fun t => (h'.esp t).trans (h.esp t)
  top := fun t => (h'.top t).trans (h.top t)

theorem update (p : Slot → Task) (t : Slot) (x : Task) (hesp : x.kernelEsp = (p t).kernelEsp)
    (htop : x.kernelStackTop = (p t).kernelStackTop) : SameContexts p (Function.update p t x) := by
  refine ⟨?_, ?_⟩
  all_goals
    intro u
    by_cases hu : u = t
    · subst hu
      simpa using by assumption
    · simp [hu]

theorem setNext (s : Sched) (t : Slot) (v : Option Slot) :
    SameContexts s.tasks (s.setNext t v).tasks := update s.tasks t _ rfl rfl

theorem setState (s : Sched) (t : Slot) (x : TaskState) :
    SameContexts s.tasks (s.setState t x).tasks := update s.tasks t _ rfl rfl

theorem enqueueReady (t : Slot) (s : Sched) :
    SameContexts s.tasks (enqueueReady t s).tasks ∧ (enqueueReady t s).esp0 = s.esp0 := by
  unfold SRos.enqueueReady
  dsimp only
  split
  · exact ⟨(setNext s t none).trans (setNext _ _ _), rfl⟩
  · exact ⟨setNext s t none, rfl⟩

end SameContexts

/-- The processor is with the task `n`, whose context is the frame `f`. -/
structure Resumes (s s' : Sched) (c : Slot) (f : Nat) (n : Slot) : Prop where
  same : SameContexts s.tasks s'.tasks
  current : s'.current = some n
  frame : f = (s.tasks n).kernelEsp
  esp0 : n = c ∧ s'.esp0 = s.esp0 ∨ s'.esp0 = (s.tasks n).kernelStackTop

section Tick

variable {s s' : Sched} {regs f : Nat} {c : Slot}

/-- The context of `c` has been saved. -/
theorem pickNext_resumes (hc : s.current = some c) (hregs : (s.tasks c).kernelEsp = regs)
    (h : pickNext regs c s = some (f, s')) : ∃ n, Resumes s s' c f n := by
  unfold pickNext dequeueReady at h
  split at h
  · split at h
    · cases h
      exact ⟨c, .setState s c .running, hc, hregs.symm, .inl ⟨rfl, rfl⟩⟩
    · cases h
  · next n s₁ hd =>
      split at hd
      · cases hd
      · cases hd
        dsimp only at h
        generalize hx : Sched.setState _ n .running = x at h
        have hsame : SameContexts s.tasks x.tasks := by
          rw [← hx]
          exact (SameContexts.setNext s n none).trans (.setState _ n .running)
        have hcur : x.current = some n := by
          rw [← hx]
          rfl
        split at h
        · cases h
          exact ⟨n, hsame, hcur, hsame.esp n, .inr (hsame.top n)⟩
        · cases h
          exact ⟨n, hsame, hcur, hsame.esp n, .inr (hsame.top n)⟩

theorem tickCurrent_resumes (hc : s.current = some c) (hregs : (s.tasks c).kernelEsp = regs)
    (h : tickCurrent regs c s = some (f, s')) : ∃ n, Resumes s s' c f n := by
  unfold tickCurrent at h
  split at h
  · exact pickNext_resumes hc hregs h
  · exact pickNext_resumes hc hregs h
  all_goals
    split at h
    · have hcur := (enqueueReady_quiet c (s.setState c .ready)).2.2.1
      obtain ⟨hsame, hesp0⟩ := SameContexts.enqueueReady c (s.setState c .ready)
      have hready := (SameContexts.setState s c .ready).trans hsame
      obtain ⟨n, hn⟩ := pickNext_resumes (hcur.trans hc) ((hready.esp c).trans hregs) h
      refine ⟨n, hready.trans hn.same, hn.current, hn.frame.trans (hready.esp n), ?_⟩
      have hesp := hn.esp0
      rw [hesp0, hready.top n] at hesp
      exact hesp
    · cases h
      exact ⟨c, .setState s c .running, hc, hregs.symm, .inl ⟨rfl, rfl⟩⟩

/-- The context that is saved is the one of the running task. -/
theorem schedulerTick_resumes (hc : s.current = some c)
    (h : schedulerTick 32 regs s = some (f, s')) :
    ∃ n, Resumes { s with tasks := Function.update s.tasks c { s.tasks c with kernelEsp := regs } }
      s' c f n := by
  rw [schedulerTick_timer hc] at h
  obtain ⟨n, hn⟩ := tickCurrent_resumes (by exact hc) (by simp [Sched.modify]) h
  exact ⟨n, hn.same, hn.current, hn.frame, hn.esp0⟩

/-- What the slots hold when the context of `c` is saved and nothing else changes. -/
theorem SameContexts.saved (h : SameContexts
      (Function.update s.tasks c { s.tasks c with kernelEsp := regs }) s'.tasks) :
    (s'.tasks c).kernelEsp = regs ∧
      (∀ t, t ≠ c → (s'.tasks t).kernelEsp = (s.tasks t).kernelEsp) ∧
      ∀ t, (s'.tasks t).kernelStackTop = (s.tasks t).kernelStackTop := by
  refine ⟨?_, ?_, ?_⟩
  · rw [h.esp, Function.update_self]
  · intro t ht
    rw [h.esp, Function.update_of_ne ht]
  · intro t
    rw [h.top]
    by_cases ht : t = c
    · rw [ht, Function.update_self]
    · rw [Function.update_of_ne ht]

end Tick

/-- The top of a kernel stack of one page. -/
def kstackTop (kstackPhys : Nat) : Nat := u32 (kstackPhys + 0x1000)

/-- Where `task_create` and `task_fork` build the frame of a new task. -/
def initialFrame (kstackPhys : Nat) : Nat := u32 (kstackTop kstackPhys + 2 ^ 32 - sizeofRegisters)

/-- A new task in slot `t` has its context in the frame that was built on its kernel stack. -/
structure Made (s s' : Sched) (t : Slot) (r : Int) (kstackPhys : Nat) : Prop where
  free : (s.tasks t).pid < 0
  pid : r = s.nextPid
  fills : ∃ x : Task, x.pid = s.nextPid ∧ x.kernelEsp = initialFrame kstackPhys ∧
    x.kernelStackTop = kstackTop kstackPhys ∧ Quiet (Function.update s.tasks t x) s'.tasks ∧
    SameContexts (Function.update s.tasks t x) s'.tasks
  current : s'.current = s.current
  esp0 : s'.esp0 = s.esp0

section Made

variable {s s' : Sched} {kstackPhys : Nat} {r : Int}

theorem made_enqueue {t : Slot} {x : Task} {frames : Nat → Registers} {n : Int}
    (hfree : (s.tasks t).pid < 0) (hpid : x.pid = s.nextPid)
    (hesp : x.kernelEsp = initialFrame kstackPhys)
    (htop : x.kernelStackTop = kstackTop kstackPhys) :
    let s₁ := enqueueReady t { s with
      frames := frames, nextPid := n, tasks := Function.update s.tasks t x }
    Made s { s₁ with taskCount := s₁.taskCount + 1 } t x.pid kstackPhys := by
  obtain ⟨hquiet, -, hcur, -⟩ := enqueueReady_quiet t { s with
    frames := frames, nextPid := n, tasks := Function.update s.tasks t x }
  obtain ⟨hsame, hesp0⟩ := SameContexts.enqueueReady t { s with
    frames := frames, nextPid := n, tasks := Function.update s.tasks t x }
  exact ⟨hfree, hpid, ⟨x, hpid, hesp, htop, hquiet, hsame⟩, hcur, hesp0⟩

theorem taskCreate_made {name : CStr} {entry : Nat}
    (h : taskCreate name entry kstackPhys s = some (r, s')) :
    r = -1 ∧ s' = s ∨ ∃ t, Made s s' t r kstackPhys := by
  unfold taskCreate at h
  split at h
  · cases h
    exact .inl ⟨rfl, rfl⟩
  · next t ht =>
      simp only [Option.pure_def, Option.bind_eq_bind, Option.bind_eq_some_iff,
        Option.some.injEq, Prod.mk.injEq] at h
      obtain ⟨n, -, nm, -, rfl, rfl⟩ := h
      exact .inr ⟨t, made_enqueue (taskFindSlot_free_task ht) rfl rfl rfl⟩

theorem taskFork_made {regs newPageDir : Nat}
    (h : taskFork regs newPageDir kstackPhys s = some (r, s')) :
    r = -1 ∧ s' = s ∨ ∃ t, Made s s' t r kstackPhys := by
  unfold taskFork at h
  split at h
  · cases h
    exact .inl ⟨rfl, rfl⟩
  · next t ht =>
      split at h
      · cases h
        exact .inl ⟨rfl, rfl⟩
      · simp only [Option.pure_def, Option.bind_eq_bind, Option.bind_eq_some_iff,
          Option.some.injEq, Prod.mk.injEq] at h
        obtain ⟨c, -, n, -, rfl, rfl⟩ := h
        exact .inr ⟨t, made_enqueue (taskFindSlot_free_task ht) rfl rfl rfl⟩

end Made

theorem taskExit_contexts (code : Int) (s : Sched) :
    SameContexts s.tasks (taskExit code s).tasks ∧ (taskExit code s).esp0 = s.esp0 := by
  unfold taskExit
  split
  · exact ⟨.refl _, rfl⟩
  · next c hc =>
      dsimp only
      generalize hs₁ : s.modify c _ = s₁
      have hsame : SameContexts s.tasks s₁.tasks ∧ s₁.esp0 = s.esp0 := by
        rw [← hs₁]
        exact ⟨.update s.tasks c _ rfl rfl, rfl⟩
      split
      · split
        · exact hsame
        · next parent _ =>
            split
            · obtain ⟨henq, hesp0⟩ := SameContexts.enqueueReady parent (s₁.setState parent .ready)
              exact ⟨(hsame.1.trans (.setState s₁ parent .ready)).trans henq, hesp0.trans hsame.2⟩
            · exact hsame
      · exact hsame

/-! ## Runs with a log of the frames -/

/-- What the log of the scheduler holds: a task was made with its first frame and its kernel stack,
or `scheduler_tick` was called with the frame `regs` while `pid` had the processor, and returned
`frame` to `next`. -/
inductive SwitchEvent where
  | made (pid : Int) (frame top : Nat)
  | tick (pid : Int) (regs : Nat) (next : Int) (frame esp0 : Nat)
  deriving DecidableEq

/-- The frame with which a task last lost the processor, or its first one. The log has the last
event in front. -/
def lostFrame (pid : Int) : List SwitchEvent → Option Nat
  | [] => none
  | .made p frame _ :: log => if p = pid then some frame else lostFrame pid log
  | .tick p regs next _ _ :: log =>
      if p = pid ∧ next ≠ pid then some regs else lostFrame pid log

/-- The top of the kernel stack that a task was given. -/
def stackTop (pid : Int) : List SwitchEvent → Option Nat
  | [] => none
  | .made p _ top :: log => if p = pid then some top else stackTop pid log
  | .tick .. :: log => stackTop pid log

/-- Every task has been resumed with its own context, on its own kernel stack. -/
def Intact : List SwitchEvent → Prop
  | [] => True
  | .made .. :: log => Intact log
  | .tick pid regs next frame esp0 :: log =>
      (if next = pid then frame = regs else lostFrame next log = some frame) ∧
        stackTop next log = some esp0 ∧ Intact log

inductive SchedAct where
  | create (name : CStr) (entry kstackPhys : Nat)
  | fork (regs newPageDir kstackPhys : Nat)
  | exit (code : Int) (regs : Nat)
  | wait (pid : Int) (regs : Nat)
  | tick (intNo regs : Nat)

/-- The scheduler's variables with the log. -/
structure Switches where
  sched : Sched
  log : List SwitchEvent

namespace Switches

/-- `task_create` or `task_fork` has returned. -/
def spawned (kstackPhys : Nat) (x : Switches) (r : Int × Sched) : Switches where
  sched := r.2
  log := if r.1 = -1 then x.log
    else .made r.1 (initialFrame kstackPhys) (kstackTop kstackPhys) :: x.log

def tick (intNo regs : Nat) (x : Switches) : Option Switches := do
  let (frame, s) ← schedulerTick intNo regs x.sched
  return { sched := s
           log := .tick (callerPid x.sched) regs (callerPid s) frame s.esp0 :: x.log }

/-- A pass of `task_wait`, with its `int $32` if it blocks. -/
def wait (pid : Int) (regs : Nat) (x : Switches) : Option Switches :=
  match x.sched.current with
  | none => some x
  | some c =>
      match taskWait pid c x.sched with
      | (.blocked, s) => tick 32 regs { x with sched := s }
      | (_, s) => some { x with sched := s }

def step (x : Switches) : SchedAct → Option Switches
  | .create name entry kstackPhys =>
      (taskCreate name entry kstackPhys x.sched).map (x.spawned kstackPhys)
  | .fork regs newPageDir kstackPhys =>
      (taskFork regs newPageDir kstackPhys x.sched).map (x.spawned kstackPhys)
  | .exit code regs => tick 32 regs { x with sched := taskExit code x.sched }
  | .wait pid regs => x.wait pid regs
  | .tick intNo regs => x.tick intNo regs

/-- The scheduler after `scheduler_init`. The first task has no frame yet: its context is taken at
the first interrupt. -/
def boot (frames : Nat → Registers) (cr3 esp0 timerTicks : Nat) : Option Switches := do
  let s ← schedulerInit (Sched.bss frames cr3 esp0 timerTicks)
  return { sched := s, log := [.made 0 0 0x20000] }

/-- The log tells the saved context and the kernel stack of every task. -/
structure Saved (x : Switches) : Prop where
  linked : x.sched.Linked
  frame : ∀ t, 0 ≤ (x.sched.tasks t).pid → x.sched.current ≠ some t →
    lostFrame (x.sched.tasks t).pid x.log = some (x.sched.tasks t).kernelEsp
  top : ∀ t, 0 ≤ (x.sched.tasks t).pid →
    stackTop (x.sched.tasks t).pid x.log = some (x.sched.tasks t).kernelStackTop
  esp0 : ∀ c, x.sched.current = some c → x.sched.esp0 = (x.sched.tasks c).kernelStackTop
  intact : Intact x.log

/-- The current task has not become a zombie or blocked in the middle of an operation. -/
def CurrentRuns (s : Sched) : Prop := ∀ c, s.current = some c → (s.tasks c).state = .running

namespace Saved

variable {x x' : Switches} {s : Sched} {c : Slot}

/-- The operation leaves the contexts of the tasks that are live afterwards alone. -/
theorem keep (h : x.Saved) (hlinked : s.Linked) (hcur : s.current = x.sched.current)
    (hesp0 : s.esp0 = x.sched.esp0)
    (hpid : ∀ t, 0 ≤ (s.tasks t).pid → (s.tasks t).pid = (x.sched.tasks t).pid)
    (hesp : ∀ t, 0 ≤ (s.tasks t).pid → (s.tasks t).kernelEsp = (x.sched.tasks t).kernelEsp)
    (htop : ∀ t, 0 ≤ (s.tasks t).pid →
      (s.tasks t).kernelStackTop = (x.sched.tasks t).kernelStackTop) :
    Saved { x with sched := s } where
  linked := hlinked
  frame := by
    intro t ht hne
    rw [hcur] at hne
    rw [hesp t ht, hpid t ht]
    exact h.frame t (hpid t ht ▸ ht) hne
  top := by
    intro t ht
    rw [htop t ht, hpid t ht]
    exact h.top t (hpid t ht ▸ ht)
  esp0 := by
    intro c hc
    have hlive : 0 ≤ (s.tasks c).pid := hlinked.live hc
    change s.current = some c at hc
    rw [hcur] at hc
    change s.esp0 = (s.tasks c).kernelStackTop
    rw [hesp0, htop c hlive]
    exact h.esp0 c hc
  intact := h.intact

/-- A new task gets its context from the frame that was built for it. -/
theorem spawn {t : Slot} {r : Int} {kstackPhys : Nat} (h : x.Saved) (hlinked : s.Linked)
    (hm : Made x.sched s t r kstackPhys) : (x.spawned kstackPhys (r, s)).Saved := by
  obtain ⟨y, hypid, hyesp, hytop, hquiet, hsame⟩ := hm.fills
  have hnew : r ≠ -1 := by
    have := h.linked.nextPid
    have := hm.pid
    omega
  have hlog : (x.spawned kstackPhys (r, s)).log =
      .made r (initialFrame kstackPhys) (kstackTop kstackPhys) :: x.log := if_neg hnew
  have hother : ∀ u, u ≠ t → (s.tasks u).pid = (x.sched.tasks u).pid ∧
      (s.tasks u).kernelEsp = (x.sched.tasks u).kernelEsp ∧
      (s.tasks u).kernelStackTop = (x.sched.tasks u).kernelStackTop ∧
      r ≠ (s.tasks u).pid := by
    intro u hu
    have hupid := hquiet.pid u
    have huesp := hsame.esp u
    have hutop := hsame.top u
    rw [Function.update_of_ne hu] at hupid huesp hutop
    have hlt := h.linked.pidLt u
    have hr := hm.pid
    exact ⟨hupid, huesp, hutop, by omega⟩
  have hself : (s.tasks t).pid = r ∧ (s.tasks t).kernelEsp = initialFrame kstackPhys ∧
      (s.tasks t).kernelStackTop = kstackTop kstackPhys := by
    rw [hquiet.pid, hsame.esp, hsame.top, Function.update_self]
    exact ⟨hypid.trans hm.pid.symm, hyesp, hytop⟩
  refine ⟨hlinked, ?_, ?_, ?_, ?_⟩
  · intro u hlive hne
    change 0 ≤ (s.tasks u).pid at hlive
    change s.current ≠ some u at hne
    rw [hlog]
    change lostFrame (s.tasks u).pid _ = some (s.tasks u).kernelEsp
    by_cases hu : u = t
    · subst hu
      rw [hself.1, hself.2.1, lostFrame, if_pos rfl]
    · obtain ⟨hupid, huesp, -, hr⟩ := hother u hu
      rw [lostFrame, if_neg hr, huesp, hupid]
      rw [hm.current] at hne
      exact h.frame u (hupid ▸ hlive) hne
  · intro u hlive
    change 0 ≤ (s.tasks u).pid at hlive
    rw [hlog]
    change stackTop (s.tasks u).pid _ = some (s.tasks u).kernelStackTop
    by_cases hu : u = t
    · subst hu
      rw [hself.1, hself.2.2, stackTop, if_pos rfl]
    · obtain ⟨hupid, -, hutop, hr⟩ := hother u hu
      rw [stackTop, if_neg hr, hutop, hupid]
      exact h.top u (hupid ▸ hlive)
  · intro c hc
    change s.current = some c at hc
    rw [hm.current] at hc
    have hne : c ≠ t := by
      rintro rfl
      have hfree := hm.free
      have hlive := h.linked.live hc
      omega
    change s.esp0 = (s.tasks c).kernelStackTop
    rw [hm.esp0, (hother c hne).2.2.1]
    exact h.esp0 c hc
  · rw [hlog]
    exact h.intact

/-- Another vector: the log gets an entry that says that nothing happened. -/
theorem other {intNo regs : Nat} (h : x.Saved) (hne : intNo ≠ 32)
    (ht : x.tick intNo regs = some x') : x'.Saved ∧ x'.sched = x.sched := by
  unfold Switches.tick at ht
  rw [schedulerTick, if_pos hne] at ht
  simp only [Option.pure_def, Option.bind_eq_bind, Option.bind_some, Option.some.injEq] at ht
  subst ht
  obtain ⟨c, hc, hlive⟩ := h.linked.current
  refine ⟨⟨h.linked, ?_, h.top, h.esp0, ?_⟩, rfl⟩
  · intro t ht hcur
    change lostFrame _ (_ :: x.log) = _
    rw [lostFrame, if_neg (by rintro ⟨hp, hn⟩; exact hn hp)]
    exact h.frame t ht hcur
  · refine ⟨by rw [if_pos rfl], ?_, h.intact⟩
    rw [callerPid_eq hc, h.esp0 c hc]
    exact h.top c hlive

theorem timer {regs : Nat} (h : x.Saved) (ht : x.tick 32 regs = some x') :
    x'.Saved ∧ CurrentRuns x'.sched := by
  unfold Switches.tick at ht
  simp only [Option.pure_def, Option.bind_eq_bind, Option.bind_eq_some_iff, Prod.exists,
    Option.some.injEq] at ht
  obtain ⟨f, s', hs, rfl⟩ := ht
  have hlinked := h.linked.tick hs
  have hticked := schedulerTick_ticked hs
  have hpid := hticked.quiet.pid
  obtain ⟨c, hc, hclive⟩ := h.linked.current
  obtain ⟨n, hn⟩ := schedulerTick_resumes hc hs
  have hcur : s'.current = some n := hn.current
  obtain ⟨hself, hother, htop⟩ := hn.same.saved
  have hnlive : 0 ≤ (x.sched.tasks n).pid := by
    rw [← hpid]
    exact hlinked.live hcur
  -- two live tasks never have one pid
  have hsame : ∀ t, 0 ≤ (x.sched.tasks t).pid →
      ((x.sched.tasks c).pid = (x.sched.tasks t).pid ↔ t = c) := by
    intro t hlive
    exact ⟨fun heq => h.linked.pidInj hlive heq.symm, fun heq => by rw [heq]⟩
  have hframe : f = (s'.tasks n).kernelEsp := hn.frame.trans (hn.same.esp n).symm
  have hesp0 : s'.esp0 = (x.sched.tasks n).kernelStackTop := by
    rcases hn.esp0 with ⟨rfl, heq⟩ | heq
    · exact heq.trans (h.esp0 n hc)
    · rw [heq, ← hn.same.top, htop]
  refine ⟨⟨hlinked, ?_, ?_, ?_, ?_⟩, hticked.running⟩
  · intro t hlive hne
    change 0 ≤ (s'.tasks t).pid at hlive
    change s'.current ≠ some t at hne
    change lostFrame (s'.tasks t).pid (_ :: x.log) = some (s'.tasks t).kernelEsp
    rw [hpid] at hlive ⊢
    have htn : t ≠ n := by
      rintro rfl
      exact hne hcur
    have hnext : callerPid s' ≠ (x.sched.tasks t).pid := by
      rw [callerPid_eq hcur, hpid]
      exact fun heq => htn (h.linked.pidInj hlive heq.symm)
    rw [lostFrame, callerPid_eq hc]
    by_cases htc : t = c
    · rw [if_pos ⟨(hsame t hlive).mpr htc, hnext⟩, htc, hself]
    · rw [if_neg (fun hand => htc ((hsame t hlive).mp hand.1)), hother t htc]
      exact h.frame t hlive (by rw [hc]; simpa using Ne.symm htc)
  · intro t hlive
    change 0 ≤ (s'.tasks t).pid at hlive
    change stackTop (s'.tasks t).pid x.log = some (s'.tasks t).kernelStackTop
    rw [hpid] at hlive ⊢
    rw [htop]
    exact h.top t hlive
  · intro m hm
    obtain rfl : n = m := Option.some.inj (hcur.symm.trans hm)
    exact hesp0.trans (htop n).symm
  · refine ⟨?_, ?_, h.intact⟩
    · rw [callerPid_eq hcur, callerPid_eq hc, hpid]
      by_cases hnc : n = c
      · rw [if_pos (by rw [hnc]), hframe, hnc, hself]
      · rw [if_neg (fun heq => hnc (h.linked.pidInj hnlive heq)), hframe, hother n hnc]
        exact h.frame n hnlive (by rw [hc]; simpa using Ne.symm hnc)
    · rw [callerPid_eq hcur, hpid, hesp0]
      exact h.top n hnlive

theorem exit {code : Int} (h : x.Saved) (hrun : CurrentRuns x.sched) :
    Saved { x with sched := taskExit code x.sched } := by
  obtain ⟨c, hc, -⟩ := h.linked.current
  have hexit := @taskExit_exited x.sched code c hc
  obtain ⟨y, hpid, -, -, -, -, hquiet⟩ := hexit.quiet
  obtain ⟨hsame, hesp0⟩ := taskExit_contexts code x.sched
  refine h.keep (h.linked.exit hc (hrun c hc)) hexit.current hesp0 ?_ (fun t _ => hsame.esp t)
    (fun t _ => hsame.top t)
  intro t _
  rw [hquiet.pid]
  by_cases ht : t = c
  · rw [ht, Function.update_self, hpid]
  · rw [Function.update_of_ne ht]

theorem block (h : x.Saved) (hrun : CurrentRuns x.sched) (hc : x.sched.current = some c) :
    Saved { x with sched := x.sched.setState c .blocked } := by
  have hsame := SameContexts.setState x.sched c .blocked
  refine h.keep (h.linked.setBlocked hc (hrun c hc)) rfl rfl ?_ (fun t _ => hsame.esp t)
    (fun t _ => hsame.top t)
  intro t _
  by_cases ht : t = c
  · rw [ht]
    simp [Sched.setState, Sched.modify]
  · simp [Sched.setState, Sched.modify, ht]

/-- The slot of a zombie is free afterwards. -/
theorem collect {z : Slot} {pid : Int} (h : x.Saved) (hrun : CurrentRuns x.sched)
    (hc : x.sched.current = some c) (hchild : isChild x.sched c pid z = true)
    (hz : (x.sched.tasks z).state = .zombie) :
    Saved { x with sched := cleared z x.sched } ∧ CurrentRuns (cleared z x.sched) := by
  have hlive : 0 ≤ (x.sched.tasks z).pid := by
    simp only [isChild, Bool.and_eq_true, decide_eq_true_eq] at hchild
    exact hchild.1.1
  have hother : ∀ t, t ≠ z → (cleared z x.sched).tasks t = x.sched.tasks t := by
    intro t ht
    exact Function.update_of_ne ht _ _
  have hne : ∀ t, 0 ≤ ((cleared z x.sched).tasks t).pid → t ≠ z := by
    rintro t ht rfl
    simp [cleared] at ht
  constructor
  · refine h.keep (h.linked.collect hc (hrun c hc) hz hlive) rfl rfl ?_ ?_ ?_
    all_goals
      intro t ht
      rw [hother t (hne t ht)]
  · intro m hm
    have hmz : m ≠ z := by
      rintro rfl
      have := hrun m hm
      rw [hz] at this
      cases this
    rw [hother m hmz]
    exact hrun m hm

theorem wait {pid : Int} {regs : Nat} (h : x.Saved) (hrun : CurrentRuns x.sched)
    (hs : x.wait pid regs = some x') : x'.Saved ∧ CurrentRuns x'.sched := by
  unfold Switches.wait at hs
  obtain ⟨c, hc, -⟩ := h.linked.current
  rw [hc] at hs
  dsimp only at hs
  cases hw : taskWait pid c x.sched with
  | mk pass s =>
      rw [hw] at hs
      cases pass with
      | collected childPid exitCode freed =>
          obtain ⟨z, hchild, hz, -, -, rfl⟩ := taskWait_collected hw
          cases hs
          exact h.collect hrun hc hchild hz
      | noChildren =>
          obtain rfl := taskWait_noChildren hw
          cases hs
          exact ⟨h, hrun⟩
      | blocked =>
          obtain rfl := taskWait_blocked hw
          exact (h.block hrun hc).timer hs

theorem made {r : Int} {kstackPhys : Nat} (h : x.Saved) (hrun : CurrentRuns x.sched)
    (hlinked : s.Linked)
    (hm : r = -1 ∧ s = x.sched ∨ ∃ t, Made x.sched s t r kstackPhys) :
    (x.spawned kstackPhys (r, s)).Saved ∧ CurrentRuns s := by
  rcases hm with ⟨rfl, rfl⟩ | ⟨t, hm⟩
  · exact ⟨h, hrun⟩
  · refine ⟨h.spawn hlinked hm, ?_⟩
    intro c hc
    obtain ⟨y, -, -, -, hquiet, -⟩ := hm.fills
    have hc' := hm.current.symm.trans hc
    refine hlinked.still_running hc hquiet ?_
    have hne : c ≠ t := by
      rintro rfl
      have hfree := hm.free
      have hlive := h.linked.live hc'
      omega
    rw [Function.update_of_ne hne]
    exact hrun c hc'

theorem step {a : SchedAct} (h : x.Saved) (hrun : CurrentRuns x.sched)
    (hs : x.step a = some x') : x'.Saved ∧ CurrentRuns x'.sched := by
  cases a with
  | create name entry kstackPhys =>
      obtain ⟨⟨r, s⟩, hcreate, rfl⟩ := Option.map_eq_some_iff.mp hs
      exact h.made hrun (h.linked.create hcreate) (taskCreate_made hcreate)
  | fork regs newPageDir kstackPhys =>
      obtain ⟨⟨r, s⟩, hfork, rfl⟩ := Option.map_eq_some_iff.mp hs
      exact h.made hrun (h.linked.fork hfork) (taskFork_made hfork)
  | exit code regs => exact (h.exit hrun).timer hs
  | wait pid regs => exact h.wait hrun hs
  | tick intNo regs =>
      by_cases hint : intNo = 32
      · subst hint
        exact h.timer hs
      · obtain ⟨hsaved, heq⟩ := h.other hint hs
        rw [heq]
        exact ⟨hsaved, hrun⟩

theorem boot {frames : Nat → Registers} {cr3 esp0 timerTicks : Nat}
    (h : Switches.boot frames cr3 esp0 timerTicks = some x) : x.Saved ∧ CurrentRuns x.sched := by
  simp only [Switches.boot, Option.pure_def, Option.bind_eq_bind, Option.bind_eq_some_iff,
    Option.some.injEq] at h
  obtain ⟨s, hinit, rfl⟩ := h
  have hlinked := Sched.Linked.init hinit
  obtain ⟨-, hcur, ⟨hpid, -, hstate, -, -, htop, hesp0⟩, hfree⟩ := schedulerInit_tasks hinit
  have hfirst : ∀ t, 0 ≤ (s.tasks t).pid → t = 0 := by
    intro t ht
    by_contra hne
    rw [hfree t hne] at ht
    omega
  refine ⟨⟨hlinked, ?_, ?_, ?_, trivial⟩, ?_⟩
  · intro t ht hne
    obtain rfl := hfirst t ht
    exact absurd hcur hne
  · intro t ht
    obtain rfl := hfirst t ht
    change stackTop (s.tasks 0).pid _ = some (s.tasks 0).kernelStackTop
    rw [hpid, htop]
    rfl
  · intro c hc
    obtain rfl : 0 = c := Option.some.inj (hcur.symm.trans hc)
    exact hesp0.trans htop.symm
  · intro c hc
    obtain rfl : 0 = c := Option.some.inj (hcur.symm.trans hc)
    exact hstate

/-- The contexts are intact in every run. -/
theorem reach {frames : Nat → Registers} {cr3 esp0 timerTicks : Nat} {x₀ : Switches}
    {ok : Switches → SchedAct → Prop} (h₀ : Switches.boot frames cr3 esp0 timerTicks = some x₀)
    (h : Reach Switches.step ok x₀ x) : x.Saved ∧ CurrentRuns x.sched := by
  apply h.invariant (boot h₀)
  intro y a y' hy _ hs
  exact hy.1.step hy.2 hs

end Saved

end Switches

end SRos
