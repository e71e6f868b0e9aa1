import SRos.Lib.Run
import SRos.Sched.Linked

/-!
# `task_wait` under preemption

`task_wait` runs with interrupts enabled. Here a timer interrupt can fall between any two
iterations of its scans, between the scans, and in front of and behind the assignment of
`TASK_BLOCKED`. `task_exit` wakes a parent whose state is `TASK_BLOCKED` at that moment and no
other: a child that exits behind the scan for zombies and in front of the assignment is not
seen, and its parent goes to sleep.
-/

namespace SRos

/-- Where a task is in the kernel code. -/
inductive WaitPc where
  | user
  /-- The scan for zombies of `task_wait(pid)`, in front of slot `i`. -/
  | zombies (pid : Int) (i : Nat)
  /-- The scan for living children, in front of slot `i`. -/
  | living (pid : Int) (i : Nat)
  /-- In front of `current_task->state = TASK_BLOCKED`. -/
  | block (pid : Int)
  /-- In front of `int $32`. -/
  | waitInt (pid : Int)
  | exitInt
  deriving DecidableEq

/-- The argument of the `task_wait` that a task is in. -/
def WaitPc.waitsFor : WaitPc → Option Int
  | .zombies pid _ | .living pid _ | .block pid | .waitInt pid => some pid
  | .user | .exitInt => none

/-- The argument of a `task_wait` that has passed `child` in its scan for zombies and has not
yet set the state of its caller. -/
def WaitPc.passed (p : WaitPc) (child : Slot) : Option Int :=
  match p with
  | .zombies pid i => if child.val < i then some pid else none
  | .living pid _ | .block pid => some pid
  | .user | .waitInt _ | .exitInt => none

structure WaitSys where
  sched : Sched
  pc : Slot → WaitPc

inductive WaitAct where
  | tick (regs : Nat)
  | fork (regs newPageDir kstackPhys : Nat)
  | exit (code : Int)
  | wait (pid : Int)
  /-- The running task goes on; `regs` is its frame should it execute an `int $32`. -/
  | cont (regs : Nat)

namespace WaitSys

def setPc (s : WaitSys) (t : Slot) (p : WaitPc) : WaitSys :=
  { s with pc := Function.update s.pc t p }

def tick (regs : Nat) (s : WaitSys) : Option WaitSys :=
  (schedulerTick 32 regs s.sched).map fun r => { s with sched := r.2 }

/-- The PCB of a collected child is cleared. -/
def collect (child : Slot) (s : Sched) : Sched :=
  { s with
    tasks := Function.update s.tasks child { pid := -1 }
    taskCount := s.taskCount - 1 }

/-- The next step of `c` inside the kernel. -/
def cont (s : WaitSys) (c : Slot) (regs : Nat) : Option WaitSys :=
  match s.pc c with
  | .user => none
  | .zombies pid i =>
      if h : i < maxTasks then
        if isChild s.sched c pid ⟨i, h⟩ && (s.sched.tasks ⟨i, h⟩).state == .zombie then
          some ({ s with sched := collect ⟨i, h⟩ s.sched }.setPc c .user)
        else some (s.setPc c (.zombies pid (i + 1)))
      else some (s.setPc c (.living pid 0))
  | .living pid i =>
      if h : i < maxTasks then
        if isChild s.sched c pid ⟨i, h⟩ && (s.sched.tasks ⟨i, h⟩).state != .zombie then
          some (s.setPc c (.block pid))
        else some (s.setPc c (.living pid (i + 1)))
      else some (s.setPc c .user)
  | .block pid => some ({ s with sched := s.sched.setState c .blocked }.setPc c (.waitInt pid))
  | .waitInt pid => (s.setPc c (.zombies pid 0)).tick regs
  | .exitInt => s.tick regs

def step (s : WaitSys) (a : WaitAct) : Option WaitSys :=
  match s.sched.current, a with
  | _, .tick regs => s.tick regs
  | none, _ => none
  | some c, .cont regs => s.cont c regs
  | some c, .fork regs newPageDir kstackPhys =>
      if s.pc c = .user then
        (taskFork regs newPageDir kstackPhys s.sched).map fun r =>
          { sched := r.2
            pc := fun t => if taskFindSlot s.sched = some t then .user else s.pc t }
      else none
  | some c, .exit code =>
      if s.pc c = .user then some ({ s with sched := taskExit code s.sched }.setPc c .exitInt)
      else none
  | some c, .wait pid =>
      if s.pc c = .user then some (s.setPc c (.zombies pid 0)) else none

def boot (frames : Nat → Registers) (cr3 esp0 timerTicks : Nat) : Option WaitSys := do
  let sched ← schedulerInit (Sched.bss frames cr3 esp0 timerTicks)
  return { sched := sched, pc := fun _ => .user }

/-- A task sleeps in `task_wait` although a child it waits for has exited. -/
def SleepsOnZombie (s : WaitSys) : Prop :=
  ∃ t pid child, 0 ≤ (s.sched.tasks t).pid ∧ (s.pc t).waitsFor = some pid ∧
    (s.sched.tasks t).state = .blocked ∧ s.sched.current ≠ some t ∧
    (∀ xs, Queue.Chain (fun u => (s.sched.tasks u).next) s.sched.readyHead xs → t ∉ xs) ∧
    isChild s.sched t pid child = true ∧ (s.sched.tasks child).state = .zombie

/-- A task that exits is not one that its parent has passed. -/
def ExitSeen (s : WaitSys) : WaitAct → Prop
  | .exit _ => ∀ c ∈ s.sched.current, ∀ t, ∀ pid ∈ (s.pc t).passed c,
      isChild s.sched t pid c = false
  | _ => True

instance (s : WaitSys) (a : WaitAct) : Decidable (s.ExitSeen a) := by
  unfold ExitSeen
  split <;> infer_instance

end WaitSys

/-- The first slot with a property, and the ones in front of it. -/
theorem find?_finRange_cases {n : Nat} (p : Fin n → Bool) :
    (∃ i, (List.finRange n).find? p = some i ∧ p i = true ∧ ∀ j < i, p j = false) ∨
      (List.finRange n).find? p = none ∧ ∀ i, p i = false := by
  cases hfind : (List.finRange n).find? p with
  | none =>
      right
      refine ⟨rfl, fun i => ?_⟩
      have := List.find?_eq_none.mp hfind i (List.mem_finRange i)
      simpa using this
  | some i =>
      left
      refine ⟨i, rfl, List.find?_some hfind, ?_⟩
      intro j hj
      obtain ⟨-, k, hk, heq, hbefore⟩ := List.find?_eq_some_iff_getElem.mp hfind
      have hki : k = i.val := by
        have := congrArg Fin.val heq
        simpa using this
      have := hbefore j.val (by have := hj; omega)
      simpa using this

theorem isChild_congr {s s' : Sched} {t child : Slot} {pid : Int}
    (ht : (s'.tasks t).pid = (s.tasks t).pid) (hpid : (s'.tasks child).pid = (s.tasks child).pid)
    (hparent : (s'.tasks child).parentPid = (s.tasks child).parentPid) :
    isChild s' t pid child = isChild s t pid child := by
  unfold isChild
  rw [ht, hpid, hparent]

namespace WaitSys

variable {s s' : WaitSys} {a : WaitAct} {c : Slot}

/-- Where the task is after a pass of the loop. -/
def afterPass (pid : Int) : WaitPass → WaitPc
  | .collected _ _ _ | .noChildren => .user
  | .blocked => .waitInt pid

theorem step_cont {regs : Nat} (hc : s.sched.current = some c) :
    s.step (.cont regs) = s.cont c regs := by
  unfold WaitSys.step
  rw [hc]

theorem scan_zombies {regs : Nat} {pid : Int} {i : Nat} (hc : s.sched.current = some c)
    (hmiss : ∀ j : Slot, j.val < i →
      (isChild s.sched c pid j && (s.sched.tasks j).state == .zombie) = false)
    (hpc : s.pc c = .zombies pid 0) (hi : i ≤ maxTasks) :
    Reach WaitSys.step (fun _ a => a = .cont regs) s (s.setPc c (.zombies pid i)) := by
  induction i with
  | zero =>
      have hsame : s.setPc c (.zombies pid 0) = s := by
        unfold WaitSys.setPc
        rw [← hpc, Function.update_eq_self]
      rw [hsame]
      exact .refl
  | succ i ih =>
      refine .step (ih (fun j hj => hmiss j (by omega)) (by omega)) rfl ?_
      rw [step_cont (by exact hc)]
      unfold WaitSys.cont
      have hno := hmiss ⟨i, by omega⟩ (by simp)
      simp [WaitSys.setPc, show i < maxTasks by omega, hno]

theorem scan_living {regs : Nat} {pid : Int} {i : Nat} (hc : s.sched.current = some c)
    (hmiss : ∀ j : Slot, j.val < i →
      (isChild s.sched c pid j && (s.sched.tasks j).state != .zombie) = false)
    (hi : i ≤ maxTasks) :
    Reach WaitSys.step (fun _ a => a = .cont regs) (s.setPc c (.living pid 0))
      (s.setPc c (.living pid i)) := by
  induction i with
  | zero => exact .refl
  | succ i ih =>
      refine .step (ih (fun j hj => hmiss j (by omega)) (by omega)) rfl ?_
      rw [step_cont (by exact hc)]
      unfold WaitSys.cont
      have hno := hmiss ⟨i, by omega⟩ (by simp)
      simp [WaitSys.setPc, show i < maxTasks by omega, hno]

/-- A pass of the loop that nobody interrupts is a pass of `task_wait`. -/
theorem wait_pass {regs : Nat} {pid : Int} (hc : s.sched.current = some c)
    (hpc : s.pc c = .zombies pid 0) :
    Reach WaitSys.step (fun _ a => a = .cont regs) s
      ({ s with sched := (taskWait pid c s.sched).2 }.setPc c
        (afterPass pid (taskWait pid c s.sched).1)) := by
  rcases find?_finRange_cases fun i => isChild s.sched c pid i &&
      (s.sched.tasks i).state == .zombie with ⟨i, hfind, hfound, hbefore⟩ | ⟨hfind, hnone⟩
  · have hscan := @scan_zombies s c regs pid i.val hc (fun j hj => hbefore j hj) hpc i.isLt.le
    refine .step hscan rfl ?_
    rw [step_cont (by exact hc)]
    unfold WaitSys.cont taskWait
    simp only [hfind]
    simp [WaitSys.setPc, hfound, afterPass, WaitSys.collect]
  · have hscan := @scan_zombies s c regs pid maxTasks hc (fun j _ => hnone j) hpc le_rfl
    have hliving : Reach WaitSys.step (fun _ a => a = .cont regs) s
        (s.setPc c (.living pid 0)) := by
      refine .step hscan rfl ?_
      rw [step_cont (by exact hc)]
      unfold WaitSys.cont
      simp [WaitSys.setPc]
    rcases find?_finRange_cases fun i => isChild s.sched c pid i &&
        (s.sched.tasks i).state != .zombie with ⟨i, -, hfound, hbefore⟩ | ⟨-, hdead⟩
    · have hany : ((List.finRange maxTasks).any fun i => isChild s.sched c pid i &&
          (s.sched.tasks i).state != .zombie) = true :=
        List.any_eq_true.mpr ⟨i, List.mem_finRange i, hfound⟩
      have hblock : Reach WaitSys.step (fun _ a => a = .cont regs) s (s.setPc c (.block pid)) := by
        refine .step (hliving.trans (scan_living hc (fun j hj => hbefore j hj) i.isLt.le)) rfl ?_
        rw [step_cont (by exact hc)]
        unfold WaitSys.cont
        simp [WaitSys.setPc, hfound]
      refine .step hblock rfl ?_
      rw [step_cont (by exact hc)]
      unfold WaitSys.cont taskWait
      simp only [hfind, hany]
      simp [WaitSys.setPc, afterPass]
    · have hany : ((List.finRange maxTasks).any fun i => isChild s.sched c pid i &&
          (s.sched.tasks i).state != .zombie) = false := by
        rw [List.any_eq_false]
        intro i _
        simp [hdead i]
      refine .step (hliving.trans (scan_living hc (fun j _ => hdead j) le_rfl)) rfl ?_
      rw [step_cont (by exact hc)]
      unfold WaitSys.cont taskWait
      simp only [hfind, hany]
      simp [WaitSys.setPc, afterPass]

/-! ## Exits that are seen -/

/-- The children that `t` has passed over, or sleeps behind, are not zombies. -/
def Unseen (s : WaitSys) (t : Slot) : Prop :=
  ∀ pid child, isChild s.sched t pid child = true → (s.sched.tasks child).state = .zombie →
    (s.pc t).passed child ≠ some pid ∧
      ((s.pc t).waitsFor = some pid → (s.sched.tasks t).state ≠ .blocked)

/-- The current task runs, or its next instruction is an `int $32`. -/
def Runs (s : WaitSys) : Prop :=
  ∀ c, s.sched.current = some c → (s.sched.tasks c).state = .running ∨
    (∃ pid, s.pc c = .waitInt pid) ∨ s.pc c = .exitInt

structure Inv (s : WaitSys) : Prop where
  linked : s.sched.Linked
  runs : s.Runs
  unseen : ∀ t, 0 ≤ (s.sched.tasks t).pid → s.Unseen t

theorem Inv.running (h : s.Inv) (hc : s.sched.current = some c)
    (hwait : ∀ pid, s.pc c ≠ .waitInt pid) (hexit : s.pc c ≠ .exitInt) :
    (s.sched.tasks c).state = .running := by
  rcases h.runs c hc with hrun | ⟨pid, hint⟩ | hint
  · exact hrun
  · exact absurd hint (hwait pid)
  · exact absurd hint hexit

theorem Inv.not_sleepsOnZombie (h : s.Inv) : ¬ s.SleepsOnZombie := by
  rintro ⟨t, pid, child, hlive, hwaits, hblocked, -, -, hchild, hzombie⟩
  exact (h.unseen t hlive pid child hchild hzombie).2 hwaits hblocked

/-- The running task moves on, to a point at which it has seen no zombie. -/
theorem Inv.setPc {p : WaitPc} (h : s.Inv) (hc : s.sched.current = some c)
    (hrun : (s.sched.tasks c).state = .running) (hunseen : (s.setPc c p).Unseen c) :
    (s.setPc c p).Inv where
  linked := h.linked
  runs := by
    intro t ht
    obtain rfl : c = t := Option.some.inj (hc.symm.trans ht)
    exact .inl hrun
  unseen := by
    intro t ht
    by_cases htc : t = c
    · subst htc
      exact hunseen
    · have hold := h.unseen t ht
      unfold Unseen WaitSys.setPc at *
      simpa [htc] using hold

/-- Links, contexts and states of the task table change. -/
theorem Unseen.quiet {sched : Sched} {pc : Slot → WaitPc} {t : Slot} (h : s.Unseen t)
    (hq : Quiet s.sched.tasks sched.tasks) (hpc : pc t = s.pc t) :
    Unseen { sched := sched, pc := pc } t := by
  intro pid child hchild hzombie
  dsimp only at hchild hzombie ⊢
  rw [isChild_congr (hq.pid t) (hq.pid child) (hq.parent child)] at hchild
  obtain ⟨hpassed, hsleep⟩ := h pid child hchild (hq.zombie hzombie)
  rw [hpc]
  exact ⟨hpassed, fun hw hb => hsleep hw (hq.blocked hb)⟩

/-- `scheduler_tick`, also at a point where a blocked task has just moved behind its
`int $32`. -/
theorem tick_inv {regs : Nat} (hlinked : s.sched.Linked)
    (hunseen : ∀ t, 0 ≤ (s.sched.tasks t).pid → s.Unseen t) (ht : s.tick regs = some s') :
    s'.Inv := by
  obtain ⟨⟨f, sched⟩, hr, rfl⟩ := Option.map_eq_some_iff.mp ht
  have hticked := schedulerTick_ticked hr
  refine ⟨hlinked.tick hr, fun c hc => .inl (hticked.running c hc), ?_⟩
  intro t hlive
  dsimp only at hlive
  rw [hticked.quiet.pid] at hlive
  exact (hunseen t hlive).quiet hticked.quiet rfl

/-- The entry of slot `u` is replaced by one of a task that is no zombie, or freed. -/
theorem Unseen.replace {u t : Slot} {x : Task} {sched : Sched} {pc : Slot → WaitPc}
    (h : s.Unseen t) (hut : t ≠ u) (hx : 0 ≤ x.pid → x.state ≠ .zombie)
    (htasks : sched.tasks = Function.update s.sched.tasks u x) (hpc : pc t = s.pc t) :
    Unseen { sched := sched, pc := pc } t := by
  intro pid child hchild hzombie
  dsimp only at hchild hzombie ⊢
  have hother : ∀ v, v ≠ u → sched.tasks v = s.sched.tasks v := by
    intro v hv
    rw [htasks, Function.update_of_ne hv]
  rw [hpc, hother t hut]
  by_cases hcu : child = u
  · have hself : sched.tasks child = x := by rw [htasks, hcu, Function.update_self]
    rw [hself] at hzombie
    simp only [isChild, hself, Bool.and_eq_true, decide_eq_true_eq] at hchild
    exact absurd hzombie (hx hchild.1.1)
  · rw [hother child hcu] at hzombie
    apply h pid child ?_ hzombie
    rw [← hchild]
    exact (isChild_congr (by rw [hother t hut]) (by rw [hother child hcu])
      (by rw [hother child hcu])).symm

theorem Inv.fork {regs dir stack : Nat} {r : Int} {sched : Sched} (h : s.Inv)
    (hc : s.sched.current = some c) (hpc : s.pc c = .user)
    (hs : taskFork regs dir stack s.sched = some (r, sched)) :
    Inv { sched := sched, pc := fun t => if taskFindSlot s.sched = some t then .user else s.pc t } := by
  have hlive := h.linked.live hc
  have hkeep : ∀ t, 0 ≤ (s.sched.tasks t).pid →
      (if taskFindSlot s.sched = some t then WaitPc.user else s.pc t) = s.pc t := by
    intro t ht
    rw [if_neg]
    intro hfind
    have := taskFindSlot_free_task hfind
    omega
  have hrun := h.running hc (by simp [hpc]) (by simp [hpc])
  refine ⟨h.linked.fork hs, ?_, ?_⟩
  · intro t ht
    rcases taskFork_spawned hs with rfl | ⟨u, c', hfind, -, -, hspawn⟩
    · obtain rfl : c = t := Option.some.inj (hc.symm.trans ht)
      exact .inl hrun
    · obtain rfl : t = c := Option.some.inj (ht.symm.trans (hspawn.current.trans hc))
      obtain ⟨x, -, -, -, -, -, hq⟩ := hspawn.quiet
      have htu : t ≠ u := by
        rintro rfl
        have := hspawn.free
        omega
      left
      apply (h.linked.fork hs).still_running ht hq
      rw [Function.update_of_ne htu, hrun]
  · intro t ht
    dsimp only at ht
    rcases taskFork_spawned hs with rfl | ⟨u, c', hfind, -, -, hspawn⟩
    · exact (h.unseen t ht).quiet (Quiet.refl _) (hkeep t ht)
    · obtain ⟨x, -, -, -, -, hstate, hq⟩ := hspawn.quiet
      by_cases htu : t = u
      · intro pid child _ _
        simp [htu, hfind, WaitPc.passed, WaitPc.waitsFor]
      · have ht' : 0 ≤ (s.sched.tasks t).pid := by
          rw [hq.pid, Function.update_of_ne htu] at ht
          exact ht
        have hreplace : Unseen { s with
            sched := { s.sched with tasks := Function.update s.sched.tasks u x } } t :=
          (h.unseen t ht').replace htu (by simp [hstate]) rfl rfl
        exact hreplace.quiet hq (hkeep t ht')

theorem Inv.exit {code : Int} (h : s.Inv) (hc : s.sched.current = some c) (hpc : s.pc c = .user)
    (hseen : s.ExitSeen (.exit code)) :
    Inv ({ s with sched := taskExit code s.sched }.setPc c .exitInt) := by
  have hrun := h.running hc (by simp [hpc]) (by simp [hpc])
  have hexit := @taskExit_exited s.sched code c hc
  obtain ⟨x, hpid, hparent, -, -, hzombie, hq⟩ := hexit.quiet
  refine ⟨h.linked.exit hc hrun, ?_, ?_⟩
  · intro t ht
    obtain rfl : t = c := Option.some.inj (ht.symm.trans (hexit.current.trans hc))
    exact .inr (.inr (by simp [WaitSys.setPc]))
  · intro t ht pid child hchild hz
    change 0 ≤ ((taskExit code s.sched).tasks t).pid at ht
    change isChild (taskExit code s.sched) t pid child = true at hchild
    change ((taskExit code s.sched).tasks child).state = .zombie at hz
    have hpids : ∀ u, ((taskExit code s.sched).tasks u).pid = (s.sched.tasks u).pid := by
      intro u
      rw [hq.pid]
      by_cases hu : u = c
      · rw [hu, Function.update_self, hpid]
      · rw [Function.update_of_ne hu]
    have hparents : ∀ u, ((taskExit code s.sched).tasks u).parentPid =
        (s.sched.tasks u).parentPid := by
      intro u
      rw [hq.parent]
      by_cases hu : u = c
      · rw [hu, Function.update_self, hparent]
      · rw [Function.update_of_ne hu]
    rw [hpids] at ht
    rw [isChild_congr (hpids t) (hpids child) (hparents child)] at hchild
    by_cases htc : t = c
    · simp [WaitSys.setPc, htc, WaitPc.passed, WaitPc.waitsFor]
    · change (Function.update s.pc c .exitInt t).passed child ≠ some pid ∧
        ((Function.update s.pc c .exitInt t).waitsFor = some pid →
          ((taskExit code s.sched).tasks t).state ≠ .blocked)
      rw [Function.update_of_ne htc]
      by_cases hcc : child = c
      · subst hcc
        refine ⟨?_, ?_⟩
        · -- `t` would have passed the exiting task.
          intro hpassed
          have hno := hseen child hc t pid hpassed
          rw [hchild] at hno
          cases hno
        · intro _
          have heq : (s.sched.tasks child).parentPid = (s.sched.tasks t).pid := by
            simp only [isChild, Bool.and_eq_true, beq_iff_eq] at hchild
            exact hchild.1.2
          apply hexit.woken t
          · omega
          · rw [heq]
            exact h.linked.taskFromPid_eq ht
      · have hz' : (s.sched.tasks child).state = .zombie := by
          have := hq.zombie hz
          rwa [Function.update_of_ne hcc] at this
        obtain ⟨hpassed, hsleep⟩ := h.unseen t ht pid child hchild hz'
        refine ⟨hpassed, fun hw hb => hsleep hw ?_⟩
        have := hq.blocked hb
        rwa [Function.update_of_ne htc] at this

theorem unseen_setPc {p : WaitPc} (h : ∀ t, 0 ≤ (s.sched.tasks t).pid → s.Unseen t)
    (hc : (s.setPc c p).Unseen c) (t : Slot) (ht : 0 ≤ (s.sched.tasks t).pid) :
    (s.setPc c p).Unseen t := by
  by_cases htc : t = c
  · subst htc
    exact hc
  · have hold := h t ht
    unfold Unseen WaitSys.setPc at *
    simpa [htc] using hold

/-- A running task moves on; it has to have seen no zombie it passes. -/
theorem unseen_of_passed {p : WaitPc} (hrun : (s.sched.tasks c).state = .running)
    (hp : ∀ pid child, isChild s.sched c pid child = true →
      (s.sched.tasks child).state = .zombie → p.passed child ≠ some pid) :
    (s.setPc c p).Unseen c := by
  intro pid child hchild hzombie
  refine ⟨?_, fun _ => ?_⟩
  · have hp' := hp pid child hchild hzombie
    simpa [WaitSys.setPc] using hp'
  · change (s.sched.tasks c).state ≠ .blocked
    rw [hrun]
    decide

theorem Inv.reap {child : Slot} (h : s.Inv) (hc : s.sched.current = some c)
    (hrun : (s.sched.tasks c).state = .running) (hlive : 0 ≤ (s.sched.tasks child).pid)
    (hz : (s.sched.tasks child).state = .zombie) :
    Inv { s with sched := collect child s.sched } := by
  have hne : c ≠ child := by
    rintro rfl
    rw [hrun] at hz
    cases hz
  refine ⟨h.linked.collect hc hrun hz hlive, ?_, ?_⟩
  · intro t ht
    obtain rfl : c = t := Option.some.inj (hc.symm.trans ht)
    left
    change (Function.update s.sched.tasks child _ c).state = .running
    rw [Function.update_of_ne hne, hrun]
  · intro t ht
    change 0 ≤ (Function.update s.sched.tasks child { pid := -1 } t).pid at ht
    by_cases htc : t = child
    · rw [htc, Function.update_self] at ht
      exact absurd ht (by decide)
    · rw [Function.update_of_ne htc] at ht
      exact (h.unseen t ht).replace htc (by simp) rfl rfl

theorem Inv.block {pid : Int} (h : s.Inv) (hc : s.sched.current = some c)
    (hpc : s.pc c = .block pid) :
    Inv ({ s with sched := s.sched.setState c .blocked }.setPc c (.waitInt pid)) := by
  have hrun := h.running hc (by simp [hpc]) (by simp [hpc])
  have hlive := h.linked.live hc
  refine ⟨h.linked.setBlocked hc hrun, ?_, ?_⟩
  · intro t ht
    obtain rfl : c = t := Option.some.inj (hc.symm.trans ht)
    exact .inr (.inl ⟨pid, by simp [WaitSys.setPc]⟩)
  · intro t ht
    change 0 ≤ (Function.update s.sched.tasks c _ t).pid at ht
    by_cases htc : t = c
    · subst htc
      intro pid' child hchild hz
      -- Everything was passed before the state was set.
      have hsame : isChild s.sched t pid' child = true := by
        rw [← hchild]
        apply (isChild_congr _ _ _).symm
        all_goals
          by_cases hct : child = t
          · subst hct
            simp [WaitSys.setPc, Sched.setState, Sched.modify]
          · simp [WaitSys.setPc, Sched.setState, Sched.modify, hct]
      have hz' : (s.sched.tasks child).state = .zombie := by
        change (Function.update s.sched.tasks t _ child).state = .zombie at hz
        by_cases hct : child = t
        · rw [hct, Function.update_self] at hz
          cases hz
        · rwa [Function.update_of_ne hct] at hz
      obtain ⟨hpassed, -⟩ := h.unseen t hlive pid' child hsame hz'
      rw [hpc] at hpassed
      refine ⟨by simp [WaitSys.setPc, WaitPc.passed], ?_⟩
      intro hw
      have hpid : pid = pid' := by simpa [WaitSys.setPc, WaitPc.waitsFor] using hw
      exact absurd (by rw [hpid]; rfl) hpassed
    · rw [Function.update_of_ne htc] at ht
      refine (h.unseen t ht).replace htc ?_ rfl ?_
      · intro _ hzombie
        cases hzombie
      · exact Function.update_of_ne htc ..

theorem Inv.cont {regs : Nat} (h : s.Inv) (hc : s.sched.current = some c)
    (hs : s.cont c regs = some s') : s'.Inv := by
  have hlive := h.linked.live hc
  have hold := h.unseen c hlive
  unfold WaitSys.cont at hs
  split at hs
  · cases hs
  · next pid i hpc =>
      have hrun := h.running hc (by simp [hpc]) (by simp [hpc])
      split at hs
      · next hi =>
          split at hs
          · next hfound =>
              cases hs
              simp only [isChild, ge_iff_le, Bool.and_eq_true, decide_eq_true_eq,
                beq_iff_eq] at hfound
              have hcollect := h.reap hc hrun hfound.1.1.1 hfound.2
              have hrun' : ((collect ⟨i, hi⟩ s.sched).tasks c).state = .running :=
                hcollect.running hc (by simp [hpc]) (by simp [hpc])
              exact hcollect.setPc hc hrun'
                (unseen_of_passed hrun' (by simp [WaitPc.passed]))
          · next hmiss =>
              cases hs
              apply h.setPc hc hrun (unseen_of_passed hrun ?_)
              intro pid' child hchild hzombie hpassed
              obtain ⟨hno, -⟩ := hold pid' child hchild hzombie
              rw [hpc] at hno
              simp only [WaitPc.passed] at hpassed hno
              split at hpassed
              · next hlt =>
                  obtain rfl := Option.some.inj hpassed
                  by_cases heq : child.val = i
                  · apply hmiss
                    obtain rfl : child = ⟨i, hi⟩ := Fin.ext heq
                    rw [hchild, hzombie]
                    rfl
                  · exact hno (if_pos (by omega))
              · cases hpassed
      · next hi =>
          cases hs
          apply h.setPc hc hrun (unseen_of_passed hrun ?_)
          intro pid' child hchild hzombie hpassed
          obtain ⟨hno, -⟩ := hold pid' child hchild hzombie
          rw [hpc] at hno
          have := child.isLt
          exact hno ((if_pos (by omega)).trans hpassed)
  · next pid i hpc =>
      have hrun := h.running hc (by simp [hpc]) (by simp [hpc])
      have hpass : ∀ p : WaitPc, (∀ child, p.passed child = some pid) ∨ p = .user →
          (s.setPc c p).Inv := by
        intro p hp
        apply h.setPc hc hrun (unseen_of_passed hrun ?_)
        intro pid' child hchild hzombie
        obtain ⟨hno, -⟩ := hold pid' child hchild hzombie
        rw [hpc] at hno
        rcases hp with hp | rfl
        · rw [hp]
          exact hno
        · simp [WaitPc.passed]
      split at hs
      · split at hs
        · cases hs
          exact hpass _ (.inl fun _ => rfl)
        · cases hs
          exact hpass _ (.inl fun _ => rfl)
      · cases hs
        exact hpass _ (.inr rfl)
  · next pid hpc =>
      cases hs
      exact h.block hc hpc
  · next pid hpc =>
      refine @tick_inv (s.setPc c (.zombies pid 0)) s' regs h.linked (unseen_setPc h.unseen ?_) hs
      intro pid' child hchild hzombie
      obtain ⟨-, hsleep⟩ := hold pid' child hchild hzombie
      rw [hpc] at hsleep
      refine ⟨by simp [WaitSys.setPc, WaitPc.passed], fun hw => hsleep ?_⟩
      simpa [WaitSys.setPc, WaitPc.waitsFor] using hw
  · exact tick_inv h.linked h.unseen hs

theorem Inv.step (h : s.Inv) (hseen : s.ExitSeen a) (hs : s.step a = some s') : s'.Inv := by
  unfold WaitSys.step at hs
  split at hs
  · exact tick_inv h.linked h.unseen hs
  · cases hs
  · next c _ hc => exact h.cont hc hs
  · next c _ _ _ hc =>
      split at hs
      · next hpc =>
          obtain ⟨⟨r, sched⟩, hr, rfl⟩ := Option.map_eq_some_iff.mp hs
          exact h.fork hc hpc hr
      · cases hs
  · next c code hc =>
      split at hs
      · next hpc =>
          cases hs
          exact h.exit hc hpc hseen
      · cases hs
  · next c pid hc =>
      split at hs
      · next hpc =>
          cases hs
          have hrun := h.running hc (by simp [hpc]) (by simp [hpc])
          exact h.setPc hc hrun (unseen_of_passed hrun (by simp [WaitPc.passed]))
      · cases hs

theorem Inv.boot {frames : Nat → Registers} {cr3 esp0 timerTicks : Nat}
    (h : WaitSys.boot frames cr3 esp0 timerTicks = some s) : s.Inv := by
  unfold WaitSys.boot at h
  simp only [Option.pure_def, Option.bind_eq_bind, Option.bind_eq_some_iff,
    Option.some.injEq] at h
  obtain ⟨sched, hinit, rfl⟩ := h
  refine ⟨Sched.Linked.init hinit, ?_, ?_⟩
  · intro c hc
    have hs : sched = _ := (Option.some.inj hinit).symm
    subst hs
    obtain rfl : 0 = c := Option.some.inj hc
    exact .inl rfl
  · intro t _ pid child _ _
    simp [WaitPc.passed, WaitPc.waitsFor]

/-- In every run in which no task exits behind the scan for zombies of its parent and in front
of the assignment of the parent's state, nobody sleeps on an exited child. -/
theorem wait_wakes {frames : Nat → Registers} {cr3 esp0 timerTicks : Nat} {s₀ s : WaitSys}
    (h₀ : WaitSys.boot frames cr3 esp0 timerTicks = some s₀)
    (h : Reach WaitSys.step (fun s a => s.ExitSeen a) s₀ s) : ¬ s.SleepsOnZombie :=
  (h.invariant (Inv.boot h₀) fun _ _ _ hinv hseen hs => hinv.step hseen hs).not_sleepsOnZombie

/-- A child exits while its parent sleeps in `task_wait`, and is collected. -/
theorem wait_wakes_sleeper : ∃ s₀ s : WaitSys, WaitSys.boot (fun _ => {}) 0 0 0 = some s₀ ∧
    (s.sched.tasks 1).state = .zombie ∧ s.pc 0 = .zombies (-1) 0 ∧ s.sched.current = some 0 ∧
      ¬ s.SleepsOnZombie := by
  have hrun : ((WaitSys.boot (fun _ => {}) 0 0 0).bind (runList WaitSys.step
      (fun s a => decide (s.ExitSeen a))
      ([.fork 0 1 1, .wait (-1)] ++ List.replicate 69 (.cont 0) ++ [.exit 0, .cont 0]))).any
      (fun s => decide ((s.sched.tasks 1).state = .zombie ∧ s.pc 0 = .zombies (-1) 0 ∧
        s.sched.current = some 0)) = true := by decide +kernel
  obtain ⟨s₀, s, h₀, h, hp⟩ := Reach.exists_of_runList hrun
  obtain ⟨hz, hpc, hc⟩ := of_decide_eq_true hp
  exact ⟨s₀, s, h₀, hz, hpc, hc, wait_wakes h₀ (h.mono fun _ _ hok => of_decide_eq_true hok)⟩

/-- Task 0 waits for its child 1 and is preempted in front of the assignment of its state. The
child exits and finds no blocked parent; task 0 then goes to sleep, and task 2 runs. -/
theorem wait_sleeps_on_zombie : ∃ s₀ s : WaitSys, WaitSys.boot (fun _ => {}) 0 0 0 = some s₀ ∧
    Reach WaitSys.step (fun _ _ => True) s₀ s ∧ s.SleepsOnZombie := by
  have hrun : ((WaitSys.boot (fun _ => {}) 0 0 0).bind (runList WaitSys.step (fun _ _ => true)
      ([.fork 0 1 1, .fork 0 1 1, .wait 1] ++ List.replicate 67 (.cont 0) ++
        [.tick 0, .exit 0, .cont 0, .tick 0, .cont 0, .cont 0]))).any
      (fun s => decide (0 ≤ (s.sched.tasks 0).pid ∧ (s.pc 0).waitsFor = some 1 ∧
        (s.sched.tasks 0).state = .blocked ∧ s.sched.current ≠ some 0 ∧
        s.sched.readyHead = none ∧ isChild s.sched 0 1 1 = true ∧
        (s.sched.tasks 1).state = .zombie)) = true := by decide +kernel
  obtain ⟨s₀, s, h₀, h, hp⟩ := Reach.exists_of_runList hrun
  obtain ⟨hlive, hwaits, hblocked, hcur, hready, hchild, hzombie⟩ := of_decide_eq_true hp
  refine ⟨s₀, s, h₀, h.mono fun _ _ _ => trivial, 0, 1, 1, hlive, hwaits, hblocked, hcur, ?_,
    hchild, hzombie⟩
  intro xs hchain
  rw [hready] at hchain
  cases xs with
  | nil => simp
  | cons x xs => cases hchain.1

end WaitSys

end SRos
