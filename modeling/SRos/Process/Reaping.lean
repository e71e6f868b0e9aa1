import SRos.Process.Spaces

/-!
# Reaping

What `task_wait` returns, in terms of what has happened before: every step of the machine is
logged with the task that was spawned, that exited, or whose `task_wait` returned. The frames that
a child was given are given back by the `task_wait` that returns it, and by nothing else.
-/

namespace SRos.Process

open Paging

inductive ProcEvent where
  /-- `parent` has made the task `pid`, with a kernel stack and a directory, which may be 0. -/
  | spawned (pid parent : Int) (stack dir : Nat)
  | exited (pid : Int)
  /-- `task_wait(arg)`, called by `parent`, has returned `result` and freed the frames `freed`. -/
  | returned (parent arg result : Int) (freed : List Nat)
  deriving DecidableEq

/-- A machine and what has happened so far. -/
structure Traced where
  machine : Machine
  log : List ProcEvent

/-- The task that is new in the first free slot. -/
def spawnEvents (s s' : Sched) : List ProcEvent :=
  match taskFindSlot s with
  | none => []
  | some t =>
      if 0 ≤ (s'.tasks t).pid then
        [.spawned (s'.tasks t).pid (callerPid s) (s'.tasks t).kernelStackBase (s'.tasks t).pageDir]
      else []

/-- The end of a pass of `task_wait`. -/
def waitEvents (pid : Int) (s : Sched) : List ProcEvent :=
  match s.current with
  | none => []
  | some c =>
      match (taskWait pid c s).1 with
      | .collected childPid _ freed => [.returned (s.tasks c).pid pid childPid freed]
      | .noChildren => [.returned (s.tasks c).pid pid (-1) []]
      | .blocked => []

def eventsOf (s s' : Machine) : ProcAct → List ProcEvent
  | .create _ _ | .fork _ => spawnEvents s.sched s'.sched
  | .exit _ _ => [.exited (callerPid s.sched)]
  | .wait pid _ => waitEvents pid s.sched
  | _ => []

def Traced.step (bssEnd : Nat) (t : Traced) (a : ProcAct) : Option Traced :=
  (t.machine.step bssEnd a).map fun s' => ⟨s', t.log ++ eventsOf t.machine s' a⟩

/-- The child that the event returns. -/
def ProcEvent.reapedPid : ProcEvent → Option Int
  | .returned _ _ result _ => if 0 ≤ result then some result else none
  | _ => none

/-- The children that were returned by some `task_wait`. -/
def reaped (log : List ProcEvent) : List Int := log.filterMap ProcEvent.reapedPid

/-- The frames that the event frees. -/
def ProcEvent.freed : ProcEvent → List Nat
  | .returned _ _ _ freed => freed
  | _ => []

/-- What a return of `task_wait` means after the events `log`. -/
def ProcEvent.Exact (log : List ProcEvent) : ProcEvent → Prop
  | .returned parent arg result freed =>
      (0 ≤ result ∧ (0 ≤ arg → result = arg) ∧ .exited result ∈ log ∧ result ∉ reaped log ∧
        ∃ stack dir, .spawned result parent stack dir ∈ log ∧ stack ≠ 0 ∧
          freed = stack :: if dir ≠ 0 then [dir] else []) ∨
      (result = -1 ∧ freed = [] ∧ ∀ pid stack dir, .spawned pid parent stack dir ∈ log →
        arg < 0 ∨ pid = arg → pid ∈ reaped log)
  | _ => True

/-- Every event is exact after those in front of it. -/
def Exact (log : List ProcEvent) : Prop :=
  ∀ before e after, log = before ++ e :: after → e.Exact before

theorem Exact.concat {log : List ProcEvent} {e : ProcEvent} (h : Exact log) (he : e.Exact log) :
    Exact (log ++ [e]) := by
  intro before e' after heq
  rcases List.eq_nil_or_concat' after with rfl | ⟨after', x, rfl⟩
  · obtain ⟨rfl, hlast⟩ := List.append_inj' heq rfl
    cases hlast
    exact he
  · rw [← List.cons_append, ← List.append_assoc] at heq
    exact h before e' after' (List.append_inj' heq rfl).1

/-- No child is returned twice. -/
theorem Exact.nodup {log : List ProcEvent} (h : Exact log) : (reaped log).Nodup := by
  induction log using List.reverseRecOn with
  | nil => exact List.nodup_nil
  | append_singleton log e ih =>
      have hlog : Exact log := by
        rintro before e' after rfl
        exact h before e' (after ++ [e]) (by simp)
      have he := h log e [] rfl
      have hsplit : reaped (log ++ [e]) = reaped log ++ e.reapedPid.toList := by
        unfold reaped
        rw [List.filterMap_append]
        cases hpid : e.reapedPid <;> simp [hpid]
      rw [hsplit]
      cases hpid : e.reapedPid with
      | none => simpa using ih hlog
      | some pid =>
          refine List.nodup_append.mpr ⟨ih hlog, List.nodup_singleton pid, ?_⟩
          rintro x hx y hy rfl
          obtain rfl := List.mem_singleton.mp hy
          cases e with
          | spawned | exited => cases hpid
          | returned parent arg result freed =>
              rw [ProcEvent.reapedPid] at hpid
              split at hpid
              · next hnonneg =>
                  cases hpid
                  rcases he with ⟨-, -, -, hnot, -⟩ | ⟨hneg, -⟩
                  · exact hnot hx
                  · omega
              · cases hpid

/-- The task table agrees with the log. -/
structure History (tasks : Slot → Task) (nextPid : Int) (log : List ProcEvent) : Prop where
  /-- The tasks with a parent are those that were spawned and not yet returned. -/
  live : ∀ t, 0 ≤ (tasks t).pid → 0 ≤ (tasks t).parentPid →
    .spawned (tasks t).pid (tasks t).parentPid (tasks t).kernelStackBase (tasks t).pageDir ∈ log ∧
      (tasks t).kernelStackBase ≠ 0
  kept : ∀ pid parent stack dir, .spawned pid parent stack dir ∈ log → pid ∉ reaped log →
    ∃ t, 0 ≤ (tasks t).pid ∧ (tasks t).pid = pid ∧ (tasks t).parentPid = parent
  gone : ∀ t, 0 ≤ (tasks t).pid → (tasks t).pid ∉ reaped log
  zombie : ∀ t, 0 ≤ (tasks t).pid → (tasks t).state = .zombie → .exited (tasks t).pid ∈ log
  lt : ∀ pid ∈ reaped log, pid < nextPid
  exact : Exact log

section Log

variable {log : List ProcEvent} {tasks tasks' : Slot → Task} {nextPid : Int}

@[simp] theorem reaped_spawned (log : List ProcEvent) (pid parent : Int) (stack dir : Nat) :
    reaped (log ++ [.spawned pid parent stack dir]) = reaped log := by
  simp [reaped, ProcEvent.reapedPid]

@[simp] theorem reaped_exited (log : List ProcEvent) (pid : Int) :
    reaped (log ++ [.exited pid]) = reaped log := by
  simp [reaped, ProcEvent.reapedPid]

theorem reaped_returned (log : List ProcEvent) {parent arg result : Int} {freed : List Nat}
    (h : 0 ≤ result) :
    reaped (log ++ [.returned parent arg result freed]) = reaped log ++ [result] := by
  simp [reaped, ProcEvent.reapedPid, h]

theorem reaped_none (log : List ProcEvent) (parent arg : Int) (freed : List Nat) :
    reaped (log ++ [.returned parent arg (-1) freed]) = reaped log := by
  simp [reaped, ProcEvent.reapedPid]

/-- Links and contexts change, and tasks become ready or running. -/
theorem History.quiet (h : History tasks nextPid log) (hq : Quiet tasks tasks') :
    History tasks' nextPid log where
  live := by
    intro t hpid hparent
    rw [hq.pid] at hpid ⊢
    rw [hq.parent] at hparent ⊢
    rw [hq.stack, hq.pageDir]
    exact h.live t hpid hparent
  kept := by
    intro pid parent stack dir hmem hnot
    obtain ⟨t, hlive, hpid, hparent⟩ := h.kept pid parent stack dir hmem hnot
    exact ⟨t, by rwa [hq.pid], by rwa [hq.pid], by rwa [hq.parent]⟩
  gone := by
    intro t hpid
    rw [hq.pid] at hpid ⊢
    exact h.gone t hpid
  zombie := by
    intro t hpid hz
    rw [hq.pid] at hpid ⊢
    exact h.zombie t hpid (hq.zombie hz)
  lt := h.lt
  exact := h.exact

/-- The state of a task changes. A zombie has exited. -/
theorem History.replace (h : History tasks nextPid log) {c : Slot} {x : Task}
    (hpid : x.pid = (tasks c).pid) (hparent : x.parentPid = (tasks c).parentPid)
    (hdir : x.pageDir = (tasks c).pageDir) (hstack : x.kernelStackBase = (tasks c).kernelStackBase)
    (hstate : x.state = .zombie → .exited x.pid ∈ log) :
    History (Function.update tasks c x) nextPid log := by
  have hsame : ∀ t, (Function.update tasks c x t).pid = (tasks t).pid ∧
      (Function.update tasks c x t).parentPid = (tasks t).parentPid ∧
      (Function.update tasks c x t).pageDir = (tasks t).pageDir ∧
      (Function.update tasks c x t).kernelStackBase = (tasks t).kernelStackBase := by
    intro t
    by_cases htc : t = c
    · subst htc
      rw [Function.update_self]
      exact ⟨hpid, hparent, hdir, hstack⟩
    · rw [Function.update_of_ne htc]
      exact ⟨rfl, rfl, rfl, rfl⟩
  refine ⟨?_, ?_, ?_, ?_, h.lt, h.exact⟩
  · intro t hlive hpar
    obtain ⟨hp, hq, hd, hs⟩ := hsame t
    rw [hp] at hlive ⊢
    rw [hq] at hpar ⊢
    rw [hd, hs]
    exact h.live t hlive hpar
  · intro pid parent stack dir hmem hnot
    obtain ⟨t, hlive, hp', hq'⟩ := h.kept pid parent stack dir hmem hnot
    obtain ⟨hp, hq, -, -⟩ := hsame t
    exact ⟨t, by rwa [hp], by rwa [hp], by rwa [hq]⟩
  · intro t hlive
    rw [(hsame t).1] at hlive ⊢
    exact h.gone t hlive
  · intro t hlive hz
    by_cases htc : t = c
    · subst htc
      rw [Function.update_self] at hz ⊢
      exact hstate hz
    · rw [Function.update_of_ne htc] at hlive hz ⊢
      exact h.zombie t hlive hz

/-- An event that neither spawns nor returns a task. -/
theorem History.extend {e : ProcEvent} (h : History tasks nextPid log)
    (hreap : reaped (log ++ [e]) = reaped log)
    (hspawn : ∀ pid parent stack dir, .spawned pid parent stack dir ≠ e) (he : e.Exact log) :
    History tasks nextPid (log ++ [e]) := by
  refine ⟨?_, ?_, ?_, ?_, ?_, h.exact.concat he⟩
  · intro t hlive hparent
    obtain ⟨hmem, hstack⟩ := h.live t hlive hparent
    exact ⟨List.mem_append_left _ hmem, hstack⟩
  · intro pid parent stack dir hmem hnot
    rw [hreap] at hnot
    rcases List.mem_append.mp hmem with hold | hnew
    · exact h.kept pid parent stack dir hold hnot
    · exact absurd (List.mem_singleton.mp hnew) (hspawn pid parent stack dir)
  · intro t hlive
    rw [hreap]
    exact h.gone t hlive
  · intro t hlive hz
    exact List.mem_append_left _ (h.zombie t hlive hz)
  · rw [hreap]
    exact h.lt

/-- A free slot is filled. -/
theorem History.spawn (h : History tasks nextPid log) {t : Slot} {x : Task}
    (hfree : (tasks t).pid < 0) (hpid : x.pid = nextPid) (hnext : 0 ≤ nextPid)
    (hstack : x.kernelStackBase ≠ 0) (hstate : x.state ≠ .zombie) :
    History (Function.update tasks t x) (nextPid + 1)
      (log ++ [.spawned x.pid x.parentPid x.kernelStackBase x.pageDir]) := by
  refine ⟨?_, ?_, ?_, ?_, ?_, h.exact.concat trivial⟩
  · intro u hlive hparent
    by_cases hut : u = t
    · subst hut
      rw [Function.update_self] at hlive hparent ⊢
      exact ⟨by simp, hstack⟩
    · rw [Function.update_of_ne hut] at hlive hparent ⊢
      obtain ⟨hmem, hne⟩ := h.live u hlive hparent
      exact ⟨List.mem_append_left _ hmem, hne⟩
  · intro pid parent stack dir hmem hnot
    rw [reaped_spawned] at hnot
    rcases List.mem_append.mp hmem with hold | hnew
    · obtain ⟨u, hlive, hpid', hparent⟩ := h.kept pid parent stack dir hold hnot
      have hut : u ≠ t := by
        rintro rfl
        omega
      refine ⟨u, ?_⟩
      rw [Function.update_of_ne hut]
      exact ⟨hlive, hpid', hparent⟩
    · cases List.mem_singleton.mp hnew
      refine ⟨t, ?_⟩
      rw [Function.update_self]
      exact ⟨by omega, rfl, rfl⟩
  · intro u hlive
    rw [reaped_spawned]
    by_cases hut : u = t
    · subst hut
      rw [Function.update_self, hpid]
      intro hmem
      have := h.lt nextPid hmem
      omega
    · rw [Function.update_of_ne hut] at hlive ⊢
      exact h.gone u hlive
  · intro u hlive hz
    by_cases hut : u = t
    · subst hut
      rw [Function.update_self] at hz
      exact absurd hz hstate
    · rw [Function.update_of_ne hut] at hlive hz ⊢
      exact List.mem_append_left _ (h.zombie u hlive hz)
  · intro pid hmem
    rw [reaped_spawned] at hmem
    have := h.lt pid hmem
    omega

/-- A zombie is returned to its parent. -/
theorem History.collect (h : History tasks nextPid log) {z : Slot} {arg : Int}
    (hlive : 0 ≤ (tasks z).pid) (hparent : 0 ≤ (tasks z).parentPid)
    (hz : (tasks z).state = .zombie) (harg : 0 ≤ arg → (tasks z).pid = arg)
    (hlt : (tasks z).pid < nextPid) (hinj : ∀ u, (tasks u).pid = (tasks z).pid → u = z) :
    History (Function.update tasks z { pid := -1 }) nextPid
      (log ++ [.returned (tasks z).parentPid arg (tasks z).pid (freedFrames (tasks z))]) := by
  have hother : ∀ u, 0 ≤ (Function.update tasks z ({ pid := -1 } : Task) u).pid → u ≠ z := by
    rintro u hu rfl
    rw [Function.update_self] at hu
    simp at hu
  obtain ⟨hspawned, hstack⟩ := h.live z hlive hparent
  have hexact : ProcEvent.Exact log
      (.returned (tasks z).parentPid arg (tasks z).pid (freedFrames (tasks z))) := by
    refine .inl ⟨hlive, harg, h.zombie z hlive hz, h.gone z hlive, _, _, hspawned, hstack, ?_⟩
    rw [freedFrames, if_pos hstack, List.singleton_append]
  refine ⟨?_, ?_, ?_, ?_, ?_, h.exact.concat hexact⟩
  · intro u hu hpar
    have huz := hother u hu
    rw [Function.update_of_ne huz] at hu hpar ⊢
    obtain ⟨hmem, hne⟩ := h.live u hu hpar
    exact ⟨List.mem_append_left _ hmem, hne⟩
  · intro pid parent stack dir hmem hnot
    rw [reaped_returned _ hlive, List.mem_append, List.mem_singleton, not_or] at hnot
    rcases List.mem_append.mp hmem with hold | hnew
    · obtain ⟨u, hu, hpid, hpar⟩ := h.kept pid parent stack dir hold hnot.1
      have huz : u ≠ z := by
        rintro rfl
        exact hnot.2 hpid.symm
      refine ⟨u, ?_⟩
      rw [Function.update_of_ne huz]
      exact ⟨hu, hpid, hpar⟩
    · cases List.mem_singleton.mp hnew
  · intro u hu
    have huz := hother u hu
    rw [Function.update_of_ne huz] at hu ⊢
    rw [reaped_returned _ hlive, List.mem_append, List.mem_singleton, not_or]
    exact ⟨h.gone u hu, fun heq => huz (hinj u heq)⟩
  · intro u hu hzombie
    have huz := hother u hu
    rw [Function.update_of_ne huz] at hu hzombie ⊢
    exact List.mem_append_left _ (h.zombie u hu hzombie)
  · intro pid hmem
    rw [reaped_returned _ hlive, List.mem_append, List.mem_singleton] at hmem
    rcases hmem with hold | rfl
    · exact h.lt pid hold
    · exact hlt

/-- `task_wait` finds no child: all that match have been returned. -/
theorem History.noChildren (h : History tasks nextPid log) {parent arg : Int}
    (hnone : ∀ t, 0 ≤ (tasks t).pid → (tasks t).parentPid = parent →
      ¬(arg < 0 ∨ (tasks t).pid = arg)) :
    History tasks nextPid (log ++ [.returned parent arg (-1) []]) := by
  refine h.extend (reaped_none ..) (by simp) (.inr ⟨rfl, rfl, ?_⟩)
  intro pid stack dir hmem hmatch
  by_contra hnot
  obtain ⟨t, hlive, rfl, hparent⟩ := h.kept pid parent stack dir hmem hnot
  exact hnone t hlive hparent hmatch

end Log

/-! ## The operations -/

/-- What holds of the machine and its log between the operations. -/
structure Tracked (t : Traced) : Prop where
  linked : t.machine.sched.Linked
  running : ∀ c, t.machine.sched.current = some c → (t.machine.sched.tasks c).state = .running
  nonzero : ∀ f ∈ t.machine.free, f ≠ 0
  history : History t.machine.sched.tasks t.machine.sched.nextPid t.log

/-- The frames that the events free are pushed, and no others. -/
structure FreedBy (es : List ProcEvent) (free free' : List Nat) : Prop where
  pushed : ∃ rest, rest <:+ free ∧ free' = (es.flatMap ProcEvent.freed).reverse ++ rest ∧
    (es.flatMap ProcEvent.freed ≠ [] → rest = free)

theorem FreedBy.suffix {es : List ProcEvent} {free free' : List Nat} (h : free' <:+ free)
    (hes : es.flatMap ProcEvent.freed = []) : FreedBy es free free' :=
  ⟨free', h, by simp [hes], fun hne => absurd hes hne⟩

theorem FreedBy.pops {es : List ProcEvent} {v v' : Vm} (h : Pops v v')
    (hes : es.flatMap ProcEvent.freed = []) : FreedBy es v.free v'.free := by
  obtain ⟨ps, hps⟩ := h.free
  exact .suffix ⟨ps, hps.symm⟩ hes

section Operations

variable {bssEnd regs : Nat} {s s' : Machine} {log : List ProcEvent} {c : Slot}

/-- `int $32`, in any state of the current task. -/
theorem Tracked.tick (hlinked : s.sched.Linked) (hnonzero : ∀ f ∈ s.free, f ≠ 0)
    (hhistory : History s.sched.tasks s.sched.nextPid log) (hs : s.tick regs = some s') :
    Tracked ⟨s', log⟩ ∧ s'.free = s.free := by
  obtain ⟨⟨f, sched⟩, hf, hs⟩ := Option.bind_eq_some_iff.mp hs
  cases hs
  have hticked := schedulerTick_ticked hf
  refine ⟨⟨hlinked.tick hf, hticked.running, hnonzero, ?_⟩, rfl⟩
  have hquiet := hhistory.quiet hticked.quiet
  rw [← hticked.counts.nextPid] at hquiet
  exact hquiet

theorem Tracked.exit {code : Int} (h : Tracked ⟨s, log⟩) (hs : s.exit code regs = some s') :
    Tracked ⟨s', log ++ [.exited (callerPid s.sched)]⟩ ∧ s'.free = s.free := by
  obtain ⟨c, hc, -⟩ := h.linked.current
  have hexited : Exited s.sched (taskExit code s.sched) c := taskExit_exited hc
  obtain ⟨x, hpid, hparent, hdir, hstack, hstate, hq⟩ := hexited.quiet
  have hlog : History s.sched.tasks s.sched.nextPid (log ++ [.exited (callerPid s.sched)]) :=
    h.history.extend (reaped_exited ..) (by simp) trivial
  have hzombie := (hlog.replace hpid hparent hdir hstack (by
    intro _
    rw [hpid, callerPid_eq hc]
    simp)).quiet hq
  rw [← hexited.nextPid] at hzombie
  exact @Tracked.tick regs { s with sched := taskExit code s.sched } s' _
    (h.linked.exit hc (h.running c hc)) h.nonzero hzombie hs

/-- The child that a pass of `task_wait` looks for. -/
theorem isChild_iff {sched : Sched} {pid : Int} {z : Slot} : isChild sched c pid z = true ↔
    0 ≤ (sched.tasks z).pid ∧ (sched.tasks z).parentPid = (sched.tasks c).pid ∧
      (pid < 0 ∨ (sched.tasks z).pid = pid) := by
  unfold isChild
  rw [Bool.and_eq_true, Bool.and_eq_true, Bool.or_eq_true, beq_iff_eq, beq_iff_eq,
    decide_eq_true_eq, decide_eq_true_eq, and_assoc]

theorem taskWait_noChildren_iff {sched σ : Sched} {pid : Int}
    (h : taskWait pid c sched = (.noChildren, σ)) (z : Slot) : isChild sched c pid z = false := by
  unfold taskWait at h
  split at h
  · cases h
  · next hnone =>
      split at h
      · cases h
      · next hany =>
          have hz := List.find?_eq_none.mp hnone z (List.mem_finRange z)
          have halive : ¬(isChild sched c pid z && (sched.tasks z).state != .zombie) = true :=
            fun hchild => hany (List.any_eq_true.mpr ⟨z, List.mem_finRange z, hchild⟩)
          cases hchild : isChild sched c pid z with
          | false => rfl
          | true => simp_all

theorem freedFrames_nonzero (x : Task) : ∀ f ∈ freedFrames x, f ≠ 0 := by
  intro f hf
  unfold freedFrames at hf
  rw [List.mem_append] at hf
  rcases hf with hf | hf
  · split at hf
    · next hne => rwa [List.mem_singleton.mp hf]
    · cases hf
  · split at hf
    · next hne => rwa [List.mem_singleton.mp hf]
    · cases hf

theorem Tracked.collect {pid : Int} {z : Slot} (h : Tracked ⟨s, log⟩)
    (hc : s.sched.current = some c) (hchild : isChild s.sched c pid z = true)
    (hz : (s.sched.tasks z).state = .zombie) :
    Tracked ⟨{ sched := cleared z s.sched, mem := s.mem
               free := (freedFrames (s.sched.tasks z)).reverse ++ s.free },
      log ++ [.returned (s.sched.tasks c).pid pid (s.sched.tasks z).pid
        (freedFrames (s.sched.tasks z))]⟩ := by
  obtain ⟨hlive, hparent, hmatch⟩ := isChild_iff.mp hchild
  have hzc : c ≠ z := by
    rintro rfl
    rw [h.running c hc] at hz
    cases hz
  have hcollect := @History.collect _ _ _ h.history z pid hlive
    (by rw [hparent]; exact h.linked.live hc) hz (fun hpid => hmatch.resolve_left (by omega))
    (h.linked.pidLt z) fun u heq => (h.linked.pidInj hlive heq.symm).symm
  rw [hparent] at hcollect
  refine ⟨h.linked.collect hc (h.running c hc) hz hlive, ?_, ?_, hcollect⟩
  · intro n hn
    obtain rfl : c = n := Option.some.inj (hc.symm.trans hn)
    have hrun := h.running c hc
    simpa [cleared, hzc] using hrun
  · intro f hf
    rcases List.mem_append.mp hf with hfreed | hold
    · exact freedFrames_nonzero _ f (List.mem_reverse.mp hfreed)
    · exact h.nonzero f hold

theorem Tracked.wait {pid : Int} (h : Tracked ⟨s, log⟩) (hs : s.wait pid regs = some s') :
    Tracked ⟨s', log ++ waitEvents pid s.sched⟩ ∧
      FreedBy (waitEvents pid s.sched) s.free s'.free := by
  obtain ⟨c, hc, -⟩ := h.linked.current
  unfold Machine.wait at hs
  unfold waitEvents
  rw [hc] at hs ⊢
  dsimp only at hs ⊢
  cases hpass : taskWait pid c s.sched with
  | mk pass sched =>
      rw [hpass] at hs
      cases pass with
      | collected childPid exitCode freed =>
          cases hs
          obtain ⟨z, hchild, hz, rfl, rfl, rfl⟩ := taskWait_collected hpass
          rw [foldl_pfaFree]
          refine ⟨h.collect hc hchild hz, s.free, List.suffix_refl _, ?_, fun _ => rfl⟩
          simp [ProcEvent.freed, Machine.setVm, Machine.vm]
      | noChildren =>
          cases hs
          obtain rfl := taskWait_noChildren hpass
          have hnone : History s.sched.tasks s.sched.nextPid
              (log ++ [.returned (s.sched.tasks c).pid pid (-1) []]) := by
            apply h.history.noChildren
            intro t hlive hparent hmatch
            have hfalse := taskWait_noChildren_iff hpass t
            rw [isChild_iff.mpr ⟨hlive, hparent, hmatch⟩] at hfalse
            cases hfalse
          exact ⟨⟨h.linked, h.running, h.nonzero, hnone⟩, .suffix (List.suffix_refl _) rfl⟩
      | blocked =>
          obtain rfl := taskWait_blocked hpass
          have hblocked : History (s.sched.setState c .blocked).tasks s.sched.nextPid log :=
            h.history.replace rfl rfl rfl rfl (by simp)
          obtain ⟨htracked, hfree⟩ := @Tracked.tick regs
            { s with sched := s.sched.setState c .blocked } s' log
            (h.linked.setBlocked hc (h.running c hc)) h.nonzero hblocked hs
          rw [List.append_nil]
          exact ⟨htracked, .suffix (hfree ▸ List.suffix_refl _) rfl⟩

theorem spawnEvents_self (sched : Sched) : spawnEvents sched sched = [] := by
  unfold spawnEvents
  split
  · rfl
  · next t ht =>
      have hfree := taskFindSlot_free_task ht
      exact if_neg (by omega)

theorem spawnEvents_spawned {sched sched' : Sched} {t : Slot} {dir stack : Nat}
    (hslot : taskFindSlot sched = some t) (hnext : 0 ≤ sched.nextPid)
    (hs : Spawned sched sched' t (callerPid sched) dir stack) :
    spawnEvents sched sched' = [.spawned sched.nextPid (callerPid sched) stack dir] := by
  obtain ⟨x, hpid, hparent, hdir, hstack, hstate, hq⟩ := hs.quiet
  unfold spawnEvents
  rw [hslot]
  dsimp only
  rw [hq.pid, hq.stack, hq.pageDir, Function.update_self, hpid, hstack, hdir, if_pos hnext]

/-- A slot was filled, with frames taken from the stack. -/
theorem Tracked.spawn {v : Vm} {sched : Sched} {t : Slot} {dir stack : Nat} (h : Tracked ⟨s, log⟩)
    (hslot : taskFindSlot s.sched = some t) (hpops : Pops s.vm v) (hmem : stack ∈ s.free)
    (hlinked : sched.Linked) (hs : Spawned s.sched sched t (callerPid s.sched) dir stack) :
    Tracked ⟨{ s.setVm v with sched := sched }, log ++ spawnEvents s.sched sched⟩ := by
  obtain ⟨ps, hps⟩ := hpops.free
  have hevents := spawnEvents_spawned hslot h.linked.nextPid hs
  obtain ⟨x, hpid, hparent, hdir, hstack, hstate, hq⟩ := hs.quiet
  rw [hevents]
  refine ⟨hlinked, ?_, ?_, ?_⟩
  · intro c hc
    have hcur : s.sched.current = some c := hs.current.symm.trans hc
    have hct : c ≠ t := by
      rintro rfl
      have hlive := h.linked.live hcur
      have hfree := hs.free
      dsimp only at hlive
      omega
    apply hlinked.still_running hc hq
    rw [Function.update_of_ne hct]
    exact h.running c hcur
  · intro f hf
    have hold : f ∈ s.vm.free := by
      rw [hps]
      exact List.mem_append_right _ hf
    exact h.nonzero f hold
  · have hspawn := h.history.spawn hs.free hpid h.linked.nextPid
      (by rw [hstack]; exact h.nonzero stack hmem) (by simp [hstate])
    rw [hpid, hparent, hstack, hdir] at hspawn
    have hquiet := hspawn.quiet hq
    rw [← hs.nextPid] at hquiet
    exact hquiet

/-- Frames were taken, and no task was made. -/
theorem Tracked.setVm {v : Vm} (h : Tracked ⟨s, log⟩) (hpops : Pops s.vm v) :
    Tracked ⟨s.setVm v, log ++ spawnEvents s.sched s.sched⟩ := by
  obtain ⟨ps, hps⟩ := hpops.free
  rw [spawnEvents_self, List.append_nil]
  refine ⟨h.linked, h.running, ?_, h.history⟩
  intro f hf
  have hold : f ∈ s.vm.free := by
    rw [hps]
    exact List.mem_append_right _ hf
  exact h.nonzero f hold

theorem flatMap_freed_spawnEvents (sched sched' : Sched) :
    (spawnEvents sched sched').flatMap ProcEvent.freed = [] := by
  unfold spawnEvents
  split
  · rfl
  · split <;> rfl

theorem mem_free_pfaAlloc {v v' : Vm} {f : Nat} (h : pfaAlloc v = some (f, v')) : f ∈ v.free := by
  rw [(Pops.pfaAlloc h).1]
  exact List.mem_cons_self

theorem Tracked.fork (h : Tracked ⟨s, log⟩) (hs : s.fork bssEnd regs = some s') :
    Tracked ⟨s', log ++ spawnEvents s.sched s'.sched⟩ ∧
      FreedBy (spawnEvents s.sched s'.sched) s.free s'.free := by
  have hpush := flatMap_freed_spawnEvents s.sched s'.sched
  unfold Machine.fork at hs
  split at hs
  · cases hs
    rw [spawnEvents_self, List.append_nil]
    exact ⟨h, .suffix (List.suffix_refl _) rfl⟩
  · next t hslot =>
      obtain ⟨⟨d, v₁⟩, hclone, hs⟩ := Option.bind_eq_some_iff.mp hs
      have hpops₁ : Pops s.vm v₁ := by
        obtain ⟨hcr3, ps, hps⟩ := Pops.pagingCloneDirectory hclone
        exact ⟨hcr3, d :: ps, hps⟩
      dsimp only at hs
      split at hs
      · cases hs
        exact ⟨h.setVm hpops₁, .pops hpops₁ hpush⟩
      · obtain ⟨⟨k, v₂⟩, hstack, hs⟩ := Option.bind_eq_some_iff.mp hs
        obtain ⟨⟨r, sched⟩, hfork, hs⟩ := Option.bind_eq_some_iff.mp hs
        cases hs
        have hpops := hpops₁.trans (Pops.of_pfaAlloc hstack)
        refine ⟨?_, .pops hpops hpush⟩
        have hmem : k ∈ s.free := by
          obtain ⟨ps, hps⟩ := hpops₁.free
          have hold : k ∈ s.vm.free := by
            rw [hps]
            exact List.mem_append_right _ (mem_free_pfaAlloc hstack)
          exact hold
        rcases taskFork_spawned hfork with rfl | ⟨t', c, ht', hc, -, hspawned⟩
        · exact h.setVm hpops
        · rw [← callerPid_eq hc] at hspawned
          exact h.spawn ht' hpops hmem (h.linked.fork hfork) hspawned

theorem Tracked.create {name : CStr} {entry : Nat} (h : Tracked ⟨s, log⟩)
    (hs : s.create name entry = some s') :
    Tracked ⟨s', log ++ spawnEvents s.sched s'.sched⟩ ∧
      FreedBy (spawnEvents s.sched s'.sched) s.free s'.free := by
  have hpush := flatMap_freed_spawnEvents s.sched s'.sched
  unfold Machine.create at hs
  split at hs
  · cases hs
    rw [spawnEvents_self, List.append_nil]
    exact ⟨h, .suffix (List.suffix_refl _) rfl⟩
  · next t hslot =>
      obtain ⟨⟨k, v₁⟩, h₁, hs⟩ := Option.bind_eq_some_iff.mp hs
      obtain ⟨v₂, h₂, hs⟩ := Option.bind_eq_some_iff.mp hs
      obtain ⟨⟨u, v₃⟩, h₃, hs⟩ := Option.bind_eq_some_iff.mp hs
      obtain ⟨v₄, h₄, hs⟩ := Option.bind_eq_some_iff.mp hs
      obtain ⟨⟨r, sched⟩, hcreate, hs⟩ := Option.bind_eq_some_iff.mp hs
      cases hs
      have hpops : Pops s.vm v₄ := (((Pops.of_pfaAlloc h₁).trans (Pops.pagingMapUser h₂)).trans
        (Pops.of_pfaAlloc h₃)).trans (Pops.pagingMapPage h₄)
      refine ⟨?_, .pops hpops hpush⟩
      rcases taskCreate_spawned hcreate with rfl | ⟨t', parent, ht', hparent, hspawned⟩
      · exact h.setVm hpops
      · obtain ⟨c, hc, -⟩ := h.linked.current
        rw [hparent c hc, ← callerPid_eq hc] at hspawned
        exact h.spawn ht' hpops (mem_free_pfaAlloc h₁) (h.linked.create hcreate) hspawned

/-- Every operation on tasks. -/
theorem Tracked.step {t t' : Traced} {a : ProcAct} (h : Tracked t) (htask : isTaskOp a = true)
    (hs : t.step bssEnd a = some t') :
    Tracked t' ∧ ∃ es, t'.log = t.log ++ es ∧ FreedBy es t.machine.free t'.machine.free := by
  obtain ⟨s', hs', rfl⟩ := Option.map_eq_some_iff.mp hs
  cases a with
  | create name entry =>
      obtain ⟨htracked, hfreed⟩ := h.create hs'
      exact ⟨htracked, _, rfl, hfreed⟩
  | fork regs =>
      obtain ⟨htracked, hfreed⟩ := h.fork hs'
      exact ⟨htracked, _, rfl, hfreed⟩
  | exit code regs =>
      obtain ⟨htracked, hfree⟩ := h.exit hs'
      exact ⟨htracked, _, rfl, .suffix (hfree ▸ List.suffix_refl _) rfl⟩
  | wait pid regs =>
      obtain ⟨htracked, hfreed⟩ := h.wait hs'
      exact ⟨htracked, _, rfl, hfreed⟩
  | tick regs =>
      obtain ⟨htracked, hfree⟩ := Tracked.tick h.linked h.nonzero h.history hs'
      refine ⟨?_, [], rfl, .suffix (hfree ▸ List.suffix_refl _) rfl⟩
      simp only [eventsOf, List.append_nil]
      exact htracked
  | allocPage virtAddr => cases htask
  | exec fs path regs => cases htask

end Operations

theorem Tracked.boot {m : Nat → UInt8} {frames : Nat → Registers} {esp0 timerTicks : Nat}
    {s : Machine} (h : Machine.boot m frames esp0 timerTicks = some s) : Tracked ⟨s, []⟩ := by
  obtain ⟨v, hv, -, hlaid, -⟩ := boot_laid m 0
  unfold Machine.boot at h
  rw [hv, Option.bind_eq_bind, Option.bind_some] at h
  obtain ⟨sched, hsched, h⟩ := Option.bind_eq_some_iff.mp h
  cases h
  obtain ⟨-, hcur, ⟨hpid, hparent, hstate, -, -⟩, hfree⟩ := schedulerInit_tasks hsched
  have hlive : ∀ t, 0 ≤ (sched.tasks t).pid → t = 0 := by
    intro t ht
    by_contra hne
    rw [hfree t hne] at ht
    omega
  refine ⟨Sched.Linked.init hsched, ?_, ?_, ?_⟩
  · intro c hc
    obtain rfl : 0 = c := Option.some.inj (hcur.symm.trans hc)
    exact hstate
  · intro f hf
    have hP : Accounts 0 StackedVm := accounts_stackedVm
    exact hP.nonzero hlaid.stacked (by rw [(hlaid.stacked.mem_iff f).mp hf]; simp)
  · refine ⟨?_, by simp, by simp [reaped], ?_, by simp [reaped], ?_⟩
    · intro t ht hpar
      rw [hlive t ht] at hpar
      dsimp only at hpar
      omega
    · intro t ht hz
      rw [hlive t ht] at hz
      dsimp only at hz
      rw [hstate] at hz
      cases hz
    · intro before e after heq
      simp at heq

/-- **Reaping is exact.** In every run of the operations on tasks, every return of `task_wait` is
exact, and the frames of a child are pushed by the step that returns it and by no other. -/
theorem reaping_exact {m : Nat → UInt8} {frames : Nat → Registers} {bssEnd esp0 timerTicks : Nat}
    {s₀ : Machine} {t : Traced} (h₀ : Machine.boot m frames esp0 timerTicks = some s₀)
    (h : Reach (Traced.step bssEnd) (fun _ a => isTaskOp a = true) ⟨s₀, []⟩ t) :
    Exact t.log ∧ (reaped t.log).Nodup ∧ ∀ a t', isTaskOp a = true → t.step bssEnd a = some t' →
      ∃ es, t'.log = t.log ++ es ∧ FreedBy es t.machine.free t'.machine.free := by
  have htracked : Tracked t :=
    h.invariant (Tracked.boot h₀) fun _ _ _ hinv hok hs => (hinv.step hok hs).1
  exact ⟨htracked.history.exact, htracked.history.exact.nodup,
    fun a t' ha hs => (htracked.step ha hs).2⟩

/-- A step of the machine is one of its trace. -/
theorem traced_step {bssEnd : Nat} {s s' : Machine} {log : List ProcEvent} {a : ProcAct}
    (h : s.step bssEnd a = some s') :
    Traced.step bssEnd ⟨s, log⟩ a = some ⟨s', log ++ eventsOf s s' a⟩ := by
  unfold Traced.step
  rw [h]
  rfl

/-- The first task collects its child, and gets back the frames it was given. -/
theorem reaping_exact_collected : ∃ s₀ t, Machine.boot (fun _ => 0) (fun _ => {}) 0 0 = some s₀ ∧
    Reach (Traced.step 0x110DA0) (fun _ a => isTaskOp a = true) ⟨s₀, []⟩ t ∧
    .returned 0 (-1) 1 [0x3FE000, 0x3FF000] ∈ t.log ∧ Exact t.log := by
  obtain ⟨s₀, s₁, s₂, s₃, s₄, hs₀, hs₁, hs₂, hs₃, hs₄, -, hcur, hpid, hpass⟩ := exists_collected
  have hrun : Reach (Traced.step 0x110DA0) (fun _ a => isTaskOp a = true) ⟨s₀, []⟩ _ :=
    .step (.step (.step (.step .refl rfl (traced_step hs₁)) rfl (traced_step hs₂)) rfl
      (traced_step hs₃)) rfl (traced_step hs₄)
  refine ⟨s₀, _, hs₀, hrun, ?_, (reaping_exact hs₀ hrun).1⟩
  have hevents : eventsOf s₃ s₄ (.wait (-1) 0) = [.returned 0 (-1) 1 [0x3FE000, 0x3FF000]] := by
    simp only [eventsOf, waitEvents, hcur, hpass, hpid]
  rw [hevents]
  simp

end SRos.Process
