import SRos.Ipc.Linkage
import SRos.Ipc.Step
import SRos.Lib.Run

/-!
# The invariant of the running system

`Sys.Inv` carries the linkage invariant over to the transition system. A step keeps it if it
is `TickSafe` and `ExitSafe`: `scheduler_tick` does not find the ready list empty while the
running task sleeps in an IPC call, and `task_exit` does not find the parent asleep in one.
-/

namespace SRos

/-- The wait list of the call a task is in, from its `int $32` until it goes on behind it. -/
def Pc.waitsOn : Pc → Option WaitQ
  | .semWaitInt _ sem | .semWaitDone _ sem => some (.sem sem)
  | .sendInt _ mq _ _ | .sendAgain _ mq _ _ => some (.send mq)
  | .recvInt _ mq | .recvAgain _ mq => some (.recv mq)
  | _ => none

/-- `asleep log t`: the last `task_block` or `task_wake` on `t` was a `task_block`. -/
def asleep (log : List Event) : Slot → Bool :=
  log.foldl (fun a e => match e with
    | .slept t _ _ => Function.update a t true
    | .woken t _ => Function.update a t false
    | _ => a) fun _ => false

@[simp] theorem asleep_nil : asleep [] = fun _ => false := rfl

@[simp] theorem asleep_slept (log : List Event) (t : Slot) (q : WaitQ) (id : Int) :
    asleep (log ++ [.slept t q id]) = Function.update (asleep log) t true := by
  simp [asleep, List.foldl_append]

@[simp] theorem asleep_woken (log : List Event) (t : Slot) (w : Waker) :
    asleep (log ++ [.woken t w]) = Function.update (asleep log) t false := by
  simp [asleep, List.foldl_append]

/-- Events that are neither a `task_block` nor a `task_wake`. -/
def Event.isSilent : Event → Bool
  | .slept _ _ _ | .woken _ _ => false
  | _ => true

theorem asleep_silent (log : List Event) {e : Event} (h : e.isSilent = true) :
    asleep (log ++ [e]) = asleep log := by
  cases e <;> simp_all [asleep, List.foldl_append, Event.isSilent]

/-- What no silent event changes, a list of them does not change. -/
theorem silents_append {β : Type} {f : List Event → β}
    (hf : ∀ log e, e.isSilent = true → f (log ++ [e]) = f log) {es : List Event} (log : List Event)
    (h : ∀ e ∈ es, e.isSilent = true) : f (log ++ es) = f log := by
  induction es generalizing log with
  | nil => rw [List.append_nil]
  | cons e es ih =>
      rw [← List.singleton_append, ← List.append_assoc, ih _ fun e he => h e (by simp [he]),
        hf log e (h e (by simp))]

theorem asleep_silents {es : List Event} (log : List Event) (h : ∀ e ∈ es, e.isSilent = true) :
    asleep (log ++ es) = asleep log :=
  silents_append (fun log _ he => asleep_silent log he) log h

theorem asleep_wakeAll (log : List Event) (ts : List Slot) (w : Waker) :
    asleep (log ++ ts.map fun t => Event.woken t w) = wakeAll (asleep log) ts := by
  induction ts generalizing log with
  | nil => simp [wakeAll]
  | cons t ts ih =>
      have h := ih (log ++ [.woken t w])
      simp only [asleep_woken, List.append_assoc, List.singleton_append] at h
      simpa [wakeAll] using h

/-- A silent event, and then the first task of a list is woken. -/
theorem asleep_wakeFirst (log : List Event) {e : Event} (he : e.isSilent = true)
    (ts : List Slot) (w : Waker) (t : Slot) :
    asleep (log ++ e :: ts.head?.toList.map fun u => Event.woken u w) t =
      (asleep log t && decide (ts.head? ≠ some t)) := by
  cases ts with
  | nil =>
      have hlog : asleep (log ++ [e]) = asleep log := asleep_silent log he
      simpa using congrFun hlog t
  | cons u us =>
      have hlog : asleep (log ++ [e, .woken u w]) = Function.update (asleep log) u false := by
        rw [show log ++ [e, .woken u w] = (log ++ [e]) ++ [.woken u w] by simp, asleep_woken,
          asleep_silent log he]
      simp only [List.head?_cons, Option.toList_some, List.map_cons, List.map_nil]
      rw [hlog]
      by_cases htu : t = u
      · subst htu; simp
      · simp [htu, Ne.symm htu]

namespace Sys

/-- The linkage view of the kernel. -/
abbrev view (s : Sys) : View := s.kernel.view

def waits (s : Sys) (t : Slot) : Option WaitQ := (s.pc t).waitsOn

structure Inv (ls : QueueId → List Slot) (s : Sys) : Prop where
  ok : s.view.Ok ls (asleep s.log) s.waits
  atInt : ∀ c, s.current = some c → s.view.state c = .running ∨ (s.pc c).atInt = true

/-- The step runs `scheduler_tick`. -/
def ticks (s : Sys) : Act → Bool
  | .tick _ => true
  | .call (.yield _) => true
  | .call _ => false
  | .cont _ => match s.current with
    | some c => (s.pc c).atInt
    | none => false

/-- `t` is blocked inside `sem_wait`, `msg_queue_send` or `msg_queue_recv`. -/
def IpcBlocked (s : Sys) (t : Slot) : Prop :=
  (s.kernel.tasks t).state = .blocked ∧ s.waits t ≠ none

instance (s : Sys) (t : Slot) : Decidable (s.IpcBlocked t) := inferInstanceAs (Decidable (_ ∧ _))

/-- If the step runs `scheduler_tick` while the running task is blocked inside an IPC call,
another task is ready. -/
def TickSafe (s : Sys) (a : Act) : Prop :=
  s.ticks a = true → ∀ c, s.current = some c → s.IpcBlocked c → s.kernel.readyHead ≠ none

/-- If the step is a `task_exit`, the parent is not blocked inside an IPC call. -/
def ExitSafe (s : Sys) : Act → Prop
  | .call (.exit _) => ∀ p, exitParent s.kernel.toSched = some p → ¬ s.IpcBlocked p
  | _ => True

instance (s : Sys) (a : Act) : Decidable (s.TickSafe a) := inferInstanceAs (Decidable (_ → _))

instance (s : Sys) (a : Act) : Decidable (s.ExitSafe a) := by
  unfold ExitSafe
  split <;> infer_instance

@[simp] theorem view_setPc (s : Sys) (t : Slot) (p : Pc) : (s.setPc t p).view = s.view := rfl
@[simp] theorem view_emit (s : Sys) (es : List Event) : (s.emit es).view = s.view := rfl
@[simp] theorem log_setPc (s : Sys) (t : Slot) (p : Pc) : (s.setPc t p).log = s.log := rfl
@[simp] theorem log_emit (s : Sys) (es : List Event) : (s.emit es).log = s.log ++ es := rfl
@[simp] theorem waits_emit (s : Sys) (es : List Event) : (s.emit es).waits = s.waits := rfl
@[simp] theorem current_eq (s : Sys) : s.view.current = s.current := rfl

@[simp] theorem waits_setPc (s : Sys) (t : Slot) (p : Pc) :
    (s.setPc t p).waits = Function.update s.waits t p.waitsOn := by
  funext u
  by_cases h : u = t
  · subst h; simp [waits, setPc]
  · simp [waits, setPc, h]

/-- The lists after the first task of `q` has been moved to the end of the ready list. -/
def wakeLists (ls : QueueId → List Slot) (q : WaitQ) : QueueId → List Slot :=
  match ls (.wait q) with
  | [] => ls
  | t :: ts => Function.update (Function.update ls (.wait q) ts) .ready (ls .ready ++ [t])

namespace Inv

variable {ls : QueueId → List Slot} {s s' : Sys} {c : Slot}

theorem running (h : s.Inv ls) (hc : s.current = some c) (hpc : (s.pc c).atInt = false) :
    s.view.Running c := by
  apply h.ok.running_iff.mpr
  refine ⟨hc, (h.atInt c hc).resolve_right ?_⟩
  simp [hpc]

/-- The invariant for a state whose current task is running. -/
theorem of_running (hok : s.view.Ok ls (asleep s.log) s.waits) (hc : s.view.Running c) :
    s.Inv ls := by
  refine ⟨hok, fun c' hc' => Or.inl ?_⟩
  have : c' = c := Option.some.inj (hc'.symm.trans hc.1)
  subst this
  exact hc.2.2

theorem of_kernel {k : Kernel} {pc : Slot → Pc} {log : List Event}
    (hok : k.view.Ok ls (asleep log) fun t => (pc t).waitsOn) (hc : k.view.Running c) :
    Sys.Inv ls ⟨k, pc, log⟩ := of_running (s := ⟨k, pc, log⟩) hok hc

/-- The running task moves to another point of the kernel code. -/
theorem setPc_ok (h : s.view.Ok ls (asleep s.log) s.waits) (hc : s.view.Running c) (p : Pc) :
    s.view.Ok ls (asleep s.log) (s.setPc c p).waits := by
  apply h.congr_waits
  · intro t _ ht
    have htc : t ≠ c := hc.ne (by simp [ht])
    simp [htc]
  · intro t ht
    have htc : t ≠ c := by
      rintro rfl
      have hp := hc.2.1
      have hs := hc.2.2
      rcases ht with ht | ht
      · omega
      · simp [hs] at ht
    simpa [htc] using h.gone t ht

theorem setPc (h : s.Inv ls) (hc : s.view.Running c) (p : Pc) : (s.setPc c p).Inv ls :=
  of_running (s := s.setPc c p) (setPc_ok h.ok hc p) hc

/-- The running task writes to objects, not to wait lists, and goes on at `p`. -/
theorem setKernel (h : s.Inv ls) (hc : s.view.Running c) {k : Kernel} (hk : k.view = s.view)
    (p : Pc) : (Sys.setPc ⟨k, s.pc, s.log⟩ c p).Inv ls := by
  apply of_running (c := c)
  · change k.view.Ok _ _ _
    rw [hk]
    exact setPc_ok h.ok hc p
  · change k.view.Running c
    rw [hk]
    exact hc

theorem emit (h : s.Inv ls) {e : Event} (he : e.isSilent = true) : (s.emit [e]).Inv ls := by
  refine ⟨?_, h.atInt⟩
  rw [view_emit, log_emit, waits_emit, asleep_silent _ he]
  exact h.ok

/-- `scheduler_tick`, also at a point where a blocked task has just moved behind its
`int $32`. -/
theorem tick_ok {regs : Nat} (h : s.view.Ok ls (asleep s.log) s.waits) (hc : s.current = some c)
    (hsafe : s.IpcBlocked c → s.kernel.readyHead ≠ none) (ht : s.tick regs = some s') :
    ∃ ls' n, s'.Inv ls' ∧ (∀ q, ls' (.wait q) = ls (.wait q)) ∧ s'.view.Running n ∧
      s'.pc = s.pc ∧ s'.log = s.log ∧ s'.kernel.sems = s.kernel.sems ∧
      s'.kernel.mqs = s.kernel.mqs ∧ s'.kernel.semCount = s.kernel.semCount ∧
      s'.kernel.mqCount = s.kernel.mqCount := by
  obtain ⟨f, sched, htick, rfl⟩ := tick_eq ht
  have hview := schedulerTick_view (k := s.kernel) hc htick
  have hasleep : asleep s.log c = true → s.view.head .ready ≠ none := by
    intro ha
    obtain ⟨-, hb, hw⟩ := (h.sleeping c).mp ha
    exact hsafe ⟨hb, hw⟩
  obtain ⟨ls', n, hok, hwait, hrun⟩ := h.tick hc hasleep hview
  exact ⟨ls', n, of_running hok hrun, hwait, hrun, rfl, rfl, rfl, rfl, rfl, rfl⟩

/-- The running task blocks on `q`. -/
theorem blockOn (h : s.Inv ls) (hc : s.view.Running c) (q : WaitQ) (p : Pc)
    (hp : p.waitsOn = some q) (hint : p.atInt = true) (id : Int) :
    (({ s with kernel := blockOn q c s.kernel }.setPc c p).emit [.slept c q id]).Inv
      (Function.update ls (.wait q) (ls (.wait q) ++ [c])) := by
  have hview : (SRos.blockOn q c s.kernel).view = (s.view.setState c .blocked).push (.wait q) c :=
    view_blockOn s.kernel q c hc.1
  refine ⟨?_, ?_⟩
  · simp only [view_emit, view_setPc, log_emit, log_setPc, waits_emit, waits_setPc, asleep_slept, hp]
    change (SRos.blockOn q c s.kernel).view.Ok _ _ _
    rw [hview]
    exact h.ok.block hc q
  · intro c' hc'
    right
    have hcur : (SRos.blockOn q c s.kernel).current = some c := by
      change (SRos.blockOn q c s.kernel).view.current = some c
      rw [hview]
      exact hc.1
    have : c' = c := Option.some.inj (hc'.symm.trans hcur)
    subst this
    simpa [Sys.setPc, Sys.emit] using hint

/-- The running task wakes the first task of `q`, if there is one, in a kernel `k` that has the
same view as the one of the state. -/
theorem wakeFirst (h : s.Inv ls) (hc : s.view.Running c) (q : WaitQ) {k : Kernel}
    (hk : k.view = s.view) (w : Waker) {e : Event} (he : e.isSilent = true) :
    (({ s with kernel := (wakeFirst q k).2 }.setPc c .user).emit
      (e :: (wakeFirst q k).1.toList.map fun t => Event.woken t w)).Inv
        (wakeLists ls q) ∧
      (SRos.wakeFirst q k).1 = (ls (.wait q)).head? ∧
      (SRos.wakeFirst q k).2.view.Running c := by
  have hpc := setPc_ok h.ok hc .user
  rcases view_wakeFirst k q with ⟨hnone, hw⟩ | ⟨t, hsome, hw, hview⟩
  · rw [hk] at hnone
    have hnil := (h.ok.head_none_iff _).mp hnone
    rw [hw, wakeLists, hnil]
    refine ⟨?_, rfl, by rw [hk]; exact hc⟩
    exact (h.setKernel hc hk .user).emit he
  · rw [hk] at hsome hview
    obtain ⟨ts, hts⟩ := h.ok.head_some hsome
    have htc : t ≠ c :=
      hc.ne (by simp [h.ok.waiting_state (t := t) (q := q) (by simp [hts])])
    have hrun : (SRos.wakeFirst q k).2.view.Running c := by
      rw [hview]
      exact hc.wake htc
    rw [hw, wakeLists, hts]
    refine ⟨of_running (c := c) ?_ hrun, rfl, hrun⟩
    have hlog : asleep (s.log ++ (e :: [Event.woken t w])) =
        Function.update (asleep s.log) t false := by
      rw [show s.log ++ (e :: [Event.woken t w]) = (s.log ++ [e]) ++ [.woken t w] by simp,
        asleep_woken, asleep_silent _ he]
    change (SRos.wakeFirst q k).2.view.Ok _ (asleep (s.log ++ (e :: [Event.woken t w]))) _
    rw [hview, hlog]
    exact hpc.wake hc hts

/-- The running task spawns a task. -/
theorem spawn {r : Option (Int × Sched)} (h : s.Inv ls) (hc : s.view.Running c)
    (hr : ∀ x sched, r = some (x, sched) →
      (s.kernel.sched fun _ => sched).view = s.kernel.view ∨
        ∃ t, taskFindSlot s.kernel.toSched = some t ∧
          (s.kernel.sched fun _ => sched).view = s.kernel.view.spawn t)
    (hs : s.spawn r = some s') :
    ∃ ls', s'.Inv ls' ∧ (∀ q, ls' (.wait q) = ls (.wait q)) ∧ s'.view.Running c := by
  obtain ⟨x, sched, hx, rfl⟩ := spawn_eq hs
  have hwaits : ∀ t, 0 ≤ s.view.pid t →
      (if taskFindSlot s.kernel.toSched = some t then Pc.user else s.pc t).waitsOn = s.waits t := by
    intro t ht
    rw [if_neg]
    · rfl
    · intro hslot
      have := taskFindSlot_free hslot
      change 0 ≤ s.kernel.view.pid t at ht
      omega
  have hgone : ∀ t, s.view.pid t < 0 ∨ s.view.state t = .zombie →
      (if taskFindSlot s.kernel.toSched = some t then Pc.user else s.pc t).waitsOn = none := by
    intro t ht
    split
    · rfl
    · exact h.ok.gone t ht
  rcases hr x sched hx with hview | ⟨t, ht, hview⟩
  · have hrun : (s.kernel.sched fun _ => sched).view.Running c := by
      rw [hview]; exact hc
    refine ⟨ls, of_running (c := c) ?_ hrun, fun _ => rfl, hrun⟩
    change (s.kernel.sched fun _ => sched).view.Ok _ _ _
    rw [hview]
    exact h.ok.congr_waits (fun t hp _ => hwaits t hp) hgone
  · have hfree := taskFindSlot_free ht
    have hrun : (s.kernel.sched fun _ => sched).view.Running c := by
      rw [hview]
      exact hc.spawn hfree
    refine ⟨Function.update ls .ready (ls .ready ++ [t]), of_running (c := c) ?_ hrun, ?_, hrun⟩
    · change (s.kernel.sched fun _ => sched).view.Ok _ _ _
      rw [hview]
      apply (h.ok.spawn hfree).congr_waits
      · intro u hp hb
        have hut : u ≠ t := by
          rintro rfl
          simp [View.spawn, View.push] at hb
        exact hwaits u (by simpa [View.spawn, View.push, hut] using hp)
      · intro u hu
        by_cases hut : u = t
        · subst hut
          exact hgone u (.inl hfree)
        · exact hgone u (by simpa [View.spawn, View.push, hut] using hu)
    · simp

/-- A pass of `task_wait`. -/
theorem waitPass (h : s.Inv ls) (hc : s.view.Running c) (pid : Int) : (s.waitPass c pid).Inv ls := by
  unfold Sys.waitPass
  rcases taskWait_view s.kernel pid c with ⟨sched, hw, hview⟩ | hw | ⟨z, sched, cp, ec, fr, hw, hp, hs, hview⟩
  · rw [hw]
    refine ⟨?_, ?_⟩
    · have hok := setPc_ok h.ok hc (.waitInt pid)
      have hnone : (s.setPc c (.waitInt pid)).waits c = none := by simp [Pc.waitsOn]
      change (s.kernel.sched fun _ => sched).view.Ok _ _ _
      rw [hview]
      exact hok.waitBlock hc hnone
    · intro c' hc'
      right
      have hcur : (s.kernel.sched fun _ => sched).view.current = some c := by
        rw [hview]; exact hc.1
      have : c' = c := Option.some.inj (hc'.symm.trans hcur)
      subst this
      simp [Sys.setPc, Pc.atInt]
  · rw [hw]
    exact h.setPc hc .user
  · rw [hw]
    have hrun : (s.kernel.sched fun _ => sched).view.Running c := by
      rw [hview]
      exact hc.reap hs
    refine of_running (c := c) ?_ hrun
    change (s.kernel.sched fun _ => sched).view.Ok _ _ _
    rw [hview]
    exact (setPc_ok h.ok hc .user).reap hc hp hs

/-- `task_exit` up to its `int $32`. -/
theorem exit {code : Int} (h : s.Inv ls) (hc : s.view.Running c)
    (hsafe : ∀ p, exitParent s.kernel.toSched = some p → ¬ s.IpcBlocked p) :
    ∃ ls', ({ s with kernel := s.kernel.sched (taskExit code) }.setPc c .exitInt).Inv ls' ∧
      ∀ q, ls' (.wait q) = ls (.wait q) := by
  have hok := setPc_ok h.ok hc .exitInt
  have hnone : (s.setPc c .exitInt).waits c = none := by simp [Pc.waitsOn]
  have hat : ∀ c', (s.kernel.sched (taskExit code)).view.current = some c → 
      (s.kernel.sched (taskExit code)).view.current = some c' →
      (Function.update s.pc c Pc.exitInt c').atInt = true := by
    intro c' hcur hc'
    have : c' = c := Option.some.inj (hc'.symm.trans hcur)
    subst this
    simp [Pc.atInt]
  rcases taskExit_view (k := s.kernel) (c := c) hc.1 with hview | ⟨p, hpar, hb, hview⟩
  · refine ⟨ls, ⟨?_, fun c' hc' => Or.inr (hat c' (by rw [hview]; exact hc.1) hc')⟩, fun _ => rfl⟩
    change (s.kernel.sched (taskExit code)).view.Ok _ _ _
    rw [hview]
    exact hok.exit hc hnone
  · have hpc : p ≠ c := by
      rintro rfl
      simp [View.setState] at hb
    have hblocked : (s.kernel.tasks p).state = .blocked := by
      have : s.kernel.view.state p = .blocked := by simpa [View.setState, hpc] using hb
      exact this
    have hw : (s.setPc c .exitInt).waits p = none := by
      by_contra hne
      refine hsafe p hpar ⟨hblocked, ?_⟩
      simpa [hpc] using hne
    refine ⟨Function.update ls .ready (ls .ready ++ [p]),
      ⟨?_, fun c' hc' => Or.inr (hat c' (by rw [hview]; exact hc.1) hc')⟩, ?_⟩
    · change (s.kernel.sched (taskExit code)).view.Ok _ _ _
      rw [hview]
      exact hok.exitWake hc hnone hb (exitParent_pid hpar) hw
    · simp

/-- `sem_destroy`: the woken tasks are those of the wait list. -/
theorem semDestroy {id r : Int} {woken : List Slot} {k : Kernel} (h : s.Inv ls)
    (hc : s.view.Running c) (hd : semDestroy id s.kernel = some (r, woken, k)) :
    (woken = [] ∧ k = s.kernel) ∨ ∃ i ls', (s.kernel.sems i).id = id ∧
      woken = ls (.wait (.sem i)) ∧
      k.objects = { s.kernel.objects with
        semId := Function.update s.kernel.objects.semId i (-1)
        semValue := Function.update s.kernel.objects.semValue i 0 } ∧
      ({ s with kernel := k }.emit (woken.map fun t => .woken t (.semDestroy id))).Inv ls' ∧
      ls' (.wait (.sem i)) = [] ∧ ∀ q, q ≠ .sem i → ls' (.wait q) = ls (.wait q) := by
  unfold SRos.semDestroy at hd
  split at hd
  · simp only [Option.some.injEq, Prod.mk.injEq] at hd
    exact Or.inl ⟨hd.2.1.symm, hd.2.2.symm⟩
  · split at hd
    · simp only [Option.some.injEq, Prod.mk.injEq] at hd
      exact Or.inl ⟨hd.2.1.symm, hd.2.2.symm⟩
    · next i hi =>
        obtain ⟨k', ls', hdrain, hok, hrun, hnil, hrest⟩ := drain_ok (.sem i) h.ok hc
        rw [hdrain] at hd
        simp only [Option.pure_def, Option.bind_eq_bind, Option.bind_some, Option.some.injEq,
          Prod.mk.injEq] at hd
        obtain ⟨-, rfl, rfl⟩ := hd
        have hview := view_setSem k' i
          (fun m => { m with id := -1, name := CStr.empty, value := 0 }) (fun _ => rfl) fun _ => rfl
        refine Or.inr ⟨i, ls', by simpa using List.find?_some hi, rfl, ?_, ?_, hnil, hrest⟩
        · rw [objects_setSem, objects_drain hdrain]
        · apply of_kernel (c := c)
          · rw [hview, asleep_wakeAll]
            exact hok
          · rw [hview]
            exact hrun

/-- `msg_queue_destroy`: first the receivers, then the senders. -/
theorem msgQueueDestroy {id r : Int} {woken : List Slot} {k : Kernel} (h : s.Inv ls)
    (hc : s.view.Running c) (hd : msgQueueDestroy id s.kernel = some (r, woken, k)) :
    (woken = [] ∧ k = s.kernel) ∨ ∃ j ls', (s.kernel.mqs j).id = id ∧
      woken = ls (.wait (.recv j)) ++ ls (.wait (.send j)) ∧
      k.objects = { s.kernel.objects with
        ring := Function.update s.kernel.objects.ring j
          ⟨-1, (s.kernel.objects.ring j).msgs, 0, 0, 0⟩ } ∧
      ({ s with kernel := k }.emit (woken.map fun t => .woken t (.mqDestroy id))).Inv ls' ∧
      ls' (.wait (.recv j)) = [] ∧ ls' (.wait (.send j)) = [] ∧
      ∀ q, q ≠ .recv j → q ≠ .send j → ls' (.wait q) = ls (.wait q) := by
  unfold SRos.msgQueueDestroy at hd
  split at hd
  · simp only [Option.some.injEq, Prod.mk.injEq] at hd
    exact Or.inl ⟨hd.2.1.symm, hd.2.2.symm⟩
  · split at hd
    · simp only [Option.some.injEq, Prod.mk.injEq] at hd
      exact Or.inl ⟨hd.2.1.symm, hd.2.2.symm⟩
    · next j hj =>
        obtain ⟨k₁, ls₁, hdrain₁, hok₁, hrun₁, hnil₁, hrest₁⟩ := drain_ok (.recv j) h.ok hc
        obtain ⟨k₂, ls₂, hdrain₂, hok₂, hrun₂, hnil₂, hrest₂⟩ := drain_ok (.send j) hok₁ hrun₁
        rw [hdrain₁] at hd
        simp only [Option.pure_def, Option.bind_eq_bind, Option.bind_some, hdrain₂,
          Option.some.injEq, Prod.mk.injEq] at hd
        obtain ⟨-, rfl, rfl⟩ := hd
        have hview := view_setMq k₂ j (fun m => { m with id := -1, head := 0, tail := 0, count := 0 })
          (fun _ => rfl) (fun _ => rfl) (fun _ => rfl) fun _ => rfl
        have hobj : k₂.objects = s.kernel.objects :=
          (objects_drain hdrain₂).trans (objects_drain hdrain₁)
        have hmsgs : (k₂.mqs j).msgs = (s.kernel.objects.ring j).msgs := by
          rw [← hobj]
          rfl
        refine Or.inr ⟨j, ls₂, by simpa using List.find?_some hj, ?_, ?_, ?_, ?_, hnil₂, ?_⟩
        · rw [hrest₁ (.send j) (by simp)]
        · rw [objects_setMq, hobj, ← hmsgs]
          rfl
        · apply of_kernel (c := c)
          · rw [hview, asleep_wakeAll, wakeAll, List.foldl_append]
            exact hok₂
          · rw [hview]
            exact hrun₂
        · rw [hrest₂ (.recv j) (by simp)]
          exact hnil₁
        · intro q hr hs
          rw [hrest₂ q hs, hrest₁ q hr]

/-- `sem_create` in the slot `i`. -/
theorem newSem (h : s.Inv ls) (hc : s.view.Running c) (i : Fin maxSems) (m : Sem) (n : Int)
    (hh : m.waitHead = none) (ht : m.waitTail = none) :
    { s with kernel := { s.kernel with
        semCount := n, sems := Function.update s.kernel.sems i m } }.Inv
      (Function.update ls (.wait (.sem i)) []) := by
  have hview := view_newSem s.kernel i m n hh ht
  refine of_kernel (c := c) ?_ (by rw [hview]; exact hc)
  rw [hview]
  exact h.ok.reset (.sem i)

/-- `msg_queue_create` in the slot `j`. -/
theorem newMq (h : s.Inv ls) (hc : s.view.Running c) (j : Fin maxMsgQueues) (n id : Int)
    (msgs : Nat → Message) :
    { s with kernel := { s.kernel with
        mqCount := n, mqs := Function.update s.kernel.mqs j { id := id, msgs := msgs } } }.Inv
      (Function.update (Function.update ls (.wait (.recv j)) []) (.wait (.send j)) []) := by
  have hview := view_newMq s.kernel j n id msgs
  refine of_kernel (c := c) ?_ (by rw [hview]; exact hc)
  rw [hview]
  exact (h.ok.reset (.recv j)).reset (.send j)

end Inv

end Sys

end SRos
