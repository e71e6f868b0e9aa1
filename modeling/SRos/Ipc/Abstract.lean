import SRos.Ipc.Invariant

/-!
# Semaphores and message queues with lists of waiting tasks

`Ipc` is what the interprocess communication of the kernel is for: counters and bounded
buffers, each with first-in first-out lists of waiting tasks instead of pointers threaded
through the task table. `Ipc.Step` says what one step does to them. Every safe step of the
system that keeps the linkage invariant is such a step.
-/

namespace SRos

structure Ipc where
  objects : Objects
  waiting : WaitQ → List Slot
  pc : Slot → Pc
  log : List Event

/-- A point that belongs to no IPC call. -/
def Pc.isIdle : Pc → Bool
  | .user | .exitInt | .waitInt _ => true
  | _ => false

/-- The calls that a lookup has let in, with the object it found. -/
inductive Objects.Admits (o : Objects) : Pc → Prop
  | semWait {id : Int} {i : Fin maxSems} (h₀ : 0 ≤ id) (h : o.semId i = id) :
      Admits o (.semWait id i)
  | semPost {id : Int} {i : Fin maxSems} (h₀ : 0 ≤ id) (h : o.semId i = id) :
      Admits o (.semPost id i)
  | send {id : Int} {j : Fin maxMsgQueues} {data : Nat → UInt8} {len : Nat} (h₀ : 0 ≤ id)
      (h : (o.ring j).id = id) (hlen : len ≤ msgMaxData) : Admits o (.send id j data len)
  | recv {id : Int} {j : Fin maxMsgQueues} (h₀ : 0 ≤ id) (h : (o.ring j).id = id) :
      Admits o (.recv id j)

namespace Ipc

def setPc (x : Ipc) (t : Slot) (p : Pc) : Ipc := { x with pc := Function.update x.pc t p }

def emit (x : Ipc) (es : List Event) : Ipc := { x with log := x.log ++ es }

def setWaiting (x : Ipc) (q : WaitQ) (ts : List Slot) : Ipc :=
  { x with waiting := Function.update x.waiting q ts }

def setValue (x : Ipc) (i : Fin maxSems) (v : Int) : Ipc :=
  { x with objects :=
    { x.objects with semValue := Function.update x.objects.semValue i v } }

def setRing (x : Ipc) (j : Fin maxMsgQueues) (r : Ring) : Ipc :=
  { x with objects := { x.objects with ring := Function.update x.objects.ring j r } }

/-- `c` joins the list `q` and goes on to the `int $32` of its call. -/
def block (x : Ipc) (c : Slot) (q : WaitQ) (id : Int) (p : Pc) : Ipc :=
  ((x.setWaiting q (x.waiting q ++ [c])).setPc c p).emit [.slept c q id]

/-- `c` leaves its call with the event `e`, and the first task of `q` is woken. -/
def wakeFirst (x : Ipc) (c : Slot) (q : WaitQ) (w : Waker) (e : Event) : Ipc :=
  ((x.setWaiting q (x.waiting q).tail).setPc c .user).emit
    (e :: (x.waiting q).head?.toList.map fun t => Event.woken t w)

inductive Step (x : Ipc) : Ipc → Prop
  | idle : Step x x
  /-- A task executes its `int $32`. -/
  | goOn (t : Slot) : Step x (x.setPc t (x.pc t).afterInt)
  | leave (t : Slot) (p : Pc) (es : List Event) (hp : p.isIdle = true)
      (ht : (x.pc t).waitsOn = none ∨ ∃ id i, x.pc t = .semWaitDone id i)
      (hes : ∀ e ∈ es, ∃ u id r, e = .semWaitReturned u id r) : Step x ((x.setPc t p).emit es)
  | enter (c : Slot) (p : Pc) (hpc : x.pc c = .user) (hp : x.objects.Admits p) :
      Step x (x.setPc c p)
  | semCreate (i : Fin maxSems) (v : Int) (hi : x.objects.semId i < 0) :
      Step x (({ x with objects :=
        { x.objects with
          semId := Function.update x.objects.semId i x.objects.semCount
          semValue := Function.update x.objects.semValue i (if v < 0 then 0 else v)
          semCount := x.objects.semCount + 1 } }.setWaiting (.sem i) []).emit
        (if x.objects.semCount < 0 then [] else [.semCreated x.objects.semCount v]))
  | mqCreate (j : Fin maxMsgQueues) (hj : (x.objects.ring j).id < 0) :
      Step x ((({ x with objects :=
        { x.objects with
          ring := Function.update x.objects.ring j
            ⟨x.objects.mqCount, (x.objects.ring j).msgs, 0, 0, 0⟩
          mqCount := x.objects.mqCount + 1 } }.setWaiting (.recv j) []).setWaiting (.send j) []).emit
        (if x.objects.mqCount < 0 then [] else [.mqCreated x.objects.mqCount]))
  | acquire (c : Slot) (id : Int) (i : Fin maxSems) (hpc : x.pc c = .semWait id i)
      (ha : asleep x.log c = false) (hv : 0 < x.objects.semValue i) :
      Step x (((x.setValue i (x.objects.semValue i - 1)).setPc c .user).emit
        [.acquired c id, .semWaitReturned c id 0])
  | semBlock (c : Slot) (id : Int) (i : Fin maxSems) (hpc : x.pc c = .semWait id i)
      (ha : asleep x.log c = false) (hv : x.objects.semValue i ≤ 0) :
      Step x (x.block c (.sem i) id (.semWaitInt id i))
  | postWake (c : Slot) (id : Int) (i : Fin maxSems) (hpc : x.pc c = .semPost id i)
      (ha : asleep x.log c = false) (hq : x.waiting (.sem i) ≠ []) :
      Step x (x.wakeFirst c (.sem i) (.post id) (.posted id))
  | postAdd (c : Slot) (id : Int) (i : Fin maxSems) (hpc : x.pc c = .semPost id i)
      (ha : asleep x.log c = false) (hq : x.waiting (.sem i) = []) :
      Step x (((x.setValue i (x.objects.semValue i + 1)).setPc c .user).emit [.posted id])
  | sendBlock (c : Slot) (id : Int) (j : Fin maxMsgQueues) (data : Nat → UInt8) (len : Nat)
      (hpc : x.pc c = .send id j data len ∨ x.pc c = .sendAgain id j data len)
      (ha : asleep x.log c = false) (hfull : msgQueueSize ≤ (x.objects.ring j).count) :
      Step x (x.block c (.send j) id (.sendInt id j data len))
  | deposit (c : Slot) (id : Int) (j : Fin maxMsgQueues) (data : Nat → UInt8) (len : Nat)
      (hpc : x.pc c = .send id j data len ∨ x.pc c = .sendAgain id j data len)
      (ha : asleep x.log c = false) (hroom : (x.objects.ring j).count < msgQueueSize) :
      Step x ((x.setRing j ((x.objects.ring j).deposit data len)).wakeFirst c (.recv j) (.deposit id)
        (.deposited id ((List.range len).map data)))
  | recvBlock (c : Slot) (id : Int) (j : Fin maxMsgQueues)
      (hpc : x.pc c = .recv id j ∨ x.pc c = .recvAgain id j)
      (ha : asleep x.log c = false) (hempty : (x.objects.ring j).count = 0) :
      Step x (x.block c (.recv j) id (.recvInt id j))
  | remove (c : Slot) (id : Int) (j : Fin maxMsgQueues)
      (hpc : x.pc c = .recv id j ∨ x.pc c = .recvAgain id j)
      (ha : asleep x.log c = false) (hmsg : (x.objects.ring j).count ≠ 0) :
      Step x ((x.setRing j (x.objects.ring j).remove).wakeFirst c (.send j) (.removal id)
        (.received id ((x.objects.ring j).msgs (x.objects.ring j).head).bytes))

/-- Destroying an object, or finding none with that identifier. -/
inductive Destroy (x : Ipc) : Ipc → Prop
  | none : Destroy x x
  | semDestroy (id : Int) (i : Fin maxSems) (hid : x.objects.semId i = id) :
      Destroy x (({ x with objects :=
        { x.objects with
          semId := Function.update x.objects.semId i (-1)
          semValue := Function.update x.objects.semValue i 0 } }.setWaiting (.sem i) []).emit
        ((x.waiting (.sem i)).map fun t => .woken t (.semDestroy id)))
  | mqDestroy (id : Int) (j : Fin maxMsgQueues) (hid : (x.objects.ring j).id = id) :
      Destroy x ((((x.setRing j ⟨-1, (x.objects.ring j).msgs, 0, 0, 0⟩).setWaiting (.recv j)
        []).setWaiting (.send j) []).emit
        ((x.waiting (.recv j) ++ x.waiting (.send j)).map fun t => .woken t (.mqDestroy id)))

end Ipc

def Act.destroys : Act → Bool
  | .call (.semDestroy _) | .call (.mqDestroy _) => true
  | _ => false

def Act.exits : Act → Bool
  | .call (.exit _) => true
  | _ => false

/-- The abstract state of a system whose queues represent the lists `ls`. -/
def Sys.ipc (s : Sys) (ls : QueueId → List Slot) : Ipc where
  objects := s.kernel.objects
  waiting := fun q => ls (.wait q)
  pc := s.pc
  log := s.log

@[simp] theorem Pc.waitsOn_afterInt (p : Pc) : p.afterInt.waitsOn = p.waitsOn := by
  cases p <;> rfl

namespace Sys.Inv

variable {ls ls' : QueueId → List Slot} {s s' : Sys} {c : Slot} {a : Act}

private theorem waiting_update (ls : QueueId → List Slot) (q : WaitQ) (ts : List Slot) :
    (fun r => Function.update ls (.wait q) ts (.wait r)) =
      Function.update (fun r => ls (.wait r)) q ts := by
  funext r
  by_cases hr : r = q
  · subst hr; simp
  · simp [hr]

private theorem waiting_ready (ls : QueueId → List Slot) (ts : List Slot) :
    (fun r => Function.update ls .ready ts (.wait r)) = fun r => ls (.wait r) := by
  funext r
  simp

/-- A state that differs from another one outside the objects and the wait lists. -/
private theorem ipc_same (s s' : Sys) (ls ls' : QueueId → List Slot) (ho : s'.kernel.objects = s.kernel.objects)
    (hw : ∀ q, ls' (.wait q) = ls (.wait q)) :
    s'.ipc ls' = { s.ipc ls with pc := s'.pc, log := s'.log } := by
  have hw' : (fun q => ls' (.wait q)) = fun q => ls (.wait q) := funext hw
  simp only [ipc, ho, hw']

private theorem objects_eq (h₁ : s'.kernel.sems = s.kernel.sems)
    (h₂ : s'.kernel.mqs = s.kernel.mqs) (h₃ : s'.kernel.semCount = s.kernel.semCount)
    (h₄ : s'.kernel.mqCount = s.kernel.mqCount) : s'.kernel.objects = s.kernel.objects := by
  simp only [Kernel.objects, h₁, h₂, h₃, h₄]

private theorem refines_tick {regs : Nat} (h : s.Inv ls) (ht : s.TickSafe a)
    (hticks : s.ticks a = true) (hs : s.tick regs = some s') :
    ∃ ls', s'.Inv ls' ∧ (s.ipc ls).Step (s'.ipc ls') := by
  obtain ⟨c, hc, -, -⟩ := h.ok.current
  obtain ⟨ls', n, hinv, hwait, -, hpc, hlog, h₁, h₂, h₃, h₄⟩ :=
    tick_ok h.ok hc (ht hticks c hc) hs
  refine ⟨ls', hinv, ?_⟩
  rw [ipc_same s s' ls ls' (objects_eq h₁ h₂ h₃ h₄) hwait, hpc, hlog]
  exact .idle

/-- The running task executes its `int $32`. -/
theorem int_ok {regs : Nat} (h : s.Inv ls) (hc : s.current = some c)
    (hpc : (s.pc c).atInt = true) (ht : s.TickSafe (.cont regs))
    (hs : (s.setPc c (s.pc c).afterInt).tick regs = some s') :
    ∃ ls' n, s'.Inv ls' ∧ (∀ q, ls' (.wait q) = ls (.wait q)) ∧ s'.view.Running n ∧
      s'.pc = Function.update s.pc c (s.pc c).afterInt ∧ s'.log = s.log ∧
      s'.kernel.sems = s.kernel.sems ∧ s'.kernel.mqs = s.kernel.mqs ∧
      s'.kernel.semCount = s.kernel.semCount ∧ s'.kernel.mqCount = s.kernel.mqCount := by
  have hticks : s.ticks (.cont regs) = true := by simpa [ticks, hc] using hpc
  have hwaits : (s.setPc c (s.pc c).afterInt).waits = s.waits := by
    rw [waits_setPc, Pc.waitsOn_afterInt]
    exact Function.update_eq_self c s.waits
  have hok : (s.setPc c (s.pc c).afterInt).view.Ok ls
      (asleep (s.setPc c (s.pc c).afterInt).log) (s.setPc c (s.pc c).afterInt).waits := by
    rw [hwaits]
    exact h.ok
  have hsafe : (s.setPc c (s.pc c).afterInt).IpcBlocked c → s.kernel.readyHead ≠ none := by
    intro hb
    apply ht hticks c hc
    rw [IpcBlocked, hwaits] at hb
    exact hb
  exact tick_ok hok hc hsafe hs

private theorem refines_int {regs : Nat} (h : s.Inv ls) (hc : s.current = some c)
    (hpc : (s.pc c).atInt = true) (ht : s.TickSafe (.cont regs))
    (hs : (s.setPc c (s.pc c).afterInt).tick regs = some s') :
    ∃ ls', s'.Inv ls' ∧ (s.ipc ls).Step (s'.ipc ls') := by
  obtain ⟨ls', n, hinv, hwait, -, hpc', hlog, h₁, h₂, h₃, h₄⟩ := h.int_ok hc hpc ht hs
  refine ⟨ls', hinv, ?_⟩
  rw [ipc_same s s' ls ls' (objects_eq h₁ h₂ h₃ h₄) hwait, hpc', hlog]
  exact .goOn c

private theorem refines_spawn {r : Option (Int × Sched)} (h : s.Inv ls) (hc : s.view.Running c)
    (hr : ∀ x sched, r = some (x, sched) →
      (s.kernel.sched fun _ => sched).view = s.kernel.view ∨
        ∃ t, taskFindSlot s.kernel.toSched = some t ∧
          (s.kernel.sched fun _ => sched).view = s.kernel.view.spawn t)
    (hs : s.spawn r = some s') : ∃ ls', s'.Inv ls' ∧ (s.ipc ls).Step (s'.ipc ls') := by
  obtain ⟨ls', hinv, hwait, -⟩ := h.spawn hc hr hs
  refine ⟨ls', hinv, ?_⟩
  obtain ⟨ho, hpc, hlog⟩ : s'.kernel.objects = s.kernel.objects ∧
      (s'.pc = fun t => if taskFindSlot s.kernel.toSched = some t then .user else s.pc t) ∧
      s'.log = s.log := by
    obtain ⟨x, sched, -, rfl⟩ := spawn_eq hs
    exact ⟨rfl, rfl, rfl⟩
  rw [ipc_same s s' ls ls' ho hwait, hpc, hlog]
  cases hslot : taskFindSlot s.kernel.toSched with
  | none =>
      simp only [reduceCtorEq, if_false]
      exact .idle
  | some t =>
      have hfree : s.waits t = none := h.ok.gone t (.inl (taskFindSlot_free hslot))
      have hpc : (fun u => if some t = some u then Pc.user else s.pc u) =
          Function.update s.pc t .user := by
        funext u
        by_cases hu : u = t
        · subst hu; simp
        · simp [hu, Ne.symm hu]
      rw [hpc]
      have hstep := Ipc.Step.leave (x := s.ipc ls) t .user [] rfl (.inl hfree) (by simp)
      simpa [Ipc.setPc, Ipc.emit, ipc] using hstep

private theorem refines_waitPass (h : s.Inv ls) (hc : s.view.Running c) (pid : Int)
    (hpc : (s.pc c).waitsOn = none) :
    ∃ ls', (s.waitPass c pid).Inv ls' ∧ (s.ipc ls).Step ((s.waitPass c pid).ipc ls') := by
  refine ⟨ls, h.waitPass hc pid, ?_⟩
  have hstep : ∀ (k : Kernel) (p : Pc), p.isIdle = true → k.objects = s.kernel.objects →
      (s.ipc ls).Step (({ s with kernel := k }.setPc c p).ipc ls) := by
    intro k p hp ho
    have hleave := Ipc.Step.leave (x := s.ipc ls) c p [] hp (.inl hpc) (by simp)
    rw [ipc_same s (Sys.setPc ⟨k, s.pc, s.log⟩ c p) ls ls ho fun _ => rfl]
    simpa [Ipc.setPc, Ipc.emit, ipc, Sys.setPc] using hleave
  unfold Sys.waitPass
  split
  · exact hstep _ _ rfl rfl
  · exact hstep _ _ rfl rfl

private theorem asleep_running (h : s.Inv ls) (hc : s.view.Running c) : asleep s.log c = false :=
  h.ok.asleep_false (by simp [hc.2.2])

private theorem refines_block (h : s.Inv ls) (hc : s.view.Running c) (q : WaitQ) (id : Int) (p : Pc)
    (hp : p.waitsOn = some q) (hint : p.atInt = true)
    (hstep : (s.ipc ls).Step ((s.ipc ls).block c q id p)) :
    ∃ ls', (({ s with kernel := SRos.blockOn q c s.kernel }.setPc c p).emit [.slept c q id]).Inv ls' ∧
      (s.ipc ls).Step
        ((({ s with kernel := SRos.blockOn q c s.kernel }.setPc c p).emit [.slept c q id]).ipc ls') := by
  refine ⟨_, h.blockOn hc q p hp hint id, ?_⟩
  have heq : (({ s with kernel := SRos.blockOn q c s.kernel }.setPc c p).emit [.slept c q id]).ipc
      (Function.update ls (.wait q) (ls (.wait q) ++ [c])) = (s.ipc ls).block c q id p := by
    simp only [ipc, Ipc.block, Ipc.setWaiting, Ipc.setPc, Ipc.emit, Sys.setPc, Sys.emit,
      objects_blockOn, waiting_update]
  rw [heq]
  exact hstep

private theorem refines_wake (h : s.Inv ls) (hc : s.view.Running c) (q : WaitQ) {k : Kernel}
    (hk : k.view = s.view) (w : Waker) {e : Event} (he : e.isSilent = true)
    (hstep : (s.ipc ls).Step
      ({ s.ipc ls with objects := k.objects }.wakeFirst c q w e)) :
    ∃ ls', (({ s with kernel := (SRos.wakeFirst q k).2 }.setPc c .user).emit
        (e :: (SRos.wakeFirst q k).1.toList.map fun t => Event.woken t w)).Inv ls' ∧
      (s.ipc ls).Step ((({ s with kernel := (SRos.wakeFirst q k).2 }.setPc c .user).emit
        (e :: (SRos.wakeFirst q k).1.toList.map fun t => Event.woken t w)).ipc ls') := by
  obtain ⟨hinv, hfirst, -⟩ := h.wakeFirst hc q hk w he
  refine ⟨_, hinv, ?_⟩
  have hwait : (fun r => wakeLists ls q (.wait r)) =
      Function.update (fun r => ls (.wait r)) q (ls (.wait q)).tail := by
    unfold wakeLists
    cases hq : ls (.wait q) with
    | nil =>
        dsimp only [List.tail_nil]
        rw [← hq, Function.update_eq_self q fun r => ls (.wait r)]
    | cons t ts =>
        dsimp only [List.tail_cons]
        rw [waiting_ready, waiting_update]
  rw [hfirst]
  simp only [ipc, Ipc.wakeFirst, Ipc.setWaiting, Ipc.setPc, Ipc.emit, Sys.setPc, Sys.emit,
    objects_wakeFirst, hwait] at hstep ⊢
  exact hstep

private theorem refines_semPost {id : Int} {i : Fin maxSems} (h : s.Inv ls)
    (hc : s.view.Running c) (hpc : s.pc c = .semPost id i)
    (hs : s.semPostStep c id i = some s') :
    ∃ ls', s'.Inv ls' ∧ (s.ipc ls).Step (s'.ipc ls') := by
  have ha := asleep_running h hc
  cases hq : ls (.wait (.sem i)) with
  | nil =>
      have hhead : s.kernel.view.head (.wait (.sem i)) = none := (h.ok.head_none_iff _).mpr hq
      have hwake : SRos.wakeFirst (.sem i) s.kernel = (none, s.kernel) := by
        rcases view_wakeFirst s.kernel (.sem i) with ⟨-, hw⟩ | ⟨t, ht, -⟩
        · exact hw
        · simp [hhead] at ht
      simp only [semPostStep, semPostSection, hwake, Option.pure_def, Option.bind_eq_bind,
        Option.bind_eq_some_iff, Option.some.injEq, Prod.exists, Prod.mk.injEq] at hs
      obtain ⟨woken, k, ⟨v, hv, rfl, rfl⟩, rfl⟩ := hs
      have hval := intSucc_eq_some hv
      have hview := view_setSem s.kernel i (fun m => { m with value := v }) (fun _ => rfl) fun _ => rfl
      refine ⟨ls, ?_, ?_⟩
      · exact (h.setKernel hc hview .user).emit rfl
      · have hstep := Ipc.Step.postAdd (x := s.ipc ls) c id i hpc ha hq
        simp only [ipc, Ipc.setValue, Ipc.setPc, Ipc.emit, Sys.setPc, Sys.emit, hval,
          objects_setValue, Option.toList_none, List.map_nil] at hstep ⊢
        exact hstep
  | cons t ts =>
      obtain ⟨-, hfirst, -⟩ := h.wakeFirst hc (.sem i) rfl (.post id) (e := .posted id) rfl
      have hpost : semPostSection i s.kernel =
          some ((SRos.wakeFirst (.sem i) s.kernel).1, (SRos.wakeFirst (.sem i) s.kernel).2) := by
        rw [hq] at hfirst
        unfold semPostSection
        split
        · next hw => rw [hw]
        · next hw => simp [hw] at hfirst
      simp only [semPostStep, hpost, Option.pure_def, Option.bind_eq_bind, Option.bind_some,
        Option.some.injEq] at hs
      subst hs
      apply h.refines_wake hc (.sem i) rfl (.post id) rfl
      exact .postWake c id i hpc ha (by simp [ipc, hq])

private theorem refines_semWait {id : Int} {i : Fin maxSems} (h : s.Inv ls)
    (hc : s.view.Running c) (hpc : s.pc c = .semWait id i) :
    ∃ ls', (s.semWaitStep c id i).Inv ls' ∧ (s.ipc ls).Step ((s.semWaitStep c id i).ipc ls') := by
  have ha := asleep_running h hc
  unfold semWaitStep semWaitSection
  by_cases hv : (s.kernel.sems i).value > 0
  · simp only [hv, if_true]
    have hview := view_setSem s.kernel i (fun m => { m with value := m.value - 1 }) (fun _ => rfl)
      fun _ => rfl
    refine ⟨ls, ?_, ?_⟩
    · have hinv := h.setKernel hc hview .user
      have hboth := (hinv.emit (e := .acquired c id) rfl).emit (e := .semWaitReturned c id 0) rfl
      simpa [Sys.emit] using hboth
    · have hstep := Ipc.Step.acquire (x := s.ipc ls) c id i hpc ha hv
      have hobj : (s.kernel.setSem i fun m => { m with value := m.value - 1 }).objects =
          { s.kernel.objects with
            semValue := Function.update s.kernel.objects.semValue i
              (s.kernel.objects.semValue i - 1) } := objects_setValue s.kernel i _
      simp only [ipc, Ipc.setValue, Ipc.setPc, Ipc.emit, Sys.setPc, Sys.emit, hobj] at hstep ⊢
      exact hstep
  · simp only [hv, if_false]
    exact h.refines_block hc (.sem i) id _ rfl rfl (.semBlock c id i hpc ha (by
      change (s.kernel.sems i).value ≤ 0
      omega))

private theorem refines_send {id : Int} {j : Fin maxMsgQueues} {data : Nat → UInt8} {len : Nat}
    (h : s.Inv ls) (hc : s.view.Running c)
    (hpc : s.pc c = .send id j data len ∨ s.pc c = .sendAgain id j data len) :
    ∃ ls', (s.sendStep c id j data len).Inv ls' ∧
      (s.ipc ls).Step ((s.sendStep c id j data len).ipc ls') := by
  have ha := asleep_running h hc
  unfold sendStep msgQueueSendSection
  by_cases hfull : (s.kernel.mqs j).count ≥ msgQueueSize
  · simp only [hfull, if_true]
    exact h.refines_block hc (.send j) id _ rfl rfl (.sendBlock c id j data len hpc ha hfull)
  · simp only [hfull, if_false]
    have hview := view_setMq s.kernel j (fun m => m.deposit data len) (fun _ => rfl) (fun _ => rfl)
      (fun _ => rfl) fun _ => rfl
    apply h.refines_wake hc (.recv j) hview (.deposit id) rfl
    rw [objects_setMq]
    exact .deposit c id j data len hpc ha (Nat.lt_of_not_le hfull)

private theorem refines_recv {id : Int} {j : Fin maxMsgQueues} (h : s.Inv ls)
    (hc : s.view.Running c) (hpc : s.pc c = .recv id j ∨ s.pc c = .recvAgain id j) :
    ∃ ls', (s.recvStep c id j).Inv ls' ∧ (s.ipc ls).Step ((s.recvStep c id j).ipc ls') := by
  have ha := asleep_running h hc
  unfold recvStep msgQueueRecvSection
  by_cases hempty : (s.kernel.mqs j).count = 0
  · simp only [hempty, if_true]
    exact h.refines_block hc (.recv j) id _ rfl rfl (.recvBlock c id j hpc ha hempty)
  · simp only [hempty, if_false]
    have hview := view_setMq s.kernel j (fun m => m.remove) (fun _ => rfl) (fun _ => rfl)
      (fun _ => rfl) fun _ => rfl
    apply h.refines_wake hc (.send j) hview (.removal id) rfl
    rw [objects_setMq]
    exact .remove c id j hpc ha hempty

private theorem refines_semCreate {name : Option CStr} {v id : Int} {k : Kernel} (h : s.Inv ls)
    (hc : s.view.Running c) (hk : semCreate name v s.kernel = some (id, k)) :
    ∃ ls', ({ s with kernel := k }.emit (if id < 0 then [] else [.semCreated id v])).Inv ls' ∧
      (s.ipc ls).Step
        (({ s with kernel := k }.emit (if id < 0 then [] else [.semCreated id v])).ipc ls') := by
  rcases semCreate_cases hk with ⟨-, rfl, rfl⟩ | ⟨i, nm, hi, rfl, rfl⟩
  · refine ⟨ls, by simpa [Sys.emit] using h, ?_⟩
    simpa [Sys.emit, ipc] using Ipc.Step.idle (x := s.ipc ls)
  · have hinv := h.newSem hc i ⟨s.kernel.semCount, nm, if v < 0 then 0 else v, none, none⟩
      (s.kernel.semCount + 1) rfl rfl
    refine ⟨Function.update ls (.wait (.sem i)) [], ?_, ?_⟩
    · by_cases hneg : s.kernel.semCount < 0
      · rw [if_pos hneg]
        simpa [Sys.emit] using hinv
      · rw [if_neg hneg]
        exact hinv.emit rfl
    · have hfree : (s.kernel.sems i).id < 0 := by simpa using List.find?_some hi
      have hstep := Ipc.Step.semCreate (x := s.ipc ls) i v hfree
      simp only [ipc, Ipc.setWaiting, Ipc.emit, Sys.emit, Kernel.objects, waiting_update,
        comp_update s.kernel.sems i _ Sem.id, comp_update s.kernel.sems i _ Sem.value] at hstep ⊢
      exact hstep

private theorem refines_mqCreate {id : Int} {k : Kernel} (h : s.Inv ls)
    (hc : s.view.Running c) (hk : msgQueueCreate s.kernel = some (id, k)) :
    ∃ ls', ({ s with kernel := k }.emit (if id < 0 then [] else [.mqCreated id])).Inv ls' ∧
      (s.ipc ls).Step
        (({ s with kernel := k }.emit (if id < 0 then [] else [.mqCreated id])).ipc ls') := by
  rcases msgQueueCreate_cases hk with ⟨-, rfl, rfl⟩ | ⟨j, hj, rfl, rfl⟩
  · refine ⟨ls, by simpa [Sys.emit] using h, ?_⟩
    simpa [Sys.emit, ipc] using Ipc.Step.idle (x := s.ipc ls)
  · have hinv := h.newMq hc j (s.kernel.mqCount + 1) s.kernel.mqCount (s.kernel.mqs j).msgs
    refine ⟨Function.update (Function.update ls (.wait (.recv j)) []) (.wait (.send j)) [], ?_, ?_⟩
    · by_cases hneg : s.kernel.mqCount < 0
      · rw [if_pos hneg]
        simpa [Sys.emit] using hinv
      · rw [if_neg hneg]
        exact hinv.emit rfl
    · have hfree : (s.kernel.mqs j).id < 0 := by simpa using List.find?_some hj
      have hstep := Ipc.Step.mqCreate (x := s.ipc ls) j hfree
      simp only [ipc, Ipc.setWaiting, Ipc.emit, Sys.emit, Kernel.objects, waiting_update,
        comp_update s.kernel.mqs j _ MsgQueue.ring] at hstep ⊢
      exact hstep

private theorem refines_semDestroy {id r : Int} {woken : List Slot} {k : Kernel} (h : s.Inv ls)
    (hc : s.view.Running c) (hk : SRos.semDestroy id s.kernel = some (r, woken, k)) :
    ∃ ls', ({ s with kernel := k }.emit (woken.map fun t => .woken t (.semDestroy id))).Inv ls' ∧
      (s.ipc ls).Destroy
        (({ s with kernel := k }.emit (woken.map fun t => .woken t (.semDestroy id))).ipc ls') := by
  rcases h.semDestroy hc hk with ⟨rfl, rfl⟩ | ⟨i, ls', hid, rfl, hobj, hinv, hnil, hrest⟩
  · refine ⟨ls, by simpa [Sys.emit] using h, ?_⟩
    simpa [Sys.emit, ipc] using Ipc.Destroy.none (x := s.ipc ls)
  · refine ⟨ls', hinv, ?_⟩
    have hwait : (fun q => ls' (.wait q)) = Function.update (fun q => ls (.wait q)) (.sem i) [] := by
      funext q
      by_cases hq : q = .sem i
      · subst hq; simpa using hnil
      · simpa [hq] using hrest q hq
    have hstep := Ipc.Destroy.semDestroy (x := s.ipc ls) id i hid
    simp only [ipc, Ipc.setWaiting, Ipc.emit, Sys.emit, hobj, hwait] at hstep ⊢
    exact hstep

private theorem refines_mqDestroy {id r : Int} {woken : List Slot} {k : Kernel} (h : s.Inv ls)
    (hc : s.view.Running c) (hk : SRos.msgQueueDestroy id s.kernel = some (r, woken, k)) :
    ∃ ls', ({ s with kernel := k }.emit (woken.map fun t => .woken t (.mqDestroy id))).Inv ls' ∧
      (s.ipc ls).Destroy
        (({ s with kernel := k }.emit (woken.map fun t => .woken t (.mqDestroy id))).ipc ls') := by
  rcases h.msgQueueDestroy hc hk with
    ⟨rfl, rfl⟩ | ⟨j, ls', hid, rfl, hobj, hinv, hrecv, hsend, hrest⟩
  · refine ⟨ls, by simpa [Sys.emit] using h, ?_⟩
    simpa [Sys.emit, ipc] using Ipc.Destroy.none (x := s.ipc ls)
  · refine ⟨ls', hinv, ?_⟩
    have hwait : (fun q => ls' (.wait q)) =
        Function.update (Function.update (fun q => ls (.wait q)) (.recv j) []) (.send j) [] := by
      funext q
      by_cases hs : q = .send j
      · subst hs; simpa using hsend
      · by_cases hr : q = .recv j
        · subst hr; simpa using hrecv
        · simpa [hr, hs] using hrest q hr hs
    have hstep := Ipc.Destroy.mqDestroy (x := s.ipc ls) id j hid
    simp only [ipc, Ipc.setRing, Ipc.setWaiting, Ipc.emit, Sys.emit, hobj, hwait] at hstep ⊢
    exact hstep

private theorem admits_of_enters {call : Call} {p : Pc} (h : Enters s.kernel call p) :
    s.kernel.objects.Admits p := by
  cases h with
  | semWait hl => exact .semWait (semLookup_some hl).1 (semLookup_some hl).2
  | semPost hl => exact .semPost (semLookup_some hl).1 (semLookup_some hl).2
  | mqSend hl => exact .send (mqLookup_some hl).1 (mqLookup_some hl).2 (by split <;> omega)
  | mqRecv hl => exact .recv (mqLookup_some hl).1 (mqLookup_some hl).2

/-- Every safe step that destroys nothing keeps the invariant and is a step of the abstract
model. -/
theorem refines (h : s.Inv ls) (ht : s.TickSafe a) (he : s.ExitSafe a) (hd : a.destroys = false)
    (hs : s.step a = some s') : ∃ ls', s'.Inv ls' ∧ (s.ipc ls).Step (s'.ipc ls') := by
  have hrun : ∀ {c}, s.current = some c → s.pc c = .user → s.view.Running c :=
    fun hc hpc => h.running hc (by rw [hpc]; rfl)
  cases step_move hs with
  | tick hs => exact h.refines_tick ht rfl hs
  | yield hc hpc hs => exact h.refines_tick ht rfl hs
  | int hc hpc hs => exact h.refines_int hc hpc ht hs
  | create hc hpc hs =>
      exact h.refines_spawn (hrun hc hpc) (fun x sched hr => taskCreate_view hr) hs
  | fork hc hpc hs =>
      exact h.refines_spawn (hrun hc hpc) (fun x sched hr => taskFork_view hr) hs
  | @exit c code hc hpc =>
      obtain ⟨ls', hinv, hwait⟩ := h.exit (hrun hc hpc) he
      refine ⟨ls', hinv, ?_⟩
      have hstep := Ipc.Step.leave (x := s.ipc ls) c .exitInt [] rfl
        (.inl (by simp [ipc, hpc, Pc.waitsOn])) (by simp)
      have hwait' : (fun q => ls' (.wait q)) = fun q => ls (.wait q) := funext hwait
      simp only [ipc, Ipc.setPc, Ipc.emit, Sys.setPc, objects_sched, List.append_nil,
        hwait'] at hstep ⊢
      exact hstep
  | wait hc hpc => exact h.refines_waitPass (hrun hc hpc) _ (by rw [hpc]; rfl)
  | waitAgain hc hpc =>
      exact h.refines_waitPass (h.running hc (by rw [hpc]; rfl)) _ (by rw [hpc]; rfl)
  | semCreate hc hpc hk => exact h.refines_semCreate (hrun hc hpc) hk
  | mqCreate hc hpc hk => exact h.refines_mqCreate (hrun hc hpc) hk
  | enter hc hpc hp =>
      exact ⟨ls, h.setPc (hrun hc hpc) _, .enter _ _ hpc (admits_of_enters hp)⟩
  | @refuseWait c id hc hpc =>
      refine ⟨ls, h.emit rfl, ?_⟩
      have hstep := Ipc.Step.leave (x := s.ipc ls) c .user [.semWaitReturned c id (-1)] rfl
        (.inl (by simp [ipc, hpc, Pc.waitsOn])) (by simp)
      have hsame : Function.update s.pc c Pc.user = s.pc := by
        rw [← hpc, Function.update_eq_self]
      simp only [ipc, Ipc.setPc, Ipc.emit, Sys.emit, hsame] at hstep ⊢
      exact hstep
  | refuse hc hpc => exact ⟨ls, h, .idle⟩
  | semWait hc hpc => exact h.refines_semWait (h.running hc (by rw [hpc]; rfl)) hpc
  | @semWaitDone c id i regs hc hpc =>
      refine ⟨ls, (h.setPc (h.running hc (by rw [hpc]; rfl)) .user).emit rfl, ?_⟩
      exact .leave c .user [.semWaitReturned c id 0] rfl (.inr ⟨id, i, hpc⟩) (by simp)
  | semPost hc hpc hs => exact h.refines_semPost (h.running hc (by rw [hpc]; rfl)) hpc hs
  | send hc hpc =>
      refine h.refines_send (h.running hc ?_) hpc
      rcases hpc with hpc | hpc <;> rw [hpc] <;> rfl
  | recv hc hpc =>
      refine h.refines_recv (h.running hc ?_) hpc
      rcases hpc with hpc | hpc <;> rw [hpc] <;> rfl
  | semDestroy => cases hd
  | mqDestroy => cases hd

theorem refines_destroy (h : s.Inv ls) (hd : a.destroys = true) (hs : s.step a = some s') :
    ∃ ls', s'.Inv ls' ∧ (s.ipc ls).Destroy (s'.ipc ls') := by
  have hrun : ∀ {c}, s.current = some c → s.pc c = .user → s.view.Running c :=
    fun hc hpc => h.running hc (by rw [hpc]; rfl)
  cases step_move hs with
  | semDestroy hc hpc hk => exact h.refines_semDestroy (hrun hc hpc) hk
  | mqDestroy hc hpc hk => exact h.refines_mqDestroy (hrun hc hpc) hk
  | @refuse _ call _ _ hcall => cases call <;> cases hcall <;> cases hd
  | enter hc hpc hp => cases hp <;> cases hd
  | _ => cases hd

theorem step (h : s.Inv ls) (ht : s.TickSafe a) (he : s.ExitSafe a) (hs : s.step a = some s') :
    ∃ ls', s'.Inv ls' := by
  cases hd : a.destroys with
  | false =>
      obtain ⟨ls', hinv, -⟩ := h.refines ht he hd hs
      exact ⟨ls', hinv⟩
  | true =>
      obtain ⟨ls', hinv, -⟩ := h.refines_destroy hd hs
      exact ⟨ls', hinv⟩

/-! ## Runs from boot -/

variable {frames : Nat → Registers} {cr3 esp0 timerTicks : Nat} {s₀ : Sys}

private theorem boot_view (h : Sys.boot frames cr3 esp0 timerTicks = some s₀) :
    s₀.view = ⟨fun _ => none, fun _ => none, fun _ => none, Function.update (fun _ => -1) 0 0,
      Function.update (fun _ => .ready) 0 .running, some 0, 1, 1⟩ := by
  have hs : s₀ = _ := (Option.some.inj h).symm
  subst hs
  apply View.ext <;> try rfl
  · funext t
    by_cases ht : t = 0
    · subst ht; rfl
    · exact congrArg Task.next (Function.update_of_ne (β := fun _ => Task) ht _ _)
  · funext q
    rcases q with _ | (i | j | j) <;> rfl
  · funext q
    rcases q with _ | (i | j | j) <;> rfl
  · exact comp_update _ _ _ Task.pid
  · exact comp_update _ _ _ Task.state

theorem boot_pc_log (h : Sys.boot frames cr3 esp0 timerTicks = some s₀) :
    s₀.pc = (fun _ => .user) ∧ s₀.log = [] := by
  have hs : s₀ = _ := (Option.some.inj h).symm
  subst hs
  exact ⟨rfl, rfl⟩

theorem boot_inv (h : Sys.boot frames cr3 esp0 timerTicks = some s₀) : s₀.Inv fun _ => [] := by
  have hview := boot_view h
  obtain ⟨hpc, hlog⟩ := boot_pc_log h
  have hlive : ∀ t : Slot, 0 ≤ Function.update (fun _ => (-1 : Int)) 0 0 t → t = 0 := by
    intro t ht
    by_contra hne
    rw [Function.update_of_ne hne] at ht
    omega
  have hwaits : s₀.waits = fun _ => none := by
    funext t
    rw [waits, hpc]
    rfl
  apply of_running (c := 0)
  · rw [hview, hlog, hwaits]
    refine ⟨⟨⟨fun q => rfl, fun q => rfl, by simp, by simp⟩, ?_, by simp, by simp, by simp, ?_, ?_,
      by simp, ?_⟩, ⟨0, rfl, by simp, by simp⟩, ?_⟩
    · intro t
      simp only [List.not_mem_nil, false_iff, not_and]
      intro ht
      rw [hlive t ht]
      simp
    · intro t
      by_cases ht : t = 0
      · subst ht; simp
      · simp [ht]
    · intro t u ht heq
      have ht0 := hlive t ht
      have hu0 := hlive u (le_of_le_of_eq ht heq)
      rw [ht0, hu0]
    · have hcard : (Finset.univ.filter fun t : Slot =>
          0 ≤ Function.update (fun _ => (-1 : Int)) 0 0 t) = {0} := by
        ext t
        simp only [Finset.mem_filter, Finset.mem_univ, true_and, Finset.mem_singleton]
        exact ⟨hlive t, fun ht => by subst ht; simp⟩
      rw [liveCount, hcard]
      rfl
    · intro t ht
      by_cases h0 : t = 0
      · rw [h0]
      · simp [h0] at ht
  · rw [hview]
    exact ⟨rfl, by simp, by simp⟩

/-- The invariant holds in every state that safe steps reach. -/
theorem reach {ok : Sys → Act → Prop} (h₀ : Sys.boot frames cr3 esp0 timerTicks = some s₀)
    (hok : ∀ s a, ok s a → s.TickSafe a ∧ s.ExitSafe a) (h : Reach Sys.step ok s₀ s) :
    ∃ ls, s.Inv ls := by
  apply h.invariant ⟨_, boot_inv h₀⟩
  rintro s a s' ⟨ls, hinv⟩ ha hs
  obtain ⟨ht, he⟩ := hok s a ha
  exact hinv.step ht he hs

end Sys.Inv

end SRos
