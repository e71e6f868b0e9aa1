import SRos.Ipc.Blocking
import SRos.Ipc.MessageQueue

/-!
# Message queues and `msg_queue_destroy`

A call that has looked its queue up keeps the slot number over its `int $32` and tests nothing
but the number of messages afterwards. While no queue is destroyed under such a call, the queues
that are left are first-in first-out buffers, and what is received from a queue was sent to it.
The log of a run with destroyed queues is compared with the log without the events of these
queues, which is that of a run without `msg_queue_destroy`.
-/

namespace SRos

/-- The events that do not belong to the queue `id`. -/
def without (log : List Event) (id : Int) : List Event := log.filter fun e => e.mq ≠ some id

theorem mem_without {log : List Event} {id : Int} {e : Event} :
    e ∈ without log id ↔ e ∈ log ∧ e.mq ≠ some id := by
  simp [without]

theorem deposits_without {id id' : Int} (log : List Event) (h : id' ≠ id) :
    deposits (without log id) id' = deposits log id' := by
  unfold deposits without
  rw [List.filterMap_filter]
  apply List.filterMap_congr
  intro e _
  cases e <;> simp_all [Event.mq]
  grind

theorem receipts_without {id id' : Int} (log : List Event) (h : id' ≠ id) :
    receipts (without log id) id' = receipts log id' := by
  unfold receipts without
  rw [List.filterMap_filter]
  apply List.filterMap_congr
  intro e _
  cases e <;> simp_all [Event.mq]
  grind

/-- The queue `id` in slot `j` is destroyed while no call on it is under way. -/
theorem MqOk.destroy {o o' : Objects} {pc : Slot → Pc} {log : List Event} {id : Int}
    {j : Fin maxMsgQueues} {msgs : Nat → Message} (h : MqOk o pc log)
    (hj : (o.ring j).id = id) (hidle : ∀ t k, (pc t).mqRef ≠ some (id, k))
    (hself : o'.ring j = ⟨-1, msgs, 0, 0, 0⟩) (hother : ∀ k, k ≠ j → o'.ring k = o.ring k)
    (hn : o'.mqCount = o.mqCount) : MqOk o' pc (without log id) := by
  have hids : Issued (Ring.id ∘ o'.ring) o.mqCount := by
    have hring : Ring.id ∘ o'.ring = Function.update (Ring.id ∘ o.ring) j (-1) :=
      Function.eq_update_iff.mpr ⟨by simp [hself], fun k hk => by simp [hother k hk]⟩
    rw [hring]
    exact h.issued.withdraw h.count j
  constructor
  · rw [hn]
    exact h.count
  · rw [hn]
    exact hids.lt
  · exact hids.inj
  · intro k
    by_cases hk : k = j
    · rw [hk, hself]
      exact Ring.ok_empty _ _
    · rw [hother k hk]
      exact h.ring k
  · intro t id' k ht
    obtain ⟨hid₀, hk⟩ := h.calls t id' k ht
    by_cases hkj : k = j
    · rw [hkj, hj] at hk
      rw [← hk] at ht
      exact absurd ht (hidle t k)
    · exact ⟨hid₀, by rw [hother k hkj]; exact hk⟩
  · intro id' hlt e he
    exact h.fresh id' (hn ▸ hlt) e (mem_without.mp he).1
  · intro id' hmem
    obtain ⟨hmem, hne⟩ := mem_without.mp hmem
    obtain ⟨k, hk₀, hk, hled⟩ := h.ledger id' hmem
    have hne' : id' ≠ id := fun heq => hne (by rw [heq]; rfl)
    have hkj : k ≠ j := by
      rintro rfl
      exact hne' (hk.symm.trans hj)
    refine ⟨k, hk₀, by rw [hother k hkj]; exact hk, ?_⟩
    rw [deposits_without _ hne', receipts_without _ hne', hother k hkj]
    exact hled

namespace Sys

variable {s s' : Sys} {a : Act} {c : Slot}

def setLog (s : Sys) (log : List Event) : Sys := { s with log := log }

/-- `f` appends `es` to the log, whatever the log is. -/
def Logs (f : Sys → Sys) (s : Sys) (es : List Event) : Prop :=
  ∀ log, f (s.setLog log) = (f s).setLog (log ++ es)

theorem Logs.log_eq {f : Sys → Sys} {es : List Event} (h : Logs f s es) :
    (f s).log = s.log ++ es := congrArg Sys.log (h s.log)

theorem Logs.move {f : Sys → Sys} {es : List Event} (h : Logs f s es)
    (hmove : ∀ log, Move (s.setLog log) a (f (s.setLog log))) (log : List Event) :
    Move (s.setLog log) a ((f s).setLog (log ++ es)) :=
  h log ▸ hmove log

theorem tick_setLog {regs : Nat} (h : s.tick regs = some s') (log : List Event) :
    (s.setLog log).tick regs = some (s'.setLog log) ∧ s'.log = s.log := by
  obtain ⟨f, sched, ht, rfl⟩ := tick_eq h
  refine ⟨?_, rfl⟩
  unfold Sys.tick
  rw [show (s.setLog log).kernel = s.kernel from rfl, ht]
  rfl

theorem spawn_setLog {r : Option (Int × Sched)} (h : s.spawn r = some s') (log : List Event) :
    (s.setLog log).spawn r = some (s'.setLog log) ∧ s'.log = s.log := by
  obtain ⟨x, sched, rfl, rfl⟩ := spawn_eq h
  exact ⟨rfl, rfl⟩

theorem waitPass_logs (pid : Int) : Logs (fun s => s.waitPass c pid) s [] := by
  intro log
  unfold waitPass
  rw [List.append_nil]
  dsimp only
  rw [show (s.setLog log).kernel = s.kernel from rfl]
  split
  · rfl
  · rfl

theorem semPost_setLog {id : Int} {sem : Fin maxSems} (h : s.semPostStep c id sem = some s') :
    ∃ es, (∀ log, (s.setLog log).semPostStep c id sem = some (s'.setLog (log ++ es))) ∧
      s'.log = s.log ++ es ∧ ∀ e ∈ es, e.mq = none := by
  unfold semPostStep at h
  simp only [Option.pure_def, Option.bind_eq_bind, Option.bind_eq_some_iff, Option.some.injEq,
    Prod.exists] at h
  obtain ⟨woken, k, hk, rfl⟩ := h
  refine ⟨.posted id :: woken.toList.map fun t => Event.woken t (.post id), ?_, rfl, ?_⟩
  · intro log
    unfold semPostStep
    rw [show (s.setLog log).kernel = s.kernel from rfl, hk]
    rfl
  · intro e he
    rcases List.mem_cons.mp he with rfl | he
    · rfl
    · obtain ⟨t, -, rfl⟩ := List.mem_map.mp he
      rfl

theorem semWait_logs (id : Int) (sem : Fin maxSems) :
    ∃ es, Logs (fun s => s.semWaitStep c id sem) s es ∧ ∀ e ∈ es, e.mq = none := by
  unfold Logs semWaitStep setLog
  dsimp only
  split
  · exact ⟨[.acquired c id, .semWaitReturned c id 0], fun _ => rfl, by simp [Event.mq]⟩
  · exact ⟨[.slept c (.sem sem) id], fun _ => rfl, by simp [Event.mq]⟩

/-- The events of a round of a call on the queue `id`. -/
def Event.OfCall (id : Int) (e : Event) : Prop :=
  e.mq = none ∨ e.mq = some id ∧ e ≠ .mqCreated id

theorem send_logs (id : Int) (j : Fin maxMsgQueues) (data : Nat → UInt8) (len : Nat) :
    ∃ es, Logs (fun s => s.sendStep c id j data len) s es ∧ ∀ e ∈ es, Event.OfCall id e := by
  unfold Logs sendStep setLog
  dsimp only
  split
  · exact ⟨[.slept c (.send j) id], fun _ => rfl, by simp [Event.OfCall, Event.mq]⟩
  · refine ⟨_, fun _ => rfl, fun e he => ?_⟩
    obtain ⟨hmq, hne⟩ := Event.mq_woken rfl (by simp) e he
    exact hmq.imp_right fun hmq => ⟨hmq, hne⟩

theorem recv_logs (id : Int) (j : Fin maxMsgQueues) :
    ∃ es, Logs (fun s => s.recvStep c id j) s es ∧ ∀ e ∈ es, Event.OfCall id e := by
  unfold Logs recvStep setLog
  dsimp only
  split
  · exact ⟨[.slept c (.recv j) id], fun _ => rfl, by simp [Event.OfCall, Event.mq]⟩
  · refine ⟨_, fun _ => rfl, fun e he => ?_⟩
    obtain ⟨hmq, hne⟩ := Event.mq_woken rfl (by simp) e he
    exact hmq.imp_right fun hmq => ⟨hmq, hne⟩

/-- What a step writes to the log, and which queue slots it gives away. -/
structure MoveLog (s : Sys) (a : Act) (s' : Sys) (es : List Event) : Prop where
  move : ∀ log, Move (s.setLog log) a (s'.setLog (log ++ es))
  log : s'.log = s.log ++ es
  events : ∀ e ∈ es, e.mq = none ∨
    (∃ c id j, (s.pc c).mqRef = some (id, j) ∧ e.mq = some id ∧ e ≠ .mqCreated id) ∨
    e = .mqCreated s.kernel.mqCount
  ids : ∀ j, (s'.kernel.objects.ring j).id = (s.kernel.objects.ring j).id ∨
    (s'.kernel.objects.ring j).id = s.kernel.mqCount ∧ .mqCreated s.kernel.mqCount ∈ es
  count : s.kernel.mqCount ≤ s'.kernel.mqCount

namespace MoveLog

/-- A step that appends nothing. -/
theorem quiet (hmove : ∀ log, Move (s.setLog log) a (s'.setLog log)) (hlog : s'.log = s.log)
    (hobj : s'.kernel.objects.ring = s.kernel.objects.ring ∧
      s'.kernel.objects.mqCount = s.kernel.objects.mqCount) : MoveLog s a s' [] where
  move := by simpa using hmove
  log := by simpa using hlog
  events := by simp
  ids := fun j => .inl (by rw [hobj.1])
  count := hobj.2.ge

theorem silent {es : List Event} (hmove : ∀ log, Move (s.setLog log) a (s'.setLog (log ++ es)))
    (hlog : s'.log = s.log ++ es) (hes : ∀ e ∈ es, e.mq = none)
    (hobj : s'.kernel.objects.ring = s.kernel.objects.ring ∧
      s'.kernel.objects.mqCount = s.kernel.objects.mqCount) : MoveLog s a s' es where
  move := hmove
  log := hlog
  events := fun e he => .inl (hes e he)
  ids := fun j => .inl (by rw [hobj.1])
  count := hobj.2.ge

end MoveLog

theorem id_update {f : Fin maxMsgQueues → Ring} {j : Fin maxMsgQueues} {r : Ring}
    (h : r.id = (f j).id) (k : Fin maxMsgQueues) : (Function.update f j r k).id = (f k).id := by
  by_cases hk : k = j
  · subst hk
    simpa using h
  · simp [hk]

theorem sendStep_ids (id : Int) (j : Fin maxMsgQueues) (data : Nat → UInt8) (len : Nat) :
    (∀ k, ((s.sendStep c id j data len).kernel.objects.ring k).id =
      (s.kernel.objects.ring k).id) ∧
      (s.sendStep c id j data len).kernel.objects.mqCount = s.kernel.objects.mqCount := by
  have hkernel : (s.sendStep c id j data len).kernel =
      (msgQueueSendSection j data len c s.kernel).2 := by
    unfold sendStep
    split
    · next h => rw [h]; rfl
    · next h => rw [h]; rfl
  rw [hkernel]
  unfold msgQueueSendSection
  split
  · rw [objects_blockOn]
    exact ⟨fun _ => rfl, rfl⟩
  · rw [objects_wakeFirst, objects_setMq]
    exact ⟨@id_update s.kernel.objects.ring j ((s.kernel.mqs j).deposit data len).ring rfl, rfl⟩

theorem recvStep_ids (id : Int) (j : Fin maxMsgQueues) :
    (∀ k, ((s.recvStep c id j).kernel.objects.ring k).id = (s.kernel.objects.ring k).id) ∧
      (s.recvStep c id j).kernel.objects.mqCount = s.kernel.objects.mqCount := by
  have hkernel : (s.recvStep c id j).kernel = (msgQueueRecvSection j c s.kernel).2 := by
    unfold recvStep
    split
    · next h => rw [h]; rfl
    · next h => rw [h]; rfl
  rw [hkernel]
  unfold msgQueueRecvSection
  split
  · rw [objects_blockOn]
    exact ⟨fun _ => rfl, rfl⟩
  · rw [objects_wakeFirst, objects_setMq]
    exact ⟨@id_update s.kernel.objects.ring j (s.kernel.mqs j).remove.ring rfl, rfl⟩

/-- The rings and the number of queues are as they were. -/
def SameRings (s s' : Sys) : Prop :=
  s'.kernel.objects.ring = s.kernel.objects.ring ∧
    s'.kernel.objects.mqCount = s.kernel.objects.mqCount

theorem sameRings_tick {regs : Nat} (h : s.tick regs = some s') : SameRings s s' := by
  obtain ⟨f, sched, -, rfl⟩ := tick_eq h
  exact ⟨rfl, rfl⟩

theorem sameRings_spawn {r : Option (Int × Sched)} (h : s.spawn r = some s') : SameRings s s' := by
  obtain ⟨x, sched, -, rfl⟩ := spawn_eq h
  exact ⟨rfl, rfl⟩

theorem sameRings_waitPass (pid : Int) : SameRings s (s.waitPass c pid) := by
  unfold waitPass
  split
  · exact ⟨rfl, rfl⟩
  · exact ⟨rfl, rfl⟩

theorem sameRings_semWaitStep (id : Int) (sem : Fin maxSems) :
    SameRings s (s.semWaitStep c id sem) := by
  unfold semWaitStep semWaitSection
  by_cases hv : (s.kernel.sems sem).value > 0
  · simp only [hv, if_true]
    exact ⟨rfl, rfl⟩
  · simp only [hv, if_false]
    have hobj := objects_blockOn s.kernel (.sem sem) c
    exact ⟨congrArg Objects.ring hobj, congrArg Objects.mqCount hobj⟩

theorem sameRings_semPostStep {id : Int} {sem : Fin maxSems}
    (h : s.semPostStep c id sem = some s') : SameRings s s' := by
  unfold semPostStep at h
  simp only [Option.pure_def, Option.bind_eq_bind, Option.bind_eq_some_iff, Option.some.injEq,
    Prod.exists] at h
  obtain ⟨woken, k, hk, rfl⟩ := h
  exact rings_semPostSection hk

/-- `msg_queue_create` gives away the slot that it fills, and its identifier. -/
theorem moveLog_mqCreate {id : Int} {k : Kernel} (hcount : 0 ≤ s.kernel.mqCount)
    (hc : s.current = some c) (hpc : s.pc c = .user)
    (hk : msgQueueCreate s.kernel = some (id, k)) :
    MoveLog s (.call .mqCreate)
      ({ s with kernel := k }.emit (if id < 0 then [] else [.mqCreated id]))
      (if id < 0 then [] else [.mqCreated id]) := by
  refine ⟨fun log => .mqCreate hc hpc hk, rfl, ?_, ?_, ?_⟩
  · intro e he
    rcases msgQueueCreate_cases hk with ⟨-, rfl, rfl⟩ | ⟨j, hj, rfl, rfl⟩
    · simp at he
    · rw [if_neg (by omega), List.mem_singleton] at he
      exact .inr (.inr he)
  · intro i
    rcases msgQueueCreate_cases hk with ⟨-, rfl, rfl⟩ | ⟨j, hj, rfl, rfl⟩
    · exact .inl rfl
    · by_cases hij : i = j
      · subst hij
        refine .inr ⟨?_, ?_⟩
        · simp [Sys.emit, Kernel.objects, MsgQueue.ring]
        · rw [if_neg (by omega)]
          exact List.mem_singleton.mpr rfl
      · refine .inl ?_
        simp [Sys.emit, Kernel.objects, MsgQueue.ring, hij]
  · rcases msgQueueCreate_cases hk with ⟨-, rfl, rfl⟩ | ⟨j, hj, rfl, rfl⟩
    · exact le_rfl
    · change s.kernel.mqCount ≤ s.kernel.mqCount + 1
      omega

/-- The events of a call on the queue that the task refers to. -/
theorem Event.OfCall.events {e : Event} {id : Int} {j : Fin maxMsgQueues} (h : Event.OfCall id e)
    (hpc : (s.pc c).mqRef = some (id, j)) : e.mq = none ∨
      (∃ c id j, (s.pc c).mqRef = some (id, j) ∧ e.mq = some id ∧ e ≠ .mqCreated id) ∨
      e = .mqCreated s.kernel.mqCount := by
  rcases h with hnone | hof
  · exact .inl hnone
  · exact .inr (.inl ⟨c, id, j, hpc, hof⟩)

theorem move_log (hcount : 0 ≤ s.kernel.mqCount) (ha : ∀ id, a ≠ .call (.mqDestroy id))
    (h : Move s a s') : ∃ es, MoveLog s a s' es := by
  cases h with
  | tick ht =>
      exact ⟨[], .quiet (fun log => .tick (tick_setLog ht log).1) (tick_setLog ht []).2
        (sameRings_tick ht)⟩
  | yield hc hpc ht =>
      exact ⟨[], .quiet (fun log => .yield hc hpc (tick_setLog ht log).1) (tick_setLog ht []).2
        (sameRings_tick ht)⟩
  | int hc hpc ht =>
      have hrings := sameRings_tick ht
      exact ⟨[], .quiet (fun log => .int hc hpc (tick_setLog ht log).1) (tick_setLog ht []).2
        hrings⟩
  | create hc hpc hs =>
      exact ⟨[], .quiet (fun log => .create hc hpc (spawn_setLog hs log).1)
        (spawn_setLog hs []).2 (sameRings_spawn hs)⟩
  | fork hc hpc hs =>
      exact ⟨[], .quiet (fun log => .fork hc hpc (spawn_setLog hs log).1)
        (spawn_setLog hs []).2 (sameRings_spawn hs)⟩
  | exit hc hpc => exact ⟨[], .quiet (fun log => .exit hc hpc) rfl ⟨rfl, rfl⟩⟩
  | @wait c pid hc hpc =>
      have hlogs := @waitPass_logs s c pid
      exact ⟨[], .silent (hlogs.move fun log => .wait hc hpc) hlogs.log_eq (by simp)
        (sameRings_waitPass pid)⟩
  | @waitAgain c pid regs hc hpc =>
      have hlogs := @waitPass_logs s c pid
      exact ⟨[], .silent (hlogs.move fun log => .waitAgain hc hpc) hlogs.log_eq (by simp)
        (sameRings_waitPass pid)⟩
  | @semCreate c name v id k hc hpc hk =>
      refine ⟨_, .silent (fun log => .semCreate hc hpc hk) rfl ?_ ?_⟩
      · intro e he
        split at he <;> simp_all [Event.mq]
      · rcases semCreate_cases hk with ⟨-, -, rfl⟩ | ⟨i, nm, -, -, rfl⟩
        · exact ⟨rfl, rfl⟩
        · exact ⟨rfl, rfl⟩
  | mqCreate hc hpc hk => exact ⟨_, moveLog_mqCreate hcount hc hpc hk⟩
  | enter hc hpc hp => exact ⟨[], .quiet (fun log => .enter hc hpc hp) rfl ⟨rfl, rfl⟩⟩
  | refuseWait hc hpc =>
      exact ⟨_, .silent (fun log => .refuseWait hc hpc) rfl (by simp [Event.mq]) ⟨rfl, rfl⟩⟩
  | refuse hc hpc hcall => exact ⟨[], .quiet (fun log => .refuse hc hpc hcall) rfl ⟨rfl, rfl⟩⟩
  | @semWait c id sem regs hc hpc =>
      obtain ⟨es, hlogs, hes⟩ := @semWait_logs s c id sem
      exact ⟨es, .silent (hlogs.move fun log => .semWait hc hpc) hlogs.log_eq hes
        (sameRings_semWaitStep id sem)⟩
  | semWaitDone hc hpc =>
      exact ⟨_, .silent (fun log => .semWaitDone hc hpc) rfl (by simp [Event.mq]) ⟨rfl, rfl⟩⟩
  | semPost hc hpc hs =>
      obtain ⟨es, hset, hlog, hes⟩ := semPost_setLog hs
      exact ⟨es, .silent (fun log => .semPost hc hpc (hset log)) hlog hes
        (sameRings_semPostStep hs)⟩
  | @send c id j data len regs hc hpc =>
      obtain ⟨es, hlogs, hes⟩ := @send_logs s c id j data len
      refine ⟨es, hlogs.move fun log => .send hc hpc, hlogs.log_eq, fun e he => ?_,
        fun k => .inl ((sendStep_ids id j data len).1 k), (sendStep_ids id j data len).2.ge⟩
      refine Event.OfCall.events (hes e he) (?_ : (s.pc c).mqRef = some (id, j))
      rcases hpc with hpc | hpc <;> rw [hpc] <;> rfl
  | @recv c id j regs hc hpc =>
      obtain ⟨es, hlogs, hes⟩ := @recv_logs s c id j
      refine ⟨es, hlogs.move fun log => .recv hc hpc, hlogs.log_eq, fun e he => ?_,
        fun k => .inl ((recvStep_ids id j).1 k), (recvStep_ids id j).2.ge⟩
      refine Event.OfCall.events (hes e he) (?_ : (s.pc c).mqRef = some (id, j))
      rcases hpc with hpc | hpc <;> rw [hpc] <;> rfl
  | semDestroy hc hpc hk =>
      refine ⟨_, .silent (fun log => .semDestroy hc hpc hk) rfl ?_ (rings_semDestroy hk)⟩
      intro e he
      obtain ⟨t, -, rfl⟩ := List.mem_map.mp he
      rfl
  | mqDestroy hc hpc hk => exact absurd rfl (ha _)

theorem deposits_concat (log es : List Event) (id : Int) :
    deposits (log ++ es) id = deposits log id ++ deposits es id := List.filterMap_append

theorem receipts_concat (log es : List Event) (id : Int) :
    receipts (log ++ es) id = receipts log id ++ receipts es id := List.filterMap_append

theorem deposits_none {log : List Event} {id : Int} (h : ∀ e ∈ log, e.mq ≠ some id) :
    deposits log id = [] := by
  rw [← List.nil_append log, deposits_append [] h]
  rfl

theorem receipts_none {log : List Event} {id : Int} (h : ∀ e ∈ log, e.mq ≠ some id) :
    receipts log id = [] := by
  rw [← List.nil_append log, receipts_append [] h]
  rfl

/-- `log` is the log without the events of the queues that have been destroyed. -/
structure Kept (s : Sys) (log : List Event) : Prop where
  inv : (s.setLog log).MqInv
  created : ∀ j, 0 ≤ (s.kernel.objects.ring j).id →
    .mqCreated (s.kernel.objects.ring j).id ∈ log
  deposits : ∀ id, .mqCreated id ∈ log → deposits log id = deposits s.log id
  receipts : ∀ id, .mqCreated id ∈ log → receipts log id = receipts s.log id
  fresh : ∀ id, s.kernel.mqCount ≤ id → ∀ e ∈ s.log, e.mq ≠ some id
  received : ∀ id, SRos.receipts s.log id <+: SRos.deposits s.log id

namespace Kept

variable {log : List Event}

theorem step (h : s.Kept log) (ha : ∀ id, a ≠ .call (.mqDestroy id)) (hs : s.step a = some s') :
    ∃ log', s'.Kept log' := by
  have hcount : 0 ≤ s.kernel.mqCount := h.inv.count
  obtain ⟨es, hm⟩ := move_log hcount ha (step_move hs)
  have hinv : (s'.setLog (log ++ es)).MqInv := h.inv.of_move ha (hm.move log)
  have hsub : ∀ id, .mqCreated id ∈ log ++ es → .mqCreated id ∈ log ∨ id = s.kernel.mqCount := by
    intro id hmem
    rcases List.mem_append.mp hmem with hmem | hmem
    · exact .inl hmem
    · rcases hm.events _ hmem with hnone | ⟨c, id', j, -, hid, hne⟩ | heq
      · cases hnone
      · cases hid
        exact absurd rfl hne
      · cases heq
        exact .inr rfl
  have hnew : ∀ id e, e ∈ es → e.mq = some id → .mqCreated id ∈ log ++ es := by
    intro id e he hid
    rcases hm.events e he with hnone | ⟨c, id', j, href, hid', -⟩ | rfl
    · rw [hnone] at hid
      cases hid
    · obtain rfl : id' = id := Option.some.inj (hid'.symm.trans hid)
      obtain ⟨h₀, hj⟩ := h.inv.calls c id' j href
      have hj' : (s.kernel.objects.ring j).id = id' := hj
      have hmem := h.created j (by omega)
      rw [hj'] at hmem
      exact List.mem_append_left es hmem
    · obtain rfl := Option.some.inj hid
      exact List.mem_append_right log he
  have hdep : ∀ id, .mqCreated id ∈ log ++ es →
      SRos.deposits (log ++ es) id = SRos.deposits s'.log id := by
    intro id hmem
    rw [hm.log, deposits_concat, deposits_concat]
    congr 1
    rcases hsub id hmem with hold | rfl
    · exact h.deposits id hold
    · exact (deposits_none (h.inv.fresh _ le_rfl)).trans (deposits_none (h.fresh _ le_rfl)).symm
  have hrec : ∀ id, .mqCreated id ∈ log ++ es →
      SRos.receipts (log ++ es) id = SRos.receipts s'.log id := by
    intro id hmem
    rw [hm.log, receipts_concat, receipts_concat]
    congr 1
    rcases hsub id hmem with hold | rfl
    · exact h.receipts id hold
    · exact (receipts_none (h.inv.fresh _ le_rfl)).trans (receipts_none (h.fresh _ le_rfl)).symm
  refine ⟨log ++ es, hinv, ?_, hdep, hrec, ?_, ?_⟩
  · intro j hj
    rcases hm.ids j with hid | ⟨hid, hmem⟩
    · rw [hid] at hj ⊢
      exact List.mem_append_left es (h.created j hj)
    · rw [hid]
      exact List.mem_append_right log hmem
  · intro id hlt e he hid
    rw [hm.log] at he
    rcases List.mem_append.mp he with he | he
    · have hle := hm.count
      exact h.fresh id (by omega) e he hid
    · exact hinv.fresh id hlt e (List.mem_append_right log he) hid
  · intro id
    by_cases hmem : .mqCreated id ∈ log ++ es
    · obtain ⟨j, -, -, hled⟩ := hinv.ledger id hmem
      rw [← hdep id hmem, ← hrec id hmem]
      exact ⟨_, hled.symm⟩
    · have hnone : ∀ e ∈ es, e.mq ≠ some id := fun e he hid => hmem (hnew id e he hid)
      rw [hm.log, deposits_append _ hnone, receipts_append _ hnone]
      exact h.received id

theorem forget {id : Int} {j : Fin maxMsgQueues} {k : Kernel} {es : List Event} (h : s.Kept log)
    (hj : (s.kernel.objects.ring j).id = id)
    (hidle : ∀ t k, (s.pc t).mqRef ≠ some (id, k)) (hobj : k.objects = s.kernel.objects)
    (hes : ∀ e ∈ es, e.mq = none) :
    ({ s with kernel := k.setMq j fun m =>
      { m with id := -1, head := 0, tail := 0, count := 0 } }.emit es).Kept (without log id) := by
  have hnone : ∀ id', ∀ e ∈ es, e.mq ≠ some id' := fun id' e he => by simp [hes e he]
  have hring : (k.setMq j fun m => { m with id := -1, head := 0, tail := 0, count := 0 }).objects =
      { s.kernel.objects with
        ring := Function.update s.kernel.objects.ring j ⟨-1, (k.mqs j).msgs, 0, 0, 0⟩ } := by
    rw [objects_setMq, hobj]
    rfl
  have hne : ∀ {id'}, .mqCreated id' ∈ without log id → .mqCreated id' ∈ log ∧ id' ≠ id := by
    intro id' hmem
    obtain ⟨hmem, hne⟩ := mem_without.mp hmem
    exact ⟨hmem, fun heq => hne (by rw [heq]; rfl)⟩
  constructor
  · unfold MqInv
    change MqOk (k.setMq j _).objects s.pc (without log id)
    rw [hring]
    refine MqOk.destroy h.inv hj hidle (Function.update_self ..) ?_ rfl
    intro i hi
    exact Function.update_of_ne hi ..
  · intro i hi
    change 0 ≤ ((k.setMq j _).objects.ring i).id at hi
    change Event.mqCreated ((k.setMq j _).objects.ring i).id ∈ _
    rw [hring] at hi ⊢
    dsimp only at hi ⊢
    by_cases hij : i = j
    · rw [hij, Function.update_self] at hi
      change 0 ≤ (-1 : Int) at hi
      omega
    · rw [Function.update_of_ne hij] at hi ⊢
      refine mem_without.mpr ⟨h.created i hi, ?_⟩
      intro heq
      have heq : (s.kernel.objects.ring i).id = id := Option.some.inj heq
      exact hij (h.inv.idInj i j hi (heq.trans hj.symm))
  · intro id' hmem
    obtain ⟨hmem, hid⟩ := hne hmem
    change _ = SRos.deposits (s.log ++ es) id'
    rw [deposits_without _ hid, deposits_append _ (hnone id'), h.deposits id' hmem]
  · intro id' hmem
    obtain ⟨hmem, hid⟩ := hne hmem
    change _ = SRos.receipts (s.log ++ es) id'
    rw [receipts_without _ hid, receipts_append _ (hnone id'), h.receipts id' hmem]
  · intro id' hlt e he
    have hcount : k.mqCount = s.kernel.mqCount := congrArg Objects.mqCount hobj
    change k.mqCount ≤ id' at hlt
    rcases List.mem_append.mp he with he | he
    · exact h.fresh id' (by omega) e he
    · exact hnone id' e he
  · intro id'
    change SRos.receipts (s.log ++ es) id' <+: SRos.deposits (s.log ++ es) id'
    rw [deposits_append _ (hnone id'), receipts_append _ (hnone id')]
    exact h.received id'

/-- No call that has looked the queue up is under way when it is destroyed. -/
theorem destroy {id r : Int} {woken : List Slot} {k : Kernel} (h : s.Kept log)
    (hidle : ∀ t j, (s.pc t).mqRef ≠ some (id, j))
    (hk : msgQueueDestroy id s.kernel = some (r, woken, k)) :
    ∃ log', ({ s with kernel := k }.emit (woken.map fun t => .woken t (.mqDestroy id))).Kept
      log' := by
  unfold msgQueueDestroy at hk
  split at hk
  · cases hk
    refine ⟨log, ?_⟩
    simpa [Sys.emit] using h
  · next hneg =>
      split at hk
      · cases hk
        refine ⟨log, ?_⟩
        simpa [Sys.emit] using h
      · next j hfind =>
          have hj : (s.kernel.mqs j).id = id := by simpa using List.find?_some hfind
          simp only [Option.pure_def, Option.bind_eq_bind, Option.bind_eq_some_iff,
            Option.some.injEq, Prod.mk.injEq, Prod.exists] at hk
          obtain ⟨receivers, k₁, hrecv, senders, k₂, hsend, -, rfl, rfl⟩ := hk
          have hobj : k₂.objects = s.kernel.objects := by
            rw [objects_drain hsend, objects_drain hrecv]
          refine ⟨_, h.forget hj hidle hobj ?_⟩
          intro e he
          obtain ⟨t, -, rfl⟩ := List.mem_map.mp he
          rfl

theorem boot {frames : Nat → Registers} {cr3 esp0 timerTicks : Nat} {s₀ : Sys}
    (h₀ : Sys.boot frames cr3 esp0 timerTicks = some s₀) : s₀.Kept [] := by
  have hinv := MqInv.boot h₀
  obtain ⟨-, hlog⟩ := Inv.boot_pc_log h₀
  have hfree : ∀ j, (s₀.kernel.objects.ring j).id = -1 := by
    have hs : s₀ = _ := (Option.some.inj h₀).symm
    subst hs
    exact fun _ => rfl
  constructor
  · unfold MqInv at hinv
    rw [hlog] at hinv
    exact hinv
  · intro j hj
    rw [hfree j] at hj
    omega
  · simp
  · simp
  · rw [hlog]
    simp
  · rw [hlog]
    intro id
    exact List.prefix_rfl

end Kept

/-- No call on the queue is under way when the step destroys it. -/
def DestroySafe (s : Sys) : Act → Prop
  | .call (.mqDestroy id) => ∀ t j, (s.pc t).mqRef ≠ some (id, j)
  | _ => True

instance (s : Sys) (a : Act) : Decidable (s.DestroySafe a) := by
  unfold DestroySafe
  split <;> infer_instance

/-- Steps of `msg_queue_destroy`. -/
theorem destroy_move {id : Int} (h : Move s (.call (.mqDestroy id)) s') :
    ∃ r woken k, msgQueueDestroy id s.kernel = some (r, woken, k) ∧
      s' = { s with kernel := k }.emit (woken.map fun t => .woken t (.mqDestroy id)) := by
  cases h with
  | mqDestroy hc hpc hk => exact ⟨_, _, _, hk, rfl⟩
  | enter hc hpc hp => cases hp
  | refuse hc hpc hcall => cases hcall

theorem Kept.reach {frames : Nat → Registers} {cr3 esp0 timerTicks : Nat} {s₀ s : Sys}
    (h₀ : Sys.boot frames cr3 esp0 timerTicks = some s₀)
    (h : Reach Sys.step (fun s a => s.DestroySafe a) s₀ s) : ∃ log, s.Kept log := by
  apply h.invariant ⟨[], Kept.boot h₀⟩
  intro s a s' hinv hsafe hs
  obtain ⟨log, hkept⟩ := hinv
  by_cases ha : ∀ id, a ≠ .call (.mqDestroy id)
  · exact hkept.step ha hs
  · obtain ⟨id, hid⟩ := not_forall.mp ha
    obtain rfl : a = .call (.mqDestroy id) := not_not.mp hid
    obtain ⟨r, woken, k, hk, rfl⟩ := destroy_move (step_move hs)
    exact hkept.destroy hsafe hk

/-- `t` is inside a call on a queue that is no longer in the slot its lookup found. -/
def Stale (s : Sys) (t : Slot) : Prop :=
  ∃ id j, (s.pc t).mqRef = some (id, j) ∧ (s.kernel.mqs j).id ≠ id

/-- Messages stay with their queue. -/
structure QueuesKept (s : Sys) : Prop where
  /-- A message is deposited only while its queue is live, -/
  deposited : ∀ a s' id, s.step a = some s' → deposits s'.log id ≠ deposits s.log id →
    0 ≤ id ∧ ∃ j, (s.kernel.mqs j).id = id
  /-- and what is received from a queue was sent to it. -/
  received : ∀ id, receipts s.log id <+: deposits s.log id
  /-- A task whose queue has been destroyed is not left asleep, -/
  awake : ∀ t, s.Stale t → asleep s.log t = false
  /-- leaves the slot and the log alone, and returns from its call at the next round. -/
  refused : ∀ t regs s', s.Stale t → s.current = some t → s.step (.cont regs) = some s' →
    s'.kernel.objects.ring = s.kernel.objects.ring ∧ s'.log = s.log ∧
      ((s.pc t).atInt = false → s'.pc t = .user)

theorem Kept.not_stale {log : List Event} (h : s.Kept log) (t : Slot) : ¬ s.Stale t := by
  rintro ⟨id, j, href, hne⟩
  exact hne (h.inv.calls t id j href).2

/-- A step that deposits a message is a step of a call on its queue. -/
theorem Kept.live_of_deposit {log : List Event} {id : Int} (h : s.Kept log)
    (hs : s.step a = some s')
    (hne : SRos.deposits s'.log id ≠ SRos.deposits s.log id) :
    0 ≤ id ∧ ∃ j, (s.kernel.mqs j).id = id := by
  by_cases ha : ∀ id, a ≠ .call (.mqDestroy id)
  · have hcount : 0 ≤ s.kernel.mqCount := h.inv.count
    obtain ⟨es, hm⟩ := move_log hcount ha (step_move hs)
    by_contra hdead
    apply hne
    rw [hm.log, deposits_concat, List.append_right_eq_self]
    apply List.filterMap_eq_nil_iff.mpr
    intro e he
    rcases hm.events e he with hnone | ⟨c, id', j, href, hid, -⟩ | rfl
    · cases e <;> simp_all [Event.mq]
    · obtain ⟨h₀, hj⟩ := h.inv.calls c id' j href
      have hne' : id' ≠ id := by
        rintro rfl
        exact hdead ⟨h₀, j, hj⟩
      cases e <;> simp_all [Event.mq]
    · rfl
  · obtain ⟨id', hid⟩ := not_forall.mp ha
    obtain rfl : a = .call (.mqDestroy id') := not_not.mp hid
    obtain ⟨r, woken, k, -, rfl⟩ := destroy_move (step_move hs)
    refine absurd (deposits_append s.log ?_) hne
    intro e he
    obtain ⟨t, -, rfl⟩ := List.mem_map.mp he
    simp [Event.mq]

end Sys

end SRos
