import SRos.Ipc.Model

/-!
# Kernel objects without their wait lists

`Kernel.objects` is what a semaphore or a message queue holds besides its wait lists. Blocking
a task and waking tasks leaves it as it is.
-/

namespace SRos

/-- The fields of `msg_queue_t` in front of its wait lists. -/
structure Ring where
  id : Int
  msgs : Nat → Message
  head : Nat
  tail : Nat
  count : Nat

def MsgQueue.ring (m : MsgQueue) : Ring := ⟨m.id, m.msgs, m.head, m.tail, m.count⟩

namespace Ring

def deposit (r : Ring) (data : Nat → UInt8) (len : Nat) : Ring :=
  { r with
    msgs := Function.update r.msgs r.tail { len := len, data := memcpy (r.msgs r.tail).data data len }
    tail := (r.tail + 1) % msgQueueSize
    count := r.count + 1 }

def remove (r : Ring) : Ring :=
  { r with head := (r.head + 1) % msgQueueSize, count := r.count - 1 }

end Ring

theorem MsgQueue.ring_deposit (m : MsgQueue) (data : Nat → UInt8) (len : Nat) :
    (m.deposit data len).ring = m.ring.deposit data len := rfl

theorem MsgQueue.ring_remove (m : MsgQueue) : m.remove.ring = m.ring.remove := rfl

structure Objects where
  semId : Fin maxSems → Int
  semValue : Fin maxSems → Int
  semCount : Int
  ring : Fin maxMsgQueues → Ring
  mqCount : Int

def Kernel.objects (k : Kernel) : Objects where
  semId := fun i => (k.sems i).id
  semValue := fun i => (k.sems i).value
  semCount := k.semCount
  ring := fun j => (k.mqs j).ring
  mqCount := k.mqCount

/-- A component of a table after one entry has been rewritten. -/
theorem comp_update {ι α β : Type} [DecidableEq ι] (g : ι → α) (i : ι) (a : α) (f : α → β) :
    (fun j => f (Function.update g i a j)) = Function.update (fun j => f (g j)) i (f a) := by
  funext j
  by_cases h : j = i
  · subst h; simp
  · simp [h]

theorem objects_setSem (k : Kernel) (i : Fin maxSems) (f : Sem → Sem) :
    (k.setSem i f).objects =
      { k.objects with
        semId := Function.update k.objects.semId i (f (k.sems i)).id
        semValue := Function.update k.objects.semValue i (f (k.sems i)).value } := by
  simp only [Kernel.objects, Kernel.setSem, comp_update k.sems i _ Sem.id,
    comp_update k.sems i _ Sem.value]

/-- Writing the value of a semaphore. -/
theorem objects_setValue (k : Kernel) (i : Fin maxSems) (v : Int) :
    (k.setSem i fun m => { m with value := v }).objects =
      { k.objects with semValue := Function.update k.objects.semValue i v } := by
  rw [objects_setSem]
  change Objects.mk (Function.update k.objects.semId i (k.objects.semId i)) _ _ _ _ = _
  rw [Function.update_eq_self]

theorem objects_setMq (k : Kernel) (j : Fin maxMsgQueues) (f : MsgQueue → MsgQueue) :
    (k.setMq j f).objects =
      { k.objects with ring := Function.update k.objects.ring j (f (k.mqs j)).ring } := by
  simp only [Kernel.objects, Kernel.setMq, comp_update k.mqs j _ MsgQueue.ring]

@[simp] theorem objects_sched (k : Kernel) (f : Sched → Sched) :
    (k.sched f).objects = k.objects := rfl

@[simp] theorem objects_setWait (k : Kernel) (q : WaitQ) (h t : Option Slot) :
    (k.setWait q h t).objects = k.objects := by
  cases q with
  | sem i =>
      rw [Kernel.setWait, objects_setSem]
      change Objects.mk (Function.update k.objects.semId i (k.objects.semId i))
        (Function.update k.objects.semValue i (k.objects.semValue i)) _ _ _ = _
      rw [Function.update_eq_self, Function.update_eq_self]
  | recv j | send j =>
      rw [Kernel.setWait, objects_setMq]
      change Objects.mk _ _ _ (Function.update k.objects.ring j (k.objects.ring j)) _ = _
      rw [Function.update_eq_self]

@[simp] theorem objects_waitEnqueue (k : Kernel) (q : WaitQ) (t : Slot) :
    (waitEnqueue q t k).objects = k.objects := by
  unfold waitEnqueue
  dsimp only
  split <;> simp

@[simp] theorem objects_blockOn (k : Kernel) (q : WaitQ) (c : Slot) :
    (blockOn q c k).objects = k.objects := by simp [blockOn]

theorem objects_waitDequeue {k k' : Kernel} {q : WaitQ} {t : Slot}
    (h : waitDequeue q k = some (t, k')) : k'.objects = k.objects := by
  unfold waitDequeue at h
  split at h
  · cases h
  · simp only [Option.some.injEq, Prod.mk.injEq] at h
    obtain ⟨-, rfl⟩ := h
    simp

@[simp] theorem objects_wakeFirst (k : Kernel) (q : WaitQ) :
    (wakeFirst q k).2.objects = k.objects := by
  unfold wakeFirst
  split
  · rfl
  · next h =>
      rw [objects_sched]
      exact objects_waitDequeue h

theorem objects_drain {q : WaitQ} {fuel : Nat} {k k' : Kernel} {ts : List Slot}
    (h : drain q fuel k = some (ts, k')) : k'.objects = k.objects := by
  induction fuel generalizing k ts with
  | zero => cases h
  | succ fuel ih =>
      unfold drain at h
      split at h
      · simp only [Option.some.injEq, Prod.mk.injEq] at h
        obtain ⟨-, rfl⟩ := h
        simp
      · simp only [Option.map_eq_some_iff, Prod.mk.injEq, Prod.exists] at h
        obtain ⟨ts', k₁, hd, -, rfl⟩ := h
        rw [ih hd]
        simp

end SRos
