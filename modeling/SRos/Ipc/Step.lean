import SRos.Ipc.System

/-!
# What a step can do

`Move` lists the ways in which a step changes the system, with the point of the kernel code at
which the running task is. Every step is one of them.
-/

namespace SRos

/-- The next instruction of the task is an `int $32`. -/
def Pc.atInt : Pc → Bool
  | .semWaitInt _ _ | .sendInt _ _ _ _ | .recvInt _ _ | .waitInt _ | .exitInt => true
  | _ => false

/-- The point behind the `int $32`; an exiting task has none. -/
def Pc.afterInt : Pc → Pc
  | .semWaitInt id sem => .semWaitDone id sem
  | .sendInt id mq data len => .sendAgain id mq data len
  | .recvInt id mq => .recvAgain id mq
  | .waitInt pid => .waitAgain pid
  | p => p

namespace Sys

/-- `call` looks its object up and goes on at the point `p`. -/
inductive Enters (k : Kernel) : Call → Pc → Prop
  | semWait {id : Int} {sem : Fin maxSems} (h : semLookup id k = some sem) :
      Enters k (.semWait id) (.semWait id sem)
  | semPost {id : Int} {sem : Fin maxSems} (h : semLookup id k = some sem) :
      Enters k (.semPost id) (.semPost id sem)
  | mqSend {id : Int} {mq : Fin maxMsgQueues} {data : Nat → UInt8} {len : Nat}
      (h : mqLookup id k = some mq) :
      Enters k (.mqSend id (some data) len)
        (.send id mq data (if len > msgMaxData then msgMaxData else len))
  | mqRecv {id : Int} {mq : Fin maxMsgQueues} (h : mqLookup id k = some mq) :
      Enters k (.mqRecv id true true) (.recv id mq)

/-- The calls that return at once when they find no object, without a trace. -/
def looksUp : Call → Bool
  | .semPost _ | .mqSend _ _ _ | .mqRecv _ _ _ => true
  | _ => false

inductive Move (s : Sys) : Act → Sys → Prop
  | tick {regs : Nat} {s' : Sys} (ht : s.tick regs = some s') : Move s (.tick regs) s'
  | yield {c : Slot} {regs : Nat} {s' : Sys} (hc : s.current = some c) (hpc : s.pc c = .user)
      (ht : s.tick regs = some s') : Move s (.call (.yield regs)) s'
  | int {c : Slot} {regs : Nat} {s' : Sys} (hc : s.current = some c)
      (hpc : (s.pc c).atInt = true) (ht : (s.setPc c (s.pc c).afterInt).tick regs = some s') :
      Move s (.cont regs) s'
  | create {c : Slot} {name : CStr} {entry kstackPhys : Nat} {s' : Sys} (hc : s.current = some c)
      (hpc : s.pc c = .user)
      (hs : s.spawn (taskCreate name entry kstackPhys s.kernel.toSched) = some s') :
      Move s (.call (.create name entry kstackPhys)) s'
  | fork {c : Slot} {regs newPageDir kstackPhys : Nat} {s' : Sys} (hc : s.current = some c)
      (hpc : s.pc c = .user)
      (hs : s.spawn (taskFork regs newPageDir kstackPhys s.kernel.toSched) = some s') :
      Move s (.call (.fork regs newPageDir kstackPhys)) s'
  | exit {c : Slot} {code : Int} (hc : s.current = some c) (hpc : s.pc c = .user) :
      Move s (.call (.exit code))
        ({ s with kernel := s.kernel.sched (taskExit code) }.setPc c .exitInt)
  | wait {c : Slot} {pid : Int} (hc : s.current = some c) (hpc : s.pc c = .user) :
      Move s (.call (.wait pid)) (s.waitPass c pid)
  | waitAgain {c : Slot} {pid : Int} {regs : Nat} (hc : s.current = some c)
      (hpc : s.pc c = .waitAgain pid) : Move s (.cont regs) (s.waitPass c pid)
  | semCreate {c : Slot} {name : Option CStr} {v id : Int} {k : Kernel} (hc : s.current = some c)
      (hpc : s.pc c = .user) (hk : semCreate name v s.kernel = some (id, k)) :
      Move s (.call (.semCreate name v))
        ({ s with kernel := k }.emit (if id < 0 then [] else [.semCreated id v]))
  | mqCreate {c : Slot} {id : Int} {k : Kernel} (hc : s.current = some c) (hpc : s.pc c = .user)
      (hk : msgQueueCreate s.kernel = some (id, k)) :
      Move s (.call .mqCreate)
        ({ s with kernel := k }.emit (if id < 0 then [] else [.mqCreated id]))
  | enter {c : Slot} {call : Call} {p : Pc} (hc : s.current = some c) (hpc : s.pc c = .user)
      (hp : Enters s.kernel call p) : Move s (.call call) (s.setPc c p)
  | refuseWait {c : Slot} {id : Int} (hc : s.current = some c) (hpc : s.pc c = .user) :
      Move s (.call (.semWait id)) (s.emit [.semWaitReturned c id (-1)])
  | refuse {c : Slot} {call : Call} (hc : s.current = some c) (hpc : s.pc c = .user)
      (hcall : looksUp call = true) : Move s (.call call) s
  | semWait {c : Slot} {id : Int} {sem : Fin maxSems} {regs : Nat} (hc : s.current = some c)
      (hpc : s.pc c = .semWait id sem) : Move s (.cont regs) (s.semWaitStep c id sem)
  | semWaitDone {c : Slot} {id : Int} {sem : Fin maxSems} {regs : Nat} (hc : s.current = some c)
      (hpc : s.pc c = .semWaitDone id sem) :
      Move s (.cont regs) ((s.setPc c .user).emit [.semWaitReturned c id 0])
  | semPost {c : Slot} {id : Int} {sem : Fin maxSems} {regs : Nat} {s' : Sys}
      (hc : s.current = some c) (hpc : s.pc c = .semPost id sem)
      (hs : s.semPostStep c id sem = some s') : Move s (.cont regs) s'
  | send {c : Slot} {id : Int} {mq : Fin maxMsgQueues} {data : Nat → UInt8} {len regs : Nat}
      (hc : s.current = some c)
      (hpc : s.pc c = .send id mq data len ∨ s.pc c = .sendAgain id mq data len) :
      Move s (.cont regs) (s.sendStep c id mq data len)
  | recv {c : Slot} {id : Int} {mq : Fin maxMsgQueues} {regs : Nat} (hc : s.current = some c)
      (hpc : s.pc c = .recv id mq ∨ s.pc c = .recvAgain id mq) :
      Move s (.cont regs) (s.recvStep c id mq)
  | semDestroy {c : Slot} {id r : Int} {woken : List Slot} {k : Kernel} (hc : s.current = some c)
      (hpc : s.pc c = .user) (hk : semDestroy id s.kernel = some (r, woken, k)) :
      Move s (.call (.semDestroy id))
        ({ s with kernel := k }.emit (woken.map fun t => .woken t (.semDestroy id)))
  | mqDestroy {c : Slot} {id r : Int} {woken : List Slot} {k : Kernel} (hc : s.current = some c)
      (hpc : s.pc c = .user) (hk : msgQueueDestroy id s.kernel = some (r, woken, k)) :
      Move s (.call (.mqDestroy id))
        ({ s with kernel := k }.emit (woken.map fun t => .woken t (.mqDestroy id)))

variable {s s' : Sys} {c : Slot}

private theorem call_move {call : Call} (hc : s.current = some c) (hpc : s.pc c = .user)
    (h : s.call c call = some s') : Move s (.call call) s' := by
  cases call with
  | create => exact .create hc hpc h
  | fork => exact .fork hc hpc h
  | exit code => cases h; exact .exit hc hpc
  | wait pid => cases h; exact .wait hc hpc
  | yield => exact .yield hc hpc h
  | semCreate name v =>
      simp only [Sys.call, Option.pure_def, Option.bind_eq_bind, Option.bind_eq_some_iff,
        Option.some.injEq, Prod.exists] at h
      obtain ⟨id, k, hk, rfl⟩ := h
      exact .semCreate hc hpc hk
  | semWait id =>
      cases hl : semLookup id s.kernel with
      | none => simp only [Sys.call, hl] at h; cases h; exact .refuseWait hc hpc
      | some sem => simp only [Sys.call, hl] at h; cases h; exact .enter hc hpc (.semWait hl)
  | semPost id =>
      cases hl : semLookup id s.kernel with
      | none => simp only [Sys.call, hl] at h; cases h; exact .refuse hc hpc rfl
      | some sem => simp only [Sys.call, hl] at h; cases h; exact .enter hc hpc (.semPost hl)
  | semDestroy id =>
      simp only [Sys.call, Option.pure_def, Option.bind_eq_bind, Option.bind_eq_some_iff,
        Option.some.injEq, Prod.exists] at h
      obtain ⟨r, woken, k, hk, rfl⟩ := h
      exact .semDestroy hc hpc hk
  | mqCreate =>
      simp only [Sys.call, Option.pure_def, Option.bind_eq_bind, Option.bind_eq_some_iff,
        Option.some.injEq, Prod.exists] at h
      obtain ⟨id, k, hk, rfl⟩ := h
      exact .mqCreate hc hpc hk
  | mqSend id data len =>
      cases data with
      | none => simp only [Sys.call] at h; cases h; exact .refuse hc hpc rfl
      | some data =>
          cases hl : mqLookup id s.kernel with
          | none => simp only [Sys.call, hl] at h; cases h; exact .refuse hc hpc rfl
          | some mq => simp only [Sys.call, hl] at h; cases h; exact .enter hc hpc (.mqSend hl)
  | mqRecv id buf lenPtr =>
      cases buf <;> cases lenPtr
      case true.true =>
        cases hl : mqLookup id s.kernel with
        | none => simp only [Sys.call, hl, Bool.and_self] at h; cases h; exact .refuse hc hpc rfl
        | some mq =>
            simp only [Sys.call, hl, Bool.and_self] at h
            cases h
            exact .enter hc hpc (.mqRecv hl)
      all_goals
        simp only [Sys.call, Bool.and_false, Bool.and_true] at h
        cases h
        exact .refuse hc hpc rfl
  | mqDestroy id =>
      simp only [Sys.call, Option.pure_def, Option.bind_eq_bind, Option.bind_eq_some_iff,
        Option.some.injEq, Prod.exists] at h
      obtain ⟨r, woken, k, hk, rfl⟩ := h
      exact .mqDestroy hc hpc hk

private theorem setPc_self (s : Sys) (c : Slot) : s.setPc c (s.pc c) = s := by
  rw [setPc, Function.update_eq_self]

private theorem cont_move {regs : Nat} (hc : s.current = some c)
    (h : s.cont c regs = some s') : Move s (.cont regs) s' := by
  have hself := setPc_self s c
  unfold Sys.cont at h
  cases hpc : s.pc c with
  | user => simp [hpc] at h
  | semWait id sem => rw [hpc] at h; cases h; exact .semWait hc hpc
  | semWaitDone id sem => rw [hpc] at h; cases h; exact .semWaitDone hc hpc
  | semPost id sem => rw [hpc] at h; exact .semPost hc hpc h
  | send id mq data len => rw [hpc] at h; cases h; exact .send hc (.inl hpc)
  | sendAgain id mq data len => rw [hpc] at h; cases h; exact .send hc (.inr hpc)
  | recv id mq => rw [hpc] at h; cases h; exact .recv hc (.inl hpc)
  | recvAgain id mq => rw [hpc] at h; cases h; exact .recv hc (.inr hpc)
  | waitAgain pid => rw [hpc] at h; cases h; exact .waitAgain hc hpc
  | exitInt =>
      rw [hpc] at h hself
      refine .int hc (by rw [hpc]; rfl) ?_
      rw [hpc]
      change (s.setPc c .exitInt).tick regs = some s'
      rw [hself]
      exact h
  | semWaitInt id sem => rw [hpc] at h; exact .int hc (by rw [hpc]; rfl) (by rw [hpc]; exact h)
  | sendInt id mq data len => rw [hpc] at h; exact .int hc (by rw [hpc]; rfl) (by rw [hpc]; exact h)
  | recvInt id mq => rw [hpc] at h; exact .int hc (by rw [hpc]; rfl) (by rw [hpc]; exact h)
  | waitInt pid => rw [hpc] at h; exact .int hc (by rw [hpc]; rfl) (by rw [hpc]; exact h)

theorem step_move {a : Act} (h : s.step a = some s') : Move s a s' := by
  unfold Sys.step at h
  cases a with
  | tick regs => exact .tick h
  | call call =>
      cases hc : s.current with
      | none => simp [hc] at h
      | some c =>
          rw [hc] at h
          cases hpc : s.pc c with
          | user =>
              simp only [hpc] at h
              exact call_move hc hpc h
          | _ => simp [hpc] at h
  | cont regs =>
      cases hc : s.current with
      | none => simp [hc] at h
      | some c =>
          rw [hc] at h
          exact cont_move hc h

/-! ## What a switch and a new task leave alone -/

theorem tick_eq {regs : Nat} (h : s.tick regs = some s') :
    ∃ f sched, schedulerTick 32 regs s.kernel.toSched = some (f, sched) ∧
      s' = { s with kernel := { s.kernel with toSched := sched } } := by
  unfold Sys.tick at h
  simp only [Option.pure_def, Option.bind_eq_bind, Option.bind_eq_some_iff, Option.some.injEq,
    Prod.exists] at h
  obtain ⟨f, sched, ht, rfl⟩ := h
  exact ⟨f, sched, ht, rfl⟩

theorem tick_pc {regs : Nat} (h : s.tick regs = some s') : s'.pc = s.pc := by
  obtain ⟨f, sched, -, rfl⟩ := tick_eq h
  rfl

theorem tick_log {regs : Nat} (h : s.tick regs = some s') : s'.log = s.log := by
  obtain ⟨f, sched, -, rfl⟩ := tick_eq h
  rfl

theorem spawn_eq {r : Option (Int × Sched)} (h : s.spawn r = some s') :
    ∃ x sched, r = some (x, sched) ∧ s' = { s with
      kernel := { s.kernel with toSched := sched }
      pc := fun t => if taskFindSlot s.kernel.toSched = some t then .user else s.pc t } := by
  unfold Sys.spawn at h
  simp only [Option.pure_def, Option.bind_eq_bind, Option.bind_eq_some_iff, Option.some.injEq,
    Prod.exists] at h
  obtain ⟨x, sched, hr, rfl⟩ := h
  exact ⟨x, sched, hr, rfl⟩

theorem spawn_log {r : Option (Int × Sched)} (h : s.spawn r = some s') : s'.log = s.log := by
  obtain ⟨x, sched, -, rfl⟩ := spawn_eq h
  rfl

theorem waitPass_log (s : Sys) (c : Slot) (pid : Int) : (s.waitPass c pid).log = s.log := by
  unfold Sys.waitPass
  split <;> rfl

end Sys

end SRos
