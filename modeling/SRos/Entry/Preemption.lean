import SRos.Entry.Interrupts

/-!
# Preemption is invisible

In every run: a task that loses the processor goes on, whenever it gets the processor back, with the
registers it has lost; a system call gives back all registers but `eax`, whatever runs before it
returns; and the child of a fork starts with the registers of its parent.
-/

namespace SRos

open X86 Stubs Bytes

/-! ## Frames that are written -/

theorem words_putWords {ws : List Nat} (hws : ∀ w ∈ ws, w < 2 ^ 32) (m : Nat → UInt8) (a : Nat) :
    X86.words (putWords m a ws) a ws.length = ws := by
  induction ws generalizing m a with
  | nil => rfl
  | cons w ws ih =>
      rw [List.length_cons, words_succ, putWords, ih (fun v hv => hws v (List.mem_cons_of_mem _ hv))]
      congr 1
      refine (load32_congr fun b _ hb => ?_).trans (load32_store32_same m a (hws w List.mem_cons_self))
      exact Processor.Sound.putWords_outside ws (.inl hb)

theorem frameAt_putFrame {r : Registers} (hr : ∀ w ∈ frameWords r, w < 2 ^ 32) (m : Nat → UInt8)
    (a : Nat) : frameAt (putFrame m a r) a = r := by
  have hword : ∀ k v, (frameWords r)[k]? = some v → load32 (putFrame m a r) (a + 4 * k) = v :=
    fun k v hk => load32_of_words (words_putWords hr m a) hk
  obtain ⟨gs, fs, es, ds, edi, esi, ebp, esp, ebx, edx, ecx, eax, intNo, errCode, eip, cs, eflags,
    userEsp, userSs⟩ := r
  simp only [frameAt, Registers.mk.injEq]
  exact ⟨hword 0 _ rfl, hword 1 _ rfl, hword 2 _ rfl, hword 3 _ rfl, hword 4 _ rfl, hword 5 _ rfl,
    hword 6 _ rfl, hword 7 _ rfl, hword 8 _ rfl, hword 9 _ rfl, hword 10 _ rfl, hword 11 _ rfl,
    hword 12 _ rfl, hword 13 _ rfl, hword 14 _ rfl, hword 15 _ rfl, hword 16 _ rfl, hword 17 _ rfl,
    hword 18 _ rfl⟩

theorem frameWords_frameAt (m : Nat → UInt8) (a : Nat) : ∀ w ∈ frameWords (frameAt m a), w < 2 ^ 32 := by
  have hwords : frameWords (frameAt m a) = X86.words m a 19 := rfl
  rw [hwords]
  intro w hw
  obtain ⟨i, -, rfl⟩ := List.mem_map.mp hw
  exact load32_lt m _

namespace Processor

variable {L : Image} {x x' : Processor} {c t : Slot} {a : ProcessorAct}

/-! ## Steps -/

theorem Sound.step (h : x.Sound L) (hok : x.Ok L a) (hs : x.step L a = some x') : Sound L x' := by
  cases a with
  | run st =>
      obtain rfl := Option.some.inj hs
      exact h.run hok
  | kernel a => exact h.kernel hok.1 hok.2 hs
  | irq vector own code => exact (h.irq hok hs).1
  | syscall => exact (h.syscall hok hs).1
  | sysret code => exact (h.sysret hok hs).1

theorem Sound.boot {cr3 timerTicks : Nat} {st : X86.State} (hst : Segments L.dpl st.cpu)
    (h : Processor.boot cr3 timerTicks st = some x) : Sound L x := by
  unfold Processor.boot at h
  obtain ⟨sys, hsys, h⟩ := Option.bind_eq_some_iff.mp h
  obtain rfl := Option.some.inj h
  have hboot := hsys
  unfold Sys.boot at hboot
  obtain ⟨sched, hsched, hboot⟩ := Option.bind_eq_some_iff.mp hboot
  obtain ⟨-, hcur, ⟨-, -, -, -, hbase, htop, hesp0⟩, hfree⟩ := schedulerInit_tasks hsched
  have hkernel : sys.kernel.toSched = sched := by
    rw [← Option.some.inj hboot]
    rfl
  have hlive : ∀ t, 0 ≤ (sys.kernel.tasks t).pid → t = 0 := by
    intro t ht
    by_contra hne
    change 0 ≤ (sys.kernel.toSched.tasks t).pid at ht
    rw [hkernel, hfree t hne] at ht
    exact absurd ht (by decide)
  have hcur' : sys.current = some 0 := by
    change sys.kernel.toSched.current = _
    rw [hkernel, hcur]
  refine ⟨⟨_, Sys.Inv.boot_inv hsys⟩, ?_, ?_, hst, ?_⟩
  · intro c hc
    obtain rfl : 0 = c := Option.some.inj (hcur'.symm.trans hc)
    change sys.kernel.toSched.esp0 = (sys.kernel.toSched.tasks 0).kernelStackTop
    rw [hkernel, hesp0, htop]
  · intro t u a ht hu _ _
    rw [hlive t ht, hlive u hu]
  · intro t ht
    obtain rfl := hlive t ht
    refine ⟨.inl ?_, fun hne => absurd hcur' hne, fun f s hcall => by cases hcall⟩
    change (sys.kernel.toSched.tasks 0).kernelStackBase = 0 ∧
      (sys.kernel.toSched.tasks 0).kernelStackTop = 0x20000
    rw [hkernel]
    exact ⟨hbase, htop⟩

theorem Sound.reach {x₀ : Processor} (h₀ : Sound L x₀)
    (h : Reach (Processor.step L) (Processor.Ok L) x₀ x) : Sound L x :=
  h.invariant h₀ fun _ _ _ hx hok hs => hx.step hok hs

theorem kernel_sched {a : Act} (hs : x.kernel L a = some x') :
    KeepsStacks x.sched x'.sched ∨ ∃ kstackPhys t, Sys.newStack a = some kstackPhys ∧
      NewTask { x.sched with frames := frameAt x.st.mem } x'.sched t kstackPhys
        (x.framed.newFrame a) := by
  obtain ⟨hticks, sys, hstep, hcases⟩ := kernel_cases hs
  have hsys : x'.sched = sys.kernel.toSched := by
    rcases hcases with ⟨rfl, -⟩ | ⟨_, _, _, -, -, -, rfl⟩
    · rfl
    · rfl
  rw [hsys]
  cases hnewStack : Sys.newStack a with
  | none =>
      have hkeep := Sys.step_keepsStacks hstep hticks hnewStack
      exact .inl ⟨hkeep.task, hkeep.current, hkeep.esp0, hkeep.nextPid⟩
  | some kstackPhys =>
      rcases Sys.step_newTask hstep hnewStack with hsame | ⟨t, hnew⟩
      · rw [hsame]
        exact .inl ⟨fun _ _ => .refl _, rfl, rfl, rfl⟩
      · exact .inr ⟨kstackPhys, t, rfl, hnew⟩

theorem kernel_live {a : Act} (hs : x.kernel L a = some x') (ht : x.Live t) :
    x'.lost t = x.lost t ∧ x'.calls t = x.calls t := by
  obtain ⟨-, sys, -, hcases⟩ := kernel_cases hs
  rcases hcases with ⟨rfl, -⟩ | ⟨k, u, m, -, hslot, -, rfl⟩
  · exact ⟨rfl, rfl⟩
  · have htu : t ≠ u := by
      rintro rfl
      exact absurd ht (not_le.mpr (taskFindSlot_free_task hslot))
    exact ⟨Function.update_of_ne htu .., Function.update_of_ne htu ..⟩

/-- A step of the kernel may free a slot, or fill one with the next process identifier. -/
theorem kernel_pid {a : Act} (hs : x.kernel L a = some x') :
    x'.sys.current = x.sys.current ∧ x.sched.nextPid ≤ x'.sched.nextPid ∧
      ∀ t, (x'.task t).pid < 0 ∨ (x'.task t).pid = x.sched.nextPid ∨
        (x'.task t).pid = (x.task t).pid := by
  rcases kernel_sched hs with hkeep | ⟨k, u, -, hnew⟩
  · refine ⟨hkeep.current, le_of_eq hkeep.nextPid.symm, fun t => ?_⟩
    by_cases ht : 0 ≤ (x'.sched.tasks t).pid
    · exact .inr (.inr (hkeep.task t ht).pid)
    · exact .inl (not_le.mp ht)
  · refine ⟨hnew.current, ?_, fun t => ?_⟩
    · rw [hnew.nextPid]
      exact Int.le_add_one (le_refl _)
    · by_cases htu : t = u
      · rw [htu]
        exact .inr (.inl hnew.pid)
      · exact .inr (.inr (hnew.others t htu).pid)

/-- What every step leaves of a task that has the process identifier `p` in the end. -/
theorem step_pid {p : Int} (h : x.Sound L) (hok : x.Ok L a) (hp : 0 ≤ p ∧ p < x.sched.nextPid)
    (hs : x.step L a = some x') :
    p < x'.sched.nextPid ∧ ((x'.task t).pid = p → (x.task t).pid = p) := by
  cases a with
  | run st =>
      obtain rfl := Option.some.inj hs
      exact ⟨hp.2, id⟩
  | kernel a =>
      obtain ⟨-, hnext, hpid⟩ := kernel_pid hs
      refine ⟨lt_of_lt_of_le hp.2 hnext, fun ht => ?_⟩
      have hcases := hpid t
      omega
  | irq vector own code =>
      obtain ⟨-, c, n, hirq⟩ := h.irq hok hs
      rw [hirq.nextPid, hirq.pid]
      exact ⟨hp.2, id⟩
  | syscall =>
      obtain ⟨-, hsys, -⟩ := h.syscall hok hs
      unfold sched task
      rw [hsys]
      exact ⟨hp.2, id⟩
  | sysret code =>
      obtain ⟨-, c, f, s, hret⟩ := h.sysret hok hs
      unfold sched task
      rw [hret.sys]
      exact ⟨hp.2, id⟩

/-! ## Tasks that wait for the processor -/

/-- The task `p` in the slot `t` has lost the processor in the state `s`, or is back in it. -/
structure Waiting (L : Image) (t : Slot) (p : Int) (s : X86.State) (x : Processor) : Prop where
  sound : x.Sound L
  pid : 0 ≤ p ∧ p < x.sched.nextPid
  lost : (x.task t).pid = p → x.sys.current ≠ some t → x.lost t = s
  back : (x.task t).pid = p → x.sys.current = some t → GoesOn L x t s

/-- A step that is not the task's. -/
def Away (L : Image) (t : Slot) (x : Processor) (a : ProcessorAct) : Prop :=
  x.Ok L a ∧ x.sys.current ≠ some t

theorem Waiting.step {p : Int} {s : X86.State} (h : x.Waiting L t p s) (ha : Away L t x a)
    (hs : x.step L a = some x') : x'.Waiting L t p s := by
  obtain ⟨hok, haway⟩ := ha
  obtain ⟨hnext, hpid⟩ := step_pid (t := t) h.sound hok h.pid hs
  have hold : (x'.task t).pid = p → x.lost t = s := fun ht => h.lost (hpid ht) haway
  have hlive : (x'.task t).pid = p → x.Live t := fun ht => by
    unfold Live
    rw [hpid ht]
    exact h.pid.1
  have hstay : x'.sys.current = x.sys.current → ((x'.task t).pid = p → x'.lost t = x.lost t) →
      x'.Waiting L t p s := by
    intro hcur hlost
    refine ⟨h.sound.step hok hs, ⟨h.pid.1, hnext⟩, fun ht _ => (hlost ht).trans (hold ht), ?_⟩
    intro _ hback
    exact absurd (hcur.symm.trans hback) haway
  cases a with
  | run st =>
      obtain rfl := Option.some.inj hs
      exact hstay rfl fun _ => rfl
  | kernel a => exact hstay (kernel_pid hs).1 fun ht => (kernel_live hs (hlive ht)).1
  | irq vector own code =>
      obtain ⟨hsound, c, n, hirq⟩ := h.sound.irq hok hs
      have htc : t ≠ c := by
        rintro rfl
        exact haway hirq.current
      refine ⟨hsound, ⟨h.pid.1, hnext⟩, fun ht _ => ?_, fun ht hback => ?_⟩
      · rw [hirq.lost, Function.update_of_ne htc]
        exact hold ht
      · obtain rfl : n = t := Option.some.inj (hirq.goesOn.current.symm.trans hback)
        have hgo := hirq.goesOn
        unfold last at hgo
        rwa [if_neg haway, hold ht] at hgo
  | syscall =>
      obtain ⟨-, hsys, hlost, -⟩ := h.sound.syscall hok hs
      exact hstay (congrArg Sys.current hsys) fun _ => congrFun hlost t
  | sysret code =>
      obtain ⟨-, c, f, s, hret⟩ := h.sound.sysret hok hs
      exact hstay (congrArg Sys.current hret.sys) fun _ => congrFun hret.lost t

theorem Waiting.reach {p : Int} {s : X86.State} (h : x.Waiting L t p s)
    (hrun : Reach (Processor.step L) (Away L t) x x') : x'.Waiting L t p s :=
  hrun.invariant h fun _ _ _ hx ha hs => hx.step ha hs

/-! ## System calls that go on -/

/-- The task `p` in the slot `c` is in the system call with the frame `f`, made in the state `s`. -/
structure Calling (L : Image) (c : Slot) (p : Int) (f : Nat) (s : X86.State) (x : Processor) : Prop where
  sound : x.Sound L
  pid : 0 ≤ p ∧ p < x.sched.nextPid
  call : (x.task c).pid = p → x.calls c = some (f, s)

/-- A step that is not the return of the task's call. -/
def Inside (L : Image) (c : Slot) (x : Processor) (a : ProcessorAct) : Prop :=
  x.Ok L a ∧ (x.sys.current = some c → ∀ code, a ≠ .sysret code)

theorem Calling.step {p : Int} {f : Nat} {s : X86.State} (h : x.Calling L c p f s)
    (ha : Inside L c x a) (hs : x.step L a = some x') : x'.Calling L c p f s := by
  obtain ⟨hok, hin⟩ := ha
  obtain ⟨hnext, hpid⟩ := step_pid (t := c) h.sound hok h.pid hs
  refine ⟨h.sound.step hok hs, ⟨h.pid.1, hnext⟩, fun ht => ?_⟩
  have hcall := h.call (hpid ht)
  rw [← hcall]
  cases a with
  | run st =>
      obtain rfl := Option.some.inj hs
      rfl
  | kernel a =>
      refine (kernel_live hs ?_).2
      unfold Live
      rw [hpid ht]
      exact h.pid.1
  | irq vector own code =>
      obtain ⟨-, d, n, hirq⟩ := h.sound.irq hok hs
      rw [hirq.calls]
  | syscall =>
      obtain ⟨-, -, -, d, -, hnone, hcalls⟩ := h.sound.syscall hok hs
      rw [hcalls]
      refine Function.update_of_ne ?_ ..
      rintro rfl
      rw [hcall] at hnone
      cases hnone
  | sysret code =>
      obtain ⟨-, d, f, s, hret⟩ := h.sound.sysret hok hs
      rw [hret.calls]
      refine Function.update_of_ne ?_ ..
      rintro rfl
      exact hin hret.current code rfl

theorem Calling.reach {p : Int} {f : Nat} {s : X86.State} (h : x.Calling L c p f s)
    (hrun : Reach (Processor.step L) (Inside L c) x x') : x'.Calling L c p f s :=
  hrun.invariant h fun _ _ _ hx ha hs => hx.step ha hs

/-! ## Runs -/

theorem Sound.pid_bounds (h : x.Sound L) (ht : x.Live t) :
    0 ≤ (x.task t).pid ∧ (x.task t).pid < x.sched.nextPid := by
  obtain ⟨ls, hinv⟩ := h.inv
  exact ⟨ht, hinv.ok.pidLt t⟩

/-- A task that an interrupt has stopped waits for the processor. -/
theorem Sound.waiting {vector : Nat} {own : Bool} {code : Code} (h : x.Sound L)
    (hok : x.Ok L (.irq vector own code)) (hs : x.step L (.irq vector own code) = some x')
    (hc : x.sys.current = some c) : x'.Waiting L c (x.task c).pid x.st := by
  obtain ⟨hsound, d, n, hirq⟩ := h.irq hok hs
  obtain rfl : c = d := Option.some.inj (hc.symm.trans hirq.current)
  refine ⟨hsound, hirq.nextPid ▸ h.pid_bounds (h.live hc), fun _ _ => ?_, fun _ hback => ?_⟩
  · rw [hirq.lost, Function.update_self]
  · obtain rfl : n = c := Option.some.inj (hirq.goesOn.current.symm.trans hback)
    have hgo := hirq.goesOn
    unfold last at hgo
    rwa [if_pos hc] at hgo

theorem Sound.calling (h : x.Sound L) (hok : x.Ok L .syscall) (hs : x.step L .syscall = some x')
    (hc : x.sys.current = some c) :
    x'.Calling L c (x.task c).pid (argument x'.st) x.st := by
  obtain ⟨hsound, hsys, -, d, hd, -, hcalls⟩ := h.syscall hok hs
  obtain rfl : c = d := Option.some.inj (hc.symm.trans hd)
  refine ⟨hsound, ?_, fun _ => ?_⟩
  · unfold sched
    rw [hsys]
    exact h.pid_bounds (h.live hc)
  · rw [hcalls, Function.update_self]

variable {x₀ x₁ x₂ x₃ x₄ x₅ : Processor} {cr3 timerTicks : Nat} {st : X86.State}

/-- C functions that touch nothing but what they are to change. -/
def plainCode : Code
  | .irqHandler, (s, e) => some (s, SRos.irqHandler (frameAt s.mem (argument s)).intNo e)
  | .schedulerTick, (s, e) =>
      (SRos.schedulerTick (frameAt s.mem (argument s)).intNo (argument s) e).bind fun (f, e') =>
        if f < 2 ^ 32 then some ({ s with cpu := { s.cpu with eax := word f } }, e') else none
  | _, _ => none

theorem compiled_plainCode (kept : Nat → Nat → Prop) : Compiled kept plainCode := by
  refine ⟨?_, ?_⟩
  · intro s e s' e' h
    obtain ⟨rfl, rfl⟩ := Prod.mk.inj (Option.some.inj h)
    exact ⟨⟨rfl, rfl, rfl, fun _ _ => rfl⟩, rfl⟩
  · intro s e s' e' h
    obtain ⟨⟨f, e₁⟩, htick, h⟩ := Option.bind_eq_some_iff.mp h
    dsimp only at h
    split at h
    · next hf =>
        obtain ⟨rfl, rfl⟩ := Prod.mk.inj (Option.some.inj h)
        refine ⟨⟨rfl, rfl, rfl, fun _ _ => rfl⟩, ?_⟩
        rw [htick]
        exact congrArg (fun f => some (f, e₁)) (UInt32.toNat_ofNat_of_lt' hf).symm
    · cases h

/-- Task 0 has its stacks in the first megabyte. -/
def plainImage : Image where
  isr := fun _ => 0
  tss := 0
  bootStack := fun a => a < 0x100000
  room := fun a _ h => by omega
  low := fun a h => by omega

/-- A user program. -/
def userState : X86.State where
  cpu :=
    { eax := 1, ecx := 2, edx := 3, ebx := 4, esp := 0xE0000000, ebp := 5, esi := 6, edi := 7
      eip := 0x400000, eflags := 0x202, cs := 0x1B, ss := 0x23, ds := 0x23, es := 0x23, fs := 0x23
      gs := 0x23 }
  mem := fun _ => 0

theorem segments_userState : Segments plainImage.dpl userState.cpu := by
  refine ⟨fun r => ?_, fun hcpl => absurd hcpl (by decide)⟩
  cases r <;> decide

/-- Another task is ready, and the running one is in user mode or has the stack of the boot. -/
def mayTick (x : Processor) : Bool :=
  x.sys.kernel.readyHead.isSome && (x.st.cpu.cpl != 0 || x.sys.current.any fun c =>
    (x.task c).kernelStackBase == 0 && decide (80 ≤ x.st.cpu.esp.toNat ∧ x.st.cpu.esp.toNat ≤ 0x100000))

def clock : ProcessorAct := .irq 32 false plainCode

theorem ok_clock (h : x.mayTick = true) : x.Ok plainImage clock := by
  unfold mayTick at h
  simp only [Bool.and_eq_true, Bool.or_eq_true, bne_iff_ne, Option.isSome_iff_ne_none] at h
  obtain ⟨hready, hroom⟩ := h
  refine ⟨by decide, fun _ => rfl, fun c hc hcpl => ?_, fun _ _ => compiled_plainCode _,
    fun _ _ _ _ => hready⟩
  have hown := hroom.resolve_left (fun hne => hne hcpl)
  rw [hc, Option.any_some, Bool.and_eq_true, beq_iff_eq, decide_eq_true_eq] at hown
  obtain ⟨hbase, hesp, hesp'⟩ := hown
  refine ⟨hesp, fun a _ ha => ?_⟩
  unfold Image.area
  rw [if_pos hbase]
  change a < 0x100000
  omega

/-- No task is there but the one that has the stack of the boot. -/
def alone (x : Processor) : Bool :=
  decide (∀ t, 0 ≤ (x.task t).pid → (x.task t).kernelStackBase = 0)

theorem fresh_alone (h : x.alone = true) : x.Fresh plainImage 0x300000 := by
  unfold alone at h
  have hbase := of_decide_eq_true h
  refine ⟨by decide, by decide, fun t ht a ha => ?_⟩
  unfold Image.area at ha
  rw [if_pos (hbase t ht)] at ha
  change a < 0x100000 at ha
  omega

def create : ProcessorAct := .kernel (.call (.create CStr.empty 0x400000 0x300000))

theorem ok_create (h : x.alone = true) : x.Ok plainImage create := by
  refine ⟨trivial, fun k hk => ?_⟩
  obtain rfl := Option.some.inj hk
  exact fresh_alone h

/-- The state behind some steps of the user program and the kernel. -/
def after (as : List ProcessorAct) : Option Processor :=
  (Processor.boot 0 0 userState).bind fun x => as.foldlM (Processor.step plainImage) x

theorem after_nil : ∃ x, Processor.boot 0 0 userState = some x ∧ after [] = some x ∧
    x.alone = true ∧ x.st.cpu.cpl = 3 ∧ x.sys.current = some 0 ∧ (x.task 0).pid = 0 := by
  obtain ⟨x, hx, htest⟩ := (Option.any_eq_true _ (after [])).mp (by
    show (after []).any (fun x => x.alone && x.st.cpu.cpl == 3 && x.sys.current == some 0 &&
      (x.task 0).pid == 0) = true
    decide +kernel)
  obtain ⟨x₀, h₀, heq⟩ := Option.bind_eq_some_iff.mp hx
  obtain rfl := Option.some.inj heq
  simp only [Bool.and_eq_true, beq_iff_eq] at htest
  exact ⟨x₀, h₀, hx, htest.1.1.1, htest.1.1.2, htest.1.2, htest.2⟩

theorem after_step {as : List ProcessorAct} {p : Processor → Bool} (h : after as = some x)
    (ht : (after (as ++ [a])).any p = true) :
    ∃ x', x.step plainImage a = some x' ∧ after (as ++ [a]) = some x' ∧ p x' = true := by
  obtain ⟨x', hx', htest⟩ := (Option.any_eq_true _ _).mp ht
  refine ⟨x', ?_, hx', htest⟩
  obtain ⟨x₀, h₀, hrun⟩ := Option.bind_eq_some_iff.mp h
  obtain ⟨x₀', h₀', hrun'⟩ := Option.bind_eq_some_iff.mp hx'
  obtain rfl : x₀ = x₀' := Option.some.inj (h₀.symm.trans h₀')
  rw [List.foldlM_append, hrun] at hrun'
  simpa using hrun'

/-- The processor that a forked task starts with. -/
theorem fork_lost {dir kstackPhys f : Nat} {s : X86.State} (h : x.Sound L)
    (hc : x.sys.current = some c) (hcall : x.calls c = some (f, s)) (huser : s.cpu.cpl ≠ 0)
    (hs : x.kernel L (.call (.fork f dir kstackPhys)) = some x') (hslot : taskFindSlot x.sched = some t)
    (ht : x'.Live t) : (x'.lost t).cpu = { s.cpu with eax := 0 } := by
  have hpending := ((h.task c (h.live hc)).pending f s hcall).1.cpu
  rcases kernel_sched hs with hkeep | ⟨k, u, hk, hnew⟩
  · have hfree := taskFindSlot_free_task hslot
    have hlive : x.Live t := live_congr (hkeep.task t ht) ht
    exact absurd hlive (not_le.mpr hfree)
  obtain ⟨-, sys, -, hcases⟩ := kernel_cases hs
  rcases hcases with ⟨-, hno⟩ | ⟨k', t', m, hk', hslot', hm, rfl⟩
  · exact absurd hslot (hno k t hk)
  obtain rfl : t = t' := Option.some.inj (hslot.symm.trans hslot')
  obtain rfl : k = k' := Option.some.inj (hk.symm.trans hk')
  have hframes : sys.kernel.frames (initialFrame k) = { frameAt x.st.mem f with eax := 0 } := by
    refine (congrFun hnew.frames (initialFrame k)).trans ?_
    rw [Function.update_self]
    rfl
  have hwords : ∀ w ∈ frameWords { frameAt x.st.mem f with eax := 0 }, w < 2 ^ 32 := by
    have hset : frameWords { frameAt x.st.mem f with eax := 0 } =
        (frameWords (frameAt x.st.mem f)).set 11 0 := rfl
    intro w hw
    rw [hset] at hw
    rcases List.mem_or_eq_of_mem_set hw with hold | rfl
    · exact frameWords_frameAt x.st.mem f w hold
    · decide
  have hframe : frameAt m (initialFrame k) = { frameAt x.st.mem f with eax := 0 } := by
    rw [hm, hframes]
    exact frameAt_putFrame hwords _ _
  have hcs : rpl (selector (frameAt x.st.mem f).cs) ≠ 0 := by
    rw [← @cpl_resume L.dpl x.st.mem f (kernelCpu f), hpending]
    exact huser
  dsimp only
  rw [Function.update_self]
  dsimp only
  rw [hframe, resume_user hcs (cpl_kernelCpu _) (cpl_kernelCpu f), hpending]
  rfl

end Processor

end SRos
