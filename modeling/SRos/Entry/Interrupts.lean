import SRos.Entry.Saved

/-!
# Interrupts, system calls and the tasks they hit

An interrupt leaves the running task in a frame on its own stack, gives the processor to the task
that `scheduler_tick` picks, and that task goes on with the registers that it has lost.
-/

namespace SRos

open X86 Stubs Bytes

theorem selector_idtInit {isr : Nat → UInt32} {vector : Nat}
    (h : 32 ≤ vector ∧ vector < 48 ∨ vector = 128) : (idtInit isr vector).gate.selector = 0x08 := by
  unfold idtInit
  split
  · exact congrArg Gate.selector (gate_idtSetGate _ _ _)
  · next hout =>
      have heq : vector = 128 := h.resolve_left fun hin => hout (.inr hin)
      rw [if_pos heq]
      exact congrArg Gate.selector (gate_idtSetGate _ _ _)

namespace Processor

variable {L : Image} {x x' : Processor} {c : Slot} {vector : Nat} {code : Code}

/-- The processor on the stack on which the kernel is entered. -/
def kstack (x : Processor) : X86.State := kernelStack 0x10 (word x.sched.esp0) x.st

theorem kstack_kernel (h : x.st.cpu.cpl = 0) : x.kstack = x.st := if_pos h

namespace Sound

theorem kstack_ss (h : x.Sound L) : x.kstack.cpu.ss = 0x10 := by
  unfold kstack kernelStack
  split
  · next hcpl => exact h.segments.kernel hcpl
  · rfl

theorem kstack_room (h : x.Sound L) (hc : x.sys.current = some c)
    (hroom : x.st.cpu.cpl = 0 → x.Room L c) :
    80 ≤ x.kstack.cpu.esp.toNat ∧ ∀ a, x.kstack.cpu.esp.toNat - 80 ≤ a →
      a < x.kstack.cpu.esp.toNat → L.area (x.task c) a := by
  by_cases hcpl : x.st.cpu.cpl = 0
  · rw [kstack_kernel hcpl]
    exact hroom hcpl
  · obtain ⟨hlow, hlt, harea⟩ := (h.task c (h.live hc)).stack.room (L := L)
    have hesp : x.kstack.cpu.esp.toNat = (x.task c).kernelStackTop := by
      unfold kstack kernelStack
      rw [if_neg hcpl, ← h.esp0 c hc]
      exact UInt32.toNat_ofNat_of_lt' (h.esp0 c hc ▸ hlt)
    rw [hesp]
    exact ⟨hlow, harea⟩

end Sound

theorem Sound.not_others {a : Nat} (h : x.Sound L) (hc : x.sys.current = some c)
    (ha : L.area (x.task c) a) : ¬ x.Others L a := by
  rintro ⟨t, ht, htc, hat⟩
  have heq := h.apart t c a ht (h.live hc) hat ha
  rw [heq] at htc
  exact htc hc

/-- The argument of a function lies below what the function keeps. -/
theorem Sound.kept_room {f : Nat} (h : x.Sound L) (hc : x.sys.current = some c)
    (harg : ∀ a, f - 4 ≤ a → a < f → L.area (x.task c) a) :
    ∀ a, x.Kept L c f a → a < f - 4 ∨ f ≤ a := by
  rintro a (hother | ⟨-, ha⟩)
  · by_contra hin
    exact h.not_others hc (harg a (by omega) (by omega)) hother
  · exact .inr ha

/-- The frame `f` of an interrupt lies on the stack of the running task, with room for an argument
below. -/
structure Framed (L : Image) (x : Processor) (c : Slot) (vector f : Nat) (m : Nat → UInt8) : Prop where
  saved : Saved L.dpl m (L.area (x.task c)) f x.st
  intNo : (frameAt m f).intNo = vector
  below : f + 68 ≤ x.kstack.cpu.esp.toNat
  argument : 4 ≤ f ∧ ∀ a, f - 4 ≤ a → a < f → L.area (x.task c) a
  keep : ∀ a, x.Others L a ∨ L.area (x.task c) a ∧ x.kstack.cpu.esp.toNat ≤ a → m a = x.st.mem a

theorem Framed.congr {f : Nat} {m m' : Nat → UInt8} (h : Framed L x c vector f m)
    (hm : ∀ a, x.Kept L c f a → m' a = m a) : Framed L x c vector f m' := by
  have hbelow := h.below
  have hpos := frameSize_pos m f
  have hframe : ∀ a, f ≤ a → a < f + frameSize m f → m' a = m a :=
    fun a ha ha' => hm a (.inr ⟨h.saved.inside a ha ha', ha⟩)
  have hsame : SameFrame m m' f := fun a ha ha' _ => hframe a ha ha'
  refine ⟨⟨?_, ?_, ?_⟩, ?_, hbelow, h.argument, ?_⟩
  · rw [hsame.size]
    exact h.saved.inside
  · rw [resume_sameWords hframe (cpl_kernelCpu f)]
    exact h.saved.cpu
  · intro hcpl a ha hesp
    rw [kstack_kernel hcpl] at hbelow
    rw [hm a (.inr ⟨ha, by omega⟩)]
    exact h.saved.stack hcpl a ha hesp
  · rw [← h.intNo]
    exact hsame.load (i := 48) (by omega) (by omega)
  · intro a ha
    rw [hm a (ha.imp_right fun ha => ⟨ha.1, by omega⟩)]
    exact h.keep a ha

theorem Framed.others {f a : Nat} {m : Nat → UInt8} {t : Slot} (h : Framed L x c vector f m)
    (hc : x.sys.current = some c) (ht : x.Live t) (htc : t ≠ c) (ha : L.area (x.task t) a) :
    m a = x.st.mem a := by
  refine h.keep a (.inl ⟨t, ht, ?_, ha⟩)
  rw [hc]
  exact fun heq => htc (Option.some.inj heq).symm

/-- The frame of an interrupt is the frame of a call that has just been made. -/
theorem Framed.pending {f : Nat} {m : Nat → UInt8}
    (h : Framed L x c 128 f m) : Pending L.dpl m (L.area (x.task c)) f x.st := by
  refine ⟨h.saved.inside, h.argument, ?_, ?_, h.intNo⟩
  · intro hcpl
    have hbelow := h.below
    rw [kstack_kernel hcpl] at hbelow
    exact ⟨hbelow, h.saved.stack hcpl⟩
  · have heax := congrArg Cpu.eax h.saved.cpu
    rw [eax_resume] at heax
    rw [heax]
    exact h.saved.cpu

/-- The stub has saved the registers of the running task. -/
theorem Sound.framed {s : X86.State} (h : x.Sound L) (hc : x.sys.current = some c)
    (hroom : x.st.cpu.cpl = 0 → x.Room L c) (hvector : vector < 2 ^ 32)
    (hs : Entered (word vector) x.st x.kstack s) :
    Framed L x c vector s.cpu.esp.toNat s.mem := by
  obtain ⟨hlow, harea⟩ := h.kstack_room hc hroom
  have hsize := frameSize_entered hs
  have hle := frameSize_le s.mem s.cpu.esp.toNat
  have hpos := frameSize_pos s.mem s.cpu.esp.toNat
  refine ⟨⟨?_, ?_, ?_⟩, ?_, by omega, ⟨by omega, ?_⟩, ?_⟩
  · intro a ha ha'
    exact harea a (by omega) (by omega)
  · exact resume_entered hs h.segments
  · intro hcpl a ha hesp
    rw [kstack_kernel hcpl] at hs
    exact hs.keep a (.inr hesp)
  · rw [hs.intNo]
    exact UInt32.toNat_ofNat_of_lt' hvector
  · intro a ha ha'
    exact harea a (by omega) (by omega)
  · rintro a (hother | ⟨-, ha⟩)
    · apply hs.keep
      by_contra hin
      exact h.not_others hc (harea a (by omega) (by omega)) hother
    · exact hs.keep a (.inr ha)

/-- The stub has entered the kernel. -/
theorem Sound.run_enter {E : Type} {call : CFn → X86.State × E → Option (X86.State × E)} (e : E)
    (h : x.Sound L) (hc : x.sys.current = some c) (hroom : x.st.cpu.cpl = 0 → x.Room L c)
    (hvector : 32 ≤ vector ∧ vector < 48 ∨ vector = 128) :
    ∃ s, X86.run L.dpl call (isrNoErrCode (word vector) ++ saveRegisters) (x.enter L vector, e) =
        some (s, e) ∧ Framed L x c vector s.cpu.esp.toNat s.mem ∧ s.cpu.ss = 0x10 ∧
      s.cpu.cpl = 0 := by
  have hsel := @selector_idtInit L.isr vector hvector
  have hrpl : rpl (idtInit L.isr vector).gate.selector = 0 := by
    rw [hsel]
    decide
  have hlow := (h.kstack_room hc hroom).1
  obtain ⟨s, hrun, hent, hss, hcs⟩ := @run_entry L.dpl E call (idtInit L.isr vector).gate x.st e 0x10
    (word x.sched.esp0) (word vector) hrpl (by change 76 ≤ x.kstack.cpu.esp.toNat; omega)
  exact ⟨s, hrun, h.framed hc hroom (by omega) hent, hss.trans h.kstack_ss,
    (congrArg rpl hcs).trans hrpl⟩

/-- `scheduler_tick` has returned, with the interrupted task in the frame at the stack pointer. -/
structure Ticked (L : Image) (x : Processor) (c : Slot) (vector : Nat) (s : X86.State) (e e' : Sched) :
    Prop where
  ss : s.cpu.ss = 0x10
  cpl : s.cpu.cpl = 0
  framed : Framed L x c vector s.cpu.esp.toNat s.mem
  tick : schedulerTick vector s.cpu.esp.toNat e = some (s.cpu.eax.toNat, e')

theorem Framed.ticked {s s' : X86.State} {e e' : Sched} (h : Framed L x c vector s.cpu.esp.toNat s.mem)
    (hroom : ∀ a, x.Kept L c s.cpu.esp.toNat a → a < s.cpu.esp.toNat - 4 ∨ s.cpu.esp.toNat ≤ a)
    (hss : s.cpu.ss = 0x10) (hcpl : s.cpu.cpl = 0) (hcode : Compiled (x.Kept L c) code)
    (hrun : X86.run L.dpl code (callOnFrame .schedulerTick) (s, e) = some (s', e')) :
    Ticked L x c vector s' e e' := by
  obtain ⟨hret, htick⟩ := hcode.run_schedulerTick h.argument.1 hroom hrun
  rw [h.intNo, ← hret.esp] at htick
  refine ⟨hret.ss.trans hss, (congrArg rpl hret.cs).trans hcpl, ?_, htick⟩
  rw [hret.esp]
  exact h.congr hret.mem

theorem Framed.handled {s s' : X86.State} {e e' : Sched} (h : Framed L x c vector s.cpu.esp.toNat s.mem)
    (hroom : ∀ a, x.Kept L c s.cpu.esp.toNat a → a < s.cpu.esp.toNat - 4 ∨ s.cpu.esp.toNat ≤ a)
    (hcode : Compiled (x.Kept L c) code)
    (hrun : X86.run L.dpl code (callOnFrame .irqHandler) (s, e) = some (s', e')) :
    Framed L x c vector s'.cpu.esp.toNat s'.mem ∧ s'.cpu.ss = s.cpu.ss ∧
      s'.cpu.cpl = s.cpu.cpl ∧ e' = irqHandler vector e := by
  obtain ⟨hret, he⟩ := hcode.run_irqHandler h.argument.1 hroom hrun
  rw [h.intNo] at he
  refine ⟨?_, hret.ss, congrArg rpl hret.cs, he⟩
  rw [hret.esp]
  exact h.congr hret.mem

/-- What an interrupt does up to its switch. -/
theorem Sound.irq_cases {own : Bool} (h : x.Sound L) (hok : x.Takes L vector own code)
    (hs : x.irq L vector own code = some x') :
    ∃ c sys s, x.sys.current = some c ∧
      (own = false ∧ sys = x.sys ∨
        own = true ∧ (x.sys.pc c).atInt = true ∧ sys = x.sys.setPc c (x.sys.pc c).afterInt) ∧
      Ticked L x c vector s (irqHandler vector x.sched) x'.sched ∧
      X86.run L.dpl code (.movEspEax :: restoreRegisters) (s, x'.sched) = some (x'.st, x'.sched) ∧
      x' = ⟨setSched sys x'.sched, x'.st, Function.update x.lost c x.st, x.calls⟩ := by
  obtain ⟨c, hc, hs⟩ := Option.bind_eq_some_iff.mp hs
  obtain ⟨sys, hsys, hs⟩ := Option.bind_eq_some_iff.mp hs
  obtain ⟨⟨st, sched⟩, hrun, hs⟩ := Option.bind_eq_some_iff.mp hs
  obtain rfl := Option.some.inj hs
  have hprog : isrNoErrCode (word vector) ++ Stubs.irqCommon =
      (isrNoErrCode (word vector) ++ saveRegisters) ++ (callOnFrame .irqHandler ++
        (callOnFrame .schedulerTick ++ .movEspEax :: restoreRegisters)) := by
    unfold Stubs.irqCommon
    simp only [List.append_assoc]
  obtain ⟨s₁, hrun₁, hframed₁, hss₁, hcpl₁⟩ := @run_enter L x c vector Sched code x.sched h hc
    (hok.room c hc) (.inl hok.range)
  rw [hprog, run_append, hrun₁, Option.bind_some, run_append] at hrun
  obtain ⟨⟨s₂, e₂⟩, hrun₂, hrun⟩ := Option.bind_eq_some_iff.mp hrun
  obtain ⟨hframed₂, hss₂, hcpl₂, rfl⟩ := hframed₁.handled (h.kept_room hc hframed₁.argument.2)
    (hok.compiled c hc) hrun₂
  rw [run_append] at hrun
  obtain ⟨⟨s₃, e₃⟩, hrun₃, hrun⟩ := Option.bind_eq_some_iff.mp hrun
  have hticked := hframed₂.ticked (h.kept_room hc hframed₂.argument.2) (hss₂.trans hss₁)
    (hcpl₂.trans hcpl₁) (hok.compiled c hc) hrun₃
  obtain rfl := run_switch_env hrun
  refine ⟨c, sys, s₃, hc, ?_, hticked, hrun, rfl⟩
  unfold passInt at hsys
  split at hsys
  · next hown =>
      split at hsys
      · next hat => exact .inr ⟨hown, hat, (Option.some.inj hsys).symm⟩
      · cases hsys
  · next hown => exact .inl ⟨by simpa using hown, (Option.some.inj hsys).symm⟩

/-! ## The switch -/

/-- The scheduler gives the processor from `c` to `n`, from the frame `f` to the frame `g`. -/
structure Dispatched (s s' : Sched) (c n : Slot) (f g : Nat) : Prop where
  current : s'.current = some n
  pid : ∀ t, (s'.tasks t).pid = (s.tasks t).pid
  base : ∀ t, (s'.tasks t).kernelStackBase = (s.tasks t).kernelStackBase
  top : ∀ t, (s'.tasks t).kernelStackTop = (s.tasks t).kernelStackTop
  saved : n ≠ c → (s'.tasks c).kernelEsp = f
  others : ∀ t, t ≠ c → (s'.tasks t).kernelEsp = (s.tasks t).kernelEsp
  frame : g = if n = c then f else (s.tasks n).kernelEsp
  esp0 : s'.esp0 = (s.tasks n).kernelStackTop
  nextPid : s'.nextPid = s.nextPid

theorem schedulerTick_dispatched {s s' : Sched} {f g : Nat} (hc : s.current = some c)
    (hesp0 : s.esp0 = (s.tasks c).kernelStackTop)
    (h : schedulerTick vector f (irqHandler vector s) = some (g, s')) :
    ∃ n, Dispatched s s' c n f g := by
  unfold irqHandler at h
  split at h
  · next hvector =>
      rw [hvector] at h
      obtain ⟨n, hn⟩ := schedulerTick_resumes (s := timerHandler s) hc h
      obtain ⟨hsaved, hothers, htop⟩ := hn.same.saved
      have hticked := schedulerTick_ticked h
      refine ⟨n, hn.current, hticked.quiet.pid, hticked.quiet.stack, htop, fun _ => hsaved, hothers,
        ?_, ?_, hticked.counts.nextPid⟩
      · rw [hn.frame]
        by_cases hnc : n = c
        · rw [if_pos hnc, hnc]
          dsimp only
          rw [Function.update_self]
        · rw [if_neg hnc]
          dsimp only
          rw [Function.update_of_ne hnc]
          rfl
      · rcases hn.esp0 with ⟨rfl, hsame⟩ | hswitch
        · exact hsame.trans hesp0
        · rw [hswitch]
          dsimp only
          by_cases hnc : n = c
          · rw [hnc, Function.update_self]
            rfl
          · rw [Function.update_of_ne hnc]
            rfl
  · next hvector =>
      unfold schedulerTick at h
      rw [if_pos hvector] at h
      obtain ⟨rfl, rfl⟩ := Prod.mk.inj (Option.some.inj h)
      exact ⟨c, hc, fun _ => rfl, fun _ => rfl, fun _ => rfl, fun hne => absurd rfl hne,
        fun _ _ => rfl, (if_pos rfl).symm, hesp0, rfl⟩

theorem cont_atInt {s : Sys} {regs : Nat} (h : (s.pc c).atInt = true) :
    s.cont c regs = (s.setPc c (s.pc c).afterInt).tick regs := by
  unfold Sys.cont
  cases hpc : s.pc c with
  | exitInt =>
      have hself : s.setPc c .exitInt = s := by
        rw [← hpc, Sys.setPc, Function.update_eq_self]
      change s.tick regs = (s.setPc c .exitInt).tick regs
      rw [hself]
  | semWaitInt id sem => rfl
  | sendInt id mq data len => rfl
  | recvInt id mq => rfl
  | waitInt pid => rfl
  | _ =>
      rw [hpc] at h
      cases h

/-- The kernel's invariant on the way of an interrupt. -/
theorem Sound.inv_irq {own : Bool} {sys : Sys} {sched : Sched} {f g : Nat} (h : x.Sound L)
    (hok : x.Takes L vector own code) (hc : x.sys.current = some c)
    (hsys : own = false ∧ sys = x.sys ∨
      own = true ∧ (x.sys.pc c).atInt = true ∧ sys = x.sys.setPc c (x.sys.pc c).afterInt)
    (htick : schedulerTick vector f (irqHandler vector x.sched) = some (g, sched)) :
    ∃ ls, (setSched sys sched).Inv ls := by
  obtain ⟨ls, hinv⟩ := h.inv
  by_cases hvector : vector = 32
  · rw [hvector] at htick
    have hinv' : (setSched x.sys (timerHandler x.sched)).Inv ls := ⟨hinv.ok, hinv.atInt⟩
    have hsafe : ∀ a, (setSched x.sys (timerHandler x.sched)).TickSafe a := by
      intro a _ d hd hblocked
      obtain rfl : c = d := Option.some.inj (hc.symm.trans hd)
      exact hok.safe hvector c hc hblocked
    have hrun : ∀ pc, Sys.tick f (setSched { x.sys with pc } (timerHandler x.sched)) =
        some (setSched { x.sys with pc } sched) := by
      intro pc
      change (schedulerTick 32 f (irqHandler 32 x.sched)).bind _ = _
      rw [htick]
      rfl
    rcases hsys with ⟨-, rfl⟩ | ⟨-, hat, rfl⟩
    · exact hinv'.step (a := .tick f) (hsafe _) trivial (hrun x.sys.pc)
    · refine hinv'.step (a := .cont f) (hsafe _) trivial ?_
      have hcont := @cont_atInt c (setSched x.sys (timerHandler x.sched)) f hat
      have hcur : (setSched x.sys (timerHandler x.sched)).current = some c := hc
      unfold Sys.step
      rw [hcur]
      exact hcont.trans (hrun (Function.update x.sys.pc c (x.sys.pc c).afterInt))
  · unfold schedulerTick irqHandler at htick
    rw [if_pos hvector, if_neg hvector] at htick
    obtain ⟨-, rfl⟩ := Prod.mk.inj (Option.some.inj htick)
    rcases hsys with ⟨-, rfl⟩ | ⟨hown, -, -⟩
    · exact ⟨ls, hinv⟩
    · exact absurd (hok.timer hown) hvector

/-- The running task goes on where it was in the state `s`: with its registers, and in the kernel
with its stack. -/
structure GoesOn (L : Image) (x : Processor) (t : Slot) (s : X86.State) : Prop where
  current : x.sys.current = some t
  cpu : x.st.cpu = s.cpu
  stack : s.cpu.cpl = 0 → ∀ a, L.area (x.task t) a → s.cpu.esp.toNat ≤ a → x.st.mem a = s.mem a

/-- The result of a system call in a state. -/
def withEax (s : X86.State) (v : UInt32) : X86.State := { s with cpu := { s.cpu with eax := v } }

theorem last_eq (hc : x.sys.current = some c) (t : Slot) :
    x.last t = if t = c then x.st else x.lost t := by
  unfold last
  by_cases htc : t = c
  · rw [if_pos htc, if_pos (hc.trans (congrArg some htc.symm))]
  · rw [if_neg htc, if_neg]
    rw [hc]
    exact fun heq => htc (Option.some.inj heq).symm

/-- What an interrupt leaves behind. -/
structure Interrupted (L : Image) (x x' : Processor) (c n : Slot) : Prop where
  current : x.sys.current = some c
  goesOn : GoesOn L x' n (x.last n)
  lost : x'.lost = Function.update x.lost c x.st
  calls : x'.calls = x.calls
  pid : ∀ t, (x'.task t).pid = (x.task t).pid
  base : ∀ t, (x'.task t).kernelStackBase = (x.task t).kernelStackBase
  nextPid : x'.sched.nextPid = x.sched.nextPid

namespace Sound

/-- The frame that is resumed lies in memory that has addresses. -/
theorem frame_low {t : Slot} {f : Nat} {m : Nat → UInt8} {s : X86.State} (h : x.Sound L)
    (ht : x.Live t) (hsaved : Saved L.dpl m (L.area (x.task t)) f s) : f + 72 < 2 ^ 32 := by
  have hpos := frameSize_pos m f
  have hlow := (h.task t ht).stack.low (hsaved.inside f (by omega) (by omega))
  omega

/-- With the interrupted task in its frame, every task is in one. -/
theorem saved_framed {f : Nat} {m : Nat → UInt8} {t : Slot} (h : x.Sound L)
    (hc : x.sys.current = some c) (hframed : Framed L x c vector f m) (ht : x.Live t) :
    Saved L.dpl m (L.area (x.task t)) (if t = c then f else (x.task t).kernelEsp) (x.last t) := by
  rw [last_eq hc]
  by_cases htc : t = c
  · rw [if_pos htc, if_pos htc, htc]
    exact hframed.saved
  · rw [if_neg htc, if_neg htc]
    refine ((h.task t ht).saved ?_).congr fun a ha => hframed.others hc ht htc ha
    rw [hc]
    exact fun heq => htc (Option.some.inj heq).symm

end Sound

/-- An interrupt has left `c` in the frame `f` and has resumed the frame `g` of `n`. -/
structure Switched (L : Image) (x x' : Processor) (c n : Slot) (vector f g : Nat) : Prop where
  current : x.sys.current = some c
  target : x.Live n
  inv : ∃ ls, x'.sys.Inv ls
  dispatched : Dispatched x.sched x'.sched c n f g
  framed : Framed L x c vector f x'.st.mem
  cpu : x'.st.cpu = resume L.dpl (frameAt x'.st.mem g) (kernelCpu g)
  lost : x'.lost = Function.update x.lost c x.st
  calls : x'.calls = x.calls

theorem Sound.switched {own : Bool} (h : x.Sound L) (hok : x.Takes L vector own code)
    (hs : x.irq L vector own code = some x') : ∃ c n f g, Switched L x x' c n vector f g := by
  obtain ⟨c, sys, s, hc, hsys, hticked, hrun, hx'⟩ := h.irq_cases hok hs
  obtain ⟨n, hn⟩ := schedulerTick_dispatched hc (h.esp0 c hc) hticked.tick
  have hinv := h.inv_irq hok hc hsys hticked.tick
  have hlive : x.Live n := by
    obtain ⟨ls, hinv⟩ := hinv
    obtain ⟨n', hn', hpos, -⟩ := hinv.ok.current
    obtain rfl : n' = n := Option.some.inj (hn'.symm.trans hn.current)
    have hpid : (x'.task n').pid = (x.task n').pid := hn.pid n'
    unfold Live
    rw [← hpid]
    exact hpos
  have hsaved := h.saved_framed hc hticked.framed hlive
  have hframe := hn.frame
  change s.cpu.eax.toNat = if n = c then s.cpu.esp.toNat else (x.task n).kernelEsp at hframe
  rw [← hframe] at hsaved
  rw [run_switch hticked.ss hticked.cpl (h.frame_low hlive hsaved)] at hrun
  have hst := (Prod.mk.inj (Option.some.inj hrun)).1
  have hmem : x'.st.mem = s.mem := by rw [← hst]
  refine ⟨c, n, s.cpu.esp.toNat, s.cpu.eax.toNat, hc, hlive, ?_, hn, ?_, ?_, ?_, ?_⟩
  · rw [hx']
    exact hinv
  · rw [hmem]
    exact hticked.framed
  · rw [← hst]
  · rw [hx']
  · rw [hx']

namespace Switched

variable {n t : Slot} {f g : Nat}

theorem live (h : Switched L x x' c n vector f g) (ht : x'.Live t) : x.Live t := by
  have hpid : (x'.task t).pid = (x.task t).pid := h.dispatched.pid t
  unfold Live at ht ⊢
  rwa [← hpid]

theorem area (h : Switched L x x' c n vector f g) (t : Slot) :
    L.area (x'.task t) = L.area (x.task t) := area_congr (h.dispatched.base t)

theorem goesOn (h : Switched L x x' c n vector f g) (hsound : x.Sound L) :
    GoesOn L x' n (x.last n) := by
  have hsaved := hsound.saved_framed h.current h.framed h.target
  have hframe := h.dispatched.frame
  change g = if n = c then f else (x.task n).kernelEsp at hframe
  rw [← hframe] at hsaved
  refine ⟨h.dispatched.current, ?_, ?_⟩
  · rw [h.cpu]
    exact hsaved.cpu
  · rw [h.area]
    exact hsaved.stack

theorem interrupted (h : Switched L x x' c n vector f g) (hsound : x.Sound L) :
    Interrupted L x x' c n :=
  ⟨h.current, h.goesOn hsound, h.lost, h.calls, h.dispatched.pid, h.dispatched.base,
    h.dispatched.nextPid⟩

/-- No task has moved: one goes on, one has been interrupted, and the others wait. -/
theorem last_cpu (h : Switched L x x' c n vector f g) (hsound : x.Sound L) (t : Slot) :
    (x'.last t).cpu = (x.last t).cpu := by
  have hcur : x'.sys.current = some n := h.dispatched.current
  by_cases htn : t = n
  · rw [last_eq hcur, if_pos htn, htn]
    exact (h.goesOn hsound).cpu
  · rw [last_eq hcur, if_neg htn, last_eq h.current, h.lost]
    by_cases htc : t = c
    · rw [htc, Function.update_self, if_pos rfl]
    · rw [Function.update_of_ne htc, if_neg htc]

theorem task_saved (h : Switched L x x' c n vector f g) (hsound : x.Sound L) (ht : x.Live t)
    (hcur : x'.sys.current ≠ some t) :
    Saved L.dpl x'.st.mem (L.area (x'.task t)) (x'.task t).kernelEsp (x'.lost t) := by
  have htn : t ≠ n := by
    rintro rfl
    exact hcur h.dispatched.current
  have hsaved := hsound.saved_framed h.current h.framed ht
  rw [h.area, h.lost]
  rw [last_eq h.current] at hsaved
  by_cases htc : t = c
  · subst htc
    have hesp : (x'.task t).kernelEsp = f := h.dispatched.saved htn.symm
    rw [if_pos rfl, if_pos rfl] at hsaved
    rw [Function.update_self, hesp]
    exact hsaved
  · have hesp : (x'.task t).kernelEsp = (x.task t).kernelEsp := h.dispatched.others t htc
    rw [if_neg htc, if_neg htc] at hsaved
    rw [Function.update_of_ne htc, hesp]
    exact hsaved

theorem task_pending {k : Nat} {s : X86.State} (h : Switched L x x' c n vector f g)
    (hsound : x.Sound L) (ht : x.Live t) (hcall : x'.calls t = some (k, s)) :
    Pending L.dpl x'.st.mem (L.area (x'.task t)) k s ∧ Below (x'.last t) k := by
  rw [h.calls] at hcall
  obtain ⟨hpending, hbelow⟩ := (hsound.task t ht).pending k s hcall
  refine ⟨?_, ?_⟩
  · rw [h.area]
    refine hpending.congr fun a ha hka _ => ?_
    by_cases htc : t = c
    · -- the call is the running task's, whose stack pointer is below its frame
      rw [last_eq h.current, if_pos htc] at hbelow
      refine h.framed.keep a (.inr ⟨htc ▸ ha, ?_⟩)
      rw [kstack_kernel hbelow.1]
      exact hbelow.2.trans hka
    · exact h.framed.others h.current ht htc ha
  · unfold Below
    rw [h.last_cpu hsound t]
    exact hbelow

theorem sound (h : Switched L x x' c n vector f g) (hsound : x.Sound L) : Sound L x' := by
  have hcur : x'.sys.current = some n := h.dispatched.current
  refine ⟨h.inv, ?_, ?_, ?_, ?_⟩
  · intro d hd
    obtain rfl : n = d := Option.some.inj (hcur.symm.trans hd)
    exact h.dispatched.esp0.trans (h.dispatched.top n).symm
  · intro t u a ht hu hat hau
    rw [h.area] at hat hau
    exact hsound.apart t u a (h.live ht) (h.live hu) hat hau
  · rw [h.cpu]
    exact segments_resume (cpl_kernelCpu g) rfl
  · intro t ht
    have hbase : (x'.task t).kernelStackBase = (x.task t).kernelStackBase := h.dispatched.base t
    have htop : (x'.task t).kernelStackTop = (x.task t).kernelStackTop := h.dispatched.top t
    refine ⟨?_, h.task_saved hsound (h.live ht), fun k s => h.task_pending hsound (h.live ht)⟩
    unfold OwnStack
    rw [hbase, htop]
    exact (hsound.task t (h.live ht)).stack

end Switched

namespace Sound

theorem irq {own : Bool} (h : x.Sound L) (hok : x.Takes L vector own code)
    (hs : x.irq L vector own code = some x') : Sound L x' ∧ ∃ c n, Interrupted L x x' c n := by
  obtain ⟨c, n, f, g, hswitched⟩ := h.switched hok hs
  exact ⟨hswitched.sound h, c, n, hswitched.interrupted h⟩

/-! ## System calls -/

theorem segments_kernel {dpl : UInt16 → Nat} {k : Cpu} (hcpl : k.cpl = 0) (hss : k.ss = 0x10) :
    Segments dpl k := by
  refine ⟨fun r => if_neg ?_, fun _ => hss⟩
  omega

/-- The running task enters or leaves a call, and the stacks of the other tasks stay. -/
theorem setCall {st : X86.State} {call : Option (Nat × X86.State)} (h : x.Sound L)
    (hc : x.sys.current = some c) (hseg : Segments L.dpl st.cpu)
    (hkeep : ∀ a, x.Others L a → st.mem a = x.st.mem a)
    (hpending : ∀ f s, call = some (f, s) →
      Pending L.dpl st.mem (L.area (x.task c)) f s ∧ Below st f) :
    Sound L { x with st, calls := Function.update x.calls c call } := by
  refine ⟨h.inv, h.esp0, h.apart, hseg, ?_⟩
  intro t ht
  change x.Live t at ht
  by_cases htc : t = c
  · rw [htc]
    refine ⟨(h.task c (h.live hc)).stack, fun hne => absurd hc hne, fun f s hcall => ?_⟩
    dsimp only at hcall
    rw [Function.update_self] at hcall
    unfold last
    rw [if_pos hc]
    exact hpending f s hcall
  · have htcur : x.sys.current ≠ some t := by
      rw [hc]
      exact fun heq => htc (Option.some.inj heq).symm
    exact (h.task t ht).keep (.refl _) rfl (fun hcur => absurd hcur htcur)
      (fun a ha => hkeep a ⟨t, ht, htcur, ha⟩) rfl (Function.update_of_ne htc ..)

theorem syscall (h : x.Sound L) (hok : ∀ c, x.sys.current = some c → x.st.cpu.cpl = 0 → x.Room L c)
    (hs : x.syscall L = some x') :
    Sound L x' ∧ x'.sys = x.sys ∧ x'.lost = x.lost ∧ ∃ c, x.sys.current = some c ∧
      x.calls c = none ∧ x'.calls = Function.update x.calls c (some (argument x'.st, x.st)) := by
  obtain ⟨c, hc, hs⟩ := Option.bind_eq_some_iff.mp hs
  split at hs
  · cases hs
  · next hnone =>
      obtain ⟨⟨st, e⟩, hrun, hs⟩ := Option.bind_eq_some_iff.mp hs
      obtain rfl := Option.some.inj hs
      dsimp only
      obtain ⟨s, hrun₁, hframed, hss, hcpl⟩ := @run_enter L x c 128 Sched (fun _ _ => none) x.sched h hc
        (hok c hc) (.inr rfl)
      have hprog : syscallEntry = (isrNoErrCode (word 128) ++ saveRegisters) ++ [.pushEsp] := rfl
      rw [hprog, run_append, hrun₁, Option.bind_some] at hrun
      obtain ⟨rfl, rfl⟩ := Prod.mk.inj (Option.some.inj hrun)
      have hroom := h.kept_room hc hframed.argument.2
      have hpushed : Framed L x c 128 s.cpu.esp.toNat (s.push s.cpu.esp).mem :=
        hframed.congr fun a ha => push_mem hframed.argument.1 (hroom a ha)
      rw [argument_push]
      have hsound := @setCall L x c (s.push s.cpu.esp) (some (s.cpu.esp.toNat, x.st)) h hc
        (segments_kernel hcpl hss) (fun a ha => hpushed.keep a (.inl ha)) <| by
        rintro f s' heq
        obtain ⟨rfl, rfl⟩ := Prod.mk.inj (Option.some.inj heq)
        refine ⟨hpushed.pending, hcpl, ?_⟩
        change (s.cpu.esp - 4).toNat ≤ s.cpu.esp.toNat
        rw [toNat_sub_four hframed.argument.1]
        omega
      exact ⟨hsound, rfl, rfl, c, hc, by simpa using hnone, rfl⟩

/-- What the return from a system call leaves behind. -/
structure Returned (L : Image) (x x' : Processor) (c : Slot) (f : Nat) (s : X86.State) : Prop where
  current : x.sys.current = some c
  call : x.calls c = some (f, s)
  goesOn : GoesOn L x' c (withEax s (word (load32 x.st.mem (f + 44))))
  sys : x'.sys = x.sys
  lost : x'.lost = x.lost
  calls : x'.calls = Function.update x.calls c none

/-- The way back from `syscall_handler` resumes the frame of the call. -/
theorem sysret_cases (h : x.Sound L) (hok : x.Ok L (.sysret code))
    (hs : x.sysret L code = some x') :
    ∃ c f s m, x.sys.current = some c ∧ x.calls c = some (f, s) ∧
      (∀ a, x.Kept L c f a → m a = x.st.mem a) ∧
      x' = { x with
        st := ⟨resume L.dpl (frameAt m f) (kernelCpu f), m⟩
        calls := Function.update x.calls c none } := by
  obtain ⟨c, hc, hs⟩ := Option.bind_eq_some_iff.mp hs
  obtain ⟨⟨f, s⟩, hcall, hs⟩ := Option.bind_eq_some_iff.mp hs
  obtain ⟨⟨st, e⟩, hrun, hs⟩ := Option.bind_eq_some_iff.mp hs
  obtain rfl := Option.some.inj hs
  obtain ⟨hesp, hcode⟩ := hok c f s hc hcall
  obtain ⟨hpending, hcpl, -⟩ := (h.task c (h.live hc)).pending f s hcall
  unfold last at hcpl
  rw [if_pos hc] at hcpl
  have hpos := frameSize_pos x.st.mem f
  have hlow := (h.task c (h.live hc)).stack.low (hpending.inside f (by omega) (by omega))
  rw [syscallExit, run_append] at hrun
  obtain ⟨⟨s₂, e₂⟩, hrun₂, hrun⟩ := Option.bind_eq_some_iff.mp hrun
  rw [X86.run, Instr.exec, Option.bind_some, X86.run, Instr.exec, Option.bind_some] at hrun₂
  generalize hs₁ : X86.State.mk _ _ = s₁ at hrun₂
  have hf : s₁.cpu.esp.toNat = f := by
    rw [← hs₁]
    change (x.st.cpu.esp + 4).toNat = f
    rw [toNat_add_of_le (by change _ + 4 < _; omega)]
    exact hesp
  have hmem₁ : s₁.mem = x.st.mem := by
    rw [← hs₁]
    rfl
  have hss₁ : s₁.cpu.ss = 0x10 := by
    rw [← hs₁]
    exact h.segments.kernel hcpl
  have hcpl₁ : s₁.cpu.cpl = 0 := by
    rw [← hs₁]
    exact hcpl
  subst hf
  obtain ⟨hret, htick⟩ := hcode.run_schedulerTick hpending.argument.1
    (h.kept_room hc hpending.argument.2) hrun₂
  rw [hmem₁, hpending.intNo, schedulerTick, if_pos (by decide)] at htick
  obtain ⟨hframe, rfl⟩ := Prod.mk.inj (Option.some.inj htick)
  rw [run_switch (hret.ss.trans hss₁) ((congrArg rpl hret.cs).trans hcpl₁) (by omega), ← hframe] at hrun
  obtain ⟨rfl, rfl⟩ := Prod.mk.inj (Option.some.inj hrun)
  refine ⟨c, s₁.cpu.esp.toNat, s, s₂.mem, hc, hcall, fun a ha => ?_, rfl⟩
  rw [hret.mem a ha, hmem₁]

theorem sysret (h : x.Sound L) (hok : x.Ok L (.sysret code)) (hs : x.sysret L code = some x') :
    Sound L x' ∧ ∃ c f s, Returned L x x' c f s := by
  obtain ⟨c, f, s, m, hc, hcall, hkeep, rfl⟩ := h.sysret_cases hok hs
  obtain ⟨hpending, -⟩ := (h.task c (h.live hc)).pending f s hcall
  have hpos := frameSize_pos x.st.mem f
  have hfinal : Pending L.dpl m (L.area (x.task c)) f s :=
    hpending.congr fun a ha hle _ => hkeep a (.inr ⟨ha, hle⟩)
  have heax : load32 m (f + 44) = load32 x.st.mem (f + 44) := by
    apply load32_congr
    intro a ha ha'
    exact hkeep a (.inr ⟨hpending.inside a (by omega) (by omega), by omega⟩)
  refine ⟨?_, c, f, s, hc, hcall, ⟨hc, ?_, fun hinner => (hfinal.stack hinner).2⟩, rfl, rfl, rfl⟩
  · exact h.setCall hc (segments_resume (cpl_kernelCpu _) rfl) (fun a ha => hkeep a (.inl ha))
      fun _ _ heq => by cases heq
  · change resume L.dpl _ _ = _
    rw [hfinal.cpu, heax]
    rfl

end Sound

end Processor

end SRos
