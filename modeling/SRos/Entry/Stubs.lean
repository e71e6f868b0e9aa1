import SRos.Lib.X86
import SRos.Sched.Model

/-!
# Interrupt stubs

A translation of `boot/idt_asm.s` and `boot/syscall_asm.s`. Every stub leaves a `registers_t` on the
kernel stack and passes its address to C functions, and what it restores is the `registers_t` that
the stack pointer is at in the end.
-/

namespace SRos.Stubs

open X86 Bytes

/-- The C functions that the stubs call. -/
inductive CFn
  | isrHandler | irqHandler | schedulerTick | syscallHandler
  deriving DecidableEq

abbrev Stub := List (Instr CFn)

def saveRegisters : Stub :=
  [.pusha, .pushSeg .ds, .pushSeg .es, .pushSeg .fs, .pushSeg .gs,
    .movAx 0x10, .movSeg .ds, .movSeg .es, .movSeg .fs, .movSeg .gs]

/-- The address of the frame is the argument of the function. -/
def callOnFrame (f : CFn) : Stub := [.pushEsp, .call f, .addEsp 4]

def restoreRegisters : Stub :=
  [.popSeg .gs, .popSeg .fs, .popSeg .es, .popSeg .ds, .popa, .addEsp 8, .iret]

def isrNoErrCode (vector : UInt32) : Stub := [.pushImm 0, .pushImm vector]

/-- The processor has pushed the error code. -/
def isrErrCode (vector : UInt32) : Stub := [.pushImm vector]

def isrCommon : Stub := saveRegisters ++ callOnFrame .isrHandler ++ restoreRegisters

def irqCommon : Stub :=
  saveRegisters ++ callOnFrame .irqHandler ++ callOnFrame .schedulerTick ++
    .movEspEax :: restoreRegisters

def isr128 : Stub :=
  isrNoErrCode 128 ++ saveRegisters ++ callOnFrame .syscallHandler ++ .cli ::
    callOnFrame .schedulerTick ++ .movEspEax :: restoreRegisters

/-- The `registers_t` at an address. -/
def frameAt (m : Nat → UInt8) (a : Nat) : Registers where
  gs := load32 m a
  fs := load32 m (a + 4)
  es := load32 m (a + 8)
  ds := load32 m (a + 12)
  edi := load32 m (a + 16)
  esi := load32 m (a + 20)
  ebp := load32 m (a + 24)
  esp := load32 m (a + 28)
  ebx := load32 m (a + 32)
  edx := load32 m (a + 36)
  ecx := load32 m (a + 40)
  eax := load32 m (a + 44)
  intNo := load32 m (a + 48)
  errCode := load32 m (a + 52)
  eip := load32 m (a + 56)
  cs := load32 m (a + 60)
  eflags := load32 m (a + 64)
  userEsp := load32 m (a + 68)
  userSs := load32 m (a + 72)

/-- A 32-bit word of a frame, and a selector in one. -/
def word (n : Nat) : UInt32 := UInt32.ofNat n
def selector (n : Nat) : UInt16 := (word n).toUInt16

/-- The processor behind the `iret` of a stub that has restored the frame `r` at the stack pointer
of `c`. -/
def resume (dpl : UInt16 → Nat) (r : Registers) (c : Cpu) : Cpu :=
  let base : Cpu :=
    { eax := word r.eax, ecx := word r.ecx, edx := word r.edx, ebx := word r.ebx
      ebp := word r.ebp, esi := word r.esi, edi := word r.edi
      eip := word r.eip, eflags := word r.eflags, cs := selector r.cs
      ds := selector r.ds, es := selector r.es, fs := selector r.fs, gs := selector r.gs
      esp := c.esp + 68, ss := c.ss }
  if rpl (selector r.cs) ≤ c.cpl then base
  else
    let cpl := rpl (selector r.cs)
    { base with
      esp := word r.userEsp, ss := selector r.userSs
      ds := State.validSeg dpl cpl base.ds, es := State.validSeg dpl cpl base.es
      fs := State.validSeg dpl cpl base.fs, gs := State.validSeg dpl cpl base.gs }

variable {dpl : UInt16 → Nat} {E : Type} {call : CFn → State × E → Option (State × E)}

theorem toNat_add_of_le {a k : UInt32} (h : a.toNat + k.toNat < 2 ^ 32) :
    (a + k).toNat = a.toNat + k.toNat := by
  rw [UInt32.toNat_add, Nat.mod_eq_of_lt h]

/-- What a stub restores. -/
theorem run_restoreRegisters (s : State) (e : E) (hroom : s.cpu.esp.toNat + 72 < 2 ^ 32) :
    run dpl call restoreRegisters (s, e) =
      some ({ s with cpu := resume dpl (frameAt s.mem s.cpu.esp.toNat) s.cpu }, e) := by
  have hat : ∀ k : UInt32, k.toNat ≤ 72 → (s.cpu.esp + k).toNat = s.cpu.esp.toNat + k.toNat :=
    fun k hk => toNat_add_of_le (by omega)
  simp only [restoreRegisters, run, Instr.exec, State.popa, State.drop, State.top, State.iret,
    Cpu.setSeg, Option.bind_some, resume, frameAt, word, selector, Cpu.cpl, UInt32.add_assoc,
    UInt32.reduceAdd]
  simp (disch := decide) only [hat, UInt32.reduceToNat]
  split
  · next hinner => simp only [hinner, if_true]
  · next houter => simp only [houter, if_false]

/-! ## Entry -/

/-- The frame has the registers of an interrupted processor. -/
structure Saves (r : Registers) (c : Cpu) : Prop where
  gs : r.gs = c.gs.toNat
  fs : r.fs = c.fs.toNat
  es : r.es = c.es.toNat
  ds : r.ds = c.ds.toNat
  edi : r.edi = c.edi.toNat
  esi : r.esi = c.esi.toNat
  ebp : r.ebp = c.ebp.toNat
  ebx : r.ebx = c.ebx.toNat
  edx : r.edx = c.edx.toNat
  ecx : r.ecx = c.ecx.toNat
  eax : r.eax = c.eax.toNat
  eip : r.eip = c.eip.toNat
  cs : r.cs = c.cs.toNat
  eflags : r.eflags = c.eflags.toNat
  outer : c.cpl ≠ 0 → r.userEsp = c.esp.toNat ∧ r.userSs = c.ss.toNat

/-- The stack on which the kernel is entered. -/
def kernelStack (ss0 : UInt16) (esp0 : UInt32) (s : State) : State :=
  if s.cpu.cpl = 0 then s else { s with cpu := { s.cpu with ss := ss0, esp := esp0 } }

theorem cpu_foldl_push (ws : List UInt32) (s : State) :
    (ws.foldl State.push s).cpu = { s.cpu with esp := (ws.foldl State.push s).cpu.esp } := by
  induction ws generalizing s with
  | nil => rfl
  | cons w ws ih => exact ih (s.push w)

theorem seg_foldl_push (ws : List UInt32) (s : State) (r : Seg) :
    (ws.foldl State.push s).cpu.seg r = s.cpu.seg r := by
  rw [cpu_foldl_push]
  cases r with
  | ds => rfl
  | es => rfl
  | fs => rfl
  | gs => rfl

theorem run_pushSegs (rs : List Seg) (ws : List UInt32) (s : State) (e : E) :
    run dpl call (rs.map .pushSeg) (ws.foldl State.push s, e) =
      some ((ws ++ rs.map fun r => (s.cpu.seg r).toUInt32).foldl State.push s, e) := by
  induction rs generalizing ws with
  | nil =>
      rw [List.map_nil, List.map_nil, List.append_nil]
      rfl
  | cons r rs ih =>
      have hseg := seg_foldl_push ws s r
      have hrest := ih (ws ++ [(s.cpu.seg r).toUInt32])
      rw [List.append_assoc, List.foldl_append, List.foldl_append] at hrest
      simp only [List.map_cons, run, Instr.exec, Option.bind_some, hseg]
      rw [List.foldl_append]
      exact hrest

/-- The registers that a stub pushes. The word `esp` of `pusha` is not used again. -/
def savedWords (c : Cpu) : List UInt32 :=
  [c.eax, c.ecx, c.edx, c.ebx, c.esp, c.ebp, c.esi, c.edi,
    c.ds.toUInt32, c.es.toUInt32, c.fs.toUInt32, c.gs.toUInt32]

theorem run_saveRegisters (s : State) (e : E) :
    ∃ s', run dpl call saveRegisters (s, e) = some (s', e) ∧
      s'.mem = ((savedWords s.cpu).foldl State.push s).mem ∧
      s'.cpu.esp = ((savedWords s.cpu).foldl State.push s).cpu.esp ∧
      s'.cpu.ss = s.cpu.ss ∧ s'.cpu.cs = s.cpu.cs := by
  have hsplit : saveRegisters = .pusha :: ([Seg.ds, .es, .fs, .gs].map .pushSeg ++
      [.movAx 0x10, .movSeg .ds, .movSeg .es, .movSeg .fs, .movSeg .gs]) := rfl
  have hpusha : s.pusha = ([s.cpu.eax, s.cpu.ecx, s.cpu.edx, s.cpu.ebx, s.cpu.esp, s.cpu.ebp,
      s.cpu.esi, s.cpu.edi] : List UInt32).foldl State.push s := rfl
  have hcpu := cpu_foldl_push (savedWords s.cpu) s
  have hss := congrArg Cpu.ss hcpu
  have hcs := congrArg Cpu.cs hcpu
  have hpushes := @run_pushSegs dpl E call [.ds, .es, .fs, .gs] [s.cpu.eax, s.cpu.ecx, s.cpu.edx,
    s.cpu.ebx, s.cpu.esp, s.cpu.ebp, s.cpu.esi, s.cpu.edi] s e
  change _ = some ((savedWords s.cpu).foldl State.push s, e) at hpushes
  generalize (savedWords s.cpu).foldl State.push s = t at hpushes hss hcs ⊢
  change t.cpu.ss = s.cpu.ss at hss
  change t.cpu.cs = s.cpu.cs at hcs
  rw [hsplit, run, Instr.exec, Option.bind_some, hpusha, run_append, hpushes, ← hss, ← hcs]
  exact ⟨_, rfl, rfl, rfl, rfl, rfl⟩

/-- What the processor pushes. -/
def interruptWords (c : Cpu) : List UInt32 :=
  (if c.cpl = 0 then [] else [c.ss.toUInt32, c.esp]) ++ [c.eflags, c.cs.toUInt32, c.eip]

theorem foldl_push_congr {ws : List UInt32} {s s' : State} (hmem : s'.mem = s.mem)
    (hesp : s'.cpu.esp = s.cpu.esp) :
    (ws.foldl State.push s').mem = (ws.foldl State.push s).mem ∧
      (ws.foldl State.push s').cpu.esp = (ws.foldl State.push s).cpu.esp := by
  induction ws generalizing s s' with
  | nil => exact ⟨hmem, hesp⟩
  | cons w ws ih =>
      apply ih
      · simp only [State.push, hmem, hesp]
      · simp only [State.push, hesp]

theorem interrupt_eq {g : Gate} (s : State) (ss0 : UInt16) (esp0 : UInt32) (hg : rpl g.selector = 0) :
    ∃ eflags, s.interrupt g ss0 esp0 =
      { (interruptWords s.cpu).foldl State.push (kernelStack ss0 esp0 s) with
        cpu := { ((interruptWords s.cpu).foldl State.push (kernelStack ss0 esp0 s)).cpu with
          cs := g.selector, eip := g.offset, eflags := eflags } } := by
  by_cases hcpl : s.cpu.cpl = 0
  · have hno : ¬ rpl g.selector < s.cpu.cpl := by omega
    simp only [State.interrupt, if_neg hno, interruptWords, kernelStack, if_pos hcpl]
    exact ⟨_, rfl⟩
  · have hyes : rpl g.selector < s.cpu.cpl := by omega
    simp only [State.interrupt, if_pos hyes, interruptWords, kernelStack, if_neg hcpl]
    exact ⟨_, rfl⟩

/-- A stub has saved the registers of `s` on the stack of `k`. -/
structure Entered (vector : UInt32) (s k s' : State) : Prop where
  saves : Saves (frameAt s'.mem s'.cpu.esp.toNat) s.cpu
  intNo : (frameAt s'.mem s'.cpu.esp.toNat).intNo = vector.toNat
  esp : s'.cpu.esp.toNat + (if s.cpu.cpl = 0 then 68 else 76) = k.cpu.esp.toNat
  keep : ∀ a, a < s'.cpu.esp.toNat ∨ k.cpu.esp.toNat ≤ a → s'.mem a = s.mem a

/-- The words of a frame, from its start on. -/
theorem reverse_pushes (vector esp : UInt32) (c : Cpu) :
    (interruptWords c ++ [0, vector] ++ savedWords { c with esp := esp }).reverse =
      [c.gs.toUInt32, c.fs.toUInt32, c.es.toUInt32, c.ds.toUInt32, c.edi, c.esi, c.ebp, esp, c.ebx,
        c.edx, c.ecx, c.eax, vector, 0, c.eip, c.cs.toUInt32, c.eflags] ++
        if c.cpl = 0 then [] else [c.esp, c.ss.toUInt32] := by
  unfold interruptWords savedWords
  split
  · rfl
  · rfl

theorem length_pushes (vector esp : UInt32) (c : Cpu) :
    (interruptWords c ++ [0, vector] ++ savedWords { c with esp := esp }).length =
      if c.cpl = 0 then 17 else 19 := by
  unfold interruptWords savedWords
  split
  · rfl
  · rfl

theorem entered_of_pushed {s k s' : State} {vector esp : UInt32} (hmem : k.mem = s.mem)
    (h : Pushed (interruptWords s.cpu ++ [0, vector] ++ savedWords { s.cpu with esp := esp }) k s') :
    Entered vector s k s' := by
  have hwords := h.words 0
  rw [reverse_pushes, List.map_append, List.append_assoc] at hwords
  refine ⟨?_, load32_of_words hwords (k := 12) rfl, ?_, ?_⟩
  · refine ⟨load32_of_words hwords (k := 0) rfl, load32_of_words hwords (k := 1) rfl,
      load32_of_words hwords (k := 2) rfl, load32_of_words hwords (k := 3) rfl,
      load32_of_words hwords (k := 4) rfl, load32_of_words hwords (k := 5) rfl,
      load32_of_words hwords (k := 6) rfl, load32_of_words hwords (k := 8) rfl,
      load32_of_words hwords (k := 9) rfl, load32_of_words hwords (k := 10) rfl,
      load32_of_words hwords (k := 11) rfl, load32_of_words hwords (k := 14) rfl,
      load32_of_words hwords (k := 15) rfl, load32_of_words hwords (k := 16) rfl, ?_⟩
    intro hcpl
    rw [if_neg hcpl] at hwords
    exact ⟨load32_of_words hwords (k := 17) rfl, load32_of_words hwords (k := 18) rfl⟩
  · have hlen := h.esp
    rw [length_pushes] at hlen
    rw [← hlen]
    split
    · rfl
    · rfl
  · intro a ha
    rw [h.keep a ha, hmem]

/-- The way of every stub up to its first call. -/
theorem run_entry {g : Gate} (s : State) (e : E) (ss0 : UInt16) (esp0 : UInt32) (vector : UInt32)
    (hg : rpl g.selector = 0) (hroom : 76 ≤ (kernelStack ss0 esp0 s).cpu.esp.toNat) :
    ∃ s', run dpl call (isrNoErrCode vector ++ saveRegisters) (s.interrupt g ss0 esp0, e) =
        some (s', e) ∧ Entered vector s (kernelStack ss0 esp0 s) s' ∧
      s'.cpu.ss = (kernelStack ss0 esp0 s).cpu.ss ∧ s'.cpu.cs = g.selector := by
  obtain ⟨eflags, hint⟩ := interrupt_eq s ss0 esp0 hg
  rw [hint]
  generalize hk : kernelStack ss0 esp0 s = k at hroom ⊢
  have hkmem : k.mem = s.mem := by
    rw [← hk]
    unfold kernelStack
    split
    · rfl
    · rfl
  obtain ⟨y, z, hkcpu⟩ : ∃ y z, k.cpu = { s.cpu with esp := y, ss := z } := by
    rw [← hk]
    unfold kernelStack
    split
    · exact ⟨_, _, rfl⟩
    · exact ⟨_, _, rfl⟩
  obtain ⟨x, htcpu⟩ : ∃ x, ((interruptWords s.cpu).foldl State.push k).cpu = { k.cpu with esp := x } :=
    ⟨_, cpu_foldl_push _ k⟩
  rw [run_append, isrNoErrCode, run, Instr.exec, Option.bind_some, run, Instr.exec, Option.bind_some,
    run, Option.bind_some]
  generalize ht' : State.mk _ _ = t'
  have hmem' : t'.mem = ((interruptWords s.cpu).foldl State.push k).mem := by rw [← ht']
  have hesp' : t'.cpu.esp = ((interruptWords s.cpu).foldl State.push k).cpu.esp := by rw [← ht']
  obtain ⟨s', hrun, hmem, hesp, hss, hcs⟩ := @run_saveRegisters dpl E call
    ((t'.push 0).push vector) e
  have hsaved : savedWords ((t'.push 0).push vector).cpu =
      savedWords { s.cpu with esp := ((t'.push 0).push vector).cpu.esp } := by
    rw [← ht', htcpu, hkcpu]
    rfl
  rw [hsaved] at hmem hesp
  generalize ((t'.push 0).push vector).cpu.esp = esp at hmem hesp
  have hlen : 4 * (interruptWords s.cpu ++ [0, vector] ++
      savedWords { s.cpu with esp := esp }).length ≤ k.cpu.esp.toNat := by
    rw [length_pushes]
    split
    · omega
    · omega
  have hent := entered_of_pushed hkmem (pushed_foldl k _ hlen)
  have hsame := @foldl_push_congr ([0, vector] ++ savedWords { s.cpu with esp := esp }) _ _ hmem' hesp'
  have hpushes : ([0, vector] ++ savedWords { s.cpu with esp := esp }).foldl State.push t' =
      (savedWords { s.cpu with esp := esp }).foldl State.push ((t'.push 0).push vector) := by
    rw [List.foldl_append, List.foldl_cons, List.foldl_cons, List.foldl_nil]
  rw [← List.foldl_append, ← List.append_assoc, hpushes] at hsame
  have hmemEq := hmem.trans hsame.1
  have hespEq := hesp.trans hsame.2
  refine ⟨s', hrun, ⟨?_, ?_, ?_, ?_⟩, ?_, ?_⟩
  · rw [hmemEq, hespEq]
    exact hent.saves
  · rw [hmemEq, hespEq]
    exact hent.intNo
  · rw [hespEq]
    exact hent.esp
  · rw [hmemEq, hespEq]
    exact hent.keep
  · rw [hss, ← ht', htcpu]
    rfl
  · rw [hcs, ← ht']
    rfl

/-! ## Return -/

theorem word_toNat (x : UInt32) : word x.toNat = x := UInt32.ofNat_toNat

theorem selector_toNat (x : UInt16) : selector x.toNat = x := by
  have hlt := x.toNat_lt
  apply UInt16.toNat_inj.mp
  simp only [selector, word, UInt32.toNat_toUInt16]
  rw [UInt32.toNat_ofNat_of_lt' (by change _ < 2 ^ 32; omega), Nat.mod_eq_of_lt hlt]

/-- The segment registers that a processor at its privilege level can have loaded. -/
def Fits (dpl : UInt16 → Nat) (c : Cpu) : Prop :=
  ∀ r, State.validSeg dpl c.cpl (c.seg r) = c.seg r

/-- A frame that has the registers of `c` gives them back. -/
theorem resume_of_saves {r : Registers} {c k : Cpu} (h : Saves r c) (hfits : Fits dpl c)
    (hk : k.cpl = 0) :
    resume dpl r k =
      if c.cpl = 0 then { c with esp := k.esp + 68, ss := k.ss } else c := by
  unfold resume
  rw [h.gs, h.fs, h.es, h.ds, h.edi, h.esi, h.ebp, h.ebx, h.edx, h.ecx, h.eax, h.eip, h.cs, h.eflags]
  simp only [word_toNat, selector_toNat, hk, Nat.le_zero]
  change (if c.cpl = 0 then _ else _) = _
  by_cases hcpl : c.cpl = 0
  · rw [if_pos hcpl, if_pos hcpl]
  · obtain ⟨hesp, hss⟩ := h.outer hcpl
    rw [if_neg hcpl, if_neg hcpl, hesp, hss, word_toNat, selector_toNat]
    have hds : State.validSeg dpl (rpl c.cs) c.ds = c.ds := hfits .ds
    have hes : State.validSeg dpl (rpl c.cs) c.es = c.es := hfits .es
    have hfs : State.validSeg dpl (rpl c.cs) c.fs = c.fs := hfits .fs
    have hgs : State.validSeg dpl (rpl c.cs) c.gs = c.gs := hfits .gs
    simp only [hds, hes, hfs, hgs]

end SRos.Stubs
