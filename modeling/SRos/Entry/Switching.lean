import SRos.Entry.Processor
import SRos.Ipc.Abstract

/-!
# Interrupts and the scheduler

Whatever lies on the way of a stub, the frame that it has saved gives the interrupted registers
back, and memory from the frame on stays as it is on every kernel stack.
-/

namespace SRos

open X86 Stubs Bytes

/-! ## Frames -/

/-- The bytes of the frame at an address: an outer frame ends with the user's stack. -/
def frameSize (m : Nat → UInt8) (f : Nat) : Nat :=
  if rpl (selector (frameAt m f).cs) = 0 then 68 else 76

section Frames

variable {dpl : UInt16 → Nat} {m m' : Nat → UInt8} {f : Nat} {c k : Cpu}

theorem frameSize_pos (m : Nat → UInt8) (f : Nat) : 68 ≤ frameSize m f := by
  unfold frameSize
  split
  · omega
  · omega

theorem frameSize_le (m : Nat → UInt8) (f : Nat) : frameSize m f ≤ 76 := by
  unfold frameSize
  split
  · omega
  · omega

/-- The stub looks at the stack pointer, the stack segment and the level of the processor. -/
theorem resume_congr {r : Registers} (hesp : c.esp = k.esp) (hss : c.ss = k.ss)
    (hcpl : c.cpl = k.cpl) : resume dpl r c = resume dpl r k := by
  unfold resume
  rw [hesp, hss, hcpl]

/-- The frame is the same but for the word of `eax`. -/
def SameFrame (m m' : Nat → UInt8) (f : Nat) : Prop :=
  ∀ a, f ≤ a → a < f + frameSize m f → a < f + 44 ∨ f + 48 ≤ a → m' a = m a

theorem SameFrame.load (h : SameFrame m m' f) {i : Nat} (hi : i + 4 ≤ frameSize m f)
    (heax : i + 4 ≤ 44 ∨ 48 ≤ i) : load32 m' (f + i) = load32 m (f + i) := by
  apply load32_congr
  intro a ha ha'
  exact h a (by omega) (by omega) (by omega)

theorem SameFrame.size (h : SameFrame m m' f) : frameSize m' f = frameSize m f := by
  have hcs : (frameAt m' f).cs = (frameAt m f).cs :=
    h.load (i := 60) (by have := frameSize_pos m f; omega) (by omega)
  unfold frameSize
  rw [hcs]

theorem resume_sameFrame (h : SameFrame m m' f) (hk : k.cpl = 0) :
    resume dpl (frameAt m' f) k =
      { resume dpl (frameAt m f) k with eax := word (load32 m' (f + 44)) } := by
  have hpos := frameSize_pos m f
  have hgs : load32 m' f = load32 m f := h.load (i := 0) (by omega) (by omega)
  have hword : ∀ i, i + 4 ≤ 68 → i + 4 ≤ 44 ∨ 48 ≤ i → load32 m' (f + i) = load32 m (f + i) :=
    fun i hi heax => h.load (by omega) heax
  unfold resume frameAt
  simp (disch := omega) only [hgs, hword, hk, Nat.le_zero]
  split
  · rfl
  · next houter =>
      have hsize : frameSize m f = 76 := if_neg houter
      have huser : ∀ i, i + 4 ≤ 76 → i + 4 ≤ 44 ∨ 48 ≤ i → load32 m' (f + i) = load32 m (f + i) :=
        fun i hi heax => h.load (by omega) heax
      simp (disch := omega) only [huser]

theorem resume_sameWords (h : ∀ a, f ≤ a → a < f + frameSize m f → m' a = m a) (hk : k.cpl = 0) :
    resume dpl (frameAt m' f) k = resume dpl (frameAt m f) k := by
  have heax : load32 m' (f + 44) = load32 m (f + 44) := by
    have hpos := frameSize_pos m f
    exact load32_congr fun a ha ha' => h a (by omega) (by omega)
  rw [resume_sameFrame (fun a ha ha' _ => h a ha ha') hk, heax]
  unfold resume
  split
  · rfl
  · rfl

theorem cpl_resume : (resume dpl (frameAt m f) k).cpl = rpl (selector (frameAt m f).cs) := by
  unfold resume
  split
  · rfl
  · rfl

theorem eax_resume : (resume dpl (frameAt m f) k).eax = word (load32 m (f + 44)) := by
  unfold resume
  split
  · rfl
  · rfl

theorem validSeg_idem (cpl : Nat) (sel : UInt16) :
    State.validSeg dpl cpl (State.validSeg dpl cpl sel) = State.validSeg dpl cpl sel := by
  unfold State.validSeg
  split
  · split <;> rfl
  · rfl

/-- What `iret` leaves in the segment registers is what a processor can have. -/
theorem segments_resume (hk : k.cpl = 0) (hss : k.ss = 0x10) :
    Segments dpl (resume dpl (frameAt m f) k) := by
  by_cases hinner : rpl (selector (frameAt m f).cs) = 0
  · have hres : resume dpl (frameAt m f) k = _ := if_pos (by rw [hk, hinner])
    rw [hres]
    refine ⟨fun r => if_neg ?_, fun _ => hss⟩
    change ¬ _ < rpl (selector (frameAt m f).cs)
    omega
  · have hres : resume dpl (frameAt m f) k = _ := if_neg (by rw [hk]; omega)
    rw [hres]
    refine ⟨fun r => ?_, fun hcpl => absurd hcpl hinner⟩
    cases r with
    | ds => exact validSeg_idem _ _
    | es => exact validSeg_idem _ _
    | fs => exact validSeg_idem _ _
    | gs => exact validSeg_idem _ _

@[simp] theorem cpl_kernelCpu (esp : Nat) : (kernelCpu esp).cpl = 0 := by
  change rpl 0x08 = 0
  decide

/-- A return to user mode takes everything from the frame. -/
theorem resume_user {r : Registers} (hcs : rpl (selector r.cs) ≠ 0) (hc : c.cpl = 0) (hk : k.cpl = 0)
    (v : Nat) : resume dpl { r with eax := v } c = { resume dpl r k with eax := word v } := by
  unfold resume
  rw [if_neg (by rw [hc]; exact fun hle => hcs (Nat.le_zero.mp hle)),
    if_neg (by rw [hk]; exact fun hle => hcs (Nat.le_zero.mp hle))]

/-- A frame that a stub has saved gives back what it has interrupted. -/
theorem resume_entered {vector : UInt32} {esp0 : UInt32} {s s' : X86.State}
    (h : Entered vector s (kernelStack 0x10 esp0 s) s') (hseg : Segments dpl s.cpu) :
    resume dpl (frameAt s'.mem s'.cpu.esp.toNat) (kernelCpu s'.cpu.esp.toNat) = s.cpu := by
  rw [resume_of_saves h.saves hseg.fits (cpl_kernelCpu _)]
  split
  · next hcpl =>
      have hesp := h.esp
      rw [if_pos hcpl, kernelStack, if_pos hcpl] at hesp
      have heq : word s'.cpu.esp.toNat + 68 = s.cpu.esp := by
        have hlt := s.cpu.esp.toNat_lt
        rw [word_toNat]
        apply UInt32.toNat_inj.mp
        rw [UInt32.toNat_add, ← hesp]
        exact Nat.mod_eq_of_lt (hesp ▸ hlt)
      change { s.cpu with esp := word s'.cpu.esp.toNat + 68, ss := 0x10 } = s.cpu
      rw [heq, ← hseg.kernel hcpl]
  · rfl

theorem frameSize_entered {vector : UInt32} {s k s' : X86.State} (h : Entered vector s k s') :
    s'.cpu.esp.toNat + frameSize s'.mem s'.cpu.esp.toNat = k.cpu.esp.toNat := by
  rw [← h.esp, frameSize, h.saves.cs, selector_toNat]
  rfl

end Frames

/-! ## The C functions -/

section Calls

variable {dpl : UInt16 → Nat} {code : Code} {kept : Nat → Nat → Prop} {s s' : X86.State} {e e' : Sched}

theorem run_callOnFrame {fn : CFn} (h : X86.run dpl code (callOnFrame fn) (s, e) = some (s', e')) :
    ∃ s₁, code fn (s.push s.cpu.esp, e) = some (s₁, e') ∧ s' = s₁.drop 4 := by
  change (code fn (s.push s.cpu.esp, e)).bind _ = _ at h
  obtain ⟨⟨s₁, e₁⟩, hcode, h⟩ := Option.bind_eq_some_iff.mp h
  obtain ⟨rfl, rfl⟩ := Prod.mk.inj (Option.some.inj h)
  exact ⟨s₁, hcode, rfl⟩

theorem argument_push (s : X86.State) (v : UInt32) : argument (s.push v) = v.toNat :=
  load32_store32_same _ _ v.toNat_lt

theorem sub_four_add_four (x : UInt32) : x - 4 + 4 = x := UInt32.sub_add_cancel x 4

theorem toNat_sub_four {x : UInt32} (h : 4 ≤ x.toNat) : (x - 4).toNat = x.toNat - 4 :=
  UInt32.toNat_sub_of_le _ _ (by rw [UInt32.le_iff_toNat_le]; exact h)

theorem push_mem {v : UInt32} (hroom : 4 ≤ s.cpu.esp.toNat) {a : Nat}
    (ha : a < s.cpu.esp.toNat - 4 ∨ s.cpu.esp.toNat ≤ a) : (s.push v).mem a = s.mem a := by
  apply store32_of_outside
  rw [toNat_sub_four hroom]
  omega

/-- A C function is called with the frame that the stack pointer is at. -/
theorem Returns.of_push (hroom : 4 ≤ s.cpu.esp.toNat)
    (hbelow : ∀ a, kept s.cpu.esp.toNat a → a < s.cpu.esp.toNat - 4 ∨ s.cpu.esp.toNat ≤ a)
    (h : Returns (kept s.cpu.esp.toNat) (s.push s.cpu.esp) s') :
    Returns (kept s.cpu.esp.toNat) s (s'.drop 4) := by
  refine ⟨?_, h.ss, h.cs, fun a ha => (h.mem a ha).trans (push_mem hroom (hbelow a ha))⟩
  change s'.cpu.esp + 4 = s.cpu.esp
  rw [h.esp]
  exact sub_four_add_four s.cpu.esp

theorem frameAt_push (hroom : 4 ≤ s.cpu.esp.toNat) (v : UInt32) :
    (frameAt (s.push v).mem s.cpu.esp.toNat).intNo = (frameAt s.mem s.cpu.esp.toNat).intNo := by
  apply load32_congr
  intro a ha _
  exact push_mem hroom (.inr (by omega))

theorem Compiled.run_irqHandler (hcode : Compiled kept code) (hroom : 4 ≤ s.cpu.esp.toNat)
    (hbelow : ∀ a, kept s.cpu.esp.toNat a → a < s.cpu.esp.toNat - 4 ∨ s.cpu.esp.toNat ≤ a)
    (h : X86.run dpl code (callOnFrame .irqHandler) (s, e) = some (s', e')) :
    Returns (kept s.cpu.esp.toNat) s s' ∧
      e' = SRos.irqHandler (frameAt s.mem s.cpu.esp.toNat).intNo e := by
  obtain ⟨s₁, hcall, rfl⟩ := run_callOnFrame h
  obtain ⟨hret, he⟩ := hcode.irqHandler _ _ _ _ hcall
  rw [argument_push] at hret he
  rw [frameAt_push hroom] at he
  exact ⟨hret.of_push hroom hbelow, he⟩

theorem Compiled.run_schedulerTick (hcode : Compiled kept code) (hroom : 4 ≤ s.cpu.esp.toNat)
    (hbelow : ∀ a, kept s.cpu.esp.toNat a → a < s.cpu.esp.toNat - 4 ∨ s.cpu.esp.toNat ≤ a)
    (h : X86.run dpl code (callOnFrame .schedulerTick) (s, e) = some (s', e')) :
    Returns (kept s.cpu.esp.toNat) s s' ∧
      SRos.schedulerTick (frameAt s.mem s.cpu.esp.toNat).intNo s.cpu.esp.toNat e =
        some (s'.cpu.eax.toNat, e') := by
  obtain ⟨s₁, hcall, rfl⟩ := run_callOnFrame h
  obtain ⟨hret, he⟩ := hcode.schedulerTick _ _ _ _ hcall
  rw [argument_push] at hret he
  rw [frameAt_push hroom] at he
  exact ⟨hret.of_push hroom hbelow, he⟩

theorem run_switch_env (h : X86.run dpl code (.movEspEax :: restoreRegisters) (s, e) = some (s', e')) :
    e = e' := by
  simp only [restoreRegisters, X86.run, Instr.exec, Option.bind_some, Option.some.injEq,
    Prod.mk.injEq] at h
  exact h.2

/-- The end of the stubs that can switch: they resume the frame that `scheduler_tick` returns. -/
theorem run_switch (hss : s.cpu.ss = 0x10) (hcpl : s.cpu.cpl = 0)
    (hlow : s.cpu.eax.toNat + 72 < 2 ^ 32) :
    X86.run dpl code (.movEspEax :: restoreRegisters) (s, e) =
      some (⟨resume dpl (frameAt s.mem s.cpu.eax.toNat) (kernelCpu s.cpu.eax.toNat), s.mem⟩, e) := by
  have hrestore := @run_restoreRegisters dpl Sched code
    { s with cpu := { s.cpu with esp := s.cpu.eax } } e hlow
  have hcpu : ∀ r, resume dpl r { s.cpu with esp := s.cpu.eax } =
      resume dpl r (kernelCpu s.cpu.eax.toNat) :=
    fun r => resume_congr (word_toNat s.cpu.eax).symm hss (hcpl.trans (cpl_kernelCpu _).symm)
  rw [X86.run, Instr.exec, Option.bind_some, hrestore, hcpu]

end Calls

end SRos
