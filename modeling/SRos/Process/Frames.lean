import SRos.Elf.Exec
import SRos.Lib.Run
import SRos.Process.Steps

/-!
# Every frame has one use

The processes fork, exit, are collected, allocate pages and load programs. No frame is free twice
or while it is a directory, a kernel stack, a table or a user page of a live task, and the stack of
the allocator never holds more frames than have been pushed at boot.
-/

namespace SRos.Process

open Paging Elf

/-- The free frames are not used by any live task. -/
structure FramesApart (s : Machine) : Prop where
  nodup : s.free.Nodup
  dirs : ∀ t, 0 ≤ (s.sched.tasks t).pid → (s.sched.tasks t).pageDir ∉ s.free
  kernelStacks : ∀ t, 0 ≤ (s.sched.tasks t).pid → (s.sched.tasks t).kernelStackBase ∉ s.free
  tables : ∀ t, 0 ≤ (s.sched.tasks t).pid → ∀ i < 1024,
    present (pdeAt s.mem (s.sched.tasks t).pageDir i) = true →
      frameOf (pdeAt s.mem (s.sched.tasks t).pageDir i) ∉ s.free
  pages : ∀ t, 0 ≤ (s.sched.tasks t).pid → ∀ i < 1023, ∀ j < 1024,
    mapped s.mem (s.sched.tasks t).pageDir i j = true →
      user (pteAt s.mem (s.sched.tasks t).pageDir i j) = true →
      frameOf (pteAt s.mem (s.sched.tasks t).pageDir i j) ∉ s.free
  count : s.free.length ≤ 260

/-- The operations of the processes, with user addresses. -/
def InUserSpace : ProcAct → Prop
  | .create _ _ => False
  | .allocPage virtAddr => 0x400000 ≤ virtAddr ∧ virtAddr < 0xE0000000
  | .exec fs path _ =>
      ∀ ino, lookupPath fs path = some ino → hasEhdr fs ino → SegmentsInUser fs ino
  | .fork _ | .exit _ _ | .wait _ _ | .tick _ => True

variable {bssEnd : Nat} {own : Nat → Kind} {s s' : Machine}

theorem Laid.load {v : Vm} {d n : Nat} (h : Laid own v) (hd : own d = .dir n) :
    Laid own { v with cr3 := d } :=
  ⟨h.stacked, h.id, h.identity, h.first, h.self, h.entries, h.distinct, h.targets, n, hd⟩

theorem accounts_laid : Accounts bssEnd Laid where
  nonzero := by
    rintro own v f h hf rfl
    exact zero_not_mem_bootFrames (h.stacked.boot 0 hf)
  mem_free := fun h hf => h.free_of_mem hf
  load := fun h hd => Laid.load h hd
  push := fun h hf hcr3 => h.push ⟨_, hf⟩ hcr3
  stack := by
    intro own v f v' n h hs
    obtain ⟨hfree, hv'⟩ := Pops.pfaAlloc hs
    rw [hv']
    exact h.pop hfree (.inr ⟨n, rfl⟩)
  clone := by
    intro own v d v' n h hs
    obtain ⟨own', hlaid, -, hd, -, hkeep⟩ := h.clone hs n
    exact ⟨own', hlaid, hd, hkeep⟩

/-- The invariant of the processes that have been forked. -/
abbrev ForkInv (s : Machine) : Prop := Inv Laid (fun d => d ≠ 0) s

theorem inv_allocPage {virtAddr : Nat} (h : ForkInv s) (hlow : 0x400000 ≤ virtAddr)
    (hhigh : virtAddr < 0xE0000000) (hs : s.allocPage virtAddr = some s') : ForkInv s' := by
  obtain ⟨own, hplaced⟩ := h.placed
  obtain ⟨v, hv, hs⟩ := Option.bind_eq_some_iff.mp hs
  cases hs
  have hpage : UserPage (virtAddr / 4096) := by
    unfold UserPage
    omega
  have haddr : virtAddr = virtAddr / 4096 * 4096 + virtAddr % 4096 := by omega
  rw [haddr] at hv
  obtain ⟨f, own', hnew⟩ := newPage_of_alloc hplaced.frames hpage (Nat.mod_lt _ (by decide)) hv
  exact h.setVm hplaced hnew.laid hnew.cr3 hnew.kinds

theorem inv_exec {fs : Fs.FsState} {path : CStr} {regs : Nat} (h : ForkInv s)
    (hseg : ∀ ino, lookupPath fs path = some ino → hasEhdr fs ino → SegmentsInUser fs ino)
    (hs : s.exec fs path regs = some s') : ForkInv s' := by
  obtain ⟨own, hplaced⟩ := h.placed
  obtain ⟨⟨r, frame, v⟩, hv, hs⟩ := Option.bind_eq_some_iff.mp hs
  cases hs
  obtain ⟨img, fresh, own', hloading, -⟩ := elfLoadAndExec_loading hplaced.frames hseg hv
  obtain ⟨own'', hplaced'⟩ := (h.setVm hplaced hloading.laid hloading.cr3 hloading.kinds).placed
  have howners : Owners (fun d => d ≠ 0) own'' { s.sched with
      frames := Function.update s.sched.frames regs frame } :=
    hplaced'.owners.quiet (.refl _) hplaced.owners.linked.setFrames
  exact ⟨⟨own'', hplaced'.frames, howners, hplaced'.loaded⟩, h.running⟩

theorem inv_step {a : ProcAct} (h : ForkInv s) (hok : InUserSpace a)
    (hs : s.step bssEnd a = some s') : ForkInv s' := by
  have hP : Accounts bssEnd Laid := accounts_laid
  have hnonzero : ∀ d : Nat, d ≠ 0 → d ≠ 0 := fun _ hd => hd
  cases a with
  | create name entry => cases hok
  | fork regs => exact hP.fork h hnonzero hs
  | exit code regs => exact hP.exit h (.inl hnonzero) hs
  | wait pid regs => exact hP.wait h (.inl hnonzero) hs
  | tick regs =>
      obtain ⟨own, hplaced⟩ := h.placed
      exact hP.tick hplaced (.inl hnonzero) hs
  | allocPage virtAddr => exact inv_allocPage h hok.1 hok.2 hs
  | exec fs path regs => exact inv_exec h hok hs

theorem ForkInv.framesApart (h : ForkInv s) : FramesApart s := by
  obtain ⟨own, hplaced⟩ := h.placed
  have hlaid := hplaced.frames
  have hused : ∀ f, own f ≠ .free → f ∉ s.free := by
    intro f hf hmem
    exact hf (hlaid.free_of_mem hmem)
  have hdir : ∀ t, 0 ≤ (s.sched.tasks t).pid → own (s.sched.tasks t).pageDir = .dir t :=
    fun t ht => hplaced.owners.dir t ht (hplaced.owners.admitted t ht)
  refine ⟨hlaid.stacked.nodup, ?_, ?_, ?_, ?_, hlaid.stacked.length_le⟩
  · intro t ht
    exact hused _ (by simp [hdir t ht])
  · intro t ht
    by_cases hzero : (s.sched.tasks t).kernelStackBase = 0
    · rw [hzero]
      intro hmem
      have hfree : own 0 = .free := hlaid.free_of_mem hmem
      exact zero_not_mem_bootFrames (hlaid.stacked.boot 0 (by simp [hfree]))
    · exact hused _ (by simp [hplaced.owners.stack t ht hzero])
  · intro t ht i hi hp
    have hload := Laid.load hlaid (hdir t ht)
    have hself : frameOf (pdeAt s.mem (s.sched.tasks t).pageDir 1023) = (s.sched.tasks t).pageDir := by
      have hentry := hload.core.self
      have hframe := hload.core.dir
      rw [show pdeAt s.mem (s.sched.tasks t).pageDir 1023 = _ from hentry]
      exact frameOf_or hframe.1 hframe.lt (by decide)
    apply hused
    by_cases hfirst : i = 0
    · rw [hfirst, show frameOf (pdeAt s.mem (s.sched.tasks t).pageDir 0) = idTable from
        hload.core.first.2, hlaid.id]
      decide
    · by_cases hlast : i = 1023
      · rw [hlast, hself, hdir t ht]
        simp
      · have htable := hlaid.entries _ t (hdir t ht) i (by omega) (by omega) hp
        have htable' : own (frameOf (pdeAt s.mem (s.sched.tasks t).pageDir i)) = .table := htable
        simp [htable']
  · intro t ht i hi j hj hmapped huser
    have hload := Laid.load hlaid (hdir t ht)
    have hpage : own (frameOf (pteAt s.mem (s.sched.tasks t).pageDir i j)) = .page :=
      hload.page hi hj hmapped huser
    exact hused _ (by simp [hpage])

/-- **Every frame has one use**, in every run of the processes from boot. -/
theorem frames_apart {m : Nat → UInt8} {frames : Nat → Registers} {bssEnd esp0 timerTicks : Nat}
    {s₀ s : Machine} (h₀ : Machine.boot m frames esp0 timerTicks = some s₀)
    (h : Reach (Machine.step bssEnd) (fun _ a => InUserSpace a) s₀ s) : FramesApart s := by
  have hinit : ForkInv s₀ := Inv.boot (fun v hv => hv) (fun _ hd => hd) h₀
  have hinv : ForkInv s := h.invariant hinit fun _ _ _ hinv hok hs => inv_step hinv hok hs
  exact hinv.framesApart

/-- A child exits and is collected, and its two frames are on top of the stack again. -/
theorem frames_apart_collected : ∃ s₀ s : Machine,
    Machine.boot (fun _ => 0) (fun _ => {}) 0 0 = some s₀ ∧
      s.free.take 2 = [0x3FF000, 0x3FE000] ∧ FramesApart s := by
  obtain ⟨s₀, s₁, s₂, s₃, s₄, hs₀, hs₁, hs₂, hs₃, hs₄, hfree, -⟩ := exists_collected
  exact ⟨s₀, s₄, hs₀, hfree, frames_apart hs₀ (.step (a := .wait (-1) 0) (.step (a := .exit 0 0)
    (.step (a := .tick 0) (.step (a := .fork 0) .refl trivial hs₁) trivial hs₂) trivial hs₃)
    trivial hs₄)⟩

end SRos.Process
