import SRos.Lib.Run
import SRos.Process.Steps

/-!
# Every task runs in its own address space

CR3 is only loaded for a task that has a directory. A task that `task_create` has made has none,
and is meant to run in the address space of the kernel; it runs there if the processor comes to it
from a task of which the same can be said.
-/

namespace SRos.Process

open Paging

/-- The current task runs in its address space, which is not in a free frame. -/
def OwnSpace (s : Machine) : Prop :=
  ∀ c, s.sched.current = some c → s.sched.cr3 = spaceOf s.sched c ∧ s.sched.cr3 ∉ s.free

instance (s : Machine) : Decidable (OwnSpace s) := by
  unfold OwnSpace
  infer_instance

/-- The operations on tasks. -/
def isTaskOp : ProcAct → Bool
  | .create _ _ | .fork _ | .exit _ _ | .wait _ _ | .tick _ => true
  | .allocPage _ | .exec _ _ _ => false

/-- The account of the free frames alone. -/
def StackedVm (own : Nat → Kind) (v : Vm) : Prop := Stacked own v.free

variable {bssEnd : Nat} {own : Nat → Kind} {s s' : Machine}

theorem stackedVm_pops {v v' : Vm} (h : StackedVm own v) (hpops : Pops v v') :
    ∃ own', StackedVm own' v' ∧ ∀ g, own g ≠ .free → own' g = own g := by
  obtain ⟨ps, hps⟩ := hpops.free
  unfold StackedVm at h
  have hfree : ∀ f ∈ ps, own f = .free := by
    intro f hf
    apply (h.mem_iff f).mp
    rw [hps]
    exact List.mem_append_left _ hf
  rw [hps] at h
  have hstacked : Stacked (fun f => if f ∈ ps then .page else own f) v'.free :=
    h.pops fun _ _ => by simp
  refine ⟨_, hstacked, ?_⟩
  intro g hg
  exact if_neg fun hmem => hg (hfree g hmem)

theorem accounts_stackedVm : Accounts bssEnd StackedVm where
  nonzero := by
    rintro own v f h hf rfl
    exact zero_not_mem_bootFrames (h.boot 0 hf)
  mem_free := fun h hf => (h.mem_iff _).mp hf
  load := fun h _ => h
  push := by
    intro own v f n h hf _
    apply Stacked.push h
    · rcases hf with hf | hf <;> simp [hf]
    · rcases hf with hf | hf <;> simp [hf]
  stack := by
    intro own v f v' n h hs
    obtain ⟨hfree, -⟩ := Pops.pfaAlloc hs
    unfold StackedVm at h ⊢
    rw [hfree] at h
    exact h.pop (by simp)
  clone := by
    intro own v d v' n h hs
    obtain ⟨-, ps, hps⟩ := Pops.pagingCloneDirectory hs
    unfold StackedVm at h ⊢
    have hfree : ∀ f ∈ d :: ps, own f = .free := by
      intro f hf
      apply (h.mem_iff f).mp
      rw [hps]
      exact List.mem_append_left _ hf
    rw [hps] at h
    have hstacked : Stacked (fun f => if f ∈ d :: ps then if f = d then .dir n else .page else own f)
        v'.free := by
      apply h.pops
      intro f _
      split <;> simp
    refine ⟨_, hstacked, ?_, ?_⟩
    · simp
    · intro g hg
      exact if_neg fun hmem => hg (hfree g hmem)

/-- `task_create` takes two frames and perhaps one for a table. -/
theorem inv_create {name : CStr} {entry : Nat} (h : Inv StackedVm (fun _ => True) s)
    (hs : s.create name entry = some s') : Inv StackedVm (fun _ => True) s' := by
  obtain ⟨own, hplaced⟩ := h.placed
  unfold Machine.create at hs
  split at hs
  · cases hs
    exact h
  · next t hslot =>
      obtain ⟨⟨k, v₁⟩, h₁, hs⟩ := Option.bind_eq_some_iff.mp hs
      obtain ⟨v₂, h₂, hs⟩ := Option.bind_eq_some_iff.mp hs
      obtain ⟨⟨u, v₃⟩, h₃, hs⟩ := Option.bind_eq_some_iff.mp hs
      obtain ⟨v₄, h₄, hs⟩ := Option.bind_eq_some_iff.mp hs
      obtain ⟨⟨r, sched⟩, hcreate, hs⟩ := Option.bind_eq_some_iff.mp hs
      cases hs
      have hP : Accounts 0 StackedVm := accounts_stackedVm
      obtain ⟨hframes₁, hk, hcr3₁, hkeep₁⟩ := hP.takeStack hplaced.frames h₁ t
      have hpops : Pops v₁ v₄ :=
        ((Pops.pagingMapUser h₂).trans (Pops.of_pfaAlloc h₃)).trans (Pops.pagingMapPage h₄)
      obtain ⟨own', hframes, hkeep'⟩ := stackedVm_pops hframes₁ hpops
      have hcr3 : v₄.cr3 = s.sched.cr3 := hpops.cr3.trans hcr3₁
      have hkeep : ∀ g, own g ≠ .free → own' g = own g := by
        intro g hg
        rw [hkeep' g (by rwa [hkeep₁ g hg]), hkeep₁ g hg]
      rcases taskCreate_spawned hcreate with rfl | ⟨t', parent, ht', -, hspawned⟩
      · exact h.setVm hplaced hframes hcr3 hkeep
      · obtain rfl : t = t' := Option.some.inj (hslot.symm.trans ht')
        apply h.spawn hplaced hframes hcr3 hkeep hspawned (hplaced.owners.linked.create hcreate)
          trivial
        · simp
        · rw [hkeep' k (by simp), Function.update_self]

theorem inv_taskOp {a : ProcAct} (h : Inv StackedVm (fun _ => True) s) (htask : isTaskOp a = true)
    (hok : SwitchOk s a) (hs : s.step bssEnd a = some s') : Inv StackedVm (fun _ => True) s' := by
  have hP : Accounts bssEnd StackedVm := accounts_stackedVm
  cases a with
  | create name entry => exact inv_create h hs
  | fork regs => exact hP.fork h (fun _ _ => trivial) hs
  | exit code regs => exact hP.exit h (.inr hok) hs
  | wait pid regs => exact hP.wait h (.inr hok) hs
  | tick regs =>
      obtain ⟨own, hplaced⟩ := h.placed
      exact hP.tick hplaced (.inr (hok _ rfl)) hs
  | allocPage virtAddr => cases htask
  | exec fs path regs => cases htask

theorem Inv.ownSpace (h : Inv StackedVm (fun _ => True) s) : OwnSpace s := by
  obtain ⟨own, hplaced⟩ := h.placed
  intro c hc
  refine ⟨hplaced.loaded c hc, ?_⟩
  intro hmem
  have hP : Accounts 0 StackedVm := accounts_stackedVm
  have hfree : own s.sched.cr3 = .free := hP.mem_free hplaced.frames hmem
  rcases hplaced.cr3 hc with hdir | hdir
  · rw [hfree] at hdir
    cases hdir
  · rw [hfree] at hdir
    cases hdir

/-- **Every task runs in its own address space**, as long as the processor never passes from a task
with a directory other than the boot directory to one without a directory. -/
theorem own_spaces {m : Nat → UInt8} {frames : Nat → Registers} {bssEnd esp0 timerTicks : Nat}
    {s₀ s : Machine} (h₀ : Machine.boot m frames esp0 timerTicks = some s₀)
    (h : Reach (Machine.step bssEnd) (fun s a => isTaskOp a = true ∧ SwitchOk s a) s₀ s) :
    OwnSpace s := by
  have hinit : Inv StackedVm (fun _ => True) s₀ :=
    Inv.boot (fun v hv => hv.stacked) (fun _ _ => trivial) h₀
  have hinv : Inv StackedVm (fun _ => True) s :=
    h.invariant hinit fun _ _ _ hinv hok hs => inv_taskOp hinv hok.1 hok.2 hs
  exact hinv.ownSpace

/-! ## A task without a directory in the address space of another -/

/-- `task_create` with an entry point in the kernel, when there are frames for it. -/
theorem exists_create {name : CStr} {entry k u t : Nat} {fs : List Nat} {r : Int} {sched : Sched}
    (h : Laid own s.vm) (hentry : entry < lowEnd) (hfree : s.free = k :: u :: t :: fs)
    (hcreate : taskCreate name entry k s.sched = some (r, sched)) :
    ∃ s', s.create name entry = some s' ∧ s'.sched = sched := by
  cases hslot : taskFindSlot s.sched with
  | none =>
      simp only [taskCreate, hslot, Option.some.injEq, Prod.mk.injEq] at hcreate
      exact ⟨s, by simp only [Machine.create, hslot], hcreate.2⟩
  | some slot =>
      have hcore : Core idTable ⟨s.mem, s.sched.cr3, u :: t :: fs⟩ :=
        h.core.congr rfl rfl fun _ _ => rfl
      have hframe : ∀ f ∈ s.free, IsFrame f ∧ f ≠ s.sched.cr3 ∧ f ≠ idTable := by
        intro f hf
        have hkind : own f = .free := h.free_of_mem hf
        obtain ⟨n, hn⟩ := h.cr3
        refine ⟨h.isFrame (by simp [hkind]), ?_, ?_⟩
        · intro heq
          have hdir : own f = .dir n := heq ▸ hn
          rw [hkind] at hdir
          cases hdir
        · rintro rfl
          rw [h.id] at hkind
          cases hkind
      obtain ⟨hu, -, -⟩ := hframe u (by simp [hfree])
      obtain ⟨ht, htd, htt⟩ := hframe t (by simp [hfree])
      obtain ⟨m, hmapUser, hcore', -⟩ := hcore.mapUser h.idTable_ne hentry
      have hstack : Core idTable ⟨m, s.sched.cr3, t :: fs⟩ :=
        hcore'.congr rfl rfl fun _ _ => rfl
      have haddr : userStackVaddr - 0x1000 = 0x37F * 2 ^ 22 + 0x3FF * 2 ^ 12 + 0 := rfl
      have hmap : ∃ v, pagingMapPage (userStackVaddr - 0x1000) u 0x07
          ⟨m, s.sched.cr3, t :: fs⟩ = some v := by
        rw [haddr]
        cases hpde : present (pdeAt m s.sched.cr3 0x37F) with
        | true => exact ⟨_, hstack.mapPage_present (by decide) (by decide) (by decide) hu hpde⟩
        | false =>
            have habsent := @Core.mapPage_absent idTable _ 0x37F 0x3FF 0 u t fs hstack (by decide)
              (by decide) (by decide) (by decide) hu ht h.idTable_ne htd htt hpde rfl
            obtain ⟨m', hm', -⟩ := habsent
            exact ⟨_, hm'⟩
      obtain ⟨v, hv⟩ := hmap
      refine ⟨{ s.setVm v with sched := sched }, ?_, rfl⟩
      have halloc : pfaAlloc s.vm = some (k, ⟨s.mem, s.sched.cr3, u :: t :: fs⟩) := by
        unfold pfaAlloc Machine.vm
        dsimp only
        rw [hfree]
      have halloc' : pfaAlloc ⟨m, s.sched.cr3, u :: t :: fs⟩ =
          some (u, ⟨m, s.sched.cr3, t :: fs⟩) := rfl
      unfold Machine.create
      rw [hslot]
      simp only [halloc, Option.bind_eq_bind, Option.bind_some, hmapUser, halloc', hv, hcreate]
      rfl

/-- The first task forks, and the child runs in its directory. -/
theorem own_spaces_fork : ∃ s₀ s : Machine, Machine.boot (fun _ => 0) (fun _ => {}) 0 0 = some s₀ ∧
    s.sched.current = some 1 ∧ s.sched.cr3 = 0x3FF000 ∧ OwnSpace s := by
  have htrace : (schedulerInit (Sched.bss (fun _ => {}) bootDir 0 0)).any (fun s =>
      (taskFindSlot s).isSome && (taskFork 0 0x3FF000 0x3FE000 s).any fun s₁ =>
        decide (KeepsSpace s₁.2) && (schedulerTick 32 0 s₁.2).any fun s₂ =>
          decide (s₂.2.current = some 1 ∧ s₂.2.cr3 = 0x3FF000)) = true := by decide +kernel
  obtain ⟨sched₀, hinit, htrace⟩ := (Option.any_eq_true _ _).mp htrace
  obtain ⟨hslot, htrace⟩ := (Bool.and_eq_true _ _).mp htrace
  obtain ⟨slot, hslot⟩ := Option.isSome_iff_exists.mp hslot
  obtain ⟨⟨r₁, sched₁⟩, hfork, htrace⟩ := (Option.any_eq_true _ _).mp htrace
  obtain ⟨hkeeps, htrace⟩ := (Bool.and_eq_true _ _).mp htrace
  obtain ⟨⟨f₂, sched₂⟩, htick, htrace⟩ := (Option.any_eq_true _ _).mp htrace
  obtain ⟨hcur, hcr3⟩ := of_decide_eq_true htrace
  obtain ⟨s₀, v, own, hs₀, rfl, hclone, -, -, fs, hfree⟩ := exists_clone_boot 0x110DA0 hinit
  have hs₁ := fork_eq hslot hclone (by decide) hfree hfork
  have hswitch : SwitchOk (Machine.mk sched₁ v.mem (0x3FD000 :: 0x3FC000 :: 0x3FB000 :: fs)) (.tick 0) := by
    intro σ hσ
    obtain rfl : sched₁ = σ := Option.some.inj hσ
    exact of_decide_eq_true hkeeps
  exact ⟨s₀, _, hs₀, hcur, hcr3, own_spaces hs₀ (.step (a := .tick 0)
    (.step (a := .fork 0) .refl ⟨rfl, fun _ h => nomatch h⟩ hs₁) ⟨rfl, hswitch⟩ (tick_eq htick))⟩

/-- The first task forks, and creates a task. The processor goes to the child, and from it to the
created task, which runs in the address space of the child. -/
theorem not_own_spaces : ∃ s₀ s : Machine, Machine.boot (fun _ => 0) (fun _ => {}) 0 0 = some s₀ ∧
    Reach (Machine.step 0x110DA0) (fun _ a => isTaskOp a = true) s₀ s ∧ ¬ OwnSpace s := by
  have htrace : (schedulerInit (Sched.bss (fun _ => {}) bootDir 0 0)).any (fun s =>
      (taskFindSlot s).isSome && (taskFork 0 0x3FF000 0x3FE000 s).any fun s₁ =>
        (taskCreate ⟨[97], by decide⟩ 0x100000 0x3FD000 s₁.2).any fun s₂ =>
          (schedulerTick 32 0 s₂.2).any fun s₃ => (schedulerTick 32 0 s₃.2).any fun s₄ =>
            decide (s₄.2.current = some 2 ∧ s₄.2.cr3 = 0x3FF000 ∧ (s₄.2.tasks 2).pageDir = 0)) =
      true := by decide +kernel
  obtain ⟨sched₀, hinit, htrace⟩ := (Option.any_eq_true _ _).mp htrace
  obtain ⟨hslot, htrace⟩ := (Bool.and_eq_true _ _).mp htrace
  obtain ⟨slot, hslot⟩ := Option.isSome_iff_exists.mp hslot
  obtain ⟨⟨r₁, sched₁⟩, hfork, htrace⟩ := (Option.any_eq_true _ _).mp htrace
  obtain ⟨⟨r₂, sched₂⟩, hcreate, htrace⟩ := (Option.any_eq_true _ _).mp htrace
  obtain ⟨⟨f₃, sched₃⟩, htick, htrace⟩ := (Option.any_eq_true _ _).mp htrace
  obtain ⟨⟨f₄, sched₄⟩, htick', htrace⟩ := (Option.any_eq_true _ _).mp htrace
  obtain ⟨hcur, hcr3, hdir⟩ := of_decide_eq_true htrace
  obtain ⟨s₀, v, own, hs₀, rfl, hclone, hlaid, hcr3v, fs, hfree⟩ := exists_clone_boot 0x110DA0 hinit
  have hs₁ := fork_eq hslot hclone (by decide) hfree hfork
  -- the kernel stack of the child has been taken as well
  have hcr3₁ : sched₁.cr3 = v.cr3 := by
    rcases taskFork_spawned hfork with rfl | ⟨t, c, -, -, -, hspawned⟩
    · exact hcr3v.symm
    · exact hspawned.cr3.trans hcr3v.symm
  have hlaid₁ : Laid (Function.update own 0x3FE000 (.stack 1))
      (Machine.mk sched₁ v.mem (0x3FD000 :: 0x3FC000 :: 0x3FB000 :: fs)).vm := by
    have hpop := hlaid.pop hfree (.inr ⟨1, rfl⟩)
    unfold Machine.vm
    rw [hcr3₁]
    exact hpop
  obtain ⟨s₂, hs₂, rfl⟩ := exists_create hlaid₁ (by decide) rfl hcreate
  have hrun : Reach (Machine.step 0x110DA0) (fun _ a => isTaskOp a = true) s₀
      { s₂ with sched := sched₄ } := by
    refine .step (a := .tick 0) (.step (a := .tick 0) (.step (a := .create ⟨[97], by decide⟩ 0x100000)
      (.step (a := .fork 0) .refl rfl hs₁) rfl hs₂) rfl (tick_eq htick)) rfl (tick_eq htick')
  refine ⟨s₀, _, hs₀, hrun, ?_⟩
  intro hown
  have hspace : sched₄.cr3 = spaceOf sched₄ 2 := (hown 2 hcur).1
  have hdir' : (sched₄.tasks 2).pageDir = 0 := hdir
  have hcr3' : sched₄.cr3 = 0x3FF000 := hcr3
  rw [spaceOf, hdir', hcr3'] at hspace
  exact absurd hspace (by decide)

end SRos.Process
