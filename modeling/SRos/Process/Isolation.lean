import SRos.Elf.Loads
import SRos.Paging.Isolation
import SRos.Process.Frames

/-!
# Every task has a memory of its own

Tasks run in ring 3 between the operations of the kernel, and store bytes at user addresses. What a
task finds at its user addresses is only changed by its own stores, by the pages it allocates and
by the programs it loads. A child starts with a copy of what its parent finds.
-/

namespace SRos.Process

open Paging Elf

variable {bssEnd : Nat} {own : Nat → Kind} {s s' : Machine} {t c : Slot}

/-! ## Stores in ring 3 -/

/-- A store of the running task. If it faults, the kernel panics. -/
def Machine.store (virtAddr : UInt32) (b : UInt8) (s : Machine) : Option Machine :=
  (userAddr s.mem s.sched.cr3 true virtAddr.toNat).map fun a =>
    { s with mem := Function.update s.mem a b }

inductive UserAct where
  /-- An operation of the kernel. -/
  | kernel (a : ProcAct)
  | store (virtAddr : UInt32) (b : UInt8)

def Machine.userStep (bssEnd : Nat) (s : Machine) : UserAct → Option Machine
  | .kernel a => s.step bssEnd a
  | .store virtAddr b => s.store virtAddr b

/-- Operations of the kernel are those with user addresses. Stores may go anywhere. -/
def UserAct.InUserSpace : UserAct → Prop
  | .kernel a => Process.InUserSpace a
  | .store _ _ => True

/-- What a task finds at its user addresses. -/
def Machine.seen (s : Machine) (t : Slot) (v : UInt32) : Option UInt8 :=
  userByte s.mem (s.sched.tasks t).pageDir v.toNat

/-- The slot holds a task. -/
def Machine.Live (s : Machine) (t : Slot) : Prop := 0 ≤ (s.sched.tasks t).pid

instance (s : Machine) (t : Slot) : Decidable (s.Live t) := inferInstanceAs (Decidable (0 ≤ _))

/-- What the action may make of the memory `x` of the task that takes it. -/
def UserAct.Changes (x : UInt32 → Option UInt8) : UserAct → (UInt32 → Option UInt8) → Prop
  | .store v b, y => y = Function.update x v (some b)
  | .kernel (.allocPage v), y => ∀ w : UInt32, w.toNat / 4096 ≠ v / 4096 → y w = x w
  | .kernel (.exec _ _ _), _ => True
  | .kernel _, y => y = x

/-- What the action does to the memories that the tasks see: that of the running task is changed as
the action says, those of the others stay, and a child finds what its parent finds. -/
structure OwnMemories (s : Machine) (a : UserAct) (s' : Machine) : Prop where
  running : ∀ c, s.sched.current = some c → s'.Live c → a.Changes (s.seen c) (s'.seen c)
  others : ∀ t, s.sched.current ≠ some t → s.Live t → s'.Live t → s'.seen t = s.seen t
  child : ∀ t, ¬ s.Live t → s'.Live t → ∃ c, s.sched.current = some c ∧ s'.seen t = s.seen c

/-! ## The directories of the tasks -/

/-- The directories of the live tasks. -/
def Dirs (s : Sched) (d : Nat) : Prop := ∃ t, 0 ≤ (s.tasks t).pid ∧ (s.tasks t).pageDir = d

/-- The invariant of the processes, with private directories. -/
structure Isolated (s : Machine) : Prop where
  inv : ForkInv s
  apart : Private (Dirs s.sched) s.mem

theorem Isolated.spaces (h : Isolated s) :
    ∃ own, Placed Laid (fun d => d ≠ 0) own s ∧ Spaces own (Dirs s.sched) s.vm := by
  obtain ⟨own, hplaced⟩ := h.inv.placed
  obtain ⟨c, hc, hlive⟩ := hplaced.owners.linked.current
  refine ⟨own, hplaced, hplaced.frames, ?_, h.apart, c, hlive, ?_⟩
  · rintro d ⟨t, ht, rfl⟩
    exact ⟨t, hplaced.owners.dir t ht (hplaced.owners.admitted t ht)⟩
  · have hcr3 := hplaced.loaded c hc
    rw [spaceOf, if_pos (hplaced.owners.admitted c hlive)] at hcr3
    exact hcr3.symm

theorem Isolated.cr3 (h : Isolated s) (hc : s.sched.current = some c) :
    s.sched.cr3 = (s.sched.tasks c).pageDir := by
  obtain ⟨own, hplaced⟩ := h.inv.placed
  rw [hplaced.loaded c hc, spaceOf,
    if_pos (hplaced.owners.admitted c (hplaced.owners.linked.live hc))]

/-- Two live tasks do not have the same directory. -/
theorem Isolated.dir_inj (h : Isolated s) {u : Slot} (ht : s.Live t) (hu : s.Live u)
    (heq : (s.sched.tasks t).pageDir = (s.sched.tasks u).pageDir) : t = u := by
  obtain ⟨own, hplaced⟩ := h.inv.placed
  have hdir := hplaced.owners.dir t ht (hplaced.owners.admitted t ht)
  rw [heq, hplaced.owners.dir u hu (hplaced.owners.admitted u hu)] at hdir
  exact (Fin.ext (Kind.dir.inj hdir)).symm

theorem live_dirs (ht : s.Live t) : Dirs s.sched (s.sched.tasks t).pageDir := ⟨t, ht, rfl⟩

/-! ## Operations that write no memory -/

/-- The memory is the same, and tasks may have gone but not come. -/
structure Calm (s s' : Machine) : Prop where
  mem : s'.mem = s.mem
  tasks : ∀ t, s'.Live t → (s'.sched.tasks t).pid = (s.sched.tasks t).pid ∧
    (s'.sched.tasks t).pageDir = (s.sched.tasks t).pageDir

namespace Calm

theorem refl (s : Machine) : Calm s s := ⟨rfl, fun _ _ => ⟨rfl, rfl⟩⟩

theorem live (h : Calm s s') (ht : s'.Live t) : s.Live t := by
  unfold Machine.Live at ht ⊢
  rw [← (h.tasks t ht).1]
  exact ht

theorem trans {s'' : Machine} (h : Calm s s') (h' : Calm s' s'') : Calm s s'' where
  mem := h'.mem.trans h.mem
  tasks := by
    intro t ht
    obtain ⟨hpid, hdir⟩ := h'.tasks t ht
    obtain ⟨hpid₀, hdir₀⟩ := h.tasks t (h'.live ht)
    exact ⟨hpid.trans hpid₀, hdir.trans hdir₀⟩

theorem of_quiet (hmem : s'.mem = s.mem) (hq : Quiet s.sched.tasks s'.sched.tasks) : Calm s s' :=
  ⟨hmem, fun t _ => ⟨hq.pid t, hq.pageDir t⟩⟩

theorem seen (h : Calm s s') (ht : s'.Live t) : s'.seen t = s.seen t := by
  unfold Machine.seen
  rw [h.mem, (h.tasks t ht).2]

theorem apart (h : Calm s s') (hs : Private (Dirs s.sched) s.mem) :
    Private (Dirs s'.sched) s'.mem := by
  rw [h.mem]
  refine hs.mono ?_
  rintro d ⟨t, ht, rfl⟩
  exact ⟨t, h.live ht, (h.tasks t ht).2.symm⟩

theorem ownMemories (h : Calm s s') {a : UserAct} (ha : ∀ x, a.Changes x x) : OwnMemories s a s' where
  running := by
    intro c _ hlive
    rw [h.seen hlive]
    exact ha _
  others := fun t _ _ ht => h.seen ht
  child := fun t ht ht' => absurd (h.live ht') ht

end Calm

theorem calm_tick {regs : Nat} (hs : s.tick regs = some s') : Calm s s' := by
  obtain ⟨⟨f, sched⟩, hf, hs⟩ := Option.bind_eq_some_iff.mp hs
  cases hs
  exact .of_quiet rfl (schedulerTick_ticked hf).quiet

theorem calm_exit {code : Int} {regs : Nat} (hc : s.sched.current = some c)
    (hs : s.exit code regs = some s') : Calm s s' := by
  have hexited : Exited s.sched (taskExit code s.sched) c := taskExit_exited hc
  obtain ⟨x, hpid, -, hdir, -, -, hq⟩ := hexited.quiet
  have hzombie : Calm s { s with sched := taskExit code s.sched } := by
    refine ⟨rfl, fun t _ => ?_⟩
    dsimp only
    rw [hq.pid, hq.pageDir]
    by_cases htc : t = c
    · rw [htc, Function.update_self]
      exact ⟨hpid, hdir⟩
    · rw [Function.update_of_ne htc]
      exact ⟨rfl, rfl⟩
  exact hzombie.trans (calm_tick hs)

theorem calm_wait {pid : Int} {regs : Nat} (hs : s.wait pid regs = some s') : Calm s s' := by
  unfold Machine.wait at hs
  split at hs
  · cases hs
    exact .refl s
  · next c hc =>
      split at hs
      · next childPid exitCode freed sched hpass =>
          obtain ⟨z, -, -, -, -, rfl⟩ := taskWait_collected hpass
          cases hs
          refine ⟨?_, fun t ht => ?_⟩
          · rw [foldl_pfaFree]
            rfl
          · have htz : t ≠ z := by
              rintro rfl
              simp [Machine.Live, cleared] at ht
            simp [cleared, Function.update_of_ne htz]
      · next sched hpass =>
          obtain rfl := taskWait_noChildren hpass
          cases hs
          exact .refl s
      · next sched hpass =>
          obtain rfl := taskWait_blocked hpass
          have hblocked : Calm s { s with sched := s.sched.setState c .blocked } := by
            refine ⟨rfl, fun t _ => ?_⟩
            by_cases htc : t = c
            · simp [Sched.setState, Sched.modify, htc]
            · simp [Sched.setState, Sched.modify, htc]
          exact hblocked.trans (calm_tick hs)

/-! ## Operations of the loaded address space -/

/-- The other tasks find what they found. -/
theorem Isolated.others (h : Isolated s) {own' : Nat → Kind} {v : Vm} (hspaces : Spaces own (Dirs s.sched) s.vm)
    (hspaces' : Spaces own' (Dirs s.sched) v) (hconfined : Confined own s.vm own' v)
    (ht : s.Live t) (hne : s.sched.current ≠ some t) (w : UInt32) :
    userByte v.mem (s.sched.tasks t).pageDir w.toNat = s.seen t w := by
  refine hspaces.userByte_kept hspaces' (live_dirs ht) (live_dirs ht)
    (hconfined.kept hspaces (live_dirs ht) ?_) w.toNat_lt
  intro heq
  obtain ⟨own₀, hplaced⟩ := h.inv.placed
  obtain ⟨c, hc, hlive⟩ := hplaced.owners.linked.current
  have hcr3 : s.vm.cr3 = (s.sched.tasks c).pageDir := h.cr3 hc
  rw [hcr3] at heq
  exact hne (h.dir_inj ht hlive heq ▸ hc)

/-- An operation that only changes the loaded address space. -/
theorem Isolated.ownMemories (h : Isolated s) {own' : Nat → Kind} {v : Vm} {a : UserAct}
    (hspaces : Spaces own (Dirs s.sched) s.vm) (hspaces' : Spaces own' (Dirs s.sched) v)
    (hconfined : Confined own s.vm own' v) (hmem : s'.mem = v.mem)
    (htasks : s'.sched.tasks = s.sched.tasks)
    (hown : ∀ c, s.sched.current = some c → s.Live c → a.Changes (s.seen c) (s'.seen c)) :
    OwnMemories s a s' where
  running := by
    intro c hc hlive
    unfold Machine.Live at hlive
    rw [htasks] at hlive
    exact hown c hc hlive
  others := by
    intro t hne ht _
    funext w
    unfold Machine.seen
    rw [hmem, htasks]
    exact h.others hspaces hspaces' hconfined ht hne w
  child := by
    intro t ht ht'
    unfold Machine.Live at ht ht'
    rw [htasks] at ht'
    exact absurd ht' ht

/-- A byte that the running task stores. -/
theorem Isolated.store (h : Isolated s) {virtAddr : UInt32} {b : UInt8}
    (hs : s.store virtAddr b = some s') :
    Isolated s' ∧ OwnMemories s (.store virtAddr b) s' := by
  obtain ⟨own, hplaced, hspaces⟩ := h.spaces
  obtain ⟨a, ha, rfl⟩ := Option.map_eq_some_iff.mp hs
  obtain ⟨i, j, hpage, hv, rfl⟩ := hspaces.userAddr_some hspaces.loaded virtAddr.toNat_lt ha
  have ho : virtAddr.toNat % 4096 < 4096 := Nat.mod_lt _ (by decide)
  obtain ⟨hspaces', hconfined⟩ :=
    @Spaces.store own (Dirs s.sched) s.vm i j (virtAddr.toNat % 4096) b hspaces hpage ho
  refine ⟨⟨h.inv.setVm hplaced hspaces'.laid rfl fun _ _ => rfl, hspaces'.apart⟩, ?_⟩
  refine h.ownMemories hspaces hspaces' hconfined rfl rfl fun c hc hlive => ?_
  have hdir : (s.sched.tasks c).pageDir = s.vm.cr3 := (h.cr3 hc).symm
  funext w
  have hbyte := @Spaces.store_userByte own (Dirs s.sched) s.vm i j (virtAddr.toNat % 4096) w.toNat b
    hspaces hpage ho w.toNat_lt
  rw [← hv] at hbyte
  refine (congrArg (fun d => userByte _ d w.toNat) hdir).trans (hbyte.trans ?_)
  by_cases hw : w = virtAddr
  · rw [hw, if_pos rfl, Function.update_self]
  · rw [if_neg fun heq => hw (UInt32.toNat_inj.mp heq), Function.update_of_ne hw]
    exact congrArg (fun d => userByte s.mem d w.toNat) hdir.symm

/-- A page that the running task allocates. -/
theorem Isolated.allocPage (h : Isolated s) {virtAddr : Nat} (hlow : 0x400000 ≤ virtAddr)
    (hhigh : virtAddr < 0xE0000000) (hs : s.allocPage virtAddr = some s') :
    Isolated s' ∧ OwnMemories s (.kernel (.allocPage virtAddr)) s' := by
  have hinv : ForkInv s' := inv_allocPage h.inv hlow hhigh hs
  obtain ⟨own, hplaced, hspaces⟩ := h.spaces
  obtain ⟨v, hv, hs⟩ := Option.bind_eq_some_iff.mp hs
  cases hs
  rw [show virtAddr = vaddr (virtAddr / 2 ^ 22) (virtAddr / 2 ^ 12 % 1024) (virtAddr % 4096) from
    vaddr_eq virtAddr] at hv
  obtain ⟨own', hspaces', hconfined⟩ :=
    hspaces.allocPage (by omega) (by omega) (by omega) (by omega) hv
  refine ⟨⟨hinv, hspaces'.apart⟩, h.ownMemories hspaces hspaces' hconfined rfl rfl ?_⟩
  intro c hc hlive w hw
  have hcr3 : s.vm.cr3 = (s.sched.tasks c).pageDir := h.cr3 hc
  have hbyte := hspaces.allocPage_userByte (v := w.toNat) (by omega) (by omega) (by omega) (by omega)
    hv w.toNat_lt (by omega)
  rw [hcr3] at hbyte
  exact hbyte

/-- Allocations and stores of the loader. -/
theorem Spaces.loads {D : Nat → Prop} {v v' : Vm} (h : Spaces own D v) (hl : Loads v v') :
    ∃ own', Spaces own' D v' ∧ Confined own v own' v' := by
  induction hl with
  | refl => exact ⟨own, h, .refl own v⟩
  | @alloc t u a _ ha hu ih =>
      obtain ⟨own₁, h₁, hconfined₁⟩ := ih
      unfold UserPage at ha
      rw [show a = vaddr (a / 2 ^ 22) (a / 2 ^ 12 % 1024) (a % 4096) from vaddr_eq a] at hu
      obtain ⟨own₂, h₂, hconfined₂⟩ :=
        h₁.allocPage (by omega) (by omega) (by omega) (by omega) hu
      exact ⟨own₂, h₂, hconfined₁.trans hconfined₂⟩
  | @store t u a b _ ha hu ih =>
      obtain ⟨own₁, h₁, hconfined₁⟩ := ih
      unfold UserPage at ha
      obtain ⟨p, hp, rfl⟩ := Option.map_eq_some_iff.mp hu
      rw [vaddr_eq a, translate_split h₁.laid.core.cr3_frame (by omega) (by omega)] at hp
      split at hp
      · next hmapped =>
          obtain ⟨hpde, hpte⟩ := mapped_iff.mp hmapped
          obtain rfl := Option.some.inj hp
          obtain ⟨h₂, hconfined₂⟩ := h₁.store (b := b) (o := a % 4096)
            ⟨⟨by omega, by omega, hpde⟩, by omega, hpte⟩ (by omega)
          exact ⟨own₁, h₂, hconfined₁.trans hconfined₂⟩
      · cases hp

/-- A program that the running task loads. -/
theorem Isolated.exec (h : Isolated s) {fs : Fs.FsState} {path : CStr} {regs : Nat}
    (hseg : ∀ ino, lookupPath fs path = some ino → hasEhdr fs ino → SegmentsInUser fs ino)
    (hs : s.exec fs path regs = some s') :
    Isolated s' ∧ OwnMemories s (.kernel (.exec fs path regs)) s' := by
  have hinv : ForkInv s' := inv_exec h.inv hseg hs
  obtain ⟨own, hplaced, hspaces⟩ := h.spaces
  obtain ⟨⟨r, frame, v⟩, hv, hs⟩ := Option.bind_eq_some_iff.mp hs
  cases hs
  obtain ⟨own', hspaces', hconfined⟩ := Spaces.loads hspaces (loads_of_exec hseg hv)
  exact ⟨⟨hinv, hspaces'.apart⟩,
    h.ownMemories hspaces hspaces' hconfined rfl rfl fun _ _ _ => trivial⟩

/-! ## Forks -/

/-- The task `t` has come, with the directory `d`, and the others are as they were. -/
structure Joined (s s' : Sched) (t : Slot) (d : Nat) : Prop where
  free : (s.tasks t).pid < 0
  dir : (s'.tasks t).pageDir = d
  others : ∀ u, u ≠ t → (s'.tasks u).pid = (s.tasks u).pid ∧
    (s'.tasks u).pageDir = (s.tasks u).pageDir

theorem joined_of_spawned {σ σ' : Sched} {t : Slot} {parent : Int} {d stack : Nat}
    (h : Spawned σ σ' t parent d stack) : Joined σ σ' t d := by
  obtain ⟨x, -, -, hdir, -, -, hq⟩ := h.quiet
  refine ⟨h.free, ?_, fun u hu => ?_⟩
  · rw [hq.pageDir, Function.update_self, hdir]
  · rw [hq.pid, hq.pageDir, Function.update_of_ne hu]
    exact ⟨rfl, rfl⟩

namespace Joined

variable {d : Nat}

theorem apart {σ σ' : Sched} {m : Nat → UInt8} (h : Joined σ σ' t d)
    (hm : Private (fun g => Dirs σ g ∨ g = d) m) : Private (Dirs σ') m := by
  refine hm.mono ?_
  rintro g ⟨u, hu, rfl⟩
  by_cases hut : u = t
  · exact .inr (hut ▸ h.dir)
  · obtain ⟨hpid, hdir⟩ := h.others u hut
    exact .inl ⟨u, hpid ▸ hu, hdir.symm⟩

/-- The tasks that were there find what they found, and the new one what its parent finds. -/
theorem ownMemories {c : Slot} {regs : Nat} (h : Joined s.sched s'.sched t d)
    (hc : s.sched.current = some c) (hlive : s.Live c)
    (hold : ∀ u, s.Live u → ∀ w : UInt32,
      userByte s'.mem (s.sched.tasks u).pageDir w.toNat = s.seen u w)
    (hnew : ∀ w : UInt32, userByte s'.mem d w.toNat = s.seen c w) :
    OwnMemories s (.kernel (.fork regs)) s' := by
  have hkept : ∀ u, s.Live u → s'.seen u = s.seen u := by
    intro u hu
    have hut : u ≠ t := by
      rintro rfl
      exact absurd h.free (not_lt.mpr hu)
    funext w
    unfold Machine.seen
    rw [(h.others u hut).2]
    exact hold u hu w
  refine ⟨fun e he _ => ?_, fun u _ hu _ => hkept u hu, fun u hu hu' => ⟨c, hc, ?_⟩⟩
  · obtain rfl : c = e := Option.some.inj (hc.symm.trans he)
    exact hkept c hlive
  · have hut : u = t := by
      by_contra hut
      unfold Machine.Live at hu hu'
      rw [(h.others u hut).1] at hu'
      exact hu hu'
    funext w
    unfold Machine.seen
    rw [hut, h.dir]
    exact hnew w

end Joined

theorem Isolated.fork (h : Isolated s) (hbss : bssEnd ≤ 0x400000) {regs : Nat}
    (hs : s.fork bssEnd regs = some s') :
    Isolated s' ∧ OwnMemories s (.kernel (.fork regs)) s' := by
  have hinv : ForkInv s' := accounts_laid.fork h.inv (fun _ hd => hd) hs
  obtain ⟨own, hplaced, hspaces⟩ := h.spaces
  unfold Machine.fork at hs
  split at hs
  · cases hs
    exact ⟨h, (Calm.refl s).ownMemories fun _ => rfl⟩
  · next t hslot =>
      obtain ⟨⟨d, v₁⟩, hclone, hs⟩ := Option.bind_eq_some_iff.mp hs
      obtain ⟨own₁, hcloned⟩ := hspaces.clone hbss hclone t
      have hd₀ : d ≠ 0 :=
        (@accounts_laid bssEnd).nonzero hcloned.spaces.laid (by simp [hcloned.kind])
      dsimp only at hs
      rw [if_neg hd₀] at hs
      obtain ⟨⟨k, v₂⟩, hstack, hs⟩ := Option.bind_eq_some_iff.mp hs
      obtain ⟨⟨r, sched⟩, hfork, hs⟩ := Option.bind_eq_some_iff.mp hs
      cases hs
      have hmem : v₂.mem = v₁.mem := by
        obtain ⟨-, hv₂⟩ := Pops.pfaAlloc hstack
        rw [hv₂]
      have hold : ∀ u, s.Live u → ∀ w : UInt32,
          userByte v₂.mem (s.sched.tasks u).pageDir w.toNat = s.seen u w := by
        intro u hu w
        rw [hmem]
        exact hspaces.userByte_kept hcloned.spaces (live_dirs hu) (.inl (live_dirs hu))
          (hcloned.kept _ (live_dirs hu)) w.toNat_lt
      have hapart : Private (fun g => Dirs s.sched g ∨ g = d) v₂.mem := by
        rw [hmem]
        exact hcloned.spaces.apart
      rcases taskFork_spawned hfork with rfl | ⟨t', c, -, hc, -, hspawned⟩
      · exact ⟨⟨hinv, hapart.mono fun g hg => .inl hg⟩, fun c _ hlive => funext (hold c hlive),
          fun u _ hu _ => funext (hold u hu), fun u hu hu' => absurd hu' hu⟩
      · have hjoined := joined_of_spawned hspawned
        have hcr3 : s.vm.cr3 = (s.sched.tasks c).pageDir := h.cr3 hc
        refine ⟨⟨hinv, hjoined.apart hapart⟩,
          hjoined.ownMemories hc (hplaced.owners.linked.live hc) hold fun w => ?_⟩
        have hcopied := hcloned.copied w.toNat w.toNat_lt
        rw [hcr3, ← hmem] at hcopied
        exact hcopied

/-! ## Runs -/

/-- The step lemma. -/
theorem Isolated.step (h : Isolated s) (hbss : bssEnd ≤ 0x400000) {a : UserAct}
    (hok : a.InUserSpace) (hs : s.userStep bssEnd a = some s') : Isolated s' ∧ OwnMemories s a s' := by
  have hcalm : ∀ {b : ProcAct}, Process.InUserSpace b → s.step bssEnd b = some s' → Calm s s' →
      (∀ x, (UserAct.kernel b).Changes x x) → Isolated s' ∧ OwnMemories s (.kernel b) s' :=
    fun hb hstep hcalm hsame =>
      ⟨⟨inv_step h.inv hb hstep, hcalm.apart h.apart⟩, hcalm.ownMemories hsame⟩
  cases a with
  | store virtAddr b => exact h.store hs
  | kernel a =>
      cases a with
      | create name entry => cases hok
      | fork regs => exact h.fork hbss hs
      | exit code regs =>
          obtain ⟨own, hplaced⟩ := h.inv.placed
          obtain ⟨c, hc, -⟩ := hplaced.owners.linked.current
          exact hcalm hok hs (calm_exit hc hs) fun _ => rfl
      | wait pid regs => exact hcalm hok hs (calm_wait hs) fun _ => rfl
      | tick regs => exact hcalm hok hs (calm_tick hs) fun _ => rfl
      | allocPage virtAddr => exact h.allocPage hok.1 hok.2 hs
      | exec fs path regs => exact h.exec hok hs

/-- The boot directory has no user space yet. -/
theorem Isolated.boot {m : Nat → UInt8} {frames : Nat → Registers} {esp0 timerTicks : Nat}
    (h : Machine.boot m frames esp0 timerTicks = some s) : Isolated s := by
  have hinv : ForkInv s := Inv.boot (fun v hv => hv) (fun _ hd => hd) h
  obtain ⟨v, hv, hcr3, hlaid, hrest, -⟩ := boot_laid m 0
  unfold Machine.boot at h
  rw [hv, Option.bind_eq_bind, Option.bind_some] at h
  obtain ⟨sched, hsched, h⟩ := Option.bind_eq_some_iff.mp h
  cases h
  obtain ⟨-, -, ⟨-, -, -, hdir, -, -⟩, hfree⟩ := schedulerInit_tasks hsched
  rw [hcr3] at hdir
  have hnone : ∀ {d i}, Dirs sched d → ¬ HasTable v.mem d i := by
    rintro d i ⟨t, ht, rfl⟩ ⟨hi₀, hi, hp⟩
    have ht₀ : t = 0 := by
      by_contra hne
      rw [hfree t hne] at ht
      exact absurd ht (by decide)
    rw [ht₀, hdir, hrest i hi₀ hi] at hp
    cases hp
  exact ⟨hinv, fun hd ht => absurd ht (hnone hd), fun hd ht => absurd ht (hnone hd),
    fun hd hp => absurd hp.1 (hnone hd), fun hd _ ht => absurd ht (hnone hd),
    fun hd _ hp => absurd hp.1 (hnone hd)⟩

section Runs

variable {m : Nat → UInt8} {frames : Nat → Registers} {esp0 timerTicks : Nat} {s₀ : Machine}

theorem Isolated.reach (h : Isolated s₀) (hbss : bssEnd ≤ 0x400000)
    (hrun : Reach (Machine.userStep bssEnd) (fun _ a => a.InUserSpace) s₀ s) : Isolated s :=
  hrun.invariant h fun _ _ _ hs hok hstep => (hs.step hbss hok hstep).1

/-- The action changes no memory that a task sees. -/
def UserAct.leavesMemory : UserAct → Bool
  | .store _ _ | .kernel (.allocPage _) | .kernel (.exec _ _ _) => false
  | .kernel _ => true

theorem UserAct.Changes.eq {a : UserAct} {x y : UInt32 → Option UInt8} (h : a.Changes x y)
    (ha : a.leavesMemory = true) : y = x := by
  cases a with
  | store virtAddr b => cases ha
  | kernel a =>
      cases a with
      | allocPage virtAddr => cases ha
      | exec fs path regs => cases ha
      | create name entry => exact h
      | fork regs => exact h
      | exit code regs => exact h
      | wait pid regs => exact h
      | tick regs => exact h

/-- Steps in which the task `t` is alive and does not change its memory itself. -/
def LeavesAlone (t : Slot) (s : Machine) (a : UserAct) : Prop :=
  a.InUserSpace ∧ s.Live t ∧ (s.sched.current = some t → a.leavesMemory = true)

end Runs

/-- A page is allocated at 4 MB, and a byte stored to it. -/
theorem Isolated.exists_page (h : Isolated s) (hfree : 2 ≤ s.free.length) :
    ∃ s₁ s₂ : Machine, s.allocPage 0x400000 = some s₁ ∧ s₁.store 0x400000 7 = some s₂ ∧
      s₁.sched = s.sched ∧ s₂.sched = s.sched := by
  obtain ⟨own, -, hspaces⟩ := h.spaces
  have haddr : (0x400000 : UInt32).toNat = vaddr 1 0 0 := by decide
  rcases hspaces.laid.allocPage_cases (i := 1) (j := 0) (o := 0) (by decide) (by decide) (by decide)
    (by decide) with ⟨f, own₁, v, hv, hnew, -⟩ | ⟨-, hless⟩
  · obtain ⟨own', hspaces', hconfined⟩ :=
      hspaces.allocPage (by decide) (by decide) (by decide) (by decide) hv
    have htranslate := hnew.maps 0 (by decide)
    rw [vaddr, translate_split hspaces'.laid.core.cr3_frame (by decide) (by decide)] at htranslate
    split at htranslate
    · next hmapped =>
        obtain ⟨hpde, hpte⟩ := mapped_iff.mp hmapped
        have huser := @Spaces.userAddr_eq _ _ _ v.cr3 1 0 0 true hspaces' hspaces'.loaded (by decide)
          (by decide) (by decide)
        rw [if_pos ⟨⟨by decide, by decide, hpde⟩, by decide, hpte⟩, hconfined.cr3, ← haddr] at huser
        have halloc : s.allocPage 0x400000 = some (s.setVm v) := by
          unfold Machine.allocPage
          rw [show (0x400000 : Nat) = vaddr 1 0 0 from rfl, hv]
          rfl
        have hstore : (s.setVm v).store 0x400000 7 = (some (frameOf (pteAt v.mem s.vm.cr3 1 0) + 0)).map
            fun a => { s.setVm v with mem := Function.update v.mem a 7 } := congrArg (Option.map _) huser
        exact ⟨s.setVm v, _, halloc, hstore, rfl, rfl⟩
    · cases htranslate
  · have hneed : framesForPage s.vm 1 ≤ 2 := by
      unfold framesForPage
      split <;> omega
    have hlen : s.vm.free.length = s.free.length := rfl
    omega

/-- The first task forks, allocates a page and stores a byte there. -/
theorem exists_stored : ∃ s₀ s₁ s₂ s₃ : Machine,
    Machine.boot (fun _ => 0) (fun _ => {}) 0 0 = some s₀ ∧
    s₀.userStep 0x110DA0 (.kernel (.fork 0)) = some s₁ ∧
    s₁.userStep 0x110DA0 (.kernel (.allocPage 0x400000)) = some s₂ ∧
    s₂.userStep 0x110DA0 (.store 0x400000 7) = some s₃ ∧
    s₂.sched = s₁.sched ∧ s₃.sched = s₁.sched ∧
    s₁.sched.current = some 0 ∧ s₁.Live 0 ∧ s₁.Live 1 := by
  have htrace : (schedulerInit (Sched.bss (fun _ => {}) bootDir 0 0)).any (fun s =>
      (taskFindSlot s).isSome && (taskFork 0 0x3FF000 0x3FE000 s).any fun s₁ =>
        decide (s₁.2.current = some (0 : Slot) ∧ 0 ≤ (s₁.2.tasks 0).pid ∧
          0 ≤ (s₁.2.tasks 1).pid)) = true := by
    decide +kernel
  obtain ⟨sched₀, hinit, htrace⟩ := (Option.any_eq_true _ _).mp htrace
  obtain ⟨hslot, htrace⟩ := (Bool.and_eq_true _ _).mp htrace
  obtain ⟨slot, hslot⟩ := Option.isSome_iff_exists.mp hslot
  obtain ⟨⟨r₁, sched₁⟩, hfork, htrace⟩ := (Option.any_eq_true _ _).mp htrace
  obtain ⟨hcur, hlive, hchild⟩ := of_decide_eq_true htrace
  obtain ⟨s₀, v, own, hs₀, rfl, hclone, -, -, fs, hfree⟩ := exists_clone_boot 0x110DA0 hinit
  have hs₁ := fork_eq hslot hclone (by decide) hfree hfork
  obtain ⟨hisolated, -⟩ := (Isolated.boot hs₀).step (a := .kernel (.fork 0)) (by decide) trivial hs₁
  obtain ⟨s₂, s₃, hs₂, hs₃, hsched₂, hsched₃⟩ := hisolated.exists_page (by simp)
  exact ⟨s₀, _, s₂, s₃, hs₀, hs₁, hs₂, hs₃, hsched₂, hsched₃, hcur, hlive, hchild⟩

end SRos.Process
