import SRos.Paging.Pops
import SRos.Process.Owners

/-!
# What the operations keep

The invariant of the processes is stated over a predicate on the address space and on what its
frames are used for, of which only a few rules are needed: a directory can be loaded, frames of a
task can be given back, and frames can be taken for a kernel stack and for a clone. The predicate
is once that of the stack of free frames alone, and once that of the whole layout.
-/

namespace SRos.Process

open Paging

/-- The rules for a predicate that accounts for the frames. -/
structure Accounts (bssEnd : Nat) (P : (Nat → Kind) → Vm → Prop) : Prop where
  nonzero : ∀ {own v f}, P own v → own f ≠ .none → f ≠ 0
  mem_free : ∀ {own v f}, P own v → f ∈ v.free → own f = .free
  load : ∀ {own v d n}, P own v → own d = .dir n → P own { v with cr3 := d }
  push : ∀ {own v f n}, P own v → own f = .stack n ∨ own f = .dir n → f ≠ v.cr3 →
    P (Function.update own f .free) (pfaFree f v)
  stack : ∀ {own v f v' n}, P own v → pfaAlloc v = some (f, v') →
    P (Function.update own f (.stack n)) v'
  clone : ∀ {own v d v'} (n : Nat), P own v → pagingCloneDirectory bssEnd v = some (d, v') →
    ∃ own', P own' v' ∧ own' d = .dir n ∧ ∀ g, own g ≠ .free → own' g = own g

/-- The invariant of the processes, whatever state the current task is in. -/
structure Placed (P : (Nat → Kind) → Vm → Prop) (D : Nat → Prop) (own : Nat → Kind) (s : Machine) :
    Prop where
  frames : P own s.vm
  owners : Owners D own s.sched
  loaded : ∀ c, s.sched.current = some c → s.sched.cr3 = spaceOf s.sched c

/-- The invariant between the operations. -/
structure Inv (P : (Nat → Kind) → Vm → Prop) (D : Nat → Prop) (s : Machine) : Prop where
  placed : ∃ own, Placed P D own s
  running : ∀ c, s.sched.current = some c → (s.sched.tasks c).state = .running

variable {bssEnd : Nat} {P : (Nat → Kind) → Vm → Prop} {D : Nat → Prop} {own : Nat → Kind}
  {s s' : Machine}

/-- The loaded address space belongs to the current task or to the first one. -/
theorem Placed.cr3 (h : Placed P D own s) {c : Slot} (hc : s.sched.current = some c) :
    own s.sched.cr3 = .dir c ∨ own s.sched.cr3 = .dir 0 := by
  rw [h.loaded c hc]
  exact h.owners.space (h.owners.linked.live hc)

/-- `int $32`, in any state of the current task. -/
theorem Accounts.tick {regs : Nat} (hP : Accounts bssEnd P) (h : Placed P D own s)
    (hkeeps : (∀ d, D d → d ≠ 0) ∨ KeepsSpace s.sched) (hs : s.tick regs = some s') :
    Inv P D s' := by
  obtain ⟨⟨f, sched⟩, hf, hs⟩ := Option.bind_eq_some_iff.mp hs
  cases hs
  have hticked := schedulerTick_ticked hf
  have howners : Owners D own sched := h.owners.quiet hticked.quiet (h.owners.linked.tick hf)
  have hloaded : ∀ n, sched.current = some n → sched.cr3 = spaceOf sched n := by
    intro n hn
    obtain ⟨c, hc, -⟩ := h.owners.linked.current
    have hold := h.loaded c hc
    cases hticked.switch with
    | stay current cr3 =>
        obtain rfl : c = n := Option.some.inj (hc.symm.trans (current.symm.trans hn))
        rw [cr3, hold, spaceOf_congr (hticked.quiet.pageDir c)]
    | dispatch m current cr3 =>
        obtain rfl : m = n := Option.some.inj (current.symm.trans hn)
        rw [cr3]
        unfold spaceOf
        split
        · rfl
        · next hdir =>
            rw [hticked.quiet.pageDir, not_not] at hdir
            rw [hold]
            unfold spaceOf
            rcases schedulerTick_next hc hf hn with rfl | hhead
            · rw [if_neg (not_not.mpr hdir)]
            · rcases hkeeps with hnonzero | hkeeps
              · have hlive := h.owners.linked.readyHead_live hhead
                exact absurd hdir (hnonzero _ (h.owners.admitted m hlive))
              · rcases hkeeps c m hc hhead hdir with hzero | hboot
                · rw [if_neg (not_not.mpr hzero)]
                · rw [hboot, if_pos (by decide)]
  refine ⟨⟨own, ?_, howners, hloaded⟩, hticked.running⟩
  obtain ⟨n, hn, hlive⟩ := howners.linked.current
  have hspace := howners.space hlive
  rw [← hloaded n hn] at hspace
  rcases hspace with hdir | hdir
  · exact hP.load h.frames hdir
  · exact hP.load h.frames hdir

theorem Accounts.exit {code : Int} {regs : Nat} (hP : Accounts bssEnd P) (h : Inv P D s)
    (hok : (∀ d, D d → d ≠ 0) ∨ SwitchOk s (.exit code regs)) (hs : s.exit code regs = some s') : Inv P D s' := by
  obtain ⟨own, hplaced⟩ := h.placed
  obtain ⟨c, hc, -⟩ := hplaced.owners.linked.current
  have hexited : Exited s.sched (taskExit code s.sched) c := taskExit_exited hc
  have howners := hplaced.owners.exit (hplaced.owners.linked.exit hc (h.running c hc)) hexited
  have hzombie : Placed P D own { s with sched := taskExit code s.sched } := by
    refine ⟨?_, howners, ?_⟩
    · have hframes := hplaced.frames
      unfold Machine.vm at hframes ⊢
      rwa [hexited.cr3]
    · intro n hn
      obtain rfl : c = n := Option.some.inj (hc.symm.trans (hexited.current.symm.trans hn))
      obtain ⟨x, -, -, hdir, -, -, hq⟩ := hexited.quiet
      have hsame : ((taskExit code s.sched).tasks c).pageDir = (s.sched.tasks c).pageDir := by
        rw [hq.pageDir, Function.update_self, hdir]
      rw [hexited.cr3, hplaced.loaded c hc, spaceOf_congr hsame]
  exact hP.tick hzombie (hok.imp_right fun h => h _ rfl) hs

theorem foldl_pfaFree (ps : List Nat) (v : Vm) :
    ps.foldl (fun v f => pfaFree f v) v = { v with free := ps.reverse ++ v.free } := by
  induction ps generalizing v with
  | nil => rfl
  | cons f ps ih =>
      rw [List.foldl_cons, ih, List.reverse_cons, List.append_assoc]
      rfl

/-- Frames of a task are given back. -/
theorem Accounts.frees (hP : Accounts bssEnd P) {v : Vm} {ps : List Nat} {n : Nat} (h : P own v)
    (hnd : ps.Nodup) (hown : ∀ f ∈ ps, own f = .stack n ∨ own f = .dir n) (hcr3 : v.cr3 ∉ ps) :
    ∃ own', P own' (ps.foldl (fun v f => pfaFree f v) v) ∧ ∀ g ∉ ps, own' g = own g := by
  induction ps generalizing own v with
  | nil => exact ⟨own, h, fun _ _ => rfl⟩
  | cons f ps ih =>
      obtain ⟨hf, hnd⟩ := List.nodup_cons.mp hnd
      have hne : f ≠ v.cr3 := fun heq => hcr3 (by simp [heq])
      have hpush := hP.push h (hown f List.mem_cons_self) hne
      have hrest : ∀ g ∈ ps, Function.update own f .free g = .stack n ∨
          Function.update own f .free g = .dir n := by
        intro g hg
        have hgf : g ≠ f := by
          rintro rfl
          exact hf hg
        rw [Function.update_of_ne hgf]
        exact hown g (List.mem_cons_of_mem f hg)
      obtain ⟨own', hown', hkeep⟩ := ih hpush hnd hrest fun hmem => hcr3 (List.mem_cons_of_mem f hmem)
      refine ⟨own', hown', ?_⟩
      intro g hg
      rw [List.mem_cons, not_or] at hg
      rw [hkeep g hg.2, Function.update_of_ne hg.1]

theorem Owners.freed {sched : Sched} {z : Slot} (h : Owners D own sched)
    (hz : 0 ≤ (sched.tasks z).pid) :
    (freedFrames (sched.tasks z)).Nodup ∧
      ∀ f ∈ freedFrames (sched.tasks z), own f = .stack z ∨ own f = .dir z := by
  have hstack := h.stack z hz
  have hdir := h.dir z hz
  unfold freedFrames
  by_cases hs : (sched.tasks z).kernelStackBase = 0
  · by_cases hd : (sched.tasks z).pageDir = 0
    · simp [hs, hd]
    · simpa [hs, hd] using .inr (hdir hd)
  · by_cases hd : (sched.tasks z).pageDir = 0
    · simpa [hs, hd] using .inl (hstack hs)
    · have hne : (sched.tasks z).kernelStackBase ≠ (sched.tasks z).pageDir := by
        intro heq
        have hkinds := hstack hs
        rw [heq, hdir hd] at hkinds
        cases hkinds
      simp [hs, hd, hne, hstack hs, hdir hd]

/-- A zombie is collected. -/
theorem Accounts.collect (hP : Accounts bssEnd P) (h : Inv P D s) {c z : Slot} {pid : Int}
    (hc : s.sched.current = some c) (hchild : isChild s.sched c pid z = true)
    (hz : (s.sched.tasks z).state = .zombie) :
    Inv P D { s.setVm ((freedFrames (s.sched.tasks z)).foldl (fun v f => pfaFree f v) s.vm) with
      sched := cleared z s.sched } := by
  obtain ⟨own, hplaced⟩ := h.placed
  have hrun := h.running c hc
  have hzc : c ≠ z := by
    rintro rfl
    rw [hrun] at hz
    cases hz
  have hz₀ := hplaced.owners.not_child hc hchild
  have hlive : 0 ≤ (s.sched.tasks z).pid := by
    simp only [isChild, Bool.and_eq_true, decide_eq_true_eq] at hchild
    exact hchild.1.1
  obtain ⟨hnd, hfreed⟩ := hplaced.owners.freed hlive
  have hcr3 : s.vm.cr3 ∉ freedFrames (s.sched.tasks z) := by
    intro hmem
    have hmine := hplaced.cr3 hc
    have hkind := hfreed _ hmem
    unfold Machine.vm at hkind
    dsimp only at hkind
    rcases hmine with hmine | hmine
    · rw [hmine] at hkind
      simp only [reduceCtorEq, false_or, Kind.dir.injEq] at hkind
      exact hzc (Fin.ext hkind)
    · rw [hmine] at hkind
      simp only [reduceCtorEq, false_or, Kind.dir.injEq] at hkind
      exact hz₀ (Fin.ext hkind.symm)
  obtain ⟨own', hframes, hkeep⟩ := hP.frees hplaced.frames hnd hfreed hcr3
  rw [foldl_pfaFree] at hframes ⊢
  have howners : Owners D own (cleared z s.sched) :=
    hplaced.owners.replace (hplaced.owners.linked.collect hc hrun hz hlive) (.refl _) (by simp)
      (by simp) (by simp) fun heq => absurd heq hz₀
  -- the frames of the tasks that are left are not among those of `z`
  have hretag : Owners D own' (cleared z s.sched) := by
    apply howners.retag
    intro g t ht hg
    apply hkeep
    intro hmem
    have hzt : (z : Nat) = t := by
      rcases hfreed g hmem with hz' | hz'
      · rw [hz'] at hg
        simpa using hg
      · rw [hz'] at hg
        simpa using hg
    rw [← Fin.ext hzt] at ht
    simp [cleared] at ht
  refine ⟨⟨own', hframes, hretag, ?_⟩, ?_⟩
  · intro n hn
    obtain rfl : c = n := Option.some.inj (hc.symm.trans hn)
    have hspace : spaceOf (cleared z s.sched) c = spaceOf s.sched c :=
      spaceOf_congr (by simp [cleared, hzc])
    exact (hplaced.loaded c hc).trans hspace.symm
  · intro n hn
    obtain rfl : c = n := Option.some.inj (hc.symm.trans hn)
    simpa [cleared, hzc] using hrun

theorem Accounts.wait {pid : Int} {regs : Nat} (hP : Accounts bssEnd P) (h : Inv P D s)
    (hok : (∀ d, D d → d ≠ 0) ∨ SwitchOk s (.wait pid regs)) (hs : s.wait pid regs = some s') : Inv P D s' := by
  obtain ⟨own, hplaced⟩ := h.placed
  obtain ⟨c, hc, -⟩ := hplaced.owners.linked.current
  have hrun := h.running c hc
  unfold Machine.wait at hs
  rw [hc] at hs
  dsimp only at hs
  split at hs
  · next childPid exitCode freed sched hpass =>
      obtain ⟨z, hchild, hz, -, rfl, rfl⟩ := taskWait_collected hpass
      cases hs
      exact hP.collect h hc hchild hz
  · next sched hpass =>
      rw [taskWait_noChildren hpass] at hs
      cases hs
      exact h
  · next sched hpass =>
      have hkeeps : (∀ d, D d → d ≠ 0) ∨ KeepsSpace sched := by
        apply hok.imp_right
        intro hswitch
        apply hswitch
        simp [atInt, hc, hpass]
      obtain rfl := taskWait_blocked hpass
      have hblocked : Placed P D own { s with sched := s.sched.setState c .blocked } := by
        refine ⟨hplaced.frames, ?_, ?_⟩
        · exact hplaced.owners.replace (hplaced.owners.linked.setBlocked hc hrun) (.refl _)
            (hplaced.owners.admitted c) (hplaced.owners.dir c) (hplaced.owners.stack c) fun heq => heq ▸ hplaced.owners.init
        · intro n hn
          have hspace : spaceOf (s.sched.setState c .blocked) n = spaceOf s.sched n := by
            apply spaceOf_congr
            by_cases hnc : n = c
            · simp [Sched.setState, Sched.modify, hnc]
            · simp [Sched.setState, Sched.modify, hnc]
          exact (hplaced.loaded n hn).trans hspace.symm
      exact hP.tick hblocked hkeeps hs

section Spawn

variable {own' : Nat → Kind} {v : Vm} {sched : Sched} {t : Slot}

/-- Frames have been taken, and nothing else has changed. -/
theorem Inv.setVm (h : Inv P D s) (hplaced : Placed P D own s) (hframes : P own' v)
    (hcr3 : v.cr3 = s.sched.cr3) (hkeep : ∀ g, own g ≠ .free → own' g = own g) :
    Inv P D (s.setVm v) := by
  refine ⟨⟨own', ?_, hplaced.owners.keep hkeep, hplaced.loaded⟩, h.running⟩
  unfold Machine.vm Machine.setVm
  dsimp only
  rw [← hcr3]
  exact hframes

/-- A task has been made, with frames of its own. -/
theorem Inv.spawn {parent : Int} {pageDir stack : Nat} (h : Inv P D s) (hplaced : Placed P D own s)
    (hframes : P own' v) (hcr3 : v.cr3 = s.sched.cr3)
    (hkeep : ∀ g, own g ≠ .free → own' g = own g)
    (hs : Spawned s.sched sched t parent pageDir stack) (hlinked : sched.Linked)
    (hadmitted : D pageDir) (hdir : pageDir ≠ 0 → own' pageDir = .dir t)
    (hstack : own' stack = .stack t) : Inv P D { s.setVm v with sched := sched } := by
  have howners := (hplaced.owners.keep hkeep).spawn hlinked hs hadmitted hdir hstack
  obtain ⟨x, -, -, -, -, -, hq⟩ := hs.quiet
  have hother : ∀ c, s.sched.current = some c → c ≠ t := by
    rintro c hc rfl
    have hfree := hs.free
    have hlive := hplaced.owners.linked.live hc
    omega
  refine ⟨⟨own', ?_, howners, ?_⟩, ?_⟩
  · unfold Machine.vm Machine.setVm
    dsimp only
    rw [hs.cr3, ← hcr3]
    exact hframes
  · intro c hc
    have hc : s.sched.current = some c := hs.current.symm.trans hc
    have hsame : (sched.tasks c).pageDir = (s.sched.tasks c).pageDir := by
      rw [hq.pageDir, Function.update_of_ne (hother c hc)]
    dsimp only
    rw [hs.cr3, hplaced.loaded c hc, spaceOf_congr hsame]
  · intro c hc
    have hc' : s.sched.current = some c := hs.current.symm.trans hc
    apply hlinked.still_running hc hq
    rw [Function.update_of_ne (hother c hc')]
    exact h.running c hc'

end Spawn

/-- A frame for a kernel stack. -/
theorem Accounts.takeStack {v v' : Vm} {f : Nat} (hP : Accounts bssEnd P) (h : P own v)
    (hs : pfaAlloc v = some (f, v')) (n : Nat) :
    P (Function.update own f (.stack n)) v' ∧ own f = .free ∧ v'.cr3 = v.cr3 ∧
      ∀ g, own g ≠ .free → Function.update own f (.stack n) g = own g := by
  obtain ⟨hfree, hv'⟩ := Pops.pfaAlloc hs
  have hf : own f = .free := hP.mem_free h (by simp [hfree])
  refine ⟨hP.stack h hs, hf, by rw [hv'], ?_⟩
  intro g hg
  apply Function.update_of_ne
  rintro rfl
  exact hg hf

theorem Accounts.fork {regs : Nat} (hP : Accounts bssEnd P) (h : Inv P D s)
    (hD : ∀ d, d ≠ 0 → D d) (hs : s.fork bssEnd regs = some s') : Inv P D s' := by
  obtain ⟨own, hplaced⟩ := h.placed
  unfold Machine.fork at hs
  split at hs
  · cases hs
    exact h
  · next t hslot =>
      obtain ⟨⟨d, v₁⟩, hclone, hs⟩ := Option.bind_eq_some_iff.mp hs
      obtain ⟨own₁, hframes₁, hd, hkeep₁⟩ := hP.clone t hplaced.frames hclone
      have hcr3₁ : v₁.cr3 = s.sched.cr3 := (Pops.pagingCloneDirectory hclone).1
      have hd₀ : d ≠ 0 := hP.nonzero hframes₁ (by simp [hd])
      dsimp only at hs
      rw [if_neg hd₀] at hs
      obtain ⟨⟨k, v₂⟩, hstack, hs⟩ := Option.bind_eq_some_iff.mp hs
      obtain ⟨⟨r, sched⟩, hfork, hs⟩ := Option.bind_eq_some_iff.mp hs
      cases hs
      obtain ⟨hframes₂, hk, hcr3₂, hkeep₂⟩ := hP.takeStack hframes₁ hstack t
      have hkeep : ∀ g, own g ≠ .free → Function.update own₁ k (.stack t) g = own g := by
        intro g hg
        rw [hkeep₂ g (by rwa [hkeep₁ g hg]), hkeep₁ g hg]
      rcases taskFork_spawned hfork with rfl | ⟨t', c, ht', -, -, hspawned⟩
      · exact h.setVm hplaced hframes₂ (hcr3₂.trans hcr3₁) hkeep
      · obtain rfl : t = t' := Option.some.inj (hslot.symm.trans ht')
        apply h.spawn hplaced hframes₂ (hcr3₂.trans hcr3₁) hkeep hspawned
          (hplaced.owners.linked.fork hfork) (hD d hd₀)
        · intro _
          rw [hkeep₂ d (by simp [hd]), hd]
        · rw [Function.update_self]

/-- The first task runs in the boot directory. -/
theorem Inv.boot {m : Nat → UInt8} {frames : Nat → Registers} {esp0 timerTicks : Nat}
    (hboot : ∀ v, Laid (bootOwn 0) v → P (bootOwn 0) v) (hD : ∀ d, d ≠ 0 → D d)
    (h : Machine.boot m frames esp0 timerTicks = some s) : Inv P D s := by
  obtain ⟨v, hv, hcr3, hlaid, -⟩ := boot_laid m 0
  unfold Machine.boot at h
  rw [hv, Option.bind_eq_bind, Option.bind_some] at h
  obtain ⟨sched, hsched, h⟩ := Option.bind_eq_some_iff.mp h
  cases h
  obtain ⟨hcr3', hcur, ⟨hpid, hparent, hstate, hdir, hstack, -⟩, hfree⟩ := schedulerInit_tasks hsched
  rw [hcr3] at hcr3' hdir
  have hlive : ∀ t, 0 ≤ (sched.tasks t).pid → t = 0 := by
    intro t ht
    by_contra hne
    rw [hfree t hne] at ht
    omega
  refine ⟨⟨bootOwn 0, ?_, ⟨Sched.Linked.init hsched, ?_, ?_, ?_, ?_⟩, ?_⟩, ?_⟩
  · have hvm : v = ⟨v.mem, sched.cr3, v.free⟩ := by
      rw [hcr3', ← hcr3]
    exact hvm ▸ hboot v hlaid
  · intro t ht
    obtain rfl := hlive t ht
    rw [hdir]
    exact hD _ (by decide)
  · intro t ht _
    obtain rfl := hlive t ht
    rw [hdir]
    rfl
  · intro t ht hne
    obtain rfl := hlive t ht
    exact absurd hstack hne
  · exact ⟨hpid.ge, hparent, hdir⟩
  · intro c hc
    obtain rfl : 0 = c := Option.some.inj (hcur.symm.trans hc)
    unfold spaceOf
    dsimp only
    rw [hcr3', hdir, if_pos (by decide)]
  · intro c hc
    obtain rfl : 0 = c := Option.some.inj (hcur.symm.trans hc)
    exact hstate

/-! ## Steps that can be taken -/

/-- `task_fork` when the clone and the kernel stack can be allocated. -/
theorem fork_eq {v : Vm} {regs d k : Nat} {fs : List Nat} {slot : Slot} {r : Int} {sched : Sched}
    (hslot : taskFindSlot s.sched = some slot)
    (hclone : pagingCloneDirectory bssEnd s.vm = some (d, v)) (hd : d ≠ 0) (hfree : v.free = k :: fs)
    (hfork : taskFork regs d k s.sched = some (r, sched)) :
    s.fork bssEnd regs = some { sched := sched, mem := v.mem, free := fs } := by
  simp only [Machine.fork, hslot, hclone, Option.bind_eq_bind, Option.bind_some, hd, if_false,
    pfaAlloc, hfree, hfork]
  rfl

/-- The clone of the first fork is in the top frame of the stack, and takes no other. -/
theorem exists_clone_boot (bssEnd : Nat) {sched : Sched}
    (hinit : schedulerInit (Sched.bss (fun _ => {}) bootDir 0 0) = some sched) :
    ∃ s₀ v own, Machine.boot (fun _ => 0) (fun _ => {}) 0 0 = some s₀ ∧ s₀.sched = sched ∧
      pagingCloneDirectory bssEnd s₀.vm = some (0x3FF000, v) ∧ Laid own v ∧ v.cr3 = s₀.sched.cr3 ∧
      ∃ fs, v.free = 0x3FE000 :: 0x3FD000 :: 0x3FC000 :: 0x3FB000 :: fs := by
  obtain ⟨v₀, hv₀, hcr3, hlaid, hrest, hlen⟩ := boot_laid (fun _ => 0) 0
  have hstack : ∃ fs, v₀.free = 0x3FF000 :: 0x3FE000 :: 0x3FD000 :: 0x3FC000 :: 0x3FB000 :: fs := by
    obtain ⟨m', -, heq⟩ := boot_eq fun _ => 0
    obtain rfl := Option.some.inj (hv₀.symm.trans heq)
    exact ⟨_, rfl⟩
  obtain ⟨fs, hfs⟩ := hstack
  have hcr3' : sched.cr3 = bootDir := (schedulerInit_tasks hinit).1
  have hboot : Machine.boot (fun _ => 0) (fun _ => {}) 0 0 = some ⟨sched, v₀.mem, v₀.free⟩ := by
    unfold Machine.boot
    rw [hv₀, Option.bind_eq_bind, Option.bind_some, hcr3, hinit]
    rfl
  have hvm : (Machine.mk sched v₀.mem v₀.free).vm = v₀ := by
    unfold Machine.vm
    rw [hcr3', ← hcr3]
  have hone := boot_framesForClone hlaid hcr3 hrest (kernelEndPage bssEnd)
  rcases @pagingCloneDirectory_cases bssEnd v₀ hlaid.cloneable with ⟨d, log, v, hrun, hcloned⟩ | ⟨-, hlt⟩
  · have hlog : log = [] := by
      have hcount := hcloned.len
      exact List.eq_nil_of_length_eq_zero (by omega)
    have hpops := hcloned.pops
    rw [hlog, hfs] at hpops
    obtain ⟨hd, hv⟩ := List.cons.inj hpops
    rw [← hd] at hrun
    obtain ⟨own', hlaid', -, -, hcr3v, -⟩ := hlaid.clone hrun 1
    refine ⟨_, v, own', hboot, rfl, by rwa [hvm], hlaid', ?_, fs, hv.symm⟩
    rw [hcr3v, hcr3, hcr3']
  · omega

theorem tick_eq {regs f : Nat} {sched : Sched} (h : schedulerTick 32 regs s.sched = some (f, sched)) :
    s.tick regs = some { s with sched := sched } := by
  unfold Machine.tick
  rw [h]
  rfl

/-- The first task forks. The child runs and exits, and its parent collects it. -/
theorem exists_collected : ∃ s₀ s₁ s₂ s₃ s₄ : Machine,
    Machine.boot (fun _ => 0) (fun _ => {}) 0 0 = some s₀ ∧
    s₀.step 0x110DA0 (.fork 0) = some s₁ ∧ s₁.step 0x110DA0 (.tick 0) = some s₂ ∧
    s₂.step 0x110DA0 (.exit 0 0) = some s₃ ∧ s₃.step 0x110DA0 (.wait (-1) 0) = some s₄ ∧
    s₄.free.take 2 = [0x3FF000, 0x3FE000] ∧ s₃.sched.current = some 0 ∧
    (s₃.sched.tasks 0).pid = 0 ∧
    (taskWait (-1) 0 s₃.sched).1 = .collected 1 0 [0x3FE000, 0x3FF000] := by
  have htrace : (schedulerInit (Sched.bss (fun _ => {}) bootDir 0 0)).any (fun s =>
      (taskFindSlot s).isSome && (taskFork 0 0x3FF000 0x3FE000 s).any fun s₁ =>
        (schedulerTick 32 0 s₁.2).any fun s₂ => (schedulerTick 32 0 (taskExit 0 s₂.2)).any fun s₃ =>
          decide (s₃.2.current = some (0 : Slot) ∧ (s₃.2.tasks 0).pid = (0 : Int)) &&
          match taskWait (-1) 0 s₃.2 with
          | (.collected childPid exitCode freed, _) =>
              decide (childPid = (1 : Int) ∧ exitCode = (0 : Int) ∧ freed = [0x3FE000, 0x3FF000])
          | _ => false) = true := by decide +kernel
  obtain ⟨sched₀, hinit, htrace⟩ := (Option.any_eq_true _ _).mp htrace
  obtain ⟨hslot, htrace⟩ := (Bool.and_eq_true _ _).mp htrace
  obtain ⟨slot, hslot⟩ := Option.isSome_iff_exists.mp hslot
  obtain ⟨⟨r₁, sched₁⟩, hfork, htrace⟩ := (Option.any_eq_true _ _).mp htrace
  obtain ⟨⟨f₂, sched₂⟩, htick, htrace⟩ := (Option.any_eq_true _ _).mp htrace
  obtain ⟨⟨f₃, sched₃⟩, hexit, htrace⟩ := (Option.any_eq_true _ _).mp htrace
  obtain ⟨hcur, hend⟩ := (Bool.and_eq_true _ _).mp htrace
  obtain ⟨hcur, hpid⟩ := of_decide_eq_true hcur
  obtain ⟨s₀, v, own, hs₀, rfl, hclone, -, -, fs, hfree⟩ := exists_clone_boot 0x110DA0 hinit
  have hs₁ := fork_eq hslot hclone (by decide) hfree hfork
  split at hend
  · next childPid exitCode freed sched₄ hwait =>
      obtain ⟨rfl, rfl, rfl⟩ := of_decide_eq_true hend
      have hpass : taskWait (-1) 0 sched₃ = (.collected 1 0 [0x3FE000, 0x3FF000], sched₄) := hwait
      have hs₄ : Machine.wait (-1) 0 ⟨sched₃, v.mem, 0x3FD000 :: 0x3FC000 :: 0x3FB000 :: fs⟩ =
          some ⟨sched₄, v.mem, 0x3FF000 :: 0x3FE000 :: 0x3FD000 :: 0x3FC000 :: 0x3FB000 :: fs⟩ := by
        have hcur' : sched₃.current = some 0 := hcur
        unfold Machine.wait
        rw [show Machine.sched ⟨sched₃, v.mem, 0x3FD000 :: 0x3FC000 :: 0x3FB000 :: fs⟩ = sched₃ from rfl,
          hcur']
        simp only [hpass]
        rfl
      exact ⟨s₀, _, _, _, _, hs₀, hs₁, tick_eq htick, tick_eq hexit, hs₄, rfl, hcur, hpid,
        congrArg Prod.fst hpass⟩
  · cases hend

end SRos.Process
