import SRos.Process.Model
import SRos.Sched.Linked

/-!
# Who the directories and kernel stacks belong to

Every live task has its directory and its kernel stack in frames of its own. A task that
`task_create` has made has no directory, and the first task has the boot directory and no kernel
stack of the allocator.
-/

namespace SRos.Process

open Paging

/-- The frames of the live tasks are used as `own` says, and all their directories are ones that
`D` admits. -/
structure Owners (D : Nat → Prop) (own : Nat → Kind) (s : Sched) : Prop where
  linked : s.Linked
  admitted : ∀ t, 0 ≤ (s.tasks t).pid → D (s.tasks t).pageDir
  dir : ∀ t, 0 ≤ (s.tasks t).pid → (s.tasks t).pageDir ≠ 0 → own (s.tasks t).pageDir = .dir t
  stack : ∀ t, 0 ≤ (s.tasks t).pid → (s.tasks t).kernelStackBase ≠ 0 →
    own (s.tasks t).kernelStackBase = .stack t
  init : 0 ≤ (s.tasks 0).pid ∧ (s.tasks 0).parentPid = -1 ∧ (s.tasks 0).pageDir = bootDir

namespace Owners

variable {D : Nat → Prop} {own own' : Nat → Kind} {s s' : Sched} {c t : Slot}

/-- The frames of live tasks keep their kind. -/
theorem retag (h : Owners D own s) (hkeep : ∀ g t, 0 ≤ (s.tasks t).pid →
    own g = .dir t ∨ own g = .stack t → own' g = own g) : Owners D own' s where
  linked := h.linked
  admitted := h.admitted
  dir := by
    intro t ht hdir
    have hown := h.dir t ht hdir
    rw [hkeep _ t ht (.inl hown), hown]
  stack := by
    intro t ht hstack
    have hown := h.stack t ht hstack
    rw [hkeep _ t ht (.inr hown), hown]
  init := h.init

/-- Frames in use keep their kind. -/
theorem keep (h : Owners D own s) (hkeep : ∀ g, own g ≠ .free → own' g = own g) : Owners D own' s := by
  apply h.retag
  rintro g t - (hg | hg)
  · exact hkeep g (by simp [hg])
  · exact hkeep g (by simp [hg])

theorem quiet (h : Owners D own s) (hq : Quiet s.tasks s'.tasks) (hlinked : s'.Linked) :
    Owners D own s' where
  linked := hlinked
  admitted := by
    intro t
    rw [hq.pid, hq.pageDir]
    exact h.admitted t
  dir := by
    intro t
    rw [hq.pid, hq.pageDir]
    exact h.dir t
  stack := by
    intro t
    rw [hq.pid, hq.stack]
    exact h.stack t
  init := by
    rw [hq.pid, hq.parent, hq.pageDir]
    exact h.init

/-- One task is replaced. -/
theorem replace {x : Task} (h : Owners D own s) (hlinked : s'.Linked)
    (hq : Quiet (Function.update s.tasks t x) s'.tasks)
    (hadmitted : 0 ≤ x.pid → D x.pageDir)
    (hdir : 0 ≤ x.pid → x.pageDir ≠ 0 → own x.pageDir = .dir t)
    (hstack : 0 ≤ x.pid → x.kernelStackBase ≠ 0 → own x.kernelStackBase = .stack t)
    (hinit : t = 0 → 0 ≤ x.pid ∧ x.parentPid = -1 ∧ x.pageDir = bootDir) : Owners D own s' where
  linked := hlinked
  admitted := by
    intro u
    rw [hq.pid, hq.pageDir]
    by_cases hu : u = t
    · rw [hu, Function.update_self]
      exact hadmitted
    · rw [Function.update_of_ne hu]
      exact h.admitted u
  dir := by
    intro u
    rw [hq.pid, hq.pageDir]
    by_cases hu : u = t
    · rw [hu, Function.update_self]
      exact hdir
    · rw [Function.update_of_ne hu]
      exact h.dir u
  stack := by
    intro u
    rw [hq.pid, hq.stack]
    by_cases hu : u = t
    · rw [hu, Function.update_self]
      exact hstack
    · rw [Function.update_of_ne hu]
      exact h.stack u
  init := by
    rw [hq.pid, hq.parent, hq.pageDir]
    by_cases ht : 0 = t
    · rw [← ht, Function.update_self]
      exact hinit ht.symm
    · rw [Function.update_of_ne ht]
      exact h.init

/-- A new task whose frames are its own. -/
theorem spawn {parent : Int} {pageDir stack : Nat} (h : Owners D own s) (hlinked : s'.Linked)
    (hs : Spawned s s' t parent pageDir stack) (hadmitted : D pageDir)
    (hdir : pageDir ≠ 0 → own pageDir = .dir t) (hstack : own stack = .stack t) :
    Owners D own s' := by
  obtain ⟨x, -, -, rfl, rfl, -, hq⟩ := hs.quiet
  refine h.replace hlinked hq (fun _ => hadmitted) (fun _ => hdir) (fun _ _ => hstack) ?_
  rintro rfl
  have hfree := hs.free
  have hlive := h.init.1
  omega

theorem exit (h : Owners D own s) (hlinked : s'.Linked) (hs : Exited s s' c) : Owners D own s' := by
  obtain ⟨x, hpid, hparent, hdir, hstack, -, hq⟩ := hs.quiet
  refine h.replace hlinked hq ?_ ?_ ?_ ?_
  · rw [hpid, hdir]
    exact h.admitted c
  · rw [hpid, hdir]
    exact h.dir c
  · rw [hpid, hstack]
    exact h.stack c
  · rintro rfl
    rw [hpid, hparent, hdir]
    exact h.init

/-- The first task is nobody's child. -/
theorem not_child (h : Owners D own s) (hc : s.current = some c) {pid : Int}
    (hchild : isChild s c pid t = true) : t ≠ 0 := by
  rintro rfl
  have hlive := h.linked.live hc
  have hinit := h.init
  simp only [isChild, Bool.and_eq_true, beq_iff_eq] at hchild
  omega

theorem bootDir_eq (h : Owners D own s) : own bootDir = .dir 0 := by
  obtain ⟨hlive, -, hdir⟩ := h.init
  have hown := h.dir 0 hlive (by rw [hdir]; decide)
  rwa [hdir] at hown

end Owners

/-- The address space that a task should run in: its own, or the one of the kernel. -/
def spaceOf (s : Sched) (t : Slot) : Nat :=
  if (s.tasks t).pageDir ≠ 0 then (s.tasks t).pageDir else bootDir

theorem spaceOf_congr {s s' : Sched} {t : Slot} (h : (s'.tasks t).pageDir = (s.tasks t).pageDir) :
    spaceOf s' t = spaceOf s t := by
  unfold spaceOf
  rw [h]

/-- An address space belongs to its task or to the first one. -/
theorem Owners.space {D : Nat → Prop} {own : Nat → Kind} {s : Sched} {t : Slot} (h : Owners D own s)
    (ht : 0 ≤ (s.tasks t).pid) :
    own (spaceOf s t) = .dir t ∨ own (spaceOf s t) = .dir 0 := by
  unfold spaceOf
  split
  · next hdir => exact .inl (h.dir t ht hdir)
  · exact .inr h.bootDir_eq

/-- The next task can run in the address space that is loaded, if it has none of its own: the one
of the running task is that of the kernel. -/
def KeepsSpace (s : Sched) : Prop :=
  ∀ c n, s.current = some c → s.readyHead = some n → (s.tasks n).pageDir = 0 →
    (s.tasks c).pageDir = 0 ∨ (s.tasks c).pageDir = bootDir

instance (s : Sched) : Decidable (KeepsSpace s) := by
  unfold KeepsSpace
  infer_instance

/-- The scheduler's variables at the `int $32` of an operation. -/
def atInt (s : Sched) : ProcAct → Option Sched
  | .tick _ => some s
  | .exit code _ => some (taskExit code s)
  | .wait pid _ =>
      match s.current with
      | none => none
      | some c =>
          match taskWait pid c s with
          | (.blocked, s') => some s'
          | _ => none
  | _ => none

/-- A switch of the operation keeps the address spaces apart. -/
def SwitchOk (s : Machine) (a : ProcAct) : Prop := ∀ σ ∈ atInt s.sched a, KeepsSpace σ

instance (s : Machine) (a : ProcAct) : Decidable (SwitchOk s a) := by
  unfold SwitchOk
  infer_instance

end SRos.Process
