import SRos.Sched.Contexts

/-!
# Round robin

A timer interrupt puts the running task behind the ready ones and gives the processor to the first
of them, so that the tasks take turns in the order of the ready list.
-/

namespace SRos

/-- `ts` are the tasks of the ready list, the next one in front. -/
def ReadyList (s : Sched) (ts : List Slot) : Prop :=
  Queue.Chain (fun t => (s.tasks t).next) s.readyHead ts ∧ s.readyTail = ts.getLast?

/-- Timer interrupts one after the other, each with the frame at its address. The tasks that get the
processor are the result. -/
def ticks : List Nat → Sched → Option (List Slot × Sched)
  | [], s => some ([], s)
  | regs :: rest, s => do
      let (_, s) ← schedulerTick 32 regs s
      let c ← s.current
      let (cs, s) ← ticks rest s
      return (c :: cs, s)

/-- `c` is running, and `ts` wait for the processor. -/
structure Rotation (s : Sched) (c : Slot) (ts : List Slot) : Prop where
  ok : ∃ ls, (Kernel.bss s).view.Ok ls (fun _ => false) (fun _ => none) ∧ ls .ready = ts
  running : (Kernel.bss s).view.Running c

theorem ticks_snoc {rs : List Nat} {r f : Nat} {s s₁ s' : Sched} {cs : List Slot} {c : Slot}
    (h : ticks rs s = some (cs, s₁)) (hlast : schedulerTick 32 r s₁ = some (f, s'))
    (hc : s'.current = some c) : ticks (rs ++ [r]) s = some (cs ++ [c], s') := by
  induction rs generalizing s cs with
  | nil =>
      cases h
      simp [ticks, hlast, hc]
  | cons regs rest ih =>
      simp only [ticks, Option.pure_def, Option.bind_eq_bind, Option.bind_eq_some_iff, Prod.exists,
        Option.some.injEq, Prod.mk.injEq] at h
      obtain ⟨g, s₂, hfirst, d, hd, ds, s₃, hrest, rfl, rfl⟩ := h
      simp [ticks, hfirst, hd, ih hrest]

theorem pickNext_isSome {regs : Nat} {c : Slot} {s : Sched} (h : s.readyHead ≠ none) :
    ∃ f s', pickNext regs c s = some (f, s') := by
  unfold pickNext dequeueReady
  cases hh : s.readyHead with
  | none => exact absurd hh h
  | some t => exact ⟨_, _, rfl⟩

namespace Rotation

variable {s : Sched} {c t : Slot} {ts : List Slot}

theorem of_linked (h : s.Linked) (hc : s.current = some c) (hrun : (s.tasks c).state = .running)
    (hts : ReadyList s ts) : Rotation s c ts := by
  have hrunning := h.running hc hrun
  obtain ⟨ls, hok⟩ := h
  exact ⟨⟨ls, hok, (hok.linked.chain .ready).unique hts.1⟩, hrunning⟩

theorem current (h : Rotation s c ts) : s.current = some c := h.running.1

theorem readyList (h : Rotation s c ts) : ReadyList s ts := by
  obtain ⟨ls, hok, rfl⟩ := h.ok
  exact ⟨hok.linked.chain .ready, hok.linked.last .ready⟩

/-- With a task in the ready list there is more than one. -/
theorem taskCount (h : Rotation s c (t :: ts)) : s.taskCount > 1 := by
  obtain ⟨ls, hok, hls⟩ := h.ok
  have htmem : t ∈ ls .ready := by simp [hls]
  have hne : c ≠ t := by
    rintro rfl
    exact hok.not_mem_running h.running .ready htmem
  have htwo : 1 < liveCount fun u => (s.tasks u).pid := by
    have hclive : 0 ≤ (s.tasks c).pid := h.running.2.1
    have htlive : 0 ≤ (s.tasks t).pid := hok.mem_live htmem
    exact Finset.one_lt_card.mpr ⟨c, by simpa using hclive, t, by simpa using htlive, hne⟩
  have hcount : s.taskCount = liveCount fun u => (s.tasks u).pid := hok.count
  omega

/-- One timer interrupt. -/
theorem tick (h : Rotation s c (t :: ts)) (regs : Nat) :
    ∃ f s', schedulerTick 32 regs s = some (f, s') ∧ Rotation s' t (ts ++ [c]) := by
  have hcount := h.taskCount
  obtain ⟨ls, hok, hls⟩ := h.ok
  obtain ⟨hcur, hlive, hstate⟩ := h.running
  -- the scheduler when the running task has been put behind the others
  let s₁ := { s with timerTicks := u32 (s.timerTicks + 1) }.modify c
    fun p => { p with kernelEsp := regs }
  have hview₁ : ((Kernel.bss s).sched fun _ => s₁).view = (Kernel.bss s).view :=
    (view_modify ((Kernel.bss s).sched fun s => { s with timerTicks := u32 (s.timerTicks + 1) }) c
      (fun p => { p with kernelEsp := regs }) (fun _ => rfl) (fun _ => rfl) fun _ => rfl).trans rfl
  let k₂ := (((Kernel.bss s).sched fun _ => s₁).sched fun s => s.setState c .ready).sched
    (enqueueReady c)
  have hview₂ : k₂.view = ((Kernel.bss s).view.setState c .ready).push .ready c := by
    rw [view_enqueueReady, view_setState, hview₁]
  have hcore := hok.toCore.makeReady (hok.not_mem_running h.running) hlive
  rw [← hview₂, hls] at hcore
  have hhead : k₂.view.head .ready = some t :=
    (hcore.linked.chain .ready).head_eq.trans (by simp)
  have htick : schedulerTick 32 regs s = pickNext regs c k₂.toSched := by
    have hstate₁ : (s₁.tasks c).state = .running := by
      have heq : (s₁.tasks c).state = (s.tasks c).state := congrFun (congrArg View.state hview₁) c
      exact heq.trans hstate
    rw [schedulerTick_timer h.current, tickCurrent, hstate₁]
    exact if_pos hcount
  obtain ⟨f, s', hpick⟩ := @pickNext_isSome regs c k₂.toSched (by
    rw [show k₂.readyHead = some t from hhead]
    simp)
  refine ⟨f, s', htick.trans hpick, ?_⟩
  rcases @pickNext_cases k₂ regs f c s' hpick with ⟨hnone, -⟩ | ⟨n, hn, hview'⟩
  · rw [hhead] at hnone
    cases hnone
  · obtain rfl : t = n := Option.some.inj (hhead.symm.trans hn)
    have hrun : ∀ u, k₂.view.state u ≠ .running := by
      intro u hu
      rw [hview₂] at hu
      by_cases huc : u = c
      · subst huc
        simp [View.push, View.setState] at hu
      · have hu' : (Kernel.bss s).view.state u = .running := by
          simpa [View.push, View.setState, huc] using hu
        exact huc (Option.some.inj ((hok.running u hu').symm.trans hcur))
    have hfirst : Function.update ls .ready (t :: ts ++ [c]) .ready = t :: (ts ++ [c]) := by simp
    have hdisp := hcore.dispatch hfirst hrun
    rw [← hview'] at hdisp
    have hasleep : Function.update (fun _ : Slot => false) c false = fun _ => false := by simp
    rw [hasleep] at hdisp
    refine ⟨⟨_, hdisp, by simp⟩, hdisp.running_iff.mpr ⟨?_, ?_⟩⟩
    · exact congrArg View.current hview'
    · refine (congrFun (congrArg View.state hview') t).trans ?_
      simp [View.dispatch, View.setState]

/-- As many interrupts as there are tasks in front: each of them gets its turn. -/
theorem ticks {us vs : List Slot} {regs : List Nat} (h : Rotation s c (us ++ vs))
    (hlen : regs.length = us.length) :
    ∃ s', ticks regs s = some (us, s') ∧
      Rotation s' ((c :: us).getLast (by simp)) (vs ++ (c :: us).dropLast) := by
  induction us generalizing s c vs regs with
  | nil =>
      obtain rfl := List.length_eq_zero_iff.mp hlen
      exact ⟨s, rfl, by simpa using h⟩
  | cons u us ih =>
      obtain ⟨r, rest, rfl⟩ := List.exists_cons_of_length_eq_add_one hlen
      rw [List.cons_append] at h
      obtain ⟨f, s₁, htick, hturn⟩ := h.tick r
      rw [List.append_assoc] at hturn
      obtain ⟨s', hrest, hturn'⟩ := ih hturn (by simpa using hlen)
      refine ⟨s', ?_, ?_⟩
      · simp [SRos.ticks, htick, hturn.current, hrest]
      · simpa using hturn'

/-- One interrupt more, and the first task is back. -/
theorem round {regs : List Nat} (h : Rotation s c ts) (hne : ts ≠ [])
    (hlen : regs.length = ts.length + 1) :
    ∃ s', SRos.ticks regs s = some (ts ++ [c], s') ∧ Rotation s' c ts := by
  obtain ⟨rs, r, rfl⟩ : ∃ rs r, regs = rs ++ [r] := by
    refine ⟨regs.dropLast, regs.getLast ?_, (List.dropLast_append_getLast _).symm⟩
    rintro rfl
    simp at hlen
  have hfront : Rotation s c (ts ++ []) := by rwa [List.append_nil]
  obtain ⟨s₁, hts, hturn⟩ := hfront.ticks (show rs.length = ts.length by simpa using hlen)
  -- `c` is in front again, and the last of the others has the processor
  have hlast : Rotation s₁ (ts.getLast hne) (c :: ts.dropLast) := by
    simpa [List.getLast_cons hne, List.dropLast_cons_of_ne_nil hne] using hturn
  obtain ⟨f, s', htick, hback⟩ := hlast.tick r
  rw [List.dropLast_append_getLast] at hback
  exact ⟨s', ticks_snoc hts htick hback.current, hback⟩

end Rotation

section Main

variable {frames : Nat → Registers} {cr3 esp0 timerTicks : Nat} {x₀ x : Switches}

/-- The tasks take turns in the order of the ready list, each is resumed with the frame with which it
lost the processor and on its own kernel stack, and other interrupts switch nothing. -/
theorem round_robin (h₀ : Switches.boot frames cr3 esp0 timerTicks = some x₀)
    (h : Reach Switches.step (fun _ _ => True) x₀ x) :
    (∀ c ts regs, x.sched.current = some c → (x.sched.tasks c).state = .running →
      ReadyList x.sched ts → ts ≠ [] → regs.length = ts.length + 1 →
      ∃ s', ticks regs x.sched = some (ts ++ [c], s') ∧ s'.current = some c ∧
        (s'.tasks c).state = .running ∧ ReadyList s' ts) ∧
    Intact x.log ∧
    ∀ intNo regs, intNo ≠ 32 → schedulerTick intNo regs x.sched = some (regs, x.sched) := by
  obtain ⟨hsaved, -⟩ := Switches.Saved.reach h₀ h
  refine ⟨?_, hsaved.intact, ?_⟩
  · intro c ts regs hc hrun hts hne hlen
    obtain ⟨s', hticks, hturn⟩ := (Rotation.of_linked hsaved.linked hc hrun hts).round hne hlen
    exact ⟨s', hticks, hturn.current, hturn.running.2.2, hturn.readyList⟩
  · intro intNo regs hne
    exact if_pos hne

/-- Two tasks are made and the first of them has got the processor. -/
theorem round_robin_three : ∃ x₀ x s', Switches.boot (fun _ => {}) 0 0 0 = some x₀ ∧
    Reach Switches.step (fun _ _ => True) x₀ x ∧
    ticks [0x9000, 0x9100, 0x9200] x.sched = some ([2, 0, 1], s') ∧ ReadyList s' [2, 0] ∧
    Intact x.log := by
  obtain ⟨x₀, x, h₀, hreach, hx⟩ := @Reach.exists_of_runList Switches SchedAct Switches.step
    (Switches.boot (fun _ => {}) 0 0 0) (fun _ _ => true)
    [.create .empty 0x8000000 0x500000, .create .empty 0x8000000 0x600000, .tick 32 0x1ff00]
    (fun x => decide (x.sched.current = some 1 ∧ (x.sched.tasks 1).state = .running ∧
      x.sched.readyHead = some 2 ∧ (x.sched.tasks 2).next = some 0 ∧
      (x.sched.tasks 0).next = none ∧ x.sched.readyTail = some 0)) (by decide +kernel)
  obtain ⟨hc, hrun, hhead, hnext, hend, htail⟩ := of_decide_eq_true hx
  have hreach' : Reach Switches.step (fun _ _ => True) x₀ x := hreach.mono fun _ _ _ => trivial
  obtain ⟨hrobin, hintact, -⟩ := round_robin h₀ hreach'
  obtain ⟨s', hticks, -, -, hlist⟩ := hrobin 1 [2, 0] [0x9000, 0x9100, 0x9200] hc hrun
    ⟨⟨hhead, hnext, hend⟩, htail⟩ (by simp) rfl
  exact ⟨x₀, x, s', h₀, hreach', hticks, hlist, hintact⟩

end Main

end SRos
