import SRos.Ipc.View
import SRos.Lib.Issued
import Mathlib.Data.Fintype.Card

/-!
# The linkage invariant

`View.Core` relates the queues to the task states: the ready list holds exactly the ready
tasks, a wait list only tasks that sleep in the call that waits on it, and every other task is
in no list. `View.Ok` adds that the current task is the only one that can be running. Both are
kept by each way in which a kernel function changes the view, provided that a sleeping task
which loses the processor finds another task ready, and that no exiting task wakes a parent
that sleeps in an IPC call.
-/

namespace SRos

/-- The number of slots in use. -/
def liveCount (pid : Slot → Int) : Nat := (Finset.univ.filter fun t => 0 ≤ pid t).card

/-- `asleep t`: task `t` has called `task_block` and nobody has called `task_wake` on it
since. `waits t`: the wait list of the call in which `t` is at or behind its `int $32`. -/
structure View.Core (ls : QueueId → List Slot) (asleep : Slot → Bool)
    (waits : Slot → Option WaitQ) (v : View) : Prop where
  linked : Queue.Family v.next v.head v.tail ls
  ready : ∀ t, t ∈ ls .ready ↔ 0 ≤ v.pid t ∧ v.state t = .ready
  waiting : ∀ q t, t ∈ ls (.wait q) → asleep t = true ∧ waits t = some q
  sleeping : ∀ t, asleep t = true ↔ 0 ≤ v.pid t ∧ v.state t = .blocked ∧ waits t ≠ none
  gone : ∀ t, v.pid t < 0 ∨ v.state t = .zombie → waits t = none
  pidLt : ∀ t, v.pid t < v.nextPid
  pidInj : ∀ t u, 0 ≤ v.pid t → v.pid t = v.pid u → t = u
  nextPid : 0 ≤ v.nextPid
  count : v.taskCount = liveCount v.pid

structure View.Ok (ls : QueueId → List Slot) (asleep : Slot → Bool) (waits : Slot → Option WaitQ)
    (v : View) : Prop extends View.Core ls asleep waits v where
  current : ∃ c, v.current = some c ∧ 0 ≤ v.pid c ∧ v.state c ≠ .ready
  running : ∀ t, v.state t = .running → v.current = some t

variable {ls : QueueId → List Slot} {asleep : Slot → Bool} {waits : Slot → Option WaitQ} {v : View}

namespace View.Core

theorem issued (h : v.Core ls asleep waits) : Issued v.pid v.nextPid := ⟨h.pidLt, h.pidInj⟩

theorem sleeping_state (h : v.Core ls asleep waits) {t : Slot} (ht : asleep t = true) :
    v.state t = .blocked := ((h.sleeping t).mp ht).2.1

theorem waiting_state (h : v.Core ls asleep waits) {q : WaitQ} {t : Slot}
    (ht : t ∈ ls (.wait q)) : v.state t = .blocked :=
  h.sleeping_state (h.waiting q t ht).1

theorem mem_live (h : v.Core ls asleep waits) {q : QueueId} {t : Slot} (ht : t ∈ ls q) :
    0 ≤ v.pid t := by
  cases q with
  | ready => exact ((h.ready t).mp ht).1
  | wait q => exact ((h.sleeping t).mp (h.waiting q t ht).1).1

/-- A task that is neither ready nor asleep is in no queue. -/
theorem not_mem (h : v.Core ls asleep waits) {t : Slot} (hr : v.state t ≠ .ready)
    (ha : asleep t = false) (q : QueueId) : t ∉ ls q := by
  cases q with
  | ready => exact fun ht => hr ((h.ready t).mp ht).2
  | wait q => exact fun ht => by simp [(h.waiting q t ht).1] at ha

theorem not_mem_free (h : v.Core ls asleep waits) {t : Slot} (ht : v.pid t < 0) (q : QueueId) :
    t ∉ ls q := by
  intro hm
  have := h.mem_live hm
  omega

theorem asleep_false (h : v.Core ls asleep waits) {t : Slot} (ht : v.state t ≠ .blocked) :
    asleep t = false := by
  cases ha : asleep t with
  | false => rfl
  | true => exact absurd (h.sleeping_state ha) ht

theorem head_none_iff (h : v.Core ls asleep waits) (q : QueueId) :
    v.head q = none ↔ ls q = [] := by
  rw [(h.linked.chain q).head_eq, List.head?_eq_none_iff]

theorem head_some (h : v.Core ls asleep waits) {q : QueueId} {t : Slot} (ht : v.head q = some t) :
    ∃ ts, ls q = t :: ts := by
  rw [(h.linked.chain q).head_eq] at ht
  exact List.head?_eq_some_iff.mp ht

/-- Only the points that blocked and dead tasks have reached matter. -/
theorem congr_waits {waits' : Slot → Option WaitQ} (h : v.Core ls asleep waits)
    (hw : ∀ t, 0 ≤ v.pid t → v.state t = .blocked → waits' t = waits t)
    (hg : ∀ t, v.pid t < 0 ∨ v.state t = .zombie → waits' t = none) :
    v.Core ls asleep waits' := by
  refine { h with waiting := ?_, sleeping := ?_, gone := hg }
  · intro q t ht
    rw [hw t (h.mem_live ht) (h.waiting_state ht)]
    exact h.waiting q t ht
  · intro t
    rw [h.sleeping t]
    constructor
    · rintro ⟨hp, hs, hn⟩
      exact ⟨hp, hs, by rwa [hw t hp hs]⟩
    · rintro ⟨hp, hs, hn⟩
      exact ⟨hp, hs, by rwa [hw t hp hs] at hn⟩

/-- A task in no queue is appended to the wait list `q`. -/
theorem block (h : v.Core ls asleep waits) {c : Slot} (hno : ∀ r, c ∉ ls r)
    (hp : 0 ≤ v.pid c) (q : WaitQ) :
    ((v.setState c .blocked).push (.wait q) c).Core
      (Function.update ls (.wait q) (ls (.wait q) ++ [c])) (Function.update asleep c true)
      (Function.update waits c (some q)) := by
  refine ⟨h.linked.push (.wait q) hno, ?_, ?_, ?_, ?_, h.pidLt, h.pidInj, h.nextPid, h.count⟩
  · intro t
    simp only [View.push, View.setState, ne_eq, reduceCtorEq, not_false_eq_true,
      Function.update_of_ne]
    by_cases ht : t = c
    · subst ht; simp [hno .ready]
    · simpa [ht] using h.ready t
  · intro r t ht
    by_cases htc : t = c
    · subst htc
      have hr : r = q := by
        by_contra hr
        have : t ∈ ls (.wait r) := by simpa [hr] using ht
        exact hno _ this
      simp [hr]
    · have : t ∈ ls (.wait r) := by
        by_cases hr : r = q
        · subst hr; simpa [htc] using ht
        · simpa [hr] using ht
      simpa [htc] using h.waiting r t this
  · intro t
    by_cases ht : t = c
    · subst ht; simp [View.push, View.setState, hp]
    · simpa [ht, View.push, View.setState] using h.sleeping t
  · intro t
    by_cases ht : t = c
    · subst ht
      simp only [View.push, View.setState, Function.update_self, reduceCtorEq, or_false]
      omega
    · simpa [ht, View.push, View.setState] using h.gone t

/-- A task in no queue becomes ready and is appended to the ready list. -/
theorem makeReady (h : v.Core ls asleep waits) {t : Slot} (hno : ∀ r, t ∉ ls r)
    (hp : 0 ≤ v.pid t) :
    ((v.setState t .ready).push .ready t).Core
      (Function.update ls .ready (ls .ready ++ [t])) (Function.update asleep t false) waits := by
  refine ⟨h.linked.push .ready hno, ?_, ?_, ?_, ?_, h.pidLt, h.pidInj, h.nextPid, h.count⟩
  · intro u
    by_cases hu : u = t
    · subst hu; simp [View.push, View.setState, hp]
    · simpa [hu, View.push, View.setState] using h.ready u
  · intro q u hu
    have hu' : u ∈ ls (.wait q) := by simpa using hu
    have hut : u ≠ t := fun he => hno _ (he ▸ hu')
    simpa [hut] using h.waiting q u hu'
  · intro u
    by_cases hu : u = t
    · subst hu; simp [View.push, View.setState]
    · simpa [hu, View.push, View.setState] using h.sleeping u
  · intro u
    by_cases hu : u = t
    · subst hu
      simp only [View.push, View.setState, Function.update_self, reduceCtorEq, or_false]
      omega
    · simpa [hu, View.push, View.setState] using h.gone u

/-- The first task of a wait list is unlinked. -/
theorem popWait (h : v.Core ls asleep waits) {q : WaitQ} {t : Slot} {ts : List Slot}
    (hq : ls (.wait q) = t :: ts) :
    (v.pop (.wait q) t).Core (Function.update ls (.wait q) ts) asleep waits ∧
      ∀ r, t ∉ Function.update ls (.wait q) ts r := by
  have hsub : ∀ r u, u ∈ Function.update ls (.wait q) ts r → u ∈ ls r := by
    intro r u hu
    by_cases hr : r = .wait q
    · subst hr
      rw [Function.update_self] at hu
      simp [hq, hu]
    · rwa [Function.update_of_ne hr] at hu
  constructor
  · refine ⟨h.linked.pop hq, ?_, fun r u hu => h.waiting r u (hsub _ u hu), h.sleeping, h.gone,
      h.pidLt, h.pidInj, h.nextPid, h.count⟩
    intro u
    simpa [View.pop] using h.ready u
  · intro r hr
    have hrq : r = .wait q := h.linked.excl r _ t (hsub r t hr) (by simp [hq])
    subst hrq
    rw [Function.update_self] at hr
    have hnd := h.linked.nodup (.wait q)
    rw [hq] at hnd
    exact (List.nodup_cons.mp hnd).1 hr

/-- The first task of a wait list is woken. -/
theorem wake (h : v.Core ls asleep waits) {q : WaitQ} {t : Slot} {ts : List Slot}
    (hq : ls (.wait q) = t :: ts) :
    (((v.pop (.wait q) t).setState t .ready).push .ready t).Core
      (Function.update (Function.update ls (.wait q) ts) .ready (ls .ready ++ [t]))
      (Function.update asleep t false) waits := by
  obtain ⟨hpop, hno⟩ := h.popWait hq
  have hp : 0 ≤ v.pid t := h.mem_live (q := .wait q) (by simp [hq])
  simpa using hpop.makeReady hno hp

/-- Overwriting both pointers of a wait list with null. -/
theorem reset (h : v.Core ls asleep waits) (q : WaitQ) :
    (v.reset (.wait q)).Core (Function.update ls (.wait q) []) asleep waits := by
  refine ⟨h.linked.reset (.wait q), ?_, ?_, h.sleeping, h.gone, h.pidLt, h.pidInj, h.nextPid,
    h.count⟩
  · intro t
    simpa [View.reset] using h.ready t
  · intro r t ht
    by_cases hr : r = q
    · subst hr; simp at ht
    · exact h.waiting r t (by simpa [hr] using ht)

/-- Changing the state of a task that is in no queue, to one that puts it in none. -/
theorem setState (h : v.Core ls asleep waits) {t : Slot} {x : TaskState} (hno : ∀ r, t ∉ ls r)
    (ha : asleep t = false) (hx : x ≠ .ready)
    (hw : x = .blocked ∨ x = .zombie → waits t = none) :
    (v.setState t x).Core ls asleep waits := by
  refine ⟨h.linked, ?_, h.waiting, ?_, ?_, h.pidLt, h.pidInj, h.nextPid, h.count⟩
  · intro u
    by_cases hu : u = t
    · subst hu; simp [View.setState, hno .ready, hx]
    · simpa [View.setState, hu] using h.ready u
  · intro u
    by_cases hu : u = t
    · subst hu
      simp only [View.setState, Function.update_self, ha]
      constructor
      · intro hf; cases hf
      · rintro ⟨-, hb, hn⟩; exact absurd (hw (.inl hb)) hn
    · simpa [View.setState, hu] using h.sleeping u
  · intro u hu
    by_cases hut : u = t
    · subst hut
      rcases hu with hu | hu
      · exact h.gone u (.inl hu)
      · exact hw (.inr (by simpa [View.setState] using hu))
    · exact h.gone u (by simpa [View.setState, hut] using hu)

/-- When no task is running, the first ready one gets the processor. -/
theorem dispatch (h : v.Core ls asleep waits) {n : Slot} {ns : List Slot}
    (hn : ls .ready = n :: ns) (hrun : ∀ t, v.state t ≠ .running) :
    (v.dispatch n).Ok (Function.update ls .ready ns) asleep waits := by
  have hnmem : n ∈ ls .ready := by simp [hn]
  obtain ⟨hp, hs⟩ := (h.ready n).mp hnmem
  have hnd := h.linked.nodup .ready
  rw [hn] at hnd
  refine ⟨⟨h.linked.pop hn, ?_, ?_, ?_, ?_, h.pidLt, h.pidInj, h.nextPid, h.count⟩, ?_, ?_⟩
  · intro u
    by_cases hu : u = n
    · subst hu; simpa [View.dispatch, View.setState] using (List.nodup_cons.mp hnd).1
    · have hr := h.ready u
      rw [hn] at hr
      simpa [View.dispatch, View.setState, View.pop, hu] using hr
  · intro q u hu
    exact h.waiting q u (by simpa using hu)
  · intro u
    by_cases hu : u = n
    · subst hu
      simp [View.dispatch, View.setState, h.asleep_false (t := u) (by simp [hs])]
    · simpa [View.dispatch, View.setState, View.pop, hu] using h.sleeping u
  · intro u
    by_cases hu : u = n
    · subst hu
      simp only [View.dispatch, View.setState, View.pop, Function.update_self, reduceCtorEq,
        or_false]
      omega
    · simpa [View.dispatch, View.setState, View.pop, hu] using h.gone u
  · exact ⟨n, rfl, hp, by simp [View.dispatch, View.setState]⟩
  · intro u hsu
    by_cases hu : u = n
    · subst hu; rfl
    · exact absurd (by simpa [View.dispatch, View.setState, View.pop, hu] using hsu) (hrun u)

private theorem count_insert {pid : Slot → Int} {t : Slot} (ht : pid t < 0) {p : Int} (hp : 0 ≤ p) :
    liveCount (Function.update pid t p) = liveCount pid + 1 := by
  have heq : (Finset.univ.filter fun u => 0 ≤ Function.update pid t p u) =
      insert t (Finset.univ.filter fun u => 0 ≤ pid u) := by
    ext u
    by_cases hu : u = t
    · subst hu; simp [hp]
    · simp [hu]
  rw [liveCount, liveCount, heq, Finset.card_insert_of_notMem (by simp; omega)]

private theorem count_erase {pid : Slot → Int} {t : Slot} (ht : 0 ≤ pid t) :
    liveCount (Function.update pid t (-1)) + 1 = liveCount pid := by
  have heq : (Finset.univ.filter fun u => 0 ≤ Function.update pid t (-1) u) =
      (Finset.univ.filter fun u => 0 ≤ pid u).erase t := by
    ext u
    by_cases hu : u = t
    · subst hu; simp
    · simp [hu]
  rw [liveCount, liveCount, heq, Finset.card_erase_add_one (by simp [ht])]

/-- A new task in a free slot. -/
theorem spawn (h : v.Core ls asleep waits) {t : Slot} (ht : v.pid t < 0) :
    (v.spawn t).Core (Function.update ls .ready (ls .ready ++ [t])) asleep waits := by
  have hno : ∀ r, t ∉ ls r := h.not_mem_free ht
  have ha : asleep t = false := by
    cases ha : asleep t with
    | false => rfl
    | true => have := ((h.sleeping t).mp ha).1; omega
  have hfam := (h.linked.frame hno none).push .ready hno
  refine ⟨hfam, ?_, ?_, ?_, ?_, ?_, ?_, ?_, ?_⟩
  · intro u
    by_cases hu : u = t
    · subst hu; simp [View.spawn, View.push, h.nextPid]
    · simpa [View.spawn, View.push, hu] using h.ready u
  · intro q u hu
    exact h.waiting q u (by simpa using hu)
  · intro u
    by_cases hu : u = t
    · subst hu; simp [View.spawn, View.push, ha]
    · simpa [View.spawn, View.push, hu] using h.sleeping u
  · intro u hu
    by_cases hut : u = t
    · subst hut; exact h.gone u (.inl ht)
    · exact h.gone u (by simpa [View.spawn, View.push, hut] using hu)
  · exact (h.issued.issue t).lt
  · exact (h.issued.issue t).inj
  · have := h.nextPid
    simp only [View.spawn, View.push]
    omega
  · have hcount := count_insert ht h.nextPid
    have hold := h.count
    change v.taskCount + 1 = liveCount (Function.update v.pid t v.nextPid)
    omega

/-- A zombie is collected. -/
theorem reap (h : v.Core ls asleep waits) {z : Slot} (hp : 0 ≤ v.pid z)
    (hs : v.state z = .zombie) : (v.reap z).Core ls asleep waits := by
  have ha : asleep z = false := h.asleep_false (by simp [hs])
  have hno : ∀ r, z ∉ ls r := h.not_mem (by simp [hs]) ha
  refine ⟨h.linked.frame hno none, ?_, h.waiting, ?_, ?_, ?_, ?_, h.nextPid, ?_⟩
  · intro u
    by_cases hu : u = z
    · subst hu; simp [View.reap, hno .ready]
    · simpa [View.reap, hu] using h.ready u
  · intro u
    by_cases hu : u = z
    · subst hu; simp [View.reap, ha]
    · simpa [View.reap, hu] using h.sleeping u
  · intro u hu
    by_cases huz : u = z
    · subst huz; exact h.gone u (.inr hs)
    · exact h.gone u (by simpa [View.reap, huz] using hu)
  · exact (h.issued.withdraw h.nextPid z).lt
  · exact (h.issued.withdraw h.nextPid z).inj
  · have hcount := count_erase hp
    have hold := h.count
    change v.taskCount - 1 = liveCount (Function.update v.pid z (-1))
    omega

end View.Core

/-- `c` is running. -/
def View.Running (c : Slot) (v : View) : Prop :=
  v.current = some c ∧ 0 ≤ v.pid c ∧ v.state c = .running

namespace View.Running

variable {c t : Slot}

theorem ne (hc : v.Running c) (ht : v.state t ≠ .running) : t ≠ c := by
  rintro rfl
  exact ht hc.2.2

theorem wake {q : WaitQ} (hc : v.Running c) (htc : t ≠ c) :
    (((v.pop (.wait q) t).setState t .ready).push .ready t).Running c :=
  ⟨hc.1, hc.2.1, by simp [View.push, View.setState, View.pop, Ne.symm htc, hc.2.2]⟩

theorem spawn (hc : v.Running c) (ht : v.pid t < 0) : (v.spawn t).Running c := by
  have hct : c ≠ t := by
    rintro rfl
    have := hc.2.1
    omega
  exact ⟨hc.1, by simpa [View.spawn, View.push, hct] using hc.2.1,
    by simpa [View.spawn, View.push, hct] using hc.2.2⟩

theorem reap (hc : v.Running c) (ht : v.state t = .zombie) : (v.reap t).Running c := by
  have htc : t ≠ c := hc.ne (by simp [ht])
  exact ⟨hc.1, by simpa [View.reap, Ne.symm htc] using hc.2.1,
    by simpa [View.reap, Ne.symm htc] using hc.2.2⟩

end View.Running

namespace View.Ok

theorem running_iff (h : v.Ok ls asleep waits) {c : Slot} :
    v.Running c ↔ v.current = some c ∧ v.state c = .running := by
  constructor
  · rintro ⟨hc, -, hs⟩
    exact ⟨hc, hs⟩
  · rintro ⟨hc, hs⟩
    obtain ⟨c', hc', hp, -⟩ := h.current
    have : c' = c := Option.some.inj (hc'.symm.trans hc)
    subst this
    exact ⟨hc, hp, hs⟩

theorem not_mem_running (h : v.Ok ls asleep waits) {c : Slot} (hc : v.Running c) (q : QueueId) :
    c ∉ ls q := h.not_mem (by simp [hc.2.2]) (h.asleep_false (by simp [hc.2.2])) q

theorem congr_waits {waits' : Slot → Option WaitQ} (h : v.Ok ls asleep waits)
    (hw : ∀ t, 0 ≤ v.pid t → v.state t = .blocked → waits' t = waits t)
    (hg : ∀ t, v.pid t < 0 ∨ v.state t = .zombie → waits' t = none) :
    v.Ok ls asleep waits' :=
  { h.toCore.congr_waits hw hg with current := h.current, running := h.running }

private theorem push_head_ne_none (h : Queue.Family v.next v.head v.tail ls) (t : Slot) :
    (v.push .ready t).head .ready ≠ none := by
  simp only [View.push, Function.update_self]
  cases ht : v.tail .ready with
  | none => simp [Queue.pushHead]
  | some l =>
      intro hn
      have := (h.tail_none_iff .ready).mpr hn
      simp [ht] at this

/-- `scheduler_tick`: the wait lists stay as they are, and some task is running afterwards. -/
theorem tick {v' : View} (h : v.Ok ls asleep waits) {c : Slot} (hc : v.current = some c)
    (hsafe : asleep c = true → v.head .ready ≠ none) (ht : v.Tick c v') :
    ∃ ls' n, v'.Ok ls' asleep waits ∧ (∀ q, ls' (.wait q) = ls (.wait q)) ∧ v'.Running n := by
  have hcur : ∀ {t}, v.state t = .running → t = c := fun hs =>
    Option.some.inj ((h.running _ hs).symm.trans hc)
  obtain ⟨hpc, hnr⟩ : 0 ≤ v.pid c ∧ v.state c ≠ .ready := by
    obtain ⟨c', hc', hp, hs⟩ := h.current
    have : c' = c := Option.some.inj (hc'.symm.trans hc)
    subst this
    exact ⟨hp, hs⟩
  -- The task keeps the processor: it was asleep neither before nor afterwards.
  have hkeep : asleep c = false → ∃ ls' n, (v.setState c .running).Ok ls' asleep waits ∧
      (∀ q, ls' (.wait q) = ls (.wait q)) ∧ (v.setState c .running).Running n := by
    intro ha
    refine ⟨ls, c, ⟨h.toCore.setState (h.not_mem hnr ha) ha (by simp) (by simp), ?_, ?_⟩,
      fun _ => rfl, hc, hpc, by simp [View.setState]⟩
    · exact ⟨c, hc, hpc, by simp [View.setState]⟩
    · intro t hs
      by_cases htc : t = c
      · rw [htc]; exact hc
      · exact h.running t (by simpa [View.setState, htc] using hs)
  cases ht with
  | leave n hs hn =>
      obtain ⟨ns, hns⟩ := h.head_some hn
      have hrun : ∀ t, v.state t ≠ .running := by
        intro t hst
        have := hcur hst
        subst this
        rcases hs with hs | hs <;> simp [hs] at hst
      have hok := h.toCore.dispatch hns hrun
      exact ⟨_, n, hok, by simp, (hok.running_iff).mpr ⟨rfl, by simp [View.dispatch, View.setState]⟩⟩
  | resume hs hn =>
      apply hkeep
      cases ha : asleep c with
      | false => rfl
      | true => exact absurd hn (hsafe ha)
  | alone hs =>
      apply hkeep
      exact h.asleep_false (by rcases hs with hs | hs <;> simp [hs])
  | rotate n hs hn =>
      have hsr : v.state c = .running := hs.resolve_left hnr
      have ha : asleep c = false := h.asleep_false (by simp [hsr])
      have hcore := h.toCore.makeReady (h.not_mem hnr ha) hpc
      rw [show Function.update asleep c false = asleep by
        rw [← ha]; exact Function.update_eq_self c asleep] at hcore
      obtain ⟨ns, hns⟩ := hcore.head_some hn
      have hrun : ∀ t, ((v.setState c .ready).push .ready c).state t ≠ .running := by
        intro t hst
        by_cases htc : t = c
        · subst htc; simp [View.push, View.setState] at hst
        · exact htc (hcur (by simpa [View.push, View.setState, htc] using hst))
      have hok := hcore.dispatch hns hrun
      exact ⟨_, n, hok, by simp, (hok.running_iff).mpr ⟨rfl, by simp [View.dispatch, View.setState]⟩⟩
  | broken hn =>
      exact absurd hn (push_head_ne_none (v := v.setState c .ready) h.linked c)

/-- `scheduler_tick` gives the processor to a task of the ready list, or leaves it with a task
that is no zombie. -/
theorem tick_dispatched {v' : View} (h : v.Ok ls asleep waits) {c n : Slot}
    (hc : v.current = some c) (ht : v.Tick c v') (hn' : v'.current = some n) :
    n ∈ ls .ready ∨ n = c ∧ v.state c ≠ .zombie := by
  have hkeep : v.current = some n → n = c := fun hn => Option.some.inj (hn.symm.trans hc)
  cases ht with
  | leave m hs hm =>
      have hnm : n = m := (Option.some.inj hn').symm
      obtain ⟨ns, hns⟩ := h.head_some hm
      left
      rw [hnm, hns]
      simp
  | resume hs hn => exact Or.inr ⟨hkeep hn', by simp [hs]⟩
  | alone hs => exact Or.inr ⟨hkeep hn', by rcases hs with hs | hs <;> simp [hs]⟩
  | rotate m hs hm =>
      have hnm : n = m := (Option.some.inj hn').symm
      subst hnm
      -- The interrupted task is at the end of the ready list when the next one is chosen.
      have hhead : (v.push .ready c).head .ready = some n := hm
      simp only [View.push, Function.update_self] at hhead
      cases htail : v.tail .ready with
      | none =>
          rw [htail] at hhead
          have hnc : n = c := by simpa [Queue.pushHead] using hhead.symm
          exact Or.inr ⟨hnc, by rcases hs with hs | hs <;> simp [hs]⟩
      | some l =>
          rw [htail] at hhead
          obtain ⟨ns, hns⟩ := h.head_some (q := .ready) hhead
          left
          rw [hns]
          simp
  | broken hn => exact absurd hn (push_head_ne_none (v := v.setState c .ready) h.linked c)

theorem block (h : v.Ok ls asleep waits) {c : Slot} (hc : v.Running c) (q : WaitQ) :
    ((v.setState c .blocked).push (.wait q) c).Ok
      (Function.update ls (.wait q) (ls (.wait q) ++ [c])) (Function.update asleep c true)
      (Function.update waits c (some q)) := by
  refine ⟨h.toCore.block (h.not_mem_running hc) hc.2.1 q, ?_, ?_⟩
  · exact ⟨c, hc.1, hc.2.1, by simp [View.push, View.setState]⟩
  · intro t hs
    by_cases ht : t = c
    · subst ht; exact hc.1
    · exact h.running t (by simpa [ht, View.push, View.setState] using hs)

/-- A task other than the running one becomes ready. -/
theorem makeReady (h : v.Ok ls asleep waits) {c t : Slot} (hc : v.Running c) (htc : t ≠ c)
    (hno : ∀ r, t ∉ ls r) (hp : 0 ≤ v.pid t) :
    ((v.setState t .ready).push .ready t).Ok
      (Function.update ls .ready (ls .ready ++ [t])) (Function.update asleep t false) waits := by
  refine ⟨h.toCore.makeReady hno hp, ?_, ?_⟩
  · refine ⟨c, hc.1, hc.2.1, ?_⟩
    simp [View.push, View.setState, Ne.symm htc, hc.2.2]
  · intro u hsu
    by_cases hu : u = t
    · subst hu; simp [View.push, View.setState] at hsu
    · exact h.running u (by simpa [hu, View.push, View.setState] using hsu)

/-- The first task of a wait list is woken by the running task. -/
theorem wake (h : v.Ok ls asleep waits) {c t : Slot} {q : WaitQ} {ts : List Slot}
    (hc : v.Running c) (hq : ls (.wait q) = t :: ts) :
    (((v.pop (.wait q) t).setState t .ready).push .ready t).Ok
      (Function.update (Function.update ls (.wait q) ts) .ready (ls .ready ++ [t]))
      (Function.update asleep t false) waits := by
  obtain ⟨hpop, hno⟩ := h.popWait hq
  have hmem : t ∈ ls (.wait q) := by simp [hq]
  have htc : t ≠ c := hc.ne (by simp [h.waiting_state hmem])
  have hok : (v.pop (.wait q) t).Ok (Function.update ls (.wait q) ts) asleep waits :=
    ⟨hpop, h.current, h.running⟩
  simpa using hok.makeReady (c := c) hc htc hno (h.mem_live hmem)

/-- The running task exits; a parent that waits for a child is made ready. -/
theorem exit (h : v.Ok ls asleep waits) {c : Slot} (hc : v.Running c) (hwc : waits c = none) :
    (v.setState c .zombie).Ok ls asleep waits := by
  have ha : asleep c = false := h.asleep_false (by simp [hc.2.2])
  refine ⟨h.toCore.setState (h.not_mem_running hc) ha (by simp) (fun _ => hwc), ?_, ?_⟩
  · exact ⟨c, hc.1, hc.2.1, by simp [View.setState]⟩
  · intro t hs
    by_cases ht : t = c
    · subst ht; exact hc.1
    · exact h.running t (by simpa [ht, View.setState] using hs)

theorem exitWake (h : v.Ok ls asleep waits) {c p : Slot} (hc : v.Running c)
    (hwc : waits c = none) (hb : (v.setState c .zombie).state p = .blocked) (hp : 0 ≤ v.pid p) (hw : waits p = none) :
    (((v.setState c .zombie).setState p .ready).push .ready p).Ok
      (Function.update ls .ready (ls .ready ++ [p])) asleep waits := by
  have hpc : p ≠ c := by
    rintro rfl
    simp [View.setState] at hb
  have hexit := h.exit hc hwc
  have ha : asleep p = false := by
    cases ha : asleep p with
    | false => rfl
    | true => exact absurd hw ((h.sleeping p).mp ha).2.2
  have hno : ∀ r, p ∉ ls r := hexit.not_mem (by simp [hb]) ha
  have hcore := hexit.toCore.makeReady hno hp
  rw [show Function.update asleep p false = asleep by
    rw [← ha]; exact Function.update_eq_self p asleep] at hcore
  refine ⟨hcore, ?_, ?_⟩
  · refine ⟨c, hc.1, hc.2.1, ?_⟩
    simp [View.push, View.setState, Ne.symm hpc]
  · intro t hst
    by_cases ht : t = p
    · subst ht; simp [View.push, View.setState] at hst
    · exact hexit.running t (by simpa [ht, View.push, View.setState] using hst)

/-- The running task blocks in `task_wait`. -/
theorem waitBlock (h : v.Ok ls asleep waits) {c : Slot} (hc : v.Running c) (hw : waits c = none) :
    (v.setState c .blocked).Ok ls asleep waits := by
  have ha : asleep c = false := h.asleep_false (by simp [hc.2.2])
  refine ⟨h.toCore.setState (h.not_mem_running hc) ha (by simp) (fun _ => hw), ?_, ?_⟩
  · exact ⟨c, hc.1, hc.2.1, by simp [View.setState]⟩
  · intro t hs
    by_cases ht : t = c
    · subst ht; exact hc.1
    · exact h.running t (by simpa [ht, View.setState] using hs)

theorem spawn (h : v.Ok ls asleep waits) {t : Slot} (ht : v.pid t < 0) :
    (v.spawn t).Ok (Function.update ls .ready (ls .ready ++ [t])) asleep waits := by
  refine ⟨h.toCore.spawn ht, ?_, ?_⟩
  · obtain ⟨c, hc, hp, hs⟩ := h.current
    have hct : c ≠ t := by
      rintro rfl
      omega
    exact ⟨c, hc, by simpa [View.spawn, View.push, hct] using hp,
      by simpa [View.spawn, View.push, hct] using hs⟩
  · intro u hs
    by_cases hu : u = t
    · subst hu; simp [View.spawn, View.push] at hs
    · exact h.running u (by simpa [View.spawn, View.push, hu] using hs)

theorem reap (h : v.Ok ls asleep waits) {c z : Slot} (hc : v.Running c) (hp : 0 ≤ v.pid z)
    (hs : v.state z = .zombie) : (v.reap z).Ok ls asleep waits := by
  have hzc : z ≠ c := hc.ne (by simp [hs])
  refine ⟨h.toCore.reap hp hs, ?_, ?_⟩
  · exact ⟨c, hc.1, by simpa [View.reap, Ne.symm hzc] using hc.2.1,
      by simp [View.reap, Ne.symm hzc, hc.2.2]⟩
  · intro t hst
    by_cases ht : t = z
    · subst ht; simp [View.reap] at hst
    · exact h.running t (by simpa [View.reap, ht] using hst)

theorem reset (h : v.Ok ls asleep waits) (q : WaitQ) :
    (v.reset (.wait q)).Ok (Function.update ls (.wait q) []) asleep waits :=
  ⟨h.toCore.reset q, h.current, h.running⟩

end View.Ok

/-! ## Draining a wait list -/

/-- `asleep` after all tasks of a list have been woken. -/
def wakeAll (asleep : Slot → Bool) (ts : List Slot) : Slot → Bool :=
  ts.foldl (fun a t => Function.update a t false) asleep

private theorem family_length_le {v : View} {ls : QueueId → List Slot}
    (h : Queue.Family v.next v.head v.tail ls) (q : QueueId) : (ls q).length ≤ maxTasks := by
  simpa using (h.nodup q).length_le_card

/-- The tail pointer of the list that is being drained is stale until the end, so the kernel's
view differs there from the view `v` in which the tasks have been removed one by one. -/
private theorem drain_view (q : WaitQ) {c : Slot} (fuel : Nat) {k : Kernel} {v : View}
    {ls : QueueId → List Slot} {asleep : Slot → Bool} {waits : Slot → Option WaitQ}
    {x : Option Slot} (hk : k.view = { v with tail := Function.update v.tail (.wait q) x })
    (h : v.Ok ls asleep waits) (hc : v.Running c) (hfuel : (ls (.wait q)).length < fuel) :
    ∃ k' ls', drain q fuel k = some (ls (.wait q), k') ∧
      k'.view.Ok ls' (wakeAll asleep (ls (.wait q))) waits ∧ k'.view.Running c ∧
      ls' (.wait q) = [] ∧ ∀ r, r ≠ q → ls' (.wait r) = ls (.wait r) := by
  induction fuel generalizing k v ls asleep x with
  | zero => omega
  | succ fuel ih =>
      have hhead : k.waitHead q = v.head (.wait q) := by
        change k.view.head (.wait q) = _
        rw [hk]
      unfold drain
      rw [hhead]
      cases hq : ls (.wait q) with
      | nil =>
          have hvh : v.head (.wait q) = none := (h.head_none_iff _).mpr hq
          have hvt : v.tail (.wait q) = none := (h.linked.tail_none_iff _).mpr hvh
          have hview : (k.setWait q none none).view = v := by
            rw [view_setWait, hk]
            simp only [Function.update_idem]
            rw [← hvh, Function.update_eq_self, hvh, ← hvt, Function.update_eq_self]
          rw [hvh]
          refine ⟨_, ls, rfl, ?_, ?_, hq, fun _ _ => rfl⟩
          · rw [hview]; exact h
          · rw [hview]; exact hc
      | cons t ts =>
          have hvh : v.head (.wait q) = some t := by
            rw [(h.linked.chain _).head_eq, hq]
            rfl
          have htc : t ≠ c :=
            hc.ne (by simp [h.waiting_state (t := t) (q := q) (by simp [hq])])
          rw [hvh]
          let v' := ((v.pop (.wait q) t).setState t .ready).push .ready t
          have hnext : (k.tasks t).next = v.next t := by
            change k.view.next t = _
            rw [hk]
          have hview : (((k.setWait q (k.tasks t).next (k.waitTail q)).sched fun s =>
              s.setNext t none).sched (taskWake t)).view =
              { v' with tail := Function.update v'.tail (.wait q) (k.waitTail q) } := by
            rw [view_taskWake, view_setNext, view_setWait, hk, hnext]
            simp [v', View.push, View.setState, View.pop, Function.update_comm]
          have hlen : (Function.update (Function.update ls (.wait q) ts) .ready
              (ls .ready ++ [t]) (.wait q)).length < fuel := by
            rw [hq] at hfuel
            simp only [ne_eq, reduceCtorEq, not_false_eq_true, Function.update_of_ne,
              Function.update_self]
            simpa using hfuel
          obtain ⟨k', ls', hd, hok, hrun, hnil, hrest⟩ :=
            ih hview (h.wake hc hq) (hc.wake htc) hlen
          simp only [ne_eq, reduceCtorEq, not_false_eq_true, Function.update_of_ne,
            Function.update_self] at hd hok
          refine ⟨k', ls', ?_, hok, hrun, hnil, ?_⟩
          · simp [hd]
          · intro r hr
            rw [hrest r hr]
            simp [hr]

/-- Destroying an object wakes exactly the tasks of its wait list, in order. -/
theorem drain_ok (q : WaitQ) {c : Slot} {k : Kernel} {ls : QueueId → List Slot}
    {asleep : Slot → Bool} {waits : Slot → Option WaitQ}
    (h : k.view.Ok ls asleep waits) (hc : k.view.Running c) :
    ∃ k' ls', drain q drainFuel k = some (ls (.wait q), k') ∧
      k'.view.Ok ls' (wakeAll asleep (ls (.wait q))) waits ∧ k'.view.Running c ∧
      ls' (.wait q) = [] ∧ ∀ r, r ≠ q → ls' (.wait r) = ls (.wait r) := by
  have hlen := family_length_le h.linked (.wait q)
  refine drain_view q drainFuel (x := k.view.tail (.wait q)) ?_ h hc (by simp [drainFuel]; omega)
  rw [Function.update_eq_self]

end SRos
