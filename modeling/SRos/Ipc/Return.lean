import SRos.Ipc.Wakeup
import SRos.Ipc.Blocking

/-!
# What a return of `sem_wait` means

A task that blocks in `sem_wait` goes on behind its `int $32`, where it returns 0 whoever has
woken it. That the return stands for a unit of the semaphore is a property of the run: the task
was woken by a `sem_post` on the same semaphore, unless the semaphore was destroyed under it.
-/

namespace SRos

/-- The waker of `t` since it slept last. -/
def lastWake (log : List Event) : Slot → Option Waker :=
  log.foldl (fun a e => match e with
    | .slept t _ _ => Function.update a t none
    | .woken t w => Function.update a t (some w)
    | _ => a) fun _ => none

@[simp] theorem lastWake_slept (log : List Event) (t : Slot) (q : WaitQ) (id : Int) :
    lastWake (log ++ [.slept t q id]) = Function.update (lastWake log) t none := by
  simp [lastWake, List.foldl_append]

@[simp] theorem lastWake_woken (log : List Event) (t : Slot) (w : Waker) :
    lastWake (log ++ [.woken t w]) = Function.update (lastWake log) t (some w) := by
  simp [lastWake, List.foldl_append]

theorem lastWake_silent (log : List Event) {e : Event} (h : e.isSilent = true) :
    lastWake (log ++ [e]) = lastWake log := by
  cases e <;> simp_all [lastWake, List.foldl_append, Event.isSilent]

theorem lastWake_silents {es : List Event} (log : List Event) (h : ∀ e ∈ es, e.isSilent = true) :
    lastWake (log ++ es) = lastWake log :=
  silents_append (fun log _ he => lastWake_silent log he) log h

/-- Other tasks are woken. -/
theorem lastWake_others (log : List Event) {ts : List Slot} (w : Waker) {t : Slot} (ht : t ∉ ts) :
    lastWake (log ++ ts.map fun u => Event.woken u w) t = lastWake log t := by
  induction ts generalizing log with
  | nil => rw [List.map_nil, List.append_nil]
  | cons u us ih =>
      obtain ⟨htu, htus⟩ := List.ne_and_not_mem_of_not_mem_cons ht
      rw [List.map_cons, ← List.singleton_append, ← List.append_assoc, ih _ htus, lastWake_woken,
        Function.update_of_ne htu]

/-- A silent event, and then the first task of a list is woken. -/
theorem lastWake_wakeFirst (log : List Event) {e : Event} (he : e.isSilent = true)
    (ts : List Slot) (w : Waker) (t : Slot) :
    lastWake (log ++ e :: ts.head?.toList.map fun u => Event.woken u w) t =
      if ts.head? = some t then some w else lastWake log t := by
  rw [← List.singleton_append, ← List.append_assoc]
  cases ts with
  | nil =>
      have hlog : lastWake (log ++ [e]) = lastWake log := lastWake_silent log he
      simpa using congrFun hlog t
  | cons u us =>
      have hlog : lastWake (log ++ [e] ++ [.woken u w]) =
          Function.update (lastWake log) u (some w) := by
        rw [lastWake_woken, lastWake_silent log he]
      change lastWake (log ++ [e] ++ [.woken u w]) t = _
      rw [hlog, Function.update_apply]
      simp [eq_comm]

/-- The semaphore call that has looked up its slot and is in front of its `cli`. -/
def Pc.semEnters : Pc → Option (Int × Fin maxSems)
  | .semWait id i | .semPost id i => some (id, i)
  | _ => none

/-- The `sem_wait` that has blocked. -/
def Pc.semSleeps : Pc → Option (Int × Fin maxSems)
  | .semWaitInt id i | .semWaitDone id i => some (id, i)
  | _ => none

theorem Pc.waitsOn_semSleeps {p : Pc} {id : Int} {i : Fin maxSems} (h : p.semSleeps = some (id, i)) :
    p.waitsOn = some (.sem i) := by
  cases p <;> simp_all [Pc.semSleeps, Pc.waitsOn]

namespace Ipc

/-- The calls on semaphores are about the semaphore of their argument, and who left a wait list
was woken by a `sem_post` on it. -/
structure Credit (x : Ipc) : Prop where
  calls : ∀ t id i, (x.pc t).semEnters = some (id, i) → 0 ≤ id ∧ x.objects.semId i = id
  waiting : ∀ t id i, (x.pc t).semSleeps = some (id, i) → t ∈ x.waiting (.sem i) →
    0 ≤ id ∧ x.objects.semId i = id
  woken : ∀ t id i, (x.pc t).semSleeps = some (id, i) → t ∉ x.waiting (.sem i) →
    lastWake x.log t = some (.post id)

variable {x x' : Ipc} {c : Slot}

/-- A step that changes no semaphore's identifier and no wait list of a semaphore. -/
theorem Credit.frame (h : x.Credit) (hid : x'.objects.semId = x.objects.semId)
    (hw : ∀ i, x'.waiting (.sem i) = x.waiting (.sem i))
    (henters : ∀ t id i, (x'.pc t).semEnters = some (id, i) → 0 ≤ id ∧ x.objects.semId i = id)
    (hsleeps : ∀ t id i, (x'.pc t).semSleeps = some (id, i) → (x.pc t).semSleeps = some (id, i) ∧
      lastWake x'.log t = lastWake x.log t) : x'.Credit where
  calls := by
    rw [hid]
    exact henters
  waiting := by
    intro t id i hp ht
    rw [hw] at ht
    rw [hid]
    exact h.waiting t id i (hsleeps t id i hp).1 ht
  woken := by
    intro t id i hp ht
    rw [hw] at ht
    obtain ⟨hp', hlog⟩ := hsleeps t id i hp
    rw [hlog]
    exact h.woken t id i hp' ht

/-- One task moves, with events that are no wake-ups. -/
theorem Credit.move {p : Pc} {o : Objects} {es : List Event} (h : x.Credit)
    (hid : o.semId = x.objects.semId)
    (hp : ∀ id i, p.semEnters = some (id, i) → 0 ≤ id ∧ x.objects.semId i = id)
    (hp' : p.semSleeps = none ∨ p.semSleeps = (x.pc c).semSleeps)
    (hes : ∀ e ∈ es, e.isSilent = true) :
    Credit ⟨o, x.waiting, Function.update x.pc c p, x.log ++ es⟩ := by
  refine h.frame hid (fun _ => rfl) ?_ ?_
  · intro t id i ht
    by_cases htc : t = c
    · subst htc
      exact hp id i (by simpa using ht)
    · exact h.calls t id i (by simpa [htc] using ht)
  · intro t id i ht
    refine ⟨?_, congrFun (lastWake_silents _ hes) t⟩
    by_cases htc : t = c
    · subst htc
      have ht' : p.semSleeps = some (id, i) := by simpa using ht
      rcases hp' with hnone | hsame
      · rw [hnone] at ht'
        cases ht'
      · rw [← hsame]
        exact ht'
    · simpa [htc] using ht

/-- A task blocks on a message queue. -/
theorem Credit.blockOther {q : WaitQ} {id : Int} {p : Pc} (h : x.Credit) (hq : ∀ i, q ≠ .sem i)
    (hp : p.semEnters = none) (hp' : p.semSleeps = none) : (x.block c q id p).Credit := by
  refine h.frame rfl ?_ ?_ ?_
  · intro i
    exact Function.update_of_ne (hq i).symm _ _
  · intro t id i ht
    by_cases htc : t = c
    · subst htc
      simp [block, setPc, setWaiting, emit, hp] at ht
    · exact h.calls t id i (by simpa [block, setPc, setWaiting, emit, htc] using ht)
  · intro t id i ht
    by_cases htc : t = c
    · subst htc
      simp [block, setPc, setWaiting, emit, hp'] at ht
    · refine ⟨by simpa [block, setPc, setWaiting, emit, htc] using ht, ?_⟩
      simp [block, setPc, setWaiting, emit, htc]

/-- A task leaves a message queue and wakes the first one of another list. -/
theorem Credit.wakeOther {q : WaitQ} {w : Waker} {e : Event} {o : Objects} (h : x.Credit)
    (hsleep : x.Asleep) (hq : ∀ i, q ≠ .sem i) (he : e.isSilent = true)
    (hid : o.semId = x.objects.semId) : (wakeFirst { x with objects := o } c q w e).Credit := by
  refine h.frame hid ?_ ?_ ?_
  · intro i
    exact Function.update_of_ne (hq i).symm _ _
  · intro t id i ht
    by_cases htc : t = c
    · subst htc
      simp [wakeFirst, setPc, setWaiting, emit, Pc.semEnters] at ht
    · exact h.calls t id i (by simpa [wakeFirst, setPc, setWaiting, emit, htc] using ht)
  · intro t id i ht
    by_cases htc : t = c
    · subst htc
      simp [wakeFirst, setPc, setWaiting, emit, Pc.semSleeps] at ht
    · have ht' : (x.pc t).semSleeps = some (id, i) := by
        simpa [wakeFirst, setPc, setWaiting, emit, htc] using ht
      refine ⟨ht', ?_⟩
      have hhead : (x.waiting q).head? ≠ some t := by
        intro hhead
        have hwaits := (hsleep q t (List.mem_of_mem_head? hhead)).2
        rw [Pc.waitsOn_semSleeps ht'] at hwaits
        exact hq i (Option.some.inj hwaits).symm
      have hlog := lastWake_wakeFirst x.log he (x.waiting q) w t
      rw [if_neg hhead] at hlog
      exact hlog

/-- A task blocks on the semaphore it has looked up. -/
theorem Credit.semBlock {id : Int} {i : Fin maxSems} (h : x.Credit)
    (hpc : x.pc c = .semWait id i) : (x.block c (.sem i) id (.semWaitInt id i)).Credit := by
  have hcall := h.calls c id i (by rw [hpc]; rfl)
  have hmem : ∀ t j, t ∈ (x.block c (.sem i) id (.semWaitInt id i)).waiting (.sem j) ↔
      t ∈ x.waiting (.sem j) ∨ (t = c ∧ j = i) := by
    intro t j
    by_cases hji : j = i
    · subst hji
      simp [block, setPc, setWaiting, emit]
    · simp [block, setPc, setWaiting, emit, hji]
  have hother : ∀ t, t ≠ c → (x.block c (.sem i) id (.semWaitInt id i)).pc t = x.pc t := by
    intro t htc
    exact Function.update_of_ne htc _ _
  have hself : (x.block c (.sem i) id (.semWaitInt id i)).pc c = .semWaitInt id i :=
    Function.update_self ..
  refine ⟨?_, ?_, ?_⟩
  · intro t id' j ht
    by_cases htc : t = c
    · rw [htc, hself] at ht
      cases ht
    · rw [hother t htc] at ht
      exact h.calls t id' j ht
  · intro t id' j ht htj
    by_cases htc : t = c
    · rw [htc, hself] at ht
      cases ht
      exact hcall
    · rw [hother t htc] at ht
      rcases (hmem t j).mp htj with hold | ⟨rfl, -⟩
      · exact h.waiting t id' j ht hold
      · exact absurd rfl htc
  · intro t id' j ht htj
    by_cases htc : t = c
    · subst htc
      rw [hself] at ht
      cases ht
      exact absurd ((hmem t _).mpr (.inr ⟨rfl, rfl⟩)) htj
    · rw [hother t htc] at ht
      have hlog : lastWake (x.block c (.sem i) id (.semWaitInt id i)).log t = lastWake x.log t := by
        simp [block, setPc, setWaiting, emit, htc]
      rw [hlog]
      exact h.woken t id' j ht fun hold => htj ((hmem t j).mpr (.inl hold))

/-- A post wakes a task that waits for the same semaphore. -/
theorem Credit.postWake {id : Int} {i : Fin maxSems} (h : x.Credit) (hsleep : x.Asleep)
    (hpc : x.pc c = .semPost id i) : (x.wakeFirst c (.sem i) (.post id) (.posted id)).Credit := by
  have hcall := h.calls c id i (by rw [hpc]; rfl)
  have hlog := lastWake_wakeFirst x.log (e := .posted id) rfl (x.waiting (.sem i)) (.post id)
  have hself : (x.wakeFirst c (.sem i) (.post id) (.posted id)).pc c = .user :=
    Function.update_self ..
  have hother : ∀ t, t ≠ c → (x.wakeFirst c (.sem i) (.post id) (.posted id)).pc t = x.pc t := by
    intro t htc
    exact Function.update_of_ne htc _ _
  have hlist : ∀ j, j ≠ i →
      (x.wakeFirst c (.sem i) (.post id) (.posted id)).waiting (.sem j) = x.waiting (.sem j) := by
    intro j hji
    simp [wakeFirst, setPc, setWaiting, emit, hji]
  have htail : (x.wakeFirst c (.sem i) (.post id) (.posted id)).waiting (.sem i) =
      (x.waiting (.sem i)).tail := Function.update_self ..
  have henters : ∀ t id' j,
      ((x.wakeFirst c (.sem i) (.post id) (.posted id)).pc t).semEnters = some (id', j) →
      (x.pc t).semEnters = some (id', j) := by
    intro t id' j ht
    by_cases htc : t = c
    · rw [htc, hself] at ht
      cases ht
    · rwa [hother t htc] at ht
  have hsleeps : ∀ t id' j,
      ((x.wakeFirst c (.sem i) (.post id) (.posted id)).pc t).semSleeps = some (id', j) →
      (x.pc t).semSleeps = some (id', j) := by
    intro t id' j ht
    by_cases htc : t = c
    · rw [htc, hself] at ht
      cases ht
    · rwa [hother t htc] at ht
  refine ⟨fun t id' j ht => h.calls t id' j (henters t id' j ht), ?_, ?_⟩
  · intro t id' j ht htj
    apply h.waiting t id' j (hsleeps t id' j ht)
    by_cases hji : j = i
    · subst hji
      rw [htail] at htj
      exact List.mem_of_mem_tail htj
    · rwa [hlist j hji] at htj
  · intro t id' j ht htj
    have ht' := hsleeps t id' j ht
    have hwake : lastWake (x.wakeFirst c (.sem i) (.post id) (.posted id)).log t =
        if (x.waiting (.sem i)).head? = some t then some (.post id) else lastWake x.log t := hlog t
    rw [hwake]
    split
    · next hhead =>
        have hmem := List.mem_of_mem_head? hhead
        have hwaits := (hsleep (.sem i) t hmem).2
        rw [Pc.waitsOn_semSleeps ht'] at hwaits
        cases hwaits
        obtain ⟨-, hid'⟩ := h.waiting t id' i ht' hmem
        rw [← hcall.2, hid']
    · next hhead =>
        apply h.woken t id' j ht'
        intro hold
        by_cases hji : j = i
        · subst hji
          rw [htail] at htj
          cases hws : x.waiting (.sem j) with
          | nil =>
              rw [hws] at hold
              cases hold
          | cons u us =>
              rw [hws] at hold htj hhead
              rcases List.mem_cons.mp hold with rfl | hus
              · exact hhead rfl
              · exact htj hus
        · rw [hlist j hji] at htj
          exact htj hold

/-- A slot that no call is about gets a new identifier and an empty wait list. -/
theorem Credit.renew {i : Fin maxSems} {n : Int} {o : Objects} {es : List Event} (h : x.Credit)
    (hid : o.semId = Function.update x.objects.semId i n)
    (hcalls : ∀ t id, (x.pc t).semEnters ≠ some (id, i))
    (hsleeps : ∀ t id, (x.pc t).semSleeps = some (id, i) → t ∉ x.waiting (.sem i))
    (hlog : lastWake (x.log ++ es) = lastWake x.log) :
    Credit ⟨o, Function.update x.waiting (.sem i) [], x.pc, x.log ++ es⟩ where
  calls := by
    intro t id j ht
    have hji : j ≠ i := by
      rintro rfl
      exact hcalls t id ht
    dsimp only
    rw [hid, Function.update_of_ne hji]
    exact h.calls t id j ht
  waiting := by
    intro t id j ht htj
    by_cases hji : j = i
    · subst hji
      simp at htj
    · dsimp only at htj ⊢
      rw [Function.update_of_ne (by simpa using hji)] at htj
      rw [hid, Function.update_of_ne hji]
      exact h.waiting t id j ht htj
  woken := by
    intro t id j ht htj
    dsimp only at htj ⊢
    rw [hlog]
    apply h.woken t id j ht
    by_cases hji : j = i
    · subst hji
      exact hsleeps t id ht
    · rwa [Function.update_of_ne (by simpa using hji)] at htj

theorem Credit.step (h : x.Credit) (hsleep : x.Asleep) (hs : x.Step x') : x'.Credit := by
  cases hs with
  | idle => exact h
  | goOn t =>
      have hmove : Credit ⟨x.objects, x.waiting, Function.update x.pc t (x.pc t).afterInt,
          x.log ++ []⟩ := by
        refine h.move rfl ?_ (.inr ?_) (by simp)
        · intro id i hp
          apply h.calls t id i
          cases hpc : x.pc t <;> simp_all [Pc.afterInt, Pc.semEnters]
        · cases hpc : x.pc t <;> simp [Pc.afterInt, Pc.semSleeps]
      simpa [setPc] using hmove
  | leave t p es hp ht hes =>
      refine h.move rfl ?_ (.inl ?_) ?_
      · intro id i hp'
        cases p <;> simp_all [Pc.isIdle, Pc.semEnters]
      · cases p <;> simp_all [Pc.isIdle, Pc.semSleeps]
      · intro e he
        obtain ⟨u, id, r, rfl⟩ := hes e he
        rfl
  | enter t p hpc hp =>
      have hmove : Credit ⟨x.objects, x.waiting, Function.update x.pc t p, x.log ++ []⟩ := by
        refine h.move rfl ?_ (.inl ?_) (by simp)
        · intro id i hp'
          cases hp with
          | semWait h₀ hi | semPost h₀ hi =>
              cases hp'
              exact ⟨h₀, hi⟩
          | send | recv => cases hp'
        · cases hp <;> rfl
      simpa [setPc] using hmove
  | semCreate i v hi =>
      refine h.renew rfl ?_ ?_ (lastWake_silents _ ?_)
      · intro t id ht
        obtain ⟨h₀, hid⟩ := h.calls t id i ht
        omega
      · intro t id ht hmem
        obtain ⟨h₀, hid⟩ := h.waiting t id i ht hmem
        omega
      · intro e he
        split at he <;> simp_all [Event.isSilent]
  | mqCreate j hj =>
      refine h.frame rfl (fun i => by simp [setWaiting, emit]) h.calls ?_
      intro t id i ht
      refine ⟨ht, congrFun (lastWake_silents _ ?_) t⟩
      intro e he
      split at he <;> simp_all [Event.isSilent]
  | acquire t id i hpc ha hv =>
      refine h.move rfl (by simp [Pc.semEnters]) (.inl rfl) ?_
      simp [Event.isSilent]
  | semBlock t id i hpc ha hv => exact h.semBlock hpc
  | postWake t id i hpc ha hq => exact h.postWake hsleep hpc
  | postAdd t id i hpc ha hq =>
      refine h.move rfl (by simp [Pc.semEnters]) (.inl rfl) ?_
      simp [Event.isSilent]
  | sendBlock t id j data len hpc ha hfull => exact h.blockOther (by simp) rfl rfl
  | deposit t id j data len hpc ha hroom => exact h.wakeOther hsleep (by simp) rfl rfl
  | recvBlock t id j hpc ha hempty => exact h.blockOther (by simp) rfl rfl
  | remove t id j hpc ha hmsg => exact h.wakeOther hsleep (by simp) rfl rfl

/-- Destroying a message queue wakes tasks that wait for no semaphore. -/
theorem Credit.mqDestroy {j : Fin maxMsgQueues} {o : Objects} {waiting : WaitQ → List Slot}
    {w : Waker} (h : x.Credit) (hsleep : x.Asleep) (hid : o.semId = x.objects.semId)
    (hw : ∀ i, waiting (.sem i) = x.waiting (.sem i)) :
    Credit ⟨o, waiting, x.pc, x.log ++
      (x.waiting (.recv j) ++ x.waiting (.send j)).map fun t => .woken t w⟩ := by
  refine h.frame hid hw h.calls ?_
  intro t id i ht
  refine ⟨ht, lastWake_others _ _ ?_⟩
  have hwaits : ∀ q, t ∈ x.waiting q → q = .sem i := by
    intro q hq
    have hon := (hsleep q t hq).2
    rw [Pc.waitsOn_semSleeps ht] at hon
    exact (Option.some.inj hon).symm
  rw [List.mem_append]
  rintro (hrecv | hsend)
  · cases hwaits _ hrecv
  · cases hwaits _ hsend

end Ipc

namespace Sys

variable {s s' : Sys} {a : Act} {ls : QueueId → List Slot} {c : Slot}

/-- When the step destroys a semaphore, no task waits for it, and no call has looked it up
without having reached its `cli`. -/
def SemDestroySafe (s : Sys) : Act → Prop
  | .call (.semDestroy id) => 0 ≤ id → ∀ i, (s.kernel.sems i).id = id →
      (s.kernel.sems i).waitHead = none ∧ ∀ t, (s.pc t).semEnters ≠ some (id, i)
  | _ => True

instance (s : Sys) (a : Act) : Decidable (s.SemDestroySafe a) := by
  unfold SemDestroySafe
  split <;> infer_instance

/-- The steps of the runs in which a return of `sem_wait` stands for a unit. -/
def Returns (s : Sys) (a : Act) : Prop := s.TickSafe a ∧ s.ExitSafe a ∧ s.SemDestroySafe a

theorem Inv.asleep (h : s.Inv ls) : (s.ipc ls).Asleep := fun q t ht => h.ok.waiting q t ht

theorem boot_credit {frames : Nat → Registers} {cr3 esp0 timerTicks : Nat} {s₀ : Sys}
    (h₀ : Sys.boot frames cr3 esp0 timerTicks = some s₀) : (s₀.ipc fun _ => []).Credit := by
  obtain ⟨hpc, -⟩ := Inv.boot_pc_log h₀
  constructor
  · intro t id i ht
    simp [ipc, hpc, Pc.semEnters] at ht
  · intro t id i ht
    simp [ipc, hpc, Pc.semSleeps] at ht
  · intro t id i ht
    simp [ipc, hpc, Pc.semSleeps] at ht

/-- A safe `sem_destroy` wakes nobody. -/
theorem Inv.semDestroy_credit {id r : Int} {woken : List Slot} {k : Kernel} (h : s.Inv ls)
    (hx : (s.ipc ls).Credit) (hc : s.view.Running c)
    (hsafe : s.SemDestroySafe (.call (.semDestroy id)))
    (hk : SRos.semDestroy id s.kernel = some (r, woken, k)) :
    woken = [] ∧ ∃ ls', { s with kernel := k }.Inv ls' ∧ ({ s with kernel := k }.ipc ls').Credit := by
  by_cases hneg : id < 0
  · unfold SRos.semDestroy at hk
    rw [if_pos hneg] at hk
    cases hk
    exact ⟨rfl, ls, h, hx⟩
  · rcases h.semDestroy hc hk with ⟨rfl, rfl⟩ | ⟨i, ls', hid, rfl, hobj, hinv, hnil, hrest⟩
    · exact ⟨rfl, ls, h, hx⟩
    · obtain ⟨hhead, hcalls⟩ := hsafe (by omega) i hid
      have hempty : ls (.wait (.sem i)) = [] := (h.ok.head_none_iff (.wait (.sem i))).mp hhead
      rw [hempty] at hinv ⊢
      have hwait : (fun q => ls' (.wait q)) =
          Function.update (fun q => ls (.wait q)) (.sem i) [] := by
        funext q
        by_cases hq : q = .sem i
        · subst hq
          simpa using hnil
        · simpa [hq] using hrest q hq
      refine ⟨rfl, ls', by simpa [Sys.emit] using hinv, ?_⟩
      have hcredit := @Ipc.Credit.renew (s.ipc ls) i (-1) k.objects [] hx (by rw [hobj]; rfl) ?_ ?_
        (by rw [List.append_nil])
      · simpa [ipc, hwait] using hcredit
      · intro t id' ht
        obtain ⟨-, hid'⟩ := hx.calls t id' i ht
        have heq : id' = id := hid'.symm.trans hid
        exact hcalls t (heq ▸ ht)
      · intro t id' ht
        change t ∉ ls (.wait (.sem i))
        rw [hempty]
        exact List.not_mem_nil

/-- Every step of such a run keeps the invariants. -/
theorem Inv.credit_step (h : s.Inv ls) (hx : (s.ipc ls).Credit) (hok : s.Returns a)
    (hs : s.step a = some s') : ∃ ls', s'.Inv ls' ∧ (s'.ipc ls').Credit := by
  obtain ⟨ht, he, hsafe⟩ := hok
  have hrun : ∀ {c}, s.current = some c → s.pc c = .user → s.view.Running c :=
    fun hc hpc => h.running hc (by rw [hpc]; rfl)
  cases hd : a.destroys with
  | false =>
      obtain ⟨ls', hinv, hstep⟩ := h.refines ht he hd hs
      exact ⟨ls', hinv, hx.step h.asleep hstep⟩
  | true =>
      cases step_move hs with
      | semDestroy hc hpc hk =>
          obtain ⟨rfl, ls', hinv, hcredit⟩ := h.semDestroy_credit hx (hrun hc hpc) hsafe hk
          exact ⟨ls', by simpa [Sys.emit] using hinv, by simpa [Sys.emit] using hcredit⟩
      | mqDestroy hc hpc hk =>
          rcases h.msgQueueDestroy (hrun hc hpc) hk with
            ⟨rfl, rfl⟩ | ⟨j, ls', hid, rfl, hobj, hinv, hrecv, hsend, hrest⟩
          · exact ⟨ls, by simpa [Sys.emit] using h, by simpa [Sys.emit] using hx⟩
          · refine ⟨ls', hinv, ?_⟩
            exact hx.mqDestroy h.asleep (by rw [ipc, Sys.emit, hobj])
              fun i => hrest _ (by simp) (by simp)
      | @refuse _ call _ _ hcall => cases call <;> cases hcall <;> cases hd
      | enter hc hpc hp => cases hp <;> cases hd
      | _ => cases hd

theorem Inv.credit_reach {frames : Nat → Registers} {cr3 esp0 timerTicks : Nat} {s₀ : Sys}
    (h₀ : Sys.boot frames cr3 esp0 timerTicks = some s₀) (h : Reach Sys.step Sys.Returns s₀ s) :
    ∃ ls, s.Inv ls ∧ (s.ipc ls).Credit := by
  apply h.invariant (P := fun s => ∃ ls, s.Inv ls ∧ (s.ipc ls).Credit)
    ⟨_, Inv.boot_inv h₀, boot_credit h₀⟩
  rintro s a s' ⟨ls, hinv, hcredit⟩ hok hs
  exact hinv.credit_step hcredit hok hs

/-- `sem_wait(id)` by `c`, which returns 0 in the step from `s` to `s'`, has taken a unit of the
semaphore `id`, or was woken by a `sem_post(id)`. -/
def Earned (s s' : Sys) (c : Slot) (id : Int) : Prop :=
  (∃ i, (s.kernel.sems i).id = id ∧ 0 < (s.kernel.sems i).value ∧
    (s'.kernel.sems i).value = (s.kernel.sems i).value - 1) ∨
  lastWake s.log c = some (.post id)

instance (s s' : Sys) (c : Slot) (id : Int) : Decidable (Earned s s' c id) :=
  inferInstanceAs (Decidable (_ ∨ _))

/-- What a step has to do with returns of `sem_wait` with 0 and wake-ups by `sem_destroy`. -/
structure Reports (s : Sys) (a : Act) (s' : Sys) (es : List Event) : Prop where
  log : s'.log = s.log ++ es
  returns : ∀ c id, .semWaitReturned c id 0 ∈ es →
    (∃ i, s.pc c = .semWait id i ∧ 0 < (s.kernel.sems i).value ∧
      (s'.kernel.sems i).value = (s.kernel.sems i).value - 1) ∨
    (s.current = some c ∧ ∃ i, s.pc c = .semWaitDone id i)
  wakes : ∀ t id, .woken t (.semDestroy id) ∈ es → ∃ r woken k, a = .call (.semDestroy id) ∧
    SRos.semDestroy id s.kernel = some (r, woken, k) ∧ t ∈ woken

/-- Events of other kinds. -/
theorem Reports.other {es : List Event} (hlog : s'.log = s.log ++ es)
    (hreturns : ∀ c id, .semWaitReturned c id 0 ∉ es)
    (hwakes : ∀ t id, .woken t (.semDestroy id) ∉ es) : Reports s a s' es :=
  ⟨hlog, fun c id hmem => absurd hmem (hreturns c id),
    fun t id hmem => absurd hmem (hwakes t id)⟩

theorem Reports.quiet (hlog : s'.log = s.log) : Reports s a s' [] :=
  .other (by rw [hlog, List.append_nil]) (by simp) (by simp)

theorem semWait_reports {id : Int} {i : Fin maxSems} (hpc : s.pc c = .semWait id i) :
    ∃ es, Reports s a (s.semWaitStep c id i) es := by
  unfold semWaitStep semWaitSection
  by_cases hv : (s.kernel.sems i).value > 0
  · simp only [hv, if_true]
    refine ⟨[.acquired c id, .semWaitReturned c id 0], rfl, ?_, by simp⟩
    intro c' id' hmem
    left
    simp only [List.mem_cons, reduceCtorEq, Event.semWaitReturned.injEq, and_true,
      List.not_mem_nil, or_false, false_or] at hmem
    obtain ⟨rfl, rfl⟩ := hmem
    exact ⟨i, hpc, hv, by simp [Sys.emit, Sys.setPc, Kernel.setSem]⟩
  · simp only [hv, if_false]
    exact ⟨[.slept c (.sem i) id], .other rfl (by simp) (by simp)⟩

theorem semPost_reports {id : Int} {i : Fin maxSems} (hs : s.semPostStep c id i = some s') :
    ∃ es, Reports s a s' es := by
  obtain ⟨⟨woken, k⟩, -, hs⟩ := Option.bind_eq_some_iff.mp hs
  cases hs
  exact ⟨_, .other rfl (by simp) (by simp)⟩

theorem send_reports {id : Int} {j : Fin maxMsgQueues} {data : Nat → UInt8} {len : Nat} :
    ∃ es, Reports s a (s.sendStep c id j data len) es := by
  unfold sendStep
  split
  · exact ⟨_, .other rfl (by simp) (by simp)⟩
  · exact ⟨_, .other rfl (by simp) (by simp)⟩

theorem recv_reports {id : Int} {j : Fin maxMsgQueues} :
    ∃ es, Reports s a (s.recvStep c id j) es := by
  unfold recvStep
  split
  · exact ⟨_, .other rfl (by simp) (by simp)⟩
  · exact ⟨_, .other rfl (by simp) (by simp)⟩

theorem step_reports (hs : s.step a = some s') : ∃ es, Reports s a s' es := by
  cases step_move hs with
  | tick ht => exact ⟨_, .quiet (tick_log ht)⟩
  | yield hc hpc ht => exact ⟨_, .quiet (tick_log ht)⟩
  | int hc hpc ht => exact ⟨_, .quiet ((tick_log ht).trans rfl)⟩
  | create hc hpc hsp => exact ⟨_, .quiet (spawn_log hsp)⟩
  | fork hc hpc hsp => exact ⟨_, .quiet (spawn_log hsp)⟩
  | exit hc hpc => exact ⟨_, .quiet rfl⟩
  | wait hc hpc => exact ⟨_, .quiet (waitPass_log ..)⟩
  | waitAgain hc hpc => exact ⟨_, .quiet (waitPass_log ..)⟩
  | semCreate hc hpc hk => exact ⟨_, .other rfl (by simp) (by simp)⟩
  | mqCreate hc hpc hk => exact ⟨_, .other rfl (by simp) (by simp)⟩
  | enter hc hpc hp => exact ⟨_, .quiet rfl⟩
  | refuseWait hc hpc => exact ⟨_, .other rfl (by simp) (by simp)⟩
  | refuse hc hpc hcall => exact ⟨_, .quiet rfl⟩
  | semWait hc hpc => exact semWait_reports hpc
  | @semWaitDone c id i regs hc hpc =>
      refine ⟨[.semWaitReturned c id 0], rfl, ?_, by simp⟩
      intro c' id' hmem
      right
      simp only [List.mem_singleton, Event.semWaitReturned.injEq, and_true] at hmem
      obtain ⟨rfl, rfl⟩ := hmem
      exact ⟨hc, i, hpc⟩
  | semPost hc hpc hs => exact semPost_reports hs
  | send hc hpc => exact send_reports
  | recv hc hpc => exact recv_reports
  | @semDestroy c id r woken k hc hpc hk =>
      refine ⟨_, rfl, by simp, ?_⟩
      intro t id' hmem
      obtain ⟨u, hu, heq⟩ := List.mem_map.mp hmem
      cases heq
      exact ⟨r, woken, k, rfl, hk, hu⟩
  | mqDestroy hc hpc hk => exact ⟨_, .other rfl (by simp) (by simp)⟩

instance (s : Sys) (a : Act) : Decidable (s.Returns a) := inferInstanceAs (Decidable (_ ∧ _))

end Sys

end SRos
