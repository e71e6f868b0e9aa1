import SRos.Ipc.Blocking

/-!
# Semaphores

The ledger of a semaphore over a run without `sem_destroy`: its value, the units taken and the
units handed to waiters add up to the initial value and the posts, and the waiters are served in
the order of their arrival.
-/

namespace SRos

/-- The semaphore call a task is in. -/
def Pc.semRef : Pc → Option (Int × Fin maxSems)
  | .semWait id i | .semWaitInt id i | .semWaitDone id i | .semPost id i => some (id, i)
  | _ => none

/-- The number of calls `sem_wait(id)` that took a unit at once. -/
def acquisitions (log : List Event) (id : Int) : Nat :=
  log.countP fun e => match e with
    | .acquired _ id' => id' = id
    | _ => false

/-- The number of calls `sem_post(id)`. -/
def posts (log : List Event) (id : Int) : Nat := log.count (.posted id)

/-- The tasks that blocked in `sem_wait(id)`, in order. -/
def arrivals (log : List Event) (id : Int) : List Slot :=
  log.filterMap fun e => match e with
    | .slept t (.sem _) id' => if id' = id then some t else none
    | _ => none

/-- The tasks that `sem_post(id)` woke, in order. -/
def handOffs (log : List Event) (id : Int) : List Slot :=
  log.filterMap fun e => match e with
    | .woken t (.post id') => if id' = id then some t else none
    | _ => none

/-- The semaphore an event belongs to. -/
def Event.sem : Event → Option Int
  | .semCreated id _ | .acquired _ id | .slept _ (.sem _) id | .woken _ (.post id) | .posted id =>
      some id
  | _ => none

theorem acquisitions_append {id : Int} {es : List Event} (log : List Event)
    (h : ∀ e ∈ es, e.sem ≠ some id) : acquisitions (log ++ es) id = acquisitions log id := by
  unfold acquisitions
  rw [List.countP_append, Nat.add_eq_left, List.countP_eq_zero]
  intro e he
  have := h e he
  cases e <;> simp_all [Event.sem]

theorem posts_append {id : Int} {es : List Event} (log : List Event)
    (h : ∀ e ∈ es, e.sem ≠ some id) : posts (log ++ es) id = posts log id := by
  unfold posts
  rw [List.count_append, Nat.add_eq_left, List.count_eq_zero]
  intro he
  exact h _ he rfl

theorem arrivals_append {id : Int} {es : List Event} (log : List Event)
    (h : ∀ e ∈ es, e.sem ≠ some id) : arrivals (log ++ es) id = arrivals log id := by
  unfold arrivals
  rw [List.filterMap_append, List.append_right_eq_self, List.filterMap_eq_nil_iff]
  intro e he
  have := h e he
  cases e with
  | slept t q id' => cases q <;> simp_all [Event.sem]
  | _ => rfl

theorem handOffs_append {id : Int} {es : List Event} (log : List Event)
    (h : ∀ e ∈ es, e.sem ≠ some id) : handOffs (log ++ es) id = handOffs log id := by
  unfold handOffs
  rw [List.filterMap_append, List.append_right_eq_self, List.filterMap_eq_nil_iff]
  intro e he
  have := h e he
  cases e with
  | woken t w => cases w <;> simp_all [Event.sem]
  | _ => rfl

namespace Ipc

/-- The ledger of the semaphore in slot `i`, which was created as `id` with the value `v`. -/
structure Ledger (x : Ipc) (i : Fin maxSems) (id v : Int) : Prop where
  value : 0 ≤ x.objects.semValue i
  free : 0 < x.objects.semValue i → x.waiting (.sem i) = []
  units : x.objects.semValue i + acquisitions x.log id + (handOffs x.log id).length =
    max v 0 + posts x.log id
  order : arrivals x.log id = handOffs x.log id ++ x.waiting (.sem i)

/-- Nothing about the semaphore has changed. -/
theorem Ledger.frame {x x' : Ipc} {i : Fin maxSems} {id v : Int} {es : List Event}
    (h : x.Ledger i id v) (hv : x'.objects.semValue i = x.objects.semValue i)
    (hw : x'.waiting (.sem i) = x.waiting (.sem i)) (hlog : x'.log = x.log ++ es)
    (hes : ∀ e ∈ es, e.sem ≠ some id) : x'.Ledger i id v := by
  constructor
  · rw [hv]; exact h.value
  · rw [hv, hw]; exact h.free
  · rw [hv, hlog, acquisitions_append _ hes, handOffs_append _ hes, posts_append _ hes]
    exact h.units
  · rw [hw, hlog, arrivals_append _ hes, handOffs_append _ hes]
    exact h.order

/-- The ledger of a semaphore that has just been created. -/
theorem Ledger.opened {x x' : Ipc} {i : Fin maxSems} {id v : Int}
    (hfresh : ∀ e ∈ x.log, e.sem ≠ some id) (hlog : x'.log = x.log ++ [.semCreated id v])
    (hv : x'.objects.semValue i = if v < 0 then 0 else v) (hw : x'.waiting (.sem i) = []) :
    x'.Ledger i id v := by
  have hnew : arrivals x'.log id = [] ∧ handOffs x'.log id = [] ∧ acquisitions x'.log id = 0 ∧
      posts x'.log id = 0 := by
    have harr := arrivals_append [] hfresh
    have hoff := handOffs_append [] hfresh
    have hacq := acquisitions_append [] hfresh
    have hpost := posts_append [] hfresh
    rw [List.nil_append] at harr hoff hacq hpost
    rw [hlog]
    simp only [arrivals, handOffs, acquisitions, posts] at harr hoff hacq hpost
    simp [arrivals, handOffs, acquisitions, posts, harr, hoff, hacq, hpost]
  obtain ⟨harr, hoff, hacq, hpost⟩ := hnew
  constructor
  · rw [hv]
    split <;> omega
  · exact fun _ => hw
  · rw [hv, hacq, hoff, hpost, List.length_nil]
    split <;> omega
  · rw [harr, hoff, hw, List.nil_append]

structure SemOk (x : Ipc) : Prop where
  count : 0 ≤ x.objects.semCount
  idLt : ∀ i, x.objects.semId i < x.objects.semCount
  idInj : ∀ i j, 0 ≤ x.objects.semId i → x.objects.semId i = x.objects.semId j → i = j
  /-- The calls under way are about the semaphore they looked up. -/
  calls : ∀ t id i, (x.pc t).semRef = some (id, i) → 0 ≤ id ∧ x.objects.semId i = id
  /-- A task asleep in `sem_wait` is on the wait list of its semaphore. -/
  blocked : ∀ t i, asleep x.log t = true → (x.pc t).waitsOn = some (.sem i) →
    t ∈ x.waiting (.sem i)
  /-- Identifiers that were not given out yet do not occur. -/
  fresh : ∀ id, x.objects.semCount ≤ id → ∀ e ∈ x.log, e.sem ≠ some id
  ledger : ∀ id v, .semCreated id v ∈ x.log →
    ∃ i, 0 ≤ id ∧ x.objects.semId i = id ∧ x.Ledger i id v

variable {x x' : Ipc}

theorem SemOk.issued (h : x.SemOk) : Issued x.objects.semId x.objects.semCount := ⟨h.idLt, h.idInj⟩

/-- A step that is not about semaphores. -/
theorem SemOk.frame {es : List Event} (h : x.SemOk)
    (hid : x'.objects.semId = x.objects.semId) (hv : x'.objects.semValue = x.objects.semValue)
    (hn : x'.objects.semCount = x.objects.semCount)
    (hw : ∀ i, x'.waiting (.sem i) = x.waiting (.sem i)) (hlog : x'.log = x.log ++ es)
    (hes : ∀ e ∈ es, e.sem = none)
    (hcalls : ∀ t id i, (x'.pc t).semRef = some (id, i) → 0 ≤ id ∧ x.objects.semId i = id)
    (hblocked : ∀ t i, asleep x'.log t = true → (x'.pc t).waitsOn = some (.sem i) →
      asleep x.log t = true ∧ (x.pc t).waitsOn = some (.sem i)) : x'.SemOk where
  count := by rw [hn]; exact h.count
  idLt := by rw [hid, hn]; exact h.idLt
  idInj := by rw [hid]; exact h.idInj
  calls := by rw [hid]; exact hcalls
  blocked := by
    intro t i ha hp
    obtain ⟨ha', hp'⟩ := hblocked t i ha hp
    rw [hw]
    exact h.blocked t i ha' hp'
  fresh := by
    intro id hlt e he
    rw [hlog, List.mem_append] at he
    rcases he with he | he
    · exact h.fresh id (hn ▸ hlt) e he
    · simp [hes e he]
  ledger := by
    intro id v hmem
    rw [hlog, List.mem_append] at hmem
    rcases hmem with hmem | hmem
    · obtain ⟨i, h₀, hi, hled⟩ := h.ledger id v hmem
      refine ⟨i, h₀, by rw [hid]; exact hi, hled.frame (by rw [hv]) (hw i) hlog ?_⟩
      intro e he
      simp [hes e he]
    · have := hes _ hmem
      cases this

/-- A step of a call on the semaphore `id` in slot `i`, which moves the task `c` and the task
that it wakes. -/
private theorem SemOk.act {es : List Event} {i : Fin maxSems} {id : Int} (h : x.SemOk)
    (h₀ : 0 ≤ id) (hi : x.objects.semId i = id)
    (hid : x'.objects.semId = x.objects.semId) (hn : x'.objects.semCount = x.objects.semCount)
    (hv : ∀ j, j ≠ i → x'.objects.semValue j = x.objects.semValue j)
    (hw : ∀ j, j ≠ i → x'.waiting (.sem j) = x.waiting (.sem j)) (hlog : x'.log = x.log ++ es)
    (hes : ∀ e ∈ es, (e.sem = none ∨ e.sem = some id) ∧ ∀ v, e ≠ .semCreated id v)
    (hcalls : ∀ t id i, (x'.pc t).semRef = some (id, i) → 0 ≤ id ∧ x.objects.semId i = id)
    (hblocked : ∀ t j, asleep x'.log t = true → (x'.pc t).waitsOn = some (.sem j) →
      t ∈ x'.waiting (.sem j))
    (hled : ∀ v, x.Ledger i id v → x'.Ledger i id v) : x'.SemOk where
  count := by rw [hn]; exact h.count
  idLt := by rw [hid, hn]; exact h.idLt
  idInj := by rw [hid]; exact h.idInj
  calls := by rw [hid]; exact hcalls
  blocked := hblocked
  fresh := by
    intro id' hlt e he
    rw [hlog, List.mem_append] at he
    rcases he with he | he
    · exact h.fresh id' (hn ▸ hlt) e he
    · have hne : id ≠ id' := by
        have := h.idLt i
        omega
      rcases (hes e he).1 with hs | hs <;> simp [hs, hne]
  ledger := by
    intro id' v hmem
    have hold : .semCreated id' v ∈ x.log := by
      rw [hlog, List.mem_append] at hmem
      rcases hmem with hmem | hmem
      · exact hmem
      · obtain ⟨hs, hne⟩ := hes _ hmem
        have hid' : id' = id := by simpa [Event.sem] using hs
        exact absurd (by rw [hid']) (hne v)
    obtain ⟨j, h₀', hj, hl⟩ := h.ledger id' v hold
    refine ⟨j, h₀', by rw [hid]; exact hj, ?_⟩
    by_cases hji : j = i
    · subst hji
      have heq : id' = id := hj.symm.trans hi
      subst heq
      exact hled v hl
    · have hne : id ≠ id' := by
        intro heq
        exact hji (h.idInj j i (by omega) (by omega))
      refine hl.frame (hv j hji) (hw j hji) hlog fun e he => ?_
      rcases (hes e he).1 with hs | hs <;> simp [hs, hne]

private theorem semRef_setPc {c : Slot} {p : Pc} (h : x.SemOk)
    (hp : ∀ id i, p.semRef = some (id, i) → 0 ≤ id ∧ x.objects.semId i = id) (t : Slot) (id : Int)
    (i : Fin maxSems) (ht : (Function.update x.pc c p t).semRef = some (id, i)) :
    0 ≤ id ∧ x.objects.semId i = id := by
  by_cases htc : t = c
  · subst htc
    exact hp id i (by simpa using ht)
  · exact h.calls t id i (by simpa [htc] using ht)

private theorem SemOk.wakeOther {c : Slot} {j : Fin maxMsgQueues} {q : WaitQ} {w : Waker}
    {e : Event} {o : Objects} (h : x.SemOk) (hq : q = .recv j ∨ q = .send j)
    (hw : ∀ id, w ≠ .post id) (he : e.isSilent = true) (hsem : e.sem = none)
    (hid : o.semId = x.objects.semId) (hv : o.semValue = x.objects.semValue)
    (hn : o.semCount = x.objects.semCount) :
    ({ x with objects := o }.wakeFirst c q w e).SemOk := by
  refine h.frame hid hv hn (fun i => ?_) rfl ?_ ?_ ?_
  · rcases hq with rfl | rfl <;> simp [Ipc.wakeFirst, setWaiting, setPc, emit]
  · intro e' he'
    rcases List.mem_cons.mp he' with rfl | he'
    · exact hsem
    · obtain ⟨t, -, rfl⟩ := List.mem_map.mp he'
      cases w <;> first | rfl | exact absurd rfl (hw _)
  · exact semRef_setPc (x := x) h (by simp [Pc.semRef])
  · intro t i ha hp
    have ha' : asleep x.log t = true := by
      have := (asleep_wakeFirst x.log he (x.waiting q) w t).symm.trans ha
      simp_all
    by_cases htc : t = c
    · subst htc
      simp [Ipc.wakeFirst, setWaiting, setPc, emit, Pc.waitsOn] at hp
    · exact ⟨ha', by simpa [Ipc.wakeFirst, setWaiting, setPc, emit, htc] using hp⟩

private theorem SemOk.blockOther {c : Slot} {j : Fin maxMsgQueues} {q : WaitQ} {id : Int} {p : Pc}
    (h : x.SemOk) (hq : q = .recv j ∨ q = .send j) (hp : p.waitsOn = some q)
    (hsem : p.semRef = none) : (x.block c q id p).SemOk := by
  refine h.frame rfl rfl rfl (fun i => ?_) rfl ?_ ?_ ?_
  · rcases hq with rfl | rfl <;> simp [block, setWaiting, setPc, emit]
  · intro e he
    rw [List.mem_singleton.mp he]
    rcases hq with rfl | rfl <;> rfl
  · exact semRef_setPc (x := x) h (by simp [hsem])
  · intro t i ha hw
    by_cases htc : t = c
    · subst htc
      rcases hq with rfl | rfl <;> simp [block, setWaiting, setPc, emit, hp] at hw
    · refine ⟨?_, by simpa [block, setWaiting, setPc, emit, htc] using hw⟩
      simpa [block, setWaiting, setPc, emit, htc] using ha

private theorem SemOk.acquire {c : Slot} {id : Int} {i : Fin maxSems} (h : x.SemOk)
    (hpc : x.pc c = .semWait id i) (hv : 0 < x.objects.semValue i) :
    (((x.setValue i (x.objects.semValue i - 1)).setPc c .user).emit
      [.acquired c id, .semWaitReturned c id 0]).SemOk := by
  obtain ⟨h₀, hi⟩ := h.calls c id i (by rw [hpc]; rfl)
  refine h.act h₀ hi rfl rfl ?_ (fun _ _ => rfl) rfl ?_ ?_ ?_ ?_
  · intro j hj
    simp [setValue, setPc, emit, hj]
  · simp [Event.sem]
  · exact semRef_setPc (x := x) h (by simp [Pc.semRef])
  · intro t j ha hw
    have hlog : asleep (x.log ++ [.acquired c id, .semWaitReturned c id 0]) = asleep x.log :=
      asleep_silents x.log (by simp [Event.isSilent])
    by_cases htc : t = c
    · subst htc
      simp [setValue, setPc, emit, Pc.waitsOn] at hw
    · apply h.blocked t j
      · rw [← hlog]; exact ha
      · simpa [setValue, setPc, emit, htc] using hw
  · intro v hl
    have hunits := hl.units
    constructor
    · simp only [setValue, setPc, emit, Function.update_self]
      omega
    · intro _
      exact hl.free hv
    · simp only [setValue, setPc, emit, Function.update_self, acquisitions, posts, handOffs] at hunits ⊢
      simp
      omega
    · simpa [setValue, setPc, emit, arrivals, handOffs] using hl.order

private theorem SemOk.semBlock {c : Slot} {id : Int} {i : Fin maxSems} (h : x.SemOk)
    (hpc : x.pc c = .semWait id i) (hv : x.objects.semValue i ≤ 0) :
    (x.block c (.sem i) id (.semWaitInt id i)).SemOk := by
  obtain ⟨h₀, hi⟩ := h.calls c id i (by rw [hpc]; rfl)
  refine h.act h₀ hi rfl rfl (fun _ _ => rfl) ?_ rfl ?_ ?_ ?_ ?_
  · intro j hj
    simp [block, setWaiting, setPc, emit, hj]
  · simp [Event.sem]
  · apply semRef_setPc (x := x) h
    intro id' i' hp
    obtain ⟨rfl, rfl⟩ : id = id' ∧ i = i' := by simpa [Pc.semRef] using hp
    exact ⟨h₀, hi⟩
  · intro t j ha hw
    by_cases htc : t = c
    · subst htc
      have hij : i = j := by simpa [block, setWaiting, setPc, emit, Pc.waitsOn] using hw
      subst hij
      simp [block, setWaiting, setPc, emit]
    · have hmem : t ∈ x.waiting (.sem j) := by
        apply h.blocked t j
        · simpa [block, setWaiting, setPc, emit, htc] using ha
        · simpa [block, setWaiting, setPc, emit, htc] using hw
      by_cases hij : j = i
      · subst hij; simp [block, setWaiting, setPc, emit, hmem]
      · simpa [block, setWaiting, setPc, emit, hij] using hmem
  · intro v hl
    constructor
    · exact hl.value
    · intro hpos
      exact absurd hpos (by simpa [block, setWaiting, setPc, emit] using hv)
    · simpa [block, setWaiting, setPc, emit, acquisitions, handOffs, posts] using hl.units
    · have horder := hl.order
      simp only [block, setWaiting, setPc, emit, Function.update_self, arrivals, handOffs] at horder ⊢
      simp [horder]

private theorem SemOk.postWake {c : Slot} {id : Int} {i : Fin maxSems} (h : x.SemOk)
    (hpc : x.pc c = .semPost id i) (hq : x.waiting (.sem i) ≠ []) :
    (x.wakeFirst c (.sem i) (.post id) (.posted id)).SemOk := by
  obtain ⟨h₀, hi⟩ := h.calls c id i (by rw [hpc]; rfl)
  obtain ⟨u, us, hu⟩ := List.exists_cons_of_ne_nil hq
  refine h.act h₀ hi rfl rfl (fun _ _ => rfl) ?_ rfl ?_ ?_ ?_ ?_
  · intro j hj
    simp [Ipc.wakeFirst, setWaiting, setPc, emit, hj]
  · simp [hu, Event.sem]
  · exact semRef_setPc (x := x) h (by simp [Pc.semRef])
  · intro t j ha hw
    obtain ⟨ha', hne⟩ : asleep x.log t = true ∧ (x.waiting (.sem i)).head? ≠ some t := by
      have := (asleep_wakeFirst x.log (e := .posted id) rfl (x.waiting (.sem i)) (.post id)
        t).symm.trans ha
      simpa using this
    by_cases htc : t = c
    · subst htc
      simp [Ipc.wakeFirst, setWaiting, setPc, emit, Pc.waitsOn] at hw
    · have hmem : t ∈ x.waiting (.sem j) :=
        h.blocked t j ha' (by simpa [Ipc.wakeFirst, setWaiting, setPc, emit, htc] using hw)
      by_cases hij : j = i
      · subst hij
        rw [hu] at hmem hne
        have htu : t ≠ u := fun he => hne (by simp [he])
        simpa [Ipc.wakeFirst, setWaiting, setPc, emit, hu, htu] using hmem
      · simpa [Ipc.wakeFirst, setWaiting, setPc, emit, hij] using hmem
  · intro v hl
    have hunits := hl.units
    have horder := hl.order
    constructor
    · exact hl.value
    · intro hpos
      exact absurd (hl.free hpos) hq
    · simp only [Ipc.wakeFirst, setWaiting, setPc, emit, hu, acquisitions, posts, handOffs] at hunits ⊢
      simp
      omega
    · simp only [Ipc.wakeFirst, setWaiting, setPc, emit, Function.update_self, hu, arrivals,
        handOffs] at horder ⊢
      simp [horder]

private theorem SemOk.postAdd {c : Slot} {id : Int} {i : Fin maxSems} (h : x.SemOk)
    (hpc : x.pc c = .semPost id i) (hq : x.waiting (.sem i) = []) :
    (((x.setValue i (x.objects.semValue i + 1)).setPc c .user).emit [.posted id]).SemOk := by
  obtain ⟨h₀, hi⟩ := h.calls c id i (by rw [hpc]; rfl)
  refine h.act h₀ hi rfl rfl ?_ (fun _ _ => rfl) rfl ?_ ?_ ?_ ?_
  · intro j hj
    simp [setValue, setPc, emit, hj]
  · simp [Event.sem]
  · exact semRef_setPc (x := x) h (by simp [Pc.semRef])
  · intro t j ha hw
    have hlog : asleep (x.log ++ [.posted id]) = asleep x.log := asleep_silent x.log rfl
    by_cases htc : t = c
    · subst htc
      simp [setValue, setPc, emit, Pc.waitsOn] at hw
    · apply h.blocked t j
      · rw [← hlog]; exact ha
      · simpa [setValue, setPc, emit, htc] using hw
  · intro v hl
    have hunits := hl.units
    have hval := hl.value
    constructor
    · simp only [setValue, setPc, emit, Function.update_self]
      omega
    · intro _
      exact hq
    · simp only [setValue, setPc, emit, Function.update_self, acquisitions, posts, handOffs] at hunits ⊢
      simp
      omega
    · simpa [setValue, setPc, emit, arrivals, handOffs] using hl.order

private theorem SemOk.move {c : Slot} {p : Pc} {es : List Event} (h : x.SemOk)
    (hp : ∀ id i, p.semRef = some (id, i) → 0 ≤ id ∧ x.objects.semId i = id)
    (hw : p.waitsOn = none ∨ p.waitsOn = (x.pc c).waitsOn)
    (hes : ∀ e ∈ es, e.sem = none ∧ e.isSilent = true) : ((x.setPc c p).emit es).SemOk := by
  refine h.frame rfl rfl rfl (fun _ => rfl) rfl (fun e he => (hes e he).1)
    (semRef_setPc (x := x) h hp) ?_
  intro t i ha hp'
  have hlog : asleep (x.log ++ es) = asleep x.log :=
    asleep_silents x.log fun e he => (hes e he).2
  refine ⟨by rw [← hlog]; exact ha, ?_⟩
  by_cases htc : t = c
  · subst htc
    have hp'' : p.waitsOn = some (.sem i) := by simpa [setPc, emit] using hp'
    rcases hw with hw | hw
    · simp [hw] at hp''
    · rw [← hw]; exact hp''
  · simpa [setPc, emit, htc] using hp'

private theorem SemOk.semCreate {i : Fin maxSems} {v : Int} (h : x.SemOk)
    (hi : x.objects.semId i < 0) :
    (({ x with objects :=
      { x.objects with
        semId := Function.update x.objects.semId i x.objects.semCount
        semValue := Function.update x.objects.semValue i (if v < 0 then 0 else v)
        semCount := x.objects.semCount + 1 } }.setWaiting (.sem i) []).emit
      (if x.objects.semCount < 0 then [] else [.semCreated x.objects.semCount v])).SemOk := by
  have hcount := h.count
  have hnonneg : ¬ x.objects.semCount < 0 := by omega
  rw [if_neg hnonneg]
  have hother : ∀ {j : Fin maxSems}, 0 ≤ x.objects.semId j → j ≠ i := by
    rintro j hj rfl
    omega
  have hfresh := h.fresh x.objects.semCount le_rfl
  constructor
  · simp only [setWaiting, emit]
    omega
  · exact (h.issued.issue i).lt
  · exact (h.issued.issue i).inj
  · intro t id j ht
    obtain ⟨h₀, hj⟩ := h.calls t id j ht
    refine ⟨h₀, ?_⟩
    simpa [setWaiting, emit, hother (j := j) (by omega)] using hj
  · intro t j ha hw
    have hlog : asleep (x.log ++ [.semCreated x.objects.semCount v]) = asleep x.log :=
      asleep_silent x.log rfl
    have hmem : t ∈ x.waiting (.sem j) := h.blocked t j (by rw [← hlog]; exact ha) hw
    -- No call is under way on the slot of the new semaphore.
    have hji : j ≠ i := by
      have hw' : (x.pc t).waitsOn = some (.sem j) := hw
      obtain ⟨id, hid⟩ : ∃ id, (x.pc t).semRef = some (id, j) := by
        cases hp : x.pc t <;> simp_all [Pc.waitsOn, Pc.semRef]
      obtain ⟨h₀, hj⟩ := h.calls t id j hid
      exact hother (by omega)
    simpa [setWaiting, emit, hji] using hmem
  · intro id hlt e he
    simp only [setWaiting, emit, List.mem_append, List.mem_singleton] at hlt he
    rcases he with he | rfl
    · exact h.fresh id (by omega) e he
    · simp only [Event.sem, ne_eq, Option.some.injEq]
      omega
  · intro id v' hmem
    simp only [setWaiting, emit, List.mem_append, List.mem_singleton] at hmem
    rcases hmem with hmem | hmem
    · obtain ⟨j, h₀, hj, hl⟩ := h.ledger id v' hmem
      have hji : j ≠ i := hother (by omega)
      refine ⟨j, h₀, by simpa [setWaiting, emit, hji] using hj, hl.frame ?_ ?_ rfl ?_⟩
      · simp [setWaiting, emit, hji]
      · simp [setWaiting, emit, hji]
      · have := h.idLt j
        simp only [List.mem_singleton, forall_eq, Event.sem, ne_eq, Option.some.injEq]
        omega
    · obtain ⟨rfl, rfl⟩ : id = x.objects.semCount ∧ v' = v := by simpa using hmem
      exact ⟨i, hcount, by simp [setWaiting, emit], .opened hfresh rfl
        (by simp [setWaiting, emit]) (by simp [setWaiting, emit])⟩

theorem SemOk.step (h : x.SemOk) (hs : x.Step x') : x'.SemOk := by
  cases hs with
  | idle => exact h
  | goOn t =>
      have hmove : ((x.setPc t (x.pc t).afterInt).emit []).SemOk := by
        apply h.move _ (.inr (by simp)) (by simp)
        intro id i hp
        apply h.calls t id i
        cases hpc : x.pc t <;> simp_all [Pc.afterInt, Pc.semRef]
      simpa [emit] using hmove
  | leave t p es hp ht hes =>
      apply h.move
      · intro id i hp'
        cases p <;> simp_all [Pc.isIdle, Pc.semRef]
      · left
        cases p <;> simp_all [Pc.isIdle, Pc.waitsOn]
      · intro e he
        obtain ⟨u, id, r, rfl⟩ := hes e he
        exact ⟨rfl, rfl⟩
  | enter c p hpc hp =>
      have hmove : ((x.setPc c p).emit []).SemOk := by
        apply h.move _ _ (by simp)
        · intro id i hp'
          cases hp with
          | semWait h₀ hi | semPost h₀ hi =>
              simp only [Pc.semRef, Option.some.injEq, Prod.mk.injEq] at hp'
              obtain ⟨rfl, rfl⟩ := hp'
              exact ⟨h₀, hi⟩
          | send | recv => simp [Pc.semRef] at hp'
        · left
          cases hp <;> rfl
      simpa [emit] using hmove
  | semCreate i v hi => exact h.semCreate hi
  | mqCreate j hj =>
      refine h.frame rfl rfl rfl (fun i => by simp [setWaiting, emit]) rfl ?_ h.calls ?_
      · intro e he
        split at he <;> simp_all [Event.sem]
      · intro t i ha hp
        refine ⟨?_, hp⟩
        simp only [setWaiting, emit] at ha
        rwa [asleep_silents] at ha
        intro e he
        split at he <;> simp_all [Event.isSilent]
  | acquire c id i hpc ha hv => exact h.acquire hpc hv
  | semBlock c id i hpc ha hv => exact h.semBlock hpc hv
  | postWake c id i hpc ha hq => exact h.postWake hpc hq
  | postAdd c id i hpc ha hq => exact h.postAdd hpc hq
  | sendBlock c id j data len hpc ha hfull => exact h.blockOther (.inr rfl) rfl rfl
  | deposit c id j data len hpc ha hroom =>
      exact h.wakeOther (.inl rfl) (by simp) rfl rfl rfl rfl rfl
  | recvBlock c id j hpc ha hempty => exact h.blockOther (.inl rfl) rfl rfl
  | remove c id j hpc ha hmsg => exact h.wakeOther (.inr rfl) (by simp) rfl rfl rfl rfl rfl

end Ipc

/-! ## Other semaphores -/

private theorem sems_setWait_ne (k : Kernel) {i j : Fin maxSems} (hij : i ≠ j)
    (h t : Option Slot) : (k.setWait (.sem j) h t).sems i = k.sems i :=
  Function.update_of_ne hij _ _

private theorem sems_blockOn_ne (k : Kernel) {i j : Fin maxSems} (hij : i ≠ j) (c : Slot) :
    (blockOn (.sem j) c k).sems i = k.sems i := by
  unfold blockOn waitEnqueue
  dsimp only
  split
  · exact sems_setWait_ne _ hij _ _
  · exact sems_setWait_ne _ hij _ _

private theorem sems_wakeFirst_ne (k : Kernel) {i j : Fin maxSems} (hij : i ≠ j) :
    (wakeFirst (.sem j) k).2.sems i = k.sems i := by
  unfold wakeFirst waitDequeue
  cases k.waitHead (.sem j) with
  | none => rfl
  | some t => exact sems_setWait_ne k hij _ _

namespace Sys

variable {s s' : Sys} {a : Act} {ls : QueueId → List Slot} {c : Slot}

/-- Switches go to ready tasks only, nothing is destroyed and no task exits. -/
def Orderly (s : Sys) (a : Act) : Prop :=
  s.TickSafe a ∧ a.destroys = false ∧ ∀ code, a ≠ .call (.exit code)

/-- The semaphore identifier of the operation that the step is part of. -/
def semOp (s : Sys) : Act → Option Int
  | .call (.semWait id) | .call (.semPost id) => some id
  | .cont _ => s.current.bind fun c => (s.pc c).semRef.map Prod.fst
  | _ => none

theorem Orderly.exitSafe (h : s.Orderly a) : s.ExitSafe a := by
  unfold ExitSafe
  split
  · next code => exact absurd rfl (h.2.2 code)
  · trivial

/-- The step leaves the semaphore in slot `i` as it is. -/
private def Keeps (s : Sys) (ls : QueueId → List Slot) (i : Fin maxSems) (s' : Sys) : Prop :=
  s'.kernel.sems i = s.kernel.sems i ∧
    ∃ ls', s'.Inv ls' ∧ ls' (.wait (.sem i)) = ls (.wait (.sem i))

private theorem keeps_semWait {id : Int} {i j : Fin maxSems} (h : s.Inv ls)
    (hc : s.view.Running c) (hij : i ≠ j) : s.Keeps ls i (s.semWaitStep c id j) := by
  unfold semWaitStep semWaitSection
  by_cases hv : (s.kernel.sems j).value > 0
  · simp only [hv, if_true]
    have hview := view_setSem s.kernel j (fun m => { m with value := m.value - 1 }) (fun _ => rfl)
      fun _ => rfl
    have hinv := ((h.setKernel hc hview .user).emit (e := .acquired c id) rfl).emit
      (e := .semWaitReturned c id 0) rfl
    exact ⟨Function.update_of_ne hij _ _, ls, by simpa [Sys.emit] using hinv, rfl⟩
  · simp only [hv, if_false]
    refine ⟨sems_blockOn_ne s.kernel hij c, _, h.blockOn hc (.sem j) _ rfl rfl id, ?_⟩
    simp [hij]

private theorem keeps_semPost {id : Int} {i j : Fin maxSems} (h : s.Inv ls)
    (hc : s.view.Running c) (hij : i ≠ j) (hs : s.semPostStep c id j = some s') :
    s.Keeps ls i s' := by
  unfold semPostStep semPostSection at hs
  obtain ⟨hinv, -, -⟩ := h.wakeFirst hc (.sem j) rfl (.post id) (e := .posted id) rfl
  have hsem := sems_wakeFirst_ne s.kernel hij
  cases hw : SRos.wakeFirst (.sem j) s.kernel with
  | mk woken k =>
      rw [hw] at hs hinv hsem
      cases woken with
      | some t =>
          simp only [Option.pure_def, Option.bind_eq_bind, Option.bind_some,
            Option.some.injEq] at hs
          subst hs
          refine ⟨hsem, _, hinv, ?_⟩
          unfold wakeLists
          cases ls (.wait (.sem j)) with
          | nil => rfl
          | cons u us => simp [hij]
      | none =>
          simp only [Option.pure_def, Option.bind_eq_bind, Option.bind_eq_some_iff,
            Option.some.injEq, Prod.exists, Prod.mk.injEq] at hs
          obtain ⟨woken, k', ⟨v, -, rfl, rfl⟩, rfl⟩ := hs
          have hk : k = s.kernel := by
            rcases view_wakeFirst s.kernel (.sem j) with ⟨-, hnone⟩ | ⟨t, -, hsome, -⟩
            · rw [hw] at hnone
              exact congrArg Prod.snd hnone
            · rw [hw] at hsome
              cases hsome
          subst hk
          have hview := view_setSem s.kernel j (fun m => { m with value := v }) (fun _ => rfl)
            fun _ => rfl
          exact ⟨Function.update_of_ne hij _ _, ls, (h.setKernel hc hview .user).emit rfl, rfl⟩

/-- An operation on one semaphore leaves the others alone. -/
private theorem keeps_other {id : Int} {i : Fin maxSems} (h : s.Inv ls) (hok : (s.ipc ls).SemOk)
    (ha : s.Orderly a) (hs : s.step a = some s') (hop : s.semOp a = some id)
    (hi : (s.kernel.sems i).id ≠ id) : s.Keeps ls i s' := by
  have hne : ∀ {c : Slot} {id' : Int} {j : Fin maxSems}, (s.pc c).semRef = some (id', j) →
      id' = id → i ≠ j := by
    rintro c id' j hpc rfl rfl
    exact hi (hok.calls c _ i hpc).2
  cases step_move hs with
  | @int c regs _ hc hpc ht =>
      obtain ⟨ls', n, hinv, hwait, -, -, -, hsems, -⟩ := h.int_ok hc hpc ha.1 ht
      exact ⟨congrFun hsems i, ls', hinv, hwait _⟩
  | semWait hc hpc =>
      have hid := by simpa [semOp, hc, hpc, Pc.semRef] using hop
      exact keeps_semWait h (h.running hc (by rw [hpc]; rfl)) (hne (by rw [hpc]; rfl) hid)
  | semWaitDone hc hpc =>
      exact ⟨rfl, ls, (h.setPc (h.running hc (by rw [hpc]; rfl)) .user).emit rfl, rfl⟩
  | semPost hc hpc hs =>
      have hid := by simpa [semOp, hc, hpc, Pc.semRef] using hop
      exact keeps_semPost h (h.running hc (by rw [hpc]; rfl)) (hne (by rw [hpc]; rfl) hid) hs
  | enter hc hpc hp => exact ⟨rfl, ls, h.setPc (h.running hc (by rw [hpc]; rfl)) _, rfl⟩
  | refuseWait hc hpc => exact ⟨rfl, ls, h.emit rfl, rfl⟩
  | refuse hc hpc hcall => exact ⟨rfl, ls, h, rfl⟩
  | waitAgain hc hpc => simp [semOp, hc, hpc, Pc.semRef] at hop
  | send hc hpc => rcases hpc with hpc | hpc <;> simp [semOp, hc, hpc, Pc.semRef] at hop
  | recv hc hpc => rcases hpc with hpc | hpc <;> simp [semOp, hc, hpc, Pc.semRef] at hop
  | _ => cases hop

/-- The semaphore in slot `i`, which was created as `id` with the value `v`, and its wait list
`xs`. -/
structure SemaphoreOk (s : Sys) (id v : Int) (i : Fin maxSems) (xs : List Slot) : Prop where
  slot : ∀ j, (s.kernel.sems j).id = id ↔ j = i
  list : Queue.Chain (fun t => (s.kernel.tasks t).next) (s.kernel.sems i).waitHead xs
  last : (s.kernel.sems i).waitTail = xs.getLast?
  value : 0 ≤ (s.kernel.sems i).value
  free : 0 < (s.kernel.sems i).value → xs = []
  units : (s.kernel.sems i).value + acquisitions s.log id + (handOffs s.log id).length =
    max v 0 + posts s.log id
  blocked : ∀ t, t ∈ xs ↔ 0 ≤ (s.kernel.tasks t).pid ∧ (s.kernel.tasks t).state = .blocked ∧
    (s.pc t).waitsOn = some (.sem i)
  order : arrivals s.log id = handOffs s.log id ++ xs
  others : ∀ a s' id', s.Orderly a → s.step a = some s' → s.semOp a = some id' → id' ≠ id →
    s'.kernel.sems i = s.kernel.sems i ∧
      Queue.Chain (fun t => (s'.kernel.tasks t).next) (s'.kernel.sems i).waitHead xs

private theorem boot_semOk {frames : Nat → Registers} {cr3 esp0 timerTicks : Nat} {s₀ : Sys}
    (h₀ : Sys.boot frames cr3 esp0 timerTicks = some s₀) : (s₀.ipc fun _ => []).SemOk := by
  obtain ⟨hpc, hlog⟩ := Inv.boot_pc_log h₀
  have hid : ∀ i, s₀.kernel.objects.semId i = -1 ∧ s₀.kernel.objects.semCount = 0 := by
    have hs : s₀ = _ := (Option.some.inj h₀).symm
    subst hs
    exact fun _ => ⟨rfl, rfl⟩
  constructor
  · exact (hid 0).2.ge
  · intro i
    simp only [ipc, (hid i).1, (hid i).2]
    omega
  · intro i j hi
    simp only [ipc, (hid i).1] at hi
    omega
  · intro t id i ht
    simp [ipc, hpc, Pc.semRef] at ht
  · intro t i ha
    simp [ipc, hlog] at ha
  · intro id _ e he
    simp [ipc, hlog] at he
  · intro id v hv
    simp [ipc, hlog] at hv

/-- In every run of orderly steps, every semaphore keeps its ledger. -/
theorem semaphore_invariant {frames : Nat → Registers} {cr3 esp0 timerTicks : Nat} {s₀ s : Sys}
    (h₀ : Sys.boot frames cr3 esp0 timerTicks = some s₀) (h : Reach Sys.step Sys.Orderly s₀ s)
    {id v : Int} (hc : .semCreated id v ∈ s.log) : ∃ i xs, s.SemaphoreOk id v i xs := by
  have hinv : ∃ ls, s.Inv ls ∧ (s.ipc ls).SemOk := by
    apply h.invariant ⟨_, Inv.boot_inv h₀, boot_semOk h₀⟩
    rintro s a s' ⟨ls, hinv, hok⟩ ha hs
    obtain ⟨ls', hinv', hstep⟩ := hinv.refines ha.1 ha.exitSafe ha.2.1 hs
    exact ⟨ls', hinv', hok.step hstep⟩
  obtain ⟨ls, hinv, hok⟩ := hinv
  obtain ⟨i, hnonneg, hi, hled⟩ := hok.ledger id v hc
  refine ⟨i, ls (.wait (.sem i)), ⟨?_, ?_, ?_, hled.value, hled.free, hled.units, ?_, hled.order, ?_⟩⟩
  · intro j
    constructor
    · intro hj
      have hj' : (s.ipc ls).objects.semId j = id := hj
      exact hok.idInj j i (by omega) (by omega)
    · rintro rfl
      exact hi
  · exact hinv.ok.linked.chain (.wait (.sem i))
  · exact hinv.ok.linked.last (.wait (.sem i))
  · intro t
    constructor
    · intro ht
      obtain ⟨ha, hw⟩ := hinv.ok.waiting (.sem i) t ht
      obtain ⟨hp, hb, -⟩ := (hinv.ok.sleeping t).mp ha
      exact ⟨hp, hb, hw⟩
    · rintro ⟨hp, hb, hw⟩
      have ha : asleep s.log t = true :=
        (hinv.ok.sleeping t).mpr ⟨hp, hb, by rw [waits, hw]; simp⟩
      exact hok.blocked t i ha hw
  · intro a s' id' ha hs hop hne
    have hi' : (s.kernel.sems i).id ≠ id' := by
      intro heq
      exact hne (heq.symm.trans hi)
    obtain ⟨hsem, ls', hinv', hlist⟩ := keeps_other hinv hok ha hs hop hi'
    refine ⟨hsem, ?_⟩
    rw [← hlist]
    exact hinv'.ok.linked.chain (.wait (.sem i))

/-- Task 0 creates a semaphore and blocks on it, its child posts. -/
theorem semaphore_invariant_post : ∃ s₀ s : Sys, Sys.boot (fun _ => {}) 0 0 0 = some s₀ ∧
    .semCreated 0 0 ∈ s.log ∧ handOffs s.log 0 = [0] ∧ ∃ i xs, s.SemaphoreOk 0 0 i xs := by
  have hrun : ((Sys.boot (fun _ => {}) 0 0 0).bind (runList Sys.step
      (fun s a => decide (s.TickSafe a) && !a.destroys && !a.exits)
      [.call (.semCreate none 0), .call (.fork 0 1 1), .call (.semWait 0), .cont 0, .cont 0,
        .call (.semPost 0), .cont 0])).any
      (fun s => decide (.semCreated 0 0 ∈ s.log ∧ handOffs s.log 0 = [0])) = true := by decide
  obtain ⟨s₀, s, h₀, h, hp⟩ := Reach.exists_of_runList hrun
  obtain ⟨hc, hoff⟩ := of_decide_eq_true hp
  refine ⟨s₀, s, h₀, hc, hoff, semaphore_invariant h₀ (h.mono fun s a hok => ?_) hc⟩
  simp only [Bool.and_eq_true, decide_eq_true_eq, Bool.not_eq_true'] at hok
  refine ⟨hok.1.1, hok.1.2, ?_⟩
  rintro code rfl
  simp [Act.exits] at hok

end Sys

end SRos
