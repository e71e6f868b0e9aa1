import SRos.Ipc.MessageQueue
import SRos.Ipc.Semaphore
import Mathlib.Data.Fintype.Basic

/-!
# Message queues lose no wake-up

A woken receiver can find its message taken by another one and block again. What holds in
every state is a count: while receivers wait, there are at least as many woken receivers on
their way to their loop test as there are messages; and while senders wait, at least as many
woken senders as there are free entries.
-/

namespace SRos

namespace Ipc

variable {x x' : Ipc} {c : Slot}

/-- `t` blocked on `q`, was woken, and has not tested its loop condition again. -/
def Pending (x : Ipc) (q : WaitQ) (t : Slot) : Prop :=
  asleep x.log t = false ∧ (x.pc t).waitsOn = some q

instance (x : Ipc) (q : WaitQ) (t : Slot) : Decidable (x.Pending q t) :=
  inferInstanceAs (Decidable (_ ∧ _))

def pending (x : Ipc) (q : WaitQ) : Nat := (Finset.univ.filter fun t => x.Pending q t).card

theorem pending_mono {q : WaitQ} (h : ∀ t, x.Pending q t → x'.Pending q t) :
    x.pending q ≤ x'.pending q := by
  apply Finset.card_le_card
  intro t ht
  simp only [Finset.mem_filter, Finset.mem_univ, true_and] at ht ⊢
  exact h t ht

/-- One task stops being pending. -/
theorem pending_leave {q : WaitQ} (h : ∀ t, t ≠ c → x.Pending q t → x'.Pending q t) :
    x.pending q ≤ x'.pending q + 1 := by
  have hsub : (Finset.univ.filter fun t => x.Pending q t) ⊆
      insert c (Finset.univ.filter fun t => x'.Pending q t) := by
    intro t ht
    simp only [Finset.mem_filter, Finset.mem_univ, true_and, Finset.mem_insert] at ht ⊢
    by_cases htc : t = c
    · exact Or.inl htc
    · exact Or.inr (h t htc ht)
  exact (Finset.card_le_card hsub).trans (Finset.card_insert_le _ _)

/-- One task becomes pending. -/
theorem pending_join {q : WaitQ} (hold : ¬ x.Pending q c) (hnew : x'.Pending q c)
    (h : ∀ t, x.Pending q t → x'.Pending q t) : x.pending q + 1 ≤ x'.pending q := by
  have hsub : insert c (Finset.univ.filter fun t => x.Pending q t) ⊆
      Finset.univ.filter fun t => x'.Pending q t := by
    intro t ht
    simp only [Finset.mem_filter, Finset.mem_univ, true_and, Finset.mem_insert] at ht ⊢
    rcases ht with rfl | ht
    · exact hnew
    · exact h t ht
  have hcard := Finset.card_le_card hsub
  rwa [Finset.card_insert_of_notMem (by simpa using hold)] at hcard

/-- The tasks on a wait list are asleep in the call that waits on it. -/
def Asleep (x : Ipc) : Prop :=
  ∀ q t, t ∈ x.waiting q → asleep x.log t = true ∧ (x.pc t).waitsOn = some q

structure WakeOk (x : Ipc) : Prop where
  full : ∀ j, (x.objects.ring j).count ≤ msgQueueSize
  recv : ∀ j, x.waiting (.recv j) ≠ [] → (x.objects.ring j).count ≤ x.pending (.recv j)
  send : ∀ j, x.waiting (.send j) ≠ [] →
    msgQueueSize - (x.objects.ring j).count ≤ x.pending (.send j)

/-- A step that touches no message queue. -/
private theorem WakeOk.frame (h : x.WakeOk) (hring : x'.objects.ring = x.objects.ring)
    (hrecv : ∀ j, x'.waiting (.recv j) = x.waiting (.recv j))
    (hsend : ∀ j, x'.waiting (.send j) = x.waiting (.send j))
    (hpend : ∀ j t, (x.Pending (.recv j) t → x'.Pending (.recv j) t) ∧
      (x.Pending (.send j) t → x'.Pending (.send j) t)) : x'.WakeOk where
  full := by rw [hring]; exact h.full
  recv := by
    intro j hne
    rw [hring]
    exact (h.recv j (hrecv j ▸ hne)).trans (pending_mono fun t => (hpend j t).1)
  send := by
    intro j hne
    rw [hring]
    exact (h.send j (hsend j ▸ hne)).trans (pending_mono fun t => (hpend j t).2)

private theorem pending_setPc {p : Pc} {es : List Event} {o : Objects} {w : WaitQ → List Slot}
    {q : WaitQ} (hes : ∀ e ∈ es, e.isSilent = true)
    (hp : (x.pc c).waitsOn = some q → p.waitsOn = some q) (t : Slot) (h : x.Pending q t) :
    Pending ⟨o, w, Function.update x.pc c p, x.log ++ es⟩ q t := by
  obtain ⟨ha, hw⟩ := h
  refine ⟨by rw [asleep_silents x.log hes]; exact ha, ?_⟩
  by_cases htc : t = c
  · subst htc; simpa using hp hw
  · simpa [htc] using hw

/-- A task moves between points that wait on no message queue. -/
private theorem WakeOk.move {p : Pc} {es : List Event} {o : Objects} {w : WaitQ → List Slot}
    (h : x.WakeOk) (hring : o.ring = x.objects.ring)
    (hw : ∀ j, w (.recv j) = x.waiting (.recv j) ∧ w (.send j) = x.waiting (.send j))
    (hes : ∀ e ∈ es, e.isSilent = true)
    (hp : ∀ q, (x.pc c).waitsOn = some q → p.waitsOn = some q ∨ ∃ i, q = .sem i) :
    WakeOk ⟨o, w, Function.update x.pc c p, x.log ++ es⟩ := by
  refine h.frame hring (fun j => (hw j).1) (fun j => (hw j).2) fun j t => ⟨?_, ?_⟩
  · apply pending_setPc hes
    intro hq
    rcases hp _ hq with hq | ⟨i, hi⟩
    · exact hq
    · cases hi
  · apply pending_setPc hes
    intro hq
    rcases hp _ hq with hq | ⟨i, hi⟩
    · exact hq
    · cases hi

/-- What the tasks other than `c` lose when `c` blocks. -/
private theorem pending_block {q r : WaitQ} {id : Int} {p : Pc} (t : Slot) (htc : t ≠ c)
    (h : x.Pending r t) : (x.block c q id p).Pending r t := by
  obtain ⟨ha, hw⟩ := h
  constructor
  · simpa [block, setWaiting, setPc, emit, htc] using ha
  · simpa [block, setWaiting, setPc, emit, htc] using hw

/-- What the tasks other than `c` lose, and the woken one gains, when `c` wakes a task. -/
private theorem pending_wakeFirst {q r : WaitQ} {w : Waker} {e : Event} (he : e.isSilent = true)
    (t : Slot) (htc : t ≠ c)
    (h : x.Pending r t ∨ (x.waiting q).head? = some t ∧ (x.pc t).waitsOn = some r) :
    (x.wakeFirst c q w e).Pending r t := by
  constructor
  · refine (asleep_wakeFirst x.log he (x.waiting q) w t).trans ?_
    rcases h with h | h
    · simp [h.1]
    · simp [h.1]
  · have hw : (x.pc t).waitsOn = some r := by
      rcases h with h | h
      · exact h.2
      · exact h.2
    simpa [Ipc.wakeFirst, setWaiting, setPc, emit, htc] using hw

private theorem WakeOk.sendBlock {id : Int} {j : Fin maxMsgQueues} {data : Nat → UInt8} {len : Nat}
    (h : x.WakeOk) (hpc : x.pc c = .send id j data len ∨ x.pc c = .sendAgain id j data len)
    (hfull : msgQueueSize ≤ (x.objects.ring j).count) :
    (x.block c (.send j) id (.sendInt id j data len)).WakeOk := by
  have hc : (x.pc c).waitsOn = none ∨ (x.pc c).waitsOn = some (.send j) := by
    rcases hpc with hpc | hpc <;> simp [hpc, Pc.waitsOn]
  have hkeep : ∀ q, q ≠ .send j → x.pending q ≤ (x.block c (.send j) id
      (.sendInt id j data len)).pending q := by
    intro q hq
    apply pending_mono
    intro t ht
    apply pending_block t _ ht
    rintro rfl
    rcases hc with hc | hc
    · simp [Pending, hc] at ht
    · exact hq (Option.some.inj (ht.2.symm.trans hc))
  constructor
  · exact h.full
  · intro k hne
    exact (h.recv k (by simpa [block, setWaiting, setPc, emit] using hne)).trans
      (hkeep (.recv k) (by simp))
  · intro k hne
    by_cases hkj : k = j
    · subst hkj
      change msgQueueSize - (x.objects.ring k).count ≤ _
      omega
    · exact (h.send k (by simpa [block, setWaiting, setPc, emit, hkj] using hne)).trans
        (hkeep (.send k) (by simpa using hkj))

private theorem WakeOk.recvBlock {id : Int} {j : Fin maxMsgQueues} (h : x.WakeOk)
    (hpc : x.pc c = .recv id j ∨ x.pc c = .recvAgain id j)
    (hempty : (x.objects.ring j).count = 0) :
    (x.block c (.recv j) id (.recvInt id j)).WakeOk := by
  have hc : (x.pc c).waitsOn = none ∨ (x.pc c).waitsOn = some (.recv j) := by
    rcases hpc with hpc | hpc <;> simp [hpc, Pc.waitsOn]
  have hkeep : ∀ q, q ≠ .recv j → x.pending q ≤ (x.block c (.recv j) id
      (.recvInt id j)).pending q := by
    intro q hq
    apply pending_mono
    intro t ht
    apply pending_block t _ ht
    rintro rfl
    rcases hc with hc | hc
    · simp [Pending, hc] at ht
    · exact hq (Option.some.inj (ht.2.symm.trans hc))
  constructor
  · exact h.full
  · intro k hne
    by_cases hkj : k = j
    · subst hkj
      change (x.objects.ring k).count ≤ _
      omega
    · exact (h.recv k (by simpa [block, setWaiting, setPc, emit, hkj] using hne)).trans
        (hkeep (.recv k) (by simpa using hkj))
  · intro k hne
    exact (h.send k (by simpa [block, setWaiting, setPc, emit] using hne)).trans
      (hkeep (.send k) (by simp))

/-- The pending tasks after the running task `c`, which is awake at a point that waits on `q` or
on nothing, has left its call and woken the first task of `r`. -/
private theorem pending_exchange {q r : WaitQ} {w : Waker} {e : Event} {o : Objects}
    (hsleep : x.Asleep) (ha : asleep x.log c = false) (he : e.isSilent = true) (hqr : q ≠ r)
    (hc : (x.pc c).waitsOn = none ∨ (x.pc c).waitsOn = some q) :
    (∀ p, p ≠ q → x.pending p ≤ ({ x with objects := o }.wakeFirst c r w e).pending p) ∧
      x.pending q ≤ ({ x with objects := o }.wakeFirst c r w e).pending q + 1 ∧
      (x.waiting r ≠ [] → x.pending r + 1 ≤ ({ x with objects := o }.wakeFirst c r w e).pending r) := by
  have hstay : ∀ p, p ≠ q → ∀ t, x.Pending p t →
      ({ x with objects := o }.wakeFirst c r w e).Pending p t := by
    intro p hp t ht
    have htc : t ≠ c := by
      rintro rfl
      rcases hc with hc | hc
      · simp [Pending, hc] at ht
      · exact hp (Option.some.inj (ht.2.symm.trans hc))
    exact pending_wakeFirst (x := { x with objects := o }) he t htc (.inl ht)
  refine ⟨fun p hp => pending_mono (hstay p hp), ?_, ?_⟩
  · apply pending_leave (c := c)
    intro t htc ht
    exact pending_wakeFirst (x := { x with objects := o }) he t htc (.inl ht)
  · intro hne
    obtain ⟨u, us, hu⟩ := List.exists_cons_of_ne_nil hne
    obtain ⟨hasleep, hwaits⟩ := hsleep r u (by simp [hu])
    have huc : u ≠ c := by
      rintro rfl
      simp [ha] at hasleep
    apply pending_join (c := u)
    · rintro ⟨hf, -⟩
      simp [hasleep] at hf
    · exact pending_wakeFirst (x := { x with objects := o }) he u huc
        (.inr ⟨by simp [hu], hwaits⟩)
    · exact hstay r (Ne.symm hqr)

private theorem WakeOk.deposit {id : Int} {j : Fin maxMsgQueues} {data : Nat → UInt8} {len : Nat}
    {bytes : List UInt8} (h : x.WakeOk) (hsleep : x.Asleep)
    (hpc : x.pc c = .send id j data len ∨ x.pc c = .sendAgain id j data len)
    (ha : asleep x.log c = false) (hroom : (x.objects.ring j).count < msgQueueSize) :
    ((x.setRing j ((x.objects.ring j).deposit data len)).wakeFirst c (.recv j) (.deposit id)
      (.deposited id bytes)).WakeOk := by
  have hc : (x.pc c).waitsOn = none ∨ (x.pc c).waitsOn = some (.send j) := by
    rcases hpc with hpc | hpc <;> simp [hpc, Pc.waitsOn]
  obtain ⟨hkeep, hleave, hjoin⟩ := pending_exchange (q := .send j) (r := .recv j)
    (w := .deposit id) (e := .deposited id bytes)
    (o := { x.objects with
      ring := Function.update x.objects.ring j ((x.objects.ring j).deposit data len) })
    hsleep ha rfl (by simp) hc
  have hcount : ((x.objects.ring j).deposit data len).count = (x.objects.ring j).count + 1 := rfl
  constructor
  · intro k
    by_cases hkj : k = j
    · subst hkj
      simpa [Ipc.wakeFirst, setRing, setWaiting, setPc, emit, hcount] using Nat.succ_le_of_lt hroom
    · simpa [Ipc.wakeFirst, setRing, setWaiting, setPc, emit, hkj] using h.full k
  · intro k hne
    by_cases hkj : k = j
    · subst hkj
      have hold : x.waiting (.recv k) ≠ [] := by
        intro hnil
        simp [Ipc.wakeFirst, setRing, setWaiting, setPc, emit, hnil] at hne
      have hrecv := h.recv k hold
      have hgain := hjoin hold
      simp only [Ipc.wakeFirst, setRing, setWaiting, setPc, emit, Function.update_self,
        hcount] at hgain ⊢
      omega
    · have hold : x.waiting (.recv k) ≠ [] := by
        simpa [Ipc.wakeFirst, setRing, setWaiting, setPc, emit, hkj] using hne
      have hle := (h.recv k hold).trans (hkeep (.recv k) (by simp))
      simpa [Ipc.wakeFirst, setRing, setWaiting, setPc, emit, hkj] using hle
  · intro k hne
    have hold : x.waiting (.send k) ≠ [] := by
      simpa [Ipc.wakeFirst, setRing, setWaiting, setPc, emit] using hne
    have hsend := h.send k hold
    by_cases hkj : k = j
    · subst hkj
      simp only [Ipc.wakeFirst, setRing, setWaiting, setPc, emit, Function.update_self,
        hcount] at hleave ⊢
      omega
    · have hle := hsend.trans (hkeep (.send k) (by simpa using hkj))
      simpa [Ipc.wakeFirst, setRing, setWaiting, setPc, emit, hkj] using hle

private theorem WakeOk.remove {id : Int} {j : Fin maxMsgQueues} {bytes : List UInt8}
    (h : x.WakeOk) (hsleep : x.Asleep)
    (hpc : x.pc c = .recv id j ∨ x.pc c = .recvAgain id j)
    (ha : asleep x.log c = false) (hmsg : (x.objects.ring j).count ≠ 0) :
    ((x.setRing j (x.objects.ring j).remove).wakeFirst c (.send j) (.removal id)
      (.received id bytes)).WakeOk := by
  have hc : (x.pc c).waitsOn = none ∨ (x.pc c).waitsOn = some (.recv j) := by
    rcases hpc with hpc | hpc <;> simp [hpc, Pc.waitsOn]
  obtain ⟨hkeep, hleave, hjoin⟩ := pending_exchange (q := .recv j) (r := .send j)
    (w := .removal id) (e := .received id bytes)
    (o := { x.objects with
      ring := Function.update x.objects.ring j (x.objects.ring j).remove })
    hsleep ha rfl (by simp) hc
  have hcount : (x.objects.ring j).remove.count = (x.objects.ring j).count - 1 := rfl
  have hfull := h.full j
  constructor
  · intro k
    by_cases hkj : k = j
    · subst hkj
      simp only [Ipc.wakeFirst, setRing, setWaiting, setPc, emit, Function.update_self, hcount]
      omega
    · simpa [Ipc.wakeFirst, setRing, setWaiting, setPc, emit, hkj] using h.full k
  · intro k hne
    have hold : x.waiting (.recv k) ≠ [] := by
      simpa [Ipc.wakeFirst, setRing, setWaiting, setPc, emit] using hne
    have hrecv := h.recv k hold
    by_cases hkj : k = j
    · subst hkj
      simp only [Ipc.wakeFirst, setRing, setWaiting, setPc, emit, Function.update_self,
        hcount] at hleave ⊢
      omega
    · have hle := hrecv.trans (hkeep (.recv k) (by simpa using hkj))
      simpa [Ipc.wakeFirst, setRing, setWaiting, setPc, emit, hkj] using hle
  · intro k hne
    by_cases hkj : k = j
    · subst hkj
      have hold : x.waiting (.send k) ≠ [] := by
        intro hnil
        simp [Ipc.wakeFirst, setRing, setWaiting, setPc, emit, hnil] at hne
      have hsend := h.send k hold
      have hgain := hjoin hold
      simp only [Ipc.wakeFirst, setRing, setWaiting, setPc, emit, Function.update_self,
        hcount] at hgain ⊢
      omega
    · have hold : x.waiting (.send k) ≠ [] := by
        simpa [Ipc.wakeFirst, setRing, setWaiting, setPc, emit, hkj] using hne
      have hle := (h.send k hold).trans (hkeep (.send k) (by simp))
      simpa [Ipc.wakeFirst, setRing, setWaiting, setPc, emit, hkj] using hle

private theorem WakeOk.semBlock {id : Int} {i : Fin maxSems} (h : x.WakeOk)
    (hpc : x.pc c = .semWait id i) : (x.block c (.sem i) id (.semWaitInt id i)).WakeOk := by
  have hkeep : ∀ q t, x.Pending q t → (x.block c (.sem i) id (.semWaitInt id i)).Pending q t := by
    intro q t ht
    apply pending_block t _ ht
    rintro rfl
    simp [Pending, hpc, Pc.waitsOn] at ht
  exact h.frame rfl (fun j => by simp [block, setWaiting, setPc, emit])
    (fun j => by simp [block, setWaiting, setPc, emit]) fun j t => ⟨hkeep _ t, hkeep _ t⟩

private theorem WakeOk.postWake {id : Int} {i : Fin maxSems} (h : x.WakeOk)
    (hpc : x.pc c = .semPost id i) :
    (x.wakeFirst c (.sem i) (.post id) (.posted id)).WakeOk := by
  have hkeep : ∀ q t, x.Pending q t →
      (x.wakeFirst c (.sem i) (.post id) (.posted id)).Pending q t := by
    intro q t ht
    apply pending_wakeFirst rfl t _ (.inl ht)
    rintro rfl
    simp [Pending, hpc, Pc.waitsOn] at ht
  exact h.frame rfl (fun j => by simp [Ipc.wakeFirst, setWaiting, setPc, emit])
    (fun j => by simp [Ipc.wakeFirst, setWaiting, setPc, emit]) fun j t => ⟨hkeep _ t, hkeep _ t⟩

private theorem WakeOk.mqCreate {j : Fin maxMsgQueues} (h : x.WakeOk) :
    ((({ x with objects :=
      { x.objects with
        ring := Function.update x.objects.ring j
          ⟨x.objects.mqCount, (x.objects.ring j).msgs, 0, 0, 0⟩
        mqCount := x.objects.mqCount + 1 } }.setWaiting (.recv j) []).setWaiting (.send j) []).emit
      (if x.objects.mqCount < 0 then [] else [.mqCreated x.objects.mqCount])).WakeOk := by
  have hkeep : ∀ q, x.pending q ≤ ((({ x with objects :=
      { x.objects with
        ring := Function.update x.objects.ring j
          ⟨x.objects.mqCount, (x.objects.ring j).msgs, 0, 0, 0⟩
        mqCount := x.objects.mqCount + 1 } }.setWaiting (.recv j) []).setWaiting (.send j) []).emit
      (if x.objects.mqCount < 0 then [] else [.mqCreated x.objects.mqCount])).pending q := by
    intro q
    apply pending_mono
    intro t ht
    refine ⟨?_, ht.2⟩
    simp only [setWaiting, emit]
    rw [asleep_silents]
    · exact ht.1
    · intro e he
      split at he <;> simp_all [Event.isSilent]
  constructor
  · intro k
    by_cases hkj : k = j
    · subst hkj; simp [setWaiting, emit]
    · simpa [setWaiting, emit, hkj] using h.full k
  · intro k hne
    have hkj : k ≠ j := by
      rintro rfl
      simp [setWaiting, emit] at hne
    have hle := (h.recv k (by simpa [setWaiting, emit, hkj] using hne)).trans (hkeep (.recv k))
    simpa [setWaiting, emit, hkj] using hle
  · intro k hne
    have hkj : k ≠ j := by
      rintro rfl
      simp [setWaiting, emit] at hne
    have hle := (h.send k (by simpa [setWaiting, emit, hkj] using hne)).trans (hkeep (.send k))
    simpa [setWaiting, emit, hkj] using hle

theorem WakeOk.step (h : x.WakeOk) (hsleep : x.Asleep) (hs : x.Step x') : x'.WakeOk := by
  cases hs with
  | idle => exact h
  | goOn t =>
      have hmove : ((x.setPc t (x.pc t).afterInt).emit []).WakeOk :=
        h.move rfl (fun _ => ⟨rfl, rfl⟩) (by simp) fun q hq => .inl (by simpa using hq)
      simpa [emit] using hmove
  | leave t p es hp ht hes =>
      apply h.move rfl (fun _ => ⟨rfl, rfl⟩)
      · intro e he
        obtain ⟨u, id, r, rfl⟩ := hes e he
        rfl
      · intro q hq
        rcases ht with ht | ⟨id, i, ht⟩
        · rw [ht] at hq
          cases hq
        · rw [ht] at hq
          exact Or.inr ⟨i, (Option.some.inj hq).symm⟩
  | enter c p hpc hp =>
      have hmove : ((x.setPc c p).emit []).WakeOk :=
        h.move rfl (fun _ => ⟨rfl, rfl⟩) (by simp) fun q hq => by simp [hpc, Pc.waitsOn] at hq
      simpa [emit] using hmove
  | semCreate i v hi =>
      refine h.frame rfl (fun j => by simp [setWaiting, emit]) (fun j => by simp [setWaiting, emit]) ?_
      have hlog : ∀ q t, x.Pending q t → asleep (x.log ++ if x.objects.semCount < 0 then []
          else [.semCreated x.objects.semCount v]) t = false := by
        intro q t ht
        rw [asleep_silents]
        · exact ht.1
        · intro e he
          split at he <;> simp_all [Event.isSilent]
      exact fun j t => ⟨fun ht => ⟨hlog _ t ht, ht.2⟩, fun ht => ⟨hlog _ t ht, ht.2⟩⟩
  | mqCreate j hj => exact h.mqCreate
  | acquire c id i hpc ha hv =>
      exact h.move rfl (fun _ => ⟨rfl, rfl⟩) (by simp [Event.isSilent])
        fun q hq => by simp [hpc, Pc.waitsOn] at hq
  | semBlock c id i hpc ha hv => exact h.semBlock hpc
  | postWake c id i hpc ha hq => exact h.postWake hpc
  | postAdd c id i hpc ha hq =>
      exact h.move rfl (fun _ => ⟨rfl, rfl⟩) (by simp [Event.isSilent])
        fun q hq => by simp [hpc, Pc.waitsOn] at hq
  | sendBlock c id j data len hpc ha hfull => exact h.sendBlock hpc hfull
  | deposit c id j data len hpc ha hroom => exact h.deposit hsleep hpc ha hroom
  | recvBlock c id j hpc ha hempty => exact h.recvBlock hpc hempty
  | remove c id j hpc ha hmsg => exact h.remove hsleep hpc ha hmsg

end Ipc

namespace Sys

/-- The tasks that were woken from the wait list `q` and have not tested their loop condition
again. -/
def wokenFrom (s : Sys) (q : WaitQ) : Finset Slot :=
  Finset.univ.filter fun t => asleep s.log t = false ∧ (s.pc t).waitsOn = some q

/-- In every run of orderly steps, waiting receivers are matched by woken ones as long as there
are messages, and waiting senders by woken ones as long as there is room. -/
theorem no_lost_wakeup {frames : Nat → Registers} {cr3 esp0 timerTicks : Nat} {s₀ s : Sys}
    (h₀ : Sys.boot frames cr3 esp0 timerTicks = some s₀) (h : Reach Sys.step Sys.Orderly s₀ s)
    (j : Fin maxMsgQueues) :
    ((s.kernel.mqs j).recvWaitHead ≠ none →
      (s.kernel.mqs j).count ≤ (s.wokenFrom (.recv j)).card) ∧
    ((s.kernel.mqs j).sendWaitHead ≠ none →
      64 - (s.kernel.mqs j).count ≤ (s.wokenFrom (.send j)).card) ∧
    ¬ ((s.kernel.mqs j).recvWaitHead ≠ none ∧ 0 < (s.kernel.mqs j).count ∧
      s.wokenFrom (.recv j) = ∅) ∧
    ¬ ((s.kernel.mqs j).sendWaitHead ≠ none ∧ (s.kernel.mqs j).count < 64 ∧
      s.wokenFrom (.send j) = ∅) := by
  have hinv : ∃ ls, s.Inv ls ∧ (s.ipc ls).WakeOk := by
    apply h.invariant (P := fun s => ∃ ls, s.Inv ls ∧ (s.ipc ls).WakeOk)
    · refine ⟨_, Inv.boot_inv h₀, fun j => ?_, by simp [ipc], by simp [ipc]⟩
      exact ((MqInv.boot h₀).ring j).count
    · rintro s a s' ⟨ls, hinv, hok⟩ ha hs
      obtain ⟨ls', hinv', hstep⟩ := hinv.refines ha.1 ha.exitSafe ha.2.1 hs
      exact ⟨ls', hinv', hok.step (fun q t ht => hinv.ok.waiting q t ht) hstep⟩
  obtain ⟨ls, hinv, hok⟩ := hinv
  have hrecv : (s.kernel.mqs j).recvWaitHead ≠ none →
      (s.kernel.mqs j).count ≤ (s.wokenFrom (.recv j)).card := by
    intro hne
    exact hok.recv j fun hnil => hne ((hinv.ok.head_none_iff (.wait (.recv j))).mpr hnil)
  have hsend : (s.kernel.mqs j).sendWaitHead ≠ none →
      64 - (s.kernel.mqs j).count ≤ (s.wokenFrom (.send j)).card := by
    intro hne
    exact hok.send j fun hnil => hne ((hinv.ok.head_none_iff (.wait (.send j))).mpr hnil)
  refine ⟨hrecv, hsend, ?_, ?_⟩
  · rintro ⟨hne, hpos, hnone⟩
    have := hrecv hne
    rw [hnone, Finset.card_empty] at this
    omega
  · rintro ⟨hne, hroom, hnone⟩
    have := hsend hne
    rw [hnone, Finset.card_empty] at this
    omega

/-- Two receivers block, then a message is deposited: one receiver waits, one is woken. -/
theorem no_lost_wakeup_two : ∃ s₀ s : Sys, Sys.boot (fun _ => {}) 0 0 0 = some s₀ ∧
    (s.kernel.mqs 0).recvWaitHead ≠ none ∧ (s.kernel.mqs 0).count = 1 ∧
    (s.kernel.mqs 0).count ≤ (s.wokenFrom (.recv 0)).card := by
  have hrun : ((Sys.boot (fun _ => {}) 0 0 0).bind (runList Sys.step
      (fun s a => decide (s.TickSafe a) && !a.destroys && !a.exits)
      [.call .mqCreate, .call (.fork 0 1 1), .call (.fork 0 1 1), .call (.mqRecv 0 true true),
        .cont 0, .cont 0, .call (.mqRecv 0 true true), .cont 0, .cont 0,
        .call (.mqSend 0 (some fun _ => 7) 1), .cont 0])).any
      (fun s => decide ((s.kernel.mqs 0).recvWaitHead ≠ none ∧ (s.kernel.mqs 0).count = 1)) =
        true := by decide
  obtain ⟨s₀, s, h₀, h, hp⟩ := Reach.exists_of_runList hrun
  obtain ⟨hne, hcount⟩ := of_decide_eq_true hp
  refine ⟨s₀, s, h₀, hne, hcount, (no_lost_wakeup h₀ (h.mono fun s a hok => ?_) 0).1 hne⟩
  simp only [Bool.and_eq_true, decide_eq_true_eq, Bool.not_eq_true'] at hok
  refine ⟨hok.1.1, hok.1.2, ?_⟩
  rintro code rfl
  simp [Act.exits] at hok

end Sys

end SRos
