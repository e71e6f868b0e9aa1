import SRos.Entry.Switching

/-!
# Saved processors

Every task that does not have the processor has left it in a frame on its own kernel stack, and
below the frame of a system call that it is in. The steps of the kernel and of the running code
keep that, and an interrupt saves the running task the same way.
-/

namespace SRos

open X86 Stubs Bytes

/-- The frame `f` on a kernel stack gives back the processor of the state `s`, and in the kernel
its stack. -/
structure Saved (dpl : UInt16 → Nat) (m : Nat → UInt8) (area : Nat → Prop) (f : Nat) (s : X86.State) :
    Prop where
  inside : ∀ a, f ≤ a → a < f + frameSize m f → area a
  cpu : resume dpl (frameAt m f) (kernelCpu f) = s.cpu
  stack : s.cpu.cpl = 0 → ∀ a, area a → s.cpu.esp.toNat ≤ a → m a = s.mem a

/-- The frame `f` of a system call gives back the processor of the state `s`, with a result. Below it
lies the argument of `syscall_handler`. -/
structure Pending (dpl : UInt16 → Nat) (m : Nat → UInt8) (area : Nat → Prop) (f : Nat)
    (s : X86.State) : Prop where
  inside : ∀ a, f ≤ a → a < f + frameSize m f → area a
  argument : 4 ≤ f ∧ ∀ a, f - 4 ≤ a → a < f → area a
  stack : s.cpu.cpl = 0 → f + 68 ≤ s.cpu.esp.toNat ∧
    ∀ a, area a → s.cpu.esp.toNat ≤ a → m a = s.mem a
  cpu : resume dpl (frameAt m f) (kernelCpu f) = { s.cpu with eax := word (load32 m (f + 44)) }
  intNo : (frameAt m f).intNo = 128

section Memory

variable {dpl : UInt16 → Nat} {m m' : Nat → UInt8} {area : Nat → Prop} {f : Nat} {s : X86.State}

theorem Saved.congr (h : Saved dpl m area f s) (hm : ∀ a, area a → m' a = m a) :
    Saved dpl m' area f s := by
  have hframe : ∀ a, f ≤ a → a < f + frameSize m f → m' a = m a :=
    fun a ha ha' => hm a (h.inside a ha ha')
  have hsize : frameSize m' f = frameSize m f := SameFrame.size fun a ha ha' _ => hframe a ha ha'
  refine ⟨?_, ?_, ?_⟩
  · rw [hsize]
    exact h.inside
  · rw [resume_sameWords hframe (cpl_kernelCpu f)]
    exact h.cpu
  · intro hcpl a ha hesp
    rw [hm a ha]
    exact h.stack hcpl a ha hesp

theorem Pending.congr (h : Pending dpl m area f s)
    (hm : ∀ a, area a → f ≤ a → a < f + 44 ∨ f + 48 ≤ a → m' a = m a) : Pending dpl m' area f s := by
  have hpos := frameSize_pos m f
  have hframe : SameFrame m m' f := fun a ha ha' heax => hm a (h.inside a ha ha') ha heax
  refine ⟨?_, h.argument, ?_, ?_, ?_⟩
  · rw [hframe.size]
    exact h.inside
  · intro hcpl
    obtain ⟨hesp, hstack⟩ := h.stack hcpl
    refine ⟨hesp, fun a ha hle => ?_⟩
    rw [hm a ha (by omega) (by omega)]
    exact hstack a ha hle
  · rw [resume_sameFrame hframe (cpl_kernelCpu f), h.cpu]
  · rw [← h.intNo]
    exact hframe.load (i := 48) (by omega) (by omega)

end Memory

/-- The bounds of a kernel stack. -/
def OwnStack (p : Task) : Prop :=
  p.kernelStackBase = 0 ∧ p.kernelStackTop = 0x20000 ∨
    0 < p.kernelStackBase ∧ p.kernelStackBase + 0x2000 ≤ 2 ^ 32 ∧
      p.kernelStackTop = p.kernelStackBase + 0x1000

namespace OwnStack

variable {L : Image} {p : Task}

theorem room (h : OwnStack p) :
    80 ≤ p.kernelStackTop ∧ p.kernelStackTop < 2 ^ 32 ∧
      ∀ a, p.kernelStackTop - 80 ≤ a → a < p.kernelStackTop → L.area p a := by
  rcases h with ⟨hbase, htop⟩ | ⟨hbase, hlow, htop⟩
  · rw [htop]
    simp only [Image.area, if_pos hbase]
    exact ⟨by omega, by omega, L.room⟩
  · have hown : p.kernelStackBase ≠ 0 := by omega
    rw [htop]
    simp only [Image.area, if_neg hown]
    refine ⟨by omega, by omega, ?_⟩
    intro a ha ha'
    exact ⟨by omega, ha'⟩

theorem low (h : OwnStack p) {a : Nat} (ha : L.area p a) : a + 0x1000 ≤ 2 ^ 32 := by
  unfold Image.area at ha
  rcases h with ⟨hbase, htop⟩ | ⟨hbase, hlow, htop⟩
  · rw [if_pos hbase] at ha
    exact L.low a ha
  · rw [if_neg (by omega)] at ha
    omega

end OwnStack

namespace Processor

variable {L : Image} {x x' : Processor} {c : Slot}

/-- The state in which a task has last been on the processor. -/
def last (x : Processor) (t : Slot) : X86.State := if x.sys.current = some t then x.st else x.lost t

/-- A task in a system call is in the kernel, below the frame of the call. -/
def Below (s : X86.State) (f : Nat) : Prop := s.cpu.cpl = 0 ∧ s.cpu.esp.toNat ≤ f

structure TaskSound (L : Image) (x : Processor) (t : Slot) : Prop where
  stack : OwnStack (x.task t)
  saved : x.sys.current ≠ some t →
    Saved L.dpl x.st.mem (L.area (x.task t)) (x.task t).kernelEsp (x.lost t)
  pending : ∀ f s, x.calls t = some (f, s) →
    Pending L.dpl x.st.mem (L.area (x.task t)) f s ∧ Below (x.last t) f

structure Sound (L : Image) (x : Processor) : Prop where
  inv : ∃ ls, x.sys.Inv ls
  esp0 : ∀ c, x.sys.current = some c → x.sched.esp0 = (x.task c).kernelStackTop
  apart : ∀ t u a, x.Live t → x.Live u → L.area (x.task t) a → L.area (x.task u) a → t = u
  segments : Segments L.dpl x.st.cpu
  task : ∀ t, x.Live t → x.TaskSound L t

/-- What a step of the kernel does to the rest. -/
theorem kernel_cases {a : Act} (hs : x.kernel L a = some x') :
    x.sys.ticks a = false ∧ ∃ sys, x.framed.step a = some sys ∧
      (x' = { x with sys } ∧
          (∀ kstackPhys t, Sys.newStack a = some kstackPhys → ¬ taskFindSlot x.sched = some t) ∨
        ∃ kstackPhys t mem, Sys.newStack a = some kstackPhys ∧ taskFindSlot x.sched = some t ∧
          mem = putFrame x.st.mem (initialFrame kstackPhys)
            (sys.kernel.frames (initialFrame kstackPhys)) ∧
          x' = ⟨sys, { x.st with mem }, Function.update x.lost t ⟨resume L.dpl
            (frameAt mem (initialFrame kstackPhys)) (kernelCpu (initialFrame kstackPhys)), mem⟩,
            Function.update x.calls t none⟩) := by
  unfold Processor.kernel at hs
  split at hs
  · cases hs
  · next hticks =>
      obtain ⟨sys, hstep, hs⟩ := Option.bind_eq_some_iff.mp hs
      refine ⟨by simpa using hticks, sys, hstep, ?_⟩
      split at hs
      · next kstackPhys t hnewStack hslot =>
          exact .inr ⟨kstackPhys, t, _, hnewStack, hslot, rfl, (Option.some.inj hs).symm⟩
      · next hno => exact .inl ⟨(Option.some.inj hs).symm, fun k t hk ht => hno k t hk ht⟩

theorem area_congr {p p' : Task} (h : p'.kernelStackBase = p.kernelStackBase) :
    L.area p' = L.area p := by
  funext a
  unfold Image.area
  rw [h]

theorem live_congr {t : Slot} (h : SameStack (x.task t) (x'.task t)) (ht : x'.Live t) : x.Live t := by
  unfold Live at ht ⊢
  rwa [← h.pid]

/-- A task that keeps its slot, its stack and its calls while another one, or itself, goes on. -/
theorem TaskSound.keep {t : Slot} (h : x.TaskSound L t) (hsame : SameStack (x.task t) (x'.task t))
    (hcur : x'.sys.current = x.sys.current) (hcpu : x.sys.current = some t → x'.st.cpu = x.st.cpu)
    (hmem : ∀ a, L.area (x.task t) a → x'.st.mem a = x.st.mem a) (hlost : x'.lost t = x.lost t)
    (hcalls : x'.calls t = x.calls t) : x'.TaskSound L t := by
  refine ⟨?_, ?_, ?_⟩
  · unfold OwnStack
    rw [hsame.kernelStackBase, hsame.kernelStackTop]
    exact h.stack
  · intro hc
    rw [hcur] at hc
    rw [area_congr hsame.kernelStackBase, hsame.kernelEsp, hlost]
    exact (h.saved hc).congr hmem
  · intro f s hcall
    rw [hcalls] at hcall
    obtain ⟨hpending, hbelow⟩ := h.pending f s hcall
    rw [area_congr hsame.kernelStackBase]
    refine ⟨hpending.congr fun a ha _ _ => hmem a ha, ?_⟩
    unfold last Below at hbelow ⊢
    rw [hcur, hlost]
    split
    · next hc =>
        rw [if_pos hc] at hbelow
        rw [hcpu hc]
        exact hbelow
    · next hc =>
        rw [if_neg hc] at hbelow
        exact hbelow

namespace Sound

theorem live (h : x.Sound L) (hc : x.sys.current = some c) : x.Live c := by
  obtain ⟨ls, hinv⟩ := h.inv
  obtain ⟨c', hc', hpid, -⟩ := hinv.ok.current
  obtain rfl : c' = c := Option.some.inj (hc'.symm.trans hc)
  exact hpid

/-! ## Steps without an interrupt -/

theorem run {st : X86.State} (h : x.Sound L) (hok : x.Runs L st) : Sound L { x with st } := by
  refine ⟨h.inv, h.esp0, h.apart, hok.segments, ?_⟩
  intro t ht
  have hothers : x.sys.current ≠ some t → ∀ a, L.area (x.task t) a → st.mem a = x.st.mem a :=
    fun hc a ha => hok.others a ⟨t, ht, hc, ha⟩
  refine ⟨(h.task t ht).stack, fun hc => ((h.task t ht).saved hc).congr (hothers hc), ?_⟩
  intro f s hcall
  obtain ⟨hpending, hbelow⟩ := (h.task t ht).pending f s hcall
  unfold last at hbelow ⊢
  by_cases hc : x.sys.current = some t
  · obtain ⟨hcpl, hesp, hkeep⟩ := hok.call t f s hc hcall
    rw [if_pos hc]
    exact ⟨hpending.congr hkeep, hcpl, hesp⟩
  · rw [if_neg hc] at hbelow ⊢
    exact ⟨hpending.congr fun a ha _ _ => hothers hc a ha, hbelow⟩

/-- The variables of the kernel change, and no stack of a task that was there. -/
theorem keep {sys : Sys} (h : x.Sound L) (hinv : ∃ ls, sys.Inv ls)
    (hkeep : KeepsStacks x.sched sys.kernel.toSched) : Sound L { x with sys } := by
  have hold : ∀ t, Live { x with sys } t → SameStack (x.task t) (sys.kernel.tasks t) := hkeep.task
  have hlive : ∀ t, Live { x with sys } t → x.Live t :=
    fun t ht => @live_congr x { x with sys } t (hold t ht) ht
  refine ⟨hinv, ?_, ?_, h.segments, ?_⟩
  · intro c hc
    have hc' : x.sys.current = some c := hkeep.current.symm.trans hc
    have hpid : 0 ≤ (sys.kernel.tasks c).pid := by
      obtain ⟨ls, hinv⟩ := hinv
      obtain ⟨c', hc', hpid, -⟩ := hinv.ok.current
      obtain rfl : c' = c := Option.some.inj (hc'.symm.trans hc)
      exact hpid
    exact hkeep.esp0.trans ((h.esp0 c hc').trans (hkeep.task c hpid).kernelStackTop.symm)
  · intro t u a ht hu hat hau
    change L.area (sys.kernel.tasks t) a at hat
    change L.area (sys.kernel.tasks u) a at hau
    rw [area_congr (hold t ht).kernelStackBase] at hat
    rw [area_congr (hold u hu).kernelStackBase] at hau
    exact h.apart t u a (hlive t ht) (hlive u hu) hat hau
  · intro t ht
    exact (h.task t (hlive t ht)).keep (hold t ht) hkeep.current (fun _ => rfl)
      (fun _ _ => rfl) rfl rfl

theorem putWords_outside (ws : List Nat) {m : Nat → UInt8} {f a : Nat}
    (h : a < f ∨ f + 4 * ws.length ≤ a) : putWords m f ws a = m a := by
  induction ws generalizing m f with
  | nil => rfl
  | cons w ws ih =>
      rw [List.length_cons] at h
      rw [putWords, ih (by omega)]
      exact store32_of_outside (by omega)

theorem putFrame_outside {r : Registers} {m : Nat → UInt8} {f a : Nat} (h : a < f ∨ f + 76 ≤ a) :
    putFrame m f r a = m a := by
  have hlen : (frameWords r).length = 19 := rfl
  apply putWords_outside
  rwa [hlen]

theorem initialFrame_eq {kstackPhys : Nat} (hlow : kstackPhys + 0x2000 ≤ 2 ^ 32) :
    initialFrame kstackPhys + 76 = kstackPhys + 0x1000 ∧ kstackTop kstackPhys = kstackPhys + 0x1000 := by
  unfold initialFrame kstackTop u32 sizeofRegisters
  omega

/-- The frame of a new task lies on no other stack. -/
theorem putFrame_fresh {kstackPhys : Nat} {t : Slot} {r : Registers} (hfresh : x.Fresh L kstackPhys)
    (ht : x.Live t) {a : Nat} (ha : L.area (x.task t) a) :
    putFrame x.st.mem (initialFrame kstackPhys) r a = x.st.mem a := by
  have hframe := (initialFrame_eq hfresh.low).1
  have hapart := hfresh.apart t ht a ha
  generalize initialFrame kstackPhys = f at hframe ⊢
  apply putFrame_outside
  omega

/-- Memory changes on no stack, and a free slot is prepared. -/
theorem prepare {m : Nat → UInt8} {t : Slot} {s : X86.State} (h : x.Sound L)
    (hm : ∀ u, x.Live u → ∀ a, L.area (x.task u) a → m a = x.st.mem a) (hfree : ¬ x.Live t) :
    Sound L { x with
      st := { x.st with mem := m }
      lost := Function.update x.lost t s
      calls := Function.update x.calls t none } := by
  refine ⟨h.inv, h.esp0, h.apart, h.segments, ?_⟩
  intro u hu
  change x.Live u at hu
  have hut : u ≠ t := by
    rintro rfl
    exact hfree hu
  exact (h.task u hu).keep (.refl _) rfl (fun _ => rfl) (hm u hu) (Function.update_of_ne hut ..)
    (Function.update_of_ne hut ..)

/-- The frame of a new task holds the processor that it is to start with. -/
theorem saved_fresh {kstackPhys : Nat} {m : Nat → UInt8} (hlow : kstackPhys + 0x2000 ≤ 2 ^ 32) :
    Saved L.dpl m (fun a => kstackPhys ≤ a ∧ a < kstackPhys + 0x1000) (initialFrame kstackPhys)
      ⟨resume L.dpl (frameAt m (initialFrame kstackPhys)) (kernelCpu (initialFrame kstackPhys)), m⟩ := by
  have hframe := (initialFrame_eq hlow).1
  generalize initialFrame kstackPhys = f at hframe ⊢
  refine ⟨fun a ha ha' => ?_, rfl, fun _ _ _ _ => rfl⟩
  have hsize := frameSize_le m f
  omega

section Made

variable {sys : Sys} {t : Slot} {kstackPhys : Nat} {r : Registers} {frames : Nat → Registers}

theorem area_made (hfresh : x.Fresh L kstackPhys)
    (hnew : NewTask { x.sched with frames := frames } sys.kernel.toSched t kstackPhys r) :
    L.area (sys.kernel.tasks t) = fun a => kstackPhys ≤ a ∧ a < kstackPhys + 0x1000 := by
  have hpos := hfresh.pos
  have hbase : (sys.kernel.tasks t).kernelStackBase = kstackPhys := hnew.kernelStackBase
  funext a
  unfold Image.area
  rw [hbase, if_neg (by omega)]

/-- The new task has a stack of its own and starts from the frame on it. -/
theorem taskSound_made (hfresh : x.Fresh L kstackPhys)
    (hnew : NewTask { x.sched with frames := frames } sys.kernel.toSched t kstackPhys r)
    (hsaved : Saved L.dpl x.st.mem (fun a => kstackPhys ≤ a ∧ a < kstackPhys + 0x1000)
      (initialFrame kstackPhys) (x.lost t))
    (hcalls : x.calls t = none) : TaskSound L { x with sys } t := by
  have hbase : (sys.kernel.tasks t).kernelStackBase = kstackPhys := hnew.kernelStackBase
  refine ⟨.inr ?_, fun _ => ?_, fun f s hcall => ?_⟩
  · change 0 < (sys.kernel.tasks t).kernelStackBase ∧
      (sys.kernel.tasks t).kernelStackBase + 0x2000 ≤ 2 ^ 32 ∧
        (sys.kernel.tasks t).kernelStackTop = (sys.kernel.tasks t).kernelStackBase + 0x1000
    rw [hbase]
    exact ⟨hfresh.pos, hfresh.low, hnew.kernelStackTop.trans (initialFrame_eq hfresh.low).2⟩
  · change Saved L.dpl x.st.mem (L.area (sys.kernel.tasks t)) (sys.kernel.tasks t).kernelEsp _
    rw [area_made hfresh hnew, hnew.kernelEsp]
    exact hsaved
  · rw [hcalls] at hcall
    cases hcall

/-- A task has been made in a slot that is prepared for it. -/
theorem made (h : x.Sound L) (hinv : ∃ ls, sys.Inv ls)
    (hnew : NewTask { x.sched with frames := frames } sys.kernel.toSched t kstackPhys r)
    (hfresh : x.Fresh L kstackPhys)
    (hsaved : Saved L.dpl x.st.mem (fun a => kstackPhys ≤ a ∧ a < kstackPhys + 0x1000)
      (initialFrame kstackPhys) (x.lost t))
    (hcalls : x.calls t = none) : Sound L { x with sys } := by
  have hfree : ¬ x.Live t := not_le.mpr (taskFindSlot_free_task hnew.slot)
  have hold : ∀ u, u ≠ t → SameStack (x.task u) (sys.kernel.tasks u) := hnew.others
  have hlive : ∀ u, u ≠ t → Live { x with sys } u → x.Live u :=
    fun u hu hl => @live_congr x { x with sys } u (hold u hu) hl
  have hapart : ∀ u a, u ≠ t → Live { x with sys } u → L.area (sys.kernel.tasks u) a →
      ¬ L.area (sys.kernel.tasks t) a := by
    intro u a hu hl ha hat
    rw [area_congr (hold u hu).kernelStackBase] at ha
    rw [area_made hfresh hnew] at hat
    have hout := hfresh.apart u (hlive u hu hl) a ha
    omega
  refine ⟨hinv, ?_, ?_, h.segments, ?_⟩
  · intro c hc
    have hc' : x.sys.current = some c := hnew.current.symm.trans hc
    have hct : c ≠ t := by
      rintro rfl
      exact hfree (h.live hc')
    exact hnew.esp0.trans ((h.esp0 c hc').trans (hold c hct).kernelStackTop.symm)
  · intro u v a hu hv hau hav
    change L.area (sys.kernel.tasks u) a at hau
    change L.area (sys.kernel.tasks v) a at hav
    by_cases hut : u = t
    · by_cases hvt : v = t
      · rw [hut, hvt]
      · rw [hut] at hau
        exact absurd hau (hapart v a hvt hv hav)
    · by_cases hvt : v = t
      · rw [hvt] at hav
        exact absurd hav (hapart u a hut hu hau)
      · rw [area_congr (hold u hut).kernelStackBase] at hau
        rw [area_congr (hold v hvt).kernelStackBase] at hav
        exact h.apart u v a (hlive u hut hu) (hlive v hvt hv) hau hav
  · intro u hu
    by_cases hut : u = t
    · rw [hut]
      exact taskSound_made hfresh hnew hsaved hcalls
    · exact (h.task u (hlive u hut hu)).keep (hold u hut) hnew.current (fun _ => rfl)
        (fun _ _ => rfl) rfl rfl

end Made

theorem inv_framed {ls : QueueId → List Slot} (h : x.sys.Inv ls) : x.framed.Inv ls :=
  ⟨h.ok, h.atInt⟩

theorem kernel {a : Act} (h : x.Sound L) (hexit : x.sys.ExitSafe a)
    (hfresh : ∀ kstackPhys, Sys.newStack a = some kstackPhys → x.Fresh L kstackPhys)
    (hs : x.kernel L a = some x') : Sound L x' := by
  obtain ⟨hticks, sys, hstep, hcases⟩ := kernel_cases hs
  have hinv : ∃ ls, sys.Inv ls := by
    obtain ⟨ls, hinv⟩ := h.inv
    refine (inv_framed hinv).step (fun htick => absurd htick (hticks ▸ Bool.false_ne_true)) ?_ hstep
    cases a with
    | call call =>
        cases call with
        | exit code => exact hexit
        | _ => trivial
    | _ => trivial
  rcases hcases with ⟨rfl, hno⟩ | ⟨kstackPhys, t, m, hnewStack, hslot, hm, rfl⟩
  · refine h.keep hinv ?_
    cases hnewStack : Sys.newStack a with
    | none =>
        have hkeep := Sys.step_keepsStacks hstep hticks hnewStack
        exact ⟨hkeep.task, hkeep.current, hkeep.esp0, hkeep.nextPid⟩
    | some kstackPhys =>
        rcases Sys.step_newTask hstep hnewStack with hsame | ⟨u, hnew⟩
        · rw [hsame]
          exact ⟨fun _ _ => .refl _, rfl, rfl, rfl⟩
        · exact absurd hnew.slot (hno kstackPhys u hnewStack)
  · have hfr := hfresh kstackPhys hnewStack
    have hkeepMem : ∀ u, x.Live u → ∀ a, L.area (x.task u) a → m a = x.st.mem a := by
      intro u hu a ha
      rw [hm]
      exact putFrame_fresh hfr hu ha
    have hprepared := h.prepare (s := ⟨resume L.dpl (frameAt m (initialFrame kstackPhys))
      (kernelCpu (initialFrame kstackPhys)), m⟩) hkeepMem (not_le.mpr (taskFindSlot_free_task hslot))
    rcases Sys.step_newTask hstep hnewStack with hsame | ⟨u, hnew⟩
    · refine hprepared.keep hinv ?_
      rw [hsame]
      exact ⟨fun _ _ => .refl _, rfl, rfl, rfl⟩
    · obtain rfl : t = u := Option.some.inj (hslot.symm.trans hnew.slot)
      refine hprepared.made hinv hnew ⟨hfr.pos, hfr.low, hfr.apart⟩ ?_ (Function.update_self ..)
      dsimp only
      rw [Function.update_self]
      exact saved_fresh hfr.low

end Sound

end Processor

end SRos
