import SRos.Drivers.Ring
import SRos.Paging.Pointers

/-!
# A fork after the devices have been mapped

`paging_clone_directory` copies every page that has the user bit in a directory entry that has it,
and reads the page at its physical address. The screen is mapped with the user bit. Its pages are
spared if the card has made their page table first, without the user bit.
-/

namespace SRos.Drivers

open Gui Paging Pointers

/-- The calls that give a program its pages and a task its kernel stack. -/
inductive UserCall
  | pagingAllocPage (virtAddr : Nat)
  | pfaAlloc

def userStep (s : Vm) : UserCall → Option Vm
  | .pagingAllocPage v => Paging.pagingAllocPage v s
  | .pfaAlloc => (Paging.pfaAlloc s).map Prod.snd

/-- The frame of page `k` of the screen. -/
def screenFrame (fb : Framebuffer) (k : Nat) : Nat := frameOf (u32 (fb.physAddr + k * 0x1000))

/-- The frames of the allocator, and those of the screen in the first 4 MB. -/
def KnownFrame (fb : Framebuffer) (f : Nat) : Prop :=
  f ∈ bootFrames ∨ ∃ k < pagesMapped fb, f = screenFrame fb k ∧ f < lowEnd

/-- What keeps a fork from the screen: the card has made the table of the page, the page is in the
first 4 MB, or a page of the program has replaced it. -/
structure ForkSafe (bar0 : Option Nat) (fb : Framebuffer) (calls : List UserCall) : Prop where
  size : pagesMapped fb ≤ 0xFC00
  user : ∀ v, .pagingAllocPage v ∈ calls → v < 0xFFC00000 ∧ ¬ KnownFrame fb (v / 4096 * 4096)
  screen : ∀ k < pagesMapped fb, (cardFound bar0 = true ∧ k < 1024) ∨ screenFrame fb k < lowEnd ∨
    ∃ v, .pagingAllocPage v ∈ calls ∧ v / 4096 = 0xF0000 + k

/-- The pages outside `E` that a clone would copy are in known frames, which are mapped to
themselves. -/
structure Ready (fb : Framebuffer) (E : Nat → Prop) (s : Vm) : Prop extends Regular s where
  root : s.cr3 = bootDir
  allocator : ∀ f ∈ s.free, f ∈ bootFrames
  known : ∀ f, KnownFrame fb f → Ident s f
  pages : ∀ w < 0xFFC00000, ¬ E (w / 4096) → ∀ f fl dfl, walk s w = some (f, fl, dfl) →
    user fl = true → (w < 0x800000 ∨ user dfl = true) → KnownFrame fb f

section Ready

variable {fb fb' : Framebuffer} {E E' : Nat → Prop} {s s' : Vm} {f : Nat}

theorem KnownFrame.low (h : KnownFrame fb f) : f % 4096 = 0 ∧ f < lowEnd := by
  rcases h with h | ⟨k, -, rfl, hlow⟩
  · exact isFrame_of_mem h
  · exact ⟨(frameOf_frame _).1, hlow⟩

/-- A step that leaves the known frames where they are, and maps no other page that is copied. -/
theorem Ready.step (h : Ready fb E s) (hregular : Regular s') (hcr3 : s'.cr3 = s.cr3)
    (hfree : ∀ f ∈ s'.free, f ∈ s.free)
    (hknown : ∀ f, KnownFrame fb f → ∀ o < 4096, walk s' (f + o) = walk s (f + o))
    (hpages : ∀ w < 0xFFC00000, ¬ E' (w / 4096) → (¬ E (w / 4096) ∧ walk s' w = walk s w) ∨
      ∀ f fl dfl, walk s' w = some (f, fl, dfl) → user fl = true →
        (w < 0x800000 ∨ user dfl = true) → KnownFrame fb f) : Ready fb E' s' := by
  refine ⟨hregular, hcr3.trans h.root, fun f hf => h.allocator f (hfree f hf), ?_, ?_⟩
  · intro f hf o ho
    rw [translate_walk, hknown f hf o ho, ← translate_walk]
    exact h.known f hf o ho
  · intro w hw hout f fl dfl hwalk
    rcases hpages w hw hout with ⟨hout', hsame⟩ | hnew
    · rw [hsame] at hwalk
      exact h.pages w hw hout' f fl dfl hwalk
    · exact hnew f fl dfl hwalk

/-- After boot there is one page table, and no user page. -/
theorem boot_walk {m : Nat → UInt8} (hboot : boot m = some s) :
    (∀ i, 1 ≤ i → i < 1023 → present (pdeAt s.mem s.cr3 i) = false) ∧
      ∀ w < 0xFFC00000, ∀ f fl dfl, walk s w = some (f, fl, dfl) → user fl = false := by
  obtain ⟨s', hboot', hcr3, hlaid, hrest, -⟩ := boot_laid m 0
  rw [hboot] at hboot'
  obtain rfl := Option.some.inj hboot'
  have habsent : ∀ i, 1 ≤ i → i < 1023 → present (pdeAt s.mem s.cr3 i) = false := by
    intro i hi₀ hi
    rw [hcr3, hrest i hi₀ hi]
    rfl
  refine ⟨habsent, fun w hw f fl dfl hwalk => ?_⟩
  rw [vaddr_eq w, walk_split hlaid.guarded.dir (by omega) (by omega)] at hwalk
  by_cases hfirst : w / 2 ^ 22 = 0
  · rw [hfirst] at hwalk
    split at hwalk
    · obtain ⟨-, hflags⟩ := Prod.mk.inj (Option.some.inj hwalk)
      obtain ⟨rfl, -⟩ := Prod.mk.inj hflags
      rw [user_flagsOf, hlaid.user_identity (by omega)]
    · cases hwalk
  · have hunmapped : mapped s.mem s.cr3 (w / 2 ^ 22) (w / 2 ^ 12 % 1024) = false := by
      rw [mapped, habsent _ (by omega) (by omega), Bool.false_and]
    rw [hunmapped, if_neg Bool.false_ne_true] at hwalk
    cases hwalk

theorem Ready.boot {m : Nat → UInt8} (hboot : boot m = some s) (fb : Framebuffer) :
    Ready fb (fun _ => False) s := by
  obtain ⟨s', hboot', hcr3, hlaid, -⟩ := boot_laid m 0
  rw [hboot] at hboot'
  obtain rfl := Option.some.inj hboot'
  refine ⟨hlaid.guarded.toRegular, hcr3,
    fun f hf => hlaid.stacked.boot f (by simp [hlaid.free_of_mem hf]), ?_, ?_⟩
  · intro f hf o ho
    have hlow := hf.low
    unfold lowEnd at hlow
    exact hlaid.core.low (by unfold lowEnd; omega)
  · intro w hw _ f fl dfl hwalk huser
    rw [(boot_walk hboot).2 w hw f fl dfl hwalk] at huser
    cases huser

/-- The pages of the card are no user pages. -/
theorem Ready.devicePages {pages : List (Nat × Nat)} (h : Ready fb (fun _ => False) s)
    (hpages : DevicePages s pages s') : Ready fb (fun _ => False) s' := by
  have hother : ∀ w < lowEnd, walk s' w = walk s w := by
    intro w hw
    unfold lowEnd at hw
    refine hpages.others w (by omega) fun p hp => ?_
    have hentry := hpages.entry p hp
    unfold deviceEntry at hentry
    omega
  refine h.step hpages.regular hpages.cr3 hpages.free ?_ ?_
  · intro f hf o ho
    have hlow := hf.low
    unfold lowEnd at hlow
    exact hother _ (by unfold lowEnd; omega)
  · intro w hw hout
    by_cases hpage : ∃ p ∈ pages, w / 4096 = p.1 / 4096
    · right
      obtain ⟨p, hp, hpage⟩ := hpage
      intro f fl dfl hwalk huser
      rw [hpages.maps p hp w hpage] at hwalk
      obtain ⟨-, hflags⟩ := Prod.mk.inj (Option.some.inj hwalk)
      obtain ⟨rfl, -⟩ := Prod.mk.inj hflags
      exact absurd huser (by decide)
    · left
      exact ⟨hout, hpages.others w hw fun p hp heq => hpage ⟨p, hp, heq⟩⟩

/-- A page of the screen that a clone would copy. -/
def Exposed (bar0 : Option Nat) (fb : Framebuffer) (p : Nat) : Prop :=
  ∃ k < pagesMapped fb, p = 0xF0000 + k ∧ ¬ (cardFound bar0 = true ∧ k < 1024) ∧
    ¬ screenFrame fb k < lowEnd

theorem Ready.screen {bar0 : Option Nat} (h : Ready fb (fun _ => False) s)
    (htable : cardFound bar0 = true → tableFlags 0x07 s deviceEntry = mapFlags 0x03)
    (hscreen : ScreenMapped s fb.physAddr (pagesMapped fb) s') : Ready fb (Exposed bar0 fb) s' := by
  refine h.step hscreen.regular hscreen.cr3 hscreen.free ?_ ?_
  · intro f hf o ho
    have hlow := hf.low
    unfold lowEnd at hlow
    exact hscreen.others _ (by omega) (.inl (by omega))
  · intro w hw hout
    by_cases hpage : 0xF0000 ≤ w / 4096 ∧ w / 4096 < 0xF0000 + pagesMapped fb
    · right
      intro f fl dfl hwalk huser htableUser
      obtain ⟨k, hk⟩ : ∃ k, w / 4096 = 0xF0000 + k := ⟨w / 4096 - 0xF0000, by omega⟩
      have hkn : k < pagesMapped fb := by omega
      rw [hscreen.maps k hkn w hk] at hwalk
      obtain ⟨hframe, hflags⟩ := Prod.mk.inj (Option.some.inj hwalk)
      obtain ⟨-, hdfl⟩ := Prod.mk.inj hflags
      by_cases hlow : screenFrame fb k < lowEnd
      · exact .inr ⟨k, hkn, hframe.symm, hframe ▸ hlow⟩
      · exfalso
        refine hout ⟨k, hkn, hk, ?_, hlow⟩
        rintro ⟨hcard, hk'⟩
        rw [show w / 2 ^ 22 = deviceEntry by unfold deviceEntry; omega, htable hcard] at hdfl
        rw [← hdfl] at htableUser
        rcases htableUser with hsmall | htableUser
        · omega
        · exact absurd htableUser (by decide)
    · left
      exact ⟨id, hscreen.others w hw (by omega)⟩

/-- A page of the program gets a frame of the allocator. -/
theorem Ready.userStep {c : UserCall} (h : Ready fb E s)
    (hok : ∀ v, c = .pagingAllocPage v → v < 0xFFC00000 ∧ ¬ KnownFrame fb (v / 4096 * 4096))
    (hs : userStep s c = some s') :
    Ready fb (fun p => E p ∧ ∀ v, c = .pagingAllocPage v → v / 4096 ≠ p) s' := by
  cases c with
  | pfaAlloc =>
      obtain ⟨⟨f, t⟩, halloc, rfl⟩ := Option.map_eq_some_iff.mp hs
      obtain ⟨fs, hfree, rfl⟩ := pfaAlloc_some halloc
      refine h.step (h.toRegular.pop hfree).1 rfl (fun g hg => by simp [hfree, show g ∈ _ from hg])
        (fun _ _ _ _ => rfl) fun w hw hout => .inl ⟨?_, rfl⟩
      exact fun hE => hout ⟨hE, nofun⟩
  | pagingAllocPage v =>
      obtain ⟨hv, hunknown⟩ := hok v rfl
      obtain ⟨⟨f, t⟩, halloc, hmap⟩ := Option.bind_eq_some_iff.mp hs
      have hdir : bootDir ∈ bootFrames := by decide
      have hcr3 := h.root
      have hdirFrame := isFrame_of_mem hdir
      unfold IsFrame lowEnd at hdirFrame
      have hpage : v / 4096 ≠ s.cr3 / 4096 := by
        intro heq
        refine hunknown (.inl ?_)
        rw [heq, hcr3, show bootDir / 4096 * 4096 = bootDir by omega]
        exact hdir
      have hfresh := h.toRegular.freshPage (by omega) hv hpage halloc hmap
      have hmem := h.allocator f hfresh.fresh.1
      refine h.step hfresh.regular hfresh.cr3 hfresh.subset ?_ ?_
      · intro g hg o ho
        have hlow := hg.low
        unfold lowEnd at hlow
        rw [hfresh.walk _ (by omega), if_neg]
        intro heq
        refine hunknown ?_
        rw [← heq, show (g + o) / 4096 * 4096 = g by omega]
        exact hg
      · intro w hw hout
        by_cases heq : w / 4096 = v / 4096
        · right
          intro g fl dfl hwalk _ _
          rw [hfresh.walk w hw, if_pos heq] at hwalk
          obtain ⟨rfl, -⟩ := Prod.mk.inj (Option.some.inj hwalk)
          exact .inl hmem
        · left
          refine ⟨fun hE => hout ⟨hE, ?_⟩, by rw [hfresh.walk w hw, if_neg heq]⟩
          intro v' hv' heq'
          cases hv'
          exact heq heq'.symm

theorem Ready.mono (h : Ready fb E s) (hE : ∀ p, E p → E' p) : Ready fb E' s :=
  ⟨h.toRegular, h.root, h.allocator, h.known, fun w hw hout => h.pages w hw fun hp => hout (hE _ hp)⟩

theorem Ready.run {calls : List UserCall} (h : Ready fb E s)
    (hok : ∀ v, .pagingAllocPage v ∈ calls → v < 0xFFC00000 ∧ ¬ KnownFrame fb (v / 4096 * 4096))
    (hs : calls.foldlM Drivers.userStep s = some s') :
    Ready fb (fun p => E p ∧ ∀ v, .pagingAllocPage v ∈ calls → v / 4096 ≠ p) s' := by
  induction calls generalizing E s with
  | nil =>
      obtain rfl := Option.some.inj hs
      exact h.mono fun p hp => ⟨hp, nofun⟩
  | cons c calls ih =>
      rw [List.foldlM_cons] at hs
      obtain ⟨t, ht, hs⟩ := Option.bind_eq_some_iff.mp hs
      have hstep := h.userStep (fun v hc => hok v (hc ▸ List.mem_cons_self)) ht
      refine (ih hstep (fun v hv => hok v (List.mem_cons_of_mem c hv)) hs).mono ?_
      rintro p ⟨⟨hp, hc⟩, hrest⟩
      refine ⟨hp, fun v hv => ?_⟩
      rcases List.mem_cons.mp hv with hv | hv
      · exact hc v hv.symm
      · exact hrest v hv

/-- Nothing is left that a clone would copy from elsewhere. -/
theorem Ready.forkable (h : Ready fb E s) (hE : ∀ p, ¬ E p) : Forkable s := by
  have hknown : ∀ f, KnownFrame fb f → ∀ o < 4096, MappedLow s (f + o) := by
    intro f hf o ho
    have hlow := hf.low
    unfold lowEnd at hlow
    exact ⟨by omega, h.known f hf o ho⟩
  refine ⟨⟨h.toRegular, fun f hf => hknown f (.inl (h.allocator f hf))⟩, ?_⟩
  intro i hi j hj hmapped hpage htable
  have hwalk := @walk_split s i j 0 h.dir hj (by omega)
  rw [if_pos hmapped] at hwalk
  refine hknown _ (h.pages _ (by omega) (hE _) _ _ _ hwalk (by rwa [user_flagsOf]) ?_)
  rw [user_flagsOf]
  exact htable.imp_left fun hsmall => by omega

end Ready

section Fork

variable {m : Nat → UInt8} {bar0 : Option Nat} {d d' : Rtl8139} {fb fb' : Framebuffer} {s₀ s₁ s : Vm}
  {r : Int} {calls : List UserCall}

/-- The devices have been mapped. -/
theorem Ready.initDevices (hboot : Paging.boot m = some s₀) (hsize : pagesMapped fb ≤ 0xFC00)
    (hdev : Drivers.initDevices bar0 d fb s₀ = some (r, d', fb', s₁)) :
    Ready fb (Exposed bar0 fb) s₁ := by
  have hready := Ready.boot hboot fb
  obtain ⟨habsent, -⟩ := boot_walk hboot
  have hlow : s₀.cr3 < lowEnd := by
    rw [hready.root]
    decide
  obtain ⟨t, hcard, hscreen⟩ := initDevices_cases hdev
  rcases rtl8139Init_cases hready.toRegular hlow hcard with
    ⟨-, -, -, f₂, f₃, hpages⟩ | ⟨-, hfound, rfl⟩ | ⟨-, hzero⟩
  · have hready' := hready.devicePages hpages
    refine hready'.screen (fun _ => ?_)
      (mapScreen hpages.regular (by rwa [hpages.cr3]) hsize hscreen)
    have htable := hpages.tables deviceEntry (by decide)
    have hpresent := hpages.table (.inr (by simp [rxPages]))
    rw [tableFlags, if_pos hpresent, tableFlags,
      if_neg (by simp [habsent deviceEntry (by decide) (by decide)])] at htable
    rw [tableFlags, if_pos hpresent, htable]
  · refine hready.screen (fun hcard => ?_) (mapScreen hready.toRegular hlow hsize hscreen)
    rw [hfound] at hcard
    cases hcard
  · exact absurd (hready.allocator 0 hzero) zero_not_mem_bootFrames

/-- For every machine, every screen and every run: a fork reads and writes memory only through
addresses in the first 4 MB that the current directory maps to themselves, unless a page of the
screen is exposed to it. -/
theorem fork_pointers_mapped (hboot : boot m = some s₀)
    (hdev : initDevices bar0 d fb s₀ = some (r, d', fb', s₁))
    (huser : calls.foldlM userStep s₁ = some s) (hsafe : ForkSafe bar0 fb calls) (bssEnd : Nat) :
    (Pointers.pagingCloneDirectory bssEnd s).run.Within (MappedLow s) := by
  have hready := (Ready.initDevices hboot hsafe.size hdev).run hsafe.user huser
  refine (hready.forkable ?_).pointers bssEnd
  rintro p ⟨⟨k, hk, rfl, htable, hframe⟩, hkept⟩
  rcases hsafe.screen k hk with hcard | hlow | ⟨v, hv, hpage⟩
  · exact htable hcard
  · exact hframe hlow
  · exact hkept v hv hpage

/-- The default screen on a machine with a card. -/
theorem fork_with_card : ∃ s₀ d fb' s₁, boot (fun _ => 0) = some s₀ ∧
    initDevices (some 0xC001) noBuffers (framebufferInit 0xFD000000 1024 768 4096 32) s₀ =
      some (0, d, fb', s₁) ∧
    (Pointers.pagingCloneDirectory 0x110DA0 s₁).run.Within (MappedLow s₁) := by
  obtain ⟨s₀, hboot, hregular, hlow, hzero, hroom, -⟩ := boot_devices fun _ => 0
  obtain ⟨d, fb', s₁, hdev⟩ := @exists_initDevices s₀ (framebufferInit 0xFD000000 1024 768 4096 32)
    hregular hlow hzero hroom (by decide) (by decide) rfl noBuffers
  have hpages : pagesMapped (framebufferInit 0xFD000000 1024 768 4096 32) = 768 := by decide
  have hsafe : ForkSafe (some 0xC001) (framebufferInit 0xFD000000 1024 768 4096 32) [] :=
    ⟨by omega, by simp, fun k hk => .inl ⟨by decide, by omega⟩⟩
  have huser : ([] : List UserCall).foldlM userStep s₁ = some s₁ := rfl
  exact ⟨s₀, d, fb', s₁, hboot, hdev, fork_pointers_mapped hboot hdev huser hsafe 0x110DA0⟩

/-- Without a card a fork reads the first page of the screen. -/
theorem screen_traced (hboot : Paging.boot m = some s₀) (hn : 0 < pagesMapped fb)
    (hsize : pagesMapped fb ≤ 1024) (hs : initDevices none d fb s₀ = some (r, d', fb', s₁))
    (bssEnd : Nat) : screenFrame fb 0 ∈ (Pointers.pagingCloneDirectory bssEnd s₁).run.trace := by
  have hready := Ready.boot hboot fb
  obtain ⟨habsent, hnouser⟩ := boot_walk hboot
  have hlow : s₀.cr3 < lowEnd := by
    rw [hready.root]
    decide
  have hready₁ := Ready.initDevices hboot (by omega) hs
  obtain ⟨t, hcard, hscreen⟩ := initDevices_cases hs
  obtain ⟨-, ht⟩ := Prod.mk.inj (Option.some.inj hcard)
  obtain ⟨-, rfl⟩ := Prod.mk.inj ht
  have hmapped := mapScreen hready.toRegular hlow (by omega) hscreen
  have hcount : s₀.free.length = 258 := by
    obtain ⟨s', hboot', -, -, -, hcount⟩ := boot_laid m 0
    rw [hboot] at hboot'
    rwa [Option.some.inj hboot']
  have hframes : LowFrames s₁ := by
    refine ⟨hready₁.toRegular, fun f hf o ho => ?_⟩
    have hknown : KnownFrame fb f := .inl (hready₁.allocator f hf)
    have hf₁ := hknown.low
    unfold lowEnd at hf₁
    exact ⟨by omega, hready₁.known f hknown o ho⟩
  -- the first page of the screen, in the entries of its tables
  have hpage : walk s₁ (960 * 2 ^ 22 + 0 * 2 ^ 12 + 0) = some (screenFrame fb 0, 7, 7) := by
    rw [hmapped.maps 0 hn _ (by decide), tableFlags, habsent _ (by decide) (by decide)]
    rfl
  rw [walk_split hready₁.dir (by decide) (by decide)] at hpage
  split at hpage
  · next hboth =>
      obtain ⟨hframe, hflags⟩ := Prod.mk.inj (Option.some.inj hpage)
      obtain ⟨hfl, hdfl⟩ := Prod.mk.inj hflags
      obtain ⟨hpde, hpte⟩ := Bool.and_eq_true_iff.mp hboth
      have huser : user (pteAt s₁.mem s₁.cr3 960 0) = true := by
        rw [← user_flagsOf, hfl]
        decide
      have htable : user (pdeAt s₁.mem s₁.cr3 960) = true := by
        rw [← user_flagsOf, hdfl]
        decide
      rw [← hframe]
      refine hframes.first_copy_traced (by decide) (by decide) ?_ ?_ ?_ (by omega) ?_
      · intro k hk
        by_cases hzero : k = 0
        · subst hzero
          refine Bool.and_eq_false_imp.mpr fun hfirst => ?_
          rw [if_pos (by decide), List.any_eq_false]
          intro j hj
          have hj := List.mem_range.mp hj
          have hwalk := @walk_split s₁ 0 j 0 hready₁.dir hj (by decide)
          rw [mapped, hfirst, Bool.true_and, hmapped.others _ (by omega) (.inl (by omega))] at hwalk
          cases hpresent : present (pteAt s₁.mem s₁.cr3 0 j) with
          | false => simp
          | true =>
              rw [if_pos hpresent] at hwalk
              have hkernel := hnouser _ (by omega) _ _ _ hwalk
              rw [user_flagsOf] at hkernel
              simp [hkernel]
        · have hbelow := hmapped.below k hk
          rw [deep, hbelow, habsent k (by omega) (by omega), Bool.false_and]
      · simp [deep, hpde, htable]
      · simp [copies, keepOf, hpte, huser, pageVaddr]
      · have hlen := (mapScreen_free hready.toRegular hlow hsize hscreen).length_le
        rw [List.length_tail, hcount] at hlen
        omega
  · cases hpage

/-- The default screen on a machine without a card. -/
theorem fork_without_card : ∃ s₀ fb' s₁, boot (fun _ => 0) = some s₀ ∧
    initDevices none noBuffers (framebufferInit 0xFD000000 1024 768 4096 32) s₀ =
      some (-1, noBuffers, fb', s₁) ∧
    ¬ (Pointers.pagingCloneDirectory 0x110DA0 s₁).run.Within (MappedLow s₁) := by
  obtain ⟨s₀, hboot, hregular, hlow, -, hroom, -⟩ := boot_devices fun _ => 0
  have hpages : pagesMapped (framebufferInit 0xFD000000 1024 768 4096 32) = 768 := by decide
  have hfree : s₀.free ≠ [] := by
    intro hnil
    simp [pageFrames, hnil] at hroom
  obtain ⟨s₁, hscreen⟩ := exists_mapScreen hregular hlow (show 768 ≤ 1024 by decide) (.inl hfree)
    0xFD000000
  have hdev : initDevices none noBuffers (framebufferInit 0xFD000000 1024 768 4096 32) s₀ =
      some (-1, noBuffers, { framebufferInit 0xFD000000 1024 768 4096 32 with addr := virtBase }, s₁) := by
    have hmap : (List.range (fbPages (framebufferInit 0xFD000000 1024 768 4096 32))).foldlM
        (mapFbPage 0xFD000000) s₀ = some s₁ := hscreen
    simp [initDevices, rtl8139Init, framebufferMap, framebufferInit] at hmap ⊢
    rw [hmap]
    rfl
  refine ⟨s₀, _, s₁, hboot, hdev, fun hwithin => ?_⟩
  have hlow := (hwithin _ (screen_traced hboot (by omega) (by omega) hdev 0x110DA0)).1
  exact absurd hlow (by decide)

end Fork

end SRos.Drivers
