import SRos.Drivers.Mappings
import SRos.Lib.Run

/-!
# The receive ring of the card

The card writes to `RBSTART` and behind it, and the driver reads through three pages that were
allocated one by one. The allocator is a stack that was filled in ascending order, so what was
taken from it in sequence descends.
-/

namespace SRos.Drivers

open Paging

/-- The calls before the ring is set up. -/
inductive InitCall
  | pfaAlloc
  | pfaFree (physAddr : Nat)
  | mapPage (virtAddr physAddr flags : Nat)
  | memset (dst : Nat) (c : UInt8) (n : Nat)

def initStep (s : Vm) : InitCall → Option Vm
  | .pfaAlloc => (Paging.pfaAlloc s).map Prod.snd
  | .pfaFree f => some (Paging.pfaFree f s)
  | .mapPage v p flags => pagingMapPage v p flags s
  | .memset dst c n => Drivers.memset dst c n s

/-- Only frames that have been taken are freed, pages are mapped between the first 4 MB and the
window, and no table is overwritten. -/
def initOk (s : Vm) : InitCall → Prop
  | .pfaAlloc => True
  | .pfaFree f => f ∈ bootFrames ∧ f ∉ s.free ∧ Unused s f
  | .mapPage v _ _ => lowEnd ≤ v ∧ v < 0xFFC00000
  | .memset dst _ n => (∀ i < n, dst + i < 2 ^ 32) ∧ OutsideTables s dst n

section Reach

variable {s₀ s s' : Vm} {m : Nat → UInt8} {c : InitCall}

theorem initStep_regular (h : Regular s ∧ s.cr3 < lowEnd) (hok : initOk s c)
    (hs : initStep s c = some s') : Regular s' ∧ s'.cr3 < lowEnd := by
  obtain ⟨hregular, hlow⟩ := h
  cases c with
  | pfaAlloc =>
      obtain ⟨⟨f, t⟩, halloc, rfl⟩ := Option.map_eq_some_iff.mp hs
      obtain ⟨fs, hfree, rfl⟩ := pfaAlloc_some halloc
      exact ⟨(hregular.pop hfree).1, hlow⟩
  | pfaFree f =>
      cases hs
      obtain ⟨hboot, hout, hunused⟩ := hok
      refine ⟨⟨⟨hregular.dir, hregular.self, hregular.distinct, hregular.ident⟩,
        List.nodup_cons.mpr ⟨hout, hregular.nodup⟩, fun g hg => ?_⟩, hlow⟩
      rcases List.mem_cons.mp hg with rfl | hg
      · exact ⟨(isFrame_of_mem hboot).self, hunused⟩
      · exact hregular.unused g hg
  | mapPage v p flags =>
      obtain ⟨hv, hv'⟩ := hok
      unfold lowEnd at hv hlow ⊢
      have hcr3 := (hregular.installed hv' hs).cr3
      exact ⟨hregular.step (by omega) hv' (by omega) hs, by omega⟩
  | memset dst c n =>
      obtain ⟨t, ht, hsame, hfree⟩ := memset_tables hregular hok.1 hok.2 c
      rw [initStep, ht] at hs
      cases hs
      exact ⟨hsame.regular hregular (by rw [hfree]), by rwa [hsame.cr3]⟩

theorem regular_of_reach (hboot : boot m = some s₀) (h : Reach initStep initOk s₀ s) :
    Regular s ∧ s.cr3 < lowEnd := by
  obtain ⟨s₁, hboot', hregular, hlow, -⟩ := boot_devices m
  rw [hboot] at hboot'
  cases hboot'
  exact h.invariant ⟨hregular, hlow⟩ fun _ _ _ => initStep_regular

/-- The loop of `init_tx_buffers` consists of such calls. -/
theorem DevicePages.reach_initTx {pages : List (Nat × Nat)} {d d' : Rtl8139} {k n : Nat}
    (h : DevicePages s₀ pages s) (hlow : s₀.cr3 < lowEnd) (hk : k + n ≤ 4)
    (hnew : Below pages (0xF0040 + k))
    (hs : initTxBuffersFrom (List.range' k n) d s = some (0, d', s')) :
    Reach initStep initOk s s' := by
  induction n generalizing pages d s k with
  | zero =>
      cases hs
      exact .refl
  | succ n ih =>
      rw [List.range'_succ] at hs
      obtain ⟨⟨phys, s₁⟩, halloc, hs⟩ := Option.bind_eq_some_iff.mp hs
      dsimp only at hs
      split at hs
      · cases hs
      · obtain ⟨s₂, hmap, hs⟩ := Option.bind_eq_some_iff.mp hs
        obtain ⟨s₃, hset, hs⟩ := Option.bind_eq_some_iff.mp hs
        obtain ⟨hmapped, -, hblock⟩ := h.txMapped hlow (by omega) hnew halloc hmap
        obtain ⟨s₄, hset', hpages, hbelow⟩ := h.txBuffer hlow (by omega) hnew halloc hmap
        rw [hset] at hset'
        cases hset'
        have halloc' : initStep s .pfaAlloc = some s₁ := by rw [initStep, halloc, Option.map_some]
        have hstart : Reach initStep initOk s s₁ :=
          Reach.step (a := InitCall.pfaAlloc) .refl trivial halloc'
        have hmapOk : initOk s₁ (.mapPage (0xF0040000 + k * 0x1000) phys 0x03) := by
          refine ⟨?_, by omega⟩
          unfold lowEnd
          omega
        have hcleared := Reach.step (a := InitCall.memset (0xF0040000 + k * 0x1000) 0 rtl8139TxBufSize)
          (hstart.step hmapOk hmap) (hmapped.outside hblock) hset
        exact hcleared.trans (ih hpages (by omega) hbelow hs)

end Reach

/-- The ring that the card writes is the ring that the driver reads, and its frames have been
allocated for it. -/
structure RingShared (s : Vm) (d : Rtl8139) (s' : Vm) : Prop where
  backed : ∀ i < rxBufTotal, s'.translate (d.rxBuf + i) = some (d.rbStart + i)
  owned : ∀ i < rxBufTotal,
    (d.rbStart + i) / 4096 * 4096 ∈ s.free ∧ (d.rbStart + i) / 4096 * 4096 ∉ s'.free

section Ring

variable {s s' : Vm} {d d' : Rtl8139} {f f₂ f₃ : Nat}

theorem ring_shared_iff (h : DevicePages s (rxPages f f₂ f₃) s') (hbuf : d.rxBuf = 0xF0050000)
    (hstart : d.rbStart = f) : RingShared s d s' ↔ f₂ = f + 0x1000 ∧ f₃ = f + 0x2000 := by
  have htranslate : ∀ p ∈ rxPages f f₂ f₃, ∀ o < 4096, s'.translate (p.1 + o) = some (p.2 + o) := by
    intro p hp o ho
    have hpage : p.1 % 4096 = 0 := by
      simp only [rxPages, List.mem_cons, List.not_mem_nil, or_false] at hp
      rcases hp with rfl | rfl | rfl
      · exact (by decide : 0xF0050000 % 4096 = 0)
      · exact (by decide : 0xF0051000 % 4096 = 0)
      · exact (by decide : 0xF0052000 % 4096 = 0)
    rw [h.translate hp (by omega), show (p.1 + o) % 4096 = o by omega]
  have hfirst := htranslate (0xF0050000, f) (by simp [rxPages])
  have hsecond := htranslate (0xF0051000, f₂) (by simp [rxPages])
  have hthird := htranslate (0xF0052000, f₃) (by simp [rxPages])
  constructor
  · intro hring
    have hpage₂ := hring.backed 0x1000 (by decide)
    have hpage₃ := hring.backed 0x2000 (by decide)
    rw [hbuf, hstart] at hpage₂ hpage₃
    exact ⟨Option.some.inj ((hsecond 0 (by decide)).symm.trans hpage₂),
      Option.some.inj ((hthird 0 (by decide)).symm.trans hpage₃)⟩
  · rintro ⟨rfl, rfl⟩
    have hframe := (frameOf_frame f).1
    rw [(h.fresh (0xF0050000, f) (by simp [rxPages])).1] at hframe
    have hpage : ∀ i < rxBufTotal, ∃ p ∈ rxPages f (f + 0x1000) (f + 0x2000),
        p.1 = 0xF0050000 + i / 4096 * 4096 ∧ p.2 = f + i / 4096 * 4096 := by
      intro i hi
      unfold rxBufTotal at hi
      simp only [rxPages, List.mem_cons, List.not_mem_nil, or_false]
      rcases (by omega : i / 4096 = 0 ∨ i / 4096 = 1 ∨ i / 4096 = 2) with hj | hj | hj
      · exact ⟨_, .inl rfl, by rw [hj], by rw [hj]; rfl⟩
      · exact ⟨_, .inr (.inl rfl), by rw [hj], by rw [hj]⟩
      · exact ⟨_, .inr (.inr rfl), by rw [hj], by rw [hj]⟩
    refine ⟨fun i hi => ?_, fun i hi => ?_⟩
    · obtain ⟨p, hp, hvirt, hphys⟩ := hpage i hi
      have hbyte := htranslate p hp (i % 4096) (Nat.mod_lt i (by decide))
      rw [hvirt, hphys] at hbyte
      rw [hbuf, hstart, show 0xF0050000 + i = 0xF0050000 + i / 4096 * 4096 + i % 4096 by omega,
        hbyte]
      congr 1
      omega
    · obtain ⟨p, hp, -, hphys⟩ := hpage i hi
      have hfresh := (h.fresh p hp).2
      rw [hphys] at hfresh
      rw [hstart, show (f + i) / 4096 * 4096 = f + i / 4096 * 4096 by omega]
      exact ⟨hfresh.1, hfresh.2.1⟩

/-- For every state that the initialisation can be in: when `init_rx_buffer` has come to its end,
the ring of the card is the ring of the driver if and only if the next frames of the allocator
ascend without a gap. -/
theorem ring_contiguous_iff {m : Nat → UInt8} {s₀ : Vm} (hboot : boot m = some s₀)
    (hreach : Reach initStep initOk s₀ s) (hs : initRxBuffer d s = some (0, d', s')) :
    RingShared s d' s' ↔
      (pageFrames s deviceEntry).getD 1 0 = (pageFrames s deviceEntry).getD 0 0 + 0x1000 ∧
        (pageFrames s deviceEntry).getD 2 0 = (pageFrames s deviceEntry).getD 0 0 + 0x2000 := by
  obtain ⟨hregular, hlow⟩ := regular_of_reach hboot hreach
  rcases (DevicePages.refl hregular).initRx hlow (by simp [Below]) hs with
    ⟨-, hbuf, hstart, -, f₂, f₃, hpages⟩ | ⟨hr, -⟩
  · rw [List.nil_append] at hpages
    rw [ring_shared_iff hpages hbuf hstart, hpages.frames]
    rfl
  · cases hr

end Ring

/-! ## The ring after boot -/

theorem bootStack_top : ((lateFrames.reverse ++ [0x112000, 0x111000]).eraseIdx 1).take 7 =
    [0x3FF000, 0x3FD000, 0x3FC000, 0x3FB000, 0x3FA000, 0x3F9000, 0x3F8000] := by
  decide +kernel

/-- The first frames for the device pages. The one for their table is left out. -/
theorem boot_pageFrames {m : Nat → UInt8} {s : Vm} (hboot : boot m = some s) :
    (pageFrames s deviceEntry).take 7 =
      [0x3FF000, 0x3FD000, 0x3FC000, 0x3FB000, 0x3FA000, 0x3F9000, 0x3F8000] := by
  obtain ⟨m', hm', hs⟩ := boot_eq m
  rw [hboot] at hs
  obtain rfl := Option.some.inj hs
  have habsent : present (pdeAt m' bootDir deviceEntry) = false := by
    rw [hm'.rest deviceEntry (by decide) (by decide)]
    rfl
  rw [pageFrames, if_neg (by simp [habsent])]
  exact bootStack_top

/-- On every machine, what the card writes behind the first page of the ring goes to two of the
transmit buffers. -/
theorem ring_in_tx_buffers {m : Nat → UInt8} {s s' : Vm} {bar0 : Option Nat} {d d' : Rtl8139}
    (hboot : boot m = some s) (hs : rtl8139Init bar0 d s = some (0, d', s')) :
    d'.rbStart + 0x1000 = d'.txPhys 3 ∧ d'.rbStart + 0x2000 = d'.txPhys 2 := by
  obtain ⟨hregular, hlow⟩ := regular_of_reach hboot .refl
  rcases rtl8139Init_cases hregular hlow hs with ⟨-, -, hstart, f₂, f₃, hpages⟩ | ⟨hr, -⟩ | ⟨hr, -⟩
  · have hframes := boot_pageFrames hboot
    rw [hpages.frames] at hframes
    change [d'.txPhys 0, d'.txPhys 1, d'.txPhys 2, d'.txPhys 3, d'.rxPhys, f₂, f₃] = _ at hframes
    simp only [List.cons.injEq] at hframes
    obtain ⟨-, -, htx₂, htx₃, hrx, -⟩ := hframes
    rw [hstart, hrx, htx₂, htx₃]
    exact ⟨rfl, rfl⟩
  · cases hr
  · cases hr

/-- The descriptor of a driver that has not run. -/
def noBuffers : Rtl8139 := ⟨0, fun _ => 0, fun _ => 0, 0, 0, 0, fun _ => 0, 0⟩

/-- Behind the transmit buffers the frames descend. -/
theorem boot_ring_not_shared : ∃ s₀ d s d' s', boot (fun _ => 0) = some s₀ ∧
    initTxBuffers noBuffers s₀ = some (0, d, s) ∧ Reach initStep initOk s₀ s ∧
    initRxBuffer d s = some (0, d', s') ∧ ¬ RingShared s d' s' := by
  obtain ⟨s₀, hboot, hregular, hlow, hzero, hroom, -⟩ := boot_devices fun _ => 0
  have hrefl := DevicePages.refl hregular
  obtain ⟨d, s, htx⟩ := hrefl.exists_initTx (k := 0) (n := 4) hlow hzero (by decide)
    (by simp [Below]) (by simp; omega) noBuffers
  have hreach := hrefl.reach_initTx hlow (by decide) (by simp [Below]) htx
  obtain ⟨-, hpages, hbelow, -⟩ := (hrefl.initTx hlow (by decide) (by simp [Below]) htx).resolve_right
    fun hbad => hzero hbad.2
  have hbelow' : Below ([] ++ txPages d 0 4) 0xF0050 :=
    fun p hp => Nat.lt_trans (hbelow p hp) (by decide)
  obtain ⟨d', s', hrx⟩ := hpages.exists_initRx hlow hzero hbelow' (by simp [txPages]; omega) d
  rw [← List.range_eq_range'] at htx
  refine ⟨s₀, d, s, d', s', hboot, htx, hreach, hrx, fun hring => ?_⟩
  obtain ⟨hregular', hlow'⟩ := regular_of_reach hboot hreach
  rcases (DevicePages.refl hregular').initRx hlow' (by simp [Below]) hrx with
    ⟨-, hbuf, hstart, -, f₂, f₃, hring'⟩ | ⟨hr, -⟩
  · have hframes := boot_pageFrames hboot
    rw [hpages.frames, hring'.frames] at hframes
    change [d.txPhys 0, d.txPhys 1, d.txPhys 2, d.txPhys 3, d'.rxPhys, f₂, f₃] = _ at hframes
    simp only [List.cons.injEq] at hframes
    obtain ⟨-, -, -, -, hrx₁, hrx₂, -⟩ := hframes
    have hsecond := ((ring_shared_iff hring' hbuf hstart).mp hring).1
    rw [hrx₁, hrx₂] at hsecond
    exact absurd hsecond (by decide)
  · cases hr

/-- Four frames that have been taken are freed again, so that the ring ascends. -/
theorem sorted_ring_shared : ∃ s₀ s d' s', boot (fun _ => 0) = some s₀ ∧
    Reach initStep initOk s₀ s ∧ initRxBuffer noBuffers s = some (0, d', s') ∧
    RingShared s d' s' := by
  obtain ⟨m', hm', hboot⟩ := boot_eq fun _ => 0
  have htop : (lateFrames.reverse ++ [0x112000, 0x111000]).take 4 =
      [0x3FF000, 0x3FE000, 0x3FD000, 0x3FC000] := by decide +kernel
  obtain ⟨rest, hrest⟩ : ∃ rest, lateFrames.reverse ++ [0x112000, 0x111000] =
      0x3FF000 :: 0x3FE000 :: 0x3FD000 :: 0x3FC000 :: rest := by
    refine ⟨(lateFrames.reverse ++ [0x112000, 0x111000]).drop 4, ?_⟩
    have hsplit := List.take_append_drop 4 (lateFrames.reverse ++ [0x112000, 0x111000])
    rw [htop] at hsplit
    exact hsplit.symm
  rw [hrest] at hboot
  let s (fs : List Nat) : Vm := { mem := m', cr3 := bootDir, free := fs }
  let s₀ := s (0x3FF000 :: 0x3FE000 :: 0x3FD000 :: 0x3FC000 :: rest)
  obtain ⟨s₁, hboot', hregular, hlow, hzero, hroom, -⟩ := boot_devices fun _ => 0
  obtain rfl : s₀ = s₁ := Option.some.inj (hboot.symm.trans hboot')
  have hnodup : (0x3FF000 :: 0x3FE000 :: 0x3FD000 :: 0x3FC000 :: rest).Nodup := hregular.nodup
  have htake : ∀ f fs, Reach initStep initOk s₀ (s (f :: fs)) → Reach initStep initOk s₀ (s fs) :=
    fun f fs h => .step (a := .pfaAlloc) h trivial rfl
  have hgive : ∀ f fs, f ∈ bootFrames → f ∈ s₀.free → f ∉ fs → Reach initStep initOk s₀ (s fs) →
      Reach initStep initOk s₀ (s (f :: fs)) :=
    fun f fs hf hmem hout h =>
      .step (a := .pfaFree f) h ⟨hf, hout, (hregular.unused f hmem).2⟩ rfl
  have hlate : ∀ k < 256, 0x300000 + 0x1000 * k ∈ bootFrames := fun k hk =>
    List.mem_append_right _ (List.mem_map.mpr ⟨k, List.mem_range.mpr hk, rfl⟩)
  simp only [List.nodup_cons, List.mem_cons, not_or] at hnodup
  obtain ⟨⟨-, -, -, h₁⟩, ⟨-, -, h₂⟩, ⟨-, h₃⟩, h₄, -⟩ := hnodup
  have htaken := htake _ _ (htake _ _ (htake _ _ (htake _ _ .refl)))
  have hreach : Reach initStep initOk s₀ (s (0x3FD000 :: 0x3FC000 :: 0x3FE000 :: 0x3FF000 :: rest)) := by
    refine hgive _ _ (hlate 253 (by decide)) (by simp [s₀, s]) (by simp [h₃]) ?_
    refine hgive _ _ (hlate 252 (by decide)) (by simp [s₀, s]) (by simp [h₄]) ?_
    refine hgive _ _ (hlate 254 (by decide)) (by simp [s₀, s]) (by simp [h₂]) ?_
    exact hgive _ _ (hlate 255 (by decide)) (by simp [s₀, s]) h₁ htaken
  have habsent : present (pdeAt m' bootDir deviceEntry) = false := by
    rw [hm'.rest deviceEntry (by decide) (by decide)]
    rfl
  have hframes : pageFrames (s (0x3FD000 :: 0x3FC000 :: 0x3FE000 :: 0x3FF000 :: rest)) deviceEntry =
      0x3FD000 :: 0x3FE000 :: 0x3FF000 :: rest := by
    rw [pageFrames, if_neg (by simp [s, habsent])]
    rfl
  have hzero' : 0 ∉ (s (0x3FD000 :: 0x3FC000 :: 0x3FE000 :: 0x3FF000 :: rest)).free := by
    simp only [s₀, s, List.mem_cons, not_or] at hzero ⊢
    exact ⟨by decide, by decide, by decide, by decide, hzero.2.2.2.2⟩
  have hlen : 3 < (pageFrames (s (0x3FD000 :: 0x3FC000 :: 0x3FE000 :: 0x3FF000 :: rest))
      deviceEntry).length := by
    have hstack := congrArg List.length hrest
    simp [lateFrames] at hstack
    simp [hframes]
    omega
  obtain ⟨hregular', hlow'⟩ := regular_of_reach hboot hreach
  obtain ⟨d', s', hrx⟩ := (DevicePages.refl hregular').exists_initRx hlow' hzero' (by simp [Below])
    (by simpa using hlen) noBuffers
  refine ⟨s₀, _, d', s', hboot, hreach, hrx, (ring_contiguous_iff hboot hreach hrx).mpr ?_⟩
  rw [hframes]
  simp only [List.getD_cons_succ, List.getD_cons_zero]
  exact ⟨by decide, by decide⟩

end SRos.Drivers
