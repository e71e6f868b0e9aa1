import SRos.Drivers.Model
import SRos.Paging.Stores

/-!
# The pages of the network card

Each buffer page of `rtl8139_init` is mapped through the directory entry of `0xF0000000`, to the
next frame of the allocator. A missing page table takes the frame behind the first one.
-/

namespace SRos.Drivers

open Gui Loop Paging

/-- The bytes of a block are in frames that hold no table. -/
def OutsideTables (s : Vm) (dst n : Nat) : Prop :=
  ∀ i < n, ∃ f, f % 4096 = 0 ∧ Unused s f ∧ s.translate (dst + i) = some (f + (dst + i) % 4096)

/-- `memset` of such a block succeeds and changes no translation. -/
theorem memset_tables {s : Vm} {dst n : Nat} (h : Regular s) (hend : ∀ i < n, dst + i < 2 ^ 32)
    (hout : OutsideTables s dst n) (c : UInt8) :
    ∃ s', memset dst c n s = some s' ∧ SameTables s s' ∧ s'.free = s.free := by
  refine foldlM_range (fun _ t => SameTables s t ∧ t.free = s.free) ⟨.refl s, rfl⟩ ?_
  rintro k t hk ⟨hsame, hfree⟩
  obtain ⟨f, haligned, hunused, htranslate⟩ := hout k hk
  have hregular := hsame.regular h (by rw [hfree])
  have hstored := hregular.stored8 haligned (hsame.unused hunused)
    (Nat.mod_lt (dst + k) (by decide : 4096 > 0)) c
  refine ⟨_, ?_, hsame.trans hstored, hfree⟩
  rw [Vm.write8, hsame.translate h.dir (hend k hk), htranslate, Option.map_some]

/-- The directory entry of `0xF0000000`. -/
def deviceEntry : Nat := 960

/-- The pages have been mapped for a device, in this order, each to a frame of its own. -/
structure DevicePages (s : Vm) (pages : List (Nat × Nat)) (s' : Vm) : Prop where
  regular : Regular s'
  cr3 : s'.cr3 = s.cr3
  entry : ∀ p ∈ pages, p.1 / 2 ^ 22 = deviceEntry
  frames : pageFrames s deviceEntry = pages.map Prod.snd ++ pageFrames s' deviceEntry
  table : present (pdeAt s.mem s.cr3 deviceEntry) = true ∨ pages ≠ [] →
    present (pdeAt s'.mem s'.cr3 deviceEntry) = true
  fresh : ∀ p ∈ pages, frameOf p.2 = p.2 ∧ p.2 ∈ s.free ∧ p.2 ∉ s'.free ∧ Unused s' p.2
  maps : ∀ p ∈ pages, ∀ w, w / 4096 = p.1 / 4096 →
    walk s' w = some (p.2, mapFlags 0x03, tableFlags 0x03 s deviceEntry)
  others : ∀ w < 0xFFC00000, (∀ p ∈ pages, w / 4096 ≠ p.1 / 4096) → walk s' w = walk s w
  tables : ∀ i < 1023, tableFlags 0x03 s' i = tableFlags 0x03 s i
  free : ∀ g ∈ s'.free, g ∈ s.free
  unused : ∀ g, g ∉ s.free → Unused s g → g ∉ s'.free ∧ Unused s' g

/-- All pages lie in front of a page. -/
def Below (pages : List (Nat × Nat)) (n : Nat) : Prop := ∀ p ∈ pages, p.1 / 4096 < n

section Pages

variable {s s' s'' t : Vm} {pages more : List (Nat × Nat)} {v f : Nat}

theorem DevicePages.refl (h : Regular s) : DevicePages s [] s where
  regular := h
  cr3 := rfl
  entry := by simp
  frames := rfl
  table := fun hpde => hpde.resolve_right (absurd rfl)
  fresh := by simp
  maps := by simp
  others := fun _ _ _ => rfl
  tables := fun _ _ => rfl
  free := fun _ hg => hg
  unused := fun _ hg hunused => ⟨hg, hunused⟩

theorem DevicePages.append (h : DevicePages s pages s') (h' : DevicePages s' more s'')
    (happart : ∀ p ∈ pages, ∀ q ∈ more, p.1 / 4096 ≠ q.1 / 4096) :
    DevicePages s (pages ++ more) s'' where
  regular := h'.regular
  cr3 := h'.cr3.trans h.cr3
  entry := fun p hp => (List.mem_append.mp hp).elim (h.entry p) (h'.entry p)
  frames := by rw [h.frames, h'.frames, List.map_append, List.append_assoc]
  table := by
    intro hpde
    apply h'.table
    by_cases hpages : pages = []
    · rw [hpages, List.nil_append] at hpde
      exact hpde.imp_left fun hpde => h.table (.inl hpde)
    · exact .inl (h.table (.inr hpages))
  fresh := by
    intro p hp
    rcases List.mem_append.mp hp with hp | hp
    · obtain ⟨hframe, hmem, hout, hunused⟩ := h.fresh p hp
      exact ⟨hframe, hmem, h'.unused _ hout hunused⟩
    · obtain ⟨hframe, hmem, hrest⟩ := h'.fresh p hp
      exact ⟨hframe, h.free _ hmem, hrest⟩
  maps := by
    intro p hp w hw
    rcases List.mem_append.mp hp with hp | hp
    · have hentry := h.entry p hp
      unfold deviceEntry at hentry
      rw [h'.others w (by omega) fun q hq => hw ▸ happart p hp q hq, h.maps p hp w hw]
    · rw [h'.maps p hp w hw, h.tables _ (by decide)]
  others := by
    intro w hw hne
    rw [h'.others w hw fun q hq => hne q (List.mem_append_right _ hq),
      h.others w hw fun p hp => hne p (List.mem_append_left _ hp)]
  tables := fun i hi => (h'.tables i hi).trans (h.tables i hi)
  free := fun g hg => h.free g (h'.free g hg)
  unused := fun g hg hunused => h'.unused g (h.unused g hg hunused).1 (h.unused g hg hunused).2

theorem devicePages_one (h : FreshPage s v 0x03 f s') (hv : v / 2 ^ 22 = deviceEntry) :
    DevicePages s [(v, f)] s' where
  regular := h.regular
  cr3 := h.cr3
  entry := by simpa using hv
  frames := by
    rw [← hv, h.frames, pageFrames_of_table h.table]
    rfl
  table := fun _ => hv ▸ h.table
  fresh := by simp [h.frame, h.fresh, h.unused]
  maps := by
    simp only [List.mem_singleton, forall_eq]
    intro w hw
    have hlow : w < 0xFFC00000 := by
      unfold deviceEntry at hv
      omega
    rw [h.walk w hlow, if_pos hw, hv]
  others := by
    simp only [List.mem_singleton, forall_eq]
    intro w hw hne
    rw [h.walk w hw, if_neg hne]
  tables := h.tables
  free := h.subset
  unused := h.others

/-- Memory outside the tables is written. -/
theorem DevicePages.stored (h : DevicePages s pages s') (hsame : SameTables s' s'')
    (hfree : s''.free = s'.free) : DevicePages s pages s'' := by
  have hdir := h.regular.dir
  have hpde : pdeAt s''.mem s''.cr3 deviceEntry = pdeAt s'.mem s'.cr3 deviceEntry := by
    rw [hsame.cr3]
    exact hsame.pde _ (by decide)
  have hwalk : ∀ w < 2 ^ 32, walk s'' w = walk s' w := fun w => hsame.walk hdir
  refine ⟨hsame.regular h.regular (by rw [hfree]), hsame.cr3.trans h.cr3, h.entry, ?_, ?_, ?_, ?_, ?_,
    ?_, ?_, ?_⟩
  · rw [h.frames, pageFrames, pageFrames, hpde, hfree]
  · rw [hpde]
    exact h.table
  · intro p hp
    obtain ⟨hframe, hmem, hout, hunused⟩ := h.fresh p hp
    exact ⟨hframe, hmem, by rwa [hfree], hsame.unused hunused⟩
  · intro p hp w hw
    have hentry := h.entry p hp
    unfold deviceEntry at hentry
    rw [hwalk w (by omega), h.maps p hp w hw]
  · intro w hw hne
    rw [hwalk w (by omega), h.others w hw hne]
  · intro i hi
    rw [← h.tables i hi, tableFlags, tableFlags, hsame.cr3, hsame.pde i (by omega)]
  · rw [hfree]
    exact h.free
  · intro g hg hunused
    rw [hfree]
    exact (h.unused g hg hunused).imp_right hsame.unused

/-- Every byte of a page is in the frame of the page. -/
theorem DevicePages.translate (h : DevicePages s pages s') {p : Nat × Nat} (hp : p ∈ pages) {w : Nat}
    (hw : w / 4096 = p.1 / 4096) : s'.translate w = some (p.2 + w % 4096) := by
  have hmask : w &&& 0xFFF = w % 4096 := Nat.and_two_pow_sub_one_eq_mod _ 12
  rw [translate_walk, h.maps p hp w hw, Option.map_some, hmask]

/-- A block in the pages. -/
theorem DevicePages.outside (h : DevicePages s pages s') {dst n : Nat}
    (hpages : ∀ i < n, ∃ p ∈ pages, (dst + i) / 4096 = p.1 / 4096) :
    (∀ i < n, dst + i < 2 ^ 32) ∧ OutsideTables s' dst n := by
  constructor
  · intro i hi
    obtain ⟨p, hp, hpage⟩ := hpages i hi
    have hentry := h.entry p hp
    unfold deviceEntry at hentry
    omega
  · intro i hi
    obtain ⟨p, hp, hpage⟩ := hpages i hi
    obtain ⟨hframe, -, -, hunused⟩ := h.fresh p hp
    have haligned := (frameOf_frame p.2).1
    rw [hframe] at haligned
    exact ⟨p.2, haligned, hunused, h.translate hp hpage⟩

/-- `memset` of the pages. -/
theorem DevicePages.memset (h : DevicePages s pages s') {dst n : Nat}
    (hpages : ∀ i < n, ∃ p ∈ pages, (dst + i) / 4096 = p.1 / 4096) (c : UInt8) :
    ∃ s'', memset dst c n s' = some s'' ∧ DevicePages s pages s'' := by
  obtain ⟨hend, hout⟩ := h.outside hpages
  obtain ⟨s'', hs, hsame, hfree⟩ := memset_tables h.regular hend hout c
  exact ⟨s'', hs, h.stored hsame hfree⟩

/-- `pfa_alloc` and `paging_map_page` behind the pages that there are. -/
theorem DevicePages.next (h : DevicePages s pages s') (hlow : s.cr3 < lowEnd)
    (hv : v / 2 ^ 22 = deviceEntry) (hnew : Below pages (v / 4096))
    (halloc : pfaAlloc s' = some (f, t)) (hs : pagingMapPage v f 0x03 t = some s'') :
    DevicePages s (pages ++ [(v, f)]) s'' ∧ Below (pages ++ [(v, f)]) (v / 4096 + 1) := by
  unfold lowEnd at hlow
  unfold deviceEntry at hv
  have hcr3 := h.cr3
  have hfresh := h.regular.freshPage (by omega) (by omega) (by omega) halloc hs
  refine ⟨h.append (devicePages_one hfresh hv) ?_, ?_⟩
  · simp only [List.mem_singleton, forall_eq]
    exact fun p hp => (hnew p hp).ne
  · simp only [Below, List.mem_append, List.mem_singleton, or_imp, forall_and, forall_eq]
    exact ⟨fun p hp => Nat.lt_succ_of_lt (hnew p hp), Nat.lt_succ_self _⟩

end Pages

/-! ## The initialisation of the card -/

/-- The transmit buffers from the `k`-th on, and the frames that the driver has recorded. -/
def txPages (d : Rtl8139) (k n : Nat) : List (Nat × Nat) :=
  (List.range' k n).map fun i => (0xF0040000 + i * 0x1000, d.txPhys i)

/-- The pages of the receive ring. -/
def rxPages (f f₂ f₃ : Nat) : List (Nat × Nat) :=
  [(0xF0050000, f), (0xF0051000, f₂), (0xF0052000, f₃)]

section Init

variable {s₀ s s' t : Vm} {pages : List (Nat × Nat)} {d d' : Rtl8139} {f : Nat} {r : Int}

theorem DevicePages.mem_of_pfaAlloc (h : DevicePages s₀ pages s) (halloc : pfaAlloc s = some (f, t)) :
    f ∈ s₀.free := by
  obtain ⟨fs, hfree, -⟩ := pfaAlloc_some halloc
  exact h.free _ (by simp [hfree])

/-- A transmit buffer is mapped. -/
theorem DevicePages.txMapped {k : Nat} {s₁ s₂ : Vm} (h : DevicePages s₀ pages s)
    (hlow : s₀.cr3 < lowEnd) (hk : k < 4) (hnew : Below pages (0xF0040 + k))
    (halloc : pfaAlloc s = some (f, s₁))
    (hmap : pagingMapPage (0xF0040000 + k * 0x1000) f 0x03 s₁ = some s₂) :
    DevicePages s₀ (pages ++ [(0xF0040000 + k * 0x1000, f)]) s₂ ∧
      Below (pages ++ [(0xF0040000 + k * 0x1000, f)]) (0xF0040 + (k + 1)) ∧
      ∀ i < rtl8139TxBufSize, ∃ p ∈ pages ++ [(0xF0040000 + k * 0x1000, f)],
        (0xF0040000 + k * 0x1000 + i) / 4096 = p.1 / 4096 := by
  have hv : (0xF0040000 + k * 0x1000) / 4096 = 0xF0040 + k := by omega
  obtain ⟨hpages, hbelow⟩ := h.next hlow (by unfold deviceEntry; omega) (by rwa [hv]) halloc hmap
  rw [hv] at hbelow
  refine ⟨hpages, hbelow, fun i hi => ?_⟩
  unfold rtl8139TxBufSize at hi
  exact ⟨_, List.mem_append_right _ (List.mem_singleton_self _), by dsimp only; omega⟩

/-- A transmit buffer is mapped and cleared. -/
theorem DevicePages.txBuffer {k : Nat} {s₁ s₂ : Vm} (h : DevicePages s₀ pages s)
    (hlow : s₀.cr3 < lowEnd) (hk : k < 4) (hnew : Below pages (0xF0040 + k))
    (halloc : pfaAlloc s = some (f, s₁))
    (hmap : pagingMapPage (0xF0040000 + k * 0x1000) f 0x03 s₁ = some s₂) :
    ∃ s₃, Drivers.memset (0xF0040000 + k * 0x1000) 0 rtl8139TxBufSize s₂ = some s₃ ∧
      DevicePages s₀ (pages ++ [(0xF0040000 + k * 0x1000, f)]) s₃ ∧
      Below (pages ++ [(0xF0040000 + k * 0x1000, f)]) (0xF0040 + (k + 1)) := by
  obtain ⟨hpages, hbelow, hblock⟩ := h.txMapped hlow hk hnew halloc hmap
  obtain ⟨s₃, hset, hcleared⟩ := hpages.memset hblock 0
  exact ⟨s₃, hset, hcleared, hbelow⟩

/-- The loop of `init_tx_buffers` from the `k`-th buffer on. -/
theorem DevicePages.initTx {k n : Nat} (h : DevicePages s₀ pages s) (hlow : s₀.cr3 < lowEnd)
    (hk : k + n ≤ 4) (hnew : Below pages (0xF0040 + k))
    (hs : initTxBuffersFrom (List.range' k n) d s = some (r, d', s')) :
    (r = 0 ∧ DevicePages s₀ (pages ++ txPages d' k n) s' ∧
      Below (pages ++ txPages d' k n) (0xF0040 + (k + n)) ∧ ∀ i < k, d'.txPhys i = d.txPhys i) ∨
      (r = -1 ∧ 0 ∈ s₀.free) := by
  induction n generalizing pages d s k with
  | zero =>
      cases hs
      exact .inl ⟨rfl, by simpa [txPages] using h, by simpa [txPages] using hnew, fun _ _ => rfl⟩
  | succ n ih =>
      rw [List.range'_succ] at hs
      obtain ⟨⟨phys, s₁⟩, halloc, hs⟩ := Option.bind_eq_some_iff.mp hs
      have hmem := h.mem_of_pfaAlloc halloc
      dsimp only at hs
      split at hs
      · next hzero =>
          cases hs
          exact .inr ⟨rfl, hzero ▸ hmem⟩
      · obtain ⟨s₂, hmap, hs⟩ := Option.bind_eq_some_iff.mp hs
        obtain ⟨s₃, hset, hs⟩ := Option.bind_eq_some_iff.mp hs
        obtain ⟨s₄, hset', hpages, hbelow⟩ := h.txBuffer hlow (by omega) hnew halloc hmap
        rw [hset] at hset'
        cases hset'
        refine (ih hpages (by omega) hbelow hs).imp_left ?_
        rintro ⟨hr, hall, hend, hkept⟩
        have hphys : d'.txPhys k = phys := by
          rw [hkept k (by omega)]
          exact Function.update_self k phys d.txPhys
        have htx : txPages d' k (n + 1) =
            [(0xF0040000 + k * 0x1000, phys)] ++ txPages d' (k + 1) n := by
          rw [txPages, List.range'_succ, List.map_cons, hphys]
          rfl
        rw [htx, ← List.append_assoc, show k + (n + 1) = k + 1 + n by omega]
        refine ⟨hr, hall, hend, fun i hi => ?_⟩
        have hik : i ≠ k := by omega
        rw [hkept i (by omega)]
        exact Function.update_of_ne hik phys d.txPhys

/-- The three pages of the receive ring are cleared. -/
theorem DevicePages.rxBuffer {f₁ f₂ f₃ : Nat}
    (h : DevicePages s₀ (pages ++ rxPages f₁ f₂ f₃) s) :
    ∃ s', Drivers.memset 0xF0050000 0 0x3000 s = some s' ∧
      DevicePages s₀ (pages ++ rxPages f₁ f₂ f₃) s' := by
  refine h.memset (fun i hi => ?_) 0
  simp only [rxPages, List.mem_append, List.mem_cons, List.not_mem_nil, or_false]
  rcases (by omega : i < 0x1000 ∨ (0x1000 ≤ i ∧ i < 0x2000) ∨ 0x2000 ≤ i) with hi | hi | hi
  · exact ⟨_, .inr (.inl rfl), by dsimp only; omega⟩
  · exact ⟨_, .inr (.inr (.inl rfl)), by dsimp only; omega⟩
  · exact ⟨_, .inr (.inr (.inr rfl)), by dsimp only; omega⟩

theorem DevicePages.initRx (h : DevicePages s₀ pages s) (hlow : s₀.cr3 < lowEnd)
    (hnew : Below pages 0xF0050) (hs : initRxBuffer d s = some (r, d', s')) :
    (r = 0 ∧ d'.rxBuf = 0xF0050000 ∧ d'.rbStart = d'.rxPhys ∧ d'.txPhys = d.txPhys ∧
      ∃ f₂ f₃, DevicePages s₀ (pages ++ rxPages d'.rxPhys f₂ f₃) s') ∨ (r = -1 ∧ 0 ∈ s₀.free) := by
  obtain ⟨⟨f₁, s₁⟩, halloc₁, hs⟩ := Option.bind_eq_some_iff.mp hs
  have hmem₁ := h.mem_of_pfaAlloc halloc₁
  dsimp only at hs
  split at hs
  · next hzero =>
      cases hs
      exact .inr ⟨rfl, hzero ▸ hmem₁⟩
  obtain ⟨s₂, hmap₁, hs⟩ := Option.bind_eq_some_iff.mp hs
  obtain ⟨hpages₁, hbelow₁⟩ := h.next hlow (by decide) hnew halloc₁ hmap₁
  obtain ⟨⟨f₂, s₃⟩, halloc₂, hs⟩ := Option.bind_eq_some_iff.mp hs
  have hmem₂ := hpages₁.mem_of_pfaAlloc halloc₂
  dsimp only at hs
  split at hs
  · next hzero =>
      cases hs
      exact .inr ⟨rfl, hzero ▸ hmem₂⟩
  obtain ⟨s₄, hmap₂, hs⟩ := Option.bind_eq_some_iff.mp hs
  obtain ⟨hpages₂, hbelow₂⟩ := hpages₁.next hlow (by decide) hbelow₁ halloc₂ hmap₂
  obtain ⟨⟨f₃, s₅⟩, halloc₃, hs⟩ := Option.bind_eq_some_iff.mp hs
  have hmem₃ := hpages₂.mem_of_pfaAlloc halloc₃
  dsimp only at hs
  split at hs
  · next hzero =>
      cases hs
      exact .inr ⟨rfl, hzero ▸ hmem₃⟩
  obtain ⟨s₆, hmap₃, hs⟩ := Option.bind_eq_some_iff.mp hs
  obtain ⟨hpages₃, -⟩ := hpages₂.next hlow (by decide) hbelow₂ halloc₃ hmap₃
  rw [List.append_assoc, List.append_assoc] at hpages₃
  obtain ⟨s₇, hset, hs⟩ := Option.bind_eq_some_iff.mp hs
  cases hs
  obtain ⟨s₈, hset', hcleared⟩ := hpages₃.rxBuffer
  rw [hset] at hset'
  cases hset'
  exact .inl ⟨rfl, rfl, rfl, rfl, f₂, f₃, hcleared⟩

/-- A card that `rtl8139_init` can use. -/
def cardFound (bar0 : Option Nat) : Bool := bar0.any fun bar => (bar &&& 0xFFFFFFFC) % 2 ^ 16 != 0

theorem rtl8139Init_cases {bar0 : Option Nat} (h : Regular s) (hlow : s.cr3 < lowEnd)
    (hs : rtl8139Init bar0 d s = some (r, d', s')) :
    (r = 0 ∧ cardFound bar0 = true ∧ d'.rbStart = d'.rxPhys ∧ ∃ f₂ f₃,
      DevicePages s (txPages d' 0 4 ++ rxPages d'.rxPhys f₂ f₃) s') ∨
      (r = -1 ∧ cardFound bar0 = false ∧ s' = s) ∨ (r = -1 ∧ 0 ∈ s.free) := by
  unfold rtl8139Init at hs
  split at hs
  · cases hs
    exact .inr (.inl ⟨rfl, rfl, rfl⟩)
  · dsimp only at hs
    split at hs
    · next bar hbase =>
        cases hs
        exact .inr (.inl ⟨rfl, by simpa [cardFound] using hbase, rfl⟩)
    · next bar hbase =>
        obtain ⟨⟨r₁, d₁, s₁⟩, htx, hs⟩ := Option.bind_eq_some_iff.mp hs
        rw [initTxBuffers, List.range_eq_range'] at htx
        rcases (DevicePages.refl h).initTx hlow (by decide) (by simp [Below]) htx with
          ⟨rfl, hpages, hbelow, -⟩ | ⟨rfl, hzero⟩
        · obtain ⟨⟨r₂, d₂, s₂⟩, hrx, hs⟩ := Option.bind_eq_some_iff.mp hs
          have hbelow' : Below ([] ++ txPages d₁ 0 4) 0xF0050 :=
            fun p hp => Nat.lt_trans (hbelow p hp) (by decide)
          rcases hpages.initRx hlow hbelow' hrx with
            ⟨rfl, -, hstart, htxPhys, f₂, f₃, hall⟩ | ⟨rfl, hzero⟩
          · cases hs
            refine .inl ⟨rfl, by simpa [cardFound] using hbase, hstart, f₂, f₃, ?_⟩
            rw [txPages, htxPhys]
            exact hall
          · cases hs
            exact .inr (.inr ⟨rfl, hzero⟩)
        · cases hs
          exact .inr (.inr ⟨rfl, hzero⟩)

/-- There is a next page as long as there are frames for two. -/
theorem DevicePages.exists_next {v : Nat} (h : DevicePages s₀ pages s)
    (hv : v / 2 ^ 22 = deviceEntry) (hzero : 0 ∉ s₀.free)
    (hroom : pages.length + 1 < (pageFrames s₀ deviceEntry).length) :
    ∃ f s₁ s₂, pfaAlloc s = some (f, s₁) ∧ f ≠ 0 ∧ pagingMapPage v f 0x03 s₁ = some s₂ := by
  unfold deviceEntry at hv
  rw [h.frames, List.length_append, List.length_map] at hroom
  have hlen : (pageFrames s deviceEntry).length ≤ s.free.length := by
    unfold pageFrames
    split
    · exact le_rfl
    · exact List.length_eraseIdx_le _ _
  obtain ⟨f, s₁, s₂, halloc, hmap⟩ :=
    @Regular.exists_freshPage s v h.regular (by omega) 0x03 (by omega)
  exact ⟨f, s₁, s₂, halloc, fun heq => hzero (heq ▸ h.mem_of_pfaAlloc halloc), hmap⟩

theorem DevicePages.exists_initTx {k n : Nat} (h : DevicePages s₀ pages s) (hlow : s₀.cr3 < lowEnd)
    (hzero : 0 ∉ s₀.free) (hk : k + n ≤ 4) (hnew : Below pages (0xF0040 + k))
    (hroom : pages.length + n < (pageFrames s₀ deviceEntry).length) (d : Rtl8139) :
    ∃ d' s', initTxBuffersFrom (List.range' k n) d s = some (0, d', s') := by
  induction n generalizing pages d s k with
  | zero => exact ⟨d, s, rfl⟩
  | succ n ih =>
      obtain ⟨f, s₁, s₂, halloc, hne, hmap⟩ := @DevicePages.exists_next s₀ s pages
        (0xF0040000 + k * 0x1000) h (by unfold deviceEntry; omega) hzero (by omega)
      obtain ⟨s₃, hset, hpages, hbelow⟩ := h.txBuffer hlow (by omega) hnew halloc hmap
      obtain ⟨d', s', hrest⟩ := ih hpages (by omega) hbelow (by simp; omega)
        { d with
          txBufs := Function.update d.txBufs k (0xF0040000 + k * 0x1000)
          txPhys := Function.update d.txPhys k f
          txAddr := Function.update d.txAddr k f }
      refine ⟨d', s', ?_⟩
      rw [List.range'_succ, initTxBuffersFrom, halloc]
      simp only [Option.bind_eq_bind, Option.bind_some, if_neg hne, hmap, hset]
      exact hrest

theorem DevicePages.exists_initRx (h : DevicePages s₀ pages s) (hlow : s₀.cr3 < lowEnd)
    (hzero : 0 ∉ s₀.free) (hnew : Below pages 0xF0050)
    (hroom : pages.length + 3 < (pageFrames s₀ deviceEntry).length) (d : Rtl8139) :
    ∃ d' s', initRxBuffer d s = some (0, d', s') := by
  obtain ⟨f₁, s₁, s₂, halloc₁, hne₁, hmap₁⟩ :=
    @DevicePages.exists_next s₀ s pages 0xF0050000 h (by decide) hzero (by omega)
  obtain ⟨hpages₁, hbelow₁⟩ := h.next hlow (by decide) hnew halloc₁ hmap₁
  obtain ⟨f₂, s₃, s₄, halloc₂, hne₂, hmap₂⟩ :=
    @DevicePages.exists_next s₀ s₂ _ 0xF0051000 hpages₁ (by decide) hzero (by simp; omega)
  obtain ⟨hpages₂, hbelow₂⟩ := hpages₁.next hlow (by decide) hbelow₁ halloc₂ hmap₂
  obtain ⟨f₃, s₅, s₆, halloc₃, hne₃, hmap₃⟩ :=
    @DevicePages.exists_next s₀ s₄ _ 0xF0052000 hpages₂ (by decide) hzero (by simp; omega)
  obtain ⟨hpages₃, -⟩ := hpages₂.next hlow (by decide) hbelow₂ halloc₃ hmap₃
  rw [List.append_assoc, List.append_assoc] at hpages₃
  obtain ⟨s₇, hset, -⟩ := DevicePages.rxBuffer hpages₃
  refine ⟨{ d with rxPhys := f₁, rxBuf := 0xF0050000, rbStart := f₁, rxPtr := 0 }, s₇, ?_⟩
  simp only [initRxBuffer, halloc₁, halloc₂, halloc₃, hmap₁, hmap₂, hmap₃, hset, if_neg hne₁, if_neg hne₂,
    if_neg hne₃, Option.bind_eq_bind, Option.bind_some]
  rfl

/-- Eight frames and a table are enough for a card that is there. -/
theorem exists_rtl8139Init {bar0 : Option Nat} (h : Regular s) (hlow : s.cr3 < lowEnd)
    (hzero : 0 ∉ s.free) (hroom : 8 < (pageFrames s deviceEntry).length)
    (hcard : cardFound bar0 = true) (d : Rtl8139) :
    ∃ d' s', rtl8139Init bar0 d s = some (0, d', s') := by
  cases bar0 with
  | none => cases hcard
  | some bar =>
      have hbase : (bar &&& 0xFFFFFFFC) % 2 ^ 16 ≠ 0 := by simpa [cardFound] using hcard
      obtain ⟨d₁, s₁, htx⟩ := (DevicePages.refl h).exists_initTx (k := 0) (n := 4) hlow hzero
        (by decide) (by simp [Below]) (by simp; omega)
        { d with ioBase := (bar &&& 0xFFFFFFFC) % 2 ^ 16 }
      obtain ⟨-, hpages, hbelow, -⟩ := ((DevicePages.refl h).initTx hlow (by decide)
        (by simp [Below]) htx).resolve_right fun hbad => hzero hbad.2
      obtain ⟨d₂, s₂, hrx⟩ := hpages.exists_initRx hlow hzero
        (fun p hp => Nat.lt_trans (hbelow p hp) (by decide)) (by simp [txPages]; omega) d₁
      rw [← List.range_eq_range'] at htx
      refine ⟨d₂, s₂, ?_⟩
      simp only [rtl8139Init, if_neg hbase, initTxBuffers, rtl8139NumTxBufs, htx, hrx,
        Option.bind_eq_bind, Option.bind_some]
      rfl

end Init

end SRos.Drivers
