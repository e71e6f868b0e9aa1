import SRos.Heap.Request
import SRos.Gui.Clipping

/-!
# `wm_create_window` on the heap

The two allocations of `wm_create_window`, with the stores to the new window and to its buffer.
The buffer is asked for with a product of three 32-bit factors, while the drawing functions rely
on the product of the two sides.
-/

namespace SRos.Gui

open Bytes Stores Words
open Heap (Mem HeapSys Block Rep Taken Normal allocated heapStart headerSize kmalloc kfree needSize
  blockSize)

/-- `sizeof(window_t)` -/
def sizeofWindow : Nat := 80

/-- The stores to the fields of a new window in front of the allocation of its buffer. -/
def storeFields (m : Mem) (win : Ptr) (x y : Int) (contentW contentH : Nat) (title : CStr) : Mem :=
  let m := store32 m win (u32OfInt x)
  let m := store32 m (win + 4) (u32OfInt y)
  let m := store32 m (win + 16) contentW
  let m := store32 m (win + 20) contentH
  let m := store32 m (win + 60) 1
  let m := store32 m (win + 64) 0
  let m := store32 m (win + 72) 1
  let m := store32 m (win + 76) 0
  let m := store32 m (win + 68) 0
  let title := title.bytes.take wmMaxTitleLen
  let m := splice m (win + 24) title.length fun i => title.getD i 0
  let m := Function.update m (win + 24 + title.length) 0
  let m := store32 m (win + 8) (u32 (contentW + wmBorderWidth * 2))
  store32 m (win + 12) (u32 (contentH + wmTitleHeight + wmBorderWidth))

/-- The part of `wm_create_window` that allocates the window and its buffer: the pointers, `none`
for NULL, and the memory. -/
def allocateWindow (m : Mem) (x y : Int) (contentW contentH : Nat) (title : CStr) :
    Option (Mem × Option Ptr × Option Ptr) := do
  let (win, m) ← kmalloc m sizeofWindow
  if win = 0 then return (m, none, none)
  else
    let m := storeFields m win x y contentW contentH title
    let (buffer, m) ← kmalloc m (u32 (contentW * contentH * 4))
    let m := store32 m (win + 68) buffer
    if buffer = 0 then return (kfree m win, some win, none)
    else return (m, some win, some buffer)

/-- The loop that fills a new buffer. -/
def fillBuffer (m : Mem) (buffer words : Nat) : Mem :=
  storeWords ((List.range words).map fun (i : Nat) => (buffer + 4 * i, colorToPixel wmContentBg)) m

/-- `wm_create_window` with the heap it allocates from. -/
def createWindow (fuel : Nat) (m : Mem) (g : State) (x y : Int) (contentW contentH : Nat)
    (title : CStr) : Option (Mem × State × Option Ptr) :=
  if g.wm.count ≥ wmMaxWindows then some (m, g, none)
  else do
    let (m, object, buffer) ← allocateWindow m x y contentW contentH title
    let (g, win) ← wmCreateWindow fuel g x y contentW contentH title object
      (buffer.map fun b => wordAt b m)
    match buffer with
    | none => return (m, g, win)
    | some b => return (fillBuffer m b (u32 (contentW * contentH)), g, win)

/-- The words between the tags of the block at a pointer. -/
def blockWords (m : Mem) (ptr : Nat) : Nat := (blockSize m (ptr - headerSize) - 2 * headerSize) / 4

/-! ## The allocations -/

section Allocate

variable {s : HeapSys} {bs bs' : List Block} {m' : Mem} {x y : Int} {contentW contentH : Nat}
  {title : CStr} {object buffer : Option Ptr}

theorem storeFields_outside {m : Mem} {win i : Nat} (h : i < win ∨ win + sizeofWindow ≤ i) :
    storeFields m win x y contentW contentH title i = m i := by
  have hlen : (title.bytes.take wmMaxTitleLen).length ≤ 31 := List.length_take_le _ _
  unfold sizeofWindow at h
  unfold storeFields
  rw [store32_of_outside (by omega), store32_of_outside (by omega),
    Function.update_of_ne (by omega), splice_outside (by omega), store32_of_outside (by omega),
    store32_of_outside (by omega), store32_of_outside (by omega), store32_of_outside (by omega),
    store32_of_outside (by omega), store32_of_outside (by omega), store32_of_outside (by omega),
    store32_of_outside (by omega), store32_of_outside (by omega)]

theorem needSize_sizeofWindow : needSize sizeofWindow = 88 := by decide

/-- Stores inside a block that is large enough for them keep the heap. -/
theorem inv_congr_block {m : Mem} {live : List Nat} {p n : Nat} {b : Block}
    (h : HeapSys.Inv ⟨m, live⟩ bs) (hb : (p - headerSize, b) ∈ allocated heapStart bs)
    (hp : headerSize ≤ p) (hn : n + 2 * headerSize ≤ b.size)
    (heq : ∀ i, i < p ∨ p + n ≤ i → m' i = m i) : HeapSys.Inv ⟨m', live⟩ bs where
  rep := by
    refine h.rep.congr_inside (List.mem_of_mem_filter hb) ?_
    intro i hi
    apply heq
    omega
  canonical := h.canonical
  live := h.live

theorem blockSize_of_allocated {m : Mem} {hdr : Nat} {b : Block} (h : Rep m bs)
    (hb : (hdr, b) ∈ allocated heapStart bs) :
    blockSize m hdr = b.size ∧ b.size ≤ Heap.heapSize := by
  obtain ⟨pre, post, rfl, rfl⟩ := Tiling.mem_placed_iff.mp (List.mem_of_mem_filter hb)
  exact ⟨h.blockSize_eq, by have := h.room; omega⟩

/-- A pointer that has just been returned is none of the live ones. -/
theorem Taken.fresh {size p : Nat} {b : Block} (h : Taken s bs size p m' bs' b) : p ∉ s.live := by
  have hnodup : (p :: s.live).Nodup := by
    rw [h.inv.live.nodup_iff]
    exact Heap.nodup_pointers heapStart bs'
  exact (List.nodup_cons.mp hnodup).1

/-- Stores inside a window that has been allocated. -/
theorem inv_congr_window {m m₁ : Mem} {live : List Nat} {win : Nat} {b : Block}
    {bs₂ : List Block} (h : Taken s bs sizeofWindow win m₁ bs' b)
    (hinv : HeapSys.Inv ⟨m, live⟩ bs₂) (hb : (win - headerSize, b) ∈ allocated heapStart bs₂)
    (heq : ∀ i, i < win ∨ win + sizeofWindow ≤ i → m' i = m i) :
    HeapSys.Inv ⟨m', live⟩ bs₂ := by
  have hlow := h.low
  have hfits := h.fits
  rw [needSize_sizeofWindow] at hfits
  apply inv_congr_block hinv hb (by omega) _ heq
  unfold sizeofWindow headerSize
  omega

/-- Both blocks have been allocated. -/
structure Allocated (s : HeapSys) (size win b : Nat) (m' : Mem) (bs' : List Block) (v : Block) :
    Prop where
  inv : HeapSys.Inv ⟨m', b :: win :: s.live⟩ bs'
  block : (b - headerSize, v) ∈ allocated heapStart bs'
  fits : needSize size ≤ v.size
  size : size ≠ 0
  window : win ≠ 0 ∧ win ∉ s.live
  buffer : b ≠ 0 ∧ b ∉ win :: s.live

/-- What `allocateWindow` does: the window is not allocated, or it is freed again because its
buffer is not allocated, or both are allocated. -/
inductive AllocateCases (s : HeapSys) (bs : List Block) (size : Nat) (m' : Mem) :
    Option Ptr → Option Ptr → Prop
  | neither (hmem : m' = s.mem) : AllocateCases s bs size m' none none
  | window {win : Ptr} (hfresh : win ∉ s.live) (hnormal : Normal m' bs) :
      AllocateCases s bs size m' (some win) none
  | both {win b : Ptr} {bs' : List Block} {v : Block} (h : Allocated s size win b m' bs' v) :
      AllocateCases s bs size m' (some win) (some b)

theorem kmalloc_size_ne_zero {m : Mem} {size p : Nat} (h : kmalloc m size = some (p, m'))
    (hp : p ≠ 0) : size ≠ 0 := by
  rintro rfl
  obtain ⟨rfl, -⟩ := Prod.mk.inj (Option.some.inj h)
  exact hp rfl

theorem allocateWindow_cases (h : s.Inv bs)
    (hr : allocateWindow s.mem x y contentW contentH title = some (m', object, buffer)) :
    AllocateCases s bs (u32 (contentW * contentH * 4)) m' object buffer := by
  obtain ⟨⟨win, m₁⟩, hwin, hr⟩ := Option.bind_eq_some_iff.mp hr
  dsimp only at hr
  split at hr
  · next hnull =>
      obtain ⟨rfl, hpair⟩ := Prod.mk.inj (Option.some.inj hr)
      obtain ⟨rfl, rfl⟩ := Prod.mk.inj hpair
      rcases h.kmalloc_cases hwin with ⟨-, rfl⟩ | ⟨_, _, _, _, _, _, _, _, hp, _⟩
      · exact .neither rfl
      · rw [hnull] at hp
        unfold headerSize at hp
        omega
  · next hne =>
      obtain ⟨bs₁, w, htaken⟩ := h.kmalloc_taken hwin hne
      have hfresh := Taken.fresh htaken
      have hfields : HeapSys.Inv ⟨storeFields m₁ win x y contentW contentH title, win :: s.live⟩
          bs₁ := inv_congr_window htaken htaken.inv htaken.block fun i hi => storeFields_outside hi
      obtain ⟨⟨b, m₂⟩, hbuffer, hr⟩ := Option.bind_eq_some_iff.mp hr
      dsimp only at hr
      -- the store of the pointer to the buffer is inside the window
      have hpointer : ∀ {live : List Nat} {bs₂ : List Block}, HeapSys.Inv ⟨m₂, live⟩ bs₂ →
          (win - headerSize, w) ∈ allocated heapStart bs₂ →
          HeapSys.Inv ⟨store32 m₂ (win + 68) b, live⟩ bs₂ := by
        intro live bs₂ hinv hblock
        apply inv_congr_window htaken hinv hblock
        intro i hi
        unfold sizeofWindow at hi
        exact store32_of_outside (by omega)
      split at hr
      · next hnull =>
          obtain ⟨rfl, hpair⟩ := Prod.mk.inj (Option.some.inj hr)
          obtain ⟨rfl, rfl⟩ := Prod.mk.inj hpair
          have hsame : m₂ = storeFields m₁ win x y contentW contentH title := by
            rcases hfields.kmalloc_cases hbuffer with ⟨-, heq⟩ | ⟨_, _, _, _, _, _, _, _, hp, _⟩
            · exact heq
            · rw [hnull] at hp
              unfold headerSize at hp
              omega
          rw [← hsame] at hfields
          exact .window hfresh (htaken.undo _ (hpointer hfields htaken.block).rep)
      · next hb =>
          obtain ⟨rfl, hpair⟩ := Prod.mk.inj (Option.some.inj hr)
          obtain ⟨rfl, rfl⟩ := Prod.mk.inj hpair
          obtain ⟨bs₂, v, htaken₂⟩ := hfields.kmalloc_taken hbuffer hb
          refine .both ⟨hpointer htaken₂.inv (htaken₂.keeps _ htaken.block), htaken₂.block,
            htaken₂.fits, kmalloc_size_ne_zero hbuffer hb, ⟨hne, hfresh⟩, hb, ?_⟩
          exact Taken.fresh htaken₂

/-- The allocations always return. -/
theorem exists_allocateWindow (h : s.Inv bs) (x y : Int) (contentW contentH : Nat)
    (title : CStr) : ∃ r, allocateWindow s.mem x y contentW contentH title = some r := by
  obtain ⟨⟨win, m₁⟩, hwin⟩ := h.rep.kmalloc_returns sizeofWindow
  by_cases hne : win = 0
  · exact ⟨_, by simp only [allocateWindow, hwin, Option.bind_eq_bind, Option.bind_some, hne]; rfl⟩
  · obtain ⟨bs₁, w, htaken⟩ := h.kmalloc_taken hwin hne
    have hfields : HeapSys.Inv ⟨storeFields m₁ win x y contentW contentH title, win :: s.live⟩
        bs₁ := inv_congr_window htaken htaken.inv htaken.block fun i hi => storeFields_outside hi
    obtain ⟨⟨b, m₂⟩, hbuffer⟩ := hfields.rep.kmalloc_returns (u32 (contentW * contentH * 4))
    simp only [allocateWindow, hwin, Option.bind_eq_bind, Option.bind_some, if_neg hne, hbuffer]
    split <;> exact ⟨_, rfl⟩

theorem Allocated.blockWords_eq {size win b : Nat} {v : Block}
    (h : Allocated s size win b m' bs' v) :
    blockWords m' b = (v.size - 8) / 4 ∧ v.size ≤ 0x40000 := by
  obtain ⟨heq, hle⟩ := blockSize_of_allocated h.inv.rep h.block
  unfold blockWords
  rw [heq]
  exact ⟨rfl, hle⟩

/-- The block of the buffer has room for the exact product when the size in bytes and its tags do
not wrap around. -/
theorem Allocated.product_le_iff {win b : Nat} {v : Block}
    (h : Allocated s (u32 (contentW * contentH * 4)) win b m' bs' v) :
    contentW * contentH ≤ blockWords m' b ↔ 4 * (contentW * contentH) + 16 ≤ 2 ^ 32 := by
  obtain ⟨hwords, hsize⟩ := h.blockWords_eq
  rw [hwords]
  constructor
  · intro hle
    omega
  · intro hfits
    have hne := h.size
    have heq : u32 (contentW * contentH * 4) = contentW * contentH * 4 := u32_of_lt (by omega)
    have hneed := h.fits
    rw [heq] at hne hneed
    have hlow := @Heap.le_needSize (contentW * contentH * 4) (by omega) (by omega)
    omega

end Allocate

/-! ## What the drawing functions need -/

/-- A call on a window of this size leaves the words of its buffer from an index on as they
are. -/
def StaysBelow (contentW contentH words : Nat) (call : State → Option Ptr → Option State) : Prop :=
  ∀ g win w old, g.heap win = some w → w.contentW = contentW → w.contentH = contentH →
    w.buffer = some old → ∃ g' w' new, call g (some win) = some g' ∧ g'.heap win = some w' ∧
      w'.buffer = some new ∧ ∀ i, words ≤ i → new i = old i

/-- A buffer of this many words is as large as the drawing functions assume. -/
structure HoldsContent (contentW contentH words : Nat) : Prop where
  product : contentW * contentH ≤ words
  fill : u32 (contentW * contentH) ≤ words
  putpixel : ∀ px py c, StaysBelow contentW contentH words fun g win => wmPutpixel g win px py c
  content : ∀ (fb : Framebuffer) (w : Window) (b b' : Nat → Nat), w.contentW = contentW →
    w.contentH = contentH → (∀ i < words, b i = b' i) → drawWindowContent fb { w with buffer := some b } =
      drawWindowContent fb { w with buffer := some b' }
  putchar : ∀ ch px py fg bg, px + fontCharWidth ≤ contentW → py + fontCharHeight ≤ contentH →
    StaysBelow contentW contentH words fun g win => wmPutchar g win ch px py fg bg
  fillRect : ∀ rx ry rw rh c, rx + rw ≤ contentW → ry + rh ≤ contentH →
    StaysBelow contentW contentH words fun g win => wmFillRect g win rx ry rw rh c

section Holds

variable {contentW contentH words : Nat}

/-- What stores only to cells stays below the product of the sides. -/
theorem DrawsInBuffer.staysBelow {call : State → Option Ptr → Option State}
    {region : Nat → Nat → Prop} {value : Nat → Nat → Nat}
    (h : DrawsInBuffer contentW contentH call region value)
    (hregion : ∀ x y, region x y → x < contentW ∧ y < contentH)
    (hwords : contentW * contentH ≤ words) : StaysBelow contentW contentH words call := by
  intro g win w old hw hwidth hheight hold
  obtain ⟨g', w', new, hcall, hw', hnew, -, hdrawn⟩ := h g win w old hw hwidth hheight hold
  refine ⟨g', w', new, hcall, hw', hnew, ?_⟩
  intro i hi
  apply hdrawn.outside
  intro x y hin
  obtain ⟨hx, hy⟩ := hregion x y hin
  have hcell := cell_lt hx hy
  omega

theorem performs_wmPutpixel (contentW contentH px py : Nat) (c : Color) :
    Performs (fun g win => wmPutpixel g win px py c) contentW contentH
      (if px ≥ contentW ∨ py ≥ contentH then []
        else [(u32 (py * contentW + px), colorToPixel c)]) := by
  intro g win w old hw hwidth hheight hold
  subst hwidth hheight
  simp only [wmPutpixel, hw, Option.bind_eq_bind, Option.bind_some, hold, Option.isNone_some,
    Bool.false_eq_true, if_false]
  split
  · exact performs_nil hw hold
  · exact exists_draw_perform hw hold _

theorem staysBelow_putpixel (hwords : contentW * contentH ≤ words)
    (hproduct : contentW * contentH < 2 ^ 32) (px py : Nat) (c : Color) :
    StaysBelow contentW contentH words fun g win => wmPutpixel g win px py c := by
  intro g win w old hw hwidth hheight hold
  obtain ⟨g', w', hcall, hw', hnew, -⟩ :=
    performs_wmPutpixel contentW contentH px py c g win w old hw hwidth hheight hold
  refine ⟨g', w', _, hcall, hw', hnew, ?_⟩
  intro i hi
  split
  · rfl
  · next hin =>
      push Not at hin
      have hcell := cell_lt hin.1 hin.2
      rw [u32_of_lt (by omega)]
      exact Function.update_of_ne (by omega) ..

theorem HoldsContent.of_product (hpos : 1 ≤ contentW ∧ 1 ≤ contentH)
    (hproduct : 4 * (contentW * contentH) ≤ 2 ^ 32) (hwords : contentW * contentH ≤ words) :
    HoldsContent contentW contentH words where
  product := hwords
  fill := by
    rw [u32_of_lt (by omega)]
    exact hwords
  putpixel := staysBelow_putpixel hwords (by omega)
  content := by
    intro fb w b b' hwidth hheight heq
    subst hwidth hheight
    unfold drawWindowContent
    apply List.flatMap_congr
    intro ry hry
    apply List.flatMap_congr
    intro rx hrx
    have hcell := cell_lt (List.mem_range.mp hrx) (List.mem_range.mp hry)
    dsimp only at hcell ⊢
    rw [u32_of_lt (by omega), heq _ (by omega)]
  putchar := by
    intro ch px py fg bg hx hy
    have hwidth : contentW ≤ contentW * contentH := Nat.le_mul_of_pos_right _ hpos.2
    have hheight : contentH ≤ contentW * contentH := Nat.le_mul_of_pos_left _ hpos.1
    refine ((putchar_iff hpos hproduct).mpr (.inl ⟨by omega, by omega⟩)).staysBelow ?_ hwords
    intro x y hin
    unfold CharCell at hin
    omega
  fillRect := by
    intro rx ry rw rh c hx hy
    have hwidth : contentW ≤ contentW * contentH := Nat.le_mul_of_pos_right _ hpos.2
    have hheight : contentH ≤ contentW * contentH := Nat.le_mul_of_pos_left _ hpos.1
    have hwrap : NoWrap contentW contentH rx ry rw rh :=
      .inr (.inr (.inr (.inr ⟨by omega, by omega⟩)))
    refine ((fillRect_iff hpos hproduct (by omega) (by omega)).mpr hwrap).staysBelow ?_ hwords
    intro x y hin
    exact ⟨hin.1.2.2, hin.2.2.2⟩

end Holds

/-- A window is returned only if both allocations have succeeded. -/
theorem wmCreateWindow_some {fuel : Nat} {g g' : State} {x y : Int} {contentW contentH : Nat}
    {title : CStr} {object : Option Ptr} {buffer : Option (Nat → Nat)} {win : Ptr}
    (h : wmCreateWindow fuel g x y contentW contentH title object buffer = some (g', some win)) :
    object = some win ∧ buffer.isSome = true := by
  unfold wmCreateWindow at h
  split at h
  · cases h
  split at h
  · cases h
  split at h
  · cases h
  · obtain ⟨z, -, h⟩ := Option.bind_eq_some_iff.mp h
    obtain ⟨g₁, -, h⟩ := Option.bind_eq_some_iff.mp h
    obtain ⟨g₂, -, h⟩ := Option.bind_eq_some_iff.mp h
    obtain ⟨g₃, -, h⟩ := Option.bind_eq_some_iff.mp h
    obtain ⟨-, hwin⟩ := Prod.mk.inj (Option.some.inj h)
    exact ⟨hwin, rfl⟩

theorem createWindow_some {fuel : Nat} {m m' : Mem} {g g' : State} {x y : Int}
    {contentW contentH : Nat} {title : CStr} {win : Ptr}
    (h : createWindow fuel m g x y contentW contentH title = some (m', g', some win)) :
    ∃ m₁ b, allocateWindow m x y contentW contentH title = some (m₁, some win, some b) := by
  unfold createWindow at h
  split at h
  · cases h
  · obtain ⟨⟨m₁, object, buffer⟩, halloc, h⟩ := Option.bind_eq_some_iff.mp h
    obtain ⟨⟨g₁, p⟩, hcreate, h⟩ := Option.bind_eq_some_iff.mp h
    have hp : p = some win := by
      cases buffer with
      | none => exact (Prod.mk.inj (Prod.mk.inj (Option.some.inj h)).2).2
      | some b => exact (Prod.mk.inj (Prod.mk.inj (Option.some.inj h)).2).2
    subst hp
    obtain ⟨rfl, hbuffer⟩ := wmCreateWindow_some hcreate
    cases buffer with
    | none => cases hbuffer
    | some b => exact ⟨m₁, b, halloc⟩

/-- The window manager after `wm_init`, on the screen of the boot loader. -/
def bootGui : State := wmInit (State.boot bootScreen fun _ => 0)

/-- A call right after `kmalloc_init` that returns a window. -/
theorem exists_createWindow {contentW contentH : Nat} {p : Ptr}
    (h : ((createWindow 16 (Heap.kmallocInit fun _ => 0) bootGui 0 0 contentW contentH
      CStr.empty).any fun r => r.2.2 == some p) = true) :
    ∃ m' g', createWindow 16 (HeapSys.boot fun _ => 0).mem bootGui 0 0 contentW contentH
      CStr.empty = some (m', g', some p) := by
  cases hcreate : createWindow 16 (Heap.kmallocInit fun _ => 0) bootGui 0 0 contentW contentH
      CStr.empty with
  | none => simp [hcreate] at h
  | some r =>
      obtain ⟨m', g', win⟩ := r
      have hwin : win = some p := by simpa [hcreate] using h
      exact ⟨m', g', hwin ▸ hcreate⟩

end SRos.Gui
