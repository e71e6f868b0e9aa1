import SRos.Heap.Fit
import SRos.Heap.Structure

/-!
# What an allocation gives to its caller

The size that is asked for is rounded up in 32-bit arithmetic. For the last fifteen sizes the
sum of the rounded size and the two tags wraps around, and a block of sixteen bytes is returned.
-/

namespace SRos.Heap

open Bytes Tiling

/-- The heap, and the size that each live pointer was asked for with. -/
structure HeapUse where
  heap : HeapSys
  size : Nat → Nat

namespace HeapUse

def boot (m : Mem) : HeapUse := ⟨.boot m, fun _ => 0⟩

def step (s : HeapUse) (act : HeapAct) : Option HeapUse :=
  (s.heap.step act).map fun heap =>
    match act with
    | .kmalloc size =>
        ⟨heap, match kmalloc s.heap.mem size with
          | some (p, _) => Function.update s.size p size
          | none => s.size⟩
    | _ => ⟨heap, s.size⟩

end HeapUse

/-- Every block of the heap is allocated. -/
def HeapFull (m : Mem) : Prop :=
  ∀ hdr, Visited m hdr → blockSize m hdr ≠ 0 → blockIsAlloc m hdr = true

/-- The ranges `[a, a + n)` and `[b, b + k)` have no byte in common. -/
def Apart (a n b k : Nat) : Prop := ∀ x, ¬ ((a ≤ x ∧ x < a + n) ∧ b ≤ x ∧ x < b + k)

/-- The caller of `kmalloc(size)` has been given the bytes from `p` on, in the memory `m`. -/
structure Granted (s : HeapUse) (size p : Nat) (m : Mem) : Prop where
  inside : 0x200000 ≤ p ∧ p + size ≤ 0x240000
  headers : ∀ hdr, Visited m hdr → Apart p size hdr 4
  footers : ∀ hdr, Visited m hdr → blockSize m hdr ≠ 0 →
    Apart p size (hdr + blockSize m hdr - 4) 4
  others : ∀ q ∈ s.heap.live, Apart p size q (s.size q)

/-- The steps whose sizes do not wrap around. -/
def HeapUse.fits (s : HeapUse) (act : HeapAct) : Prop :=
  s.heap.ok act ∧ ∀ size, act = .kmalloc size → size ≤ 0xFFFFFFF0 ∨ HeapFull s.heap.mem

section Request

variable {m : Mem} {s s' : HeapUse} {bs pre post : List Block} {size : Nat}

/-- Every live pointer has a block with room for its size. -/
structure HeapUse.Inv (s : HeapUse) (bs : List Block) : Prop where
  heap : s.heap.Inv bs
  room : ∀ x ∈ allocated heapStart bs, s.size (x.1 + headerSize) + 8 ≤ x.2.size

theorem le_needSize (hpos : 1 ≤ size) (hsize : size ≤ 0xFFFFFFF0) : size + 8 ≤ needSize size := by
  rw [needSize_eq hpos hsize]
  unfold roundUp8
  omega

theorem needSize_wrap (hlow : 0xFFFFFFF0 < size) (hhigh : size < 2 ^ 32) : needSize size = 16 := by
  have hround : u32 (size + align - 1) &&& 0xFFFFFFF8 = 0xFFFFFFF8 ∨
      u32 (size + align - 1) &&& 0xFFFFFFF8 = 0 := by
    rw [and_size (u32_lt _)]
    unfold u32 align
    omega
  unfold needSize
  rcases hround with heq | heq
  · simp only [heq]
    decide
  · simp only [heq]
    decide

theorem Rep.heapFull_iff (h : Rep m bs) : HeapFull m ↔ ∀ b ∈ bs, b.alloc = true := by
  constructor
  · intro hfull b hb
    obtain ⟨pre, post, rfl⟩ := List.append_of_mem hb
    have hsize := b.sixteen_le
    have hvisited := h.visited_iff.mpr (.inr ⟨b, mem_placed_iff.mpr ⟨pre, post, rfl, rfl⟩⟩)
    have halloc := hfull _ hvisited (by rw [h.blockSize_eq]; omega)
    rwa [h.blockIsAlloc_eq] at halloc
  · intro hall hdr hvisited hne
    rcases h.visited_iff.mp hvisited with rfl | ⟨b, hb⟩
    · exact absurd h.blockSize_end (by rwa [h.filled])
    · obtain ⟨pre, post, rfl, rfl⟩ := mem_placed_iff.mp hb
      rw [h.blockIsAlloc_eq]
      exact hall b (by simp)

theorem HeapUse.boot_inv (m : Mem) : (HeapUse.boot m).Inv [Block.initial] where
  heap := HeapSys.boot_inv m
  room := by simp [allocated, Block.initial]

/-- The new block is at none of the addresses of the others. -/
theorem allocated_around {b : Block} {y : Nat × Block} {a : Nat}
    (hy : y ∈ allocated a pre ++ allocated (a + total Block.size pre + b.size) post) :
    y.1 ≠ a + total Block.size pre := by
  have hsize := b.sixteen_le
  rcases List.mem_append.mp hy with hy | hy
  · have hrange := allocated_range hy
    omega
  · have hrange := allocated_range hy
    omega

theorem HeapUse.Inv.kmalloc (h : s.Inv bs) (hfits : s.fits (.kmalloc size))
    (hs : s.step (.kmalloc size) = some s') : ∃ bs', s'.Inv bs' := by
  obtain ⟨heap, hheap, rfl⟩ := Option.map_eq_some_iff.mp hs
  obtain ⟨⟨p, m'⟩, hr, rfl⟩ := Option.map_eq_some_iff.mp hheap
  dsimp only
  rw [hr]
  rcases h.heap.kmalloc_cases hr with ⟨rfl, rfl⟩ |
    ⟨pre, b, post, x, bs', hne, rfl, hfree, hp, hx, hle, hinv, halloc⟩
  · refine ⟨bs, h.heap, ?_⟩
    intro y hy
    dsimp only
    rw [Function.update_of_ne (by unfold headerSize; omega)]
    exact h.room y hy
  · have hp₀ : p ≠ 0 := by
      rw [hp]
      unfold headerSize
      omega
    rw [if_neg hp₀]
    refine ⟨bs', hinv, ?_⟩
    have hsmall : size ≤ 0xFFFFFFF0 := by
      rcases hfits.2 size rfl with hsmall | hfull
      · exact hsmall
      · have hall := h.heap.rep.heapFull_iff.mp hfull b (by simp)
        rw [hfree] at hall
        cases hall
    have hneed := le_needSize (by omega) hsmall
    have hold := h.room
    rw [allocated_append, allocated_cons_free hfree] at hold
    rw [halloc]
    intro y hy
    dsimp only
    rw [List.mem_append, List.mem_cons] at hy
    by_cases hyx : y = (heapStart + total Block.size pre, x)
    · rw [hyx, hp, Function.update_self]
      exact hneed.trans hle
    · have hmem : y ∈ allocated heapStart pre ++
          allocated (heapStart + total Block.size pre + b.size) post := by
        rw [List.mem_append]
        simpa [hyx] using hy
      have hother := allocated_around hmem
      rw [hp, Function.update_of_ne (by omega)]
      exact hold y hmem

theorem HeapUse.Inv.step {act : HeapAct} (h : s.Inv bs) (hfits : s.fits act)
    (hs : s.step act = some s') : ∃ bs', s'.Inv bs' := by
  cases act with
  | kmalloc size => exact h.kmalloc hfits hs
  | kfree ptr =>
      obtain rfl := Option.some.inj hs
      obtain ⟨bs', hinv, hsub⟩ := h.heap.kfree hfits.1
      exact ⟨bs', hinv, fun x hx => h.room x (hsub hx)⟩
  | write addr byte =>
      obtain rfl := Option.some.inj hs
      exact ⟨bs, ⟨h.heap.rep.update_payload hfits.1 byte, h.heap.canonical, h.heap.live⟩, h.room⟩

theorem HeapUse.exists_inv (h : Reach HeapUse.step HeapUse.fits (HeapUse.boot m) s) :
    ∃ bs, s.Inv bs := by
  apply h.invariant ⟨_, HeapUse.boot_inv m⟩
  intro s a s' hinv hfits hs
  obtain ⟨bs, hbs⟩ := hinv
  exact hbs.step hfits hs

/-- Bytes strictly inside a block are in no tag. -/
theorem Rep.apart_tags {a p : Nat} {b : Block} (h : Rep m bs)
    (hb : (a, b) ∈ placed Block.size heapStart bs) (hp : p = a + 4) (hsize : size + 8 ≤ b.size) :
    (∀ hdr, Visited m hdr → Apart p size hdr 4) ∧
      ∀ hdr, Visited m hdr → blockSize m hdr ≠ 0 →
        Apart p size (hdr + blockSize m hdr - 4) 4 := by
  have hrange := placed_range hb
  rw [h.filled] at hrange
  constructor
  · rintro hdr hvisited x ⟨hx, hx'⟩
    rcases h.visited_iff.mp hvisited with rfl | ⟨c, hc⟩
    · unfold heapEnd at hx'
      omega
    · have hcsize := c.sixteen_le
      obtain ⟨rfl, rfl⟩ := placed_unique (x := x) hb hc (by omega) (by omega)
      omega
  · rintro hdr hvisited hne x ⟨hx, hx'⟩
    rcases h.visited_iff.mp hvisited with rfl | ⟨c, hc⟩
    · exact absurd h.blockSize_end (by rwa [h.filled])
    · have hcsize := c.sixteen_le
      have hload : blockSize m hdr = c.size := blockSize_of_load (h.tags _ hc).header
      rw [hload] at hx'
      obtain ⟨rfl, rfl⟩ := placed_unique (x := x) hb hc (by omega) (by omega)
      omega

/-- A block of the size that is needed holds what has been asked for. -/
theorem HeapUse.Inv.granted {p : Nat} {m' : Mem} (h : s.Inv bs) (hsize : size ≤ 0xFFFFFFF0)
    (hs : Heap.kmalloc s.heap.mem size = some (p, m')) (hp : p ≠ 0) : Granted s size p m' := by
  rcases h.heap.kmalloc_cases hs with ⟨rfl, -⟩ |
    ⟨pre, b, post, x, bs', hne, rfl, hfree, hpos, hx, hle, hinv, halloc⟩
  · exact absurd rfl hp
  · have hneed := le_needSize (by omega) hsize
    have hmem : (heapStart + total Block.size pre, x) ∈ allocated heapStart bs' := by
      rw [halloc]
      simp
    have hplaced := List.mem_of_mem_filter hmem
    have hrange := placed_range hplaced
    rw [hinv.rep.filled] at hrange
    obtain ⟨hheaders, hfooters⟩ := hinv.rep.apart_tags hplaced hpos (hneed.trans hle)
    refine ⟨?_, hheaders, hfooters, ?_⟩
    · unfold heapSize at hrange
      unfold heapStart at hpos hrange
      unfold headerSize at hpos
      omega
    · rintro q hq y ⟨hy, hy'⟩
      have hq' := h.heap.live.mem_iff.mp hq
      rw [pointers_eq] at hq'
      obtain ⟨⟨c, z⟩, hz, rfl⟩ := List.mem_map.mp hq'
      have hroom := h.room _ hz
      dsimp only at hy' hroom
      -- the block of the other pointer is still where it was
      rw [allocated_append, allocated_cons_free hfree] at hz
      have hother := allocated_around hz
      have hmem' : (c, z) ∈ placed Block.size heapStart bs' := by
        apply List.mem_of_mem_filter (p := fun x => x.2.alloc)
        change (c, z) ∈ allocated heapStart bs'
        rw [halloc, List.mem_append, List.mem_cons]
        rcases List.mem_append.mp hz with hz | hz
        · exact .inl hz
        · exact .inr (.inr hz)
      unfold headerSize at hpos hy' hroom
      have hsame := (placed_unique (x := y) hplaced hmem' (by omega) (by omega)).1
      exact hother hsame.symm

/-- For the sizes that wrap around a block of sixteen bytes is returned, if there is a free one. -/
theorem HeapUse.Inv.wrapped (h : s.Inv bs) (hlow : 0xFFFFFFF0 < size) (hhigh : size < 2 ^ 32)
    (hfree : ¬ HeapFull s.heap.mem) :
    ∃ p m', Heap.kmalloc s.heap.mem size = some (p, m') ∧ p ≠ 0 := by
  rw [h.heap.rep.heapFull_iff] at hfree
  rcases h.heap.rep.kmalloc (show size ≠ 0 by omega) with ⟨hnone, -⟩ |
    ⟨pre, b, post, m', -, -, -, hret, -⟩
  · refine absurd ?_ hfree
    intro b hb
    have hnot := hnone b hb
    have hsize := b.sixteen_le
    cases halloc : b.alloc with
    | true => rfl
    | false =>
        refine absurd ⟨halloc, ?_⟩ hnot
        change needSize size ≤ b.size
        rw [needSize_wrap hlow hhigh]
        exact hsize
  · refine ⟨_, m', hret, ?_⟩
    unfold headerSize
    omega

end Request

/-- In every state that is reached from `kmalloc_init` by calls whose sizes do not wrap around: a
call of `kmalloc` that succeeds gives its caller the bytes it asks for, if and only if the size is
at most `0xFFFFFFF0` or there is no free block. -/
theorem HeapUse.granted_iff {m : Mem} {s : HeapUse} {size : Nat}
    (h : Reach HeapUse.step HeapUse.fits (HeapUse.boot m) s) (hpos : 0 < size) (hsize : size < 2 ^ 32) :
    (∀ p m', Heap.kmalloc s.heap.mem size = some (p, m') → p ≠ 0 → Granted s size p m') ↔
      size ≤ 0xFFFFFFF0 ∨ HeapFull s.heap.mem := by
  obtain ⟨bs, hinv⟩ := HeapUse.exists_inv h
  constructor
  · intro hall
    by_contra hnot
    obtain ⟨hlow, hfree⟩ := not_or.mp hnot
    obtain ⟨p, m', hs, hp⟩ := hinv.wrapped (by omega) hsize hfree
    have hinside := (hall p m' hs hp).inside
    omega
  · rintro (hsmall | hfull) p m' hs hp
    · exact hinv.granted hsmall hs hp
    · rcases hinv.heap.kmalloc_cases hs with ⟨rfl, -⟩ |
        ⟨pre, b, post, x, bs', -, rfl, hfree, -⟩
      · exact absurd rfl hp
      · have hall := hinv.heap.rep.heapFull_iff.mp hfull b (by simp)
        rw [hfree] at hall
        cases hall

theorem HeapUse.fits_of_okFirst {s : HeapUse} {act : HeapAct}
    (h : (s.heap.okFirst act && match act with
      | .kmalloc size => decide (size ≤ 0xFFFFFFF0)
      | _ => true) = true) : s.fits act := by
  obtain ⟨hok, hsize⟩ := (Bool.and_eq_true _ _).mp h
  refine ⟨HeapSys.okFirst_ok hok, ?_⟩
  rintro size rfl
  exact .inl (by simpa using hsize)

/-- A state with two live pointers and a free block. -/
theorem HeapUse.exists_two :
    ∃ s, Reach HeapUse.step HeapUse.fits (HeapUse.boot fun _ => 0) s ∧
      s.heap.live = [0x200014, 0x200004] ∧
      (Heap.kmalloc s.heap.mem 50).any (fun r => r.1 == 0x200084) = true := by
  have hrun : ((some (HeapUse.boot fun _ => 0)).bind (runList HeapUse.step
      (fun s act => s.heap.okFirst act && match act with
        | .kmalloc size => decide (size ≤ 0xFFFFFFF0)
        | _ => true)
      [.kmalloc 5, .kmalloc 100, .write 0x200008 7])).any
        (fun s => s.heap.live == [0x200014, 0x200004] &&
          (Heap.kmalloc s.heap.mem 50).any fun r => r.1 == 0x200084) = true := by
    decide +kernel
  obtain ⟨s₀, s, hs₀, hreach, htest⟩ := Reach.exists_of_runList hrun
  obtain rfl := Option.some.inj hs₀
  obtain ⟨hlive, hcall⟩ := (Bool.and_eq_true _ _).mp htest
  exact ⟨s, hreach.mono fun s a => HeapUse.fits_of_okFirst, by simpa using hlive, hcall⟩

theorem HeapUse.granted_fifty :
    ∃ s m', Reach HeapUse.step HeapUse.fits (HeapUse.boot fun _ => 0) s ∧
      Heap.kmalloc s.heap.mem 50 = some (0x200084, m') ∧ Granted s 50 0x200084 m' := by
  obtain ⟨s, hreach, -, hcall⟩ := HeapUse.exists_two
  obtain ⟨⟨p, m'⟩, hs, hp⟩ := (Option.any_eq_true _ _).mp hcall
  obtain rfl : p = 0x200084 := by simpa using hp
  exact ⟨s, m', hreach, hs, (HeapUse.granted_iff hreach (show 0 < 50 by decide) (by decide)).mpr
    (.inl (by decide)) _ m' hs (by decide)⟩

/-- A request for almost all addresses is granted sixteen bytes. -/
theorem HeapUse.not_granted :
    ∃ s p m', Reach HeapUse.step HeapUse.fits (HeapUse.boot fun _ => 0) s ∧
      Heap.kmalloc s.heap.mem 0xFFFFFFFF = some (p, m') ∧ p ≠ 0 ∧
      blockSize m' (p - 4) = 16 ∧ ¬ Granted s 0xFFFFFFFF p m' := by
  have hcall : (Heap.kmalloc (HeapUse.boot fun _ => 0).heap.mem 0xFFFFFFFF).any
      (fun r => r.1 == 0x200004 && blockSize r.2 (r.1 - 4) == 16) = true := by
    decide +kernel
  obtain ⟨⟨p, m'⟩, hs, htest⟩ := (Option.any_eq_true _ _).mp hcall
  obtain ⟨hp, hblock⟩ := (Bool.and_eq_true _ _).mp htest
  obtain rfl : p = 0x200004 := by simpa using hp
  refine ⟨_, _, m', .refl, hs, by decide, by simpa using hblock, fun hgranted => ?_⟩
  have hinside := hgranted.inside
  omega

end SRos.Heap
