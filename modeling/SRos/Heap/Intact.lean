import SRos.Heap.Request

/-!
# The heap under arbitrary calls of `kfree`

`kfree` takes the word in front of its pointer for a header. Of a block that is free already
nothing changes. In front of any other address it reads what is left of blocks that have been
merged, or what is in a payload, and writes over the blocks around it.
-/

namespace SRos.Heap

open Bytes Tiling

/-- The address behind the header of a block of the walk. -/
def BlockPointer (m : Mem) (ptr : Nat) : Prop :=
  ∃ hdr, Visited m hdr ∧ blockSize m hdr ≠ 0 ∧ ptr = hdr + headerSize

/-- The calls with arguments of 32 bits. -/
def HeapSys.okArgs (s : HeapSys) : HeapAct → Prop
  | .kmalloc size => size < 2 ^ 32
  | .kfree ptr => ptr < 2 ^ 32
  | .write addr _ => Payload s.mem addr

/-- The calls that free nothing but blocks. -/
def HeapSys.okBlocks (s : HeapSys) : HeapAct → Prop
  | .kmalloc size => size < 2 ^ 32
  | .kfree ptr => ptr = 0 ∨ BlockPointer s.mem ptr
  | .write addr _ => Payload s.mem addr

/-- The blocks tile the heap, and a block that is handed out next has no byte in common with the
block of a live allocation. -/
structure Intact (s : HeapSys) : Prop where
  tiles : ∃ es totals, kmallocDump s.mem = some (es, totals) ∧ Tiles 0x200000 es 0x240000
  fresh : ∀ size p m', size < 2 ^ 32 → kmalloc s.mem size = some (p, m') → p ≠ 0 →
    ∀ q ∈ s.live, Apart (p - 4) (blockSize m' (p - 4)) (q - 4) (blockSize s.mem (q - 4))

section Intact

variable {m : Mem} {s s' : HeapSys} {bs pre post : List Block} {b : Block} {ptr : Nat}

theorem Rep.blockPointer_iff (h : Rep m bs) : BlockPointer m ptr ↔
    ∃ pre b post, bs = pre ++ b :: post ∧ ptr = heapStart + total Block.size pre + headerSize := by
  constructor
  · intro ⟨hdr, hvisited, hne, hptr⟩
    rcases h.visited_iff.mp hvisited with rfl | ⟨b, hb⟩
    · exact absurd h.blockSize_end (by rwa [h.filled])
    · obtain ⟨pre, post, hbs, rfl⟩ := mem_placed_iff.mp hb
      exact ⟨pre, b, post, hbs, hptr⟩
  · rintro ⟨pre, b, post, rfl, rfl⟩
    have hsize := b.sixteen_le
    refine ⟨_, h.visited_iff.mpr (.inr ⟨b, mem_placed_iff.mpr ⟨pre, post, rfl, rfl⟩⟩), ?_, rfl⟩
    rw [h.blockSize_eq]
    omega

/-- Freeing a block that is free already changes no block. -/
theorem Canonical.release_free (h : Canonical (pre ++ b :: post)) (hfree : b.alloc = false) :
    Heap.release pre b post = pre ++ b :: post := by
  obtain ⟨-, -, hlast, hhead⟩ := canonical_middle.mp h
  have hmark : b.mark false = b := by
    unfold Block.mark
    rw [← hfree]
  have hnext : absorbNext b post = (b, post) := by
    cases post with
    | nil => rfl
    | cons c post => exact absorbNext_alloc ((hhead c rfl).resolve_left (by simp [hfree]))
  have hprev : absorbPrev pre b = pre ++ [b] := by
    rcases List.eq_nil_or_concat pre with rfl | ⟨pre, p, rfl⟩
    · rfl
    · rw [List.concat_eq_append] at hlast ⊢
      exact absorbPrev_alloc ((hlast p (by simp)).resolve_right (by simp [hfree]))
  unfold Heap.release
  rw [hmark, hnext, hprev, List.append_assoc, List.singleton_append]

theorem HeapSys.Inv.kfree_block (h : s.Inv bs) (hptr : BlockPointer s.mem ptr) :
    ∃ bs', HeapSys.Inv ⟨Heap.kfree s.mem ptr, s.live.erase ptr⟩ bs' := by
  by_cases hlive : ptr ∈ s.live
  · obtain ⟨bs', hinv, -⟩ := h.kfree (Or.inr hlive)
    exact ⟨bs', hinv⟩
  · obtain ⟨pre, b, post, rfl, rfl⟩ := h.rep.blockPointer_iff.mp hptr
    have hfree : b.alloc = false := by
      by_contra halloc
      exact hlive (h.live.mem_iff.mpr
        (mem_pointers_iff.mpr ⟨pre, b, post, rfl, Bool.not_eq_false _ ▸ halloc, rfl⟩))
    have hrep := h.rep.kfree
    rw [h.canonical.release_free hfree] at hrep
    rw [List.erase_of_not_mem hlive]
    generalize heapStart + total Block.size pre + headerSize = ptr at hrep
    exact ⟨_, hrep, h.canonical, h.live⟩

theorem HeapSys.Inv.step_block {act : HeapAct} (h : s.Inv bs) (hok : s.okBlocks act)
    (hs : s.step act = some s') : ∃ bs', s'.Inv bs' := by
  cases act with
  | kmalloc size => exact h.kmalloc hs
  | kfree ptr =>
      obtain rfl := Option.some.inj hs
      rcases hok with rfl | hptr
      · obtain ⟨bs', hinv, -⟩ := h.kfree (Or.inl rfl)
        exact ⟨bs', hinv⟩
      · exact h.kfree_block hptr
  | write addr byte =>
      have hpayload : s.ok (.write addr byte) := hok
      exact h.step hpayload hs

/-- The block of a live pointer. -/
theorem HeapSys.Inv.mem_allocated {q : Nat} (h : s.Inv bs) (hq : q ∈ s.live) :
    ∃ z, (q - 4, z) ∈ allocated heapStart bs ∧ blockSize s.mem (q - 4) = z.size := by
  have hq' := h.live.mem_iff.mp hq
  rw [pointers_eq] at hq'
  obtain ⟨⟨c, z⟩, hz, rfl⟩ := List.mem_map.mp hq'
  exact ⟨z, hz, blockSize_of_load (h.rep.tags _ (List.mem_of_mem_filter hz)).header⟩

theorem HeapSys.Inv.intact (h : s.Inv bs) : Intact s := by
  refine ⟨?_, ?_⟩
  · obtain ⟨totals, hdump⟩ := h.rep.kmallocDump
    have htiles := tiles_placed heapStart bs
    rw [h.rep.filled] at htiles
    exact ⟨_, totals, hdump, htiles⟩
  · intro size p m' _ hs hp q hq x ⟨hx, hx'⟩
    obtain ⟨bs', y, htaken⟩ := h.kmalloc_taken hs hp
    obtain ⟨z, hz, hsize⟩ := h.mem_allocated hq
    have hplaced := List.mem_of_mem_filter htaken.block
    have hplaced' := List.mem_of_mem_filter (htaken.keeps _ hz)
    have hsize' : blockSize m' (p - 4) = y.size :=
      blockSize_of_load (htaken.inv.rep.tags _ hplaced).header
    rw [hsize'] at hx
    rw [hsize] at hx'
    have hsame := (placed_unique hplaced hplaced' hx hx').1
    have hlow := htaken.low
    have hq' := h.live.mem_iff.mp hq
    obtain ⟨pre, b, post, -, -, hpos⟩ := mem_pointers_iff.mp hq'
    have hnodup := htaken.inv.live.nodup_iff.mpr (nodup_pointers heapStart bs')
    refine (List.nodup_cons.mp hnodup).1 ?_
    unfold headerSize at hlow hsame hpos
    rwa [show p = q by omega]

end Intact

/-- In every run from `kmalloc_init` on, of calls with arbitrary sizes that free nothing but blocks
of the heap, allocated or free, and with writes inside the blocks: the blocks tile the heap, and no
block of a live allocation is handed out again. -/
theorem HeapSys.intact_of_blocks {m : Mem} {s : HeapSys}
    (h : Reach HeapSys.step HeapSys.okBlocks (HeapSys.boot m) s) : Intact s := by
  obtain ⟨bs, hinv⟩ : ∃ bs, s.Inv bs := by
    apply h.invariant ⟨_, HeapSys.boot_inv m⟩
    intro s a s' hinv hok hs
    obtain ⟨bs, hbs⟩ := hinv
    exact hbs.step_block hok hs
  exact hinv.intact

/-- The calls, and the frees of the first block. -/
def HeapSys.okFirstBlock (s : HeapSys) : HeapAct → Bool
  | .kmalloc size => size < 2 ^ 32
  | .kfree ptr => ptr == heapStart + headerSize && blockSize s.mem heapStart != 0
  | .write _ _ => false

theorem HeapSys.okFirstBlock_ok {s : HeapSys} {act : HeapAct} (h : s.okFirstBlock act = true) :
    s.okBlocks act := by
  cases act with
  | kmalloc size => simpa [okFirstBlock, okBlocks] using h
  | kfree ptr =>
      simp only [okFirstBlock, Bool.and_eq_true, beq_iff_eq, bne_iff_ne] at h
      exact .inr ⟨heapStart, .start, h.2, h.1⟩
  | write addr byte => simp [okFirstBlock] at h

/-- A block that is freed twice while the block behind it is allocated. -/
theorem HeapSys.intact_of_blocks_twice :
    ∃ s, Reach HeapSys.step HeapSys.okBlocks (HeapSys.boot fun _ => 0) s ∧
      s.live = [0x200014] ∧ Intact s := by
  have hrun : ((some (HeapSys.boot fun _ => 0)).bind (runList HeapSys.step HeapSys.okFirstBlock
      [.kmalloc 8, .kmalloc 8, .kfree 0x200004, .kfree 0x200004])).any
        (fun s => s.live == [0x200014]) = true := by
    decide +kernel
  obtain ⟨s₀, s, hs₀, hreach, hlive⟩ := Reach.exists_of_runList hrun
  obtain rfl := Option.some.inj hs₀
  have hok := hreach.mono fun s a => HeapSys.okFirstBlock_ok
  exact ⟨s, hok, by simpa using hlive, HeapSys.intact_of_blocks hok⟩

/-- A block that is freed twice while it is merged with the block in front of it: the header of
the first block gets a size that leads out of the heap. -/
theorem HeapSys.not_intact_twice :
    ∃ s, Reach HeapSys.step HeapSys.okArgs (HeapSys.boot fun _ => 0) s ∧ ¬ Intact s := by
  have hrun : ((some (HeapSys.boot fun _ => 0)).bind (runList HeapSys.step
      (fun _ act => match act with
        | .kmalloc size => decide (size < 2 ^ 32)
        | .kfree ptr => decide (ptr < 2 ^ 32)
        | .write _ _ => false)
      [.kmalloc 8, .kmalloc 8, .kfree 0x200004, .kfree 0x200014, .kfree 0x200014])).any
        (fun s => (kmallocDump s.mem).any fun r => r.1 == [⟨0x200000, 0x7FFF0, false⟩]) = true := by
    decide +kernel
  obtain ⟨s₀, s, hs₀, hreach, htest⟩ := Reach.exists_of_runList hrun
  obtain rfl := Option.some.inj hs₀
  refine ⟨s, hreach.mono fun s act hok => ?_, fun hintact => ?_⟩
  · cases act with
    | kmalloc size => exact (of_decide_eq_true hok : size < 2 ^ 32)
    | kfree ptr => exact (of_decide_eq_true hok : ptr < 2 ^ 32)
    | write addr byte => cases hok
  · obtain ⟨es, totals, hdump, htiles⟩ := hintact.tiles
    rw [hdump] at htest
    obtain rfl : es = [⟨0x200000, 0x7FFF0, false⟩] := by simpa using htest
    exact absurd htiles.2 (by unfold Tiles; decide)

end SRos.Heap
