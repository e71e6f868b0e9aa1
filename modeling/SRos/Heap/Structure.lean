import SRos.Heap.Invariant

/-!
# The block structure does not depend on the history

A block list without free neighbours is determined by its allocated blocks. So are the lines of
the heap dump, in whatever order blocks have been allocated and freed.
-/

namespace SRos.Heap

open Bytes Tiling

/-- The addresses, sizes and flags of the blocks. -/
def blockStructure (m : Mem) : Option (List Entry) := (kmallocDump m).map Prod.fst

section Structure

variable {m : Mem} {a : Nat} {b : Block} {bs pre post : List Block}

theorem Rep.blockStructure (h : Rep m bs) :
    blockStructure m = some ((placed Block.size heapStart bs).map Block.entry) := by
  obtain ⟨totals, hdump⟩ := h.kmallocDump
  rw [Heap.blockStructure, hdump]
  rfl

/-- A heap of blocks without free neighbours. -/
structure Normal (m : Mem) (bs : List Block) : Prop where
  rep : Rep m bs
  canonical : Canonical bs

theorem Normal.eq {m' : Mem} {cs : List Block} (h : Normal m bs) (h' : Normal m' cs)
    (heq : allocated heapStart bs = allocated heapStart cs) : bs = cs :=
  h.canonical.eq_of_allocated h'.canonical (h.rep.filled.trans h'.rep.filled.symm) heq

theorem allocated_range {x : Nat × Block} (h : x ∈ allocated a bs) :
    a ≤ x.1 ∧ x.1 < a + total Block.size bs := by
  have hrange := placed_range (c := x.1) (b := x.2) (List.mem_of_mem_filter h)
  have hsize := x.2.sixteen_le
  omega

/-- Freeing a block takes it out of the allocated blocks. -/
theorem allocated_release_erase (halloc : b.alloc = true) :
    allocated a (release pre b post) = (allocated a (pre ++ b :: post)).eraseP
      fun x => x.1 + headerSize == a + total Block.size pre + headerSize := by
  rw [allocated_release, allocated_middle halloc, List.eraseP_append_right, List.eraseP_cons_of_pos]
  · simp
  · intro x hx
    have hrange := allocated_range hx
    simp only [beq_iff_eq]
    omega

theorem Normal.kfree {p : Nat} (h : Normal m bs) (hp : p ∈ pointers heapStart bs) :
    ∃ bs', Normal (Heap.kfree m p) bs' ∧ allocated heapStart bs' =
      (allocated heapStart bs).eraseP fun x => x.1 + headerSize == p := by
  obtain ⟨pre, b, post, rfl, halloc, rfl⟩ := mem_pointers_iff.mp hp
  exact ⟨release pre b post, ⟨h.rep.kfree, h.canonical.release⟩, allocated_release_erase halloc⟩

/-- Another pointer is still one of an allocated block. -/
theorem mem_pointers_kfree {p q : Nat} {bs' : List Block} (hpq : p ≠ q)
    (heq : allocated heapStart bs' =
      (allocated heapStart bs).eraseP fun x => x.1 + headerSize == p)
    (hq : q ∈ pointers heapStart bs) : q ∈ pointers heapStart bs' := by
  rw [pointers_eq] at hq ⊢
  obtain ⟨x, hx, rfl⟩ := List.mem_map.mp hq
  rw [heq]
  refine List.mem_map.mpr ⟨x, ?_, rfl⟩
  exact (List.mem_eraseP_of_neg (by simpa using hpq.symm)).mpr hx

/-- What a call of `kmalloc` that returns a block has done. -/
structure Taken (s : HeapSys) (bs : List Block) (size p : Nat) (m' : Mem) (bs' : List Block)
    (x : Block) : Prop where
  inv : HeapSys.Inv ⟨m', p :: s.live⟩ bs'
  block : (p - headerSize, x) ∈ allocated heapStart bs'
  fits : needSize size ≤ x.size
  low : heapStart + headerSize ≤ p
  keeps : ∀ y ∈ allocated heapStart bs, y ∈ allocated heapStart bs'
  undo : ∀ m'', Rep m'' bs' → Normal (Heap.kfree m'' p) bs

/-- A block that is allocated and freed again is free as it was, whatever has been written inside
the blocks in between. -/
theorem HeapSys.Inv.kmalloc_taken {s : HeapSys} {size p : Nat} {m' : Mem} (h : s.Inv bs)
    (hs : Heap.kmalloc s.mem size = some (p, m')) (hp : p ≠ 0) :
    ∃ bs' x, Taken s bs size p m' bs' x := by
  rcases h.kmalloc_cases hs with ⟨rfl, -⟩ |
    ⟨pre, b, post, x, bs', -, rfl, hfree, hpos, -, hle, hinv, halloc⟩
  · exact absurd rfl hp
  · have hold : allocated heapStart (pre ++ b :: post) = allocated heapStart pre ++
        allocated (heapStart + total Block.size pre + b.size) post := by
      rw [allocated_append, allocated_cons_free hfree]
    have haddr : p - headerSize = heapStart + total Block.size pre := by
      rw [hpos, Nat.add_sub_cancel]
    refine ⟨bs', x, hinv, ?_, hle, by omega, ?_, ?_⟩
    · rw [haddr, halloc]
      exact List.mem_append_right _ List.mem_cons_self
    · intro y hy
      rw [hold] at hy
      rw [halloc]
      rcases List.mem_append.mp hy with hy | hy
      · exact List.mem_append_left _ hy
      · exact List.mem_append_right _ (List.mem_cons_of_mem _ hy)
    · intro m'' hrep
      have hlive : p ∈ pointers heapStart bs' := hinv.live.mem_iff.mp List.mem_cons_self
      obtain ⟨bs₂, h₂, heq⟩ := Normal.kfree ⟨hrep, hinv.canonical⟩ hlive
      have hsame : bs₂ = pre ++ b :: post := by
        apply h₂.eq ⟨h.rep, h.canonical⟩
        rw [heq, halloc, List.eraseP_append_right, List.eraseP_cons_of_pos, hold]
        · simp [hpos]
        · intro y hy
          have hrange := allocated_range hy
          simp only [beq_iff_eq]
          omega
      rwa [hsame] at h₂

theorem Normal.kfree_all {ps : List Nat} (h : Normal m bs) (hps : ps.Perm (pointers heapStart bs)) :
    Normal (ps.foldl Heap.kfree m) [Block.initial] := by
  induction ps generalizing m bs with
  | nil =>
      have hnone : allocated heapStart bs = [] := by
        rw [pointers_eq] at hps
        exact List.map_eq_nil_iff.mp hps.nil_eq.symm
      have hinitial : Normal (kmallocInit m) [Block.initial] :=
        ⟨rep_kmallocInit m, .singleton _⟩
      rwa [h.eq hinitial hnone] at h
  | cons p ps ih =>
      obtain ⟨pre, b, post, rfl, halloc, rfl⟩ :=
        mem_pointers_iff.mp (hps.mem_iff.mp List.mem_cons_self)
      rw [List.foldl_cons]
      have hnext : Normal _ (release pre b post) := ⟨h.rep.kfree, h.canonical.release⟩
      exact ih hnext (hps.trans (pointers_release halloc)).cons_inv

end Structure

/-- From `kmalloc_init` on, in every state that is reached: a block that is allocated and freed
again leaves the block structure as it was, two blocks can be freed in either order, and when
all blocks have been freed, in any order, there is the one free block of `kmalloc_init`. -/
theorem HeapSys.structure_canonical {m : Mem} {s : HeapSys}
    (h : Reach HeapSys.step HeapSys.ok (HeapSys.boot m) s) :
    (∀ size p m', size < 2 ^ 32 → kmalloc s.mem size = some (p, m') → p ≠ 0 →
      ∃ es, blockStructure s.mem = some es ∧ blockStructure (kfree m' p) = some es) ∧
    (∀ p q, p ∈ s.live → q ∈ s.live → p ≠ q →
      ∃ es, blockStructure (kfree (kfree s.mem p) q) = some es ∧
        blockStructure (kfree (kfree s.mem q) p) = some es) ∧
    ∀ ps : List Nat, ps.Perm s.live →
      blockStructure (ps.foldl kfree s.mem) = some [⟨0x200000, 0x40000, false⟩] := by
  obtain ⟨bs, hinv⟩ := HeapSys.exists_inv h
  have hnormal : Normal s.mem bs := ⟨hinv.rep, hinv.canonical⟩
  refine ⟨?_, ?_, ?_⟩
  · intro size p m' _ hs hp
    obtain ⟨bs', x, htaken⟩ := hinv.kmalloc_taken hs hp
    exact ⟨_, hinv.rep.blockStructure, (htaken.undo m' htaken.inv.rep).rep.blockStructure⟩
  · intro p q hp hq hpq
    have hp' := hinv.live.mem_iff.mp hp
    have hq' := hinv.live.mem_iff.mp hq
    obtain ⟨bs₁, h₁, heq₁⟩ := hnormal.kfree hp'
    obtain ⟨bs₂, h₂, heq₂⟩ := h₁.kfree (mem_pointers_kfree hpq heq₁ hq')
    obtain ⟨cs₁, h₃, heq₃⟩ := hnormal.kfree hq'
    obtain ⟨cs₂, h₄, heq₄⟩ := h₃.kfree (mem_pointers_kfree hpq.symm heq₃ hp')
    obtain rfl : bs₂ = cs₂ := by
      apply h₂.eq h₄
      rw [heq₂, heq₁, heq₄, heq₃]
      apply List.eraseP_comm
      intro x _
      simp only [beq_iff_eq]
      omega
    exact ⟨_, h₂.rep.blockStructure, h₄.rep.blockStructure⟩
  · intro ps hps
    exact (hnormal.kfree_all (hps.trans hinv.live)).rep.blockStructure

theorem HeapSys.structure_canonical_three :
    ∃ s, Reach HeapSys.step HeapSys.ok (HeapSys.boot fun _ => 0) s ∧
      s.live = [0x200094, 0x200024, 0x200004] ∧
      blockStructure (kfree (kfree (kfree s.mem 0x200024) 0x200004) 0x200094) =
        some [⟨0x200000, 0x40000, false⟩] := by
  have hrun : ((some (HeapSys.boot fun _ => 0)).bind (runList HeapSys.step HeapSys.okFirst
      [.kmalloc 20, .kmalloc 100, .kmalloc 8])).any
        (fun s => s.live == [0x200094, 0x200024, 0x200004]) = true := by
    decide +kernel
  obtain ⟨s₀, s, hs₀, hreach, hlive⟩ := Reach.exists_of_runList hrun
  obtain rfl := Option.some.inj hs₀
  have hok := hreach.mono fun s a => HeapSys.okFirst_ok
  have hlive : s.live = [0x200094, 0x200024, 0x200004] := by simpa using hlive
  have hperm : [0x200024, 0x200004, 0x200094].Perm s.live := by
    rw [hlive]
    decide
  have hall := (HeapSys.structure_canonical hok).2.2 _ hperm
  rw [List.foldl_cons, List.foldl_cons, List.foldl_cons, List.foldl_nil] at hall
  exact ⟨s, hok, hlive, hall⟩

end SRos.Heap
