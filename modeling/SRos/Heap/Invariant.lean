import SRos.Lib.Run
import SRos.Heap.Canonical

/-!
# The heap under its clients

A run of the heap starts at `kmalloc_init`. In each step a client calls `kmalloc` with some
size, calls `kfree` on `NULL` or on a pointer it still holds, or writes one byte inside a block.
In every state that is reached the memory holds a block list without free neighbours, whose
allocated blocks are those that the clients hold.
-/

namespace SRos.Heap

open Bytes Tiling

/-- The memory, and the pointers returned by `kmalloc` and not yet freed. -/
structure HeapSys where
  mem : Mem
  live : List Nat

inductive HeapAct
  | kmalloc (size : Nat)
  | kfree (ptr : Nat)
  | write (addr : Nat) (byte : UInt8)

/-- The headers on the walk `cur = NEXT_BLOCK(cur)`, and the word where it ends. -/
inductive Visited (m : Mem) : Nat → Prop
  | start : Visited m heapStart
  | next {hdr : Nat} (h : Visited m hdr) (hsize : blockSize m hdr ≠ 0) :
      Visited m (nextBlock m hdr)

/-- The byte lies strictly between the header and the footer of a block of the walk. -/
def Payload (m : Mem) (addr : Nat) : Prop :=
  ∃ hdr, Visited m hdr ∧ blockSize m hdr ≠ 0 ∧ hdr + headerSize ≤ addr ∧
    addr + headerSize < hdr + blockSize m hdr

namespace HeapSys

def boot (m : Mem) : HeapSys := ⟨kmallocInit m, []⟩

def ok (s : HeapSys) : HeapAct → Prop
  | .kmalloc size => size < 2 ^ 32
  | .kfree ptr => ptr = 0 ∨ ptr ∈ s.live
  | .write addr _ => Payload s.mem addr

def step (s : HeapSys) : HeapAct → Option HeapSys
  | .kmalloc size => (kmalloc s.mem size).map fun r =>
      ⟨r.2, if r.1 = 0 then s.live else r.1 :: s.live⟩
  | .kfree ptr => some ⟨kfree s.mem ptr, s.live.erase ptr⟩
  | .write addr byte => some { s with mem := Function.update s.mem addr byte }

end HeapSys

variable {m : Mem} {bs pre post : List Block} {b : Block}

/-- The block that `kmalloc_init` makes. -/
def Block.initial : Block where
  size := heapSize
  alloc := false
  dvd := by decide
  minBlock_le := by decide

theorem rep_kmallocInit (m : Mem) : Rep (kmallocInit m) [Block.initial] := by
  have htag : Block.initial.tag = heapSize := rfl
  have hsize : Block.initial.size = heapSize := rfl
  have hheap : heapSize = 0x40000 := rfl
  unfold kmallocInit
  constructor
  · intro x hx
    rw [placed_cons, placed_nil, List.mem_singleton] at hx
    subst hx
    change Tagged _ heapStart Block.initial
    constructor
    · rw [load32_store32_ne (by omega), load32_store32_ne (by unfold headerSize; omega),
        load32_store32_same _ _ (by omega)]
      rfl
    · rw [load32_store32_ne (by unfold headerSize; omega)]
      exact load32_store32_same _ _ (by omega)
  · rfl
  · exact load32_store32_same _ _ (by decide)

/-- The walk visits the blocks of the list and the epilogue. -/
theorem Rep.visited_iff (h : Rep m bs) {hdr : Nat} :
    Visited m hdr ↔ hdr = heapEnd ∨ ∃ b, (hdr, b) ∈ placed Block.size heapStart bs := by
  constructor
  · intro hv
    induction hv with
    | start =>
        cases bs with
        | nil => exact absurd h.filled (by decide)
        | cons b bs => exact .inr ⟨b, by simp⟩
    | next _ hsize ih =>
        rcases ih with rfl | ⟨b, hb⟩
        · exact absurd h.blockSize_end (by rwa [h.filled])
        · obtain ⟨pre, post, rfl, rfl⟩ := mem_placed_iff.mp hb
          rw [h.nextBlock_eq]
          cases post with
          | nil => exact .inl (by rw [h.filled]; rfl)
          | cons c post => exact .inr ⟨c, mem_placed_iff.mpr ⟨pre ++ [b], post, by simp, rfl⟩⟩
  · have hwalk : ∀ pre post, bs = pre ++ post → Visited m (heapStart + total Block.size pre) := by
      intro pre
      induction pre using List.reverseRecOn with
      | nil => exact fun _ _ => .start
      | append_singleton pre b ih =>
          intro post hbs
          have hrep : Rep m (pre ++ b :: post) := by simpa [hbs] using h
          have hsize := b.sixteen_le
          rw [← hrep.nextBlock_eq]
          exact .next (ih (b :: post) (by simpa using hbs)) (by rw [hrep.blockSize_eq]; omega)
    rintro (rfl | ⟨b, hb⟩)
    · have hend := hwalk bs [] (by simp)
      rwa [h.filled] at hend
    · obtain ⟨pre, post, hbs, rfl⟩ := mem_placed_iff.mp hb
      exact hwalk pre (b :: post) hbs

/-- The bytes that clients may write are those between the tags of the blocks. -/
theorem Rep.payload_iff (h : Rep m bs) {addr : Nat} :
    Payload m addr ↔ ∃ hdr b, (hdr, b) ∈ placed Block.size heapStart bs ∧
      hdr + headerSize ≤ addr ∧ addr + headerSize < hdr + b.size := by
  have hsize : ∀ {hdr b}, (hdr, b) ∈ placed Block.size heapStart bs →
      blockSize m hdr = b.size := by
    intro hdr b hb
    obtain ⟨pre, post, rfl, rfl⟩ := mem_placed_iff.mp hb
    exact h.blockSize_eq
  constructor
  · intro ⟨hdr, hvisited, hne, hlo, hhi⟩
    rcases h.visited_iff.mp hvisited with rfl | ⟨b, hb⟩
    · exact absurd h.blockSize_end (by rwa [h.filled])
    · exact ⟨hdr, b, hb, hlo, hsize hb ▸ hhi⟩
  · intro ⟨hdr, b, hb, hlo, hhi⟩
    have h16 := b.sixteen_le
    refine ⟨hdr, h.visited_iff.mpr (.inr ⟨b, hb⟩), ?_, hlo, ?_⟩
    · rw [hsize hb]
      omega
    · rwa [hsize hb]

/-- The bytes between the tags of the blocks are in no tag. -/
theorem Rep.congr_payload {m' : Mem} (h : Rep m bs) (heq : ∀ i, ¬ Payload m i → m' i = m i) :
    Rep m' bs where
  tags := by
    intro x hx
    apply (h.tags x hx).congr_tags
    intro i hi hi' htag
    apply heq
    intro hpay
    obtain ⟨hdr, b, hb, hlo, hhi⟩ := h.payload_iff.mp hpay
    have hsame : x.1 = hdr ∧ x.2 = b :=
      placed_unique hx hb ⟨hi, hi'⟩ ⟨by omega, by omega⟩
    rw [← hsame.1] at hlo hhi
    rw [← hsame.2] at hhi
    omega
  filled := h.filled
  epilogue := by
    rw [← h.epilogue]
    apply load32_congr
    intro i hi _
    apply heq
    intro hpay
    obtain ⟨hdr, b, hb, -, hhi⟩ := h.payload_iff.mp hpay
    have hrange := placed_range hb
    rw [h.filled] at hrange
    unfold heapEnd at hi
    omega

/-- Changes between the tags of one block. -/
theorem Rep.congr_inside {m' : Mem} {hdr : Nat} (h : Rep m bs)
    (hb : (hdr, b) ∈ placed Block.size heapStart bs)
    (heq : ∀ i, i < hdr + headerSize ∨ hdr + b.size ≤ i + headerSize → m' i = m i) :
    Rep m' bs := by
  apply h.congr_payload
  intro i hnot
  apply heq
  by_contra hin
  exact hnot (h.payload_iff.mpr ⟨hdr, b, hb, by omega, by omega⟩)

theorem Rep.update_payload (h : Rep m bs) {addr : Nat} (hpay : Payload m addr) (x : UInt8) :
    Rep (Function.update m addr x) bs := by
  apply h.congr_payload
  intro i hnot
  apply Function.update_of_ne
  rintro rfl
  exact hnot hpay

namespace HeapSys

variable {s s' : HeapSys} {act : HeapAct}

/-- The memory holds a block list without free neighbours, and the live pointers are those of
its allocated blocks. -/
structure Inv (s : HeapSys) (bs : List Block) : Prop where
  rep : Rep s.mem bs
  canonical : Canonical bs
  live : s.live.Perm (pointers heapStart bs)

theorem boot_inv (m : Mem) : (boot m).Inv [Block.initial] where
  rep := rep_kmallocInit m
  canonical := .singleton _
  live := .refl _

/-- A call of `kmalloc` fails, or it takes a free block. -/
theorem Inv.kmalloc_cases {bs : List Block} {size p : Nat} {m' : Mem} (h : s.Inv bs)
    (hr : Heap.kmalloc s.mem size = some (p, m')) :
    (p = 0 ∧ m' = s.mem) ∨ ∃ pre b post x bs', size ≠ 0 ∧ bs = pre ++ b :: post ∧ b.alloc = false ∧
      p = heapStart + total Block.size pre + headerSize ∧ x.alloc = true ∧ needSize size ≤ x.size ∧
      Inv ⟨m', p :: s.live⟩ bs' ∧ allocated heapStart bs' = allocated heapStart pre ++
        (heapStart + total Block.size pre, x) ::
          allocated (heapStart + total Block.size pre + b.size) post := by
  by_cases hsize : size = 0
  · left
    obtain ⟨rfl, rfl⟩ : 0 = p ∧ s.mem = m' := by simpa [Heap.kmalloc, hsize] using hr
    exact ⟨rfl, rfl⟩
  · rcases h.rep.kmalloc hsize with ⟨-, hnull⟩ | ⟨pre, b, post, m₁, rfl, -, hfits, hret, hrep⟩
    · left
      rw [hnull] at hr
      obtain ⟨rfl, rfl⟩ : 0 = p ∧ s.mem = m' := by simpa using hr
      exact ⟨rfl, rfl⟩
    · right
      rw [hret] at hr
      obtain ⟨rfl, rfl⟩ :
          heapStart + total Block.size pre + headerSize = p ∧ m₁ = m' := by simpa using hr
      obtain ⟨x, rest, -, hx, hle, -, halloc⟩ :=
        @allocated_carve heapStart b (Block.served size) pre post rfl hfits
      exact ⟨pre, b, post, x, _, hsize, rfl, hfits.1, rfl, hx, hle,
        ⟨hrep, h.canonical.carve rfl hfits.1, (h.live.cons _).trans (pointers_carve rfl hfits).symm⟩,
        halloc⟩

theorem Inv.kmalloc {bs : List Block} (h : s.Inv bs) {size : Nat}
    (hs : s.step (.kmalloc size) = some s') : ∃ bs', s'.Inv bs' := by
  obtain ⟨⟨p, m'⟩, hr, rfl⟩ := Option.map_eq_some_iff.mp hs
  rcases h.kmalloc_cases hr with ⟨rfl, rfl⟩ | ⟨pre, b, post, x, bs', -, -, -, hp, -, -, hinv, -⟩
  · exact ⟨bs, h⟩
  · have hne : p ≠ 0 := by
      rw [hp]
      unfold heapStart
      omega
    dsimp only
    rw [if_neg hne]
    exact ⟨bs', hinv⟩

theorem Inv.kfree {bs : List Block} (h : s.Inv bs) {ptr : Nat} (hok : s.ok (.kfree ptr)) :
    ∃ bs', Inv ⟨Heap.kfree s.mem ptr, s.live.erase ptr⟩ bs' ∧
      allocated heapStart bs' ⊆ allocated heapStart bs := by
  by_cases hmem : ptr ∈ s.live
  · obtain ⟨pre, b, post, rfl, halloc, rfl⟩ := mem_pointers_iff.mp (h.live.mem_iff.mp hmem)
    refine ⟨release pre b post, ⟨?_, h.canonical.release, ?_⟩, ?_⟩
    · dsimp only
      exact h.rep.kfree
    · have hperm := (h.live.trans (pointers_release halloc)).erase
        (heapStart + total Block.size pre + headerSize)
      rwa [List.erase_cons_head] at hperm
    · intro x hx
      rw [allocated_release, List.mem_append] at hx
      rw [allocated_middle halloc, List.mem_append, List.mem_cons]
      rcases hx with hx | hx
      · exact .inl hx
      · exact .inr (.inr hx)
  · obtain rfl : ptr = 0 := hok.resolve_right hmem
    rw [List.erase_of_not_mem hmem]
    exact ⟨bs, h, List.Subset.refl _⟩

theorem Inv.step {bs : List Block} (h : s.Inv bs) (hok : s.ok act)
    (hs : s.step act = some s') : ∃ bs', s'.Inv bs' := by
  cases act with
  | kmalloc size => exact h.kmalloc hs
  | kfree ptr =>
      obtain rfl := Option.some.inj hs
      obtain ⟨bs', hinv, -⟩ := h.kfree hok
      exact ⟨bs', hinv⟩
  | write addr byte =>
      obtain rfl := Option.some.inj hs
      exact ⟨bs, h.rep.update_payload hok byte, h.canonical, h.live⟩

theorem exists_inv (h : Reach HeapSys.step ok (boot m) s) : ∃ bs, s.Inv bs := by
  apply h.invariant ⟨_, boot_inv m⟩
  intro s a s' hinv hok hs
  obtain ⟨bs, hbs⟩ := hinv
  exact hbs.step hok hs

end HeapSys

/-- The line of the dump for a block at an address. -/
def Block.entry (x : Nat × Block) : Entry := ⟨x.1, x.2.size, x.2.alloc⟩

/-- The dump walks over the block list. -/
theorem Rep.dumpWalk (h : Rep m (pre ++ post)) {fuel : Nat} (hfuel : post.length < fuel) :
    Heap.dumpWalk m fuel (heapStart + total Block.size pre) =
      some ((placed Block.size (heapStart + total Block.size pre) post).map Block.entry) := by
  induction post generalizing pre fuel with
  | nil =>
      obtain ⟨fuel, rfl⟩ := Nat.exists_eq_add_of_lt hfuel
      rw [List.append_nil] at h
      simp [Heap.dumpWalk, h.blockSize_end]
  | cons b post ih =>
      obtain ⟨fuel, rfl⟩ := Nat.exists_eq_add_of_lt hfuel
      have hsize := b.sixteen_le
      have hrest : Rep m (pre ++ [b] ++ post) := by simpa using h
      have hlt : post.length < (b :: post).length + fuel := by
        simp only [List.length_cons]
        omega
      rw [Heap.dumpWalk, h.blockSize_eq, h.blockIsAlloc_eq, h.nextBlock_eq, if_neg (by omega),
        ih hrest hlt]
      simp [Block.entry, Nat.add_assoc]

theorem Rep.kmallocDump (h : Rep m bs) :
    ∃ totals, Heap.kmallocDump m =
      some ((placed Block.size heapStart bs).map Block.entry, totals) := by
  have hnil : Rep m ([] ++ bs) := h
  have hwalk := hnil.dumpWalk h.length_lt_walkFuel
  simp only [total_nil, Nat.add_zero] at hwalk
  unfold Heap.kmallocDump
  rw [hwalk]
  exact ⟨_, rfl⟩

theorem Rep.kmalloc_returns (h : Rep m bs) (size : Nat) : ∃ r, Heap.kmalloc m size = some r := by
  by_cases hsize : size = 0
  · exact ⟨(0, m), by simp [Heap.kmalloc, hsize]⟩
  · rcases h.kmalloc hsize with ⟨-, hret⟩ | ⟨_, _, _, _, _, _, _, hret, _⟩
    · exact ⟨_, hret⟩
    · exact ⟨_, hret⟩

/-- The blocks of a dump follow one another from `a` to `z`. -/
def Tiles : Nat → List Entry → Nat → Prop
  | a, [], z => a = z
  | a, e :: es, z => e.addr = a ∧ Tiles (a + e.size) es z

theorem tiles_placed (a : Nat) (bs : List Block) :
    Tiles a ((placed Block.size a bs).map Block.entry) (a + total Block.size bs) := by
  induction bs generalizing a with
  | nil => rfl
  | cons b bs ih =>
      refine ⟨rfl, ?_⟩
      rw [total_cons, ← Nat.add_assoc]
      exact ih (a + b.size)

theorem Canonical.entries (h : Canonical bs) (a : Nat) :
    ((placed Block.size a bs).map Block.entry).IsChain
      fun e f => e.alloc = true ∨ f.alloc = true := by
  induction bs generalizing a with
  | nil => exact .nil
  | cons b bs ih =>
      obtain ⟨hhead, htail⟩ := List.isChain_cons.mp h
      rw [placed_cons, List.map_cons]
      apply (ih htail (a + b.size)).cons
      cases bs with
      | nil => simp
      | cons c bs => simpa [Block.entry] using hhead

/-- From `kmalloc_init` on, whatever the clients allocate and free and whatever they write
inside the blocks: the walk over the heap ends, its blocks tile the heap up to the epilogue,
which still holds the word it was given, every block is a multiple of eight of at least sixteen
bytes with equal header and footer, and no two neighbours are free. So `kmalloc` returns. -/
theorem HeapSys.heap_invariant {m : Mem} {s : HeapSys}
    (h : Reach HeapSys.step HeapSys.ok (HeapSys.boot m) s) :
    ∃ es totals, Heap.kmallocDump s.mem = some (es, totals) ∧
      (∀ hdr, Visited s.mem hdr ↔ hdr = heapEnd ∨ hdr ∈ es.map Entry.addr) ∧
      Tiles 0x200000 es 0x240000 ∧
      (load32 s.mem 0x240000 = load32 (kmallocInit m) 0x240000 ∧ blockSize s.mem 0x240000 = 0) ∧
      (∀ e ∈ es, 8 ∣ e.size ∧ 16 ≤ e.size ∧
        load32 s.mem e.addr = load32 s.mem (e.addr + e.size - 4)) ∧
      es.IsChain (fun e f => e.alloc = true ∨ f.alloc = true) ∧
      ∀ size, ∃ r, Heap.kmalloc s.mem size = some r := by
  obtain ⟨bs, hinv⟩ := HeapSys.exists_inv h
  obtain ⟨totals, hdump⟩ := hinv.rep.kmallocDump
  refine ⟨_, totals, hdump, ?_, ?_, ?_, ?_, hinv.canonical.entries heapStart,
    hinv.rep.kmalloc_returns⟩
  · intro hdr
    rw [hinv.rep.visited_iff]
    simp [Block.entry]
  · have htiles := tiles_placed heapStart bs
    rwa [hinv.rep.filled] at htiles
  · have hend := hinv.rep.blockSize_end
    rw [hinv.rep.filled] at hend
    exact ⟨hinv.rep.epilogue.trans (rep_kmallocInit m).epilogue.symm, hend⟩
  · intro e he
    obtain ⟨⟨a, b⟩, hb, rfl⟩ := List.mem_map.mp he
    have htag := hinv.rep.tags _ hb
    exact ⟨b.dvd, b.sixteen_le, htag.header.trans htag.footer.symm⟩

/-- The calls, and the writes inside the first block. -/
def HeapSys.okFirst (s : HeapSys) : HeapAct → Bool
  | .kmalloc size => size < 2 ^ 32
  | .kfree ptr => ptr = 0 || s.live.contains ptr
  | .write addr _ =>
      blockSize s.mem heapStart != 0 && heapStart + headerSize ≤ addr &&
        addr + headerSize < heapStart + blockSize s.mem heapStart

theorem HeapSys.okFirst_ok {s : HeapSys} {act : HeapAct} (h : s.okFirst act = true) :
    s.ok act := by
  cases act with
  | kmalloc size => simpa [okFirst, ok] using h
  | kfree ptr => simpa [okFirst, ok] using h
  | write addr byte =>
      simp only [okFirst, Bool.and_eq_true, bne_iff_ne, decide_eq_true_eq] at h
      exact ⟨heapStart, .start, h.1.1, h.1.2, h.2⟩

theorem HeapSys.heap_invariant_free :
    ∃ s, Reach HeapSys.step HeapSys.ok (HeapSys.boot fun _ => 0) s ∧ s.live = [0x200014] ∧
      ∃ es totals, Heap.kmallocDump s.mem = some (es, totals) ∧ Tiles 0x200000 es 0x240000 := by
  have hrun : ((some (HeapSys.boot fun _ => 0)).bind (runList HeapSys.step HeapSys.okFirst
      [.kmalloc 5, .kmalloc 100, .write 0x200008 7, .kfree 0x200004])).any
        (fun s => s.live == [0x200014]) = true := by
    decide +kernel
  obtain ⟨s₀, s, hs₀, hreach, hlive⟩ := Reach.exists_of_runList hrun
  obtain rfl := Option.some.inj hs₀
  have hok := hreach.mono fun s a => HeapSys.okFirst_ok
  obtain ⟨es, totals, hdump, -, htiles, -⟩ := HeapSys.heap_invariant hok
  exact ⟨s, hok, by simpa using hlive, es, totals, hdump, htiles⟩
end SRos.Heap
