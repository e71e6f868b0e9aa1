import SRos.Heap.Invariant

/-!
# When an allocation fails

The free blocks are the maximal runs of unallocated bytes, as no two of them are neighbours. So
the first free block that is large enough is the first such run, and there is none only if no
run is large enough.
-/

namespace SRos.Heap

open Bytes Tiling

/-- The byte is in the heap and in no allocated block. -/
def Unallocated (m : Mem) (x : Nat) : Prop :=
  heapStart ≤ x ∧ x < heapEnd ∧
    ∀ hdr, Visited m hdr → blockIsAlloc m hdr = true → ¬ (hdr ≤ x ∧ x < hdr + blockSize m hdr)

/-- The `n` bytes from `a` on are unallocated, and the bytes next to them are not. -/
structure FreeRun (m : Mem) (a n : Nat) : Prop where
  pos : 0 < n
  bytes : ∀ x, a ≤ x → x < a + n → Unallocated m x
  before : ¬ Unallocated m (a - 1)
  behind : ¬ Unallocated m (a + n)

def roundUp8 (n : Nat) : Nat := (n + 7) / 8 * 8

theorem needSize_eq {size : Nat} (hpos : 1 ≤ size) (hsize : size ≤ 0xFFFFFFF0) :
    needSize size = roundUp8 size + 8 := by
  have hround : u32 (size + align - 1) &&& 0xFFFFFFF8 = roundUp8 size := by
    rw [u32_of_lt (by unfold align; omega), and_size (by unfold align; omega)]
    rfl
  unfold needSize
  simp only [hround]
  unfold roundUp8 headerSize minBlock
  rw [u32_of_lt (by omega), if_neg (by omega)]
  omega

section Runs

variable {m : Mem} {bs : List Block} {a x : Nat} {b : Block}

/-- The unallocated bytes are those of the free blocks. -/
theorem Rep.unallocated_iff (h : Rep m bs) :
    Unallocated m x ↔ ∃ c b, (c, b) ∈ placed Block.size heapStart bs ∧ b.alloc = false ∧ c ≤ x ∧
      x < c + b.size := by
  have hfilled := h.filled
  constructor
  · rintro ⟨hlow, hhigh, hnot⟩
    obtain ⟨c, b, hmem, hc⟩ := @exists_placed _ Block.size heapStart bs x hlow
      (by rw [hfilled]; exact hhigh)
    refine ⟨c, b, hmem, ?_, hc⟩
    have htag := h.tags _ hmem
    have hvisited := h.visited_iff.mpr (.inr ⟨b, hmem⟩)
    cases hb : b.alloc with
    | false => rfl
    | true =>
        refine absurd ?_ (hnot c hvisited ?_)
        · rw [blockSize_of_load htag.header]
          exact hc
        · rw [blockIsAlloc_of_load htag.header, hb]
  · rintro ⟨c, b, hmem, hfree, hx⟩
    have hrange := placed_range hmem
    rw [hfilled] at hrange
    refine ⟨by omega, ?_, ?_⟩
    · unfold heapEnd
      omega
    · intro hdr hvisited halloc hin
      rcases h.visited_iff.mp hvisited with rfl | ⟨d, hd⟩
      · unfold heapEnd at hin
        omega
      · have htag := h.tags _ hd
        rw [blockSize_of_load htag.header] at hin
        obtain ⟨rfl, rfl⟩ := placed_unique hmem hd hx hin
        rw [blockIsAlloc_of_load htag.header, hfree] at halloc
        cases halloc

theorem Rep.not_unallocated (h : Rep m bs) (hb : (a, b) ∈ placed Block.size heapStart bs)
    (halloc : b.alloc = true) (hx : a ≤ x ∧ x < a + b.size) : ¬ Unallocated m x := by
  intro hun
  obtain ⟨c, d, hd, hfree, hdx⟩ := h.unallocated_iff.mp hun
  obtain ⟨rfl, rfl⟩ := placed_unique hb hd hx hdx
  rw [halloc] at hfree
  cases hfree

/-- A free block is a maximal run. -/
theorem Rep.freeRun (h : Rep m bs) (hc : Canonical bs) (hb : (a, b) ∈ placed Block.size heapStart bs)
    (hfree : b.alloc = false) : FreeRun m a b.size := by
  have hsize := b.sixteen_le
  obtain ⟨pre, post, rfl, rfl⟩ := mem_placed_iff.mp hb
  obtain ⟨-, -, hlast, hhead⟩ := canonical_middle.mp hc
  refine ⟨by omega, ?_, ?_, ?_⟩
  · intro x hlow hhigh
    exact h.unallocated_iff.mpr ⟨_, b, hb, hfree, hlow, hhigh⟩
  · rcases List.eq_nil_or_concat pre with rfl | ⟨pre, p, rfl⟩
    · rintro ⟨hlow, -⟩
      unfold heapStart at hlow
      simp at hlow
    · have hp := p.sixteen_le
      have halloc : p.alloc = true := by simpa [hfree] using hlast p (by simp)
      refine h.not_unallocated (a := heapStart + total Block.size pre) (b := p) (by simp) halloc ?_
      simp only [List.concat_eq_append, total_append, total_cons, total_nil]
      omega
  · cases post with
    | nil =>
        rintro ⟨-, hhigh, -⟩
        have hroom := h.room
        rw [total_nil] at hroom
        unfold heapEnd at hhigh
        omega
    | cons c post =>
        have hcsize := c.sixteen_le
        have halloc : c.alloc = true := by simpa [hfree] using hhead c (by simp)
        refine h.not_unallocated (a := heapStart + total Block.size pre + b.size) (b := c)
          (by simp) halloc ?_
        omega

/-- The maximal runs of unallocated bytes are the free blocks. -/
theorem Rep.freeRun_iff (h : Rep m bs) (hc : Canonical bs) {n : Nat} :
    FreeRun m a n ↔ ∃ b, (a, b) ∈ placed Block.size heapStart bs ∧ b.alloc = false ∧ b.size = n := by
  constructor
  · intro hrun
    have hpos := hrun.pos
    obtain ⟨c, b, hb, hfree, hlow, hhigh⟩ := h.unallocated_iff.mp (hrun.bytes a le_rfl (by omega))
    have hblock := h.freeRun hc hb hfree
    have hca : c = a := by
      by_contra hne
      exact hrun.before (hblock.bytes (a - 1) (by omega) (by omega))
    subst hca
    refine ⟨b, hb, hfree, ?_⟩
    rcases Nat.lt_trichotomy b.size n with hlt | heq | hgt
    · exact absurd (hrun.bytes (c + b.size) (by omega) (by omega)) hblock.behind
    · exact heq
    · exact absurd (hblock.bytes (c + n) (by omega) (by omega)) hrun.behind
  · rintro ⟨b, hb, hfree, rfl⟩
    exact h.freeRun hc hb hfree

end Runs

/-- From `kmalloc_init` on, in every state that is reached, `kmalloc` returns for a size from 1
to `0xFFFFFFF0`. It returns `NULL` if and only if no maximal run of unallocated bytes has room for
the rounded size with header and footer, and then the memory is unchanged; otherwise it returns
the block at the first such run. -/
theorem HeapSys.kmalloc_first_fit {m : Mem} {s : HeapSys}
    (h : Reach HeapSys.step HeapSys.ok (HeapSys.boot m) s) {size : Nat} (hpos : 1 ≤ size)
    (hsize : size ≤ 0xFFFFFFF0) :
    ∃ p m', kmalloc s.mem size = some (p, m') ∧
      (p = 0 ↔ ¬ ∃ a n, FreeRun s.mem a n ∧ roundUp8 size + 8 ≤ n) ∧
      (p = 0 → m' = s.mem) ∧
      (p ≠ 0 → ∃ a n, p = a + 4 ∧ FreeRun s.mem a n ∧ roundUp8 size + 8 ≤ n ∧
        ∀ a' n', FreeRun s.mem a' n' → roundUp8 size + 8 ≤ n' → a ≤ a') := by
  obtain ⟨bs, hinv⟩ := HeapSys.exists_inv h
  have hneed : (Block.served size).size = roundUp8 size + 8 := needSize_eq hpos hsize
  have hne₀ : size ≠ 0 := by omega
  rcases hinv.rep.kmalloc hne₀ with ⟨hnone, hnull⟩ |
    ⟨pre, b, post, m', rfl, hpre, hfits, hret, -⟩
  · refine ⟨0, s.mem, hnull, ⟨fun _ => ?_, fun _ => rfl⟩, fun _ => rfl, fun hne => absurd rfl hne⟩
    rintro ⟨a, n, hrun, hn⟩
    obtain ⟨b, hb, hfree, rfl⟩ := (hinv.rep.freeRun_iff hinv.canonical).mp hrun
    obtain ⟨pre, post, rfl, -⟩ := mem_placed_iff.mp hb
    exact hnone b (by simp) ⟨hfree, by rw [hneed]; exact hn⟩
  · have hne : heapStart + total Block.size pre + headerSize ≠ 0 := by
      unfold headerSize
      omega
    have hrun : FreeRun s.mem (heapStart + total Block.size pre) b.size :=
      hinv.rep.freeRun hinv.canonical (by simp) hfits.1
    have hroom : roundUp8 size + 8 ≤ b.size := by
      rw [← hneed]
      exact hfits.2
    refine ⟨_, m', hret, ⟨fun heq => absurd heq hne, fun hno => absurd ⟨_, _, hrun, hroom⟩ hno⟩,
      fun heq => absurd heq hne, fun _ => ⟨_, _, rfl, hrun, hroom, ?_⟩⟩
    intro a' n' hrun' hn'
    obtain ⟨c, hc, hfree, rfl⟩ := (hinv.rep.freeRun_iff hinv.canonical).mp hrun'
    rw [placed_append, placed_cons] at hc
    rcases List.mem_append.mp hc with hin | hin
    · -- a block in front of the one that is taken is too small
      obtain ⟨pre₁, post₁, rfl, -⟩ := mem_placed_iff.mp hin
      exact absurd ⟨hfree, by rw [hneed]; exact hn'⟩ (hpre c (by simp))
    · rcases List.mem_cons.mp hin with heq | hin
      · exact (Prod.mk.inj heq).1.ge
      · have hrange := placed_range hin
        omega

theorem HeapSys.kmalloc_first_fit_hole :
    ∃ s p m', Reach HeapSys.step HeapSys.ok (HeapSys.boot fun _ => 0) s ∧
      kmalloc s.mem 100 = some (p, m') ∧ p ≠ 0 ∧
      ∃ a n, p = a + 4 ∧ FreeRun s.mem a n ∧ roundUp8 100 + 8 ≤ n := by
  have hrun : ((some (HeapSys.boot fun _ => 0)).bind (runList HeapSys.step HeapSys.okFirst
      [.kmalloc 5, .kmalloc 8, .kfree 0x200004])).any
        (fun s => (kmalloc s.mem 100).any fun r => r.1 != 0) = true := by
    decide +kernel
  obtain ⟨s₀, s, hs₀, hreach, htest⟩ := Reach.exists_of_runList hrun
  obtain rfl := Option.some.inj hs₀
  have hok := hreach.mono fun s a => HeapSys.okFirst_ok
  obtain ⟨p, m', hs, -, -, hfound⟩ :=
    HeapSys.kmalloc_first_fit hok (show 1 ≤ 100 by decide) (by decide)
  rw [hs] at htest
  have hp : p ≠ 0 := by simpa using htest
  obtain ⟨a, n, hpa, hfree, hn, -⟩ := hfound hp
  exact ⟨s, p, m', hok, hs, hp, a, n, hpa, hfree, hn⟩

end SRos.Heap
