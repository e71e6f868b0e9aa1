import SRos.Heap.Operations

/-!
# Free neighbours and live pointers

The block list has no two free neighbours, and the pointers that clients hold are those of its
allocated blocks. Both are facts about the list operations alone.
-/

namespace SRos.Heap

open Tiling

variable {a : Nat} {b need : Block} {pre post xs ys : List Block}

/-- No two neighbours are free. -/
def Canonical (bs : List Block) : Prop :=
  bs.IsChain fun b c => b.alloc = true ∨ c.alloc = true

theorem canonical_middle :
    Canonical (pre ++ b :: post) ↔ Canonical pre ∧ Canonical post ∧
      (∀ x ∈ pre.getLast?, x.alloc = true ∨ b.alloc = true) ∧
      (∀ y ∈ post.head?, b.alloc = true ∨ y.alloc = true) := by
  unfold Canonical
  rw [List.isChain_append, List.isChain_cons]
  simp only [List.head?_cons, Option.mem_some_iff, forall_eq']
  tauto

theorem Canonical.carve (h : Canonical (pre ++ b :: post)) (hneed : need.alloc = true)
    (hfree : b.alloc = false) : Canonical (pre ++ b.carve need ++ post) := by
  obtain ⟨hpre, hpost, -, hhead⟩ := canonical_middle.mp h
  rw [List.append_assoc]
  unfold Block.carve
  split
  · have hrest : Canonical (b.rest need ‹_› :: post) := by
      apply List.isChain_cons.mpr
      refine ⟨?_, hpost⟩
      intro y hy
      simpa [hfree, Block.rest] using hhead y hy
    apply canonical_middle.mpr
    simp [hpre, hrest, hneed]
  · apply canonical_middle.mpr
    simp [hpre, hpost, Block.mark]

/-- What joining with the next block leaves: a free block that no free block follows. -/
theorem absorbNext_spec (hfree : b.alloc = false) (h : Canonical post) :
    (absorbNext b post).1.alloc = false ∧ Canonical (absorbNext b post).2 ∧
      ∀ y ∈ (absorbNext b post).2.head?, y.alloc = true := by
  cases post with
  | nil => simpa [absorbNext] using ⟨hfree, h⟩
  | cons c post =>
      cases hc : c.alloc with
      | true =>
          rw [absorbNext_alloc hc]
          exact ⟨hfree, h, by simp [hc]⟩
      | false =>
          obtain ⟨hhead, hpost⟩ := List.isChain_cons.mp h
          rw [absorbNext_free hc]
          refine ⟨rfl, hpost, ?_⟩
          intro y hy
          simpa [hc] using hhead y hy

/-- What joining with the previous block leaves: a free block behind an allocated one. -/
theorem absorbPrev_spec (hfree : b.alloc = false) (h : Canonical pre) :
    ∃ pre' b', absorbPrev pre b = pre' ++ [b'] ∧ b'.alloc = false ∧ Canonical pre' ∧
      ∀ x ∈ pre'.getLast?, x.alloc = true := by
  rcases List.eq_nil_or_concat pre with rfl | ⟨pre, p, rfl⟩
  · exact ⟨[], b, rfl, hfree, h, by simp⟩
  · rw [List.concat_eq_append] at h ⊢
    cases hp : p.alloc with
    | true => exact ⟨pre ++ [p], b, absorbPrev_alloc hp, hfree, h, by simp [hp]⟩
    | false =>
        obtain ⟨hpre, -, hlast, -⟩ := canonical_middle.mp h
        refine ⟨pre, p.join b, absorbPrev_free hp, rfl, hpre, ?_⟩
        intro x hx
        simpa [hp] using hlast x hx

theorem Canonical.release (h : Canonical (pre ++ b :: post)) :
    Canonical (release pre b post) := by
  obtain ⟨hpre, hpost, -, -⟩ := canonical_middle.mp h
  obtain ⟨hfree, hrest, hhead⟩ := absorbNext_spec (b := b.mark false) rfl hpost
  obtain ⟨pre', b', heq, hfree', hpre', hlast⟩ := absorbPrev_spec hfree hpre
  unfold Heap.release
  rw [heq, List.append_assoc, List.singleton_append]
  apply canonical_middle.mpr
  refine ⟨hpre', hrest, ?_, ?_⟩
  · intro x hx
    exact .inl (hlast x hx)
  · intro y hy
    exact .inr (hhead y hy)

/-- The allocated blocks of a list that starts at `a`, with their addresses. -/
def allocated (a : Nat) (bs : List Block) : List (Nat × Block) :=
  (placed Block.size a bs).filter fun x => x.2.alloc

@[simp] theorem allocated_nil : allocated a [] = [] := rfl

theorem allocated_append :
    allocated a (xs ++ ys) = allocated a xs ++ allocated (a + total Block.size xs) ys := by
  simp [allocated]

theorem allocated_cons_alloc (h : b.alloc = true) :
    allocated a (b :: xs) = (a, b) :: allocated (a + b.size) xs := by
  simp [allocated, h]

theorem allocated_cons_free (h : b.alloc = false) :
    allocated a (b :: xs) = allocated (a + b.size) xs := by
  simp [allocated, h]

theorem allocated_middle (h : b.alloc = true) :
    allocated a (pre ++ b :: post) = allocated a pre ++
      (a + total Block.size pre, b) :: allocated (a + total Block.size pre + b.size) post := by
  rw [allocated_append, allocated_cons_alloc h]

/-- Taking a free block makes one allocated block of the size that is needed. -/
theorem allocated_carve (hneed : need.alloc = true) (hfits : need.Fits b) :
    ∃ x rest, b.carve need = x :: rest ∧ x.alloc = true ∧ need.size ≤ x.size ∧
      (∀ y ∈ rest, y.alloc = false) ∧
      allocated a (pre ++ b.carve need ++ post) = allocated a pre ++
        (a + total Block.size pre, x) :: allocated (a + total Block.size pre + b.size) post := by
  have htotal := total_carve hfits
  rw [List.append_assoc, allocated_append, allocated_append, htotal]
  unfold Block.carve at htotal ⊢
  split at htotal
  · next hsplit =>
      rw [dif_pos hsplit, allocated_cons_alloc hneed, allocated_cons_free rfl, allocated_nil]
      exact ⟨need, _, rfl, hneed, le_rfl, by simp [Block.rest], rfl⟩
  · next hsplit =>
      rw [dif_neg hsplit, allocated_cons_alloc rfl, allocated_nil]
      exact ⟨b.mark true, [], rfl, rfl, hfits.2, by simp, rfl⟩

theorem allocated_absorbNext (hfree : b.alloc = false) :
    (absorbNext b post).1.alloc = false ∧
    allocated (a + (absorbNext b post).1.size) (absorbNext b post).2 =
      allocated (a + b.size) post := by
  cases post with
  | nil => simp [absorbNext, hfree]
  | cons c post =>
      cases hc : c.alloc with
      | true => simp [absorbNext_alloc hc, hfree]
      | false =>
          simp [absorbNext_free hc, allocated_cons_free hc, Block.join, Nat.add_assoc]

theorem allocated_absorbPrev (hfree : b.alloc = false) :
    allocated a (absorbPrev pre b) = allocated a pre ∧
      total Block.size (absorbPrev pre b) = total Block.size pre + b.size := by
  rcases List.eq_nil_or_concat pre with rfl | ⟨pre, p, rfl⟩
  · simp [absorbPrev, allocated_cons_free hfree]
  · rw [List.concat_eq_append]
    cases hp : p.alloc with
    | true =>
        rw [absorbPrev_alloc hp, allocated_append, allocated_cons_free hfree, allocated_nil,
          List.append_nil]
        exact ⟨rfl, by simp [Nat.add_assoc]⟩
    | false =>
        have hjoin : (p.join b).alloc = false := rfl
        have hsize : (p.join b).size = p.size + b.size := rfl
        simp [absorbPrev_free hp, hsize, allocated_append, allocated_cons_free hp,
          allocated_cons_free hjoin, Nat.add_assoc]

/-- Freeing a block leaves the other allocated blocks where they are. -/
theorem allocated_release :
    allocated a (release pre b post) =
      allocated a pre ++ allocated (a + total Block.size pre + b.size) post := by
  obtain ⟨hfree, hnext⟩ :=
    @allocated_absorbNext (a + total Block.size pre) (b.mark false) post rfl
  obtain ⟨hprev, htotal⟩ := @allocated_absorbPrev a _ pre hfree
  have hsize : (b.mark false).size = b.size := rfl
  unfold release
  rw [allocated_append, hprev, htotal, ← Nat.add_assoc, hnext, hsize]

/-- The pointers to the allocated blocks of a list that starts at `a`. -/
def pointers (a : Nat) (bs : List Block) : List Nat :=
  ((placed Block.size a bs).filter fun x => x.2.alloc).map fun x => x.1 + headerSize

theorem pointers_eq (a : Nat) (bs : List Block) :
    pointers a bs = (allocated a bs).map fun x => x.1 + headerSize := rfl

theorem pairwise_placed (a : Nat) (bs : List Block) :
    (placed Block.size a bs).Pairwise fun x y => x.1 < y.1 := by
  induction bs generalizing a with
  | nil => exact .nil
  | cons b bs ih =>
      rw [placed_cons]
      refine (ih (a + b.size)).cons ?_
      intro y hy
      have hrange := placed_range (c := y.1) (b := y.2) hy
      have hsize := b.sixteen_le
      omega

/-- Different blocks have different pointers. -/
theorem nodup_pointers (a : Nat) (bs : List Block) : (pointers a bs).Nodup := by
  rw [pointers_eq, List.nodup_iff_pairwise_ne, List.pairwise_map]
  refine ((pairwise_placed a bs).filter _).imp ?_
  intro x y hlt
  omega

/-- A pointer in the list is that of an allocated block. -/
theorem mem_pointers_iff {p : Nat} {bs : List Block} :
    p ∈ pointers a bs ↔ ∃ pre b post, bs = pre ++ b :: post ∧ b.alloc = true ∧
      p = a + total Block.size pre + headerSize := by
  unfold pointers
  simp only [List.mem_map, List.mem_filter, Prod.exists, mem_placed_iff]
  constructor
  · rintro ⟨c, b, ⟨⟨pre, post, hbs, hc⟩, halloc⟩, hp⟩
    exact ⟨pre, b, post, hbs, halloc, by rw [← hp, hc]⟩
  · rintro ⟨pre, b, post, hbs, halloc, hp⟩
    exact ⟨a + total Block.size pre, b, ⟨⟨pre, post, hbs, rfl⟩, halloc⟩, hp.symm⟩

theorem pointers_carve (hneed : need.alloc = true) (hfits : need.Fits b) :
    (pointers a (pre ++ b.carve need ++ post)).Perm
      ((a + total Block.size pre + headerSize) :: pointers a (pre ++ b :: post)) := by
  obtain ⟨x, rest, -, -, -, -, hcarve⟩ := @allocated_carve a b need pre post hneed hfits
  rw [pointers_eq, pointers_eq, hcarve, allocated_append, allocated_cons_free hfits.1,
    List.map_append, List.map_cons, List.map_append]
  exact List.perm_middle

/-- Freeing a block takes its pointer out of the list. -/
theorem pointers_release (halloc : b.alloc = true) :
    (pointers a (pre ++ b :: post)).Perm
      ((a + total Block.size pre + headerSize) :: pointers a (release pre b post)) := by
  rw [pointers_eq, pointers_eq, allocated_release, allocated_middle halloc, List.map_append,
    List.map_cons, List.map_append]
  exact List.perm_middle

/-- A free block is followed by an allocated one, or it is the last. -/
theorem Canonical.behind_free {bs : List Block} (h : Canonical (b :: bs)) (hfree : b.alloc = false) :
    bs = [] ∨ ∃ d ds, bs = d :: ds ∧ allocated a (b :: bs) =
      (a + b.size, d) :: allocated (a + b.size + d.size) ds := by
  cases bs with
  | nil => exact .inl rfl
  | cons d ds =>
      have hnext := (List.isChain_cons.mp h).1 d rfl
      have hd : d.alloc = true := by simpa [hfree] using hnext
      exact .inr ⟨d, ds, rfl, by rw [allocated_cons_free hfree, allocated_cons_alloc hd]⟩

theorem Block.eq_of_free {c : Block} (hb : b.alloc = false) (hc : c.alloc = false)
    (hsize : b.size = c.size) : b = c := by
  cases b
  cases c
  simp_all

theorem Canonical.head_eq {c : Block} {bs cs : List Block} (hb : Canonical (b :: bs))
    (hc : Canonical (c :: cs)) (htotal : total Block.size (b :: bs) = total Block.size (c :: cs))
    (heq : allocated a (b :: bs) = allocated a (c :: cs)) : b = c := by
  have hsize := b.sixteen_le
  have hsize' := c.sixteen_le
  cases hba : b.alloc with
  | true =>
      rw [allocated_cons_alloc hba] at heq
      cases hca : c.alloc with
      | true =>
          rw [allocated_cons_alloc hca] at heq
          exact (Prod.mk.inj (List.cons.inj heq).1).2
      | false =>
          rcases hc.behind_free (a := a) hca with rfl | ⟨d, ds, rfl, hd⟩
          · simp [allocated_cons_free hca] at heq
          · rw [hd] at heq
            have := (Prod.mk.inj (List.cons.inj heq).1).1
            omega
  | false =>
      cases hca : c.alloc with
      | true =>
          rw [allocated_cons_alloc hca] at heq
          rcases hb.behind_free (a := a) hba with rfl | ⟨d, ds, rfl, hd⟩
          · simp [allocated_cons_free hba] at heq
          · rw [hd] at heq
            have := (Prod.mk.inj (List.cons.inj heq).1).1
            omega
      | false =>
          apply Block.eq_of_free hba hca
          rcases hb.behind_free (a := a) hba with rfl | ⟨d, ds, rfl, hd⟩
          · rcases hc.behind_free (a := a) hca with rfl | ⟨e, es, rfl, he⟩
            · simpa using htotal
            · rw [he] at heq
              simp [allocated_cons_free hba] at heq
          · rcases hc.behind_free (a := a) hca with rfl | ⟨e, es, rfl, he⟩
            · rw [hd] at heq
              simp [allocated_cons_free hca] at heq
            · rw [hd, he] at heq
              have := (Prod.mk.inj (List.cons.inj heq).1).1
              omega

/-- A list without free neighbours is determined by its allocated blocks. -/
theorem Canonical.eq_of_allocated {bs cs : List Block} (hb : Canonical bs) (hc : Canonical cs)
    (htotal : total Block.size bs = total Block.size cs) (heq : allocated a bs = allocated a cs) :
    bs = cs := by
  induction bs generalizing a cs with
  | nil =>
      cases cs with
      | nil => rfl
      | cons c cs =>
          have hsize := c.sixteen_le
          rw [total_nil, total_cons] at htotal
          omega
  | cons b bs ih =>
      cases cs with
      | nil =>
          have hsize := b.sixteen_le
          rw [total_nil, total_cons] at htotal
          omega
      | cons c cs =>
          suffices hbc : b = c by
            subst hbc
            have hrest : allocated (a + b.size) bs = allocated (a + b.size) cs := by
              cases halloc : b.alloc with
              | true => simpa [allocated_cons_alloc halloc] using heq
              | false => simpa [allocated_cons_free halloc] using heq
            rw [total_cons, total_cons] at htotal
            rw [ih (List.isChain_cons.mp hb).2 (List.isChain_cons.mp hc).2 (by omega) hrest]
          exact hb.head_eq hc htotal heq

end SRos.Heap
