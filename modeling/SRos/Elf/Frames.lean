import SRos.Elf.Image
import SRos.Elf.Progress

/-!
# How many frames the loader needs

Every pass of a loop of the loader takes a byte at least and two frames at most, one for the page
and one for a table. With that many free frames a file that has all its headers is loaded.
-/

namespace SRos.Elf

open Bytes Fs Paging Loop

/-- The address space has `k` free frames at least. -/
structure Room (k : Nat) (s : Vm) : Prop where
  laid : ∃ own, Laid own s
  free : k ≤ s.free.length

namespace Room

variable {s : Vm} {k p o a n : Nat} {fs : FsState} {ino : Nat}

theorem weaken {j : Nat} (h : Room k s) (hj : j ≤ k) : Room j s := ⟨h.laid, hj.trans h.free⟩

theorem alloc (h : Room (k + 2) s) (hp : UserPage p) :
    ∃ s', pagingAllocPage (p * 4096) s = some s' ∧ Room k s' ∧ isMapped s' p = true := by
  obtain ⟨own, hlaid⟩ := h.laid
  have hfree := h.free
  have hneed : framesForPage s (p / 1024) ≤ 2 := by
    unfold framesForPage
    split <;> omega
  have haddr : p * 4096 = vaddr (p / 1024) (p % 1024) 0 := by
    rw [← vaddr_page, Nat.add_zero]
  rw [haddr]
  rcases hlaid.allocPage_cases (o := 0) hp.entry.1 hp.entry.2 (Nat.mod_lt p (by decide)) (by omega) with
    ⟨f, own', s', hs', hnew, hlen⟩ | ⟨-, hless⟩
  · refine ⟨s', hs', ⟨⟨own', hnew.laid⟩, by omega⟩, ?_⟩
    rw [isMapped_newPage hlaid hnew hp]
    simp
  · omega

theorem storeBytes (h : Room k s) (hp : UserPage p) (hmapped : isMapped s p = true)
    (hon : o + n ≤ 4096) (g : Nat → UInt8) :
    ∃ s', storeBytes (p * 4096 + o) n g s = some s' ∧ Room k s' := by
  obtain ⟨own, hlaid⟩ := h.laid
  obtain ⟨s', hs', hdone⟩ := foldlM_range (f := fun s i => s.write8 (p * 4096 + o + i) (g i)) (n := n)
    (fun _ t => Laid own t ∧ t.free = s.free ∧ isMapped t p = true) ⟨hlaid, rfl, hmapped⟩ (by
      intro i t hi ⟨ht, hfree, hmap⟩
      have hsome := @isSome_translate own t p (o + i) ht (by omega)
      rw [hmap] at hsome
      obtain ⟨b, hb⟩ := Option.isSome_iff_exists.mp hsome
      obtain ⟨f, hf, rfl⟩ := translate_user ht hp (by omega) hb
      refine ⟨_, by rw [Nat.add_assoc, Vm.write8, hb, Option.map_some],
        storeByte_laid ht hf (by omega) _, hfree, ?_⟩
      rw [storeByte_isMapped ht hf (by omega) _ hp]
      exact hmap)
  exact ⟨s', hs', ⟨own, hdone.1⟩, by rw [hdone.2.1]; exact h.free⟩

theorem loadFile {fuel off : Nat} (h : Room (k + 2 * n) s)
    (hread : ∀ m ≤ 4096, ∀ off, 0 ≤ (readFileAt fs ino zeros m off).1) (ha : 0x400000 ≤ a)
    (han : a + n ≤ 0xE0000000) :
    ∃ s', loadFile fs ino fuel a off n s = some (0, s') ∧ Room k s' := by
  induction fuel generalizing s a off n with
  | zero => exact ⟨s, rfl, h.weaken (by omega)⟩
  | succ fuel ih =>
      unfold Elf.loadFile
      by_cases hn : n = 0
      · rw [if_pos hn]
        exact ⟨s, rfl, h.weaken (by omega)⟩
      · have hp : UserPage (a / 4096) := by unfold UserPage; omega
        simp only [if_neg hn, Option.bind_eq_bind, and_0xFFF, frameOf_page (show a < 2 ^ 32 by omega)]
        generalize hm : min (4096 - a % 4096) n = m
        obtain ⟨s₁, hs₁, h₁, hmapped⟩ :=
          alloc (k := k + 2 * (n - m)) (h.weaken (by omega)) hp
        have hcount := hread m (by omega) off
        rw [hs₁, Option.bind_some, if_neg (by omega)]
        obtain ⟨s₂, hs₂, h₂⟩ := h₁.storeBytes hp hmapped (show a % 4096 + m ≤ 4096 by omega)
          (readFileAt fs ino zeros m off).2
        rw [hs₂, Option.bind_some, u32_of_lt (show a + m < 2 ^ 32 by omega)]
        exact ih h₂ (by omega) (by omega)

theorem loadBss {fuel : Nat} (h : Room (k + 2 * n) s) (ha : 0x400000 ≤ a) (han : a + n ≤ 0xE0000000) :
    ∃ s', loadBss fuel a n s = some s' ∧ Room k s' := by
  induction fuel generalizing s a n with
  | zero => exact ⟨s, rfl, h.weaken (by omega)⟩
  | succ fuel ih =>
      unfold Elf.loadBss
      by_cases hn : n = 0
      · rw [if_pos hn]
        exact ⟨s, rfl, h.weaken (by omega)⟩
      · have hp : UserPage (a / 4096) := by unfold UserPage; omega
        have haddr : a / 4096 * 4096 + a % 4096 = a := by omega
        obtain ⟨own, hlaid⟩ := h.laid
        have hmissing := pageMissing_eq (o := a % 4096) hlaid hp (by omega)
        rw [haddr] at hmissing
        simp only [if_neg hn, Option.bind_eq_bind, and_0xFFF, frameOf_page (show a < 2 ^ 32 by omega),
          hmissing, Option.bind_some]
        generalize hm : min (4096 - a % 4096) n = m
        have hpage : ∃ s₁, (if (!mapped s.mem s.cr3 (a / 4096 / 1024) (a / 4096 % 1024)) = true then
            pagingAllocPage (a / 4096 * 4096) s else some s) = some s₁ ∧
            Room (k + 2 * (n - m)) s₁ ∧ isMapped s₁ (a / 4096) = true := by
          cases hmapped : mapped s.mem s.cr3 (a / 4096 / 1024) (a / 4096 % 1024) with
          | true => exact ⟨s, rfl, h.weaken (by omega), hmapped⟩
          | false => exact alloc (h.weaken (by omega)) hp
        obtain ⟨s₁, hs₁, h₁, hmapped⟩ := hpage
        obtain ⟨s₂, hs₂, h₂⟩ := h₁.storeBytes hp hmapped (show a % 4096 + m ≤ 4096 by omega)
          fun _ => 0
        obtain ⟨s₃, hs₃, h₃⟩ := ih h₂ (show 0x400000 ≤ a + m by omega) (by omega)
        refine ⟨s₃, ?_, h₃⟩
        rw [← u32_of_lt (show a + m < 2 ^ 32 by omega)] at hs₃
        cases hmapped' : mapped s.mem s.cr3 (a / 4096 / 1024) (a / 4096 % 1024) with
        | true =>
            rw [hmapped'] at hs₁
            obtain rfl : s = s₁ := by simpa using hs₁
            simp [hs₂, hs₃]
        | false =>
            rw [hmapped'] at hs₁
            have halloc : pagingAllocPage (a / 4096 * 4096) s = some s₁ := by simpa using hs₁
            simp [halloc, hs₂, hs₃]

theorem loadSegment {ph : Phdr} (h : Room (k + 2 * ph.pMemsz) s) (hph : InUser ph)
    (hread : ∀ m ≤ 4096, ∀ off, 0 ≤ (readFileAt fs ino zeros m off).1) :
    ∃ s', loadSegment fs ino ph.pVaddr ph.pOffset ph.pFilesz ph.pMemsz s = some (0, s') ∧ Room k s' := by
  have hsizes := hph.sizes
  by_cases hempty : ph.pMemsz = 0
  · have hnofile : ph.pFilesz = 0 := by omega
    rw [hempty, hnofile, loadSegment_empty]
    exact ⟨s, rfl, h.weaken (by omega)⟩
  have hlow := hph.low (by omega)
  have hhigh := hph.high (by omega)
  have hfile : ∃ s₁, Elf.loadFile fs ino ph.pFilesz ph.pVaddr ph.pOffset ph.pFilesz s = some (0, s₁) ∧
      Room (k + 2 * (ph.pMemsz - ph.pFilesz)) s₁ :=
    loadFile (h.weaken (by omega)) hread hlow (by omega)
  obtain ⟨s₁, hs₁, h₁⟩ := hfile
  have hbss : ∃ s₂, Elf.loadBss (ph.pMemsz - ph.pFilesz) (ph.pVaddr + ph.pFilesz)
      (ph.pMemsz - ph.pFilesz) s₁ = some s₂ ∧ Room k s₂ := h₁.loadBss (by omega) (by omega)
  obtain ⟨s₂, hs₂, h₂⟩ := hbss
  refine ⟨s₂, ?_, h₂⟩
  unfold Elf.loadSegment
  rw [u32_of_lt (by omega), u32Sub_of_le (by omega) hsizes]
  simp [hs₁, hs₂]

/-- The bytes that a list of segments takes. -/
def memBytes (segs : List Phdr) : Nat := (segs.map Phdr.pMemsz).sum

theorem loadSegments {phoff : Nat} {is : List Nat}
    (h : Room (k + 2 * memBytes (segmentsAt fs ino phoff is)) s)
    (hread : ∀ m ≤ 4096, ∀ off, 0 ≤ (readFileAt fs ino zeros m off).1)
    (hphdrs : ∀ i ∈ is, hasPhdr fs ino phoff i)
    (hseg : ∀ i ∈ is, (phdrAt fs ino phoff i).pType = ptLoad → InUser (phdrAt fs ino phoff i)) :
    ∃ s', loadSegments fs ino phoff is s = some (0, s') ∧ Room k s' := by
  induction is generalizing s with
  | nil => exact ⟨s, rfl, h.weaken (by omega)⟩
  | cons i is ih =>
      have hhas := hphdrs i (by simp)
      unfold hasPhdr at hhas
      have hphdrs' := fun j hj => hphdrs j (List.mem_cons_of_mem i hj)
      have hseg' := fun j hj => hseg j (List.mem_cons_of_mem i hj)
      unfold Elf.loadSegments
      dsimp only
      rw [if_neg (by omega)]
      change ∃ s', (if (phdrAt fs ino phoff i).pType ≠ ptLoad then _ else
        Option.bind (Elf.loadSegment fs ino (phdrAt fs ino phoff i).pVaddr
          (phdrAt fs ino phoff i).pOffset (phdrAt fs ino phoff i).pFilesz
          (phdrAt fs ino phoff i).pMemsz s) _) = _ ∧ _
      by_cases htype : (phdrAt fs ino phoff i).pType = ptLoad
      · have hsum : memBytes (segmentsAt fs ino phoff (i :: is)) =
            (phdrAt fs ino phoff i).pMemsz + memBytes (segmentsAt fs ino phoff is) := by
          simp [segmentsAt, memBytes, htype]
        rw [if_neg (by simpa using htype)]
        obtain ⟨s₁, hs₁, h₁⟩ := loadSegment (k := k + 2 * memBytes (segmentsAt fs ino phoff is))
          (h.weaken (by omega)) (hseg i (by simp) htype) hread
        obtain ⟨s₂, hs₂, h₂⟩ := ih h₁ hphdrs' hseg'
        exact ⟨s₂, by simp [hs₁, hs₂], h₂⟩
      · have hsegs : segmentsAt fs ino phoff (i :: is) = segmentsAt fs ino phoff is := by
          simp [segmentsAt, htype]
        rw [if_pos (by simpa using htype)]
        rw [hsegs] at h
        exact ih h hphdrs' hseg'

theorem setupUserStack (h : Room (k + 8) s) : ∃ s', setupUserStack s = some s' ∧ Room k s' := by
  obtain ⟨s', hs', hdone⟩ := foldlM_range
    (f := fun s i => pagingAllocPage (userStackVaddr - (i + 1) * 0x1000) s) (n := userStackPages)
    (fun i t => Room (k + 2 * (4 - i)) t) h (by
      intro i t hi ht
      have hi' : i < 4 := hi
      have haddr : userStackVaddr - (i + 1) * 0x1000 = (0xDFFFF - i) * 4096 := by
        unfold userStackVaddr
        omega
      obtain ⟨t', ht', hroom, -⟩ := alloc (k := k + 2 * (4 - (i + 1))) (ht.weaken (by omega))
        (show UserPage (0xDFFFF - i) by unfold UserPage; omega)
      exact ⟨t', by rw [haddr]; exact ht', hroom⟩)
  exact ⟨s', hs', hdone⟩

/-- A program is loaded if there are frames for it. -/
theorem exec {path : CStr} (regs : Registers) (hfs : DataInv fs)
    (hfound : lookupPath fs path = some ino) (hfile : IsFile (image fs.disk) ino)
    (hhas : hasEhdr fs ino) (hcheck : elfCheckFile (ehdrAt fs ino) = true)
    (hphdrs : ∀ i < (ehdrAt fs ino).ePhnum, hasPhdr fs ino (ehdrAt fs ino).ePhoff i)
    (hseg : SegmentsInUser fs ino) (h : Room (2 * memBytes (segments fs ino) + 8) s) :
    ∃ s', elfLoadAndExec fs path regs s = some (0, startRegs (ehdrAt fs ino).eEntry regs, s') := by
  have hread : ∀ m ≤ 4096, ∀ off, 0 ≤ (readFileAt fs ino zeros m off).1 := by
    intro m hm off
    rw [(readFileAt_spec hfs hfile (by omega)).1]
    exact Int.natCast_nonneg _
  obtain ⟨s₁, hs₁, h₁⟩ := loadSegments (k := 8) (h.weaken (by unfold segments; omega)) hread
    (fun i hi => hphdrs i (List.mem_range.mp hi))
    (fun i hi htype => hseg i (List.mem_range.mp hi) (hphdrs i (List.mem_range.mp hi)) htype)
  obtain ⟨s₂, hs₂, -⟩ := setupUserStack (k := 0) h₁
  refine ⟨s₂, ?_⟩
  unfold hasEhdr at hhas
  unfold elfLoadAndExec
  rw [hfound]
  dsimp only
  rw [if_neg (by omega)]
  change (if (!elfCheckFile (ehdrAt fs ino)) = true then _ else
    Option.bind (Elf.loadSegments fs ino (ehdrAt fs ino).ePhoff
      (List.range (ehdrAt fs ino).ePhnum) s) _) = _
  rw [hcheck, if_neg (by decide), hs₁]
  simp [hs₂, ehdrAt]

end Room

end SRos.Elf
