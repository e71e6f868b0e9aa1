import SRos.Elf.Exec

/-!
# When the loader succeeds

Whether a step of the loader succeeds depends on the number of free frames and on which tables
and pages there are, and not on the contents of any page. Two address spaces that agree in this
respect are loaded alike.
-/

namespace SRos.Elf

open Bytes Fs Paging Loop

/-- The page is mapped in the current directory. -/
def isMapped (s : Vm) (p : Nat) : Bool := mapped s.mem s.cr3 (p / 1024) (p % 1024)

section Mapped

variable {own : Nat → Kind} {s s' : Vm} {p o : Nat}

theorem isSome_translate (h : Laid own s) (ho : o < 4096) :
    (s.translate (p * 4096 + o)).isSome = isMapped s p := by
  rw [vaddr_page, vaddr, translate_split h.core.cr3_frame (Nat.mod_lt p (by decide)) ho]
  unfold isMapped
  cases mapped s.mem s.cr3 (p / 1024) (p % 1024) <;> rfl

/-- The mapped pages after an allocation. -/
theorem isMapped_newPage {f q : Nat} {own' : Nat → Kind} (h : Laid own s)
    (hnew : NewPage own s (p / 1024) (p % 1024) f own' s') (hq : UserPage q) :
    isMapped s' q = (decide (q = p) || isMapped s q) := by
  rw [← isSome_translate (o := 0) hnew.laid (by omega), ← isSome_translate (o := 0) h (by omega)]
  by_cases hqp : q = p
  · rw [hqp, vaddr_page, hnew.maps 0 (by omega)]
    simp
  · rw [vaddr_page, hnew.others _ _ 0 hq.entry.2 (Nat.mod_lt q (by decide)) (by omega) (by omega)]
    simp [hqp]

theorem storeByte_pde {g i : Nat} (h : Laid own s) (hg : own g = .page) (ho : o < 4096) (b : UInt8)
    (hi : i < 1024) :
    pdeAt (Function.update s.mem (g + o) b) s.cr3 i = pdeAt s.mem s.cr3 i := by
  obtain ⟨k, hk⟩ := h.cr3
  exact storeByte_word h hg ho b (by simp [hk, Kind.structural]) hi

theorem storeByte_isMapped {g q : Nat} (h : Laid own s) (hg : own g = .page) (ho : o < 4096)
    (b : UInt8) (hq : UserPage q) :
    isMapped { s with mem := Function.update s.mem (g + o) b } q = isMapped s q := by
  rw [← isSome_translate (o := 0) (storeByte_laid h hg ho b) (by omega),
    ← isSome_translate (o := 0) h (by omega), storeByte_translate h hg ho b hq (by omega)]

end Mapped

/-- The loader cannot tell these address spaces apart. -/
structure Alike (s t : Vm) : Prop where
  left : ∃ own, Laid own s
  right : ∃ own, Laid own t
  free : s.free.length = t.free.length
  pdes : ∀ i, 1 ≤ i → i < 1023 → present (pdeAt s.mem s.cr3 i) = present (pdeAt t.mem t.cr3 i)
  pages : ∀ p, UserPage p → isMapped s p = isMapped t p

namespace Alike

variable {s s' t : Vm} {p o a n : Nat} {fs : FsState} {ino : Nat}

theorem alloc (h : Alike s t) (hp : UserPage p) (hs : pagingAllocPage (p * 4096) s = some s') :
    ∃ t', pagingAllocPage (p * 4096) t = some t' ∧ Alike s' t' := by
  obtain ⟨own, hleft⟩ := h.left
  obtain ⟨own₁, hright⟩ := h.right
  have haddr : p * 4096 = vaddr (p / 1024) (p % 1024) 0 := by
    rw [← vaddr_page, Nat.add_zero]
  have hframes : framesForPage s (p / 1024) = framesForPage t (p / 1024) := by
    unfold framesForPage
    rw [h.pdes _ hp.entry.1 hp.entry.2]
  rw [haddr] at hs ⊢
  rcases hleft.allocPage_cases (o := 0) hp.entry.1 hp.entry.2 (Nat.mod_lt p (by decide)) (by omega) with
    ⟨f, own', s'', hs'', hnew, hlen⟩ | ⟨hnone, -⟩
  · obtain rfl : s'' = s' := Option.some.inj (hs''.symm.trans hs)
    rcases hright.allocPage_cases (o := 0) hp.entry.1 hp.entry.2 (Nat.mod_lt p (by decide))
      (by omega) with ⟨g, own₁', t', ht', hnew', hlen'⟩ | ⟨-, hlt⟩
    · refine ⟨t', ht', ⟨own', hnew.laid⟩, ⟨own₁', hnew'.laid⟩, ?_, ?_, ?_⟩
      · have := h.free
        omega
      · intro i hi₀ hi
        rw [hnew.cr3, hnew'.cr3, hnew.pdes i hi₀ hi, hnew'.pdes i hi₀ hi, h.pdes i hi₀ hi]
      · intro q hq
        rw [isMapped_newPage hleft hnew hq, isMapped_newPage hright hnew' hq, h.pages q hq]
    · have := h.free
      omega
  · rw [hnone] at hs
    cases hs

theorem write8 (h : Alike s t) (hp : UserPage p) (ho : o < 4096) {b : UInt8}
    (hs : s.write8 (p * 4096 + o) b = some s') :
    ∃ t', t.write8 (p * 4096 + o) b = some t' ∧ Alike s' t' := by
  obtain ⟨own, hleft⟩ := h.left
  obtain ⟨own₁, hright⟩ := h.right
  obtain ⟨a, ha, rfl⟩ := Option.map_eq_some_iff.mp hs
  obtain ⟨g, hg, rfl⟩ := translate_user hleft hp ho ha
  have hsome : (t.translate (p * 4096 + o)).isSome := by
    rw [isSome_translate hright ho, ← h.pages p hp, ← isSome_translate hleft ho, ha]
    rfl
  obtain ⟨a', ha'⟩ := Option.isSome_iff_exists.mp hsome
  obtain ⟨g', hg', rfl⟩ := translate_user hright hp ho ha'
  refine ⟨{ t with mem := Function.update t.mem (g' + o) b }, by rw [Vm.write8, ha', Option.map_some],
    ⟨own, storeByte_laid hleft hg ho b⟩, ⟨own₁, storeByte_laid hright hg' ho b⟩, h.free, ?_, ?_⟩
  · intro i hi₀ hi
    dsimp only
    rw [storeByte_pde hleft hg ho b (by omega), storeByte_pde hright hg' ho b (by omega)]
    exact h.pdes i hi₀ hi
  · intro q hq
    rw [storeByte_isMapped hleft hg ho b hq, storeByte_isMapped hright hg' ho b hq]
    exact h.pages q hq

theorem storeBytes (h : Alike s t) (hp : UserPage p) (hon : o + n ≤ 4096) {g : Nat → UInt8}
    (hs : storeBytes (p * 4096 + o) n g s = some s') :
    ∃ t', storeBytes (p * 4096 + o) n g t = some t' ∧ Alike s' t' := by
  unfold Elf.storeBytes at *
  induction n generalizing s' with
  | zero =>
      obtain rfl : s = s' := by simpa using hs
      exact ⟨t, rfl, h⟩
  | succ n ih =>
      rw [List.range_succ, List.foldlM_append] at hs
      obtain ⟨s₁, hs₁, hs⟩ := Option.bind_eq_some_iff.mp hs
      obtain ⟨t₁, ht₁, h₁⟩ := ih (by omega) hs₁
      have hwrite : s₁.write8 (p * 4096 + (o + n)) (g n) = some s' := by
        rw [← Nat.add_assoc]
        simpa using hs
      obtain ⟨t', ht', h'⟩ := h₁.write8 hp (by omega) hwrite
      refine ⟨t', ?_, h'⟩
      rw [List.range_succ, List.foldlM_append, ht₁]
      rw [← Nat.add_assoc] at ht'
      simpa using ht'

/-- A check that stops both runs, or neither. -/
theorem check {P : Prop} [Decidable P] {r : Int} {x y : Option (Int × Vm)} (h : Alike s t)
    (hs : (if P then some (-1, s) else x) = some (r, s'))
    (hk : ¬ P → x = some (r, s') → ∃ t', y = some (r, t') ∧ Alike s' t') :
    ∃ t', (if P then some (-1, t) else y) = some (r, t') ∧ Alike s' t' := by
  by_cases hP : P
  · rw [if_pos hP] at hs ⊢
    obtain ⟨rfl, rfl⟩ : -1 = r ∧ s = s' := by simpa using hs
    exact ⟨t, rfl, h⟩
  · rw [if_neg hP] at hs ⊢
    exact hk hP hs

theorem loadFile {fuel off : Nat} {r : Int} (h : Alike s t) (ha : 0x400000 ≤ a)
    (han : a + n ≤ 0xE0000000) (hs : loadFile fs ino fuel a off n s = some (r, s')) :
    ∃ t', loadFile fs ino fuel a off n t = some (r, t') ∧ Alike s' t' := by
  induction fuel generalizing s t a off n with
  | zero =>
      obtain ⟨rfl, rfl⟩ : 0 = r ∧ s = s' := by simpa [Elf.loadFile] using hs
      exact ⟨t, rfl, h⟩
  | succ fuel ih =>
      unfold Elf.loadFile at hs ⊢
      by_cases hn : n = 0
      · rw [if_pos hn] at hs ⊢
        obtain ⟨rfl, rfl⟩ : 0 = r ∧ s = s' := by simpa using hs
        exact ⟨t, rfl, h⟩
      · rw [if_neg hn] at hs ⊢
        have hp : UserPage (a / 4096) := by unfold UserPage; omega
        simp only [Option.bind_eq_bind, and_0xFFF, frameOf_page (show a < 2 ^ 32 by omega)] at hs ⊢
        generalize hm : min (4096 - a % 4096) n = m at hs ⊢
        obtain ⟨s₁, hs₁, hs⟩ := Option.bind_eq_some_iff.mp hs
        obtain ⟨t₁, ht₁, h₁⟩ := h.alloc hp hs₁
        rw [ht₁, Option.bind_some]
        refine h₁.check hs fun _ hs => ?_
        obtain ⟨s₂, hs₂, hs⟩ := Option.bind_eq_some_iff.mp hs
        obtain ⟨t₂, ht₂, h₂⟩ := h₁.storeBytes hp (by omega) hs₂
        rw [ht₂, Option.bind_some]
        rw [u32_of_lt (show a + m < 2 ^ 32 by omega)] at hs ⊢
        exact ih h₂ (by omega) (by omega) hs

theorem loadBss {fuel : Nat} (h : Alike s t) (ha : 0x400000 ≤ a) (han : a + n ≤ 0xE0000000)
    (hs : loadBss fuel a n s = some s') : ∃ t', loadBss fuel a n t = some t' ∧ Alike s' t' := by
  induction fuel generalizing s t a n with
  | zero =>
      obtain rfl : s = s' := by simpa [Elf.loadBss] using hs
      exact ⟨t, rfl, h⟩
  | succ fuel ih =>
      unfold Elf.loadBss at hs ⊢
      by_cases hn : n = 0
      · rw [if_pos hn] at hs ⊢
        obtain rfl : s = s' := by simpa using hs
        exact ⟨t, rfl, h⟩
      · rw [if_neg hn] at hs ⊢
        have hp : UserPage (a / 4096) := by unfold UserPage; omega
        have haddr : a / 4096 * 4096 + a % 4096 = a := by omega
        obtain ⟨own, hleft⟩ := h.left
        obtain ⟨own₁, hright⟩ := h.right
        have hmissing := pageMissing_eq (o := a % 4096) hleft hp (by omega)
        have hmissing' := pageMissing_eq (o := a % 4096) hright hp (by omega)
        have hsame := h.pages _ hp
        unfold isMapped at hsame
        rw [haddr, hsame] at hmissing
        rw [haddr] at hmissing'
        simp only [Option.bind_eq_bind, and_0xFFF, frameOf_page (show a < 2 ^ 32 by omega), hmissing,
          hmissing', Option.bind_some] at hs ⊢
        generalize hm : min (4096 - a % 4096) n = m at hs ⊢
        have hrest : ∀ {s₁ t₁ : Vm}, Alike s₁ t₁ →
            (Elf.storeBytes (a / 4096 * 4096 + a % 4096) m (fun _ => 0) s₁).bind
              (fun s => Elf.loadBss fuel (u32 (a + m)) (n - m) s) = some s' →
            ∃ t', (Elf.storeBytes (a / 4096 * 4096 + a % 4096) m (fun _ => 0) t₁).bind
              (fun s => Elf.loadBss fuel (u32 (a + m)) (n - m) s) = some t' ∧ Alike s' t' := by
          intro s₁ t₁ h₁ hs
          obtain ⟨s₂, hs₂, hs⟩ := Option.bind_eq_some_iff.mp hs
          obtain ⟨t₂, ht₂, h₂⟩ := h₁.storeBytes hp (by omega) hs₂
          rw [ht₂, Option.bind_some]
          rw [u32_of_lt (show a + m < 2 ^ 32 by omega)] at hs ⊢
          exact ih h₂ (by omega) (by omega) hs
        cases hmapped : mapped t.mem t.cr3 (a / 4096 / 1024) (a / 4096 % 1024) with
        | true =>
            rw [hmapped] at hs
            exact hrest h hs
        | false =>
            rw [hmapped] at hs
            obtain ⟨s₁, hs₁, hs⟩ := Option.bind_eq_some_iff.mp hs
            obtain ⟨t₁, ht₁, h₁⟩ := h.alloc hp hs₁
            obtain ⟨t', ht', h'⟩ := hrest h₁ hs
            exact ⟨t', by simpa [ht₁] using ht', h'⟩

theorem loadSegment {ph : Phdr} {r : Int} (h : Alike s t) (hph : InUser ph)
    (hs : loadSegment fs ino ph.pVaddr ph.pOffset ph.pFilesz ph.pMemsz s = some (r, s')) :
    ∃ t', loadSegment fs ino ph.pVaddr ph.pOffset ph.pFilesz ph.pMemsz t = some (r, t') ∧
      Alike s' t' := by
  have hsizes := hph.sizes
  by_cases hempty : ph.pMemsz = 0
  · have hnofile : ph.pFilesz = 0 := by omega
    rw [hempty, hnofile, loadSegment_empty] at hs ⊢
    obtain ⟨rfl, rfl⟩ : 0 = r ∧ s = s' := by simpa using hs
    exact ⟨t, rfl, h⟩
  have hlow := hph.low (by omega)
  have hhigh := hph.high (by omega)
  unfold Elf.loadSegment at hs ⊢
  simp only [Option.bind_eq_bind] at hs ⊢
  obtain ⟨⟨r₁, s₁⟩, hs₁, hs⟩ := Option.bind_eq_some_iff.mp hs
  obtain ⟨t₁, ht₁, h₁⟩ := h.loadFile hlow (by omega) hs₁
  rw [ht₁, Option.bind_some]
  dsimp only at hs ⊢
  refine h₁.check hs fun _ hs => ?_
  rw [u32_of_lt (by omega), u32Sub_of_le (by omega) hsizes] at hs ⊢
  obtain ⟨s₂, hs₂, hs⟩ := Option.bind_eq_some_iff.mp hs
  obtain ⟨rfl, rfl⟩ : 0 = r ∧ s₂ = s' := by simpa using hs
  obtain ⟨t₂, ht₂, h₂⟩ := h₁.loadBss (by omega) (by omega) hs₂
  exact ⟨t₂, by rw [ht₂, Option.bind_some], h₂⟩

theorem loadSegments {phoff : Nat} {is : List Nat} {r : Int} (h : Alike s t)
    (hseg : ∀ i ∈ is, hasPhdr fs ino phoff i → (phdrAt fs ino phoff i).pType = ptLoad →
      InUser (phdrAt fs ino phoff i))
    (hs : loadSegments fs ino phoff is s = some (r, s')) :
    ∃ t', loadSegments fs ino phoff is t = some (r, t') ∧ Alike s' t' := by
  induction is generalizing s t with
  | nil =>
      obtain ⟨rfl, rfl⟩ : 0 = r ∧ s = s' := by simpa [Elf.loadSegments] using hs
      exact ⟨t, rfl, h⟩
  | cons i is ih =>
      have hseg' := fun j hj => hseg j (List.mem_cons_of_mem i hj)
      unfold Elf.loadSegments at hs ⊢
      dsimp only at hs ⊢
      refine h.check hs fun hread hs => ?_
      have hhas : hasPhdr fs ino phoff i := by
        unfold hasPhdr
        omega
      split at hs
      · next htype =>
          rw [if_pos htype]
          exact ih h hseg' hs
      · next htype =>
          rw [if_neg htype]
          have hload : (phdrAt fs ino phoff i).pType = ptLoad := by
            simpa [phdrAt] using htype
          obtain ⟨⟨r₁, s₁⟩, hs₁, hs⟩ := Option.bind_eq_some_iff.mp hs
          have huser : InUser (phdrAt fs ino phoff i) := hseg i (by simp) hhas hload
          obtain ⟨t₁, ht₁, h₁⟩ := h.loadSegment huser hs₁
          unfold phdrAt at ht₁
          rw [Option.bind_eq_bind, ht₁, Option.bind_some]
          dsimp only at hs ⊢
          exact h₁.check hs fun _ hs => ih h₁ hseg' hs

theorem setupUserStack (h : Alike s t) (hs : setupUserStack s = some s') :
    ∃ t', setupUserStack t = some t' ∧ Alike s' t' := by
  unfold Elf.setupUserStack at *
  have hall : ∀ n ≤ 4, ∀ s', (List.range n).foldlM
      (fun s i => pagingAllocPage (userStackVaddr - (i + 1) * 0x1000) s) s = some s' →
      ∃ t', (List.range n).foldlM
        (fun s i => pagingAllocPage (userStackVaddr - (i + 1) * 0x1000) s) t = some t' ∧
        Alike s' t' := by
    intro n hn
    induction n with
    | zero =>
        intro s' hs
        obtain rfl : s = s' := by simpa using hs
        exact ⟨t, rfl, h⟩
    | succ n ih =>
        intro s' hs
        rw [List.range_succ, List.foldlM_append] at hs
        obtain ⟨s₁, hs₁, hs⟩ := Option.bind_eq_some_iff.mp hs
        obtain ⟨t₁, ht₁, h₁⟩ := ih (by omega) s₁ hs₁
        have haddr : userStackVaddr - (n + 1) * 0x1000 = (0xDFFFF - n) * 4096 := by
          unfold userStackVaddr
          omega
        have halloc : pagingAllocPage ((0xDFFFF - n) * 4096) s₁ = some s' := by
          rw [← haddr]
          simpa using hs
        obtain ⟨t', ht', h'⟩ := h₁.alloc (by unfold UserPage; omega) halloc
        refine ⟨t', ?_, h'⟩
        rw [List.range_succ, List.foldlM_append, ht₁]
        rw [← haddr] at ht'
        simpa using ht'
  exact hall 4 (le_refl 4) s' hs

/-- The loader ends in the same way on address spaces that are alike. -/
theorem exec {path : CStr} {regs regs' : Registers} {r : Int} (h : Alike s t)
    (hseg : ∀ ino, lookupPath fs path = some ino → hasEhdr fs ino → SegmentsInUser fs ino)
    (hs : elfLoadAndExec fs path regs s = some (r, regs', s')) :
    ∃ t', elfLoadAndExec fs path regs t = some (r, regs', t') := by
  unfold elfLoadAndExec at hs ⊢
  cases hfound : lookupPath fs path with
  | none =>
      rw [hfound] at hs
      obtain ⟨rfl, rfl, rfl⟩ : -1 = r ∧ regs = regs' ∧ s = s' := by simpa using hs
      exact ⟨t, rfl⟩
  | some ino =>
      rw [hfound] at hs
      dsimp only at hs ⊢
      split at hs
      · next hheader =>
          obtain ⟨rfl, rfl, rfl⟩ : -1 = r ∧ regs = regs' ∧ s = s' := by simpa using hs
          rw [if_pos hheader]
          exact ⟨t, rfl⟩
      · next hheader =>
          have hhas : hasEhdr fs ino := by
            unfold hasEhdr
            omega
          rw [if_neg hheader]
          split at hs
          · next hcheck =>
              obtain ⟨rfl, rfl, rfl⟩ : -1 = r ∧ regs = regs' ∧ s = s' := by simpa using hs
              rw [if_pos hcheck]
              exact ⟨t, rfl⟩
          · next hcheck =>
              rw [if_neg hcheck]
              obtain ⟨⟨r₁, s₁⟩, hs₁, hs⟩ := Option.bind_eq_some_iff.mp hs
              obtain ⟨t₁, ht₁, h₁⟩ := h.loadSegments
                (fun i hi => hseg ino hfound hhas i (List.mem_range.mp hi)) hs₁
              unfold ehdrAt at ht₁
              rw [Option.bind_eq_bind, ht₁, Option.bind_some]
              dsimp only at hs ⊢
              split at hs
              · next hneg =>
                  obtain ⟨rfl, rfl, rfl⟩ : -1 = r ∧ regs = regs' ∧ s₁ = s' := by simpa using hs
                  rw [if_pos hneg]
                  exact ⟨t₁, rfl⟩
              · next hneg =>
                  rw [if_neg hneg]
                  obtain ⟨s₂, hs₂, hs⟩ := Option.bind_eq_some_iff.mp hs
                  obtain ⟨t₂, ht₂, -⟩ := h₁.setupUserStack hs₂
                  refine ⟨t₂, ?_⟩
                  rw [Option.bind_eq_bind, ht₂, Option.bind_some]
                  simp only [Option.some.injEq, Prod.mk.injEq] at hs ⊢
                  exact ⟨hs.1, hs.2.1, trivial⟩

end Alike

end SRos.Elf
